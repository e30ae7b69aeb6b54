import ExprToCpp.Naming
import ExprToCpp.Refusal

/-!
# What ownership decides

The C++ types of handles to records and arrays, how an array is made, and how a handle is cast to another class. Nothing else
that is emitted depends on the ownership discipline.
-/

namespace ExprToCpp

/-- The C++ integer type of the same signedness and width. -/
def IntType.cppName (t : IntType) : String :=
  (if t.signed then "" else "u") ++ "int" ++ toString t.width.bits ++ "_t"

namespace Ownership

/-- The handle by which an object of a class or a vector is passed around; it does not own the object, unless all do. -/
def handle : Ownership → Cpp.Ty → Cpp.Ty
  | .raw, t | .uniqueAndRaw, t => .pointer t
  | .shared, t => .shared t

/-- The C++ type that holds the values of a type. -/
def cppType (o : Ownership) : ValueType → Cpp.Ty
  | .int t => .named t.cppName
  | .float .single => .named "float"
  | .float .double => .named "double"
  | .bool => .named "bool"
  | .str | .bytes => .named "std::string"
  | .array t => o.handle (.vector (o.cppType t))
  | .record path => o.handle (.named (Naming.qualifiedClass path))
  | .enum r => .named (Naming.enumType r)

/-- A new vector with the items given. There is no such form for shared pointers. -/
def makeArray (o : Ownership) (vector : Cpp.Ty) (items : List Cpp.Expr) : Except Refusal Cpp.Expr :=
  match o with
  | .raw => .ok (.new vector items)
  | .uniqueAndRaw => .ok (.own vector (.new vector items))
  | .shared => .error (.arrayNotConstructible o)

/-- A cast of a handle to a handle of another class. A shared pointer keeps its count only in a cast of its own. -/
def recast (o : Ownership) (target : Cpp.Ty) (value : Cpp.Expr) : Cpp.Expr :=
  match o with
  | .raw | .uniqueAndRaw => .staticCast (o.handle target) value
  | .shared => .staticPointerCast target value

end Ownership

end ExprToCpp
