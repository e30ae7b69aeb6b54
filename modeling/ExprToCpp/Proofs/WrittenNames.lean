import ExprToCpp.Proofs.Cpp.NamesInText
import ExprToCpp.Proofs.SolidNames

/-!
# The names in emitted C++

The C++ of an expression names a few things of the library and functions of the support class, and beyond these exactly what the
nodes of the expression bring into it (`Context.Brings`): the fields they read, the types they cast to or construct, enumerations
and their constants, and the functions and constants of the library that stand for some of them. `namesOnly_of_lowers` goes from a
name to the node that brings it, `mem_names_of_brings` from the node to the name. If the names an expression is made of are plain,
so are all of these (`Context.Plain.typeChars`).
-/

namespace ExprToCpp

open Cpp

/-! ## Names that nodes bring -/

/-- The names of the library that need no header of their own, and the variables of a repetition. -/
def libraryNames : List String :=
  ["std::string", "std::stoi", "std::static_pointer_cast", "std::unique_ptr", "int", "at", "compare", "length", "size", "front",
    "back", "begin", "end", "substr", "_", "_buf", "i"]

/-- The functions of the support class. -/
def supportFunctions : List String := ["mod", "reverse", "to_string", "bytes_to_str", "byte_array_min", "byte_array_max"]

/-- The names that a node brings into the C++ of an expression. -/
inductive Context.Brings (Γ : Context) : Expr → String → Prop where
  | nan {x : Binary64} : x.isNaN = true → Brings Γ (.float x) "std::numeric_limits<double>::quiet_NaN"
  | infinity {x : Binary64} : x.isNaN = false → x.isFinite = false → Brings Γ (.float x) "std::numeric_limits<double>::infinity"
  /-- An array literal is a vector of its element type. -/
  | vector {items : List Expr} {t : ValueType} {n : String} : Γ.types.typeOf (.array items) = some (.array t) →
      n ∈ (Ty.vector (Γ.config.ownership.cppType t)).names → Brings Γ (.array items) n
  | name {n : String} : LoopName.ofName? n = none → Brings Γ (.name n) n
  | member {v : Expr} {a : String} : LoopName.ofName? a = none → Brings Γ (.member v a) a
  | fmod {l r : Expr} {p : Precision} : Γ.types.typeOf l = some (.float p) ∨ Γ.types.typeOf r = some (.float p) →
      Brings Γ (.binary .mod l r) "std::fmod"
  | cast {v : Expr} {t : ValueType} {n : String} : (∀ path, t ≠ .record path) → n ∈ (Γ.config.ownership.cppType t).names →
      Brings Γ (.cast v t) n
  /-- A cast to a record names its class, whoever owns it. -/
  | record (v : Expr) (path : List String) : Brings Γ (.cast v (.record path)) (Naming.qualifiedClass path)
  | enumLabel (d : EnumDecl) (label : String) : Brings Γ (.enumLabel d label) (Naming.enumConstant d label)
  | enumById (d : EnumDecl) (e : Expr) : Brings Γ (.enumById d e) (Naming.enumType d)
  | extreme {r : Expr} {m : Method} {args : List Expr} {t : ValueType} : m = .min ∨ m = .max →
      Γ.types.typeOf r = some (.array t) → Brings Γ (.method r m args) ("std::" ++ m.name ++ "_element")

/-- A name can be in the C++ of an expression. -/
inductive Context.MayName (Γ : Context) (e : Expr) : String → Prop where
  | library {n : String} : n ∈ libraryNames → MayName Γ e n
  | support {f : String} : f ∈ supportFunctions → MayName Γ e (Γ.config.supportClass ++ "::" ++ f)
  | brought {x : Expr} {n : String} : x.IsPartOf e → Γ.Brings x n → MayName Γ e n

section

variable {Γ : Context} {e : Expr} {c : Cpp.Expr} {n : String}

/-- What a node brings may be named in its text. -/
theorem Context.MayName.root (h : Γ.Brings e n) : Γ.MayName e n := .brought .self h

/-- So may what a child may name. -/
theorem Context.MayName.child {x : Expr} (hx : x ∈ e.children) (h : Γ.MayName x n) : Γ.MayName e n := by
  cases h with
  | library h => exact .library h
  | support h => exact .support h
  | brought hpart h => exact .brought (.child hx hpart) h

/-! ## From a name to its node -/

theorem names_signed (negative : Bool) (c : Cpp.Expr) : (Cpp.Expr.signed negative c).names = c.names := by
  cases negative <;> rfl

theorem names_ofInt (n : Int) : (Cpp.Expr.ofInt n).names = [] := by
  unfold Cpp.Expr.ofInt Cpp.Expr.exceptionalInt Cpp.Expr.belowLeast Cpp.Expr.signedInt
  split
  · rw [names_signed]
    rfl
  · split_ifs <;> simp [names_signed]

/-- Every name in a C++ expression can be in the C++ of `e`. -/
def Context.NamesOnly (Γ : Context) (e : Expr) (c : Cpp.Expr) : Prop := ∀ n ∈ c.names, Γ.MayName e n

section

variable {d f : Cpp.Expr} {args : List Cpp.Expr} {t : Ty}

@[simp] theorem namesOnly_int (k : Nat) (suffix : IntSuffix) : Γ.NamesOnly e (.int k suffix) := by
  simp [Context.NamesOnly]

@[simp] theorem namesOnly_string (style : Escape.Style) (bytes : List UInt8) : Γ.NamesOnly e (.string style bytes) := by
  simp [Context.NamesOnly]

@[simp] theorem namesOnly_paren : Γ.NamesOnly e (.paren c) ↔ Γ.NamesOnly e c := Iff.rfl

@[simp] theorem namesOnly_unary {op : PrefixOp} : Γ.NamesOnly e (.unary op c) ↔ Γ.NamesOnly e c := Iff.rfl

/-- A name is written only if the expression may name it. -/
@[simp] theorem namesOnly_name : Γ.NamesOnly e (.name n) ↔ Γ.MayName e n := by
  simp [Context.NamesOnly]

/-- A call writes the names of the function and of its arguments. -/
@[simp] theorem namesOnly_call : Γ.NamesOnly e (.call f args) ↔ Γ.NamesOnly e f ∧ ∀ a ∈ args, Γ.NamesOnly e a := by
  simp only [Context.NamesOnly, Cpp.Expr.names, List.forall_mem_append, Cpp.Expr.mem_namesOfAll]
  grind

/-- An access writes the name of its member after those of the object. -/
@[simp] theorem namesOnly_arrow : Γ.NamesOnly e (.arrow c n) ↔ Γ.NamesOnly e c ∧ Γ.MayName e n := by
  simp [Context.NamesOnly, or_imp, forall_and]

@[simp] theorem namesOnly_dot : Γ.NamesOnly e (.dot c n) ↔ Γ.NamesOnly e c ∧ Γ.MayName e n := namesOnly_arrow

@[simp] theorem namesOnly_binary {op : BinaryOp} : Γ.NamesOnly e (.binary op f c) ↔ Γ.NamesOnly e f ∧ Γ.NamesOnly e c := by
  simp [Context.NamesOnly, or_imp, forall_and]

@[simp] theorem namesOnly_index : Γ.NamesOnly e (.index f c) ↔ Γ.NamesOnly e f ∧ Γ.NamesOnly e c := by
  simp [Context.NamesOnly, or_imp, forall_and]

@[simp] theorem namesOnly_conditional :
    Γ.NamesOnly e (.conditional d f c) ↔ Γ.NamesOnly e d ∧ Γ.NamesOnly e f ∧ Γ.NamesOnly e c := by
  simp [Context.NamesOnly, or_imp, forall_and]

/-- A cast writes the names in its type and in its operand. -/
@[simp] theorem namesOnly_staticCast :
    Γ.NamesOnly e (.staticCast t c) ↔ (∀ m ∈ t.names, Γ.MayName e m) ∧ Γ.NamesOnly e c := by
  simp only [Context.NamesOnly, Cpp.Expr.names, List.forall_mem_append]

/-- A new object writes the names in its type and in its items. -/
@[simp] theorem namesOnly_new :
    Γ.NamesOnly e (.new t args) ↔ (∀ m ∈ t.names, Γ.MayName e m) ∧ ∀ a ∈ args, Γ.NamesOnly e a := by
  simp only [Context.NamesOnly, Cpp.Expr.names, List.forall_mem_append, Cpp.Expr.mem_namesOfAll]
  grind

end

/-- A float names something only where it has no digits. -/
theorem namesOnly_ofBinary64 (x : Binary64) : Γ.NamesOnly (.float x) (Cpp.Expr.ofBinary64 x) := by
  unfold Cpp.Expr.ofBinary64
  split_ifs with hnan hfinite
  · simpa using Context.MayName.root (.nan hnan)
  · simp [Context.NamesOnly, names_signed]
  · simpa [Context.NamesOnly, names_signed] using
      Context.MayName.root (.infinity (by simpa using hnan) (by simpa using hfinite))

/-- A string object names the string class, which every expression may. -/
theorem namesOnly_stringObject (style : Escape.Style) (bytes : List UInt8) (withLength : Bool) :
    Γ.NamesOnly e (Cpp.Expr.stringObject style bytes withLength) := by
  have hstring : Γ.MayName e "std::string" := .library (by decide)
  cases withLength <;> simpa [Context.NamesOnly, Cpp.Expr.stringObject] using hstring

/-- Every expression may name the loop variables. -/
theorem mayName_variableName (l : LoopName) : Γ.MayName e l.variableName := by
  cases l <;> exact .library (by decide)

/-- A reference names what it refers to, or the variable a loop name stands for. -/
theorem namesOnly_reference (m : String) : Γ.NamesOnly (.name m) (Naming.reference m) := by
  unfold Naming.reference
  split
  · simpa using mayName_variableName _
  · next h => simpa [Naming.accessor] using Context.MayName.root (.name h)

/-- A member access names the member beside what its object names. -/
theorem namesOnly_member {v : Expr} {a : String} (hc : Γ.NamesOnly (.member v a) c) :
    Γ.NamesOnly (.member v a) (Naming.member c a) := by
  unfold Naming.member
  split
  · exact namesOnly_arrow.2 ⟨hc, mayName_variableName _⟩
  · next h => simpa using ⟨hc, Context.MayName.root (.member h)⟩

/-- A call of a support function names the function in its class. -/
theorem namesOnly_support {f : String} (hf : f ∈ supportFunctions) : Γ.NamesOnly e (Γ.config.support f) :=
  namesOnly_name.2 (.support hf)

/-- A cast to a record names the class of the record. -/
theorem namesOnly_recast {v : Expr} {path : List String} (hc : Γ.NamesOnly (.cast v (.record path)) c) :
    Γ.NamesOnly (.cast v (.record path)) (Γ.config.ownership.recast (.named (Naming.qualifiedClass path)) c) := by
  have hclass : Γ.MayName (.cast v (.record path)) (Naming.qualifiedClass path) := .root (.record v path)
  cases Γ.config.ownership with
  | raw | uniqueAndRaw => exact List.forall_mem_cons.2 ⟨hclass, hc⟩
  | shared => exact List.forall_mem_cons.2 ⟨.library (by decide), List.forall_mem_cons.2 ⟨hclass, hc⟩⟩

/-- The construction of an array names its type beside what its items name. -/
theorem namesOnly_makeArray {items : List Expr} {t : ValueType} {cs : List Cpp.Expr}
    (ht : Γ.types.typeOf (.array items) = some (.array t)) (hcs : ∀ d ∈ cs, Γ.NamesOnly (.array items) d)
    (h : Γ.config.ownership.makeArray (.vector (Γ.config.ownership.cppType t)) cs = .ok c) : Γ.NamesOnly (.array items) c := by
  have htype : ∀ m ∈ (Ty.vector (Γ.config.ownership.cppType t)).names, Γ.MayName (.array items) m :=
    fun m hm => .root (.vector ht hm)
  have hnew := namesOnly_new.2 ⟨htype, hcs⟩
  generalize Γ.config.ownership = o at h htype hnew
  cases o with
  | raw =>
    cases h
    exact hnew
  | uniqueAndRaw =>
    cases h
    exact List.forall_mem_cons.2 ⟨.library (by decide), List.forall_mem_append.2 ⟨htype, hnew⟩⟩
  | shared => cases h

/-- A method call names members and functions that every expression may name, and what its parts name. -/
theorem namesOnly_method {r : Expr} {m : Method} {args : List Expr}
    (hr : ∀ c, Lowers Γ r c → Γ.NamesOnly (.method r m args) c)
    (hargs : ∀ x ∈ args, ∀ c, Lowers Γ x c → Γ.NamesOnly (.method r m args) c)
    (h : Lowers Γ (.method r m args) c) : Γ.NamesOnly (.method r m args) c := by
  have hlibrary : ∀ n ∈ libraryNames, Γ.MayName (.method r m args) n := fun _ => .library
  cases h with
  | textLength _ _ _ h => simpa using ⟨hr _ h, hlibrary _ (by decide)⟩
  | arraySize _ _ h | firstItem _ h | lastItem _ h => simpa using ⟨hr _ h, hlibrary _ (by decide)⟩
  | firstByte _ _ h =>
    split
    · simpa using ⟨hr _ h, hlibrary _ (by decide)⟩
    · simpa using hr _ h
  | lastByte _ _ h =>
    split
    · simpa using ⟨hr _ h, hlibrary _ (by decide)⟩
    · simpa using ⟨hr _ h, hlibrary _ (by decide)⟩
  | extremeItem hm ht h =>
    simpa using ⟨Context.MayName.root (.extreme hm ht), ⟨hr _ h, hlibrary _ (by decide)⟩, hr _ h, hlibrary _ (by decide)⟩
  | extremeByte hm _ h =>
    have hf : "byte_array_" ++ m.name ∈ supportFunctions := by rcases hm with rfl | rfl <;> decide
    simpa using ⟨namesOnly_support hf, hr _ h⟩
  | @substring _ i j _ _ _ _ h hi hj =>
    have hstart := hargs i (by simp) _ hi
    have hstop := hargs j (by simp) _ hj
    simpa using ⟨⟨hr _ h, hlibrary _ (by decide)⟩, hstart, hstop, hstart⟩
  | reverse _ h | intText _ _ h => simpa using ⟨namesOnly_support (by decide), hr _ h⟩
  | decoded _ h => simpa using ⟨namesOnly_support (by decide), hr _ h⟩
  | parsed _ _ h => simpa using ⟨hlibrary _ (by decide), hr _ h⟩
  | @parsedInRadix _ radix _ _ _ _ h hradix =>
    simpa using ⟨hlibrary _ (by decide), hr _ h, hargs radix (by simp) _ hradix⟩
  | truthValue _ h => simpa using hr _ h
  | truncated _ h => simpa using ⟨hlibrary _ (by decide), hr _ h⟩
  | ownText _ h => exact hr _ h
  | ownInt _ _ h => exact hr _ h

/-- What lowers a part of an expression holds names of the part, hence of the expression. -/
theorem namesOnly_of_child {x : Expr} (hx : x ∈ e.children) (h : Γ.NamesOnly x c) : Γ.NamesOnly e c :=
  fun n hn => (h n hn).child hx

/-- Every name in the C++ of an expression is the library's, the support class's or brought by a node. -/
theorem namesOnly_of_lowers (h : Lowers Γ e c) : Γ.NamesOnly e c := by
  induction e generalizing c with
  | int n =>
    cases h
    simp [Context.NamesOnly, names_ofInt]
  | float x => cases h; exact namesOnly_ofBinary64 x
  | bool b => cases h; simp [Context.NamesOnly]
  | str s => cases h; exact namesOnly_stringObject _ _ _
  | bytes bs => cases h; exact namesOnly_stringObject _ _ _
  | array items ih =>
    cases h with
    | array ht hitems hmake =>
      refine namesOnly_makeArray ht (fun d hd => ?_) hmake
      obtain ⟨x, hx, hlowers⟩ := exists_lowers_of_mem hitems hd
      exact namesOnly_of_child hx (ih x hx hlowers)
  | name n => cases h; exact namesOnly_reference n
  | member v a ih =>
    cases h with
    | member h => exact namesOnly_member (namesOnly_of_child (by simp) (ih h))
  | subscript v i ihv ihi =>
    have hv {c} (h : Lowers Γ v c) : Γ.NamesOnly (.subscript v i) c := namesOnly_of_child (by simp) (ihv h)
    have hi {c} (h : Lowers Γ i c) : Γ.NamesOnly (.subscript v i) c := namesOnly_of_child (by simp) (ihi h)
    cases h with
    | item _ h h' => simpa using ⟨⟨hv h, .library (by decide)⟩, hi h'⟩
    | byte _ h h' => exact namesOnly_index.2 ⟨hv h, hi h'⟩
  | binary op l r ihl ihr =>
    have hl {c} (h : Lowers Γ l c) : Γ.NamesOnly (.binary op l r) c := namesOnly_of_child (by simp) (ihl h)
    have hr {c} (h : Lowers Γ r c) : Γ.NamesOnly (.binary op l r) c := namesOnly_of_child (by simp) (ihr h)
    cases h with
    | intRemainder _ _ h h' => simpa using ⟨namesOnly_support (by decide), hl h, hr h'⟩
    | floatRemainder ha hb hp h h' =>
      have hfmod : Γ.MayName (.binary .mod l r) "std::fmod" :=
        .root (.fmod (hp.imp (fun hp => hp ▸ ha) (fun hp => hp ▸ hb)))
      simpa using ⟨hfmod, hl h, hr h'⟩
    | otherRemainder _ _ _ _ h h' => exact namesOnly_binary.2 ⟨hl h, hr h'⟩
    | textOrder _ _ _ _ _ h h' => simpa using ⟨⟨hl h, .library (by decide)⟩, hr h'⟩
    | order _ _ _ h h' => exact namesOnly_binary.2 ⟨hl h, hr h'⟩
    | binary _ _ h h' => exact namesOnly_binary.2 ⟨hl h, hr h'⟩
  | unary op e ih =>
    cases h with
    | unary h => exact namesOnly_unary.2 (namesOnly_of_child (by simp) (ih h))
  | conditional e t f ihe iht ihf =>
    cases h with
    | conditional h h' h'' =>
      have hcond := namesOnly_of_child (e := .conditional e t f) (by simp) (ihe h)
      have htrue := namesOnly_of_child (e := .conditional e t f) (by simp) (iht h')
      have hfalse := namesOnly_of_child (e := .conditional e t f) (by simp) (ihf h'')
      simpa using ⟨hcond, htrue, hfalse⟩
  | cast v t ih =>
    cases h with
    | castRecord h => exact namesOnly_recast (namesOnly_of_child (by simp) (ih h))
    | cast ht h =>
      exact namesOnly_staticCast.2 ⟨fun m hm => .root (.cast ht hm), namesOnly_of_child (by simp) (ih h)⟩
  | enumLabel d label => cases h; exact namesOnly_name.2 (.root (.enumLabel d label))
  | enumById d e ih =>
    cases h with
    | enumById h => simpa using ⟨Context.MayName.root (.enumById d e), namesOnly_of_child (by simp) (ih h)⟩
  | method r m args ihr ihargs =>
    exact namesOnly_method (fun _ h => namesOnly_of_child (by simp) (ihr h))
      (fun x hx _ h => namesOnly_of_child (by simp [hx]) (ihargs x hx h)) h

/-! ## From a node to its names -/

/-- What a node brings is in its own C++. -/
theorem mem_names_root (h : Lowers Γ e c) (hn : Γ.Brings e n) : n ∈ c.names := by
  cases hn with
  | nan hnan =>
    cases h
    simp [Cpp.Expr.ofBinary64, hnan]
  | infinity hnan hfinite =>
    cases h
    simp [Cpp.Expr.ofBinary64, hnan, hfinite, names_signed]
  | @vector items t n ht hn =>
    cases h with
    | @array _ u _ _ hu _ hmake =>
      obtain rfl : t = u := by simpa using ht.symm.trans hu
      generalize Γ.config.ownership = o at hmake hn
      cases o with
      | raw =>
        cases hmake
        exact List.mem_append_left _ hn
      | uniqueAndRaw =>
        cases hmake
        exact List.mem_append_right _ (List.mem_append_left _ hn)
      | shared => cases hmake
  | name hname =>
    cases h
    simp [Naming.reference, hname, Naming.accessor]
  | member hname =>
    cases h
    simp [Naming.member, hname]
  | fmod hp =>
    cases h with
    | intRemainder ha hb _ _ => simp [ha, hb] at hp
    | floatRemainder _ _ _ _ _ => simp
    | otherRemainder ha hb _ hnone _ _ => grind
    | textOrder hop _ _ _ _ _ _ => cases hop
    | order hop _ _ _ _ => cases hop
    | binary hop _ _ _ => exact absurd rfl hop
  | cast ht hn =>
    cases h with
    | castRecord _ => exact absurd rfl (ht _)
    | cast _ _ => exact List.mem_append_left _ hn
  | record v path =>
    cases h with
    | castRecord _ =>
      cases Γ.config.ownership with
      | raw | uniqueAndRaw => exact List.mem_cons_self
      | shared => exact List.mem_cons_of_mem _ List.mem_cons_self
    | cast ht _ => exact absurd rfl (ht _)
  | enumLabel d label => cases h; simp
  | enumById d e =>
    cases h
    exact List.mem_cons_self
  | extreme hm ht =>
    cases h with
    | extremeItem _ _ _ => simp
    | extremeByte _ ht' _ => cases ht.symm.trans ht'
    | _ => grind

/-- No name of the object is lost when a member of it is named. -/
theorem names_member (c : Cpp.Expr) (a : String) : c.names ⊆ (Naming.member c a).names := by
  unfold Naming.member
  split <;> simp

theorem names_recast (o : Ownership) (t : Ty) (c : Cpp.Expr) : c.names ⊆ (o.recast t c).names := by
  cases o with
  | raw | uniqueAndRaw => exact List.subset_append_right _ _
  | shared => exact fun n hn => List.mem_cons_of_mem _ (List.mem_append_right _ hn)

/-- No name of an item is lost in the construction of an array. -/
theorem names_makeArray {o : Ownership} {t : Ty} {cs : List Cpp.Expr} (h : o.makeArray t cs = .ok c) :
    Cpp.Expr.namesOfAll cs ⊆ c.names := by
  cases o with
  | raw =>
    cases h
    exact List.subset_append_right _ _
  | uniqueAndRaw =>
    cases h
    exact fun n hn => List.mem_append_right _ (List.mem_append_right _ hn)
  | shared => cases h

/-- A part is written with all its names, unless it is a literal that is read and not lowered: a radix or the name of an
encoding. -/
theorem exists_names_subset {x : Expr} (h : Lowers Γ e c) (hx : x ∈ e.children) :
    (∃ d, Lowers Γ x d ∧ d.names ⊆ c.names) ∨ (∃ k, x = .int k) ∨ ∃ s, x = .str s := by
  have hradix : ∀ args, IsRadixTen args → x ∈ args → ∃ k, x = .int k := by
    rintro args (rfl | rfl) hx
    · cases hx
    · exact ⟨10, List.mem_singleton.1 hx⟩
  cases h with
  | array _ hitems hmake =>
    obtain ⟨d, hd, hlowers⟩ := exists_lowers_of_mem_left hitems hx
    exact Or.inl ⟨d, hlowers, fun n hn => names_makeArray hmake (Cpp.Expr.mem_namesOfAll.2 ⟨d, hd, hn⟩)⟩
  | member h =>
    obtain rfl := List.mem_singleton.1 hx
    exact Or.inl ⟨_, h, names_member _ _⟩
  | castRecord h =>
    obtain rfl := List.mem_singleton.1 hx
    exact Or.inl ⟨_, h, names_recast _ _ _⟩
  | intText _ hargs h | parsed _ hargs h =>
    rcases List.mem_cons.1 hx with rfl | hx
    · exact Or.inl ⟨_, h, by simp⟩
    · exact Or.inr (Or.inl (hradix _ hargs hx))
  | _ => grind [Expr.children, Cpp.Expr.names, Cpp.Expr.namesOfAll]

/-- What a node brings is in the C++ of every expression it is part of. -/
theorem mem_names_of_brings {x : Expr} (h : Lowers Γ e c) (hx : x.IsPartOf e) (hn : Γ.Brings x n) : n ∈ c.names := by
  induction hx generalizing c with
  | self => exact mem_names_root h hn
  | child hy hpart ih =>
    rcases exists_names_subset h hy with ⟨d, hd, hsub⟩ | ⟨k, rfl⟩ | ⟨s, rfl⟩
    · exact hsub (ih hd)
    -- a literal brings nothing and has no parts
    · cases hpart with
      | self => cases hn
      | child hz _ => simp at hz
    · cases hpart with
      | self => cases hn
      | child hz _ => simp at hz

end

/-! ## The characters of names -/

/-- The characters of words by their codes. -/
theorem isWordChar_iff {c : Char} : Lexer.isWordChar c = true ↔
    ('A'.toNat ≤ c.toNat ∧ c.toNat ≤ 'Z'.toNat) ∨ ('a'.toNat ≤ c.toNat ∧ c.toNat ≤ 'z'.toNat) ∨
      ('0'.toNat ≤ c.toNat ∧ c.toNat ≤ '9'.toNat) ∨ c = '_' := by
  have hword : Lexer.isWordChar c = ((decide (c.val ≥ 'A'.val ∧ c.val ≤ 'Z'.val) ||
      (decide (c.val ≥ 'a'.val) && decide (c.val ≤ 'z'.val))) ||
      (decide (c.val ≥ '0'.val) && decide (c.val ≤ '9'.val)) || c == '_') := rfl
  rw [hword]
  simp only [Bool.or_eq_true, Bool.and_eq_true, decide_eq_true_eq, beq_iff_eq, or_assoc]
  exact Iff.rfl

/-- A capital letter is a character of words if the letter is. -/
theorem isWordChar_toUpper {c : Char} (h : Lexer.isWordChar c = true) : Lexer.isWordChar c.toUpper = true := by
  unfold Char.toUpper
  split
  · next hlower =>
    obtain ⟨hleast, hgreatest⟩ := hlower
    rw [isWordChar_iff]
    refine Or.inl ?_
    simp only [Char.toNat, UInt32.le_iff_toNat_le, UInt32.toNat_add] at hleast hgreatest ⊢
    simp at hleast hgreatest ⊢
    omega
  · exact h

/-- A name of letters, digits and underscores. -/
def IsPlainName (n : String) : Prop := AllChars (fun c => Lexer.isWordChar c = true) n

instance (n : String) : Decidable (IsPlainName n) := inferInstanceAs (Decidable (AllChars _ n))

/-- The characters of names and types in C++: those of words, the colons of a qualification, angle brackets and stars. -/
def IsTypeChar (c : Char) : Prop := Lexer.isWordChar c = true ∨ c ∈ [':', '<', '>', '*']

instance : DecidablePred IsTypeChar := fun c => inferInstanceAs (Decidable (Lexer.isWordChar c = true ∨ c ∈ [':', '<', '>', '*']))

/-- Types are written with the characters of types, whatever they are. -/
theorem isTypeKind_typeChar : IsTypeKind IsTypeChar where
  affix := by decide
  typeAffix := by decide
  toUpper c h := by
    rcases h with h | h
    · exact Or.inl (isWordChar_toUpper h)
    · have hsame : ∀ c ∈ [':', '<', '>', '*'], c.toUpper = c := by decide
      exact Or.inr ((hsame c h).symm ▸ h)

/-- A plain name has only characters of types. -/
theorem IsPlainName.typeChars {n : String} (h : IsPlainName n) : AllChars IsTypeChar n := fun c hc => Or.inl (h c hc)

/-- The names that are written for an expression are made of letters, digits and underscores, and the support class is such a
name or a qualified one. -/
structure Context.Plain (Γ : Context) (e : Expr) : Prop where
  support : ∀ c ∈ Γ.config.supportClass.toList, Lexer.isWordChar c = true ∨ c = ':'
  names : ∀ x : Expr, x.IsPartOf e → ∀ n ∈ x.names, IsPlainName n
  types : ∀ x : Expr, x.IsPartOf e → ∀ t, Γ.types.typeOf x = some t → ∀ n ∈ t.names, IsPlainName n

/-- An expression is plain if it is at its root and in its children. -/
theorem Context.plain_iff {Γ : Context} {e : Expr} : Γ.Plain e ↔
    (∀ c ∈ Γ.config.supportClass.toList, Lexer.isWordChar c = true ∨ c = ':') ∧ (∀ n ∈ e.names, IsPlainName n) ∧
      (∀ t, Γ.types.typeOf e = some t → ∀ n ∈ t.names, IsPlainName n) ∧ ∀ x ∈ e.children, Γ.Plain x := by
  constructor
  · intro h
    refine ⟨h.support, h.names e .self, h.types e .self, fun x hx => ⟨h.support, fun y hy => ?_, fun y hy => ?_⟩⟩
    · exact h.names y (.child hx hy)
    · exact h.types y (.child hx hy)
  · rintro ⟨hsupport, hnames, htypes, hchildren⟩
    refine ⟨hsupport, Expr.forall_isPartOf.2 ⟨hnames, ?_⟩, Expr.forall_isPartOf.2 ⟨htypes, ?_⟩⟩
    · exact fun x hx y hy => (hchildren x hx).names y hy
    · exact fun x hx y hy => (hchildren x hx).types y hy

/-- A name in a type is a piece of its text. -/
theorem subset_render {t : Ty} {n : String} (hn : n ∈ t.names) : n.toList ⊆ t.render.toList := by
  have hinside : ∀ {s u w : String}, u.toList ⊆ s.toList ∨ u.toList ⊆ w.toList → u.toList ⊆ (s ++ w ++ ">").toList := by
    intro s u w h c hc
    simp only [String.toList_append, List.mem_append]
    exact Or.inl (h.imp (fun h => h hc) (fun h => h hc))
  induction t with
  | named m =>
    obtain rfl := List.mem_singleton.1 hn
    exact List.Subset.refl _
  | pointer t ih =>
    have htext : (Ty.pointer t).render.toList = t.render.toList ++ "*".toList := String.toList_append
    rw [htext]
    exact List.subset_append_of_subset_left _ (ih hn)
  | vector t ih | shared t ih | unique t ih =>
    rcases List.mem_cons.1 hn with rfl | hn
    · exact hinside (Or.inl (by decide))
    · exact hinside (Or.inr (ih hn))

/-- The names in a type are pieces of its text. -/
theorem allChars_names {p : Char → Prop} {t : Ty} (h : AllChars p t.render) : ∀ n ∈ t.names, AllChars p n :=
  fun _ hn c hc => h c (subset_render hn hc)

/-- Plain names bring plain names and types. -/
theorem Context.Plain.typeChars_of_brings {Γ : Context} {e x : Expr} {n : String} (h : Γ.Plain e) (hx : x.IsPartOf e)
    (hn : Γ.Brings x n) : AllChars IsTypeChar n := by
  have hkind := isTypeKind_typeChar
  have hnames : ∀ m ∈ x.names, AllChars IsTypeChar m := fun m hm => (h.names x hx m hm).typeChars
  cases hn with
  | nan _ | infinity _ _ | fmod _ => decide
  | @vector items t n ht hn =>
    have helement : ∀ m ∈ t.names, AllChars IsTypeChar m := fun m hm => (h.types _ hx _ ht m hm).typeChars
    exact allChars_names (hkind.vector (hkind.cppType _ helement)) n hn
  | name _ | member _ => exact hnames n List.mem_cons_self
  | cast _ hn => exact allChars_names (hkind.cppType _ hnames) n hn
  | record v path => exact hkind.qualifiedClass hnames
  | enumLabel d label => exact hkind.enumConstant hnames
  | enumById d e => exact hkind.enumType hnames
  | extreme hm _ => rcases hm with rfl | rfl <;> decide

/-- Whatever a plain expression may name has only characters of types. -/
theorem Context.Plain.typeChars {Γ : Context} {e : Expr} {n : String} (h : Γ.Plain e) (hn : Γ.MayName e n) :
    AllChars IsTypeChar n := by
  cases hn with
  | library hn =>
    have hlibrary : ∀ n ∈ libraryNames, AllChars IsTypeChar n := by decide
    exact hlibrary n hn
  | @support f hf =>
    have hsupport : AllChars IsTypeChar Γ.config.supportClass :=
      fun c hc => (h.support c hc).imp id fun hcolon => by simp [hcolon]
    have hfunctions : ∀ f ∈ supportFunctions, AllChars IsTypeChar f := by decide
    exact allChars_append.2 ⟨allChars_append.2 ⟨hsupport, isTypeKind_typeChar.fixedType _ (by decide)⟩, hfunctions f hf⟩
  | brought hx hb => exact h.typeChars_of_brings hx hb

end ExprToCpp
