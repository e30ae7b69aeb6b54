import ExprToCpp.Binary64
import ExprToCpp.Config
import ExprToCpp.Cpp.Escape
import ExprToCpp.Cpp.Expr
import ExprToCpp.Cpp.Literal
import ExprToCpp.Cpp.Ty
import ExprToCpp.Decimal.Basic
import ExprToCpp.Decimal.Shortest
import ExprToCpp.Emission
import ExprToCpp.Expr.Basic
import ExprToCpp.Include
import ExprToCpp.Lowering.Basic
import ExprToCpp.Lowering.MethodCall
import ExprToCpp.Lowering.Rules
import ExprToCpp.Method
import ExprToCpp.Naming
import ExprToCpp.Operator
import ExprToCpp.Ownership
import ExprToCpp.Refusal
import ExprToCpp.Rendering.Basic
import ExprToCpp.Rendering.MethodCall
import ExprToCpp.Rendering.Renderer
import ExprToCpp.Rendering.Rules
import ExprToCpp.Session
import ExprToCpp.Typing
import ExprToCpp.ValueType
import ExprToCpp.Proofs.Cpp.StringLiteral
import ExprToCpp.Proofs.Cpp.Token
import ExprToCpp.Proofs.Cpp.Grammar
import ExprToCpp.Proofs.Cpp.Reading
import ExprToCpp.Proofs.Cpp.NumberLiteral
import ExprToCpp.Proofs.Cpp.TypeName
import ExprToCpp.Proofs.Cpp.RoundTrip
import ExprToCpp.Proofs.Lowering
import ExprToCpp.Proofs.Naming
import ExprToCpp.Proofs.ReadBack
import ExprToCpp.Proofs.Cpp.Construction
import ExprToCpp.Proofs.IncludeList
import ExprToCpp.Proofs.Rendering
import ExprToCpp.Proofs.Registration
import ExprToCpp.Proofs.StringObject
import ExprToCpp.Proofs.ArrayLiteral
import ExprToCpp.Proofs.Effect
import ExprToCpp.Proofs.Admission
import ExprToCpp.Proofs.RequiredHeaders
import ExprToCpp.Proofs.Comparison
import ExprToCpp.Proofs.Settings
import ExprToCpp.Proofs.TableExtension
import ExprToCpp.Proofs.ElementType
import ExprToCpp.Proofs.CommonType
import ExprToCpp.Proofs.IntegerLiteral
import ExprToCpp.Proofs.ByteSequence
import ExprToCpp.Proofs.NestedArray
import ExprToCpp.Proofs.IncludeHistory
import ExprToCpp.Proofs.WrittenNames
import ExprToCpp.Proofs.LexicalSafety
import ExprToCpp.Proofs.NamedFacilities
import ExprToCpp.Proofs.Cpp.WellFormed
import ExprToCpp.Proofs.Cpp.Layout
import ExprToCpp.Proofs.Cpp.Nesting
import ExprToCpp.Proofs.Cpp.Marks
import ExprToCpp.Proofs.Cpp.Grouping
import ExprToCpp.Proofs.Rounding
import ExprToCpp.Proofs.KeywordClasses
import ExprToCpp.Proofs.EmittedTree
import ExprToCpp.Proofs.Parentheses
import ExprToCpp.Proofs.TypeSpelling
import ExprToCpp.Proofs.Equality
import ExprToCpp.Proofs.OwnText
import ExprToCpp.Proofs.EncodingName
import ExprToCpp.Proofs.ConstantName
