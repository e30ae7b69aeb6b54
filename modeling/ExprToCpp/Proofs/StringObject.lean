import ExprToCpp.Lowering.Basic
import ExprToCpp.Proofs.Cpp.StringLiteral

/-!
# String objects

The C++ expression emitted for a string makes an object that holds exactly the bytes of the string. A literal alone gives the bytes
before its first zero, so a string with a zero byte needs its length, and only such a string does. Main statement: `emit_str`.
-/

namespace ExprToCpp

open Cpp

/-- The text of a string object: a literal, and perhaps the number of bytes to take from it. -/
def stringObjectText (body : String) : Option Nat → String
  | none => "std::string(\"" ++ body ++ "\")"
  | some n => "std::string(\"" ++ body ++ "\", " ++ toString n ++ ")"

/-- The bytes of the object made from a literal: those before the first zero, or as many as are asked for. -/
def constructedBytes (literal : List UInt8) : Option Nat → List UInt8
  | none => literal.takeWhile (· != 0)
  | some n => literal.take n

/-- The number of bytes that is given, where the literal alone would end early. -/
def givenLength (bytes : List UInt8) : Option Nat := if 0 ∈ bytes then some bytes.length else none

/-- Either way the object holds the bytes of the literal. -/
theorem constructedBytes_givenLength (bytes : List UInt8) : constructedBytes bytes (givenLength bytes) = bytes := by
  unfold givenLength
  split
  · exact List.take_length
  · next hzero =>
    have hnonzero : ∀ b ∈ bytes, (b != 0) = true := fun b hb => bne_iff_ne.2 (List.forall_mem_ne'.2 hzero b hb)
    have htake := @List.takeWhile_append_of_pos _ _ bytes [] hnonzero
    simpa [constructedBytes] using htake

/-- The text of a string object, with or without its length. -/
theorem render_stringObject (style : Escape.Style) (bytes : List UInt8) (withLength : Bool) :
    (Cpp.Expr.stringObject style bytes withLength).render =
      stringObjectText (Escape.body style bytes) (if withLength then some bytes.length else none) := by
  rw [← String.toList_inj]
  cases withLength with
  | true =>
    change ("std::string" ++ "(" ++ ("\"" ++ Escape.body style bytes ++ "\"" ++ ", " ++ (toString bytes.length ++ "")) ++ ")").toList =
      ("std::string(\"" ++ Escape.body style bytes ++ "\", " ++ toString bytes.length ++ ")").toList
    simp
  | false =>
    change ("std::string" ++ "(" ++ ("\"" ++ Escape.body style bytes ++ "\"") ++ ")").toList =
      ("std::string(\"" ++ Escape.body style bytes ++ "\")").toList
    simp

/-- The length is given by a test on the bytes. -/
theorem givenLength_eq (bytes : List UInt8) : givenLength bytes = if Escape.hasZero bytes then some bytes.length else none := by
  simp [givenLength, Escape.hasZero]

theorem render_ofString (s : String) :
    (Cpp.Expr.ofString s).render = stringObjectText (Escape.body .text (Escape.utf8 s)) (givenLength (Escape.utf8 s)) := by
  rw [Cpp.Expr.ofString, render_stringObject, givenLength_eq]

theorem length_utf8 (s : String) : (Escape.utf8 s).length = s.utf8ByteSize := by
  simp [Escape.utf8]

/-- A string becomes a string object: its literal ends at the quote that closes it and reads as the bytes of the string, the object
made from it holds exactly these bytes, and a length is given if and only if there is a zero byte among them. -/
theorem emit_str (Γ : Context) (s : String) : ∃ (body : String) (length : Option Nat),
    (Expr.emit Γ (.str s)).outcome = .ok (stringObjectText body length) ∧
    (∀ r, Escape.readLiteral (body.toList ++ '"' :: r) = some (Escape.utf8 s, r)) ∧
    constructedBytes (Escape.utf8 s) length = Escape.utf8 s ∧
    length = if 0 ∈ Escape.utf8 s then some s.utf8ByteSize else none := by
  refine ⟨Escape.body .text (Escape.utf8 s), givenLength (Escape.utf8 s), ?_, ?_, constructedBytes_givenLength _, ?_⟩
  · exact congrArg Except.ok (render_ofString s)
  · exact fun r => Escape.readLiteral_body .text (Escape.utf8 s) r
  · rw [givenLength, length_utf8]

end ExprToCpp
