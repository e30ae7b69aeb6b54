import ExprToCpp.Proofs.ReadBack
import ExprToCpp.Proofs.StringObject

/-!
# Byte sequences

A byte sequence becomes a string object with all its bytes in hexadecimal and its length after them. A hexadecimal escape takes all
the digits that follow its letter, so it is two digits long only because of what comes next. Main statement: `emit_bytes`.
-/

namespace ExprToCpp

open Cpp

namespace Cpp.Escape

/-- The numbers of the hexadecimal escapes that a literal is made of, read after its opening quote, and what follows its closing quote.
Each escape takes all the digits after its letter, and its number may be of any size. -/
def hexValues? (cs : List Char) : Option (List Nat × List Char) :=
  match cs with
  | '"' :: r => some ([], r)
  | '\\' :: 'x' :: r =>
    if r.takeWhile (isDigitOf 16) = [] then none
    else (hexValues? (r.dropWhile (isDigitOf 16))).map (Prod.map (numberOf 16 (r.takeWhile (isDigitOf 16)) :: ·) id)
  | _ => none
termination_by cs.length
decreasing_by
  have hle := (List.dropWhile_suffix (l := r) (isDigitOf 16)).length_le
  simp only [List.length_cons]
  omega

/-- The escapes of raw bytes have the bytes as their numbers, up to the quote that was written after them. -/
theorem hexValues?_raw (bs : List UInt8) (r : List Char) :
    hexValues? (bs.flatMap rawByte ++ '"' :: r) = some (bs.map UInt8.toNat, r) := by
  induction bs with
  | nil =>
    rw [List.flatMap_nil, List.nil_append, hexValues?]
    rfl
  | cons b bs ih =>
    obtain ⟨htake, hdrop⟩ := takeWhile_hexDigits b (takeWhile_raw bs r)
    rw [List.flatMap_cons, List.append_assoc, rawByte, List.cons_append, List.cons_append, hexValues?, htake, hdrop,
      if_neg (hexDigits_ne_nil b), ih, numberOf_hexDigits]
    rfl

end Cpp.Escape

/-- The text of a byte sequence is that of a string object with its length. -/
theorem render_ofBytes (bs : List UInt8) :
    (Cpp.Expr.ofBytes bs).render = stringObjectText (Escape.body .raw bs) (some bs.length) :=
  render_stringObject .raw bs true

/-- A byte sequence becomes a string object: its literal is made of hexadecimal escapes whose numbers, each read with all the digits
that follow, are the bytes of the sequence; it ends at the quote that closes it and reads as these bytes, the length after it is
theirs, and so the object made from it holds exactly these bytes. The text is read as this object and nothing else, and no other byte
sequence has it. -/
theorem emit_bytes (Γ : Context) (bs : List UInt8) : ∃ body text : String,
    (Expr.emit Γ (.bytes bs)).outcome = .ok text ∧ text = stringObjectText body (some bs.length) ∧
    (∀ r, Escape.hexValues? (body.toList ++ '"' :: r) = some (bs.map UInt8.toNat, r)) ∧
    (∀ r, Escape.readLiteral (body.toList ++ '"' :: r) = some (bs, r)) ∧
    constructedBytes bs (some bs.length) = bs ∧
    read text = some (.call (.name "std::string") [.string bs, .int bs.length .plain]) ∧
    ∀ Δ cs, (Expr.emit Δ (.bytes cs)).outcome = .ok text → cs = bs := by
  have hread : ∀ cs, read (Cpp.Expr.ofBytes cs).render = some (.call (.name "std::string") [.string cs, .int cs.length .plain]) :=
    fun cs => (written_stringObject .raw cs true).read_render
  refine ⟨Escape.body .raw bs, _, rfl, render_ofBytes bs, ?_, Escape.readLiteral_body .raw bs, List.take_length, hread bs, ?_⟩
  · intro r
    rw [Escape.body, String.toList_ofList]
    exact Escape.hexValues?_raw bs r
  · intro Δ cs hcs
    have htext : (Cpp.Expr.ofBytes cs).render = (Cpp.Expr.ofBytes bs).render := Except.ok.inj hcs
    have htree := hread cs
    rw [htext, hread bs] at htree
    cases htree
    rfl

end ExprToCpp
