import Mathlib.Data.List.TakeWhile
import ExprToCpp.Proofs.Effect
import ExprToCpp.Proofs.ReadBack
import ExprToCpp.Proofs.StringObject

/-!
# The names of encodings

Bytes are decoded by a support function that is given the name of an encoding, as a literal without its length. Such an argument
arrives up to its first zero byte. A zero byte stands for the zero character and for no other, so a name arrives whole if and only if
it has no such character, and two names arrive alike if and only if they agree before it. Main statement: `emit_decoded`.
-/

namespace ExprToCpp

open Cpp

/-! ## Zero characters -/

/-- The part of a string before its first zero character. -/
def beforeZero (s : String) : String := String.ofList (s.toList.takeWhile (· != '\x00'))

/-- Nothing is lost of a string that has no zero character. -/
theorem beforeZero_eq_self_iff (s : String) : beforeZero s = s ↔ '\x00' ∉ s.toList := by
  rw [beforeZero, ← String.toList_inj, String.toList_ofList, List.takeWhile_eq_self_iff, ← List.forall_mem_ne']
  simp only [bne_iff_ne, ne_eq]

namespace Cpp.Escape

/-- The bytes of a string are those of its characters in a row. -/
theorem utf8_eq_flatMap (s : String) : utf8 s = s.toList.flatMap String.utf8EncodeChar := by
  have hencode : s.toByteArray = s.toList.utf8Encode := by
    rw [← String.toByteArray_ofList, String.ofList_toList]
  rw [utf8, String.toUTF8_eq_toByteArray, hencode, List.utf8Encode]
  simp

/-- Different strings have different bytes. -/
theorem utf8_injective : Function.Injective utf8 := by
  intro s t h
  have hdata : s.toUTF8.data = t.toUTF8.data := Array.toList_inj.1 h
  exact String.toByteArray_inj.1 (ByteArray.ext hdata)

/-- A number below 256 gives the zero byte only if it is zero. -/
theorem zero_eq_ofNat_iff {n : Nat} (h : n < 256) : 0 = UInt8.ofNat n ↔ n = 0 := by
  rw [← UInt8.toNat_inj, UInt8.toNat_ofNat_of_lt' h, UInt8.toNat_zero, eq_comm]

/-- Only the zero character has a zero byte. -/
theorem zero_mem_utf8EncodeChar_iff (c : Char) : 0 ∈ String.utf8EncodeChar c ↔ c = '\x00' := by
  have hcode : c = '\x00' ↔ c.val.toNat = 0 := by
    rw [← Char.toNat_inj]
    rfl
  rw [hcode, String.utf8EncodeChar]
  split
  · rw [List.mem_singleton, zero_eq_ofNat_iff (by omega)]
  · -- every byte of a longer character has its highest bit set
    refine iff_of_false (fun h => ?_) (by omega)
    split_ifs at h <;>
      simp (disch := omega) only [List.mem_cons, List.not_mem_nil, zero_eq_ofNat_iff, or_false] at h <;>
      omega

/-- The bytes before the first zero are those of the characters before the first zero. -/
theorem takeWhile_utf8 (s : String) : (utf8 s).takeWhile (· != 0) = utf8 (beforeZero s) := by
  rw [utf8_eq_flatMap, utf8_eq_flatMap, beforeZero, String.toList_ofList]
  generalize s.toList = cs
  induction cs with
  | nil => rfl
  | cons c cs ih =>
    by_cases hc : c = '\x00'
    · subst hc
      rfl
    · have hzero : 0 ∉ String.utf8EncodeChar c := (zero_mem_utf8EncodeChar_iff c).not.2 hc
      have hbytes : ∀ b ∈ String.utf8EncodeChar c, (b != 0) = true := fun b hb => bne_iff_ne.2 (List.forall_mem_ne'.2 hzero b hb)
      rw [List.flatMap_cons, List.takeWhile_append_of_pos hbytes, ih, List.takeWhile_cons_of_pos (by simpa using hc),
        List.flatMap_cons]

end Cpp.Escape

/-! ## Arguments for strings -/

/-- The bytes that arrive where a string is wanted and a tree is given: a literal or a string object made from one. -/
def Cpp.Tree.stringBytes? : Tree → Option (List UInt8)
  | .string bytes => some (constructedBytes bytes none)
  | .call (.name n) (.string bytes :: length) =>
    if n = "std::string" then
      match length with
      | [] => some (constructedBytes bytes none)
      | [.int k .plain] => some (constructedBytes bytes (some k))
      | _ => none
    else none
  | _ => none

/-- The bytes that arrive where a string is wanted and a text is given. -/
def argumentBytes? (text : String) : Option (List UInt8) := (Cpp.read text).bind Tree.stringBytes?

/-- A literal arrives up to its first zero byte. -/
theorem argumentBytes?_string (style : Escape.Style) (bytes : List UInt8) :
    argumentBytes? (Cpp.Expr.string style bytes).render = some (constructedBytes bytes none) := by
  rw [argumentBytes?, (written_string style bytes).read_render]
  rfl

/-- The string object of a text arrives whole. -/
theorem argumentBytes?_ofString (s : String) : argumentBytes? (Cpp.Expr.ofString s).render = some (Escape.utf8 s) := by
  have hbytes : argumentBytes? (Cpp.Expr.ofString s).render =
      some (constructedBytes (Escape.utf8 s) (givenLength (Escape.utf8 s))) := by
    rw [argumentBytes?, Cpp.Expr.ofString, (written_stringObject .text _ _).read_render, givenLength_eq]
    cases Escape.hasZero (Escape.utf8 s) <;> rfl
  rw [hbytes, constructedBytes_givenLength]

/-! ## Decoded bytes -/

/-- The literal that names an encoding. -/
def encodingLiteral (encoding : String) : Cpp.Expr := .string .text (Escape.utf8 encoding)

/-- The function that is called gets the bytes of the encoding's name up to its first zero. -/
theorem argumentBytes?_encodingLiteral (encoding : String) :
    argumentBytes? (encodingLiteral encoding).render = some (Escape.utf8 (beforeZero encoding)) := by
  rw [encodingLiteral, argumentBytes?_string, constructedBytes, Escape.takeWhile_utf8]

/-- The call that decodes what `c` stands for. -/
def decodingCall (config : Config) (c : Cpp.Expr) (encoding : String) : Cpp.Expr :=
  .call (config.support "bytes_to_str") [c, encodingLiteral encoding]

/-- The text of a decoding call. -/
theorem render_decodingCall (config : Config) (c : Cpp.Expr) (encoding : String) :
    (decodingCall config c encoding).render =
      config.supportClass ++ "::bytes_to_str(" ++ c.render ++ ", " ++ (encodingLiteral encoding).render ++ ")" := by
  change config.supportClass ++ "::" ++ "bytes_to_str" ++ "(" ++ (c.render ++ ", " ++ (encodingLiteral encoding).render) ++ ")" = _
  simp only [String.append_assoc]
  rfl

/-- It is read as a call on the bytes and the literal, if the bytes have a text that is read. -/
theorem read_decodingCall {config : Config} {c : Cpp.Expr} (hconfig : config.WellNamed) (hc : Written c) (encoding : String) :
    Cpp.read (decodingCall config c encoding).render =
      some (.call (.name (config.supportClass ++ "::bytes_to_str")) [c.tree, (encodingLiteral encoding).tree]) := by
  have hname : IsValueName (config.supportClass ++ "::" ++ "bytes_to_str") := hconfig.isValueName ⟨by decide, by decide⟩ (by decide)
  have hcall : Written (decodingCall config c encoding) := by
    refine ⟨rendered_call (rendered_name hname) fun x hx => ?_, ?_⟩
    · rcases List.mem_cons.1 hx with rfl | hx
      · exact hc.rendered
      · rw [List.mem_singleton.1 hx]
        exact rendered_string .text _
    · exact ⟨hconfig.scopedName ⟨by decide, by decide⟩, hc.namesScoped, trivial, trivial⟩
  have hcallee : config.supportClass ++ "::" ++ "bytes_to_str" = config.supportClass ++ "::bytes_to_str" := by
    rw [String.append_assoc]
    rfl
  rw [hcall.read_render, ← hcallee]
  rfl

/-- Bytes are decoded by a call whose second argument is a literal that names the encoding. The name arrives up to its first zero
character: it arrives whole if and only if it has none, and two names arrive alike if and only if they agree before it. The same text
as a string of its own arrives whole. Where the text of the receiver can be read, so can the whole call, and the literal is its second
argument. -/
theorem emit_decoded (Γ : Context) (receiver : Expr) (b : String) (htype : Γ.types.typeOf receiver = some .bytes)
    (hb : (receiver.emit Γ).outcome = .ok b) (encoding : String) : ∃ text : String,
    (Expr.emit Γ (.method receiver .toStr [.str encoding])).outcome = .ok text ∧
      text = Γ.config.supportClass ++ "::bytes_to_str(" ++ b ++ ", " ++ (encodingLiteral encoding).render ++ ")" ∧
      argumentBytes? (encodingLiteral encoding).render = some (Escape.utf8 (beforeZero encoding)) ∧
      (argumentBytes? (encodingLiteral encoding).render = some (Escape.utf8 encoding) ↔ '\x00' ∉ encoding.toList) ∧
      (∀ other, argumentBytes? (encodingLiteral encoding).render = argumentBytes? (encodingLiteral other).render ↔
        beforeZero encoding = beforeZero other) ∧
      (∃ own, (Expr.emit Γ (.str encoding)).outcome = .ok own ∧ argumentBytes? own = some (Escape.utf8 encoding)) ∧
      ∀ c, Lowers Γ receiver c → Written c → Γ.config.WellNamed →
        ∃ name, Cpp.read (encodingLiteral encoding).render = some name ∧
          Cpp.read text = some (.call (.name (Γ.config.supportClass ++ "::bytes_to_str")) [c.tree, name]) := by
  obtain ⟨c, hunique, rfl⟩ := exists_lowers_of_emit hb
  have hcall : Lowers Γ (.method receiver .toStr [.str encoding]) (decodingCall Γ.config c encoding) :=
    .decoded htype ((hunique c).2 rfl)
  refine ⟨_, emit_ok_iff_lowers.2 ⟨_, hcall, rfl⟩, render_decodingCall Γ.config c encoding, argumentBytes?_encodingLiteral encoding,
    ?_, fun other => ?_, ?_, fun d hd hwritten hconfig => ?_⟩
  · rw [argumentBytes?_encodingLiteral, Option.some_inj, Escape.utf8_injective.eq_iff, beforeZero_eq_self_iff]
  · rw [argumentBytes?_encodingLiteral, argumentBytes?_encodingLiteral, Option.some_inj, Escape.utf8_injective.eq_iff]
  · exact ⟨_, emit_ok_iff_lowers.2 ⟨_, .str encoding, rfl⟩, argumentBytes?_ofString encoding⟩
  · obtain rfl := (hunique d).1 hd
    exact ⟨_, (written_string .text _).read_render, read_decodingCall hconfig hwritten encoding⟩

/-- An encoding named with a zero character arrives as the one named by what stands before it. -/
theorem emit_decoded_zero :
    let Γ : Context := ⟨(({} : TypeTable).declareName "raw" .bytes).toTyping, .conservative⟩
    let name : String := "UTF-8\x00LE"
    Γ.types.typeOf (.name "raw") = some .bytes ∧ (Expr.emit Γ (.name "raw")).outcome = .ok "raw()" ∧
      ∃ text, (Expr.emit Γ (.method (.name "raw") .toStr [.str name])).outcome = .ok text ∧
        (∃ t, Cpp.read (encodingLiteral name).render = some t ∧
          Cpp.read text = some (.call (.name ("kaitai::kstream" ++ "::bytes_to_str")) [.call (.name "raw") [], t])) ∧
        argumentBytes? (encodingLiteral name).render = argumentBytes? (encodingLiteral "UTF-8").render ∧
        argumentBytes? (encodingLiteral name).render ≠ some (Escape.utf8 name) := by
  intro Γ name
  obtain ⟨text, hemit, -, -, hwhole, halike, -, hread⟩ := emit_decoded Γ (.name "raw") "raw()" rfl rfl name
  have hscoped : ScopedName "raw" := by decide +kernel
  have hwritten : Written (Naming.accessor "raw") :=
    ⟨rendered_call (rendered_name (isValueName_of_isSnakeName (by decide))) nofun, hscoped, trivial⟩
  have hconfig : Config.conservative.WellNamed := ⟨["kaitai", "kstream"], by simp, by simp [IsIdentifier]; decide, rfl⟩
  exact ⟨rfl, rfl, text, hemit, hread (Naming.accessor "raw") (.name "raw") hwritten hconfig, (halike "UTF-8").2 (by decide),
    hwhole.not.2 (by decide)⟩

end ExprToCpp
