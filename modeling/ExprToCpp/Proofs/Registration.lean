import ExprToCpp.Proofs.Rendering
import ExprToCpp.Session

/-!
# Registration of headers

Emitting an expression in a session has one effect: the headers it needs, which the include lists have no say in, are entered in
order where they are missing. Main statement: `step_emit`.
-/

namespace ExprToCpp

namespace Session

/-- Emitting an expression answers as its emission says, and registers what that needs. -/
theorem step_emit_eq (s : Session) (e : Expr) :
    s.step (.emit e) = (s.register (e.emit s.context).needs, .emitted (e.emit s.context).outcome) := by
  rw [step, write_eq]

/-- The session after an emission. -/
theorem fst_step_emit (s : Session) (e : Expr) : (s.step (.emit e)).1 = s.register (e.emit s.context).needs := by
  rw [step_emit_eq]

/-- The answer to an emission. -/
theorem snd_step_emit (s : Session) (e : Expr) : (s.step (.emit e)).2 = .emitted (e.emit s.context).outcome := by
  rw [step_emit_eq]

/-- An emission is answered by its outcome. -/
theorem snd_step_emit_iff {s : Session} {e : Expr} {r : Except Refusal String} :
    (s.step (.emit e)).2 = .emitted r ↔ (e.emit s.context).outcome = r := by
  rw [snd_step_emit, Answer.emitted.injEq]

/-- Emitting an expression answers the same in every session and registers the same headers, whatever the lists hold and whatever
file is being written; emitting it once more changes nothing. -/
theorem step_emit (Γ : Context) (e : Expr) : ∃ (r : Except Refusal String) (needs : List Include),
    ∀ (source header : IncludeList) (active : UnitFile),
      let s : Session := ⟨Γ, source, header, active⟩
      s.step (.emit e) = (s.register needs, .emitted r) ∧
      (s.register needs).step (.emit e) = (s.register needs, .emitted r) ∧
      (active = .header → (s.register needs).source = source) ∧
      (active = .source → ∀ n, .system n ∈ (s.register needs).header.entries → .system n ∈ header.entries) := by
  refine ⟨(e.emit Γ).outcome, (e.emit Γ).needs, fun source header active => ⟨?_, ?_, ?_, ?_⟩⟩
  · exact step_emit_eq _ e
  · rw [step_emit_eq]
    exact congrArg (·, Answer.emitted _) (register_register ⟨Γ, source, header, active⟩ (e.emit Γ).needs)
  · rintro rfl
    simp only [register, routed_header_source, IncludeList.extend_nil]
  · rintro rfl n hn
    rcases IncludeList.mem_extend.1 hn with hn | hn
    · exact hn
    · exact absurd hn (system_not_mem_routed _ n)

end Session

end ExprToCpp
