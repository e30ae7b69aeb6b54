import Mathlib.Data.List.Nodup
import ExprToCpp.Proofs.Registration

/-!
# The history of the include lists

A session asks for headers in an order that its steps fix, and its lists hold each of them once, where it was first asked for:
`includes_after`. So a list never holds a header twice and only grows at its end. Emissions ask for the same headers in whatever
order they come, and their lists then differ in order alone. Main statement: `lists_of_run`.
-/

namespace ExprToCpp

/-! ## Lists -/

namespace IncludeList

/-- No insertion makes a header stand twice. -/
theorem nodup_extend {l : IncludeList} (h : l.entries.Nodup) (is : List Include) : (l.extend is).entries.Nodup := by
  induction is generalizing l with
  | nil => rwa [extend_nil]
  | cons i is ih =>
    rw [extend_cons]
    exact ih (nodup_insert h i)

/-- A list only grows at its end. -/
theorem isPrefix_extend (l : IncludeList) (is : List Include) : l.entries <+: (l.extend is).entries := List.prefix_append _ _

/-- An empty list is extended by each header at its first occurrence. -/
theorem entries_extend_empty (is : List Include) : (({} : IncludeList).extend is).entries = is.eraseDups := by
  have hall : is.filter (fun i => !({} : IncludeList).contains i) = is := List.filter_eq_self.2 fun _ _ => rfl
  rw [extend, hall, List.nil_append]

/-- Lists without repetitions are the same when they have the same members. -/
theorem sameEntries_of_mem_iff {l m : IncludeList} (hl : l.entries.Nodup) (hm : m.entries.Nodup)
    (h : ∀ i, i ∈ l.entries ↔ i ∈ m.entries) : l.sameEntries m = true := by
  have hperm : l.entries.Perm m.entries := (List.perm_ext_iff_of_nodup hl hm).2 h
  rw [sameEntries, Bool.and_eq_true, beq_iff_eq, List.all_eq_true]
  exact ⟨hperm.length_eq, fun i hi => List.contains_iff_mem.2 ((h i).1 hi)⟩

end IncludeList

/-- The line of a header tells its name and whether it is the library's. -/
theorem Include.line_injective : Function.Injective Include.line := by
  intro i j h
  have hlines := congrArg String.toList h
  cases i with
  | system a =>
    cases j with
    | system b =>
      obtain rfl : a = b := String.toList_inj.1 (by simpa [line] using hlines)
      rfl
    | project b => simp [line] at hlines
  | project a =>
    cases j with
    | system b => simp [line] at hlines
    | project b =>
      obtain rfl : a = b := String.toList_inj.1 (by simpa [line] using hlines)
      rfl

namespace Session

/-! ## Steps -/

/-- The headers that a step asks to include in a file, in order. -/
def requested (s : Session) (file : UnitFile) : Step → List Include
  | .emit e => routed s.active file (e.emit s.context).needs
  | .add f i => if f = file then [i] else []
  | _ => []

/-- A step extends each list by what it asks for. -/
theorem includes_step (s : Session) (x : Step) (file : UnitFile) :
    (s.step x).1.includes file = (s.includes file).extend (s.requested file x) := by
  cases x with
  | emit e =>
    rw [fst_step_emit]
    cases file <;> rfl
  | add f i =>
    change (s.addTo f i).includes file = (s.includes file).extend (if f = file then [i] else [])
    rw [includes_addTo]
    by_cases hf : f = file
    · rw [if_pos hf, if_pos hf.symm, IncludeList.extend_singleton]
    · rw [if_neg hf, if_neg fun h => hf h.symm, IncludeList.extend_nil]
  | select f => cases file <;> exact (IncludeList.extend_nil _).symm
  | cppType _ | state | typeOf _ | compareLists | has _ _ | size _ | list _ => exact (IncludeList.extend_nil _).symm

theorem context_addTo (s : Session) (f : UnitFile) (i : Include) : (s.addTo f i).context = s.context := by
  cases f <;> rfl

/-- No step changes what is read. -/
theorem context_step (s : Session) (x : Step) : (s.step x).1.context = s.context := by
  cases x with
  | emit e => rw [fst_step_emit]; rfl
  | add f i => exact context_addTo s f i
  | _ => rfl

/-- Only turning to a file changes the file that is being written. -/
theorem active_step_emit (s : Session) (e : Expr) : (s.step (.emit e)).1.active = s.active := by
  rw [fst_step_emit]
  rfl

/-! ## Runs -/

/-- The session that a run of steps leads to. -/
def after (s : Session) (steps : List Step) : Session := steps.foldl (fun s x => (s.step x).1) s

/-- A run goes on from the session that its first steps lead to. -/
theorem run_append (s : Session) (xs ys : List Step) : s.run (xs ++ ys) = s.run xs ++ (s.after xs).run ys := by
  induction xs generalizing s with
  | nil => rfl
  | cons x xs ih =>
    have hrest := ih (s.step x).1
    rw [List.cons_append, run, run, List.cons_append, hrest]
    rfl

/-- The headers that steps ask to include in a file, in the order in which they do. -/
def history (s : Session) (file : UnitFile) : List Step → List Include
  | [] => []
  | x :: xs => s.requested file x ++ (s.step x).1.history file xs

/-- Steps extend each list by all that they ask for. -/
theorem includes_after (s : Session) (steps : List Step) (file : UnitFile) :
    (s.after steps).includes file = (s.includes file).extend (s.history file steps) := by
  induction steps generalizing s with
  | nil => exact (IncludeList.extend_nil _).symm
  | cons x xs ih =>
    have hrest := ih (s.step x).1
    rw [includes_step, ← IncludeList.extend_append] at hrest
    exact hrest

/-- No run changes the context. -/
theorem context_after (s : Session) (steps : List Step) : (s.after steps).context = s.context := by
  induction steps generalizing s with
  | nil => rfl
  | cons x xs ih => exact (ih (s.step x).1).trans (context_step s x)

/-- What a session that began with empty lists includes: all it asked for, each header at its first occurrence. -/
theorem entries_after_empty (Γ : Context) (active : UnitFile) (steps : List Step) (file : UnitFile) :
    ((Session.after ⟨Γ, {}, {}, active⟩ steps).includes file).entries =
      (Session.history ⟨Γ, {}, {}, active⟩ file steps).eraseDups := by
  have hstart : Session.includes ⟨Γ, {}, {}, active⟩ file = {} := by cases file <;> rfl
  rw [includes_after, hstart, IncludeList.entries_extend_empty]

/-- No header stands twice after a run from empty lists. -/
theorem nodup_after_empty (Γ : Context) (active : UnitFile) (steps : List Step) (file : UnitFile) :
    ((Session.after ⟨Γ, {}, {}, active⟩ steps).includes file).entries.Nodup := by
  rw [includes_after]
  refine IncludeList.nodup_extend ?_ _
  cases file <;> exact List.nodup_nil

/-! ## Emissions in any order -/

/-- Each emission answers as it would alone. -/
theorem answers_emissions (s : Session) (es : List Expr) :
    (s.run (es.map .emit)).map Prod.snd = es.map fun e => .emitted (e.emit s.context).outcome := by
  induction es generalizing s with
  | nil => rfl
  | cons e es ih =>
    have hrest := ih (s.step (.emit e)).1
    rw [context_step] at hrest
    rw [List.map_cons, run, List.map_cons, hrest, snd_step_emit]
    rfl

/-- Emissions ask for what each of them needs. -/
theorem history_emissions (s : Session) (file : UnitFile) (es : List Expr) :
    s.history file (es.map .emit) = es.flatMap fun e => routed s.active file (e.emit s.context).needs := by
  induction es generalizing s with
  | nil => rfl
  | cons e es ih =>
    have hrest := ih (s.step (.emit e)).1
    rw [context_step, active_step_emit] at hrest
    rw [List.map_cons, history, hrest]
    rfl

/-- The order of emissions decides nothing on what is included in the end. -/
theorem mem_includes_emissions_of_perm (s : Session) {es fs : List Expr} (h : es.Perm fs) (file : UnitFile) (i : Include) :
    i ∈ ((s.after (es.map .emit)).includes file).entries ↔ i ∈ ((s.after (fs.map .emit)).includes file).entries := by
  rw [includes_after, includes_after, IncludeList.mem_extend, IncludeList.mem_extend, history_emissions, history_emissions,
    List.mem_flatMap, List.mem_flatMap]
  refine or_congr_right (exists_congr fun e => and_congr_left fun _ => h.mem_iff)

/-! ## Whole sessions -/

/-- At every point of a session that began with empty lists, no list has a header or a line twice, and the lines come in the order
in which their headers were first asked for. The next step only appends to the lists, whether it succeeds or not; adding a header
by hand tells whether it was missing, and a library header never stands for a project header of the same name or the other way
round. If expressions are emitted next, in whatever order, each is answered in the same way and the lists hold the same headers. -/
theorem lists_of_run (Γ : Context) (active : UnitFile) (steps : List Step) :
    let start : Session := ⟨Γ, {}, {}, active⟩
    let s := start.after steps
    (∀ next, start.run (steps ++ next) = start.run steps ++ s.run next) ∧
    (∀ file, (s.includes file).entries.Nodup ∧ (s.includes file).lines.Nodup ∧
      (s.includes file).lines = (start.history file steps).eraseDups.map Include.line) ∧
    (∀ x file, (s.includes file).entries <+: ((s.step x).1.includes file).entries) ∧
    (∀ file i, ∃ fresh, (s.step (.add file i)).2 = .flag fresh ∧ (fresh = true ↔ i ∉ (s.includes file).entries)) ∧
    (∀ file n,
      (.project n ∈ ((s.step (.add file (.system n))).1.includes file).entries ↔ .project n ∈ (s.includes file).entries) ∧
      (.system n ∈ ((s.step (.add file (.project n))).1.includes file).entries ↔ .system n ∈ (s.includes file).entries)) ∧
    ∀ es fs : List Expr, es.Perm fs →
      (s.run (es.map .emit)).map Prod.snd = es.map (fun e => .emitted (e.emit Γ).outcome) ∧
      (s.run (fs.map .emit)).map Prod.snd = fs.map (fun e => .emitted (e.emit Γ).outcome) ∧
      ∀ file, ((s.after (es.map .emit)).includes file).sameEntries ((s.after (fs.map .emit)).includes file) = true ∧
        ∀ i, i ∈ ((s.after (es.map .emit)).includes file).entries ↔ i ∈ ((s.after (fs.map .emit)).includes file).entries := by
  intro start s
  have hnodup : ∀ file, (s.includes file).entries.Nodup := nodup_after_empty Γ active steps
  have hcontext : s.context = Γ := context_after start steps
  have hadd : ∀ file i j, j ∈ ((s.step (.add file i)).1.includes file).entries ↔ j ∈ (s.includes file).entries ∨ j = i := by
    intro file i j
    rw [includes_step, IncludeList.mem_extend]
    simp [requested]
  refine ⟨run_append start steps, fun file => ⟨hnodup file, ?_, ?_⟩, fun x file => ?_, fun file i => ?_, fun file n => ?_,
    fun es fs hperm => ⟨?_, ?_, fun file => ?_⟩⟩
  · exact (hnodup file).map Include.line_injective
  · exact congrArg (List.map Include.line) (entries_after_empty Γ active steps file)
  · rw [includes_step]
    exact IncludeList.isPrefix_extend _ _
  · refine ⟨_, rfl, ?_⟩
    rw [IncludeList.contains, Bool.not_eq_true', ← Bool.not_eq_true, List.contains_iff_mem]
  · rw [hadd, hadd]
    simp
  · rw [answers_emissions, hcontext]
  · rw [answers_emissions, hcontext]
  · have hmem := mem_includes_emissions_of_perm s hperm file
    refine ⟨IncludeList.sameEntries_of_mem_iff ?_ ?_ hmem, hmem⟩
    · rw [includes_after]
      exact IncludeList.nodup_extend (hnodup file) _
    · rw [includes_after]
      exact IncludeList.nodup_extend (hnodup file) _

end Session

end ExprToCpp
