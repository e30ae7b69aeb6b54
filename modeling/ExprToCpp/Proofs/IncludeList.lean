import ExprToCpp.Rendering.Renderer

/-!
# Include lists and sessions

What becomes of the include lists of a session when a sequence of headers is entered where they are missing. `IncludeList.extend` says
what one list then holds, `UnitFile.ofInclude` which list a header goes to, and `Session.register` does both. A sequence that was
registered once is registered for good: `register_again`.
-/

namespace ExprToCpp

/-- The file that includes a header while a file is being written: project headers are all included by the header file. -/
def UnitFile.ofInclude (active : UnitFile) : Include → UnitFile
  | .system _ => active
  | .project _ => .header

namespace IncludeList

/-- A list followed by the headers of a sequence that it lacks, each at its first occurrence. -/
def extend (l : IncludeList) (is : List Include) : IncludeList := ⟨l.entries ++ (is.filter fun i => !l.contains i).eraseDups⟩

@[simp] theorem extend_nil (l : IncludeList) : l.extend [] = l := by
  simp [extend]

/-- The first header of a sequence is inserted before the others. -/
theorem extend_cons (l : IncludeList) (i : Include) (is : List Include) : l.extend (i :: is) = (l.insert i).extend is := by
  cases hi : l.contains i with
  | true =>
    rw [insert, if_pos hi, extend, List.filter_cons_of_neg (by simp [hi])]
    rfl
  | false =>
    have hfilter : (is.filter fun j => !l.contains j).filter (fun j => !j == i) =
        is.filter fun j => !(IncludeList.mk (l.entries ++ [i])).contains j := by
      rw [List.filter_filter]
      apply List.filter_congr
      intro j _
      by_cases hj : j = i <;> simp [contains, hj]
    rw [insert, if_neg (by simp [hi]), extend, List.filter_cons_of_pos (by simp [hi]), List.eraseDups_cons, hfilter, extend,
      List.append_assoc]
    rfl

/-- A header is in an extended list if it was there or is one of the added ones. -/
theorem mem_extend {l : IncludeList} {is : List Include} {j : Include} : j ∈ (l.extend is).entries ↔ j ∈ l.entries ∨ j ∈ is := by
  induction is generalizing l with
  | nil => simp
  | cons i is ih => rw [extend_cons, ih, mem_insert, List.mem_cons, or_assoc]

/-- A list that has every header of a sequence stays as it is. -/
theorem extend_of_subset {l : IncludeList} {is : List Include} (h : ∀ i ∈ is, i ∈ l.entries) : l.extend is = l := by
  have hnone : is.filter (fun i => !l.contains i) = [] := by
    rw [List.filter_eq_nil_iff]
    intro i hi
    simp [contains, h i hi]
  rw [extend, hnone, List.eraseDups_nil, List.append_nil]

/-- What a list lacks of two sequences, it lacks of one and then of the other. -/
theorem extend_append (l : IncludeList) (is js : List Include) : l.extend (is ++ js) = (l.extend is).extend js := by
  induction is generalizing l with
  | nil => rw [List.nil_append, extend_nil]
  | cons i is ih => rw [List.cons_append, extend_cons, extend_cons, ih]

theorem extend_singleton (l : IncludeList) (i : Include) : l.extend [i] = l.insert i := by
  rw [extend_cons, extend_nil]

end IncludeList

namespace Session

/-- The headers of a sequence that go to a file. -/
def routed (active file : UnitFile) (needs : List Include) : List Include := needs.filter fun i => active.ofInclude i = file

/-- A header is the first of those that go to its file, and not among those that go to the other. -/
theorem extend_routed_cons (l : IncludeList) (active file : UnitFile) (i : Include) (needs : List Include) :
    l.extend (routed active file (i :: needs)) =
      (if active.ofInclude i = file then l.insert i else l).extend (routed active file needs) := by
  by_cases hi : active.ofInclude i = file
  · rw [if_pos hi, routed, List.filter_cons_of_pos (by simpa using hi), IncludeList.extend_cons]
    rfl
  · rw [if_neg hi, routed, List.filter_cons_of_neg (by simpa using hi)]
    rfl

/-- A session in which a sequence of headers is registered. -/
def register (s : Session) (needs : List Include) : Session :=
  { s with
    source := s.source.extend (routed s.active .source needs)
    header := s.header.extend (routed s.active .header needs) }

@[simp] theorem register_nil (s : Session) : s.register [] = s := by
  simp [register, routed]

/-- A header that is entered goes to the list of its file. -/
theorem register_singleton (s : Session) (i : Include) : s.register [i] = s.addTo (s.destination i) i := by
  rw [register, extend_routed_cons, extend_routed_cons]
  obtain ⟨Γ, source, header, active⟩ := s
  cases i with
  | project n => simp [routed, UnitFile.ofInclude, addTo, destination]
  | system n => cases active <;> simp [routed, UnitFile.ofInclude, addTo, destination]

/-- Two sequences are registered one after the other. -/
theorem register_append (s : Session) (is js : List Include) : s.register (is ++ js) = (s.register is).register js := by
  have hrouted : ∀ file, routed s.active file (is ++ js) = routed s.active file is ++ routed s.active file js :=
    fun _ => List.filter_append _ _
  simp only [register, hrouted, IncludeList.extend_append]

/-- A sequence stays registered, whatever is registered next. -/
theorem register_again (s : Session) (is js : List Include) :
    ((s.register is).register js).register is = (s.register is).register js := by
  have hsource : ∀ i ∈ routed s.active .source is, i ∈ ((s.register is).register js).source.entries :=
    fun i hi => IncludeList.mem_extend.2 (Or.inl (IncludeList.mem_extend.2 (Or.inr hi)))
  have hheader : ∀ i ∈ routed s.active .header is, i ∈ ((s.register is).register js).header.entries :=
    fun i hi => IncludeList.mem_extend.2 (Or.inl (IncludeList.mem_extend.2 (Or.inr hi)))
  have hextend : ((s.register is).register js).register is =
      { (s.register is).register js with
        source := ((s.register is).register js).source.extend (routed s.active .source is)
        header := ((s.register is).register js).header.extend (routed s.active .header is) } := rfl
  rw [hextend, IncludeList.extend_of_subset hsource, IncludeList.extend_of_subset hheader]

/-- Registering a sequence once more changes nothing. -/
theorem register_register (s : Session) (needs : List Include) : (s.register needs).register needs = s.register needs := by
  simpa using s.register_again needs []

/-- While the header file is being written, no header goes to the source file. -/
theorem routed_header_source (needs : List Include) : routed .header .source needs = [] := by
  rw [routed, List.filter_eq_nil_iff]
  intro i _
  cases i <;> simp [UnitFile.ofInclude]

/-- While the source file is being written, no library header goes to the header file. -/
theorem system_not_mem_routed (needs : List Include) (n : String) : .system n ∉ routed .source .header needs := by
  simp [routed, UnitFile.ofInclude]

end Session

end ExprToCpp
