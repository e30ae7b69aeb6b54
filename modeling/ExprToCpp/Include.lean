/-!
# Include lists

The headers a generated file includes. A list only grows at its end and holds no header twice, so the first need of a header
fixes its place. The main statements: `mem_insert` and `nodup_insert` say what one insertion does.
-/

namespace ExprToCpp

/-- An included header: one of the C++ library, or one of the project that is generated. -/
inductive Include where
  | system (name : String)
  | project (name : String)
  deriving DecidableEq, Repr

/-- The name of a header. -/
def Include.name : Include → String
  | .system n | .project n => n

/-- The line that includes a header. -/
def Include.line : Include → String
  | .system n => "#include <" ++ n ++ ">"
  | .project n => "#include \"" ++ n ++ "\""

namespace Include

/-- The library headers that emitted code needs. -/
def vector : Include := .system "vector"
def algorithm : Include := .system "algorithm"
def math : Include := .system "cmath"
def limits : Include := .system "limits"

end Include

/-- The two files a generated unit consists of. -/
inductive UnitFile where
  | source | header
  deriving DecidableEq, Repr

/-- The headers of one file, in the order of their first need. -/
structure IncludeList where
  entries : List Include := []
  deriving DecidableEq, Repr

namespace IncludeList

/-- Whether a header is in the list. -/
def contains (l : IncludeList) (i : Include) : Bool := l.entries.contains i

/-- Adds a header at the end, unless the list has it. -/
def insert (l : IncludeList) (i : Include) : IncludeList := if l.contains i then l else ⟨l.entries ++ [i]⟩

def size (l : IncludeList) : Nat := l.entries.length

def isEmpty (l : IncludeList) : Bool := l.entries.isEmpty

/-- The lines of the headers, in order. -/
def lines (l : IncludeList) : List String := l.entries.map Include.line

/-- Whether two lists hold the same headers, in any order. -/
def sameEntries (l m : IncludeList) : Bool := l.size == m.size && l.entries.all m.contains

/-- An insertion adds the header, and only it. -/
@[simp] theorem mem_insert {l : IncludeList} {i j : Include} :
    j ∈ (l.insert i).entries ↔ j ∈ l.entries ∨ j = i := by
  by_cases h : i ∈ l.entries
  · simp only [insert, contains, List.contains_iff_mem, h, if_true, iff_self_or]
    rintro rfl
    exact h
  · simp [insert, contains, h]

/-- An insertion makes no header stand twice. -/
theorem nodup_insert {l : IncludeList} (h : l.entries.Nodup) (i : Include) : (l.insert i).entries.Nodup := by
  by_cases hi : i ∈ l.entries
  · simpa [insert, contains, hi] using h
  · simp only [insert, contains, List.contains_iff_mem, hi, if_false]
    refine List.nodup_append.mpr ⟨h, by simp, ?_⟩
    intro a ha b hb hab
    rw [List.mem_singleton] at hb
    exact hi (hb ▸ hab ▸ ha)

end IncludeList

end ExprToCpp
