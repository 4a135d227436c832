import TinLang.Diagnostic

/-!
# The order of diagnostics

Sorting by place keeps the diagnostics of one place in the order in which they were found. So what
a report lists depends only on that order at every place, not on how the places alternate.
-/
namespace TinLang.Diagnostic

/-- The place of a diagnostic, which decides where a report lists it. -/
def place (diagnostic : Diagnostic) : Text × Int × Int :=
  (diagnostic.file, diagnostic.line, diagnostic.column)

/-- The diagnostics at one place. -/
def atPlace (place : Text × Int × Int) (diagnostics : List Diagnostic) : List Diagnostic :=
  diagnostics.filter fun diagnostic => decide (diagnostic.place = place)

/-- Diagnostics come by file, line and column. -/
theorem before_iff (left right : Diagnostic) : before left right = true ↔
    left.file < right.file ∨ (left.file = right.file ∧ (left.line < right.line ∨
      (left.line = right.line ∧ left.column < right.column))) := by
  unfold before Text.precedes
  by_cases file : left.file = right.file
  · have never : ¬ right.file < right.file := List.lt_irrefl _
    by_cases line : left.line = right.line
    · simp [file, line, never]
    · simp [file, line, never]
  · simp [file]

/-- A report lists the left diagnostic not after the right one. -/
def notAfter (left right : Diagnostic) : Bool := !before right left

/-- A diagnostic that is not after another is before it or at its place. -/
theorem notAfter_iff (left right : Diagnostic) : notAfter left right = true ↔
    left.file < right.file ∨ (left.file = right.file ∧ (left.line < right.line ∨
      (left.line = right.line ∧ left.column ≤ right.column))) := by
  rw [notAfter, Bool.not_eq_true', ← Bool.not_eq_true, before_iff]
  constructor
  · intro none
    by_cases file : left.file = right.file
    · refine .inr ⟨file, ?_⟩
      have same : right.file = left.file := file.symm
      have later : ¬ (right.line < left.line ∨
          (right.line = left.line ∧ right.column < left.column)) :=
        fun earlier => none (.inr ⟨same, earlier⟩)
      omega
    · have least : ¬ right.file < left.file := fun earlier => none (.inl earlier)
      have upTo : left.file ≤ right.file := List.not_lt.mp least
      exact .inl ((List.le_iff_lt_or_eq.mp upTo).resolve_right file)
  · rintro (file | ⟨file, rest⟩) (other | ⟨other, rest'⟩)
    · exact List.lt_irrefl _ (List.lt_trans file other)
    · rw [other] at file
      exact List.lt_irrefl _ file
    · rw [file] at other
      exact List.lt_irrefl _ other
    · omega

/-- The order of diagnostics is transitive. -/
theorem notAfter_trans (first second third : Diagnostic) (left : notAfter first second)
    (right : notAfter second third) : notAfter first third := by
  rw [notAfter_iff] at left right ⊢
  rcases left with file | ⟨file, rest⟩
  · rcases right with other | ⟨other, _⟩
    · exact .inl (List.lt_trans file other)
    · exact .inl (other ▸ file)
  · rcases right with other | ⟨other, later⟩
    · exact .inl (file ▸ other)
    · exact .inr ⟨file.trans other, by omega⟩

/-- The order of diagnostics is total. -/
theorem notAfter_total (left right : Diagnostic) :
    notAfter left right || notAfter right left := by
  rw [Bool.or_eq_true, notAfter_iff, notAfter_iff]
  by_cases file : left.file = right.file
  · rw [file]
    have lines : (left.line < right.line ∨ (left.line = right.line ∧ left.column ≤ right.column)) ∨
        (right.line < left.line ∨ (right.line = left.line ∧ right.column ≤ left.column)) := by
      omega
    exact lines.imp (fun first => .inr ⟨rfl, first⟩) fun second => .inr ⟨rfl, second⟩
  · rcases List.le_total left.file right.file with first | second
    · exact .inl (.inl ((List.le_iff_lt_or_eq.mp first).resolve_right file))
    · exact .inr (.inl ((List.le_iff_lt_or_eq.mp second).resolve_right (Ne.symm file)))

/-- Two diagnostics that may stand in either order have one place. -/
theorem place_eq_of_notAfter {left right : Diagnostic} (first : notAfter left right)
    (second : notAfter right left) : left.place = right.place := by
  rw [notAfter_iff] at first second
  rcases first with file | ⟨file, rest⟩ <;> rcases second with other | ⟨other, rest'⟩
  · exact absurd (List.lt_trans file other) (List.lt_irrefl _)
  · rw [other] at file
    exact absurd file (List.lt_irrefl _)
  · rw [file] at other
    exact absurd other (List.lt_irrefl _)
  · have line : left.line = right.line := by omega
    have column : left.column = right.column := by omega
    simp [place, file, line, column]

/-- Diagnostics at one place come in either order. -/
theorem notAfter_of_place {left right : Diagnostic} (same : left.place = right.place) :
    notAfter left right := by
  simp only [place, Prod.mk.injEq] at same
  rw [notAfter_iff]
  exact .inr ⟨same.1, .inr ⟨same.2.1, by omega⟩⟩

/-- Sorting keeps the diagnostics of a place in order. -/
theorem atPlace_sort (spot : Text × Int × Int) (diagnostics : List Diagnostic) :
    atPlace spot (sort diagnostics) = atPlace spot diagnostics := by
  have ordered : (atPlace spot diagnostics).Pairwise fun left right => notAfter left right := by
    rw [List.pairwise_iff_forall_sublist]
    intro left right inside
    have all : ∀ diagnostic ∈ atPlace spot diagnostics, diagnostic.place = spot := by
      simp [atPlace]
    have first := all left (inside.subset (by simp))
    have second := all right (inside.subset (by simp))
    exact notAfter_of_place (first.trans second.symm)
  have kept : (atPlace spot diagnostics).Sublist (sort diagnostics) :=
    List.sublist_mergeSort notAfter_trans notAfter_total ordered List.filter_sublist
  have narrowed : (atPlace spot diagnostics).Sublist (atPlace spot (sort diagnostics)) := by
    have filtered := kept.filter fun diagnostic => decide (diagnostic.place = spot)
    simpa only [atPlace, List.filter_filter, Bool.and_self] using filtered
  have count : (atPlace spot diagnostics).length = (atPlace spot (sort diagnostics)).length :=
    ((List.mergeSort_perm diagnostics _).filter _).length_eq.symm
  exact (narrowed.eq_of_length count).symm

/-- Ordered lists with the same diagnostics at every place are the same. -/
theorem eq_of_ordered {left right : List Diagnostic}
    (leftOrdered : left.Pairwise fun first second => notAfter first second)
    (rightOrdered : right.Pairwise fun first second => notAfter first second)
    (same : ∀ spot, atPlace spot left = atPlace spot right) : left = right := by
  induction left generalizing right with
  | nil =>
    cases right with
    | nil => rfl
    | cons head tail =>
      have found := same head.place
      simp [atPlace] at found
  | cons head tail ih =>
    cases right with
    | nil =>
      have found := same head.place
      simp [atPlace] at found
    | cons other others =>
      have here : head ∈ other :: others := by
        have found : head ∈ atPlace head.place (other :: others) := by
          rw [← same]
          simp [atPlace]
        exact List.mem_filter.mp found |>.1
      have there : other ∈ head :: tail := by
        have found : other ∈ atPlace other.place (head :: tail) := by
          rw [same]
          simp [atPlace]
        exact List.mem_filter.mp found |>.1
      have first : notAfter other head := by
        rcases List.mem_cons.mp here with rfl | later
        · exact notAfter_of_place rfl
        · exact List.rel_of_pairwise_cons rightOrdered later
      have second : notAfter head other := by
        rcases List.mem_cons.mp there with rfl | later
        · exact notAfter_of_place rfl
        · exact List.rel_of_pairwise_cons leftOrdered later
      have place := place_eq_of_notAfter second first
      obtain rfl : head = other := by
        have found := same head.place
        simp only [atPlace, List.filter_cons, decide_true, ↓reduceIte, ← place] at found
        exact (List.cons.inj found).1
      have rest : ∀ spot, atPlace spot tail = atPlace spot others := by
        intro spot
        have found := same spot
        simp only [atPlace, List.filter_cons] at found
        split at found
        · exact (List.cons.inj found).2
        · exact found
      rw [ih leftOrdered.of_cons rightOrdered.of_cons rest]

/-- What a report lists depends only on the order of the diagnostics at every place. -/
theorem sort_eq_of_atPlace {left right : List Diagnostic}
    (same : ∀ spot, atPlace spot left = atPlace spot right) : sort left = sort right := by
  have ordered : ∀ diagnostics, (sort diagnostics).Pairwise fun first second =>
      notAfter first second :=
    fun diagnostics => List.pairwise_mergeSort notAfter_trans notAfter_total diagnostics
  refine eq_of_ordered (ordered left) (ordered right) ?_
  intro spot
  rw [atPlace_sort, atPlace_sort, same]

/-- Lists with the same diagnostics at every place are both empty, or both are not and a report
lists and counts them alike. -/
theorem report_cases {left right : List Diagnostic}
    (same : ∀ spot, atPlace spot left = atPlace spot right) :
    (left = [] ∧ right = []) ∨ ∃ first firsts second seconds, left = first :: firsts ∧
      right = second :: seconds ∧ sort (first :: firsts) = sort (second :: seconds) ∧
      firsts.length = seconds.length := by
  have sorted := sort_eq_of_atPlace same
  have count : left.length = right.length := by
    rw [← (List.mergeSort_perm left _).length_eq, ← (List.mergeSort_perm right _).length_eq]
    exact congrArg List.length sorted
  cases left with
  | nil => exact .inl ⟨rfl, List.eq_nil_of_length_eq_zero count.symm⟩
  | cons first firsts =>
    cases right with
    | nil => simp at count
    | cons second seconds =>
      exact .inr ⟨first, firsts, second, seconds, rfl, rfl, sorted, by simpa using count⟩

end TinLang.Diagnostic
