import TinLang.Program.Basic

/-!
# Interned strings

The strings of a program differ from each other and stand at growing places inside its data
segment. Storing more data keeps this, and a string that is stored already is found again without
a change.
-/
namespace TinLang.Program

/-- Different strings with some property, in the order of their places in the data segment. -/
structure StringsAt (texts : Text → Prop) (prog : Program) : Prop where
  known : ∀ string ∈ prog.interned, texts string.text
  distinct : (prog.interned.map InternedString.text).Nodup
  ordered : prog.interned.Pairwise fun left right => left.offset < right.offset
  inside : ∀ string ∈ prog.interned, 0 ≤ string.offset ∧ string.offset < prog.data.size

/-- A program holds a string. -/
def Holds (prog : Program) (text : Text) : Prop :=
  ∃ string ∈ prog.interned, string.text = text

variable {texts : Text → Prop} {prog : Program}

theorem size_appendData (size : Nat) (initial : Text) :
    (prog.appendData size initial).1.data.size = prog.data.size + size := by
  by_cases empty : size = 0
  · simp [appendData, data, empty]
  · have bytes : (initial.take size ++ List.replicate (size - initial.length) 0).length = size := by
      rw [List.length_append, List.length_take, List.length_replicate]
      omega
    simp only [appendData, empty, ↓reduceIte, data, Option.getD_some]
    rw [← Array.length_toList, Array.toList_appendList, List.length_append, bytes]
    rfl

theorem interned_appendData (size : Nat) (initial : Text) :
    (prog.appendData size initial).1.interned = prog.interned := rfl

theorem StringsAt.appendData (strings : prog.StringsAt texts) (size : Nat) (initial : Text) :
    (prog.appendData size initial).1.StringsAt texts where
  known := strings.known
  distinct := strings.distinct
  ordered := strings.ordered
  inside string mem := by
    have old := strings.inside string mem
    rw [size_appendData]
    omega

/-- A string that the program holds is found again. -/
theorem intern_of_holds {text : Text} (holds : prog.Holds text) :
    ∃ offset, prog.intern text = (prog, offset) := by
  obtain ⟨string, mem, same⟩ := holds
  unfold intern
  split
  · next found _ => exact ⟨found.offset, rfl⟩
  · next none =>
    have differs := List.find?_eq_none.mp none string mem
    simp [same] at differs

/-- A string that the program does not hold is added behind the others. -/
theorem intern_of_not_holds {text : Text} (missing : ¬ prog.Holds text) :
    prog.intern text =
      ({ (prog.appendData (text.length + 1) text).1 with
          interned := prog.interned ++ [(⟨prog.data.size, text⟩ : InternedString)] },
        (prog.data.size : Int)) := by
  unfold intern
  split
  · next found there =>
    have same := List.find?_some there
    have holds : prog.Holds text :=
      ⟨found, List.mem_of_find?_eq_some there, by simpa using same⟩
    exact absurd holds missing
  · rfl

theorem StringsAt.intern (strings : prog.StringsAt texts) {text : Text} (known : texts text) :
    (prog.intern text).1.StringsAt texts := by
  by_cases holds : prog.Holds text
  · obtain ⟨offset, same⟩ := intern_of_holds holds
    rw [same]
    exact strings
  · have grown := strings.appendData (text.length + 1) text
    rw [intern_of_not_holds holds]
    refine ⟨?_, ?_, ?_, ?_⟩
    · intro string mem
      rcases List.mem_append.mp mem with old | new
      · exact strings.known string old
      · rw [List.mem_singleton.mp new]
        exact known
    · rw [List.map_append, List.nodup_append]
      refine ⟨strings.distinct, by simp, ?_⟩
      intro first firstMember second secondMember same
      obtain ⟨string, mem, rfl⟩ := List.mem_map.mp firstMember
      have last : second = text := by simpa using secondMember
      exact holds ⟨string, mem, same.trans last⟩
    · rw [List.pairwise_append]
      refine ⟨strings.ordered, List.pairwise_singleton _ _, ?_⟩
      intro first firstMember second secondMember
      rw [List.mem_singleton.mp secondMember]
      exact (strings.inside first firstMember).2
    · intro string mem
      have size := @size_appendData prog (text.length + 1) text
      rcases List.mem_append.mp mem with old | new
      · exact grown.inside string old
      · rw [List.mem_singleton.mp new]
        have larger : (prog.data.size : Int) <
            (prog.appendData (text.length + 1) text).1.data.size := by omega
        exact ⟨by simp, larger⟩

theorem Holds.intern {text other : Text} (holds : prog.Holds text) :
    (prog.intern other).1.Holds text := by
  by_cases there : prog.Holds other
  · obtain ⟨offset, same⟩ := intern_of_holds there
    rw [same]
    exact holds
  · obtain ⟨string, mem, same⟩ := holds
    rw [intern_of_not_holds there]
    exact ⟨string, List.mem_append_left _ mem, same⟩

theorem holds_intern (text : Text) : (prog.intern text).1.Holds text := by
  by_cases there : prog.Holds text
  · obtain ⟨offset, same⟩ := intern_of_holds there
    rw [same]
    exact there
  · rw [intern_of_not_holds there]
    exact ⟨⟨prog.data.size, text⟩, by simp, rfl⟩

/-- Storing strings adds no piece and links nothing. -/
theorem pieces_intern (text : Text) : (prog.intern text).1.pieces = prog.pieces ∧
    (prog.intern text).1.linked = prog.linked := by
  by_cases there : prog.Holds text
  · obtain ⟨offset, same⟩ := intern_of_holds there
    rw [same]
    exact ⟨rfl, rfl⟩
  · rw [intern_of_not_holds there]
    exact ⟨rfl, rfl⟩

/-- The program with some strings stored one after another. -/
def internAll (prog : Program) (stored : List Text) : Program :=
  stored.foldl (fun prog text => (prog.intern text).1) prog

theorem StringsAt.internAll (strings : prog.StringsAt texts) {stored : List Text}
    (known : ∀ text ∈ stored, texts text) : (prog.internAll stored).StringsAt texts := by
  induction stored generalizing prog with
  | nil => exact strings
  | cons text stored ih =>
    exact ih (strings.intern (known text (by simp))) fun other mem => known other (by simp [mem])

theorem Holds.internAll {text : Text} (holds : prog.Holds text) (stored : List Text) :
    (prog.internAll stored).Holds text := by
  induction stored generalizing prog with
  | nil => exact holds
  | cons other stored ih => exact ih holds.intern

theorem holds_internAll {text : Text} {stored : List Text} (mem : text ∈ stored) :
    (prog.internAll stored).Holds text := by
  induction stored generalizing prog with
  | nil => simp at mem
  | cons other stored ih =>
    rcases List.mem_cons.mp mem with rfl | later
    · exact (holds_intern text).internAll stored
    · exact ih later

theorem pieces_internAll (stored : List Text) :
    (prog.internAll stored).pieces = prog.pieces ∧
      (prog.internAll stored).linked = prog.linked := by
  induction stored generalizing prog with
  | nil => exact ⟨rfl, rfl⟩
  | cons text stored ih =>
    have first := @pieces_intern prog text
    have later := @ih (prog.intern text).1
    exact ⟨later.1.trans first.1, later.2.trans first.2⟩

end TinLang.Program
