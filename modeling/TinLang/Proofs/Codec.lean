import TinLang.Proofs.Code

/-!
# The codec of code

An immediate carries no tag: its four bytes may look like any instruction, so which cells hold
instructions follows from all the opcodes before them. `InstructionAt` counts these cells from the
start, and `Readable` says of the bytes what a reader demands there. Bytes are decoded exactly when
they are readable, and then they are the bytes of the code they give; well-formed code is what its
bytes give; and bytes that are refused change nothing (`Code.exact_reload`).
-/
namespace TinLang

/-- The number of cells that an instruction and its immediate take. -/
def Opcode.cells (op : Opcode) : Nat := if op.hasImmediate then 2 else 1

/-- A word, written back, is its bytes. -/
theorem littleEndian_ofLittleEndian (first second third fourth : UInt8) :
    littleEndian (ofLittleEndian first second third fourth) = [first, second, third, fourth] := by
  have first_lt := first.toNat_lt
  have second_lt := second.toNat_lt
  have third_lt := third.toNat_lt
  have fourth_lt := fourth.toNat_lt
  simp only [littleEndian, ofLittleEndian, BitVec.toNat_ofNat, List.cons.injEq, and_true,
    ← UInt8.toNat_inj, Nat.toUInt8_eq, UInt8.toNat_ofNat']
  omega

namespace Code

/-- The opcode that the first byte of a cell stands for. -/
def opcodeAt (bytes : Text) (cell : Nat) : Opcode := Opcode.ofCode (bytes.getD (4 * cell) 0)

/-- A reader that starts at the first cell comes to an instruction at this cell. -/
inductive InstructionAt (bytes : Text) : Nat → Prop where
  | first : InstructionAt bytes 0
  | next {cell : Nat} (here : InstructionAt bytes cell) :
    InstructionAt bytes (cell + (opcodeAt bytes cell).cells)

/-- Bytes are whole cells in which every instruction is defined and has its immediate. -/
structure Readable (bytes : Text) : Prop where
  whole : bytes.length % 4 = 0
  defined : ∀ cell, InstructionAt bytes cell → 4 * cell < bytes.length →
    (opcodeAt bytes cell).isDefined
  complete : ∀ cell, InstructionAt bytes cell → 4 * cell < bytes.length →
    (opcodeAt bytes cell).hasImmediate → 4 * (cell + 1) < bytes.length

/-- The cells after some cells have the opcodes they have alone. -/
theorem opcodeAt_append {front : Text} {cells : Nat} (length : front.length = 4 * cells)
    (rest : Text) (cell : Nat) : opcodeAt (front ++ rest) (cells + cell) = opcodeAt rest cell := by
  have past : 4 * (cells + cell) = front.length + 4 * cell := by omega
  simp only [opcodeAt, List.getD_eq_getElem?_getD, past,
    List.getElem?_append_right (Nat.le_add_right _ _), Nat.add_sub_cancel_left]

section Shifted

variable {front rest : Text}

/-- After the first instruction and its immediate a reader goes on as if it started there. -/
theorem instructionAt_append (length : front.length = 4 * (opcodeAt (front ++ rest) 0).cells)
    {cell : Nat} : InstructionAt (front ++ rest) cell ↔
      cell = 0 ∨ ∃ later, InstructionAt rest later ∧
        cell = (opcodeAt (front ++ rest) 0).cells + later := by
  constructor
  · intro here
    induction here with
    | first => exact .inl rfl
    | next _ ih =>
      obtain rfl | ⟨later, there, rfl⟩ := ih
      · exact .inr ⟨0, .first, Nat.zero_add _⟩
      · rw [opcodeAt_append length]
        exact .inr ⟨_, there.next, Nat.add_assoc ..⟩
  · rintro (rfl | ⟨later, there, rfl⟩)
    · exact .first
    · induction there with
      | first => simpa using (InstructionAt.first : InstructionAt (front ++ rest) 0).next
      | next _ ih =>
        have step := ih.next
        rwa [opcodeAt_append length, Nat.add_assoc] at step

/-- Bytes are readable when the first instruction is defined and the bytes after it and its
immediate are readable. -/
theorem readable_append (length : front.length = 4 * (opcodeAt (front ++ rest) 0).cells)
    (defined : (opcodeAt (front ++ rest) 0).isDefined) :
    Readable (front ++ rest) ↔ Readable rest := by
  constructor
  · intro readable
    constructor
    case whole =>
      have whole := readable.whole
      rw [List.length_append] at whole
      omega
    case defined =>
      intro cell here inside
      rw [← opcodeAt_append length]
      refine readable.defined _ ((instructionAt_append length).mpr (.inr ⟨cell, here, rfl⟩)) ?_
      rw [List.length_append]
      omega
    case complete =>
      intro cell here inside wide
      rw [← opcodeAt_append length] at wide
      have next := readable.complete _
        ((instructionAt_append length).mpr (.inr ⟨cell, here, rfl⟩))
        (by rw [List.length_append]; omega) wide
      rw [List.length_append] at next
      omega
  · intro readable
    constructor
    case whole =>
      have whole := readable.whole
      rw [List.length_append]
      omega
    case defined =>
      intro cell here inside
      obtain rfl | ⟨later, there, rfl⟩ := (instructionAt_append length).mp here
      · exact defined
      · rw [opcodeAt_append length]
        rw [List.length_append] at inside
        exact readable.defined later there (by omega)
    case complete =>
      intro cell here inside wide
      rw [List.length_append] at inside ⊢
      obtain rfl | ⟨later, there, rfl⟩ := (instructionAt_append length).mp here
      · simp only [Opcode.cells, wide, ↓reduceIte] at length
        omega
      · rw [opcodeAt_append length] at wide
        have next := readable.complete later there (by omega) wide
        omega

end Shifted

/-- No bytes are readable. -/
theorem readable_nil : Readable [] :=
  ⟨rfl, fun _ _ inside => absurd inside (Nat.not_lt_zero _),
    fun _ _ inside => absurd inside (Nat.not_lt_zero _)⟩

/-- After a cell of whole cells there are whole cells. -/
theorem whole_of_cons {first second third fourth : UInt8} {rest : Text}
    (whole : (first :: second :: third :: fourth :: rest).length % 4 = 0) :
    rest.length % 4 = 0 := by
  simp only [List.length_cons] at whole
  omega

/-- Bytes are readable after an opcode that waits for its immediate, or from the start. -/
def ReadableAfter : (pending : Option Opcode) → Text → Prop
  | none, bytes => Readable bytes
  | some _, bytes => 4 ≤ bytes.length ∧ Readable (bytes.drop 4)

/-- The cells after an instruction are readable when the instruction and they are. -/
theorem readable_cons {op first second modifier : UInt8} {rest : Text}
    (defined : (Opcode.ofCode op).isDefined) (whole : rest.length % 4 = 0) :
    Readable (op :: first :: second :: modifier :: rest) ↔
      ReadableAfter (if (Opcode.ofCode op).hasImmediate then some (Opcode.ofCode op) else none)
        rest := by
  cases wide : (Opcode.ofCode op).hasImmediate with
  | false =>
    have one : ([op, first, second, modifier] : Text).length = 4 * (Opcode.ofCode op).cells := by
      simp [Opcode.cells, wide]
    exact readable_append one defined
  | true =>
    rcases rest with _ | ⟨third, _ | ⟨fourth, _ | ⟨fifth, _ | ⟨sixth, rest⟩⟩⟩⟩
    case cons.cons.cons.cons =>
      have two : ([op, first, second, modifier, third, fourth, fifth, sixth] : Text).length =
          4 * (Opcode.ofCode op).cells := by simp [Opcode.cells, wide]
      refine (readable_append two defined).trans ?_
      simp [ReadableAfter]
    case nil =>
      have ends : ¬ Readable [op, first, second, modifier] := fun readable =>
        absurd (readable.complete 0 .first (by simp) wide) (by simp)
      simp [ReadableAfter, ends]
    all_goals simp at whole

/-- Whole cells are read exactly when they are readable. -/
theorem exists_decodeCells_iff {pending : Option Opcode} {bytes : Text} {code : Code}
    (whole : bytes.length % 4 = 0) :
    (∃ result, decodeCells pending bytes code = .ok result) ↔ ReadableAfter pending bytes := by
  fun_induction decodeCells pending bytes code with
  | case1 op first second modifier rest code opcode defined instr ih =>
    have later : rest.length % 4 = 0 := whole_of_cons whole
    exact (ih later).trans (readable_cons defined later).symm
  | case2 op first second modifier rest code opcode undefined =>
    have refused : ¬ Readable (op :: first :: second :: modifier :: rest) := fun readable =>
      undefined (readable.defined 0 .first (by simp))
    simp [ReadableAfter, refused]
  | case3 opcode first second third fourth rest code ih =>
    refine (ih (whole_of_cons whole)).trans ?_
    simp [ReadableAfter]
  | case4 bytes code opcode short =>
    rcases bytes with _ | ⟨first, _ | ⟨second, _ | ⟨third, _ | ⟨fourth, rest⟩⟩⟩⟩
    case cons.cons.cons.cons => exact (short _ _ _ _ _ rfl).elim
    all_goals simp [ReadableAfter]
  | case5 bytes code short =>
    rcases bytes with _ | ⟨first, _ | ⟨second, _ | ⟨third, _ | ⟨fourth, rest⟩⟩⟩⟩
    case nil => simp [ReadableAfter, readable_nil]
    case cons.cons.cons.cons => exact (short _ _ _ _ _ rfl).elim
    all_goals simp at whole

/-- Bytes are decoded exactly when they are readable. -/
theorem exists_decode_iff (bytes : Text) :
    (∃ code, decode bytes = .ok code) ↔ Readable bytes := by
  by_cases whole : bytes.length % 4 = 0
  · simp only [decode, whole, ne_eq, not_true_eq_false, ↓reduceIte]
    exact exists_decodeCells_iff whole
  · have refused : ¬ Readable bytes := fun readable => whole readable.whole
    simp [decode, whole, refused]

/-- Whole cells are the bytes of what they give. -/
theorem encode_of_decodeCells {pending : Option Opcode} {bytes : Text} {code result : Code}
    (whole : bytes.length % 4 = 0) (done : decodeCells pending bytes code = .ok result) :
    result.encode = code.encode ++ bytes := by
  fun_induction decodeCells pending bytes code with
  | case1 op first second modifier rest code opcode defined instr ih =>
    rw [ih (whole_of_cons whole) done]
    simp [encode, Cell.encode, opcode, instr]
  | case2 => contradiction
  | case3 opcode first second third fourth rest code ih =>
    rw [ih (whole_of_cons whole) done]
    simp [encode, Cell.encode, littleEndian_ofLittleEndian]
  | case4 => contradiction
  | case5 bytes code short =>
    obtain rfl := Except.ok.inj done
    rcases bytes with _ | ⟨first, _ | ⟨second, _ | ⟨third, _ | ⟨fourth, rest⟩⟩⟩⟩
    case nil => exact (List.append_nil _).symm
    case cons.cons.cons.cons => exact (short _ _ _ _ _ rfl).elim
    all_goals simp at whole

/-- Bytes are the bytes of the code they are decoded to. -/
theorem encode_of_decode {bytes : Text} {code : Code} (done : decode bytes = .ok code) :
    code.encode = bytes := by
  unfold decode at done
  split at done
  · contradiction
  · rename_i whole
    simpa [encode] using encode_of_decodeCells (by simpa using whole) done

section Reloading

variable {bytes : Text} (receiver : Code)

/-- What decodes replaces the receiver. -/
theorem reload_of_decode {code : Code} (done : decode bytes = .ok code) :
    reload bytes receiver = (.ok (), code) := by
  simp [reload, done]

/-- What does not decode leaves the receiver alone. -/
theorem reload_of_refused {cause : CodeError} (refused : decode bytes = .error cause) :
    reload bytes receiver = (.error cause, receiver) := by
  simp [reload, refused]

end Reloading

/-- Bytes are accepted exactly when they are readable. Accepted bytes are the bytes of the code
that replaces the receiver, the bytes of well-formed code give that code, and refused bytes leave
the receiver as it is. -/
theorem exact_reload :
    (∀ bytes receiver, (∃ code, reload bytes receiver = (.ok (), code)) ↔ Readable bytes) ∧
    (∀ bytes receiver code, reload bytes receiver = (.ok (), code) → code.encode = bytes) ∧
    (∀ code receiver, code.WellFormed → reload code.encode receiver = (.ok (), code)) ∧
    (∀ bytes receiver cause code, reload bytes receiver = (.error cause, code) →
      code = receiver) := by
  refine ⟨fun bytes receiver => ?_, fun bytes receiver code done => ?_,
    fun code receiver formed => reload_of_decode receiver (decode_encode formed),
    fun bytes receiver cause code refused => ?_⟩
  · rw [← exists_decode_iff]
    cases read : decode bytes with
    | ok code => simp [reload_of_decode receiver read]
    | error cause => simp [reload_of_refused receiver read]
  · cases read : decode bytes with
    | ok found =>
      obtain rfl : found = code := by simpa [reload_of_decode receiver read] using done
      exact encode_of_decode read
    | error cause => simp [reload_of_refused receiver read] at done
  · cases read : decode bytes with
    | ok found => simp [reload_of_decode receiver read] at refused
    | error found =>
      rw [reload_of_refused receiver read, Prod.mk.injEq] at refused
      exact refused.2.symm

/-- The immediate of the first instruction looks like an instruction that misses its immediate. -/
theorem exact_reload_lookalike :
    Readable [23, 1, 0, 0, 23, 1, 0, 0] ∧
      encode #[.instruction ⟨.loadImmediate, .a, .unused, 0⟩, .immediate 279] =
        [23, 1, 0, 0, 23, 1, 0, 0] ∧
      WellFormed #[.instruction ⟨.loadImmediate, .a, .unused, 0⟩, .immediate 279] ∧
      reload [23, 1, 0, 0] #[.immediate 7] =
        (.error (.missingImmediate 0 .loadImmediate), #[.immediate 7]) := by
  have done : reload [23, 1, 0, 0, 23, 1, 0, 0] #[] =
    (.ok (), #[.instruction ⟨.loadImmediate, .a, .unused, 0⟩, .immediate 279]) := by rfl
  have refused : reload [23, 1, 0, 0] #[.immediate 7] =
    (.error (.missingImmediate 0 .loadImmediate), #[.immediate 7]) := by rfl
  obtain ⟨accepted, encoded, -, -⟩ := exact_reload
  exact ⟨(accepted _ #[]).mp ⟨_, done⟩, encoded _ _ _ done, ⟨rfl, trivial⟩, refused⟩

end Code

end TinLang
