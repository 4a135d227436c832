import TinLang.Code.Cell

/-!
# Well-formed code

Code is well formed when every opcode is defined and exactly the opcodes that have an immediate
are followed by one. Well-formed code is what its bytes decode to (`Code.decode_encode`), and it
stays well formed when instructions are added at its end, when its last instruction is taken away,
and when an immediate is replaced.
-/
namespace TinLang

variable {code patched : Code} {cells : List Cell} {value : BitVec 32} {pending : Bool}

/-- The bytes of a word, read back, are the word. -/
theorem ofLittleEndian_littleEndian (value : BitVec 32) :
    ofLittleEndian (value.toNat % 256).toUInt8 (value.toNat / 256 % 256).toUInt8
      (value.toNat / 65536 % 256).toUInt8 (value.toNat / 16777216).toUInt8 = value := by
  have bound := value.isLt
  apply BitVec.eq_of_toNat_eq
  simp only [ofLittleEndian, Nat.toUInt8_eq, UInt8.toNat_ofNat', BitVec.toNat_ofNat]
  omega

/-- Every cell is encoded in four bytes. -/
@[simp] theorem Cell.length_encode (cell : Cell) : cell.encode.length = 4 := by
  cases cell <;> rfl

namespace Code

/-- Cells are well formed after an instruction that still needs its immediate, or after none. -/
def Formed : (pending : Bool) → List Cell → Prop
  | false, [] => True
  | false, .instruction decoded :: cells =>
    decoded.op.isDefined ∧ Formed decoded.op.hasImmediate cells
  | true, .immediate _ :: cells => Formed false cells
  | _, _ => False

/-- Code is well formed. -/
def WellFormed (code : Code) : Prop := Formed false code.toList

/-- After well-formed cells, what follows is well formed or not on its own. -/
theorem formed_append (later : List Cell)
    (formed : Formed pending cells) : Formed pending (cells ++ later) ↔ Formed false later := by
  induction cells generalizing pending with
  | nil =>
    cases pending with
    | false => rfl
    | true => exact formed.elim
  | cons cell cells ih =>
    cases cell with
    | instruction decoded =>
      cases pending with
      | false =>
        simp only [List.cons_append, Formed, formed.1, true_and]
        exact ih formed.2
      | true => exact formed.elim
    | immediate value =>
      cases pending with
      | false => exact formed.elim
      | true => exact ih formed

/-- Well-formed cells without a last instruction are well formed. -/
theorem formed_of_append_instruction {last : Instruction}
    (formed : Formed pending (cells ++ [.instruction last])) : Formed pending cells := by
  induction cells generalizing pending with
  | nil =>
    cases pending with
    | false => trivial
    | true => exact formed.elim
  | cons cell cells ih =>
    cases cell with
    | instruction decoded =>
      cases pending with
      | false => exact ⟨formed.1, ih formed.2⟩
      | true => exact formed.elim
    | immediate value =>
      cases pending with
      | false => exact formed.elim
      | true => exact ih formed

/-- Another immediate in the place of one keeps cells well formed. -/
theorem formed_set {index : Nat} {old : BitVec 32}
    (new : BitVec 32) (formed : Formed pending cells)
    (found : cells[index]? = some (.immediate old)) :
    Formed pending (cells.set index (.immediate new)) := by
  induction cells generalizing pending index with
  | nil => simp at found
  | cons cell cells ih =>
    cases index with
    | zero =>
      obtain rfl : cell = .immediate old := by simpa using found
      cases pending with
      | false => exact formed.elim
      | true => exact formed
    | succ index =>
      have later : cells[index]? = some (.immediate old) := by simpa using found
      cases cell with
      | instruction decoded =>
        cases pending with
        | false => exact ⟨formed.1, ih formed.2 later⟩
        | true => exact formed.elim
      | immediate value =>
        cases pending with
        | false => exact formed.elim
        | true => exact ih formed later

/-- The cells behind an instruction are well formed, and start with its immediate if it has
one. -/
theorem formed_drop {index : Nat} {instr : Instruction}
    (formed : Formed pending cells) (found : cells[index]? = some (.instruction instr)) :
    Formed instr.op.hasImmediate (cells.drop (index + 1)) := by
  induction cells generalizing pending index with
  | nil => simp at found
  | cons cell cells ih =>
    cases index with
    | succ index =>
      have later : cells[index]? = some (.instruction instr) := by simpa using found
      cases cell with
      | instruction decoded =>
        cases pending with
        | false => exact ih formed.2 later
        | true => exact formed.elim
      | immediate value =>
        cases pending with
        | false => exact formed.elim
        | true => exact ih formed later
    | zero =>
      obtain rfl : cell = .instruction instr := by simpa using found
      cases pending with
      | true => exact formed.elim
      | false => exact formed.2

/-- In well-formed cells an immediate follows every instruction that has one. -/
theorem formed_next {index : Nat} {instr : Instruction}
    (formed : Formed pending cells) (found : cells[index]? = some (.instruction instr))
    (wide : instr.op.hasImmediate) :
    ∃ value, cells[index + 1]? = some (.immediate value) := by
  have waiting := formed_drop formed found
  rw [wide] at waiting
  rw [← Nat.add_zero (index + 1), ← List.getElem?_drop]
  cases behind : cells.drop (index + 1) with
  | nil => exact (behind ▸ waiting).elim
  | cons next others =>
    rw [behind] at waiting
    cases next with
    | instruction decoded => exact waiting.elim
    | immediate value => exact ⟨value, rfl⟩

/-- The empty code is well formed. -/
@[simp] theorem wellFormed_empty : WellFormed #[] := trivial

/-- Well-formed code without its last instruction is well formed. -/
theorem WellFormed.take {last : Instruction} (formed : code.WellFormed)
    (ends : code.back? = some (.instruction last)) : WellFormed (code.take (code.size - 1)) := by
  obtain ⟨cells⟩ := code
  have split : cells = cells.dropLast ++ [.instruction last] := by
    have found : cells.getLast? = some (.instruction last) := by simpa using ends
    obtain ⟨front, rfl⟩ := List.getLast?_eq_some_iff.mp found
    simp
  rw [WellFormed, split] at formed
  have shorter := formed_of_append_instruction formed
  simpa [WellFormed, List.dropLast_eq_take] using shorter

/-- Patched code is well formed when the code is. -/
theorem WellFormed.patch {index : Int}
    (formed : code.WellFormed) (done : code.patch? index value = some patched) :
    patched.WellFormed := by
  unfold patch? immediate? cell? at done
  by_cases negative : index < 0
  · simp [negative] at done
  · simp only [negative, ↓reduceIte] at done
    cases found : code[index.toNat]? with
    | none => simp [found] at done
    | some cell =>
      cases cell with
      | instruction decoded => simp [found] at done
      | immediate old =>
        simp only [found, Option.some.injEq] at done
        rw [← done, WellFormed, Array.toList_setIfInBounds]
        exact formed_set value formed (by simpa using found)

/-- An immediate can be patched. -/
theorem patch?_immediate {cell : Nat} {old : BitVec 32}
    (found : code[cell]? = some (.immediate old)) (value : BitVec 32) :
    code.patch? cell value = some (code.setIfInBounds cell (.immediate value)) := by
  have natural : ¬ (cell : Int) < 0 := by omega
  simp [patch?, immediate?, cell?, natural, found]

/-- Patched code holds the new immediate, and is otherwise unchanged. -/
theorem getElem?_of_patch? {cell : Nat}
    (done : code.patch? cell value = some patched) (index : Nat) :
    patched[index]? = if index = cell then some (.immediate value) else code[index]? := by
  have natural : ¬ (cell : Int) < 0 := by omega
  simp only [patch?, immediate?, cell?, natural, ↓reduceIte, Int.toNat_natCast] at done
  cases found : code[cell]? with
  | none => simp [found] at done
  | some old =>
    have inside := (Array.getElem?_eq_some_iff.mp found).1
    cases old with
    | instruction decoded => simp [found] at done
    | immediate old =>
      simp only [found, Option.some.injEq] at done
      rw [← done, Array.getElem?_setIfInBounds]
      by_cases same : index = cell
      · simp [same, inside]
      · have other : ¬ cell = index := fun equal => same equal.symm
        simp [same, other]

/-- Patched code has as many cells. -/
theorem size_of_patch? {cell : Int}
    (done : code.patch? cell value = some patched) : patched.size = code.size := by
  unfold patch? at done
  split at done
  · rw [← Option.some.inj done, Array.size_setIfInBounds]
  · contradiction

/-- Cells that are well formed after an opcode, or after none, are read back after the code read
before them. -/
theorem decodeCells_encode (pending : Option Opcode) (cells : List Cell) (code : Code)
    (formed : Formed pending.isSome cells) :
    decodeCells pending (cells.flatMap Cell.encode) code = .ok (code ++ cells) := by
  induction cells generalizing pending code with
  | nil =>
    cases pending with
    | none => simp [decodeCells]
    | some op => exact formed.elim
  | cons cell cells ih =>
    cases cell with
    | instruction decoded =>
      cases pending with
      | none =>
        have later := ih (if decoded.op.hasImmediate then some decoded.op else none)
          (code.push (.instruction decoded)) (by
            have rest := formed.2
            cases wide : decoded.op.hasImmediate <;> simp_all)
        simp only [List.flatMap_cons, Cell.encode, List.cons_append, List.nil_append, decodeCells,
          Opcode.ofCode_code, Register.ofCode_code, formed.1, ↓reduceIte, later]
        simp
      | some op => exact formed.elim
    | immediate value =>
      cases pending with
      | none => exact formed.elim
      | some op =>
        have later := ih none (code.push (.immediate value)) formed
        simp only [List.flatMap_cons, Cell.encode, littleEndian, List.cons_append, List.nil_append,
          decodeCells, ofLittleEndian_littleEndian, later]
        simp

/-- Encoded code has four bytes for each cell. -/
theorem length_encode (code : Code) : code.encode.length = 4 * code.size := by
  obtain ⟨cells⟩ := code
  induction cells with
  | nil => rfl
  | cons cell cells ih =>
    have rest : (cells.flatMap Cell.encode).length = 4 * cells.length := by
      simpa [encode] using ih
    simp only [encode, List.flatMap_cons, List.length_append, Cell.length_encode, rest,
      List.size_toArray, List.length_cons]
    omega

/-- Well-formed code is read back from its bytes. -/
theorem decode_encode (formed : code.WellFormed) : decode code.encode = .ok code := by
  have whole : code.encode.length % 4 = 0 := by
    rw [length_encode]
    omega
  have read := decodeCells_encode none code.toList #[] formed
  simp only [decode, whole, ne_eq, not_true_eq_false, ↓reduceIte]
  simpa [encode] using read

/-- What bytes decode to is well formed after the opcode that waited for its immediate. -/
theorem formed_of_decodeCells {pending : Option Opcode} {bytes : Text} {result : Code}
    (done : decodeCells pending bytes code = .ok result) :
    ∃ cells, result.toList = code.toList ++ cells ∧ Formed pending.isSome cells := by
  fun_induction decodeCells pending bytes code with
  | case1 op first second modifier rest code opcode defined instr ih =>
    obtain ⟨cells, whole, formed⟩ := ih done
    refine ⟨.instruction instr :: cells, ?_, defined, ?_⟩
    · rw [whole, Array.toList_push, List.append_assoc, List.singleton_append]
    · cases wide : opcode.hasImmediate <;> simpa [wide, instr] using formed
  | case2 => contradiction
  | case3 opcode first second third fourth rest code ih =>
    obtain ⟨cells, whole, formed⟩ := ih done
    refine ⟨.immediate (ofLittleEndian first second third fourth) :: cells, ?_, formed⟩
    rw [whole, Array.toList_push, List.append_assoc, List.singleton_append]
  | case4 => contradiction
  | case5 =>
    obtain rfl := Except.ok.inj done
    exact ⟨[], (List.append_nil _).symm, trivial⟩

/-- What bytes decode to is well formed. -/
theorem wellFormed_of_decode {bytes : Text} (done : decode bytes = .ok code) :
    code.WellFormed := by
  unfold decode at done
  split at done
  · contradiction
  · obtain ⟨cells, whole, formed⟩ := formed_of_decodeCells done
    rw [WellFormed, whole]
    exact formed

end Code

end TinLang
