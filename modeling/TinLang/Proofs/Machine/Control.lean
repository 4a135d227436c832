import TinLang.Proofs.Machine.Access

/-!
# Jumps, calls and returns

A jump moves only the counter. A call saves where it came from below the floor of an empty operand
stack and starts a frame there; a return from that frame finds what was saved. From the outermost
frame it ends the program.
-/
namespace TinLang

variable {index base target : Nat}

namespace Site

variable {site : Site} {cell : Nat} {machine : Machine} {shown : Shown}

namespace Plain

variable {reg : Register} {imm : BitVec 32}

/-- The counter may be set. -/
theorem recount (plain : site.Plain cell machine shown) (target : Nat) {value : Word}
    (number : value = BitVec.ofNat 64 target) :
    site.Plain target
      { machine with registers := Machine.assign machine.registers Machine.slotPC value } shown :=
  { plain with
    counter := by simp [Machine.get_assign, number]
    registers := by
      intro reg slot slots isShown
      have other := Register.slot_of_isShown slots isShown
      rw [Machine.get_assign, if_neg (Ne.symm other)]
      exact plain.registers reg slot slots isShown }

/-- Where a jump leads; its distance counts from the immediate. -/
theorem jump_place (plain : site.Plain (cell + 2) machine shown)
    (distance : (target : Int) = cell + 1 + imm.toInt) :
    machine.registers.get Machine.slotPC + (imm.signExtend 64 - 1) =
      BitVec.ofNat 64 target := by
  rw [plain.counter, BitVec.signExtend, ← BitVec.ofInt_natCast 64 target, distance]
  apply BitVec.eq_of_toInt_eq
  rw [BitVec.toInt_add, BitVec.toInt_sub, BitVec.toInt_ofInt, BitVec.toInt_ofNat',
    BitVec.toInt_ofInt]
  have one : (1 : Word).toInt = 1 := rfl
  rw [one]
  simp only [Int.bmod_add_bmod, Int.add_bmod_bmod, Int.bmod_sub_bmod]
  congr 1
  omega

/-- A jump leads to its target. -/
theorem comes_jump (plain : site.Plain cell machine shown)
    (here : site.code[cell]? = some (.instruction ⟨.jump, .unused, .unused, 0⟩))
    (next : site.code[cell + 1]? = some (.immediate imm))
    (distance : (target : Int) = cell + 1 + imm.toInt) :
    machine.Comes site.program site.settings fun after => site.Plain target after shown := by
  refine plain.comes_of_fetch (plain.fetch_wide here next rfl rfl rfl) fun moved after => ?_
  exact .inl ⟨_, rfl, after.recount target (after.jump_place distance)⟩

/-- A conditional jump is taken where the register is zero. -/
theorem run_jumpZero (imm : BitVec 32) (machine : Machine) :
    (Machine.execute site.program site.settings
      ⟨⟨.jumpZero, .a, .unused, 0⟩, imm, Machine.slotA, 0⟩).run.run machine =
      if machine.registers.get Machine.slotA = 0 then
        (Machine.jump (imm.signExtend 64 - 1)).run.run machine
      else (.ok (), machine) := by
  simp only [Machine.execute, Machine.run_bind, Machine.run_get]
  split <;> rfl

/-- A conditional jump leads on when register A is not zero, and to its target when it is. -/
theorem takes_jumpZero (plain : site.Plain cell machine shown)
    (here : site.code[cell]? = some (.instruction ⟨.jumpZero, .a, .unused, 0⟩))
    (next : site.code[cell + 1]? = some (.immediate imm))
    (distance : (target : Int) = cell + 1 + imm.toInt) :
    machine.Takes site.program site.settings fun after =>
      site.Plain (if shown.a = 0 then target else cell + 2) after shown := by
  refine plain.takes_of_fetch (plain.fetch_wide here next rfl rfl rfl) fun moved after => .inl ?_
  have value : moved.registers.get Machine.slotA = shown.a := after.registers .a _ rfl rfl
  have run := @run_jumpZero site imm moved
  rw [value] at run
  by_cases zero : shown.a = 0
  · rw [if_pos zero] at run ⊢
    exact ⟨_, run, after.recount target (after.jump_place distance)⟩
  · rw [if_neg zero] at run ⊢
    exact ⟨_, run, after⟩

/-- Small numbers survive being cut to four bytes. -/
theorem narrow_four {number : Nat} (small : number < 2 ^ 31) :
    Memory.narrow .four (BitVec.ofNat 64 number).toNat = BitVec.ofNat 64 number := by
  rw [BitVec.toNat_ofNat, Nat.mod_eq_of_lt (by omega), Memory.narrow, AccessSize.bytes,
    BitVec.signExtend_eq_setWidth_of_msb_false]
  · apply BitVec.eq_of_toNat_eq
    simp only [BitVec.toNat_setWidth, BitVec.toNat_ofNat]
    omega
  · rw [BitVec.msb_eq_false_iff_two_mul_lt, BitVec.toNat_ofNat]
    omega

/-- Addresses are subtracted as numbers. -/
theorem sub_toNat {pointer distance : Nat} (bound : pointer < 2 ^ 31) (less : distance ≤ pointer) :
    BitVec.ofNat 64 pointer - BitVec.ofNat 64 distance = BitVec.ofNat 64 (pointer - distance) := by
  apply BitVec.eq_of_toNat_eq
  simp only [BitVec.toNat_sub, BitVec.toNat_ofNat]
  omega

end Plain

end Site

/-- Where a call came from stands in the three words of a frame's header. -/
structure Bytes.Saves (bytes : Bytes) (place base index cell : Nat) : Prop where
  base : bytes.word place .eight = BitVec.ofNat 64 base
  index : bytes.word (place + 8) .four = BitVec.ofNat 64 index
  cell : bytes.word (place + 12) .four = BitVec.ofNat 64 cell

/-- A saved frame depends only on its 16 bytes. -/
theorem Bytes.Saves.congr {bytes others : Bytes} {place cell : Nat}
    (saves : bytes.Saves place base index cell)
    (same : ∀ byte, place ≤ byte → byte < place + 16 → bytes byte = others byte) :
    others.Saves place base index cell where
  base := (word_congr fun byte low high => (same byte low
    (by simp only [AccessSize.bytes] at high; omega)).symm).trans saves.base
  index := (word_congr fun byte low high => (same byte (by omega)
    (by simp only [AccessSize.bytes] at high; omega)).symm).trans saves.index
  cell := (word_congr fun byte low high => (same byte (by omega)
    (by simp only [AccessSize.bytes] at high; omega)).symm).trans saves.cell

namespace Machine

variable {machine : Machine} {pointer : Nat}

/-- The header of a frame is written below the stack pointer. -/
theorem run_callPiece {cell : Nat} (callee : Piece) (target : Nat)
    (stack : machine.registers.get slotSP = BitVec.ofNat 64 pointer)
    (frame : machine.registers.get slotBP = BitVec.ofNat 64 base)
    (counter : machine.registers.get slotPC = BitVec.ofNat 64 cell)
    (piece : machine.piece = index) (low : Memory.stackBase + 16 ≤ pointer)
    (high : pointer ≤ machine.memory.stackTop) (bound : pointer < 2 ^ 31)
    (smallIndex : index < 2 ^ 31) (smallCell : cell < 2 ^ 31) :
    ∃ memory, (callPiece target callee).run.run machine = (.ok (), { machine with
        memory, piece := target, registers :=
          assign (assign (assign machine.registers slotSP (BitVec.ofNat 64 (pointer - 16))) slotBP
            (BitVec.ofNat 64 (pointer - 16))) slotPC 0 }) ∧
      memory.stackTop = machine.memory.stackTop ∧ memory.dataSize = machine.memory.dataSize ∧
      (∀ place, pointer ≤ place → memory.byteAt place = machine.memory.byteAt place) ∧
      Bytes.Saves memory.byteAt (pointer - 16) base index cell := by
  have number : (machine.registers.get slotSP).toNat = pointer := by
    rw [stack, BitVec.toNat_ofNat, Nat.mod_eq_of_lt (by omega)]
  have less : ∀ distance : Nat, distance ≤ pointer →
      (machine.registers.get slotSP - BitVec.ofNat 64 distance).toNat = pointer - distance := by
    intro distance fits
    rw [stack, Site.Plain.sub_toNat bound fits, BitVec.toNat_ofNat, Nat.mod_eq_of_lt (by omega)]
  have four := less 4 (by omega)
  have eight := less 8 (by omega)
  have sixteen := less 16 (by omega)
  have within : ∀ memory : Memory, memory.stackTop = machine.memory.stackTop →
      ∀ distance count : Nat, distance ≤ 16 → count ≤ distance →
        memory.Covers (pointer - distance) count := by
    intro memory same distance count near short
    left
    omega
  obtain ⟨first, stored, bytes, top, data⟩ := Memory.store?_of_covers
    (machine.registers.get slotPC)
    (within machine.memory rfl 4 AccessSize.four.bytes (by decide) (by decide))
  obtain ⟨second, stored', bytes', top', data'⟩ := Memory.store?_of_covers
    (BitVec.ofNat 64 machine.piece)
    (within first top 8 AccessSize.four.bytes (by decide) (by decide))
  obtain ⟨third, stored'', bytes'', top'', data''⟩ := Memory.store?_of_covers
    (machine.registers.get slotBP)
    (within second (top'.trans top) 16 AccessSize.eight.bytes (by decide) (by decide))
  rw [← four] at stored
  rw [← eight] at stored'
  rw [← sixteen] at stored''
  have room : ¬ (machine.registers.get slotSP).toNat < Memory.stackBase + frameHeader := by
    rw [number, frameHeader]
    omega
  refine ⟨third, ?_, by rw [top'', top', top], by rw [data'', data', data], ?_, ?_⟩
  · have below : BitVec.ofNat 64 (pointer - 16) = machine.registers.get slotSP - 16 := by
      rw [stack]
      exact (Site.Plain.sub_toNat bound (by omega)).symm
    rw [below]
    simp only [callPiece, run_bind, run_get, run_getThe, room, ↓reduceIte]
    have step : (store (machine.registers.get slotSP - 4) .four
        (machine.registers.get slotPC)).run.run machine =
          (.ok (), { machine with memory := first }) :=
      run_store stored
    rw [step]
    dsimp only
    have step' : (store (machine.registers.get slotSP - 8) .four
        (BitVec.ofNat 64 machine.piece)).run.run { machine with memory := first } =
        (.ok (), { machine with memory := second }) := run_store stored'
    rw [step']
    dsimp only
    have step'' : (store (machine.registers.get slotSP - 16) .eight
        (machine.registers.get slotBP)).run.run { machine with memory := second } =
        (.ok (), { machine with memory := third }) := run_store stored''
    rw [step'']
    rfl
  · intro place above
    rw [bytes'', bytes', bytes]
    rw [Memory.store_of_outside (.inr (by simp only [AccessSize.bytes]; omega)),
      Memory.store_of_outside (.inr (by simp only [AccessSize.bytes]; omega)),
      Memory.store_of_outside (.inr (by simp only [AccessSize.bytes]; omega))]
  · have index' : pointer - 16 + 8 = pointer - 8 := by omega
    have cell' : pointer - 16 + 12 = pointer - 4 := by omega
    rw [bytes'', bytes', bytes]
    refine ⟨?_, ?_, ?_⟩
    · rw [Memory.word_store, Memory.narrow_eight, frame]
    · rw [index', Memory.word_store_of_apart (.inr (by simp only [AccessSize.bytes]; omega)),
        Memory.word_store, piece, Site.Plain.narrow_four smallIndex]
    · rw [cell', Memory.word_store_of_apart (.inr (by simp only [AccessSize.bytes]; omega)),
        Memory.word_store_of_apart (.inr (by simp only [AccessSize.bytes]; omega)),
        Memory.word_store, counter, Site.Plain.narrow_four smallCell]

end Machine

namespace Site.Plain

variable {site : Site} {cell : Nat} {machine : Machine} {shown : Shown} {imm : BitVec 32}

/-- The stack pointer, the base pointer and the counter may be set at once. -/
theorem get_reframe {registers later : Vector Word 12} {after : Shown}
    (shows : ∀ reg slot, reg.slot? = some slot → reg.isShown →
      registers.get slot = shown.get reg)
    (free : ∀ reg, reg.isFree → after.get reg = shown.get reg)
    (same : ∀ slot, Machine.slotSP ≠ slot → Machine.slotBP ≠ slot → Machine.slotPC ≠ slot →
      later.get slot = registers.get slot)
    (stack : later.get Machine.slotSP = BitVec.ofNat 64 after.pointer)
    (frame : later.get Machine.slotBP = BitVec.ofNat 64 after.base)
    {reg : Register} {slot : Fin 12} (slots : reg.slot? = some slot)
    (isShown : reg.isShown) : later.get slot = after.get reg := by
  have cases : reg.isFree = true ∨ reg = .stackPointer ∨ reg = .basePointer := by
    simpa [Register.isShown] using isShown
  rcases cases with plain | rfl | rfl
  · have counts : Machine.slotPC ≠ slot := (Register.slot_of_isShown slots isShown).symm
    have notBase : Machine.slotBP ≠ slot := by
      rintro rfl
      have same := Register.slot_injective slots (show Register.basePointer.slot? = _ from rfl)
      subst same
      exact absurd plain (by decide)
    rw [same slot (not_slotSP_of_isFree slots plain).symm notBase counts, free reg plain]
    exact shows reg slot slots isShown
  · obtain rfl := Option.some.inj slots
    exact stack
  · obtain rfl := Option.some.inj slots
    exact frame

/-- A call calls the piece that it numbers. -/
theorem run_call {callee : Piece} (target : imm.toInt = index + 1)
    (found : site.program.pieces[index]? = some callee) (machine : Machine) :
    (Machine.execute site.program site.settings
      ⟨⟨.call, .unused, .unused, 0⟩, imm, 0, 0⟩).run.run machine =
      (Machine.callPiece index callee).run.run machine := by
  have natural : ¬ (index : Int) + 1 < 0 := by omega
  have positive : ¬ (index : Int) + 1 = 0 := by omega
  have place : ((index : Int) + 1 - 1).toNat = index := by omega
  simp only [Machine.execute, Machine.call, target, natural, positive, ↓reduceIte, place, found]

/-- A call starts a frame below an empty operand stack. -/
theorem takes_call (plain : site.Plain cell machine shown) {callee : Piece}
    (here : site.code[cell]? = some (.instruction ⟨.call, .unused, .unused, 0⟩))
    (next : site.code[cell + 1]? = some (.immediate imm))
    (target : imm.toInt = index + 1)
    (found : site.program.pieces[index]? = some callee)
    (small : callee.code.size < 2 ^ 31) (empty : shown.stack = []) :
    machine.Takes site.program site.settings fun after => ∃ bytes : Bytes,
      16 ≤ shown.floor ∧
      (site.elsewhere index callee.code (by rw [found]; rfl) small).Plain 0 after
        { shown with floor := shown.floor - 16, base := shown.floor - 16, bytes } ∧
      (∀ place, shown.floor ≤ place → bytes place = shown.bytes place) ∧
      bytes.Saves (shown.floor - 16) shown.base site.index (cell + 2) := by
  refine plain.takes_of_fetch (plain.fetch_wide here next rfl rfl rfl) fun moved after => ?_
  obtain ⟨pointer, below, above, floor, top⟩ := after.pointer_toNat
  rw [empty, List.length_nil] at floor
  have number : (moved.registers.get Machine.slotSP).toNat = shown.pointer := by
    rw [pointer, BitVec.toNat_ofNat, Nat.mod_eq_of_lt (by omega)]
  unfold Executes
  rw [run_call target found]
  by_cases full : shown.pointer < Memory.stackBase + Machine.frameHeader
  · refine .inr ⟨.callOverflow callee.name, moved, ?_, rfl⟩
    simp only [Machine.callPiece, Machine.run_bind, Machine.run_get, number, full, ↓reduceIte,
      Machine.run_throw]
  · have small' := site.small
    have inside := (Array.getElem?_eq_some_iff.mp next).1
    have piece : site.index < 2 ^ 31 := by
      obtain ⟨piece, known, -⟩ := Option.map_eq_some_iff.mp site.found
      have few := site.few
      have bound := (Array.getElem?_eq_some_iff.mp known).1
      omega
    unfold Machine.frameHeader at full
    obtain ⟨memory, run, sameTop, sameData, same, saves⟩ := Machine.run_callPiece callee index
      pointer (after.registers .basePointer _ rfl rfl) after.counter after.piece (by omega)
      (by rw [after.top]; exact below) (by omega) piece (by omega)
    have place : shown.pointer - 16 = shown.floor - 16 := by omega
    rw [place] at run saves
    refine .inl ⟨_, run, memory.byteAt, by omega, ?_, ?_, saves⟩
    · exact {
        running := after.running
        piece := rfl
        counter := by simp [Machine.get_assign]
        registers := by
          intro reg slot slots isShown
          apply get_reframe after.registers _ _ _ _ slots isShown
          · intro free isFree
            cases free <;> first | rfl | exact absurd isFree (by decide)
          · intro other notStack notBase notCounter
            simp only [Machine.get_assign, notStack, notBase, notCounter, ↓reduceIte]
          · simp only [Machine.get_assign, Shown.pointer, empty, List.length_nil]
            rfl
          · simp only [Machine.get_assign]
            rfl
        top := sameTop.trans after.top
        dataSize := sameData.trans after.dataSize
        low := by
          simp only [empty, List.length_nil]
          omega
        high := Nat.le_refl _
        highest := by
          have := after.high
          have := after.highest
          simp only [elsewhere]
          omega
        words := by
          simp only [empty]
          trivial
        bytes := fun _ _ => rfl
        output := after.output }
    · intro byte high
      rw [same byte (by omega)]
      exact after.bytes byte high

/-- The code of the current piece is that of a caller. -/
theorem run_giveBack {prog : Program} {machine : Machine} {place cell : Nat}
    (stack : machine.registers.get Machine.slotSP = BitVec.ofNat 64 place)
    (frame : machine.registers.get Machine.slotBP = BitVec.ofNat 64 place)
    (low : Memory.stackBase ≤ place) (high : place + 16 ≤ machine.memory.stackTop)
    (bound : machine.memory.stackTop < 2 ^ 31) (known : index < prog.pieces.size)
    (few : prog.pieces.size < 2 ^ 31)
    (saves : Bytes.Saves machine.memory.byteAt place base index cell) :
    (Machine.giveBack prog).run.run machine = (.ok (), { machine with
      piece := index, registers :=
        Machine.assign (Machine.assign (Machine.assign machine.registers Machine.slotBP
          (BitVec.ofNat 64 base)) Machine.slotSP (BitVec.ofNat 64 (place + 16))) Machine.slotPC
            (BitVec.ofNat 64 cell) }) := by
  have equal : machine.registers.get Machine.slotSP = machine.registers.get Machine.slotBP := by
    rw [stack, frame]
  have number : (machine.registers.get Machine.slotSP).toNat = place := by
    rw [stack, BitVec.toNat_ofNat, Nat.mod_eq_of_lt (by omega)]
  have above : ∀ distance : Nat, distance ≤ 16 →
      (machine.registers.get Machine.slotSP + BitVec.ofNat 64 distance).toNat =
        place + distance := by
    intro distance near
    rw [stack, ← BitVec.ofNat_add, BitVec.toNat_ofNat, Nat.mod_eq_of_lt (by omega)]
  have inner : ¬ place = machine.memory.stackTop := by omega
  have sixteen := above 16 (by decide)
  have room : ¬ machine.memory.stackTop <
      (machine.registers.get Machine.slotSP + 16).toNat := by
    rw [show (16 : Word) = BitVec.ofNat 64 16 from rfl, sixteen]
    omega
  have within : ∀ distance count : Nat, distance + count ≤ 16 →
      machine.memory.Covers (place + distance) count := by
    intro distance count near
    left
    omega
  have first := Memory.load?_of_covers (within 0 AccessSize.eight.bytes (by decide))
  have second := Memory.load?_of_covers (within 8 AccessSize.four.bytes (by decide))
  have third := Memory.load?_of_covers (within 12 AccessSize.four.bytes (by decide))
  rw [Nat.add_zero, saves.base, ← number] at first
  rw [saves.index, ← above 8 (by decide)] at second
  rw [saves.cell, ← above 12 (by decide)] at third
  have piece : (BitVec.ofNat 64 index).toInt = index := by
    rw [BitVec.toInt_ofNat']
    exact Int.bmod_eq_of_le (by omega) (by omega)
  have inside : ¬ ((index : Int) < 0 ∨ (prog.pieces.size : Int) ≤ index) := by omega
  have next : BitVec.ofNat 64 (place + 16) = machine.registers.get Machine.slotSP + 16 := by
    rw [stack, BitVec.ofNat_add]
    rfl
  rw [next]
  have load : (Machine.load (machine.registers.get Machine.slotSP) .eight).run.run machine =
      (.ok (BitVec.ofNat 64 base), machine) := Machine.run_load first
  have load' : (Machine.load (machine.registers.get Machine.slotSP + 8) .four).run.run machine =
      (.ok (BitVec.ofNat 64 index), machine) := Machine.run_load second
  have load'' : (Machine.load (machine.registers.get Machine.slotSP + 12) .four).run.run machine =
      (.ok (BitVec.ofNat 64 cell), machine) := Machine.run_load third
  simp only [Machine.giveBack, Machine.run_bind, Machine.run_get, Machine.run_getThe, ← equal,
    ne_eq, not_true_eq_false, ↓reduceIte, number, inner, room, load, load', load'', piece, inside,
    Machine.run_put, Machine.run_modify, Int.toNat_natCast]

/-- A return leads to where the call came from. -/
theorem comes_giveBack {back : Nat} {code : Code}
    {found : (site.program.pieces[index]?).map Piece.code = some code}
    {small : code.size < 2 ^ 31}
    (plain : (site.elsewhere index code found small).Plain cell machine shown)
    (here : code[cell]? = some (.instruction ⟨.giveBack, .unused, .unused, 0⟩))
    (empty : shown.stack = []) (level : shown.floor = shown.base)
    (saves : shown.bytes.Saves shown.base base site.index back) (outer : shown.base + 16 ≤ base)
    (highest : base ≤ site.top) :
    machine.Comes site.program site.settings fun after =>
      site.Plain back after { shown with floor := shown.base + 16, base } := by
  refine plain.comes_of_fetch (plain.fetch_narrow here rfl rfl rfl) fun moved after => .inl ?_
  obtain ⟨pointer, below, above, floor, top⟩ := after.pointer_toNat
  rw [empty, List.length_nil] at floor
  have place : shown.pointer = shown.base := by omega
  have known : site.index < site.program.pieces.size := by
    obtain ⟨piece, known, -⟩ := Option.map_eq_some_iff.mp site.found
    exact (Array.getElem?_eq_some_iff.mp known).1
  have memory : Bytes.Saves moved.memory.byteAt shown.base base site.index back :=
    saves.congr fun byte low _ => (after.bytes byte (by omega)).symm
  have run := run_giveBack (pointer.trans (by rw [place]))
    (after.registers .basePointer _ rfl rfl) (by omega)
    (by rw [after.top]; exact Nat.le_trans outer highest) (by rw [after.top]; exact top) known
    site.few memory
  refine ⟨_, run, ?_⟩
  exact {
    running := after.running
    piece := rfl
    counter := by simp [Machine.get_assign]
    registers := by
      intro reg slot slots isShown
      apply get_reframe after.registers _ _ _ _ slots isShown
      · intro free isFree
        cases free <;> first | rfl | exact absurd isFree (by decide)
      · intro other notStack notBase notCounter
        simp only [Machine.get_assign, notStack, notBase, notCounter, ↓reduceIte]
      · simp only [Machine.get_assign, Shown.pointer, empty, List.length_nil]
        rfl
      · simp only [Machine.get_assign]
        rfl
    top := after.top
    dataSize := after.dataSize
    low := by
      simp only [empty, List.length_nil]
      omega
    high := outer
    highest := highest
    words := by
      simp only [empty]
      trivial
    bytes := fun byte high => after.bytes byte (by simp only at high; omega)
    output := after.output }

/-- How a program ends: its stack is empty, and register A holds its result. -/
structure Ended (site : Site) (output : Array UInt8) (result : Word) (machine : Machine) :
    Prop where
  running : machine.running = false
  stack : machine.registers.get Machine.slotSP = BitVec.ofNat 64 site.top
  frame : machine.registers.get Machine.slotBP = BitVec.ofNat 64 site.top
  top : machine.memory.stackTop = site.top
  result : machine.registers.get Machine.slotA = result
  output : machine.output = output

/-- A return from the outermost frame ends the program. -/
theorem comes_end (plain : site.Plain cell machine shown)
    (here : site.code[cell]? = some (.instruction ⟨.giveBack, .unused, .unused, 0⟩))
    (empty : shown.stack = []) (level : shown.floor = shown.base)
    (outermost : shown.base = site.top) :
    machine.Comes site.program site.settings (Ended site shown.output shown.a) := by
  refine plain.comes_of_fetch (plain.fetch_narrow here rfl rfl rfl) fun moved after => .inl ?_
  obtain ⟨pointer, below, above, floor, top⟩ := after.pointer_toNat
  rw [empty, List.length_nil] at floor
  have place : shown.pointer = site.top := by omega
  have stack : moved.registers.get Machine.slotSP = BitVec.ofNat 64 site.top := by
    rw [pointer, place]
  have frame : moved.registers.get Machine.slotBP = BitVec.ofNat 64 site.top :=
    (after.registers .basePointer _ rfl rfl).trans (by rw [Shown.get, outermost])
  have number : (BitVec.ofNat 64 site.top).toNat = site.top := by
    rw [BitVec.toNat_ofNat, Nat.mod_eq_of_lt (by omega)]
  refine ⟨{ moved with running := false }, ?_, rfl, stack, frame, after.top,
    after.registers .a _ rfl rfl, after.output⟩
  simp only [Machine.execute, Machine.giveBack, Machine.run_bind, Machine.run_get,
    Machine.run_getThe, stack, frame, ne_eq, not_true_eq_false, ↓reduceIte, number, after.top,
    Machine.run_modify]

end Site.Plain

end TinLang
