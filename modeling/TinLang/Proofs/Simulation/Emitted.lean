import TinLang.Proofs.Generate.Emission
import TinLang.Proofs.Machine.Natives

/-!
# Running emitted code

The code of a piece under construction runs on the final code that completes it. Pushes at its end
that a pop may still cancel count as not executed yet: `Shows` reads their words off the registers,
so a push takes no step, a pop that cancels it takes none either, and every other instruction first
executes the pushes before it.
-/
namespace TinLang

/-- Pushes of registers stand one after another from a cell on, that of the first register last. -/
def PushesAt (code : Code) (cell : Nat) : List Register → Prop
  | [] => True
  | reg :: registers =>
    code[cell + registers.length]? = some (.instruction ⟨.push, reg, .unused, 0⟩) ∧
      reg.isFree ∧ PushesAt code cell registers

/-- Pushes depend only on their own cells. -/
theorem PushesAt.congr {code other : Code} {cell : Nat} {registers : List Register}
    (pushes : PushesAt code cell registers)
    (same : ∀ index instr, cell ≤ index → index < cell + registers.length →
      code[index]? = some (.instruction instr) →
      other[index]? = some (.instruction instr)) :
    PushesAt other cell registers := by
  induction registers with
  | nil => trivial
  | cons reg registers ih =>
    rw [List.length_cons] at same
    refine ⟨same _ _ (by omega) (by omega) pushes.1, pushes.2.1, ih pushes.2.2 ?_⟩
    exact fun index instr low high => same index instr low (by omega)

/-- Only free registers are pushed. -/
theorem PushesAt.free {code : Code} {cell : Nat} {registers : List Register}
    (pushes : PushesAt code cell registers) : ∀ reg ∈ registers, reg.isFree := by
  induction registers with
  | nil => simp
  | cons reg registers ih =>
    intro other mem
    rcases List.mem_cons.mp mem with rfl | rest
    · exact pushes.2.1
    · exact ih pushes.2.2 other rest

namespace Shown

/-- Free registers do not depend on the operand stack. -/
theorem get_free (shown : Shown) (stack : List Word) {reg : Register}
    (free : reg.isFree) : get { shown with stack } reg = shown.get reg :=
  Site.Plain.get_stack shown stack reg (by rintro rfl; exact absurd free (by decide))

/-- Nor does a list of free registers. -/
theorem map_get_free (shown : Shown) (stack : List Word) {registers : List Register}
    (free : ∀ reg ∈ registers, reg.isFree) :
    registers.map (get { shown with stack }) = registers.map shown.get :=
  List.map_congr_left fun reg mem => shown.get_free stack (free reg mem)

/-- A register set to its own value stays. -/
theorem set_get (shown : Shown) (reg : Register) :
    shown.set reg (shown.get reg) = shown := by
  cases reg <;> rfl

end Shown

namespace Site

variable {site : Site} {piece : Piece} {machine : Machine} {shown : Shown} {cell : Nat}

/-- The machine comes past pushes. -/
theorem Plain.comes_pushes {registers : List Register} {rest : List Word}
    (plain : site.Plain cell machine { shown with stack := rest })
    (pushes : PushesAt site.code cell registers) :
    machine.Comes site.program site.settings fun after =>
      site.Plain (cell + registers.length) after
        { shown with stack := registers.map shown.get ++ rest } := by
  induction registers with
  | nil => exact .here plain
  | cons reg registers ih =>
    refine (ih pushes.2.2).bind fun after reached => ?_
    refine (reached.comes_push pushes.1 pushes.2.1).mono fun last done => ?_
    rw [Shown.get_free _ _ pushes.2.1] at done
    exact done

/-- A machine shows something behind the code of a piece; the pushes that may still be cancelled
are not executed yet. -/
structure Shows (site : Site) (piece : Piece) (machine : Machine) (shown : Shown) : Prop where
  bounded : piece.barrier ≤ piece.size
  pushes : PushesAt piece.code piece.settled piece.pending
  plain : ∃ rest, shown.stack = piece.pending.map shown.get ++ rest ∧
    site.Plain piece.settled machine { shown with stack := rest }

namespace Shows

/-- Where nothing is pending, a plain machine shows what it has. -/
theorem ofPlain (settled : piece.pending = []) (bounded : piece.barrier ≤ piece.size)
    (plain : site.Plain piece.size machine shown) : site.Shows piece machine shown := by
  have all : piece.settled = piece.size := by
    rw [Piece.settled, settled]
    rfl
  refine ⟨bounded, by rw [settled]; trivial, shown.stack, by rw [settled]; rfl, ?_⟩
  rw [all]
  exact plain

/-- Nothing is pending. -/
theorem toPlain (shows : site.Shows piece machine shown) (settled : piece.pending = []) :
    site.Plain piece.size machine shown := by
  have all : piece.settled = piece.size := by
    rw [Piece.settled, settled]
    rfl
  obtain ⟨rest, stack, plain⟩ := shows.plain
  rw [settled, List.map_nil, List.nil_append] at stack
  rw [← all, show shown = { shown with stack := rest } by rw [← stack]]
  exact plain

/-- The pushes before an instruction are executed. -/
theorem settle (shows : site.Shows piece machine shown) {later : Piece} {holes : List Nat}
    (complete : later.Completes site.code holes) (inside : piece.size ≤ later.settled)
    (same : ∀ index, index < piece.size → later.code[index]? = piece.code[index]?) :
    machine.Comes site.program site.settings fun after => site.Plain piece.size after shown := by
  obtain ⟨rest, stack, plain⟩ := shows.plain
  have total := piece.settled_add
  have pushes : PushesAt site.code piece.settled piece.pending :=
    shows.pushes.congr fun index instr low high found =>
      complete.instruction (by omega) ((same index (by omega)).trans found)
  have executed := plain.comes_pushes pushes
  rw [total, ← stack] at executed
  exact executed

/-- A push takes no step. -/
theorem push (shows : site.Shows piece machine shown) {reg : Register}
    (free : reg.isFree) :
    site.Shows (piece.emitPush reg) machine
      { shown with stack := shown.get reg :: shown.stack } := by
  obtain ⟨rest, stack, plain⟩ := shows.plain
  have total := piece.settled_add
  let pushed : Piece := { piece with depth := piece.depth - 8 }
  let cell : Cell := .instruction ⟨.push, reg, .unused, 0⟩
  have bounded : pushed.barrier ≤ pushed.size := shows.bounded
  have pending : (pushed.push cell).pending = reg :: piece.pending :=
    Piece.pending_push bounded cell
  have settled : (pushed.push cell).settled = piece.settled := Piece.settled_push bounded cell
  have code := pushed.getElem?_push cell
  refine ⟨(Piece.grows_emit shows.bounded _).bounded, ?_, rest, ?_, ?_⟩
  · show PushesAt (pushed.push cell).code (pushed.push cell).settled (pushed.push cell).pending
    rw [pending, settled]
    refine ⟨by rw [code, total, if_pos (show piece.size = pushed.size from rfl)], free,
      shows.pushes.congr ?_⟩
    intro index instr low high found
    have other : index ≠ pushed.size := by
      show index ≠ piece.size
      omega
    rw [code, if_neg other]
    exact found
  · show shown.get reg :: shown.stack = (pushed.push cell).pending.map _ ++ rest
    have same := shown.map_get_free (shown.get reg :: shown.stack) shows.pushes.free
    have top := shown.get_free (shown.get reg :: shown.stack) free
    rw [pending, List.map_cons, top, same, List.cons_append, ← stack]
  · show site.Plain (pushed.push cell).settled _ _
    rw [settled]
    exact plain

/-- A pop takes no step when it cancels a push. -/
theorem comes_pop (shows : site.Shows piece machine shown) {reg : Register}
    {holes : List Nat} (complete : (piece.emitPop reg).Completes site.code holes)
    (free : reg.isFree) {word : Word} {rest : List Word} (stack : shown.stack = word :: rest) :
    machine.Comes site.program site.settings fun after =>
      site.Shows (piece.emitPop reg) after
        (Shown.set { shown with stack := rest } reg word) := by
  have grows := Piece.grows_emit shows.bounded ⟨.pop, reg, .unused, 0⟩
  have total := piece.settled_add
  let moved : Piece := { piece with depth := piece.depth + 8 }
  by_cases cancels : piece.cancels reg
  · have popped : piece.emitPop reg = moved.truncate (piece.size - 1) := by
      simp only [Piece.emitPop, Piece.emit, if_pos cancels]
      rfl
    have pending := Piece.pending_of_cancels cancels
    have settled := Piece.settled_truncate cancels
    have pushes := shows.pushes
    obtain ⟨below, stack', plain⟩ := shows.plain
    rw [pending, List.map_cons, List.cons_append, stack] at stack'
    obtain ⟨rfl, rfl⟩ := List.cons.inj stack'
    rw [← Shown.get_free shown _ free, Shown.set_get]
    rw [pending] at pushes total
    rw [List.length_cons] at total
    refine .here ⟨grows.bounded, ?_, below, ?_, ?_⟩
    · rw [popped]
      show PushesAt _ (piece.truncate (piece.size - 1)).settled _
      rw [settled]
      refine pushes.2.2.congr fun index instr low high found => ?_
      have inside : index < piece.size - 1 := by omega
      show (piece.truncate (piece.size - 1)).code[index]? = _
      rw [Piece.getElem?_truncate, if_pos inside, found]
    · rw [popped]
      show _ = (piece.truncate (piece.size - 1)).pending.map _ ++ below
      exact congrArg (· ++ below) (shown.map_get_free _ pushes.2.2.free).symm
    · rw [popped]
      show site.Plain (piece.truncate (piece.size - 1)).settled _ _
      rw [settled]
      exact plain
  · let cell : Cell := .instruction ⟨.pop, reg, .unused, 0⟩
    have popped : piece.emitPop reg = moved.push cell := by
      simp only [Piece.emitPop, Piece.emit, if_neg cancels]
      rfl
    have bounded : moved.barrier ≤ moved.size := shows.bounded
    have pending : (moved.push cell).pending = [] := Piece.pending_push bounded cell
    have settled : (moved.push cell).settled = piece.size + 1 := Piece.settled_push bounded cell
    have code := moved.getElem?_push cell
    rw [popped] at complete ⊢
    have here := complete.instruction (settled ▸ Nat.lt_succ_self piece.size)
      ((code piece.size).trans (if_pos rfl))
    have before := shows.settle complete (by omega) fun index small =>
      (code index).trans (if_neg (Nat.ne_of_lt small))
    refine before.bind fun after reached => ?_
    refine (reached.comes_pop here free stack).mono fun last done => ?_
    refine ofPlain pending (popped ▸ grows.bounded) ?_
    rw [Piece.size_push]
    exact done

/-- Control reaches an instruction without an immediate where it was emitted, and what is shown
behind it is shown behind the code. -/
theorem comes_at (shows : site.Shows piece machine shown) {instr : Instruction}
    {holes : List Nat} (complete : (piece.emit instr).1.Completes site.code holes)
    (push : instr.op ≠ .push) (pop : instr.op ≠ .pop) :
    site.code[piece.size]? = some (.instruction instr) ∧
      (∀ last final, site.Plain (piece.size + 1) last final →
        site.Shows (piece.emit instr).1 last final) ∧
      machine.Comes site.program site.settings fun after => site.Plain piece.size after shown := by
  obtain ⟨same, pending⟩ := Piece.pending_emit shows.bounded push pop
  have grows := Piece.grows_emit shows.bounded instr
  have settled : (piece.emit instr).1.settled = piece.size + 1 := by
    rw [Piece.settled, pending, same, Piece.size_push]
    rfl
  have code := piece.getElem?_push (.instruction instr)
  rw [← same] at code
  refine ⟨complete.instruction (settled ▸ Nat.lt_succ_self piece.size)
    ((code piece.size).trans (if_pos rfl)), fun last final reached => ?_, ?_⟩
  · refine ofPlain pending grows.bounded ?_
    rw [same, Piece.size_push]
    exact reached
  · exact shows.settle complete (by omega) fun index small =>
      (code index).trans (if_neg (Nat.ne_of_lt small))

/-- An instruction without an immediate runs where it was emitted. -/
theorem comes_emit (shows : site.Shows piece machine shown) {instr : Instruction}
    {holes : List Nat} {goal : Shown → Prop}
    (complete : (piece.emit instr).1.Completes site.code holes)
    (push : instr.op ≠ .push) (pop : instr.op ≠ .pop)
    (runs : ∀ after, site.code[piece.size]? = some (.instruction instr) →
      site.Plain piece.size after shown → after.Comes site.program site.settings fun last =>
        ∃ final, site.Plain (piece.size + 1) last final ∧ goal final) :
    machine.Comes site.program site.settings fun last =>
      ∃ final, site.Shows (piece.emit instr).1 last final ∧ goal final := by
  obtain ⟨here, behind, start⟩ := shows.comes_at complete push pop
  refine start.bind fun after plain => (runs after here plain).mono ?_
  rintro last ⟨final, reached, held⟩
  exact ⟨final, behind last final reached, held⟩

/-- Control reaches an instruction with an immediate where it was emitted. -/
theorem comes_before (shows : site.Shows piece machine shown) {instr : Instruction}
    {value : BitVec 32} {holes : List Nat}
    (complete : (piece.emitImmediate instr value).1.Completes site.code holes) :
    machine.Comes site.program site.settings fun last => site.Plain piece.size last shown := by
  have pending := piece.pending_emitImmediate shows.bounded instr value
  have settled : (piece.emitImmediate instr value).1.settled = piece.size + 2 := by
    rw [Piece.settled, pending, piece.size_emitImmediate]
    rfl
  exact shows.settle complete (by omega)
    fun index small => piece.getElem?_emitImmediate_of_lt instr value small

/-- An instruction with an immediate runs where it was emitted. -/
theorem comes_emitImmediate (shows : site.Shows piece machine shown) {instr : Instruction}
    {value : BitVec 32} {holes : List Nat} {goal : Shown → Prop}
    (complete : (piece.emitImmediate instr value).1.Completes site.code holes)
    (jump : instr.op ≠ .jump ∧ instr.op ≠ .jumpZero)
    (call : instr.op ≠ .call ∨ value ≠ 0)
    (runs : ∀ after, site.code[piece.size]? = some (.instruction instr) →
      site.code[piece.size + 1]? = some (.immediate value) →
      site.Plain piece.size after shown → after.Comes site.program site.settings fun last =>
        ∃ final, site.Plain (piece.size + 2) last final ∧ goal final) :
    machine.Comes site.program site.settings fun last =>
      ∃ final, site.Shows (piece.emitImmediate instr value).1 last final ∧ goal final := by
  have bounded := (Piece.grows_emitImmediate shows.bounded instr value).bounded
  have pending := piece.pending_emitImmediate shows.bounded instr value
  have here := complete.emitted_instruction shows.bounded
  have next := complete.emitted_immediate shows.bounded jump call
  refine (shows.comes_before complete).bind fun after plain => (runs after here next plain).mono ?_
  rintro last ⟨final, reached, held⟩
  refine ⟨final, ofPlain pending bounded ?_, held⟩
  rw [piece.size_emitImmediate]
  exact reached

end Shows

end Site

end TinLang
