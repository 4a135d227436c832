import TinLang.Assembly
import TinLang.Proofs.Decoded
import TinLang.Proofs.Text

/-!
# Listings are read back

A listing shows of an instruction what its opcode uses. Code is canonical when nothing else is in
it: the fields that are not shown are unused, and those that are shown have a name. The listing of
a piece with canonical code, assembled into the same program under another name, is that code
(`Listing.extend_rows`, one line of the listing after another).
-/
namespace TinLang

variable {modifier : UInt8} {op : Opcode} {value : BitVec 32} {shown : List Text} {found : Register}

namespace Opcode

/-- A listing shows the first register. -/
def showsFirst : Opcode → Bool
  | .halt | .nop | .giveBack | .jump | .call | .undefined _ => false
  | _ => true

/-- A listing shows the second register. -/
def showsSecond : Opcode → Bool
  | .move | .not | .memzero | .store | .load | .storeAt | .loadAt => true
  | op => op.isBinary

/-- A listing shows the modifier by a name, or the modifier is not used. -/
def admits : Opcode → UInt8 → Bool
  | .cast, modifier => (Conversion.ofCode? modifier).isSome
  | .store, modifier | .load, modifier | .storeAt, modifier | .loadAt, modifier =>
    (AccessSize.ofCode? modifier).isSome
  | op, modifier =>
    if op.isBinary then (Control.ofCode? modifier).isSome else decide (modifier = 0)

end Opcode

/-- The register has a name when it is shown, and is unused when it is not. -/
def Register.Shows (reg : Register) (shown : Bool) : Prop :=
  if shown then reg ∈ named else reg = .unused

instance (reg : Register) (shown : Bool) : Decidable (reg.Shows shown) :=
  inferInstanceAs (Decidable (ite _ _ _))

theorem Register.Shows.unused {reg : Register} (shows' : reg.Shows false) :
    reg = .unused := by
  simpa [Register.Shows] using shows'

theorem Register.Shows.named {reg : Register} (shows' : reg.Shows true) :
    reg ∈ Register.named := by
  simpa [Register.Shows] using shows'

/-- A listing shows all there is in an instruction. -/
structure Instruction.Canonical (instr : Instruction) : Prop where
  first : instr.first.Shows instr.op.showsFirst
  second : instr.second.Shows instr.op.showsSecond
  modifier : instr.op.admits instr.modifier

instance (instr : Instruction) : Decidable instr.Canonical :=
  decidable_of_iff (instr.first.Shows instr.op.showsFirst ∧
      instr.second.Shows instr.op.showsSecond ∧
      instr.op.admits instr.modifier)
    ⟨fun fields => ⟨fields.1, fields.2.1, fields.2.2⟩,
      fun canonical => ⟨canonical.first, canonical.second, canonical.modifier⟩⟩

/-- A listing shows all there is in the code of a piece. -/
structure Piece.Canonical (prog : Program) (piece : Piece) : Prop where
  /-- Exactly the instructions that have an immediate are followed by one. -/
  formed : piece.code.WellFormed
  fields : ∀ instr, .instruction instr ∈ piece.code → instr.Canonical
  /-- Every call names a native or a piece. -/
  calls : Image.CallsTargeted prog piece
  /-- The cell that a jump leads to is a 32-bit number. -/
  jumps : ∀ (cell : Nat) instr imm,
    piece.code[cell]? = some (.instruction instr) →
    instr.op = .jump ∨ instr.op = .jumpZero →
    piece.code[cell + 1]? = some (.immediate imm) →
    -2 ^ 31 ≤ (cell : Int) + 1 + imm.toInt ∧ (cell : Int) + 1 + imm.toInt < 2 ^ 31
  /-- The source lines are lines. -/
  texts : ∀ line ∈ piece.lines, ∀ byte ∈ line.text, byte ≠ Text.byte '\n'

/-- A name of the language: a letter and then letters and digits. -/
def Text.IsIdentifier (name : Text) : Prop :=
  name.glyphs.head?.any Glyph.isLetter ∧ ∀ glyph ∈ name.glyphs, Scan.isNameGlyph glyph

instance (name : Text) : Decidable name.IsIdentifier := inferInstanceAs (Decidable (_ ∧ _))

/-- The pieces of a linked program can be told apart by their names. -/
structure Program.Distinguished (prog : Program) : Prop where
  linked : prog.linked
  /-- No call waits for the linker. -/
  settled : ∀ piece ∈ prog.pieces, piece.relocations = []
  distinct : (prog.pieces.toList.map Piece.name).Nodup
  identifiers : ∀ piece ∈ prog.pieces, piece.name.IsIdentifier
  natives : ∀ piece ∈ prog.pieces, Native.ofName? piece.name = none

/-- The bytes of a name are letters and digits. -/
theorem Text.IsIdentifier.named {name : Text} (identifier : name.IsIdentifier) {byte : UInt8}
    (mem : byte ∈ name) : ∃ code < 0x80, byte = code.toUInt8 ∧ Scan.isNameGlyph ⟨code, []⟩ := by
  rw [← Text.flatMap_glyphs name] at mem
  obtain ⟨glyph, inside, found⟩ := List.mem_flatMap.mp mem
  have nameable := identifier.2 glyph inside
  have ascii := Scan.ascii_of_isNameGlyph nameable
  rw [(Text.glyphs_sound name glyph inside).1 ascii, Glyph.encode, if_pos ascii,
    List.mem_singleton] at found
  exact ⟨glyph.code, ascii, found, nameable⟩

theorem Text.IsIdentifier.word {name : Text} (identifier : name.IsIdentifier) : name.Word := by
  constructor
  · rintro rfl
    exact absurd identifier.1 (by decide)
  · intro byte mem
    obtain ⟨code, ascii, rfl, nameable⟩ := identifier.named mem
    have visible : ∀ code < 0x80, Scan.isNameGlyph ⟨code, []⟩ → Text.isVisible code.toUInt8 := by
      decide
    exact visible code ascii nameable

theorem Text.IsIdentifier.ne_colon {name : Text} (identifier : name.IsIdentifier) :
    ∀ byte ∈ name, byte ≠ Text.byte ':' := by
  intro byte mem
  obtain ⟨code, ascii, rfl, nameable⟩ := identifier.named mem
  have apart : ∀ code < 0x80, Scan.isNameGlyph ⟨code, []⟩ → code.toUInt8 ≠ Text.byte ':' := by
    decide
  exact apart code ascii nameable

/-- The texts that listings are made of, numbers and names of pieces apart, are words. -/
theorem Listing.word_of_fixed :
    (∀ reg ∈ Register.named, reg.name.Word) ∧ (∀ op ∈ Opcode.all, op.name.Word) ∧
    (∀ native ∈ Native.all, native.name.Word) ∧
    ∀ text ∈ ([":", "data+", "byte", "word", "dword", "qword", "float", "float_to_int",
      "int_to_float"] : List Text), text.Word := by
  have word : ∀ {text : Text}, text ≠ [] ∧ text.all Text.isVisible = true → text.Word :=
    fun visible => visible.imp_right List.all_eq_true.mp
  refine ⟨fun reg mem => word ?_, fun op mem => word ?_, fun native mem => word ?_,
    fun text mem => word ?_⟩
  · revert reg
    decide
  · revert op
    decide
  · revert native
    decide
  · revert text
    decide

/-- What stands between the words of a line is printed. -/
theorem Listing.printed_separators : ∀ separator ∈ ([" ", ": ", "; "] : List Text),
    ∀ byte ∈ separator, 0x20 ≤ byte.toNat ∧ byte.toNat ≤ 0x7E := by
  have printed : ∀ separator ∈ ([" ", ": ", "; "] : List Text), separator.all (fun byte =>
      decide (0x20 ≤ byte.toNat ∧ byte.toNat ≤ 0x7E)) = true := by decide
  exact fun separator mem byte inside =>
    of_decide_eq_true (List.all_eq_true.mp (printed separator mem) byte inside)

theorem Register.word_name {reg : Register} (nameable : reg ∈ named) :
    reg.name.Word :=
  Listing.word_of_fixed.1 reg nameable

theorem Opcode.word_name (defined : op.isDefined) : op.name.Word :=
  Listing.word_of_fixed.2.1 op (List.mem_of_find?_eq_some (ofName?_name defined))

theorem Native.word_name (native : Native) : native.name.Word :=
  Listing.word_of_fixed.2.2.1 native (by cases native <;> simp [all])

/-- A colon may follow a word. -/
theorem Text.Word.colon {text : Text} (word : text.Word) : (text ++ ":" : Text).Word :=
  word.append (Listing.word_of_fixed.2.2.2 _ (by simp))

/-- The offset of a string follows the name of the data segment. -/
theorem Text.Word.dataOffset {text : Text} (word : text.Word) :
    (Text.ofString "data+" ++ text).Word :=
  (Listing.word_of_fixed.2.2.2 _ (by simp)).append word

theorem AccessSize.word_keyword (size : AccessSize) : size.keyword.Word := by
  cases size <;> exact Listing.word_of_fixed.2.2.2 _ (by simp [keyword])

theorem AccessSize.word_describe (known : (ofCode? modifier).isSome) :
    (describe modifier).Word := by
  obtain ⟨size, found⟩ := Option.isSome_iff_exists.mp known
  simpa [describe, found] using size.word_keyword

/-- The size that a modifier stands for is written back. -/
theorem AccessSize.bytes_of_ofCode? {size : AccessSize}
    (found : ofCode? modifier = some size) : size.bytes.toUInt8 = modifier := by
  unfold ofCode? at found
  repeat' split at found
  all_goals first
    | contradiction
    | obtain rfl := Option.some.inj found
      subst modifier
      rfl

theorem Control.code_of_ofCode? {control : Control}
    (found : ofCode? modifier = some control) : control.code = modifier := by
  unfold ofCode? at found
  repeat' split at found
  all_goals first
    | contradiction
    | obtain rfl := Option.some.inj found
      subst modifier
      rfl

theorem Conversion.code_of_ofCode? {conversion : Conversion}
    (found : ofCode? modifier = some conversion) : conversion.code = modifier := by
  unfold ofCode? at found
  repeat' split at found
  all_goals first
    | contradiction
    | obtain rfl := Option.some.inj found
      subst modifier
      rfl

namespace Assembly

variable {operands : List Text} {index : Nat}

theorem register_name (nameable : found ∈ Register.named)
    (shown : operands[index]? = some found.name) : register operands index = .ok found := by
  simp [register, operand, shown, bind, Except.bind, Register.ofName?_name nameable]

theorem register_first (shows' : found.Shows true) (rest : List Text) :
    register (found.name :: rest) 0 = .ok found :=
  register_name shows'.named rfl

theorem register_second (shows' : found.Shows true) (first : Text)
    (rest : List Text) : register (first :: found.name :: rest) 1 = .ok found :=
  register_name shows'.named rfl

theorem size_describe (known : (AccessSize.ofCode? modifier).isSome)
    (shown : operands[index]? = some (AccessSize.describe modifier)) :
    size operands index = .ok modifier := by
  obtain ⟨size, found⟩ := Option.isSome_iff_exists.mp known
  simp [Assembly.size, operand, shown, AccessSize.describe, found, bind, Except.bind,
    AccessSize.bytes_of_ofCode? found]

theorem conversion_text (known : (Conversion.ofCode? modifier).isSome)
    (shown : operands[index]? = some (Listing.conversionText modifier)) :
    conversion operands index = .ok modifier := by
  obtain ⟨kind, found⟩ := Option.isSome_iff_exists.mp known
  have code := Conversion.code_of_ofCode? found
  have apart : Text.ofString "int_to_float" ≠ "float_to_int" := by decide
  cases kind <;>
    simp [conversion, operand, shown, Listing.conversionText, bind, Except.bind, apart, ← code]

/-- A control flag is read back from the operands after two others. -/
theorem control_text {first second : Text}
    (known : (Control.ofCode? modifier).isSome) :
    control (first :: second :: Listing.controlText modifier) 2 = .ok modifier := by
  obtain ⟨kind, found⟩ := Option.isSome_iff_exists.mp known
  have code := Control.code_of_ofCode? found
  have apart : Text.ofString "byte" ≠ "float" := by decide
  cases kind <;> simp [control, Listing.controlText, apart, ← code]

theorem integer_ofInt {number : Int} (low : -2 ^ 31 ≤ number) (high : number < 2 ^ 31) :
    integer (Text.ofInt number) = .ok (BitVec.ofInt 32 number) := by
  have read : Numeral.signedWithin? 32 (Text.ofInt number) = some number :=
    Numeral.signedWithin?_ofInt low high
  simp [integer, read]

/-- An immediate is read back from its number. -/
theorem integer_toInt (value : BitVec 32) : integer (Text.ofInt value.toInt) = .ok value := by
  have low := BitVec.le_toInt value
  have high := BitVec.toInt_lt (x := value)
  rw [integer_ofInt (by simpa using low) (by simpa using high), BitVec.ofInt_toInt]

theorem immediate_toInt
    (shown : operands[index]? = some (Text.ofInt value.toInt)) :
    immediate operands index = .ok value := by
  simp [immediate, operand, shown, bind, Except.bind, integer_toInt]

theorem dataOffset_toInt
    (shown : operands[index]? = some ("data+" ++ Text.ofInt value.toInt : Text)) :
    dataOffset operands index = .ok value := by
  simp [dataOffset, operand, shown, bind, Except.bind, integer_toInt]

/-- The distance of a jump is read back from the cell that it leads to. -/
theorem destination_ofInt {cell : Nat}
    (low : -2 ^ 31 ≤ (cell : Int) + 1 + value.toInt)
    (high : (cell : Int) + 1 + value.toInt < 2 ^ 31)
    (shown : operands[index]? = some (Text.ofInt (cell + 1 + value.toInt) ++ ":" : Text)) :
    ∃ target, destination operands index = .ok target ∧
      target - BitVec.ofNat 32 (cell + 1) = value := by
  refine ⟨BitVec.ofInt 32 (cell + 1 + value.toInt), ?_, ?_⟩
  · simp [destination, operand, shown, bind, Except.bind, Text.dropTrailing?_append,
      integer_ofInt low high]
  · have sum : BitVec.ofInt 32 ((cell : Int) + 1 + value.toInt) =
        BitVec.ofNat 32 (cell + 1) + value := by
      rw [BitVec.ofInt_add, BitVec.ofInt_toInt]
      congr 1
    rw [sum, BitVec.add_comm, BitVec.add_sub_cancel]

end Assembly

namespace Program

/-- A piece is found by its name when no later piece has the name. -/
theorem lookup?_eq_some {prog : Program} {index : Nat} {name : Text}
    (found : prog.pieces[index]?.map Piece.name = some name)
    (latest : ∀ other, index < other → prog.pieces[other]?.map Piece.name ≠ some name) :
    prog.lookup? name = some index := by
  have inside : index < prog.pieces.size := by
    obtain ⟨piece, there, _⟩ := Option.map_eq_some_iff.mp found
    exact (Array.getElem?_eq_some_iff.mp there).1
  unfold lookup?
  rw [List.find?_eq_some_iff_getElem]
  refine ⟨by simpa using found, prog.pieces.size - 1 - index, by simp; omega, ?_, ?_⟩
  · simp only [List.getElem_reverse, List.getElem_range, List.length_range]
    omega
  · intro other before
    simp only [List.getElem_reverse, List.getElem_range, List.length_range, Bool.not_eq_eq_eq_not,
      Bool.not_true, decide_eq_false_iff_not]
    exact latest _ (by omega)

variable {prog : Program} {name : Text}

/-- The pieces of a program are found by their names after one with a new name is added. -/
theorem lookup?_addPiece (distinguished : prog.Distinguished)
    (fresh : ∀ piece ∈ prog.pieces, piece.name ≠ name) {index : Nat} {piece : Piece}
    (found : prog.pieces[index]? = some piece) :
    (prog.addPiece name).1.lookup? piece.name = some index := by
  have inside := (Array.getElem?_eq_some_iff.mp found).1
  have mem : piece ∈ prog.pieces := Array.mem_of_getElem? found
  apply lookup?_eq_some
  · simp [addPiece, Array.getElem?_push, Nat.ne_of_lt inside, found]
  · intro other later same
    obtain ⟨twin, there, named⟩ := Option.map_eq_some_iff.mp same
    simp only [addPiece, Array.getElem?_push] at there
    split at there
    · obtain rfl := Option.some.inj there
      exact fresh piece mem named.symm
    · have apart := distinguished.distinct
      have first : (prog.pieces.toList.map Piece.name)[index]? = some piece.name := by
        simp [found]
      have second : (prog.pieces.toList.map Piece.name)[other]? = some piece.name := by
        simp [there, named]
      have equal := (List.getElem?_inj (by simpa using inside) apart).mp (first.trans second.symm)
      omega

end Program

namespace Native

theorem id_of_ofId? {id : Int} {native : Native} (found : ofId? id = some native) :
    native.id = id := by
  simpa using List.find?_some found

theorem id_neg (native : Native) : native.id < 0 := by
  cases native <;> decide

end Native

/-- A call target that a listing names is read back. -/
theorem Assembly.callTarget_targetName {prog : Program} {name : Text}
    {operands : List Text} (distinguished : prog.Distinguished)
    (fresh : ∀ piece ∈ prog.pieces, piece.name ≠ name)
    (targeted : (∃ native, Native.ofId? value.toInt = some native) ∨
      ∃ index < prog.pieces.size, value.toInt = index + 1)
    (shown : operands[0]? = some (prog.targetName value.toInt)) :
    callTarget (prog.addPiece name).1 operands 0 = .ok value := by
  rcases targeted with ⟨native, found⟩ | ⟨index, inside, number⟩
  · have id := Native.id_of_ofId? found
    have negative : value.toInt < 0 := id ▸ native.id_neg
    have text : prog.targetName value.toInt = native.name := by
      simp [Program.targetName, negative, Native.describeId, found]
    simp [callTarget, operand, shown, text, bind, Except.bind, id]
  · have found : prog.pieces[index]? = some prog.pieces[index] := by simp [inside]
    have mem : prog.pieces[index] ∈ prog.pieces := Array.getElem_mem inside
    have text : prog.targetName value.toInt = prog.pieces[index].name := by
      have positive : ¬ (index : Int) + 1 < 0 := by omega
      have nonzero : ¬ (index : Int) + 1 = 0 := by omega
      simp [Program.targetName, number, positive, nonzero, inside]
    have back : BitVec.ofNat 32 (index + 1) = value := by
      rw [← BitVec.ofInt_toInt (x := value), number]
      rfl
    simp only [callTarget, operand, shown, text, bind, Except.bind,
      distinguished.natives _ mem, Program.lookup?_addPiece distinguished fresh found, back]

/-- The opcodes of well-formed code are defined. -/
theorem Code.defined_of_formed {pending : Bool} {cells : List Cell} {instr : Instruction}
    (formed : Code.Formed pending cells) (mem : .instruction instr ∈ cells) :
    instr.op.isDefined := by
  induction cells generalizing pending with
  | nil => simp at mem
  | cons cell cells ih =>
    cases cell with
    | instruction decoded =>
      cases pending with
      | true => exact formed.elim
      | false =>
        rcases List.mem_cons.mp mem with same | later
        · obtain rfl := Cell.instruction.inj same
          exact formed.1
        · exact ih formed.2 later
    | immediate value =>
      cases pending with
      | false => exact formed.elim
      | true => exact ih formed (by simpa using mem)

/-- An instruction is found at its cell. -/
theorem Code.instruction?_eq {code : Code} {cell : Nat} {instr : Instruction}
    (found : code[cell]? = some (.instruction instr)) :
    code.instruction? cell = some instr := by
  have natural : ¬ (cell : Int) < 0 := by omega
  simp [Code.instruction?, Code.cell?, natural, found]

theorem Code.getElem?_of_instruction? {code : Code} {cell : Nat} {instr : Instruction}
    (found : code.instruction? cell = some instr) :
    code[cell]? = some (.instruction instr) := by
  have natural : ¬ (cell : Int) < 0 := by omega
  simp only [Code.instruction?, Code.cell?, natural, ↓reduceIte, Int.toNat_natCast] at found
  split at found
  · next decoded there =>
    obtain rfl := Option.some.inj found
    exact there
  · contradiction

namespace Listing

variable {prog : Program} {piece : Piece} {name : Text}

/-- The immediate that follows a cell, as a list shows it. -/
def following (piece : Piece) (cell : Nat) : BitVec 32 := (piece.code.immediate? (cell + 1)).getD 0

/-- The cells of an instruction: itself, and the immediate that follows it. -/
def cellsAt (piece : Piece) (cell : Nat) (instr : Instruction) : List Cell :=
  .instruction instr ::
    if instr.op.hasImmediate then [.immediate (following piece cell)] else []

theorem immediate_of_formed (formed : piece.code.WellFormed) {cell : Nat}
    {instr : Instruction} (found : piece.code[cell]? = some (.instruction instr))
    (wide : instr.op.hasImmediate) :
    piece.code[cell + 1]? = some (.immediate (following piece cell)) := by
  obtain ⟨value, there⟩ := Code.formed_next formed (by simpa using found) wide
  have next : piece.code[cell + 1]? = some (.immediate value) := by simpa using there
  have natural : ¬ ((cell : Int) + 1) < 0 := by omega
  have place : ((cell : Int) + 1).toNat = cell + 1 := by omega
  simp [following, Code.immediate?, Code.cell?, natural, place, next]

/-- The cells up to an instruction and those of the instruction are the cells up to the next. -/
theorem take_cellsAt (formed : piece.code.WellFormed) {cell : Nat} {instr : Instruction}
    (found : piece.code[cell]? = some (.instruction instr)) :
    piece.code.toList.take cell ++ cellsAt piece cell instr =
      piece.code.toList.take (cell + 1 + instr.op.hasImmediate.toNat) := by
  have here : piece.code.toList.take (cell + 1) =
      piece.code.toList.take cell ++ [.instruction instr] := by
    rw [List.take_add_one]
    simp [found]
  unfold cellsAt
  split
  · next wide =>
    have next := immediate_of_formed formed found wide
    rw [wide, Bool.toNat_true, List.take_add_one, here]
    simp [next]
  · next narrow =>
    rw [Bool.not_eq_true] at narrow
    rw [narrow, Bool.toNat_false, Nat.add_zero, here]

theorem callText_settled (settled : piece.relocations = []) (targets : Array CallTarget)
    (cell : Nat) (imm : Int) :
    callText (some prog) targets piece cell imm = prog.targetName imm := by
  simp [callText, settled]

theorem word_conversionText (known : (Conversion.ofCode? modifier).isSome) :
    (conversionText modifier).Word := by
  obtain ⟨kind, found⟩ := Option.isSome_iff_exists.mp known
  cases kind <;> simp only [conversionText, found] <;> exact word_of_fixed.2.2.2 _ (by simp)

theorem word_controlText (known : (Control.ofCode? modifier).isSome) :
    ∀ shown ∈ controlText modifier, shown.Word := by
  obtain ⟨kind, found⟩ := Option.isSome_iff_exists.mp known
  cases kind <;> simp [controlText, found, word_of_fixed.2.2.2]

theorem word_targetName (distinguished : prog.Distinguished) {value : Int}
    (targeted : (∃ native, Native.ofId? value = some native) ∨
      ∃ index < prog.pieces.size, value = index + 1) : (prog.targetName value).Word := by
  rcases targeted with ⟨native, found⟩ | ⟨index, inside, rfl⟩
  · have negative : value < 0 := Native.id_of_ofId? found ▸ native.id_neg
    simpa [Program.targetName, negative, Native.describeId, found] using native.word_name
  · have positive : ¬ (index : Int) + 1 < 0 := by omega
    have nonzero : ¬ (index : Int) + 1 = 0 := by omega
    have name := (distinguished.identifiers _ (Array.getElem_mem inside)).word
    simpa [Program.targetName, positive, nonzero, inside] using name

/-- The operands that are shown of an instruction are read back as the instruction. -/
theorem cells_operands (distinguished : prog.Distinguished) (mem : piece ∈ prog.pieces)
    (canonical : piece.Canonical prog) (fresh : ∀ other ∈ prog.pieces, other.name ≠ name)
    {cell : Nat} {instr : Instruction} (defined : instr.op.isDefined)
    (found : piece.code[cell]? = some (.instruction instr)) :
    Assembly.cells (prog.addPiece name).1 cell instr.op
      (operands (some prog) prog.targets piece cell instr) =
        .ok (cellsAt piece cell instr) := by
  have fields := canonical.fields instr (Array.mem_of_getElem? found)
  have next := immediate_of_formed canonical.formed found
  have calls := canonical.calls cell instr
  have jumps := canonical.jumps cell instr (following piece cell) found
  have settled := distinguished.settled piece mem
  obtain ⟨op, first, second, modifier⟩ := instr
  obtain ⟨shownFirst, shownSecond, shownModifier⟩ := fields
  cases op with
  | undefined excess => contradiction
  | halt | nop | giveBack =>
    obtain rfl := Register.Shows.unused shownFirst
    obtain rfl := Register.Shows.unused shownSecond
    obtain rfl : modifier = 0 := of_decide_eq_true shownModifier
    rfl
  | push | pop =>
    obtain rfl := Register.Shows.unused shownSecond
    obtain rfl : modifier = 0 := of_decide_eq_true shownModifier
    simp [Assembly.cells, operands, Assembly.register_first shownFirst, cellsAt,
      Opcode.hasImmediate, bind, Except.bind, pure, Except.pure]
  | cast =>
    obtain rfl := Register.Shows.unused shownSecond
    have conversion := Assembly.conversion_text shownModifier
      (show [first.name, conversionText modifier][1]? = _ from rfl)
    simp [Assembly.cells, operands, Assembly.register_first shownFirst, conversion, cellsAt,
      Opcode.hasImmediate, bind, Except.bind, pure, Except.pure]
  | move | not | memzero =>
    obtain rfl : modifier = 0 := of_decide_eq_true shownModifier
    simp [Assembly.cells, operands, Assembly.register_first shownFirst,
      Assembly.register_second shownSecond, cellsAt, Opcode.hasImmediate, bind, Except.bind, pure,
      Except.pure]
  | store | load =>
    have size := Assembly.size_describe shownModifier
      (show [first.name, second.name, AccessSize.describe modifier][2]? = _ from rfl)
    simp [Assembly.cells, operands, Assembly.register_first shownFirst,
      Assembly.register_second shownSecond, size, cellsAt, Opcode.hasImmediate, bind, Except.bind,
      pure, Except.pure]
  | loadImmediate | increase =>
    obtain rfl := Register.Shows.unused shownSecond
    obtain rfl : modifier = 0 := of_decide_eq_true shownModifier
    have number := Assembly.immediate_toInt
      (show [first.name, Text.ofInt (following piece cell).toInt][1]? = _ from rfl)
    rw [following] at number
    simp only [Assembly.cells, operands, Assembly.register_first shownFirst, number,
      cellsAt, following,
      Opcode.hasImmediate, bind, Except.bind, pure, Except.pure,
      ↓reduceIte]
  | jump =>
    obtain rfl := Register.Shows.unused shownFirst
    obtain rfl := Register.Shows.unused shownSecond
    obtain rfl : modifier = 0 := of_decide_eq_true shownModifier
    obtain ⟨low, high⟩ := jumps (.inl rfl) (next rfl)
    obtain ⟨target, read, distance⟩ := Assembly.destination_ofInt low high
      (show [Text.ofInt (cell + 1 + (following piece cell).toInt) ++ Text.ofString ":"][0]? = _
        from rfl)
    rw [following] at read distance
    simp only [Assembly.cells, operands, read, distance, cellsAt, following, Opcode.hasImmediate,
      bind,
      Except.bind, pure, Except.pure,
      ↓reduceIte]
  | jumpZero =>
    obtain rfl := Register.Shows.unused shownSecond
    obtain rfl : modifier = 0 := of_decide_eq_true shownModifier
    obtain ⟨low, high⟩ := jumps (.inr rfl) (next rfl)
    obtain ⟨target, read, distance⟩ := Assembly.destination_ofInt low high
      (show [first.name, Text.ofInt (cell + 1 + (following piece cell).toInt) ++
        Text.ofString ":"][1]? = _ from rfl)
    rw [following] at read distance
    simp only [Assembly.cells, operands, Assembly.register_first shownFirst, read,
      distance, cellsAt,
      following, Opcode.hasImmediate, bind, Except.bind, pure, Except.pure,
      ↓reduceIte]
  | call =>
    obtain rfl := Register.Shows.unused shownFirst
    obtain rfl := Register.Shows.unused shownSecond
    obtain rfl : modifier = 0 := of_decide_eq_true shownModifier
    obtain ⟨value, there, targeted⟩ := calls (Code.instruction?_eq found) rfl
    have same : following piece cell = value := by simp [following, there]
    rw [← same] at targeted
    have read := Assembly.callTarget_targetName distinguished fresh targeted
      (show [prog.targetName (following piece cell).toInt][0]? = _ from rfl)
    rw [following] at read
    simp only [Assembly.cells, operands, callText_settled settled, read, cellsAt, following,
      Opcode.hasImmediate, bind, Except.bind, pure, Except.pure,
      ↓reduceIte]
  | storeAt | loadAt =>
    have size := Assembly.size_describe shownModifier
      (show [first.name, second.name, AccessSize.describe modifier,
        Text.ofInt (following piece cell).toInt][2]? = _ from rfl)
    have number := Assembly.immediate_toInt
      (show [first.name, second.name, AccessSize.describe modifier,
        Text.ofInt (following piece cell).toInt][3]? = _ from rfl)
    rw [following] at size number
    simp only [Assembly.cells, operands, Assembly.register_first shownFirst,
      Assembly.register_second shownSecond, size, number, cellsAt, following, Opcode.hasImmediate,
      bind, Except.bind, pure, Except.pure,
      ↓reduceIte]
  | dataPointer =>
    obtain rfl := Register.Shows.unused shownSecond
    obtain rfl : modifier = 0 := of_decide_eq_true shownModifier
    have number := Assembly.dataOffset_toInt
      (show [first.name, Text.ofString "data+" ++ Text.ofInt (following piece cell).toInt][1]? = _
        from rfl)
    rw [following] at number
    simp only [Assembly.cells, operands, Assembly.register_first shownFirst, number,
      cellsAt, following,
      Opcode.hasImmediate, bind, Except.bind, pure, Except.pure,
      ↓reduceIte]
  | add | sub | mul | div | and | or | equal | notEqual | less | greater | lessEqual
  | greaterEqual =>
    simp [Assembly.cells, operands, Assembly.register_first shownFirst,
      Assembly.register_second shownSecond, Assembly.control_text shownModifier, cellsAt,
      Opcode.hasImmediate, bind, Except.bind, pure, Except.pure]

/-- Every operand that is shown is a word. -/
theorem word_operands (distinguished : prog.Distinguished) (mem : piece ∈ prog.pieces)
    (canonical : piece.Canonical prog) {cell : Nat} {instr : Instruction}
    (defined : instr.op.isDefined)
    (found : piece.code[cell]? = some (.instruction instr)) :
    ∀ shown ∈ operands (some prog) prog.targets piece cell instr, shown.Word := by
  have fields := canonical.fields instr (Array.mem_of_getElem? found)
  have calls := canonical.calls cell instr
  have settled := distinguished.settled piece mem
  obtain ⟨op, first, second, modifier⟩ := instr
  obtain ⟨shownFirst, shownSecond, shownModifier⟩ := fields
  have number (value : Int) := Text.word_ofInt value
  have destination (value : Int) : (Text.ofInt value ++ ":" : Text).Word :=
    (number value).colon
  have reg {named : Register} (shows' : named.Shows true) : named.name.Word :=
    Register.word_name shows'.named
  cases op with
  | undefined excess => contradiction
  | halt | nop | giveBack => simp [operands]
  | push | pop => simpa [operands] using reg shownFirst
  | cast => simpa [operands] using ⟨reg shownFirst, word_conversionText shownModifier⟩
  | move | not | memzero => simpa [operands] using ⟨reg shownFirst, reg shownSecond⟩
  | store | load =>
    simpa [operands] using
      ⟨reg shownFirst, reg shownSecond, AccessSize.word_describe shownModifier⟩
  | loadImmediate | increase => simpa [operands] using ⟨reg shownFirst, number _⟩
  | jump => simpa [operands] using destination _
  | jumpZero => simpa [operands] using ⟨reg shownFirst, destination _⟩
  | call =>
    obtain ⟨value, there, targeted⟩ := calls (Code.instruction?_eq found) rfl
    simpa [operands, callText_settled settled, there] using word_targetName distinguished targeted
  | storeAt | loadAt =>
    simpa [operands] using
      ⟨reg shownFirst, reg shownSecond, AccessSize.word_describe shownModifier, number _⟩
  | dataPointer =>
    simpa [operands] using ⟨reg shownFirst, (number _).dataOffset⟩
  | add | sub | mul | div | and | or | equal | notEqual | less | greater | lessEqual
  | greaterEqual =>
    intro shown listed
    rcases List.mem_append.mp listed with registers | control
    · rcases List.mem_cons.mp registers with rfl | later
      · exact reg shownFirst
      · obtain rfl := List.mem_singleton.mp later
        exact reg shownSecond
    · exact word_controlText shownModifier shown control

/-- A mnemonic and its operands. -/
def body (op : Opcode) (shown : List Text) : Text :=
  if shown = [] then op.name else op.name ++ " " ++ Text.join ", " shown

theorem phrase_body (defined : op.isDefined)
    (words : ∀ word ∈ shown, word.Word) : (body op shown).Phrase := by
  have mnemonic := (Opcode.word_name defined).phrase
  unfold body
  split
  · exact mnemonic
  · next some =>
    exact mnemonic.append (printed_separators _ (by simp)) (Text.phrase_join some words)

/-- A line without the blanks before it. -/
theorem phrase_row (defined : op.isDefined)
    (words : ∀ word ∈ shown, word.Word) (cell : Nat) :
    (Text.ofInt cell ++ ": " ++ body op shown : Text).Phrase :=
  (Text.word_ofInt cell).phrase.append (printed_separators _ (by simp)) (phrase_body defined words)

/-- A mnemonic and its operands are read back. -/
theorem instruction_body (defined : op.isDefined)
    (words : ∀ word ∈ shown, word.Word) (prog : Program) (cell : Nat) :
    Assembly.instruction prog cell (body op shown) = Assembly.cells prog cell op shown := by
  have free := (Opcode.word_name defined).ne (by decide : Text.isVisible (Text.byte ' ') = false)
  have named := Opcode.ofName?_name defined
  by_cases none : shown = []
  · subst none
    have trimmed : Text.trim [] = [] := rfl
    simp [body, Assembly.instruction, Text.cut_eq_none free, named, trimmed]
  · have phrase := Text.phrase_join none words
    have parts : (body op shown).cut (Text.byte ' ') = some (op.name, Text.join ", " shown) := by
      rw [body, if_neg none, List.append_assoc]
      exact Text.cut_append free _
    have some : (Text.join ", " shown).isEmpty = false := by
      obtain ⟨first, rest, shape, _⟩ := phrase.starts
      simp [shape]
    simp [Assembly.instruction, parts, named, phrase.trim_eq, some, Text.splitAtPair_join none
      words]

/-- The line of an instruction: blanks, then its cell, mnemonic and operands. -/
theorem cellText_eq {targets : Array CallTarget} {cell : Nat} {instr : Instruction}
    (found : piece.code[cell]? = some (.instruction instr)) :
    ∃ count, cellText (some prog) targets piece cell = List.replicate count (Text.byte ' ') ++
      (Text.ofInt cell ++ ": " ++
        body instr.op (operands (some prog) targets piece cell instr)) := by
  refine ⟨4 - (Text.ofInt cell).length, ?_⟩
  simp only [cellText, Code.instruction?_eq found, Int.toNat_natCast, Text.padLeft, body]
  cases operands (some prog) targets piece cell instr with
  | nil => simp
  | cons first rest => simp

/-- The line of an instruction is read back as the instruction. -/
theorem line_cellText {later : Program} {cell : Nat}
    (defined : op.isDefined) (words : ∀ word ∈ shown, word.Word) (small : cell < 2 ^ 63)
    (count : Nat) :
    Assembly.line later cell (List.replicate count (Text.byte ' ') ++
      (Text.ofInt cell ++ ": " ++ body op shown)) = Assembly.cells later cell op shown := by
  have addr := Text.word_ofInt cell
  have phrase := phrase_body defined words
  have whole := phrase_row defined words cell
  have digits : ∀ byte ∈ Text.ofInt cell, ∃ digit < 10, byte = Text.byte (Nat.digitChar digit) :=
    fun byte mem => Text.digit_of_mem_ofNat mem
  have free : ∀ byte ∈ Text.ofInt cell, byte ≠ Text.byte ':' := by
    rintro byte mem rfl
    obtain ⟨digit, small, same⟩ := digits _ mem
    revert digit
    decide
  have parts : (Text.ofInt cell ++ ": " ++ body op shown : Text).cut (Text.byte ':') =
      some (Text.ofInt cell, List.replicate 1 (Text.byte ' ') ++ body op shown) := by
    rw [List.append_assoc]
    exact Text.cut_append free _
  have plain : ¬ ((Text.ofInt cell ++ ": " ++ body op shown : Text).isEmpty ∨
      (Text.ofInt cell ++ ": " ++ body op shown : Text).head? = some (Text.byte ';')) := by
    obtain ⟨first, rest, shape⟩ := List.exists_cons_of_ne_nil addr.1
    obtain ⟨digit, small, same⟩ := digits first (shape ▸ List.mem_cons_self)
    have apart : ∀ digit < 10, Text.byte (Nat.digitChar digit) ≠ Text.byte ';' := by decide
    simp [shape, same, apart digit small]
  have number : Numeral.signedWithin? 64 (Text.trim (Text.ofInt cell)) = some (cell : Int) := by
    rw [addr.phrase.trim_eq]
    exact Numeral.signedWithin?_ofInt (by omega) (by simpa using Int.ofNat_lt.mpr small)
  unfold Assembly.line
  simp only [whole.trim_append count, plain, ↓reduceIte, parts, number, phrase.trim_append 1,
    instruction_body defined words]
  rfl

/-- A source line as a comment. -/
def comment (line : SourceLine) : Text :=
  "; " ++ Text.ofInt line.number ++ ": " ++ line.text.trim

/-- The comment before a cell, if there is one. -/
def comments (piece : Piece) (cell : Nat) (latest : Option Nat) : List Text :=
  let shown := (piece.lineOf[cell]?).getD none
  if shown.isNone ∨ shown = latest then [] else ((shown.bind (piece.lines[·]?)).map comment).toList

/-- The lines of a piece from a cell on, one by one. -/
def rows (prog : Option Program) (targets : Array CallTarget) (piece : Piece) :
    (count cell : Nat) → (latest : Option Nat) → List Text
  | 0, _, _ => []
  | count + 1, cell, latest =>
    if (piece.code.instruction? cell).isNone then rows prog targets piece count (cell + 1) latest
    else comments piece cell latest ++ cellText prog targets piece cell ::
      rows prog targets piece count (cell + 1) (((piece.lineOf[cell]?).getD none).or latest)

theorem lines_eq_ofLines (prog : Option Program) (targets : Array CallTarget) (piece : Piece)
    (count cell : Nat) (latest : Option Nat) :
    lines prog targets piece count cell latest =
      Text.ofLines (rows prog targets piece count cell latest) := by
  induction count generalizing cell latest with
  | zero => rfl
  | succ count ih =>
    unfold lines rows
    split
    · next absent => simp only [absent, Option.isNone_none, ↓reduceIte, ih]
    · next instr found =>
      have some : ¬ (piece.code.instruction? cell).isNone := by simp [found]
      simp only [if_neg some, ih, Text.ofLines, List.flatMap_append, List.flatMap_cons, comments]
      split
      · simp
      · cases (piece.lineOf[cell]?.getD none).bind (piece.lines[·]?) with
        | none => simp
        | some line => simp [comment]

theorem comment_of_mem_comments {cell : Nat} {latest : Option Nat} {shown : Text}
    (mem : shown ∈ comments piece cell latest) : ∃ line ∈ piece.lines, shown = comment line := by
  simp only [comments] at mem
  split at mem
  · simp at mem
  · rw [Option.mem_toList, Option.map_eq_some_iff] at mem
    obtain ⟨line, found, rfl⟩ := mem
    obtain ⟨index, _, there⟩ := Option.bind_eq_some_iff.mp found
    exact ⟨line, Array.mem_of_getElem? there, rfl⟩

/-- A comment is skipped. -/
theorem line_comment (prog : Program) (cell : Nat) (line : SourceLine) :
    Assembly.line prog cell (Text.dropReturn (comment line)) = .ok [] := by
  have shape : comment line = Text.byte ';' :: Text.byte ' ' ::
      (Text.ofInt line.number ++ ": " ++ line.text.trim) := by
    simp only [comment, List.append_assoc]
    rfl
  obtain ⟨others, kept⟩ := Text.exists_dropReturn_cons (Text.byte ';') (Text.byte ' ')
    (Text.ofInt line.number ++ ": " ++ line.text.trim)
  have first := Text.head?_trim (by decide : Text.isVisible (Text.byte ';')) others
  simp only [Assembly.line, shape, kept, first, or_true, ↓reduceIte]
  rfl

/-- The line with the name of a piece is skipped. -/
theorem line_header (prog : Program) (cell : Nat) {name : Text} (identifier : name.IsIdentifier) :
    Assembly.line prog cell (name ++ ":") = .ok [] := by
  have word := identifier.word
  have header := word.colon
  have trimmed := header.phrase.trim_eq
  have parts : (name ++ ":" : Text).cut (Text.byte ':') = some (name, []) :=
    Text.cut_append identifier.ne_colon []
  unfold Assembly.line
  simp only [trimmed, parts]
  split <;> rfl

theorem code_foldl_push (cells : List Cell) (built : Piece) :
    (cells.foldl Piece.push built).code.toList = built.code.toList ++ cells ∧
      (cells.foldl Piece.push built).name = built.name := by
  induction cells generalizing built with
  | nil => simp
  | cons cell cells ih =>
    obtain ⟨code, name⟩ := ih (built.push cell)
    refine ⟨?_, name⟩
    rw [List.foldl_cons, code]
    simp [Piece.push]

/-- Lines that are skipped leave the piece as it is. -/
theorem extend_skipped {later : Program} {skipped rest : List Text} {built : Piece} (number : Nat)
    (each : ∀ text ∈ skipped, Assembly.line later built.size text = .ok []) :
    Assembly.extend later number (skipped ++ rest) built =
      Assembly.extend later (number + skipped.length) rest built := by
  induction skipped generalizing number with
  | nil => rfl
  | cons text skipped ih =>
    have others := ih (number + 1) fun other mem => each other (by simp [mem])
    rw [List.cons_append, Assembly.extend, each text (by simp)]
    simp only [List.foldl_nil, others, List.length_cons]
    congr 1
    omega

/-- The rows of a piece from a cell on, read after the cells before it, give the piece its code.
An immediate has been read with the instruction before it, so `pending` cells are read already. -/
theorem extend_rows (distinguished : prog.Distinguished) (mem : piece ∈ prog.pieces)
    (canonical : piece.Canonical prog) (fresh : ∀ other ∈ prog.pieces, other.name ≠ name)
    (small : piece.size ≤ 2 ^ 63) {count cell : Nat} {pending : Bool} (latest : Option Nat)
    (number : Nat) (built : Piece) (whole : cell + count = piece.size)
    (formed : Code.Formed pending (piece.code.toList.drop cell))
    (before : built.code.toList = piece.code.toList.take (cell + pending.toNat)) :
    ∃ later, Assembly.extend (prog.addPiece name).1 number
        ((rows (some prog) prog.targets piece count cell latest).map Text.dropReturn) built =
          (later, none) ∧ later.code = piece.code ∧ later.name = built.name := by
  induction count generalizing cell latest pending number built with
  | zero =>
    have all : piece.code.toList.drop cell = [] := by
      rw [List.drop_eq_nil_iff, Array.length_toList]
      exact Nat.le_of_eq whole.symm
    rw [all] at formed
    cases pending with
    | true => exact formed.elim
    | false =>
      refine ⟨built, rfl, ?_, rfl⟩
      apply Array.toList_inj.mp
      rw [before, List.take_of_length_le]
      simpa [Piece.size] using Nat.le_of_eq whole.symm
  | succ count ih =>
    have inside : cell < piece.code.size := by
      simp only [Piece.size] at whole
      omega
    have here : piece.code.toList.drop cell = piece.code[cell] :: piece.code.toList.drop
      (cell + 1) := by
      rw [List.drop_eq_getElem_cons (by simpa using inside), Array.getElem_toList]
    have there : piece.code[cell]? = some piece.code[cell] := by simp [inside]
    rw [here] at formed
    generalize piece.code[cell] = found at formed there
    cases found with
    | immediate value =>
      cases pending with
      | false => exact formed.elim
      | true =>
        have absent : piece.code.instruction? cell = none := by
          have natural : ¬ (cell : Int) < 0 := by omega
          simp [Code.instruction?, Code.cell?, natural, there]
        rw [rows, if_pos (by simp [absent])]
        exact ih latest number built (by omega) formed (by simpa [Nat.add_assoc] using before)
    | instruction instr =>
      cases pending with
      | true => exact formed.elim
      | false =>
        have size : built.size = cell := by
          have length := congrArg List.length before
          simp only [Bool.toNat_false, Nat.add_zero, List.length_take,
            Array.length_toList] at length
          rw [Piece.size, length, Nat.min_eq_left (Nat.le_of_lt inside)]
        obtain ⟨defined, after⟩ := formed
        have words := word_operands distinguished mem canonical defined there
        obtain ⟨blanks, text⟩ := @cellText_eq prog piece prog.targets cell instr there
        have phrase := phrase_row defined words cell
        have read : Assembly.line (prog.addPiece name).1 built.size
            (Text.dropReturn (cellText (some prog) prog.targets piece cell)) =
              .ok (cellsAt piece cell instr) := by
          rw [text, phrase.dropReturn_eq, size, line_cellText defined words (by omega)]
          exact cells_operands distinguished mem canonical fresh defined there
        have skipped : ∀ row ∈ (comments piece cell latest).map Text.dropReturn,
            Assembly.line (prog.addPiece name).1 built.size row = .ok [] := by
          intro row listed
          obtain ⟨shown, among, rfl⟩ := List.mem_map.mp listed
          obtain ⟨line, _, rfl⟩ := comment_of_mem_comments among
          exact line_comment _ _ line
        rw [rows, if_neg (by simp [Code.instruction?_eq there]), List.map_append, List.map_cons,
          extend_skipped number skipped, Assembly.extend, read]
        dsimp only
        obtain ⟨code, named⟩ := code_foldl_push (cellsAt piece cell instr) built
        rw [← named]
        refine ih _ _ _ (by omega) after ?_
        rw [code, before]
        exact take_cellsAt canonical.formed there

/-- No row holds a line end. -/
theorem free_rows (distinguished : prog.Distinguished) (mem : piece ∈ prog.pieces)
    (canonical : piece.Canonical prog) (count cell : Nat) (latest : Option Nat) :
    ∀ row ∈ rows (some prog) prog.targets piece count cell latest,
      ∀ byte ∈ row, byte ≠ Text.byte '\n' := by
  have printed : ∀ {text : Text}, (∀ byte ∈ text, 0x20 ≤ byte.toNat ∧ byte.toNat ≤ 0x7E) →
      ∀ byte ∈ text, byte ≠ Text.byte '\n' := by
    rintro text each byte inside rfl
    exact absurd (each _ inside).1 (by decide)
  induction count generalizing cell latest with
  | zero => simp [rows]
  | succ count ih =>
    unfold rows
    split
    · exact ih _ _
    · next some =>
      intro row listed
      rcases List.mem_append.mp listed with commented | later
      · obtain ⟨line, known, rfl⟩ := comment_of_mem_comments commented
        intro byte inside
        rcases List.mem_append.mp inside with front | text
        · refine printed (fun other found => ?_) byte front
          have number := (Text.word_ofInt line.number).phrase.printed
          rcases List.mem_append.mp found with opened | stop
          · rcases List.mem_append.mp opened with start | digit
            · exact printed_separators "; " (by simp) other start
            · exact number other digit
          · exact printed_separators ": " (by simp) other stop
        · exact canonical.texts line known byte (Text.mem_of_mem_trim text)
      · rcases List.mem_cons.mp later with rfl | others
        · obtain ⟨instr, found⟩ := Option.isSome_iff_exists.mp
            (Option.isSome_iff_ne_none.mpr (by simpa using some))
          have there := Code.getElem?_of_instruction? found
          have defined := Code.defined_of_formed canonical.formed
            (by simpa using Array.mem_of_getElem? there)
          have words := word_operands distinguished mem canonical defined there
          obtain ⟨blanks, text⟩ := @cellText_eq prog piece prog.targets cell instr there
          have phrase := phrase_row defined words cell
          rw [text]
          refine printed fun other inside => ?_
          rcases List.mem_append.mp inside with blank | inner
          · rw [(List.mem_replicate.mp blank).2]
            decide
          · exact phrase.printed other inner
        · exact ih _ _ row others

/-- A listing is a text of lines: the name of the piece and its rows. -/
theorem ofPiece_eq (prog : Option Program) (targets : Array CallTarget) (piece : Piece) :
    ofPiece prog targets piece =
      Text.ofLines ((piece.name ++ ":") :: rows prog targets piece piece.size 0 none) := by
  have end' : Text.ofString ":\n" = Text.ofString ":" ++ Text.ofString "\n" := by decide
  rw [ofPiece, lines_eq_ofLines, Text.ofLines, Text.ofLines, List.flatMap_cons, end',
    List.append_assoc, List.append_assoc]
  simp

/-- The piece that was added last is replaced. -/
theorem modifyPiece_addPiece (prog : Program) (name : Text) (assembled : Piece) :
    (prog.addPiece name).1.modifyPiece prog.pieces.size (fun _ => assembled) =
      { prog with pieces := prog.pieces.push assembled } := by
  have replaced : ((prog.pieces.push { name }).modify prog.pieces.size fun _ => assembled) =
      prog.pieces.push assembled := by
    apply Array.ext_getElem?
    intro index
    rw [Array.getElem?_modify, Array.getElem?_push, Array.getElem?_push]
    split
    · next same => simp [← same]
    · next apart => simp [Ne.symm apart]
  simp [Program.addPiece, Program.modifyPiece, replaced]

/-- The listing of a piece with canonical code, assembled under a name that is not used yet, is a
piece with the same code. -/
theorem assemble_eq (distinguished : prog.Distinguished) (mem : piece ∈ prog.pieces)
    (canonical : piece.Canonical prog) (fresh : ∀ other ∈ prog.pieces, other.name ≠ name)
    (small : piece.size ≤ 2 ^ 63)
    (short : ∀ line ∈ Text.splitAt (Text.byte '\n') (ofPiece (some prog) prog.targets piece),
      line.length < lineBuffer) :
    ∃ assembled, prog.assemble name (ofPiece (some prog) prog.targets piece) =
        ({ prog with pieces := prog.pieces.push assembled }, prog.pieces.size, none) ∧
      assembled.name = name ∧ assembled.code = piece.code := by
  have identifier := distinguished.identifiers piece mem
  have header := identifier.word.colon
  have free : ∀ line ∈ (piece.name ++ ":") ::
      rows (some prog) prog.targets piece piece.size 0 none,
      ∀ byte ∈ line, byte ≠ Text.byte '\n' := by
    intro line listed
    rcases List.mem_cons.mp listed with rfl | row
    · exact header.ne (by decide : Text.isVisible (Text.byte '\n') = false)
    · exact free_rows distinguished mem canonical _ _ _ line row
  rw [ofPiece_eq, Text.splitAt_ofLines free] at short
  have lines := Text.lines_ofLines free fun line listed =>
    short line (List.mem_append_left _ listed)
  obtain ⟨assembled, extended, code, named⟩ := extend_rows distinguished mem canonical fresh small
    none 2 { name } (Nat.zero_add piece.size) canonical.formed (by simp)
  refine ⟨assembled, ?_, named, code⟩
  have first : Assembly.extend (prog.addPiece name).1 1
      ((((piece.name ++ ":") : Text) :: rows (some prog) prog.targets piece piece.size 0 none).map
        Text.dropReturn) { name } = (assembled, none) := by
    have kept : Text.dropReturn (piece.name ++ ":") = piece.name ++ ":" :=
      header.phrase.dropReturn_eq 0
    rw [List.map_cons, kept, Assembly.extend, line_header _ _ identifier]
    exact extended
  simp only [Program.assemble, ofPiece_eq, lines, first]
  exact Prod.ext (modifyPiece_addPiece prog name assembled) rfl

end Listing

end TinLang
