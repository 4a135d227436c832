import TinLang.Proofs.DepthChecks

/-!
# Offsets and sizes in immediates

An immediate keeps 32 bits of a number. The generator makes immediates of the offsets of members,
variables and parameters and of the sizes of types, and it does so without a check. When every place
of a program ends less than `2 ^ 31` bytes from where its offset counts, each such immediate stands
for the very number that was declared (`FunctionContext.Exact`): a member is read, written and
addressed where it lies, and no two members with different offsets get one address. A few dozen
declarations of structs are enough for an offset that an immediate does not keep.
-/
namespace TinLang

variable {type : ValueType} {name : Text} {offset number : Int}

/-- An immediate keeps the number. -/
def Encoded (number : Int) : Prop := -(2 ^ 31) ≤ number ∧ number < 2 ^ 31

theorem Encoded.toInt_ofInt (encoded : Encoded number) :
    (BitVec.ofInt 32 number).toInt = number := by
  obtain ⟨low, high⟩ := encoded
  rw [BitVec.toInt_ofInt, Int.bmod_eq_of_le (by omega) (by omega)]

/-- Numbers that immediates keep have different immediates. -/
theorem Encoded.inj {first second : Int} (encoded : Encoded first) (encoded' : Encoded second)
    (same : BitVec.ofInt 32 first = BitVec.ofInt 32 second) : first = second := by
  rw [← encoded.toInt_ofInt, ← encoded'.toInt_ofInt, same]

/-- The number that an immediate stands for. -/
def Cell.number? : Cell → Option Int
  | .immediate value => some value.toInt
  | .instruction _ => none

namespace Piece

/-- The numbers that the immediates of a piece stand for, in order. -/
def numbers (piece : Piece) : List Int := piece.code.toList.filterMap Cell.number?

variable {piece : Piece}

theorem numbers_push (piece : Piece) (cell : Cell) :
    (piece.push cell).numbers = piece.numbers ++ cell.number?.toList := by
  have code : (piece.push cell).code.toList = piece.code.toList ++ [cell] := Array.toList_push
  rw [numbers, code, List.filterMap_append]
  cases cell <;> rfl

/-- A pop adds no immediate, and a push that it cancels has none. -/
theorem numbers_emit (piece : Piece) (instr : Instruction) :
    (piece.emit instr).1.numbers = piece.numbers := by
  have plain : ∀ before : Piece, before.code = piece.code →
      (before.push (.instruction instr)).numbers = piece.numbers := fun before same => by
    rw [numbers_push, numbers, same]
    exact List.append_nil _
  unfold emit
  split
  · exact plain _ rfl
  · dsimp only
    split
    · next cancels =>
      have some : 0 < piece.size := by
        have free : piece.barrier < piece.size := by
          simp only [Piece.cancels, Bool.and_eq_true, decide_eq_true_eq] at cancels
          exact cancels.1
        omega
      obtain ⟨push, ends, -, -⟩ := back?_of_cancels cancels
      obtain ⟨last, ends', code⟩ := code_eq_push some
      obtain rfl := Option.some.inj (ends.symm.trans ends')
      have whole : piece.numbers = (piece.truncate (piece.size - 1)).numbers := by
        rw [numbers, code, Array.toList_push, List.filterMap_append]
        exact List.append_nil _
      exact whole.symm
    · exact plain _ rfl
  · exact plain _ rfl

theorem numbers_emitImmediate (piece : Piece) (instr : Instruction)
    (encoded : Encoded number) : (piece.emitImmediate instr (.ofInt 32 number)).1.numbers =
      piece.numbers ++ [number] := by
  have two : ∀ before : Piece, before.code = piece.code →
      ((before.push (.instruction instr)).push (.immediate (.ofInt 32 number))).numbers =
        piece.numbers ++ [number] := fun before same => by
    rw [numbers_push, numbers_push]
    show before.numbers ++ [] ++ [(BitVec.ofInt 32 number).toInt] = _
    rw [List.append_nil, encoded.toInt_ofInt, numbers, same]
    rfl
  unfold emitImmediate
  dsimp only
  split <;> exact two _ rfl

end Piece

namespace Generate

variable {α β : Type} {ctx : FunctionContext} {gen : Generator} {numbers : List Int}

/-- A step is done with a value, and the immediates that it adds stand for some numbers. -/
def Puts (ctx : FunctionContext) (gen : Generator) (step : Generate α) (value : α)
    (numbers : List Int) : Prop :=
  ∃ later, step ctx gen = .done (value, later) ∧
    later.piece.numbers = gen.piece.numbers ++ numbers

namespace Puts

theorem pure (value : α) : Puts ctx gen (pure value) value [] :=
  ⟨gen, rfl, (List.append_nil _).symm⟩

theorem bind {step : Generate α} {next : α → Generate β} {value : α} {result : β}
    {more : List Int} (first : Puts ctx gen step value numbers)
    (later : ∀ between, Puts ctx between (next value) result more) :
    Puts ctx gen (step >>= next) result (numbers ++ more) := by
  obtain ⟨between, done, one⟩ := first
  obtain ⟨last, done', two⟩ := later between
  exact ⟨last, bind_done.mpr ⟨value, between, done, done'⟩, by rw [two, one, List.append_assoc]⟩

/-- A step that adds no immediate, and what follows it. -/
theorem next {step : Generate α} {next : α → Generate β} {value : α} {result : β}
    (first : Puts ctx gen step value [])
    (later : ∀ between, Puts ctx between (next value) result numbers) :
    Puts ctx gen (step >>= next) result numbers :=
  first.bind later

/-- A step behind which no immediate follows. -/
theorem last {step : Generate α} {next : α → Generate β} {value : α} {result : β}
    (first : Puts ctx gen step value numbers)
    (later : ∀ between, Puts ctx between (next value) result []) :
    Puts ctx gen (step >>= next) result numbers := by
  simpa using first.bind later

/-- Looking at the environment puts nothing. -/
theorem environment {next : Environment → Generate β} {result : β}
    (later : Puts ctx gen (next ctx.environment) result numbers) :
    Puts ctx gen (environment >>= next) result numbers := later

end Puts

/-- An instruction without an immediate puts none. -/
theorem puts_emit (op : Opcode) (first second : Register) (modifier : UInt8) :
    Puts ctx gen (emit op first second modifier) () [] :=
  ⟨_, rfl, (Piece.numbers_emit _ _).trans (List.append_nil _).symm⟩

/-- A push puts no immediate. -/
theorem puts_push (reg : Register) : Puts ctx gen (push reg) () [] :=
  ⟨_, rfl, (Piece.numbers_emit _ _).trans (List.append_nil _).symm⟩

/-- A pop puts no immediate. -/
theorem puts_pop (reg : Register) : Puts ctx gen (pop reg) () [] :=
  ⟨_, rfl, (Piece.numbers_emit _ _).trans (List.append_nil _).symm⟩

/-- A number that can be encoded is put as it is. -/
theorem puts_emitNumber (op : Opcode) (first second : Register) (modifier : UInt8)
    (encoded : Encoded number) :
    Puts ctx gen (emitNumber op first second modifier number) () [number] :=
  ⟨_, rfl, Piece.numbers_emitImmediate _ _ encoded⟩

/-- Pushing slots puts their offsets. -/
theorem puts_pushSlots (base : Register) {slots : List Slot}
    (encoded : ∀ slot ∈ slots, Encoded slot.offset) :
    Puts ctx gen (pushSlots base slots) () (slots.map Slot.offset) := by
  induction slots generalizing gen with
  | nil => exact .pure ()
  | cons slot slots ih =>
    exact (puts_emitNumber _ _ _ _ (encoded slot List.mem_cons_self)).bind fun _ =>
      (puts_push _).next fun _ => ih fun other mem => encoded other (List.mem_cons_of_mem _ mem)

/-- Popping slots puts their offsets. -/
theorem puts_popSlots (base : Register) {slots : List Slot}
    (encoded : ∀ slot ∈ slots, Encoded slot.offset) :
    Puts ctx gen (popSlots base slots) () (slots.map Slot.offset) := by
  induction slots generalizing gen with
  | nil => exact .pure ()
  | cons slot slots ih =>
    exact (puts_pop _).next fun _ =>
      (puts_emitNumber _ _ _ _ (encoded slot List.mem_cons_self)).bind fun _ =>
      ih fun other mem => encoded other (List.mem_cons_of_mem _ mem)

end Generate

namespace Environment

variable {env : Environment}

/-- Every place of a program ends less than `2 ^ 31` bytes from where its offset counts. -/
structure Addressed (env : Environment) : Prop where
  sizes : ∀ struct ∈ env.structs, struct.size < 2 ^ 31
  members : ∀ struct ∈ env.structs, ∀ mem ∈ struct.members,
    mem.offset + env.structs.sizeOf mem.type < 2 ^ 31
  params : ∀ function ∈ env.functions, ∀ parameter ∈ function.params,
    16 + parameter.offset + env.sizeOf parameter.type < 2 ^ 31
  globals : ∀ place ∈ env.globals,
    place.offset + env.structs.sizeOf place.type < 2 ^ 31

/-- A size fits an immediate. -/
theorem Addressed.sizeOf_lt (addressed : env.Addressed) (type : ValueType) :
    env.structs.sizeOf type < 2 ^ 31 := by
  obtain ⟨base, pointer⟩ := type
  unfold StructTable.sizeOf
  split
  all_goals try omega
  next name _ =>
    rw [StructTable.get]
    cases found : env.structs.get? name with
    | none => exact Nat.two_pow_pos 31
    | some struct => exact addressed.sizes struct (List.mem_of_find?_eq_some found)

/-- A member ends less than `2 ^ 31` bytes from the start of its struct. -/
theorem Addressed.member (addressed : env.Addressed) {struct : Text} {mem : Member}
    (found : (env.structs.get struct).member? name = some mem) :
    mem.offset + env.structs.sizeOf mem.type < 2 ^ 31 := by
  have inside := List.mem_of_find?_eq_some found
  rw [StructTable.get] at inside
  cases known : env.structs.get? struct with
  | none => simp [known] at inside
  | some type =>
    rw [known] at inside
    exact addressed.members type (List.mem_of_find?_eq_some known) mem inside

end Environment

/-- In the code of a function every declared offset and size is the number of an immediate, and no
immediate made of one stands for another number. -/
structure FunctionContext.Exact (ctx : FunctionContext) : Prop where
  /-- The function is entered, its statements are generated and its expressions are evaluated in
  balanced generators, in which all names are known. -/
  begins : ∀ name file, Generate.Ends ctx
    (Generate.declareParameters ctx.function ctx.function.params)
    { piece := { name }, file, scopes := [[]] } fun _ later => later.Balanced ctx 0 {}
  runs : ∀ body hand (gen : Generator), gen.Balanced ctx 0 hand →
    (ctx.environment.room body : Int) < 2 ^ 31 + gen.frame →
    Generate.Ends ctx (Generate.statement body) gen fun _ later =>
      later.Balanced ctx 0 hand
  evaluates : ∀ value bytes hand (gen : Generator), gen.Balanced ctx bytes hand →
    Generate.Ends ctx (Generate.expr value) gen fun _ later =>
      ∃ more, later.Balanced ctx more hand
  /-- A variable or parameter is read, and its address taken, where it is declared. -/
  locals : ∀ bytes hand (gen : Generator), gen.Balanced ctx bytes hand →
    ∀ span name type offset,
      Generate.meaningIn ctx.environment gen.scopes name = .variable type offset →
      ∃ known, type = some known ∧
        Generate.Puts ctx gen (Generate.nameValue span name) type
          (((ctx.environment.structs.shapeOf known).slots offset).map Slot.offset) ∧
        Generate.Puts ctx gen (Generate.nameAddress span name) type [offset]
  /-- So is a global variable, and it is given its initial value there. -/
  globals : ∀ (gen : Generator) span name place,
    Generate.meaningIn ctx.environment gen.scopes name = .global place →
      Generate.Puts ctx gen (Generate.nameValue span name) (some place.type)
        (place.offset ::
          ((ctx.environment.structs.shapeOf place.type).slots 0).map Slot.offset) ∧
      Generate.Puts ctx gen (Generate.nameAddress span name) (some place.type)
        [(place.offset : Int)]
  initial : ∀ gen, ∀ place ∈ ctx.environment.globals,
    Generate.Puts ctx gen (do
      Generate.setDataAddress .b place.offset
      Generate.popTo .b 0 (some place.type)) () (place.offset ::
        ((ctx.environment.structs.shapeOf place.type).slots 0).reverse.map Slot.offset)
  /-- A local variable is stored where it is declared. -/
  stores : ∀ gen (offset : Int) type, -(2 ^ 31) < offset → offset ≤ 0 →
    Generate.Puts ctx gen (Generate.popTo .basePointer offset (some type)) ()
      (((ctx.environment.structs.shapeOf type).slots offset).reverse.map Slot.offset)
  clears : ∀ gen (offset : Int) (size : Nat), -(2 ^ 31) < offset → offset + size ≤ 0 →
    Generate.Puts ctx gen (Generate.clearLocal offset size) () [offset, (size : Int)]
  /-- A caller stores arguments as far above the bytes that it has pushed as they are declared. -/
  arguments : ∀ (gen : Generator) (pushed : Nat) (places : List (ValueType × Nat)),
    (∀ place ∈ places, pushed + place.2 + ctx.environment.structs.sizeOf place.1 < 2 ^ 31) →
    Generate.Puts ctx gen
      (Generate.popArguments pushed (places.map fun place => (some place.1, place.2))) ()
      (places.flatMap fun place => ((ctx.environment.structs.shapeOf place.1).slots
        (pushed + place.2)).reverse.map Slot.offset)
  /-- The address of a member is that of its struct moved by its offset; through a pointer its value
  is read there. -/
  members : ∀ gen span struct name mem,
    (ctx.environment.structs.get struct).member? name = some mem →
      Generate.Puts ctx gen
        (Generate.memberAddress span name (some ⟨.struct struct, 0⟩)) (some mem.type)
        (if mem.offset ≠ 0 then [(mem.offset : Int)] else []) ∧
      ∀ type : ValueType, type.pointedStruct? = some struct →
        Generate.Puts ctx gen (Generate.memberOfValue span name (some type))
          (some mem.type)
          (((ctx.environment.structs.shapeOf mem.type).slots mem.offset).map Slot.offset)
  /-- Members with different offsets are moved to by different immediates. -/
  apart : ∀ struct name name' mem member',
    (ctx.environment.structs.get struct).member? name = some mem →
    (ctx.environment.structs.get struct).member? name' = some member' →
    BitVec.ofInt 32 mem.offset = BitVec.ofInt 32 member'.offset → mem.offset = member'.offset
  /-- An index, and an integer added to a pointer, count elements of the size of their type. -/
  elements : ∀ gen objectSpan indexSpan (pointer position : ValueType),
    pointer.isPointer → pointer ≠ .voidPointer → position.isIntegral →
    Generate.Puts ctx gen
      (Generate.elementAddress objectSpan indexSpan (some pointer) (some position))
      (some pointer.element) [(ctx.environment.structs.sizeOf pointer.element : Int)]
  strides : ∀ gen span op (pointer distance : ValueType), op = .add ∨ op = .sub →
    pointer.isPointer → pointer ≠ .voidPointer → distance.isIntegral →
    Generate.Puts ctx gen (Generate.pointerOperation span op pointer distance)
      (some pointer) [(ctx.environment.structs.sizeOf pointer.element : Int)]
  sizes : ∀ gen span written type, ctx.environment.resolve? written = some type →
    Generate.Puts ctx gen (Generate.expr (.sizeof span written)) (some .int)
      [(ctx.environment.structs.sizeOf type : Int)]

namespace Generate

variable {ctx : FunctionContext} {gen : Generator}

/-- The scalars of a value lie inside its bytes. -/
theorem encoded_slots (fits : (ctx.environment.structs.shapeOf type).Fits
      (ctx.environment.structs.sizeOf type))
    (low : -(2 ^ 31) ≤ offset) (high : offset + ctx.environment.structs.sizeOf type < 2 ^ 31) :
    ∀ slot ∈ (ctx.environment.structs.shapeOf type).slots offset, Encoded slot.offset := by
  intro slot mem
  have inside := (fits offset).mem mem
  exact ⟨by omega, by omega⟩

theorem puts_pushFrom (fits : (ctx.environment.structs.shapeOf type).Fits
      (ctx.environment.structs.sizeOf type)) (base : Register)
    (low : -(2 ^ 31) ≤ offset)
    (high : offset + ctx.environment.structs.sizeOf type < 2 ^ 31) :
    Puts ctx gen (pushFrom base offset (some type)) ()
      (((ctx.environment.structs.shapeOf type).slots offset).map Slot.offset) :=
  .environment (puts_pushSlots base (encoded_slots fits low high))

theorem puts_popTo (fits : (ctx.environment.structs.shapeOf type).Fits
      (ctx.environment.structs.sizeOf type)) (base : Register)
    (low : -(2 ^ 31) ≤ offset)
    (high : offset + ctx.environment.structs.sizeOf type < 2 ^ 31) :
    Puts ctx gen (popTo base offset (some type)) ()
      (((ctx.environment.structs.shapeOf type).slots offset).reverse.map Slot.offset) :=
  .environment (puts_popSlots base fun slot mem =>
    encoded_slots fits low high slot (List.mem_reverse.mp mem))

/-- What a name stands for is looked up without code. -/
theorem Puts.meaning {α : Type} {next : Meaning → Generate α} {result : α} {numbers : List Int}
    {found : Meaning}
    (known : meaningIn ctx.environment gen.scopes name = found)
    (later : Puts ctx gen (next found) result numbers) :
    Puts ctx gen (Generate.meaning name >>= next) result numbers := by
  obtain ⟨last, done, added⟩ := later
  exact ⟨last, bind_done.mpr ⟨found, gen, by rw [meaning_eq, known], done⟩, added⟩

variable (addressed : ctx.environment.Addressed)

theorem encoded_of_lt {number : Nat} (small : number < 2 ^ 31) : Encoded number :=
  ⟨by omega, by omega⟩

include addressed in
theorem puts_sizeOf (reg : Register) (type : ValueType) :
    Puts ctx gen (setNumber reg (ctx.environment.structs.sizeOf type)) ()
      [(ctx.environment.structs.sizeOf type : Int)] :=
  puts_emitNumber _ _ _ _ (encoded_of_lt (addressed.sizeOf_lt type))

include addressed in
theorem puts_member (fits : ∀ type, (ctx.environment.structs.shapeOf type).Fits
      (ctx.environment.structs.sizeOf type)) (span : Span) {struct : Text}
    {mem : Member}
    (found : (ctx.environment.structs.get struct).member? name = some mem) :
    Puts ctx gen (memberAddress span name (some ⟨.struct struct, 0⟩)) (some mem.type)
      (if mem.offset ≠ 0 then [(mem.offset : Int)] else []) ∧
    ∀ type : ValueType, type.pointedStruct? = some struct →
      Puts ctx gen (memberOfValue span name (some type)) (some mem.type)
        (((ctx.environment.structs.shapeOf mem.type).slots mem.offset).map
          Slot.offset) := by
  have small := addressed.member found
  refine ⟨?_, fun type pointed => ?_⟩
  · unfold memberAddress
    dsimp only [ValueType.structName?]
    refine .environment ?_
    rw [found]
    dsimp only
    split
    · exact (puts_pop _).next fun _ => (puts_emitNumber _ _ _ _ (encoded_of_lt (by omega))).last
        fun _ => (puts_push _).next fun _ => .pure _
    · exact .pure _
  · refine .environment ?_
    dsimp only
    rw [pointed]
    dsimp only
    rw [found]
    exact (puts_pop _).next fun _ => (puts_pushFrom (fits _) _ (by omega) (by omega)).last
      fun _ => .pure _

include addressed in
/-- A variable of the frame or a parameter lies where an immediate reaches. -/
theorem reaches_of_known (listed : ctx.function ∈ ctx.environment.functions)
    {type : Option ValueType}
    (known : (LocalMeaning.variable type offset).Known ctx) :
    ∃ found, type = some found ∧ -(2 ^ 31) ≤ offset ∧
      offset + ctx.environment.structs.sizeOf found < 2 ^ 31 := by
  obtain ⟨⟨found, rfl, -⟩, ⟨low, high⟩ | ⟨parameter, mem, same, rfl⟩⟩ := known
  · have small := addressed.sizeOf_lt found
    exact ⟨found, rfl, by omega, by omega⟩
  · have small := addressed.params _ listed parameter mem
    rw [← same] at small
    have size : ctx.environment.sizeOf (some found) = ctx.environment.structs.sizeOf found :=
      rfl
    exact ⟨found, rfl, by omega, by omega⟩

/-- A variable that a balanced generator knows is a place. -/
theorem known_of_meaningIn {bytes : Nat} {hand : Hand} {type : Option ValueType}
    (balanced : gen.Balanced ctx bytes hand)
    (found : meaningIn ctx.environment gen.scopes name = .variable type offset) :
    (LocalMeaning.variable type offset).Known ctx := by
  unfold meaningIn at found
  split at found
  · next there =>
    obtain ⟨rfl, rfl⟩ := Meaning.variable.inj found
    obtain ⟨scope, mem, declared⟩ := List.exists_of_findSome?_eq_some there
    exact balanced.scopes scope mem _ (mem_of_lookup declared)
  · contradiction
  · split at found <;> contradiction

theorem global_of_meaningIn {scopes : List Scope} {place : Global}
    (found : meaningIn ctx.environment scopes name = .global place) :
    place ∈ ctx.environment.globals := by
  unfold meaningIn at found
  split at found
  · contradiction
  · contradiction
  · split at found
    · next there =>
      obtain rfl := Meaning.global.inj found
      exact List.mem_of_find?_eq_some there
    · contradiction
    · contradiction

include addressed in
theorem puts_elementAddress (objectSpan indexSpan : Span) {pointer position : ValueType}
    (points : pointer.isPointer) (whole : pointer ≠ .voidPointer) (counts : position.isIntegral) :
    Puts ctx gen
      (elementAddress objectSpan indexSpan (some pointer) (some position)) (some pointer.element)
      [(ctx.environment.structs.sizeOf pointer.element : Int)] := by
  unfold elementAddress
  dsimp only
  rw [if_neg (by simp [points, whole]), if_neg (by simp [counts])]
  exact (puts_pop _).next fun _ => (puts_pop _).next fun _ => .environment
    ((puts_sizeOf addressed _ _).last fun _ => (puts_emit _ _ _ _).next fun _ =>
      (puts_emit _ _ _ _).next fun _ => (puts_push _).next fun _ => .pure _)

include addressed in
theorem puts_pointerOperation (span : Span) {op : BinaryOp} (moves : op = .add ∨ op = .sub)
    {pointer distance : ValueType} (points : pointer.isPointer) (whole : pointer ≠ .voidPointer)
    (counts : distance.isIntegral) :
    Puts ctx gen (pointerOperation span op pointer distance) (some pointer)
      [(ctx.environment.structs.sizeOf pointer.element : Int)] := by
  have other : ¬ (op = .equal ∨ op = .notEqual) := by rcases moves with rfl | rfl <;> simp
  unfold pointerOperation
  dsimp only
  rw [if_neg fun both => other both.1, if_pos ⟨moves, points, counts, whole⟩]
  exact .environment ((puts_sizeOf addressed _ _).last fun _ => (puts_emit _ _ _ _).next fun _ =>
    (puts_emit _ _ _ _).next fun _ => (puts_push _).next fun _ => .pure _)

include addressed in
theorem puts_sizeof (span : Span) {written : TypeExpr}
    (named : ctx.environment.resolve? written = some type) :
    Puts ctx gen (expr (.sizeof span written)) (some .int)
      [(ctx.environment.structs.sizeOf type : Int)] := by
  have resolved : Puts ctx gen (writtenType written) (some type) [] := by
    refine .environment ?_
    rw [named]
    exact .pure _
  have number : ∀ later, Puts ctx later (pushNumber (ctx.environment.structs.sizeOf type)) ()
      [(ctx.environment.structs.sizeOf type : Int)] := fun _ =>
    (puts_sizeOf addressed _ _).last fun _ => puts_push _
  unfold expr
  exact resolved.next fun later => .environment ((number later).last fun _ => .pure _)

end Generate

open Generate in
/-- The generator of a function in a settled program makes exact immediates, when all places are
within their reach. -/
theorem FunctionContext.Measured.exact {ctx : FunctionContext} (measured : ctx.Measured)
    (fits : ∀ type, (ctx.environment.structs.shapeOf type).Fits
      (ctx.environment.structs.sizeOf type)) (addressed : ctx.environment.Addressed)
    (listed : ctx.function ∈ ctx.environment.functions) : ctx.Exact where
  begins name file := by
    have start : Generator.Balanced ctx 0 {} { piece := { name }, file, scopes := [[]] } :=
      ⟨rfl, Int.le_refl 0, by simp, by simp,
        .inr ⟨rfl, fun _ => 0, Piece.levelled_empty name, by simp [Generator.starts]⟩⟩
    exact (ends_declareParameters _ (fun _ => id) measured.sound.own start).mono
      fun _ _ declared => declared.1.balanced
  runs body hand gen balanced room :=
    (runs_statement measured body hand gen balanced room).mono
      fun _ _ ⟨_, settles, _⟩ => settles.balanced
  evaluates value bytes hand gen balanced :=
    (((turns_expr measured value).under bytes).ends balanced).mono
      fun _ _ ⟨kept, _⟩ => ⟨_, kept⟩
  locals bytes hand gen balanced span name type offset found := by
    obtain ⟨known, rfl, low, high⟩ := reaches_of_known addressed listed
      (known_of_meaningIn balanced found)
    refine ⟨known, rfl, .meaning found ?_, .meaning found ?_⟩
    · exact (puts_pushFrom (fits _) _ low high).last fun _ => .pure _
    · exact (puts_emit _ _ _ _).next fun _ => (puts_emitNumber _ _ _ _ ⟨low, by omega⟩).last
        fun _ => (puts_push _).next fun _ => .pure _
  globals gen span name place found := by
    have small := addressed.globals place (global_of_meaningIn found)
    refine ⟨.meaning found ?_, .meaning found ?_⟩
    · exact (puts_emitNumber _ _ _ _ (encoded_of_lt (by omega))).bind fun _ =>
        (puts_pushFrom (fits _) _ (by omega) (by omega)).last fun _ => .pure _
    · exact (puts_emitNumber _ _ _ _ (encoded_of_lt (by omega))).last fun _ =>
        (puts_push _).next fun _ => .pure _
  initial gen place mem := by
    have small := addressed.globals place mem
    exact (puts_emitNumber _ _ _ _ (encoded_of_lt (by omega))).bind fun _ =>
      puts_popTo (fits _) _ (by omega) (by omega)
  stores gen offset type low high := by
    have small := addressed.sizeOf_lt type
    exact puts_popTo (fits _) _ (by omega) (by omega)
  clears gen offset size low high :=
    (puts_emit _ _ _ _).next fun _ => (puts_emitNumber _ _ _ _ ⟨by omega, by omega⟩).bind fun _ =>
      (puts_emitNumber _ _ _ _ ⟨by omega, by omega⟩).last fun _ => puts_emit _ _ _ _
  arguments gen pushed places small := by
    induction places generalizing gen with
    | nil => exact .pure ()
    | cons place places ih =>
      have first := small place List.mem_cons_self
      exact (puts_popTo (fits _) _ (by omega) (by omega)).bind fun _ =>
        ih _ fun other mem => small other (List.mem_cons_of_mem _ mem)
  members gen span struct name mem found := puts_member addressed fits span found
  apart struct name name' mem member' found found' same := by
    have small := addressed.member found
    have small' := addressed.member found'
    exact Int.ofNat_inj.mp (Encoded.inj (encoded_of_lt (by omega)) (encoded_of_lt (by omega)) same)
  elements gen objectSpan indexSpan pointer position points whole counts :=
    puts_elementAddress addressed objectSpan indexSpan points whole counts
  strides gen span op pointer distance moves points whole counts :=
    puts_pointerOperation addressed span moves points whole counts
  sizes gen span written type named := puts_sizeof addressed span named

namespace Build

/-- In a program that is built, and whose places end less than `2 ^ 31` bytes from where their
offsets count, the immediates of every function stand for the declared offsets and sizes. -/
theorem exact_of_addressed {sources : List Source} (built : (ofSources sources).failure = none)
    (fits : (Checker.ofFiles (filesOf sources)).environment.Fits)
    (addressed : (Checker.ofFiles (filesOf sources)).environment.Addressed) {function : Function}
    (listed : function ∈ (Checker.ofFiles (filesOf sources)).environment.functions) :
    FunctionContext.Exact ⟨(Checker.ofFiles (filesOf sources)).environment, function⟩ :=
  FunctionContext.Measured.exact (measured_of_built built fits listed)
    (fun type => ((Checker.settled_ofFiles (clean_of_built built)).1.fits
      (Nat.lt_trans (fits.bytesOf_lt (some type)) (by decide))).1) addressed listed

/-- A source with a struct, a global variable of it, and a function that reads a parameter, an
element and a member through a pointer. -/
def pairing : List Source :=
  [⟨"pairing.tin", "struct Pair \x7b tag: char; next: Pair*; \x7d\nglobal head: Pair;\n" ++
    "fun second(p: Pair*): char \x7b other: Pair; other = p[1]; return other.next.tag; \x7d\n" ++
    "fun main(): int \x7b return cast<int>(second(&head)) + sizeof(Pair); \x7d\n"⟩]

theorem exact_of_addressed_pairing : (ofSources pairing).failure = none ∧
    (Checker.ofFiles (filesOf pairing)).environment.Fits ∧
    (Checker.ofFiles (filesOf pairing)).environment.Addressed ∧
    ∃ function, (Checker.ofFiles (filesOf pairing)).environment.functions[0]? = some function ∧
      FunctionContext.Exact ⟨(Checker.ofFiles (filesOf pairing)).environment, function⟩ := by
  have known : (ofSources pairing).failure = none ∧
      (∀ struct ∈ (Checker.ofFiles (filesOf pairing)).environment.structs,
        wordSize * struct.shape.leaves < 2 ^ 31 ∧ struct.size < 2 ^ 31 ∧
        ∀ mem ∈ struct.members, mem.offset +
          (Checker.ofFiles (filesOf pairing)).environment.structs.sizeOf mem.type < 2 ^ 31) ∧
      (∀ function ∈ (Checker.ofFiles (filesOf pairing)).environment.functions,
        function.block < 2 ^ 31 ∧
        (Checker.ofFiles (filesOf pairing)).environment.bytesOf (some function.result) +
          function.block ≤ 2 ^ 31 ∧
        ∀ parameter ∈ function.params, 16 + parameter.offset +
          (Checker.ofFiles (filesOf pairing)).environment.sizeOf parameter.type < 2 ^ 31) ∧
      (∀ place ∈ (Checker.ofFiles (filesOf pairing)).environment.globals, place.offset +
        (Checker.ofFiles (filesOf pairing)).environment.structs.sizeOf place.type < 2 ^ 31) ∧
      (Checker.ofFiles (filesOf pairing)).environment.functions.length = 2 := by decide +kernel
  obtain ⟨built, structs, blocks, globals, functions⟩ := known
  have fits : (Checker.ofFiles (filesOf pairing)).environment.Fits :=
    ⟨fun struct mem => (structs struct mem).1, fun function mem => (blocks function mem).1,
      fun _ function mem => (blocks function mem).2.1⟩
  have addressed : (Checker.ofFiles (filesOf pairing)).environment.Addressed :=
    ⟨fun struct mem => (structs struct mem).2.1, fun struct mem => (structs struct mem).2.2,
      fun function mem => (blocks function mem).2.2, globals⟩
  have declared := List.getElem?_eq_getElem (Nat.lt_of_lt_of_eq Nat.zero_lt_two functions.symm)
  exact ⟨built, fits, addressed, _, declared,
    exact_of_addressed built fits addressed (List.mem_of_getElem? declared)⟩

/-- Structs of two members each, the first two pointers, every other one two of the struct before.
-/
def doublings : Nat → Text
  | 0 => "struct A0 \x7b x: char*; y: char*; \x7d\n"
  | count + 1 => doublings count ++ ("struct A" : Text) ++ Text.ofNat (count + 1) ++
    (" \x7b x: A" : Text) ++ Text.ofNat count ++ ("; y: A" : Text) ++ Text.ofNat count ++
    ("; \x7d\n" : Text)

/-- The structs of `doublings` before a text, whose front is at hand however many there are. -/
def doublingsBefore : Nat → Text → Text
  | 0, rest => ("struct A0 \x7b x: char*; y: char*; \x7d\n" : Text) ++ rest
  | count + 1, rest => doublingsBefore count (("struct A" : Text) ++ (Text.ofNat (count + 1) ++
    ((" \x7b x: A" : Text) ++ (Text.ofNat count ++ (("; y: A" : Text) ++ (Text.ofNat count ++
    (("; \x7d\n" : Text) ++ rest)))))))

theorem doublings_append (count : Nat) (rest : Text) :
    doublings count ++ rest = doublingsBefore count rest := by
  induction count generalizing rest with
  | zero => rfl
  | succ count ih => simp only [doublings, doublingsBefore, ← ih, List.append_assoc]

/-- A source that compares the addresses of two members which lie `2 ^ 32` bytes apart. -/
def distant : List Source :=
  [⟨"distant.tin", doublings 29 ++
    ("fun main(): int \x7b p: A29*; if &p.x == &p.y \x7b return 1; \x7d return 0; \x7d\n" : Text)⟩]

/-- The source is built without a diagnostic, and its code moves by zero to the second member. -/
theorem inexact_distant : (ofSources distant).diagnostics = [] ∧
    (ofSources distant).failure = none ∧
    (((Checker.ofFiles (filesOf distant)).environment.structs.get "A29").members.map fun mem =>
      (mem.name, mem.offset)) = [(("x" : Text), 0), (("y" : Text), 2 ^ 32)] ∧
    BitVec.ofInt 32 (2 ^ 32) = BitVec.ofInt 32 0 ∧
    ∃ piece, (ofSources distant).program.pieces[0]? = some piece ∧
      piece.numbers = [-8, -8, 8, -8, 0, -8, 0, 0, 6, 1, 8, 0, 8] ∧ 2 ^ 32 ∉ piece.numbers := by
  have known : (ofSources distant).diagnostics = [] ∧ (ofSources distant).failure = none ∧
      (((Checker.ofFiles (filesOf distant)).environment.structs.get "A29").members.map fun mem =>
        (mem.name, mem.offset)) = [(("x" : Text), 0), (("y" : Text), 2 ^ 32)] ∧
      (ofSources distant).program.pieces[0]?.map Piece.numbers =
        some [-8, -8, 8, -8, 0, -8, 0, 0, 6, 1, 8, 0, 8] := by
    rw [distant, doublings_append]
    decide +kernel
  obtain ⟨clean, built, members, code⟩ := known
  obtain ⟨piece, linked, numbers⟩ := Option.map_eq_some_iff.mp code
  exact ⟨clean, built, members, by decide, piece, linked, numbers, by rw [numbers]; decide⟩

end Build

end TinLang
