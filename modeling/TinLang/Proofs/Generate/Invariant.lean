import TinLang.Compile.Generator
import TinLang.Proofs.Listing
import TinLang.Proofs.Parse
import TinLang.Proofs.Piece
import TinLang.Proofs.Types

/-!
# What a generator keeps

While the code of a function is generated, its piece stays sound, problems are reported only at
places of the function and strings are stored only when the program holds them. When the
declarations have types of places, a listing also shows all there is in the instructions: the fields
that are not shown are unused, and memory is accessed in the sizes that have a name; and the
generator of an expression returns no type only when it has reported a problem.
`Generate.Keeps` states this of one step of a generator, for whatever offsets the strings get; the
steps of a function keep it because the parts they are made of do.
-/
namespace TinLang

variable {type : Option ValueType} {op : Opcode} {first second base : Register} {modifier : UInt8}
    {span : Span}

theorem Task.andThen_assoc {α β γ : Type} (task : Task α) (next : α → Task β) (last : β → Task γ) :
    (task.andThen next).andThen last = task.andThen fun value => (next value).andThen last := by
  induction task with
  | done result => rfl
  | report diagnostic rest ih => exact congrArg _ ih
  | intern text rest ih => exact congrArg _ (funext ih)

/-- What a task does, whatever offsets its strings get: every diagnostic, every stored string and
the result satisfy their conditions. Past a report this is so only where it is followed further. -/
inductive Task.Tracks {α : Type} (past : Prop) (reports : Diagnostic → Prop) (stores : Text → Prop)
    (yields : α → Prop) : Task α → Prop where
  | done {result : α} (yielded : yields result) : Tracks past reports stores yields (.done result)
  | report {diagnostic : Diagnostic} {rest : Task α} (reported : reports diagnostic)
    (later : past → Tracks past reports stores yields rest) :
    Tracks past reports stores yields (.report diagnostic rest)
  | intern {text : Text} {rest : Int → Task α} (stored : stores text)
    (later : ∀ offset, Tracks past reports stores yields (rest offset)) :
    Tracks past reports stores yields (.intern text rest)

/-- What a task does to its end. -/
abbrev Task.Does {α : Type} (reports : Diagnostic → Prop) (stores : Text → Prop)
    (yields : α → Prop) (task : Task α) : Prop :=
  task.Tracks True reports stores yields

namespace Task.Tracks

variable {α β : Type} {past : Prop} {reports : Diagnostic → Prop} {stores : Text → Prop}

theorem mono {yields wanted : α → Prop} {task : Task α}
    (tracks : Tracks past reports stores yields task)
    (weaker : ∀ result, yields result → wanted result) :
    Tracks past reports stores wanted task := by
  induction tracks with
  | done yielded => exact .done (weaker _ yielded)
  | report reported _ ih => exact .report reported ih
  | intern stored _ ih => exact .intern stored ih

/-- One task after another. -/
theorem andThen {yields : α → Prop} {wanted : β → Prop} {task : Task α} {next : α → Task β}
    (tracks : Tracks past reports stores yields task)
    (later : ∀ result, yields result → Tracks past reports stores wanted (next result)) :
    Tracks past reports stores wanted (task.andThen next) := by
  induction tracks with
  | done yielded => exact later _ yielded
  | report reported _ ih => exact .report reported ih
  | intern stored _ ih => exact .intern stored ih

/-- A task that stores some strings stores strings that are held where these are. -/
theorem storing {yields : α → Prop} {held : Text → Prop} {task : Task α}
    (does : task.Does reports stores yields) (known : ∀ text, stores text → held text) :
    task.Does (fun _ => True) held (fun _ => True) := by
  induction does with
  | done => exact .done trivial
  | report _ _ ih => exact .report trivial ih
  | intern stored _ ih => exact .intern (known _ stored) ih

end Task.Tracks

/-- If a task reports nothing, its result satisfies a condition, whatever offsets its strings
get. -/
def Task.Finds {α : Type} (finds : α → Prop) : Task α → Prop
  | .done result => finds result
  | .report _ _ => True
  | .intern _ rest => ∀ offset, (rest offset).Finds finds

namespace Task.Finds

variable {α β : Type}

theorem of_tracks {past : Prop} {reports : Diagnostic → Prop} {stores : Text → Prop}
    {finds : α → Prop} {task : Task α} (tracks : task.Tracks past reports stores finds) :
    task.Finds finds := by
  induction tracks with
  | done yielded => exact yielded
  | report => trivial
  | intern _ _ ih => exact ih

theorem mono {finds wanted : α → Prop} {task : Task α} (found : task.Finds finds)
    (weaker : ∀ result, finds result → wanted result) : task.Finds wanted := by
  induction task with
  | done result => exact weaker result found
  | report => trivial
  | intern text rest ih => exact fun offset => ih offset (found offset)

theorem andThen {finds : α → Prop} {wanted : β → Prop} {task : Task α} {next : α → Task β}
    (found : task.Finds finds) (later : ∀ result, finds result → (next result).Finds wanted) :
    (task.andThen next).Finds wanted := by
  induction task with
  | done result => exact later result found
  | report => trivial
  | intern text rest ih => exact fun offset => ih offset (found offset)

end Task.Finds

/-- The declarations around a function have types of places, and constants are literals. -/
structure FunctionContext.Sound (ctx : FunctionContext) : Prop where
  structs : ctx.environment.structs.Sound
  globals : ∀ global ∈ ctx.environment.globals, global.type ≠ .void
  params : ∀ function ∈ ctx.environment.functions,
    ∀ parameter ∈ function.params, Placed parameter.type
  own : ∀ parameter ∈ ctx.function.params, Placed parameter.type
  constants : ∀ constant ∈ ctx.environment.constants, constant.value.literalType?.isSome

/-- A cell of a piece that a generator comes back to. -/
inductive Mark where
  /-- The immediate of a jump that is not fixed yet. -/
  | jump (cell : Nat)
  /-- A label that a jump leads back to. -/
  | label (cell : Nat)

/-- The jump can be fixed, or the label is there. -/
def Piece.Marked (piece : Piece) : Mark → Prop
  | .jump cell => piece.JumpAt cell
  | .label cell => cell ≤ piece.barrier

theorem Piece.Extends.marked {functions : Nat} {emitted : Instruction → Prop} {piece later : Piece}
    (extends' : Extends functions emitted piece later) (sound : piece.Sound functions) {mark : Mark}
    (marked : piece.Marked mark) : later.Marked mark := by
  cases mark with
  | jump cell => exact extends'.jumps cell marked
  | label cell => exact Nat.le_trans marked (extends'.labels sound)

/-- The start of a loop and the jumps out of it. -/
def LoopFrame.marks (loop : LoopFrame) : List Mark := .label loop.start :: loop.exits.map .jump

/-- The surroundings of a function while its code is generated. -/
structure Ground where
  /-- The function and the declarations of the program. -/
  context : FunctionContext
  /-- The places of a file where problems of the function are reported. -/
  places : Text → Position → Prop
  /-- The strings that the program holds. -/
  texts : Text → Prop
  /-- The piece that is followed: its rows are kept from there on. -/
  since : Piece
  /-- The generator is followed past the problems that it reports. -/
  past : Prop
  /-- The declarations have types of places. -/
  typed : Prop
  sound : typed → context.Sound
  /-- The constants of the program hold no other strings. -/
  constants : ∀ constant ∈ context.environment.constants,
    ∀ text ∈ constant.value.strings, texts text

namespace Ground

/-- A diagnostic at a place of the function. -/
def Reported (ground : Ground) (diagnostic : Diagnostic) : Prop :=
  ∃ file position message, ground.places file position ∧
    diagnostic = .located file position message

/-- The number of functions of the program. -/
def functions (ground : Ground) : Nat := ground.context.environment.functions.length

/-- A listing shows all there is in an instruction. -/
def Emitted (ground : Ground) (instr : Instruction) : Prop :=
  ground.typed → instr.Canonical

/-- The type of a place. -/
def Holds (ground : Ground) (type : Option ValueType) : Prop := ground.typed → Placed type

/-- Something is so, unless a problem was reported. -/
def Sure (ground : Ground) (fact : Prop) : Prop := ground.typed → fact ∨ ground.past

/-- The type is known. -/
def Knows (ground : Ground) (type : Option ValueType) : Prop := ground.Sure type.isSome

/-- A type that is known, and that of a place. -/
structure Addresses (ground : Ground) (type : Option ValueType) : Prop where
  nonvoid : ground.typed → ∀ known, type = some known → known ≠ .void
  knows : ground.Knows type

variable {ground : Ground}

theorem Sure.imp {fact other : Prop} (sure : ground.Sure fact) (follows : fact → other) :
    ground.Sure other :=
  fun typed => (sure typed).imp_left follows

theorem Sure.of_past {fact : Prop} (past : ground.past) : ground.Sure fact := fun _ => .inr past

theorem Knows.of_past (past : ground.past) : ground.Knows type :=
  Sure.of_past past

theorem Knows.some (type : ValueType) : ground.Knows (some type) := fun _ => .inl rfl

/-- Two types that are not both known: a problem was reported. -/
theorem Knows.both {left right : Option ValueType} (first : ground.Knows left)
    (second : ground.Knows right)
    (other : ∀ known known', left = .some known → right = .some known' → False) :
    ground.Knows none := by
  intro typed
  rcases first typed, second typed with ⟨first | past, second | past⟩
  · obtain ⟨known, same⟩ := Option.isSome_iff_exists.mp first
    obtain ⟨known', same'⟩ := Option.isSome_iff_exists.mp second
    exact (other known known' same same').elim
  all_goals exact .inr ‹_›

theorem Holds.addresses (holds : ground.Holds type) :
    ground.Addresses type := by
  refine ⟨fun typed known same => ?_, fun typed => ?_⟩
  · obtain ⟨other, rfl, nonvoid⟩ := holds typed
    exact Option.some.inj same ▸ nonvoid
  · obtain ⟨other, rfl, -⟩ := holds typed
    exact .inl rfl

theorem Addresses.none (knows : ground.Knows none) : ground.Addresses none := ⟨by simp, knows⟩

theorem Addresses.of_past (past : ground.past) : ground.Addresses Option.none :=
  .none (Sure.of_past past)

theorem Addresses.holds {type : ValueType} (addresses : ground.Addresses (some type)) :
    ground.Holds (some type) :=
  fun typed => ⟨type, rfl, addresses.nonvoid typed type rfl⟩

/-- A literal with strings of the program. -/
def Admitted (ground : Ground) (value : Expr) : Prop :=
  (∀ text ∈ value.strings, ground.texts text) ∧ (ground.typed → value.literalType?.isSome)

end Ground

/-- A local constant is a literal with strings of the program, and a variable has the type of a
place. -/
def LocalMeaning.Allowed (ground : Ground) : LocalMeaning → Prop
  | .constant value => ground.Admitted value.value
  | .variable type _ => ground.Holds type

namespace Ground

/-- What a generator keeps while it works on a file with some cells to come back to. -/
structure Kept (ground : Ground) (file : SourceFile) (marks : List Mark) (gen : Generator) :
    Prop where
  piece : gen.piece.Sound ground.functions
  fields : ∀ instr, .instruction instr ∈ gen.piece.code →
    ground.Emitted instr
  name : gen.piece.name = ground.context.function.name
  rows : ground.since.KeepsRows gen.piece
  file : gen.file = file
  scopes : ∀ scope ∈ gen.scopes, ∀ entry ∈ scope, entry.2.Allowed ground
  loops : ∀ loop ∈ gen.loops, ∀ mark ∈ loop.marks, gen.piece.Marked mark
  marks : ∀ mark ∈ marks, gen.piece.Marked mark

variable {ground : Ground} {file : SourceFile} {marks : List Mark} {gen later : Generator}

/-- The invariant survives when the piece is extended, and other parts of the state do not
matter. -/
theorem Kept.extend (kept : ground.Kept file marks gen)
    (piece : Piece.Extends ground.functions ground.Emitted gen.piece later.piece)
    (sameFile : later.file = gen.file) (scopes : later.scopes = gen.scopes)
    (loops : later.loops = gen.loops) : ground.Kept file marks later where
  piece := piece.sound kept.piece
  fields := fun instr mem =>
    (piece.fields instr mem).elim (kept.fields instr) id
  name := piece.name.trans kept.name
  rows := kept.rows.trans (piece.rows kept.piece)
  file := sameFile.trans kept.file
  scopes := by
    rw [scopes]
    exact kept.scopes
  loops := by
    rw [loops]
    exact fun loop mem mark inside => piece.marked kept.piece (kept.loops loop mem mark inside)
  marks := fun mark mem => piece.marked kept.piece (kept.marks mark mem)

/-- Some cells need no attention any more. -/
theorem Kept.fewer {fewer : List Mark} (kept : ground.Kept file marks gen)
    (held : ∀ mark ∈ fewer, mark ∈ marks) : ground.Kept file fewer gen :=
  { kept with marks := fun mark mem => kept.marks mark (held mark mem) }

end Ground

namespace Generate

variable {α β : Type} {ground : Ground} {file : SourceFile}

/-- A step keeps the invariant, and its result satisfies a condition. -/
def Keeps (ground : Ground) (file : SourceFile) (step : Generate α)
    (yields : α → Prop := fun _ => True) : Prop :=
  ∀ marks gen, ground.Kept file marks gen →
    (step ground.context gen).Tracks ground.past ground.Reported ground.texts
      fun result => ground.Kept file marks result.2 ∧ yields result.1

theorem Keeps.pure {value : α} {yields : α → Prop} (yielded : yields value) :
    Keeps ground file (pure value) yields :=
  fun _ _ kept => .done ⟨kept, yielded⟩

/-- One step after another. -/
theorem Keeps.bind {step : Generate α} {next : α → Generate β} {between : α → Prop}
    {yields : β → Prop} (first : Keeps ground file step between)
    (later : ∀ value, between value → Keeps ground file (next value) yields) :
    Keeps ground file (step >>= next) yields := by
  intro marks gen kept
  exact (first marks gen kept).andThen fun result reached =>
    later result.1 reached.2 marks result.2 reached.1

theorem Keeps.mono {step : Generate α} {yields wanted : α → Prop}
    (keeps : Keeps ground file step yields) (weaker : ∀ value, yields value → wanted value) :
    Keeps ground file step wanted :=
  fun marks gen kept => (keeps marks gen kept).mono
    fun _ result => ⟨result.1, weaker _ result.2⟩

/-- What a step yields does not matter. -/
theorem Keeps.any {step : Generate α} {yields : α → Prop} (keeps : Keeps ground file step yields) :
    Keeps ground file step :=
  keeps.mono fun _ _ => trivial

/-- A step whose result does not matter, and what follows it. -/
theorem Keeps.next {step : Generate α} {next : α → Generate β} {between : α → Prop}
    {yields : β → Prop} (first : Keeps ground file step between)
    (later : ∀ value, Keeps ground file (next value) yields) :
    Keeps ground file (step >>= next) yields :=
  first.bind fun value _ => later value

theorem Keeps.ite {test : Prop} [Decidable test] {yes no : Generate α} {yields : α → Prop}
    (first : test → Keeps ground file yes yields) (second : ¬ test → Keeps ground file no yields) :
    Keeps ground file (if test then yes else no) yields := by
  split
  · next holds => exact first holds
  · next fails => exact second fails

theorem keeps_get : Keeps ground file get := fun _ _ kept => .done ⟨kept, trivial⟩

/-- A step that looks at the state may be examined at that state. -/
theorem Keeps.get {next : Generator → Generate β} {yields : β → Prop}
    (later : ∀ marks gen, ground.Kept file marks gen →
      (next gen ground.context gen).Tracks ground.past ground.Reported ground.texts
        fun result => ground.Kept file marks result.2 ∧ yields result.1) :
    Keeps ground file (get >>= next) yields := later

theorem keeps_read : Keeps ground file read fun ctx => ctx = ground.context :=
  fun _ _ kept => .done ⟨kept, rfl⟩

theorem keeps_environment :
    Keeps ground file environment fun found => found = ground.context.environment :=
  fun _ _ kept => .done ⟨kept, rfl⟩

theorem keeps_report (cause : ProblemCause)
    (place : ground.places file.name span.start) :
    Keeps ground file (report span cause) fun _ => ground.past := by
  intro marks gen kept
  refine .report ⟨file.name, span.start, cause.message, place, ?_⟩ fun past => .done ⟨?_, past⟩
  · rw [← kept.file]
    rfl
  · exact kept.extend (.refl _ _) rfl rfl rfl

theorem keeps_refuse {yields : Option ValueType → Prop} (cause : ProblemCause)
    (place : ground.places file.name span.start) (yielded : ground.past → yields none) :
    Keeps ground file (refuse span cause) yields :=
  (keeps_report cause place).bind fun _ past => .pure (yielded past)

theorem keeps_stringOffset {text : Text} (known : ground.texts text) :
    Keeps ground file (stringOffset text) :=
  fun _ _ kept => .intern known fun _ => .done ⟨kept, trivial⟩

theorem keeps_change {step : Piece → Piece}
    (extends' : ∀ piece, Piece.Extends ground.functions ground.Emitted piece (step piece)) :
    Keeps ground file (change step) :=
  fun _ gen kept => .done ⟨kept.extend (extends' gen.piece) rfl rfl rfl, trivial⟩

/-- The text of a line holds no line end. -/
theorem line_free (file : SourceFile) (number : Nat) :
    ∀ byte ∈ file.line number, byte ≠ Text.byte '\n' := by
  intro byte mem
  have kept : byte ∈ (file.source.afterLines (number - 1)).takeWhile (· != Text.byte '\n') := by
    simp only [SourceFile.line, Text.line, Text.trimEnd, List.mem_reverse] at mem
    exact List.mem_reverse.mp ((List.dropWhile_sublist _).subset mem)
  simpa using List.all_eq_true.mp List.all_takeWhile byte kept

theorem keeps_setLine (number : Nat) : Keeps ground file (setLine number) :=
  fun _ gen kept => .done ⟨kept.extend
    (Piece.extends_setLine _ (line_free gen.file number)) rfl rfl rfl, trivial⟩

theorem keeps_emitTyped
    (defined : op.isDefined) (plain : op.hasImmediate = false)
    (fine : ground.Emitted ⟨op, first, second, modifier⟩) :
    Keeps ground file (emit op first second modifier) :=
  keeps_change fun _ => Piece.extends_emit defined plain fine

theorem keeps_emit
    (form : op.isDefined ∧ op.hasImmediate = false ∧
      Instruction.Canonical ⟨op, first, second, modifier⟩) :
    Keeps ground file (emit op first second modifier) :=
  keeps_emitTyped form.1 form.2.1 fun _ => form.2.2

theorem keeps_emitNumberTyped
    {number : Int} (wide : op.hasImmediate) (plain : op ∉ [.call, .jump, .jumpZero])
    (fine : ground.Emitted ⟨op, first, second, modifier⟩) :
    Keeps ground file (emitNumber op first second modifier number) := by
  simp only [List.mem_cons, List.not_mem_nil, or_false, not_or] at plain
  exact keeps_change fun _ => (Piece.extends_emitImmediate wide plain.1
    (fun jump => absurd jump (not_or.mpr plain.2)) fine).1

theorem keeps_emitNumber {number : Int}
    (form : op.hasImmediate ∧ op ∉ [.call, .jump, .jumpZero] ∧
      Instruction.Canonical ⟨op, first, second, modifier⟩) :
    Keeps ground file (emitNumber op first second modifier number) :=
  keeps_emitNumberTyped form.1 form.2.1 fun _ => form.2.2

section Registers

variable {reg : Register} (named : reg ∈ Register.named)
include named

theorem keeps_push : Keeps ground file (push reg) := keeps_emit ⟨rfl, rfl, named, rfl, rfl⟩

theorem keeps_pop : Keeps ground file (pop reg) := keeps_emit ⟨rfl, rfl, named, rfl, rfl⟩

theorem keeps_increase (number : Int) : Keeps ground file (increase reg number) :=
  keeps_emitNumber ⟨rfl, by decide, named, rfl, rfl⟩

theorem keeps_setNumber (number : Int) : Keeps ground file (setNumber reg number) :=
  keeps_emitNumber ⟨rfl, by decide, named, rfl, rfl⟩

theorem keeps_setDataAddress (offset : Int) : Keeps ground file (setDataAddress reg offset) :=
  keeps_emitNumber ⟨rfl, by decide, named, rfl, rfl⟩

theorem keeps_convert (conversion : Conversion) : Keeps ground file (convert conversion reg) :=
  keeps_emit ⟨rfl, rfl, named, rfl, by simp [Opcode.admits]⟩

end Registers

theorem keeps_pushNumber (number : Int) : Keeps ground file (pushNumber number) :=
  (keeps_setNumber (by decide) _).next fun _ => keeps_push (by decide)

theorem keeps_moveDepth (distance : Int) : Keeps ground file (moveDepth distance) :=
  keeps_change fun _ => Piece.extends_depth _

theorem keeps_release (depth : Int) : Keeps ground file (release depth) :=
  keeps_get.next fun _ => .ite (fun _ => keeps_increase (by decide) _) fun _ => .pure trivial

theorem keeps_pushSlots (named : base ∈ Register.named) {slots : List Slot}
    (accessed : ground.typed → ∀ slot ∈ slots, Accessible slot.size) :
    Keeps ground file (pushSlots base slots) := by
  induction slots with
  | nil => exact .pure trivial
  | cons slot slots ih =>
    have fine : ground.Emitted ⟨.loadAt, .a, base, slot.size.toUInt8⟩ := fun typed =>
      ⟨(by decide : Register.a ∈ Register.named), named, accessed typed slot (by simp)⟩
    exact (keeps_emitNumberTyped rfl (by decide) fine).next fun _ =>
      (keeps_push (by decide)).next fun _ =>
        ih fun typed other mem => accessed typed other (by simp [mem])

theorem keeps_popSlots (named : base ∈ Register.named) {slots : List Slot}
    (accessed : ground.typed → ∀ slot ∈ slots, Accessible slot.size) :
    Keeps ground file (popSlots base slots) := by
  induction slots with
  | nil => exact .pure trivial
  | cons slot slots ih =>
    have fine : ground.Emitted ⟨.storeAt, base, .a, slot.size.toUInt8⟩ := fun typed =>
      ⟨named, (by decide : Register.a ∈ Register.named), accessed typed slot (by simp)⟩
    exact (keeps_pop (by decide)).next fun _ =>
      (keeps_emitNumberTyped rfl (by decide) fine).next fun _ =>
        ih fun typed other mem => accessed typed other (by simp [mem])

theorem accessed_shapeOf (holds : ground.Holds type)
    (typed : ground.typed) : (ground.context.environment.shapeOf type).Accessed := by
  obtain ⟨known, rfl, nonvoid⟩ := holds typed
  exact (ground.sound typed).structs.shapeOf nonvoid

theorem keeps_pushFrom (named : base ∈ Register.named) (offset : Int)
    (holds : ground.Holds type) :
    Keeps ground file (pushFrom base offset type) := by
  refine keeps_environment.bind fun env same => ?_
  subst same
  exact keeps_pushSlots named fun typed => accessed_shapeOf holds typed offset

theorem keeps_popTo (named : base ∈ Register.named) (offset : Int)
    (holds : ground.Holds type) :
    Keeps ground file (popTo base offset type) := by
  refine keeps_environment.bind fun env same => ?_
  subst same
  exact keeps_popSlots named fun typed slot mem =>
    accessed_shapeOf holds typed offset slot (List.mem_reverse.mp mem)

theorem keeps_discardWord : Keeps ground file discardWord := keeps_pop (by decide)

theorem keeps_discard (type : Option ValueType) : Keeps ground file (discard type) := by
  refine keeps_environment.bind fun _ _ => ?_
  split
  · exact .pure trivial
  · exact keeps_pop (by decide)
  · exact keeps_increase (by decide) _

theorem keeps_coerce (given wanted : Option ValueType) :
    Keeps ground file (coerce given wanted) fun found => ground.Knows given → ground.Knows found :=
  .ite (fun _ => (keeps_pop (by decide)).next fun _ => (keeps_convert (by decide) _).next fun _ =>
    (keeps_push (by decide)).next fun _ => .pure fun _ => .some _) fun _ => .pure id

/-- A value that does not fit its place is reported. -/
theorem keeps_fits (wanted given : Option ValueType) (use : Use)
    (place : ground.places file.name span.start) : Keeps ground file (fits span wanted given use)
      fun fitting => ground.Knows wanted → ground.Knows given → ground.Sure (fitting = true) := by
  unfold fits
  split
  · exact .ite (fun _ => .pure fun _ _ _ => .inl rfl) fun _ =>
      (keeps_report _ place).bind fun _ past => .pure fun _ _ => .of_past past
  · next other =>
    exact .pure fun first second => (first.both second other).imp (by simp)

theorem keeps_openScope : Keeps ground file openScope := by
  intro marks gen kept
  refine .done ⟨{ kept with scopes := ?_ }, trivial⟩
  intro scope mem
  rcases List.mem_cons.mp mem with rfl | outer
  · simp
  · exact kept.scopes scope outer

theorem keeps_closeScope : Keeps ground file closeScope := by
  intro marks gen kept
  refine .done ⟨{ kept with scopes := ?_ }, trivial⟩
  exact fun scope mem => kept.scopes scope (List.mem_of_mem_tail mem)

theorem keeps_declare {name : Text} {meaning : LocalMeaning}
    (place : ground.places file.name span.start) (known : meaning.Allowed ground) :
    Keeps ground file (declare span name meaning) := by
  refine .get fun marks gen kept => ?_
  cases scopes : gen.scopes with
  | nil => exact .done ⟨kept, trivial⟩
  | cons scope outer =>
    dsimp only
    cases (scope.lookup name).isSome with
    | true => exact (keeps_report _ place).any marks gen kept
    | false =>
      refine .done ⟨{ kept with scopes := ?_ }, trivial⟩
      have old := kept.scopes
      rw [scopes] at old
      intro inner mem entry inside
      rcases List.mem_cons.mp mem with rfl | outside
      · rcases List.mem_cons.mp inside with rfl | earlier
        · exact known
        · exact old scope (by simp) entry earlier
      · exact old inner (by simp [outside]) entry inside

/-- A constant is a literal with strings of the program, and a variable has the type of a place. -/
def Meaning.Known (ground : Ground) : Meaning → Prop
  | .constant value => ground.Admitted value.value
  | .variable type _ => ground.Holds type
  | .global place => ground.Holds (some place.type)
  | .undefined => True

theorem mem_of_lookup {β : Type} {entries : List (Text × β)} {name : Text} {meaning : β}
    (found : entries.lookup name = some meaning) : (name, meaning) ∈ entries := by
  induction entries with
  | nil => simp at found
  | cons entry entries ih =>
    obtain ⟨key, value⟩ := entry
    rw [List.lookup_cons] at found
    split at found
    · next same =>
      obtain rfl := Option.some.inj found
      simp [eq_of_beq same]
    · exact List.mem_cons_of_mem _ (ih found)

theorem keeps_meaning (name : Text) :
    Keeps ground file (meaning name) fun found => found.Known ground := by
  refine .get fun marks gen kept => ?_
  cases found : gen.scopes.findSome? fun (scope : Scope) => scope.lookup name with
  | some local' =>
    obtain ⟨scope, mem, declared⟩ := List.exists_of_findSome?_eq_some found
    have known := kept.scopes scope mem _ (mem_of_lookup declared)
    cases local' with
    | «variable» type offset => exact .done ⟨kept, known⟩
    | constant value => exact .done ⟨kept, known⟩
  | none =>
    refine Keeps.bind keeps_environment (fun env same => ?_) marks gen kept
    subst same
    split
    · next place found =>
      exact .pure fun typed =>
        ⟨place.type, rfl, (ground.sound typed).globals place (List.mem_of_find?_eq_some found)⟩
    · next value _ found =>
      have listed := List.mem_of_find?_eq_some found
      exact .pure ⟨ground.constants value listed,
        fun typed => (ground.sound typed).constants value listed⟩
    · exact .pure trivial

/-- A step leads from one condition on the state to another. -/
def Leads (ground : Ground) (step : Generate α) (before : Generator → Prop)
    (after : α → Generator → Prop) : Prop :=
  ∀ gen, before gen →
    (step ground.context gen).Tracks ground.past ground.Reported ground.texts
      fun result => after result.1 result.2

theorem Keeps.leads {step : Generate α} {yields : α → Prop} (keeps : Keeps ground file step yields)
    (marks : List Mark) : Leads ground step (ground.Kept file marks)
      fun value later => ground.Kept file marks later ∧ yields value :=
  fun gen kept => keeps marks gen kept

theorem Leads.bind {step : Generate α} {next : α → Generate β} {before : Generator → Prop}
    {between : α → Generator → Prop} {after : β → Generator → Prop}
    (first : Leads ground step before between)
    (later : ∀ value, Leads ground (next value) (between value) after) :
    Leads ground (step >>= next) before after :=
  fun gen start => (first gen start).andThen fun result reached =>
    later result.1 result.2 reached

/-- A jump can be fixed from then on. -/
theorem leads_jump {reg : Register} (marks : List Mark)
    (form : op.hasImmediate ∧ op ≠ .call ∧ Instruction.Canonical ⟨op, reg, .unused, 0⟩) :
    Leads ground (jump op reg) (ground.Kept file marks)
      fun cell later => ground.Kept file (.jump cell :: marks) later := by
  intro gen kept
  obtain ⟨extended, jump⟩ := @Piece.extends_emitImmediate ground.functions ground.Emitted
    gen.piece ⟨op, reg, .unused, 0⟩ 0 form.1 form.2.1 (fun _ => rfl) fun _ => form.2.2
  have moved : ground.Kept file marks { gen with
      piece := (gen.piece.emitJump op reg).1 } := kept.extend extended rfl rfl rfl
  refine .done { moved with marks := ?_ }
  intro mark mem
  rcases List.mem_cons.mp mem with rfl | old
  · exact jump
  · exact moved.marks mark old

/-- A jump in hand is fixed. -/
theorem leads_land (cell : Nat) (marks : List Mark) :
    Leads ground (land cell) (ground.Kept file (.jump cell :: marks))
      fun _ later => ground.Kept file marks later := by
  intro gen kept
  have fixed : ground.Kept file (.jump cell :: marks) { gen with
      piece := (gen.piece.fixJump cell).1, landing := gen.piece.size } :=
    kept.extend (Piece.extends_fixJump (kept.marks (.jump cell) (by simp))) rfl rfl rfl
  exact .done (fixed.fewer fun other mem => List.mem_cons_of_mem _ mem)

end Generate

end TinLang
