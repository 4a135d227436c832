import Mathlib.Algebra.Order.BigOperators.Group.List
import Mathlib.Algebra.Order.Group.Nat
import TinLang.Proofs.Build
import TinLang.Proofs.Simulation.Call

/-!
# Callers and callees agree

The offsets at which the code of a call stores arguments are those at which functions read their
parameters and natives their arguments, and the words of a result come back as the caller wants
them. `Scene.agrees_call` puts the two sides together.
-/
namespace TinLang

/-- What a check promises about the declarations of a program. -/
structure Environment.Ready (env : Environment) : Prop where
  structs : env.structs.Sound
  globals : ∀ global ∈ env.globals, global.type ≠ .void
  params : ∀ function ∈ env.functions, ∀ parameter ∈ function.params, Placed parameter.type
  settled : env.Settled

theorem Checker.ready_ofFiles {files : List SourceFile} (clean : (ofFiles files).problems = #[]) :
    (ofFiles files).environment.Ready :=
  have placed := placed_ofFiles files
  ⟨placed.structs, fun place listed => (placed.globals place listed).1, placed.params clean,
    (settled_ofFiles clean).1⟩

/-- Who calls a function. -/
def Function.callee (function : Function) (index : Nat) : Generate.Callee :=
  ⟨function.params.map Parameter.type, function.params.map Parameter.offset, some function.result,
    function.block, .inr index⟩

/-- Who calls a native. -/
def Native.callee (native : Native) : Generate.Callee :=
  ⟨native.params.map ValueType.ofText?, native.layout.offsets, ValueType.ofText? native.result,
    native.layout.block, .inl native⟩

/-- The types and offsets of the parameters of a callee. -/
def Generate.Callee.places (callee : Generate.Callee) : ArgumentPlaces :=
  (callee.params.map fun type => type.getD .void).zip callee.offsets

namespace Environment.Ready

variable {env : Environment} {function : Function}

theorem type_eq (ready : env.Ready) (mem : function ∈ env.functions) :
    ∀ parameter ∈ function.params, parameter.type = some (parameter.type.getD .void) := by
  intro parameter inside
  obtain ⟨type, found, -⟩ := ready.params function mem parameter inside
  rw [found]
  rfl

/-- The parameters of a function have types and offsets. -/
theorem places_function (ready : env.Ready) (mem : function ∈ env.functions)
    (index : Nat) :
    (function.callee index).places =
        function.params.map (fun parameter => (parameter.type.getD .void, parameter.offset)) ∧
      (function.callee index).params = (function.callee index).places.map (fun place =>
        some place.1) ∧
      ∀ place ∈ (function.callee index).places, place.1 ≠ .void := by
  have places : (function.callee index).places =
      function.params.map fun parameter => (parameter.type.getD .void, parameter.offset) := by
    show ((function.params.map _).map _).zip (function.params.map _) = _
    rw [List.map_map, List.zip_map']
    rfl
  rw [places]
  refine ⟨rfl, ?_, fun place inside => ?_⟩
  · show function.params.map _ = _
    rw [List.map_map]
    exact List.map_congr_left (ready.type_eq mem)
  · obtain ⟨parameter, found, rfl⟩ := List.mem_map.mp inside
    obtain ⟨type, same, nonvoid⟩ := ready.params function mem parameter found
    rw [same]
    exact nonvoid

/-- A function finds its arguments in their block when their bytes can be counted. -/
theorem laid_function (ready : env.Ready) (mem : function ∈ env.functions)
    (index : Nat) (small : ((function.callee index).params.map env.bytesOf).sum < 2 ^ 63) :
    (function.callee index).Laid env (function.callee index).places := by
  obtain ⟨places, params, placed⟩ := ready.places_function mem index
  have known := ready.type_eq mem
  refine ⟨params, ?_, placed, ?_, fun place inside => ?_⟩
  · rw [places]
    show (function.params.map _).zip (function.params.map _) = _
    rw [List.zip_map', List.map_map]
    exact List.map_congr_left fun parameter inside => congrArg (·, _) (known parameter inside)
  · have follow := ready.settled.params function mem (by
      rwa [Function.callee, List.map_map] at small)
    refine (congrArg (Slot.Follow 0 _) ?_).mp follow
    rw [places, Environment.places, List.map_map]
    refine List.map_congr_left fun parameter inside => ?_
    rw [known parameter inside]
    rfl
  · have counted : env.bytesOf (some place.1) ∈
        (function.callee index).params.map env.bytesOf := by
      rw [params]
      exact List.mem_map_of_mem (List.mem_map_of_mem inside)
    exact (ready.settled.fits (Nat.lt_of_le_of_lt (List.le_sum_of_mem counted) small)).1

end Environment.Ready

/-- Whether scalars follow one another can be computed. -/
instance Slot.decidableFollow : (first last : Int) → (slots : List Slot) →
    Decidable (Slot.Follow first last slots)
  | first, last, [] => inferInstanceAs (Decidable (first ≤ last))
  | first, last, slot :: slots =>
    have := Slot.decidableFollow (slot.offset + slot.size) last slots
    inferInstanceAs (Decidable (first ≤ slot.offset ∧ Slot.Follow (slot.offset + slot.size)
      last slots))

namespace Native

/-- Where a native finds its arguments. -/
theorem offsets_eq (native : Native) : native.callee.offsets = match native with
    | .copy | .readFile | .writeFile => [0, 8, 16]
    | .power => [0, 4]
    | _ => [0] := by
  cases native <;> decide

/-- No argument of a native is a struct, so its size is that of its type's name. -/
theorem slots_places (table : StructTable) (native : Native) :
    (native.callee.places.map fun (type, offset) => (⟨offset, table.sizeOf type⟩ : Slot)) =
      List.zipWith (fun (offset : Nat) name => ⟨offset, typeSize name⟩) native.layout.offsets
        native.params := by
  cases native <;> rfl

theorem laid (env : Environment) (native : Native) :
    native.callee.Laid env native.callee.places := by
  refine ⟨?_, ?_, ?_, ?_, fun place inside => ?_⟩
  · cases native <;> decide
  · cases native <;> decide
  · cases native <;> decide
  · rw [slots_places]
    cases native <;> decide
  · have plain : place.1.structName? = none := by
      revert place
      cases native <;> decide
    rw [StructTable.shapeOf, plain]
    exact Shape.fits_scalar _

end Native

namespace StructTable

variable {table : StructTable} {places : ArgumentPlaces} {arguments : List (List Word)}

/-- The scalars of a value have the same sizes wherever it stands. -/
theorem map_size_slots (type : ValueType) (offset : Int) :
    ((table.shapeOf type).slots offset).map Slot.size = table.widths type := by
  have moved := (table.shapeOf type).slots_add 0 offset
  rw [Int.zero_add] at moved
  rw [moved, List.map_map]
  rfl

/-- Values have a word for each scalar of their types. -/
def Counts (table : StructTable) (places : ArgumentPlaces) (arguments : List (List Word)) : Prop :=
  List.Forall₂ (fun place words => words.length = table.leavesOf place.1) places arguments

/-- The places of a block at an address hold values, each cut to the sizes of its scalars. -/
def Passes (table : StructTable) (bytes : Bytes) (addr : Nat) (places : ArgumentPlaces)
    (arguments : List (List Word)) : Prop :=
  List.Forall₂ (fun place words =>
    bytes.read ((table.shapeOf place.1).slots (addr + place.2)) = table.narrowed place.1 words)
    places arguments

theorem Counts.length_flatten (counts : table.Counts places arguments) (sound : table.Sound)
    (placed : ∀ place ∈ places, place.1 ≠ .void) (addr : Int) :
    arguments.flatten.length = (table.blockSlots addr places).length := by
  induction counts with
  | nil => rfl
  | cons count _ ih =>
    rw [List.flatten_cons, List.length_append, count, blockSlots_cons, List.length_append,
      Shape.length_slots (sound.shapeOf (placed _ List.mem_cons_self)),
      ih fun place mem => placed place (List.mem_cons_of_mem _ mem)]
    rfl

/-- The bytes that values take on the operand stack. -/
theorem Counts.bytesOf {env : Environment} (counts : env.structs.Counts places arguments) :
    ((places.map fun place => some place.1).map env.bytesOf).sum =
      wordSize * arguments.flatten.length := by
  induction counts with
  | nil => rfl
  | cons count _ ih =>
    rw [List.map_cons, List.map_cons, List.sum_cons, ih, List.flatten_cons,
      List.length_append, count,
      Nat.mul_add, Environment.bytesOf_some]

/-- What is read from a whole block is read from each of its places. -/
theorem Counts.passes (counts : table.Counts places arguments) (sound : table.Sound)
    (placed : ∀ place ∈ places, place.1 ≠ .void) {bytes : Bytes} {addr : Nat}
    (read : bytes.read (table.blockSlots addr places) =
      List.zipWith narrowTo ((table.blockSlots addr places).map Slot.size) arguments.flatten) :
    table.Passes bytes addr places arguments := by
  induction counts with
  | nil => exact .nil
  | @cons place words _ _ count _ ih =>
    have length : (((table.shapeOf place.1).slots (addr + place.2)).map Slot.size).length =
        words.length := by
      rw [List.length_map, Shape.length_slots (sound.shapeOf (placed _ List.mem_cons_self)), count]
      rfl
    rw [blockSlots_cons, Bytes.read_append, List.map_append, List.flatten_cons,
      List.zipWith_append length] at read
    obtain ⟨first, rest⟩ := List.append_inj read (by
      rw [Bytes.length_read, List.length_zipWith, ← length, List.length_map, Nat.min_self])
    rw [map_size_slots] at first
    exact .cons first (ih (fun place mem => placed place (List.mem_cons_of_mem _ mem)) rest)

end StructTable

namespace Generate

variable {ctx : FunctionContext} {span : Span} {name : Text} {gen later : Generator}

/-- Who is called by a name. -/
def Calls (env : Environment) (name : Text) (callee : Callee) : Prop :=
  (∃ native, Native.ofName? name = some native ∧ callee = native.callee) ∨
  ∃ index function, Native.ofName? name = none ∧
    env.function? name = some (index, function) ∧ callee = function.callee index

/-- Who is called by a name in a program without a problem. -/
inductive Called (env : Environment) (name : Text) : Callee → Prop where
  | native {native : Native} (named : Native.ofName? name = some native) : Called env name
    native.callee
  | function {index : Nat} {function : Function} (free : Native.ofName? name = none)
    (known : env.function? name = some (index, function)) (other : function.name ≠ "main") :
    Called env name (function.callee index)

/-- A name that is found names whom the program calls by it. -/
theorem callee?_found {found : Option Callee}
    (done : callee? span name ctx gen = .done (found, later)) :
    later = gen ∧ ∃ callee, found = some callee ∧ Called ctx.environment name callee := by
  unfold callee? at done
  obtain ⟨env, between, one, two⟩ := bind_done.mp done
  obtain ⟨rfl, rfl⟩ := Prod.mk.inj (Task.done.inj one)
  cases named : Native.ofName? name with
  | some native =>
    rw [named] at two
    obtain ⟨rfl, rfl⟩ := Prod.mk.inj (pure_done.mp two)
    exact ⟨rfl, _, rfl, .native named⟩
  | none =>
    cases known : ctx.environment.function? name with
    | none =>
      rw [named, known] at two
      obtain ⟨_, _, three, -⟩ := bind_done.mp two
      cases three
    | some place =>
      obtain ⟨index, function⟩ := place
      rw [named, known] at two
      dsimp only at two
      split at two
      · obtain ⟨_, _, three, -⟩ := bind_done.mp two
        cases three
      · next other =>
        obtain ⟨rfl, rfl⟩ := Prod.mk.inj (pure_done.mp two)
        exact ⟨rfl, _, rfl, .function named known other⟩

theorem callee?_done {found : Option Callee}
    (done : callee? span name ctx gen = .done (found, later)) :
    later = gen ∧ ∀ callee, found = some callee → Calls ctx.environment name callee := by
  obtain ⟨same, _, rfl, called⟩ := callee?_found done
  refine ⟨same, fun callee there => ?_⟩
  obtain rfl := Option.some.inj there
  cases called with
  | native named => exact .inl ⟨_, named, rfl⟩
  | function free known _ => exact .inr ⟨_, _, free, known, rfl⟩

/-- A written type is known, or reported. -/
theorem writtenType_found {written : TypeExpr} {value : Option ValueType}
    (done : writtenType written ctx gen = .done (value, later)) :
    later = gen ∧ ∃ type, value = some type ∧ ctx.environment.resolve? written = some type := by
  obtain ⟨_, _, look, done⟩ := bind_done.mp done
  obtain ⟨rfl, rfl⟩ := Prod.mk.inj (Task.done.inj look)
  cases known : ctx.environment.resolve? written with
  | some found =>
    rw [known] at done
    obtain ⟨rfl, rfl⟩ := Prod.mk.inj (pure_done.mp done)
    exact ⟨rfl, _, rfl, rfl⟩
  | none =>
    rw [known] at done
    obtain ⟨_, _, reports, -⟩ := bind_done.mp done
    cases reports

/-- Arguments that fit their parameters push as many bytes as values of the parameters have. -/
theorem callArguments_done {arguments : List Expr} {types : List (Option ValueType)}
    {pushed : Nat} (counted : arguments.length = types.length)
    (done : callArguments name arguments types ctx gen = .done ((pushed, true), later)) :
    pushed = (types.map ctx.environment.bytesOf).sum := by
  induction arguments generalizing types gen later pushed with
  | nil =>
    obtain rfl := List.length_eq_zero_iff.mp counted.symm
    obtain ⟨same, -⟩ := Prod.mk.inj (pure_done.mp done)
    exact (Prod.mk.inj same).1.symm
  | cons argument arguments ih =>
    cases types with
    | nil => simp at counted
    | cons type types =>
      unfold callArguments at done
      obtain ⟨value, _, _, done⟩ := bind_done.mp done
      obtain ⟨given, _, _, done⟩ := bind_done.mp done
      obtain ⟨env, _, look, done⟩ := bind_done.mp done
      obtain ⟨rfl, rfl⟩ := Prod.mk.inj (Task.done.inj look)
      obtain ⟨fitting, _, fit, done⟩ := bind_done.mp done
      obtain ⟨⟨others, rest⟩, _, more, done⟩ := bind_done.mp done
      obtain ⟨same, -⟩ := Prod.mk.inj (pure_done.mp done)
      obtain ⟨rfl, both⟩ := Prod.mk.inj same
      obtain ⟨rfl, rfl⟩ := Bool.and_eq_true_iff.mp both
      rw [ih (by simpa using counted) more, List.map_cons, List.sum_cons]
      congr 1
      cases type with
      | none => exact nomatch (Prod.mk.inj (pure_done.mp fit)).1
      | some place =>
        cases given with
        | none => exact nomatch (Prod.mk.inj (pure_done.mp fit)).1
        | some value => exact Environment.bytesOf_of_accepts (fits_done fit).2.1

/-- A call that has a value makes room, evaluates its arguments and calls. -/
theorem call_done {arguments : List Expr} {type : ValueType}
    (done : expr (.call span name arguments) ctx gen = .done (some type, later)) :
    ∃ callee opened argued, Calls ctx.environment name callee ∧
      arguments.length = callee.params.length ∧ callee.result = some type ∧
      reserveCall callee ctx gen = .done ((), opened) ∧
      callArguments name arguments callee.params ctx opened =
        .done (((callee.params.map ctx.environment.bytesOf).sum, true), argued) ∧
      finishCall callee (callee.params.map ctx.environment.bytesOf).sum true ctx argued =
        .done (some type, later) := by
  unfold expr at done
  obtain ⟨found, between, one, done⟩ := bind_done.mp done
  obtain ⟨rfl, known⟩ := callee?_done one
  cases found with
  | none => cases Prod.mk.inj (pure_done.mp done) |>.1
  | some callee =>
    dsimp only at done
    split at done
    · obtain ⟨_, _, reported, -⟩ := bind_done.mp done
      cases reported
    · next counted =>
      obtain ⟨_, opened, two, done⟩ := bind_done.mp done
      obtain ⟨⟨pushed, fitting⟩, argued, three, done⟩ := bind_done.mp done
      dsimp only at done
      cases fitting with
      | false =>
        unfold finishCall at done
        obtain ⟨_, _, _, done⟩ := bind_done.mp done
        dsimp only at done
        split at done
        · obtain ⟨_, _, _, done⟩ := bind_done.mp done
          cases Prod.mk.inj (pure_done.mp done) |>.1
        · cases Prod.mk.inj (pure_done.mp done) |>.1
      | true =>
        have counted := Decidable.not_not.mp counted
        obtain rfl := callArguments_done counted three
        obtain ⟨_, _, _, _, _, _, result⟩ := finishCall_done done
        exact ⟨callee, opened, argued, known callee rfl, counted, (Prod.mk.inj result).1, two,
          three,
          done⟩

end Generate

namespace Scene

open Generate

variable {scene : Scene} {callee : Callee} {shown opened argued : Shown} {values : List (List Word)}

/-- A call has made its room below the words of the operand stack. -/
structure Opened (scene : Scene) (callee : Callee) (shown opened : Shown) : Prop where
  base : opened.base = shown.base
  output : opened.output = shown.output
  high : shown.floor ≤ shown.base
  bytes : ∀ place, shown.floor ≤ place → opened.bytes place = shown.bytes place
  rooms : Rooms shown.stack shown.floor (scene.space callee) opened.stack opened

/-- The values of arguments were pushed after a call made its room; what stands below an address
is still there. -/
structure Argued (opened : Shown) (above : Nat) (values : List (List Word)) (argued : Shown) :
    Prop where
  base : argued.base = opened.base
  floor : argued.floor = opened.floor
  stack : argued.stack = values.flatten.reverse ++ opened.stack
  bytes : ∀ place, opened.floor ≤ place → place < above → argued.bytes place = opened.bytes place

/-- What the code of a called function finds when it starts: the arguments where it looks for them,
where it came from, and above the room for its result the words that were on the operand stack. -/
structure Entered (scene : Scene) (callee : Callee) (values : List (List Word)) (outer : List Word)
    (above back : Nat) (argued entered : Shown) : Prop where
  empty : entered.stack = []
  level : entered.floor = entered.base
  output : entered.output = argued.output
  place : entered.base + 16 + scene.space callee + 8 * outer.length = above
  params : scene.context.environment.structs.Passes entered.bytes (entered.base + 16) callee.places
    values
  saves : entered.bytes.Saves entered.base argued.base scene.site.index back
  outer : entered.bytes.Spells (entered.base + 16 + scene.space callee) outer
  bytes : ∀ place, above ≤ place → entered.bytes place = argued.bytes place

/-- A called function is about to return a value: its frame is given back, where it came from is
still there, and the words of the result stand above the arguments. -/
structure Returning (scene : Scene) (callee : Callee) (leaves outer : List Word)
    (above back : Nat) (argued final : Shown) : Prop where
  empty : final.stack = []
  level : final.floor = final.base
  place : final.base + 16 + scene.space callee + 8 * outer.length = above
  count : leaves.length = scene.context.environment.leavesOf callee.result
  saves : final.bytes.Saves final.base argued.base scene.site.index back
  words : final.bytes.Spells (final.base + 16 + callee.block) (leaves.reverse ++ outer)

/-- A native runs, or is done but for its result: its block stands at the floor, and above the room
for its result the words that were on the operand stack. -/
structure Handling (scene : Scene) (native : Native) (outer : List Word) (above : Nat)
    (argued called : Shown) : Prop where
  empty : called.stack = []
  base : called.base = argued.base
  place : called.floor + scene.space native.callee + 8 * outer.length = above
  outer : called.bytes.Spells (called.floor + scene.space native.callee) outer

/-- A native finds its arguments. -/
def Finds (table : StructTable) (native : Native) (values : List (List Word)) (machine : Machine) :
    Prop :=
  ∀ (index : Nat) (place : ValueType × Nat) (words : List Word),
    native.callee.places[index]? = some place → values[index]? = some words →
    ∃ word, (Machine.argument native index).run.run machine = (.ok word, machine) ∧
      [word] = table.narrowed place.1 words

theorem Argued.rooms (pushed : Argued opened shown.floor values argued)
    (room : Opened scene callee shown opened) :
    Rooms shown.stack shown.floor (scene.space callee) opened.stack argued := by
  rcases room.rooms with ⟨empty, place, spells⟩ | ⟨none, same, level⟩
  · refine .inl ⟨empty, pushed.floor ▸ place, ?_⟩
    rw [pushed.floor]
    exact spells.congr fun byte low high => (pushed.bytes byte (by omega) (by omega)).symm
  · exact .inr ⟨none, same, pushed.floor.trans level⟩

theorem Opened.small {machine : Machine} {piece : Piece} (room : Opened scene callee shown opened)
    (base : argued.base = shown.base) (shows : scene.site.Shows piece machine argued) :
    shown.floor ≤ argued.base ∧ argued.base ≤ scene.site.top ∧ callee.block < 2 ^ 31 := by
  obtain ⟨_, _, plain⟩ := shows.plain
  have high := room.high
  have highest := plain.highest
  have below := scene.site.below
  unfold Memory.dataBase at below
  dsimp only at highest
  have space : callee.block ≤ scene.space callee := Nat.le_add_left _ _
  refine ⟨by omega, highest, ?_⟩
  rcases room.rooms with ⟨-, place, -⟩ | ⟨none, -, -⟩ <;> omega

/-- Room is made for a call. -/
theorem comes_reserveCall {machine : Machine} {gen opening : Generator}
    (done : reserveCall callee scene.context gen = .done ((), opening))
    (scopes : gen.scopes = scene.scopes)
    (complete : opening.piece.Completes scene.site.code scene.holes)
    (shows : scene.site.Shows gen.piece machine shown)
    (enough : Memory.stackBase + scene.space callee ≤ shown.pointer) :
    machine.Comes scene.site.program scene.site.settings fun last => ∃ opened,
      scene.site.Shows opening.piece last opened ∧ Opened scene callee shown opened := by
  obtain ⟨_, _, plain⟩ := shows.plain
  have high := plain.high
  have highest := plain.highest
  have below := scene.site.below
  unfold Memory.dataBase at below
  have pointer : shown.pointer ≤ shown.floor := Nat.sub_le _ _
  dsimp only at high highest
  refine ((leads_reserveCall (by omega)).comes done scopes complete shows rfl).mono ?_
  rintro last ⟨_, reached, rest, floor, bytes, rfl, -, same, rooms⟩
  exact ⟨_, reached, rfl, rfl, high, same, rooms⟩

section

variable {machine : Machine} {gen later : Generator} {type : Option ValueType} {index : Nat}
  {function : Function}

/-- The code before a return stores the words of the result where the caller expects them, and
leaves alone where the call came from and what was on the operand stack. -/
theorem leads_returning {inner : Scene} {within : Shown} {leaves outer rest : List Word}
    {above back : Nat} (stack : within.stack = leaves.reverse ++ rest)
    (count : leaves.length = scene.context.environment.leavesOf callee.result)
    (level : within.floor ≤ within.base)
    (place : within.base + 16 + scene.space callee + 8 * outer.length = above)
    (room : above ≤ inner.site.top)
    (saves : within.bytes.Saves within.base argued.base scene.site.index back)
    (spells : within.bytes.Spells (within.base + 16 + scene.space callee) outer) :
    inner.Leads (· = within) (popResult callee.block
        (List.range (scene.context.environment.leavesOf callee.result))) fun _ final =>
      ∃ a bytes, final = { within with a, stack := rest, bytes } ∧
        bytes.Saves within.base argued.base scene.site.index back ∧
        bytes.Spells (within.base + 16 + callee.block) (leaves.reverse ++ outer) ∧
        ∀ byte, above ≤ byte → bytes byte = within.bytes byte := by
  have space : scene.space callee = 8 * leaves.length + callee.block := by
    rw [Scene.space, ← count]
    rfl
  have length := leaves.length_reverse
  rw [← count, ← length]
  refine .weaken (leads_popResult stack (by omega) level) ?_
  rintro _ _ ⟨a, bytes, rfl, words, same⟩
  refine ⟨a, bytes, rfl, ?_, ?_, fun byte high => same byte (by omega)⟩
  · exact saves.congr fun byte low high => (same byte (by omega)).symm
  · refine Bytes.spells_append.mpr ⟨words, ?_⟩
    have start : within.base + 16 + callee.block + 8 * leaves.reverse.length =
        within.base + 16 + scene.space callee := by omega
    rw [start]
    exact spells.congr fun byte low high => (same byte (by omega)).symm

/-- A call of a function and its code agree. The call leads to the first cell of the callee, which
finds the arguments; the code before a return of the callee stores its result where the call wants
it; and from a return the caller goes on behind the call with the result on its operand stack. -/
def FunctionAgrees (scene : Scene) (callee : Callee) (index : Nat) (later : Piece)
    (values : List (List Word)) (shown argued : Shown) (machine : Machine) : Prop :=
  ∀ (code : Code) (found : (scene.site.program.pieces[index]?).map Piece.code = some code)
    (small : code.size < 2 ^ 31), ∃ back,
    machine.Comes scene.site.program scene.site.settings (fun last => ∃ entered,
      (scene.site.elsewhere index code found small).Plain 0 last entered ∧
      Entered scene callee values shown.stack shown.floor back argued entered) ∧
    (∀ (inner : Scene) (within : Shown) (leaves rest : List Word),
      inner.site = scene.site.elsewhere index code found small →
      within.stack = leaves.reverse ++ rest → within.floor ≤ within.base →
      leaves.length = scene.context.environment.leavesOf callee.result →
      within.base + 16 + scene.space callee + 8 * shown.stack.length = shown.floor →
      within.bytes.Saves within.base argued.base scene.site.index back →
      within.bytes.Spells (within.base + 16 + scene.space callee) shown.stack →
      inner.Leads (· = within) (popResult callee.block
          (List.range (scene.context.environment.leavesOf callee.result))) fun _ final =>
        ∃ a bytes, final = { within with a, stack := rest, bytes } ∧
          bytes.Saves within.base argued.base scene.site.index back ∧
          bytes.Spells (within.base + 16 + callee.block) (leaves.reverse ++ shown.stack) ∧
          ∀ byte, shown.floor ≤ byte → bytes byte = within.bytes byte) ∧
    ∀ (stop : Nat) (returning : Machine) (final : Shown) (leaves : List Word),
      (scene.site.elsewhere index code found small).Plain stop returning final →
      code[stop]? = some (.instruction ⟨.giveBack, .unused, .unused, 0⟩) →
      Returning scene callee leaves shown.stack shown.floor back argued final →
      returning.Comes scene.site.program scene.site.settings fun last =>
        scene.site.Shows later last { final with
          stack := leaves.reverse ++ shown.stack, floor := shown.floor, base := argued.base }

/-- The caller's part of a call of a function. The call leads to a step that enters the function,
which finds the arguments; and from a return the caller goes on behind the call. -/
theorem takes_function (ready : scene.context.environment.Ready)
    (listed : function ∈ scene.context.environment.functions)
    (done : finishCall (function.callee index)
      ((function.callee index).params.map scene.context.environment.bytesOf).sum true scene.context
        gen = .done (type, later))
    (scopes : gen.scopes = scene.scopes)
    (complete : later.piece.Completes scene.site.code scene.holes)
    (room : Opened scene (function.callee index) shown opened)
    (pushed : Argued opened shown.floor values argued)
    (counts : scene.context.environment.structs.Counts (function.callee index).places values)
    (shows : scene.site.Shows gen.piece machine argued)
    {code : Code} (linked : (scene.site.program.pieces[index]?).map Piece.code = some code)
    (small : code.size < 2 ^ 31) : ∃ back,
    machine.Comes scene.site.program scene.site.settings (fun last =>
      last.Takes scene.site.program scene.site.settings fun entry => ∃ entered,
        (scene.site.elsewhere index code linked small).Plain 0 entry entered ∧
        Entered scene (function.callee index) values shown.stack shown.floor back argued entered) ∧
    ∀ (stop : Nat) (returning : Machine) (final : Shown) (leaves : List Word),
      (scene.site.elsewhere index code linked small).Plain stop returning final →
      code[stop]? = some (.instruction ⟨.giveBack, .unused, .unused, 0⟩) →
      Returning scene (function.callee index) leaves shown.stack shown.floor back argued final →
      returning.Comes scene.site.program scene.site.settings fun last =>
        scene.site.Shows later.piece last { final with
          stack := leaves.reverse ++ shown.stack, floor := shown.floor, base := argued.base } := by
  obtain ⟨piece, found, rfl⟩ := Option.map_eq_some_iff.mp linked
  obtain ⟨level, highest, block⟩ := room.small (pushed.base.trans room.base) shows
  rw [(ready.places_function listed index).2.1, counts.bytesOf] at done
  have laid := ready.laid_function listed index (by
    rw [(ready.places_function listed index).2.1, counts.bytesOf]
    exact few_of_finishCall done complete shows pushed.stack)
  have count := fun addr => counts.length_flatten ready.structs laid.placed addr
  obtain ⟨-, cell, _, rfl, here, next, reaches, returns⟩ := comes_finishCall ready.settled
    ready.structs laid done complete shows scopes block (count argued.floor) pushed.stack
    (pushed.rooms room) level
  have few := scene.site.few
  have inside := (Array.getElem?_eq_some_iff.mp found).1
  have target : (BitVec.ofNat 32 (index + 1)).toInt = index + 1 := by
    rw [BitVec.toInt_ofNat']
    exact Int.bmod_eq_of_le (by omega) (by omega)
  have space : (function.callee index).block ≤ scene.space (function.callee index) :=
    Nat.le_add_left _ _
  refine ⟨cell + 2, reaches.mono ?_, ?_⟩
  · rintro last ⟨called, plain, calling⟩
    refine (plain.takes_call here next target found small calling.empty).mono ?_
    rintro entry ⟨bytes, low, entered, same, saves⟩
    have floor : called.floor - 16 + 16 = called.floor := Nat.sub_add_cancel low
    have place := calling.above
    refine ⟨_, entered, calling.empty, rfl, calling.output, by rw [floor]; exact place, ?_,
      calling.base ▸ saves, ?_, ?_⟩
    · refine counts.passes ready.structs laid.placed ?_
      dsimp only
      rw [floor]
      refine Eq.trans ?_ calling.arguments
      have slots := laid.follow_slots called.floor
      refine Bytes.read_congr (fun slot mem => ?_) fun slot mem byte low high => ?_
      · have start := (slots.mem mem).1
        exact ⟨laid.sized ready.settled ready.structs slot mem, by omega⟩
      · have start := (slots.mem mem).1
        exact same byte (by omega)
    · dsimp only
      rw [floor]
      exact calling.outer.congr fun byte low _ => (same byte (by omega)).symm
    · intro byte high
      have bound := pushed.floor
      have rooms := pushed.rooms room
      refine (same byte (by omega)).trans (calling.bytes byte ?_ (by omega))
      rcases rooms with ⟨-, place, -⟩ | ⟨-, -, place⟩ <;> omega
  · intro stop returning final leaves plain giveBack ends
    have place := ends.place
    refine (plain.comes_giveBack giveBack ends.empty ends.level ends.saves (by omega)
      highest).bind fun last resumed => ?_
    have words := ends.words
    refine returns last _ _ resumed ends.empty ?_ words level
    dsimp only
    rw [List.length_append, List.length_reverse, ends.count, ← place]
    unfold Scene.space wordSize
    omega

theorem functionAgrees (ready : scene.context.environment.Ready)
    (listed : function ∈ scene.context.environment.functions)
    (done : finishCall (function.callee index)
      ((function.callee index).params.map scene.context.environment.bytesOf).sum true scene.context
        gen = .done (type, later))
    (scopes : gen.scopes = scene.scopes)
    (complete : later.piece.Completes scene.site.code scene.holes)
    (room : Opened scene (function.callee index) shown opened)
    (pushed : Argued opened shown.floor values argued)
    (counts : scene.context.environment.structs.Counts (function.callee index).places values)
    (shows : scene.site.Shows gen.piece machine argued) :
    FunctionAgrees scene (function.callee index) index later.piece values shown argued machine := by
  intro code linked small
  obtain ⟨level, highest, -⟩ := room.small (pushed.base.trans room.base) shows
  obtain ⟨back, reaches, returns⟩ := takes_function ready listed done scopes complete room
    pushed counts
    shows linked small
  refine ⟨back, reaches.bind fun last takes => takes.comes, ?_, returns⟩
  intro inner within leaves rest site stack floor counted place saves spells
  refine leads_returning stack counted floor place ?_ saves spells
  rw [site]
  exact Nat.le_trans level highest

/-- The words that a native gives back for a value: its result, cut to its type, if it has one. -/
def given (native : Native) (value : Word) : List Word :=
  match Machine.typeAccess? native.result with
  | some size => [Memory.narrow size value.toNat]
  | none => []

theorem length_given (env : Environment) (native : Native) (value : Word) :
    (given native value).length = env.leavesOf native.callee.result := by
  cases native <;> rfl

/-- An argument of a native is the scalar at its place. -/
theorem argument_place {native : Native} {index : Nat} {place : ValueType × Nat}
    (found : native.callee.places[index]? = some place) :
    ∃ size, native.layout.offsets[index]? = some place.2 ∧
      (native.params[index]?).bind Machine.typeAccess? = some size ∧
      place.2 + size.bytes ≤ native.layout.block ∧
      ∀ (table : StructTable) (addr : Int), (table.shapeOf place.1).slots addr =
        [⟨addr, size.bytes⟩] := by
  have offset := (List.getElem?_zip_eq_some.mp found).2
  cases native <;> rcases index with _ | _ | _ | index <;>
    first
    | exact absurd (show none = some place from found) (by simp)
    | obtain rfl := Option.some.inj found
      exact ⟨_, offset, rfl, by decide, fun table addr => rfl⟩

theorem finds_of_calling (ready : scene.context.environment.Ready) {native : Native} {cell : Nat}
    {moved : Machine} {called : Shown} {outer : List Word} {above : Nat}
    (plain : scene.site.Plain cell moved called)
    (counts : scene.context.environment.structs.Counts native.callee.places values)
    (calling : Calling scene native.callee native.callee.places values.flatten outer above
    argued called)
    (room : above ≤ called.base) :
    Finds scene.context.environment.structs native values moved := by
  intro index place words found given
  obtain ⟨size, offset, width, inside, slots⟩ := argument_place found
  have laid := native.laid scene.context.environment
  have passes := counts.passes ready.structs laid.placed calling.arguments
  have space : native.layout.block ≤ scene.space native.callee := Nat.le_add_left _ _
  have above := calling.above
  refine ⟨_, plain.run_argument_word calling.empty offset width (by omega), ?_⟩
  have read := List.forall₂_iff_get.mp passes
  obtain ⟨bound, here⟩ := List.getElem?_eq_some_iff.mp found
  obtain ⟨bound', here'⟩ := List.getElem?_eq_some_iff.mp given
  have same := read.2 index bound bound'
  simp only [List.get_eq_getElem, here, here', slots] at same
  have code : AccessSize.ofCode? size.bytes.toUInt8 = some size := by cases size <;> rfl
  rw [← same]
  simp only [Bytes.read, List.map_cons, List.map_nil, Bytes.scalar, code, List.cons.injEq, and_true]
  congr 1

/-- A call of a native and the machine agree. The call leads to a step that runs the native, which
finds the arguments; and once the native has given a value as its result, the caller goes on behind
the call with that on its operand stack. -/
def NativeAgrees (scene : Scene) (native : Native) (later : Piece) (values : List (List Word))
    (shown argued : Shown) (machine : Machine) : Prop :=
  ∃ back,
    machine.Comes scene.site.program scene.site.settings (fun last => ∃ called moved,
      last.running = true ∧
      (∀ after, (Machine.callNative scene.site.settings native).run.run moved = (.ok (), after) →
        last.step scene.site.program scene.site.settings = (after, none)) ∧
      scene.site.Plain back moved called ∧
      Handling scene native shown.stack shown.floor argued called ∧
      Finds scene.context.environment.structs native values moved ∧
      called.output = argued.output ∧
      ∀ byte, shown.floor ≤ byte → called.bytes byte = argued.bytes byte) ∧
    ∀ (ending : Machine) (final : Shown) (value : Word),
      scene.site.Plain back ending final →
      Handling scene native shown.stack shown.floor argued final →
      ∃ after, (Machine.giveResult native value).run.run ending = (.ok (), after) ∧
        after.Comes scene.site.program scene.site.settings fun last => ∃ bytes,
          scene.site.Shows later last { final with
            stack := given native value ++ shown.stack, floor := shown.floor, bytes } ∧
          ∀ byte, shown.floor ≤ byte → bytes byte = final.bytes byte

theorem nativeAgrees (ready : scene.context.environment.Ready) {native : Native}
    (done : finishCall native.callee
      (native.callee.params.map scene.context.environment.bytesOf).sum true scene.context
        gen = .done (type, later))
    (scopes : gen.scopes = scene.scopes)
    (complete : later.piece.Completes scene.site.code scene.holes)
    (room : Opened scene native.callee shown opened)
    (pushed : Argued opened shown.floor values argued)
    (counts : scene.context.environment.structs.Counts native.callee.places values)
    (shows : scene.site.Shows gen.piece machine argued) :
    NativeAgrees scene native later.piece values shown argued machine := by
  have laid := native.laid scene.context.environment
  have count := fun addr => counts.length_flatten ready.structs laid.placed addr
  rw [laid.params, counts.bytesOf] at done
  obtain ⟨level, highest, block⟩ := room.small (pushed.base.trans room.base) shows
  obtain ⟨-, cell, imm, names, here, next, reaches, returns⟩ := comes_finishCall ready.settled
    ready.structs laid done complete shows scopes block (count argued.floor) pushed.stack
    (pushed.rooms room) level
  refine ⟨cell + 2, reaches.mono ?_, ?_⟩
  · rintro last ⟨called, plain, calling⟩
    have step := plain.step_eq (plain.fetch_wide here next rfl rfl rfl)
    have moved := plain.moved (cell + 2)
    rw [Site.Plain.run_native names] at step
    refine ⟨called, _, plain.running, fun after run => by rw [step, run], moved, ?_, ?_,
      calling.output, fun byte high => calling.bytes byte ?_ ?_⟩
    · exact ⟨calling.empty, calling.base, calling.above, calling.outer⟩
    · exact finds_of_calling ready moved counts calling (by rw [calling.base]; exact level)
    · rcases pushed.rooms room with ⟨-, place, -⟩ | ⟨-, -, place⟩ <;> omega
    · have above := calling.above
      have space : native.callee.block ≤ scene.space native.callee := Nat.le_add_left _ _
      omega
  · intro ending final value plain handling
    have place := handling.place
    have size : scene.space native.callee = native.callee.block + 8 *
      (given native value).length := by
      rw [length_given scene.context.environment, Nat.add_comm]
      rfl
    cases access : Machine.typeAccess? native.result with
    | none =>
      have nothing : given native value = [] := by rw [given, access]
      rw [nothing, List.length_nil] at size
      refine ⟨ending, ?_, (returns ending final [] plain handling.empty ?_ ?_ ?_).mono ?_⟩
      · simp only [Machine.giveResult, access, Machine.run_pure]
      · rw [List.nil_append]
        omega
      · rw [List.nil_append, show native.callee.block = scene.space native.callee by omega]
        exact handling.outer
      · rw [handling.base]
        exact level
      · intro last reached
        rw [nothing]
        exact ⟨final.bytes, reached, fun _ _ => rfl⟩
    | some width =>
      have something : given native value = [Memory.narrow width
        value.toNat] := by rw [given, access]
      rw [something, List.length_singleton] at size
      have base := handling.base
      have layout : native.callee.block = native.layout.block := rfl
      obtain ⟨after, run, reached⟩ := plain.run_giveResult handling.empty value access (by omega)
      refine ⟨after, run,
        (returns after _ (given native value) reached handling.empty ?_ ?_ ?_).mono ?_⟩
      · rw [something]
        dsimp only
        rw [List.singleton_append, List.length_cons]
        omega
      · rw [something, List.singleton_append, layout]
        refine ⟨?_, ?_⟩
        · exact (Memory.word_store _ _ .eight _).trans (Memory.narrow_eight _)
        · rw [show final.floor + (native.layout.block) + 8 = final.floor + scene.space
            native.callee by
            omega]
          refine handling.outer.congr fun byte low high => ?_
          exact (Memory.store_of_outside (by simp only [AccessSize.bytes]; omega)).symm
      · dsimp only
        omega
      · intro last done
        refine ⟨_, done, fun byte high => ?_⟩
        exact Memory.store_of_outside (by simp only [AccessSize.bytes]; omega)

end

end Scene

namespace Build

/-- A source with a call that passes a byte before a struct and returns the struct. -/
def passing : List Source :=
  [⟨"pass.tin", "struct pair \x7b mark: char; number: int; \x7d\n" ++
    "fun keep(mark: char, both: pair): pair \x7b return both; \x7d\n" ++
    "fun main() \x7b both: pair; keep('x', both); \x7d\n"⟩]

/-- The linked code of main in that source. -/
def passingCode : Code := (((ofSources passing).program.pieces[1]?).map Piece.code).getD #[]

theorem functions_passing : 1 < (Checker.ofFiles
    (filesOf passing)).environment.functions.length := by
  decide +kernel

/-- What the code of main depends on. -/
def passingContext : FunctionContext where
  environment := (Checker.ofFiles (filesOf passing)).environment
  function := (Checker.ofFiles (filesOf passing)).environment.functions.get ⟨1, functions_passing⟩

/-- How far the code of main is generated before the call. -/
def passingStart : Generator where
  piece := { name := "main", code := passingCode.take 8, barrier := 8 }
  file := passingContext.function.file
  scopes := [[("both", .variable (some ⟨.struct "pair", 0⟩) (-8))]]

/-- The call. -/
def passingCall : Expr := .call default "keep" [.character default 0x78, .name default "both"]

/-- How far the code of main is generated behind the call. -/
def passingStop : Option (ValueType × Generator) :=
  match Generate.expr passingCall passingContext passingStart with
  | .done (some type, later) => some (type, later)
  | _ => none

/-- How far the code of main is generated once it has pushed the arguments for a callee. -/
def passingArgued (callee : Generate.Callee) : Option Generator :=
  match Generate.reserveCall callee passingContext passingStart with
  | .done (_, opening) =>
    match Generate.callArguments "keep" [.character default 0x78, .name default "both"]
      callee.params
      passingContext opening with
    | .done (_, arguing) => some arguing
    | _ => none
  | _ => none

end Build

end TinLang
