import TinLang.Proofs.Simulation.Evaluation
import TinLang.Semantics.Direct

/-!
# Variables in memory

The names of a running function stand for places: variables in its frame, parameters in its argument
block, global variables in the data segment. A place of the store is some consecutive scalars of
one of them, and stands at an address. The code of a name pushes what the store binds it to; that of
a place pushes its address, and the code that loads or stores through the address reads or assigns
the place.
-/
namespace TinLang

/-- The structs of a program whose code runs. -/
abbrev Scene.table (scene : Scene) : StructTable := scene.context.environment.structs

/-- A program without pointers whose check finds nothing wrong, with values and calls whose sizes
fit the immediates that count their bytes. -/
structure Environment.Direct (env : Environment) : Prop where
  ready : env.Ready
  members : ∀ name, ∀ mem ∈ (env.structs.get name).members, mem.type.pointer = 0
  params : ∀ function ∈ env.functions, ∀ parameter ∈ function.params, ∀ type,
    parameter.type = some type → type.pointer = 0
  results : ∀ function ∈ env.functions, function.result.pointer = 0
  values : ∀ type, env.bytesOf type < 2 ^ 31
  calls : ∀ function ∈ env.functions,
    env.bytesOf (some function.result) + function.block ≤ 2 ^ 31

/-- A value has at most a word for each scalar. -/
theorem Environment.Direct.bounded {env : Environment} (prog : env.Direct)
    (type : ValueType) : (env.structs.shapeOf type).Fits (env.structs.sizeOf type) ∧
      env.structs.sizeOf type ≤ wordSize * env.structs.leavesOf type :=
  prog.ready.settled.fits (Nat.lt_trans (prog.values (some type)) (by decide))

theorem Environment.Direct.roomy {env : Environment} (prog : env.Direct) :
    env.Roomy :=
  ⟨prog.ready, fun type => (prog.bounded type).1⟩

/-- What a name stands for has nothing to do with pointers. -/
def Referent.Direct : Referent → Prop
  | .place _ type => type.pointer = 0
  | .constant value => (Value.ofLiteral? value.value).isSome

/-- What changes while an expression is evaluated: no byte of the operand stack, nor of the header
of the frame, nor of the stack above the argument block. -/
structure Quiet (level roof : Nat) (before after : Shown) : Prop where
  floor : after.floor = before.floor
  base : after.base = before.base
  bytes : ∀ place, before.floor ≤ place → place < Memory.dataBase →
    (place < level ∨ (before.base ≤ place ∧ place < before.base + 16) ∨ roof ≤ place) →
    after.bytes place = before.bytes place

namespace Quiet

variable {level roof : Nat} {before between after : Shown}

theorem of_same (floor : after.floor = before.floor) (base : after.base = before.base)
    (bytes : after.bytes = before.bytes) : Quiet level roof before after :=
  ⟨floor, base, fun _ _ _ _ => by rw [bytes]⟩

theorem refl (shown : Shown) : Quiet level roof shown shown := of_same rfl rfl rfl

theorem trans (first : Quiet level roof before between) (second : Quiet level roof between after) :
    Quiet level roof before after where
  floor := second.floor.trans first.floor
  base := second.base.trans first.base
  bytes place low high kept := by
    rw [second.bytes place (first.floor ▸ low) high (first.base ▸ kept),
      first.bytes place low high kept]

end Quiet

namespace Bindings

theorem length_overwrite (name : Text) (first : Nat) (words : List Word) (bindings : Bindings) :
    (bindings.overwrite name first words).length = bindings.length := by
  induction bindings with
  | nil => rfl
  | cons entry bindings ih =>
    obtain ⟨other, binding⟩ := entry
    rw [Bindings.overwrite]
    split
    · rfl
    · rw [List.length_cons, ih, List.length_cons]

/-- The first variable of a name is one of the first bindings, or it is one of the rest. -/
theorem overwrite_append (name : Text) (first : Nat) (words : List Word) (inner outer : Bindings) :
    Bindings.overwrite name first words (inner ++ outer) =
      if (inner.lookup name).isSome then inner.overwrite name first words ++ outer
      else inner ++ outer.overwrite name first words := by
  induction inner with
  | nil => rfl
  | cons entry inner ih =>
    obtain ⟨other, binding⟩ := entry
    rw [List.cons_append, Bindings.overwrite, Bindings.overwrite, List.lookup_cons, ih]
    cases name == other with
    | true => rfl
    | false =>
      simp only [Bool.false_eq_true, if_false]
      split <;> rfl

end Bindings

namespace Scene

open Generate

variable {scene : Scene} {shown : Shown} {base level roof : Nat} {place : Place} {addr : Nat}

/-- What the names in scope stand for in the frame at an address. -/
def referents (scene : Scene) (base : Nat) : Referents :=
  frameReferents base scene.scopes ++ scene.context.environment.referents

/-- Where the names of a running function stand: variables in its frame from a level on, parameters
between the header of the frame and a roof, and the names of the whole program in the data
segment. -/
structure Stands (scene : Scene) (base level roof : Nat) : Prop where
  program : scene.context.environment.Direct
  hosts : scene.context.environment.Hosts (scene.referents base)
  direct : ∀ entry ∈ scene.referents base, entry.2.Direct
  locals : ∀ entry ∈ frameReferents base scene.scopes, ∀ (addr : Int) type,
    entry.2 = .place addr type →
      ((level : Int) ≤ addr ∧ addr + scene.table.sizeOf type ≤ base) ∨
      ((base : Int) + 16 ≤ addr ∧
        addr + scene.table.sizeOf type ≤ roof)
  globals : ∀ entry ∈ scene.context.environment.referents, ∀ (addr : Int) type,
    entry.2 = .place addr type → (Memory.dataBase : Int) ≤ addr ∧
      addr + scene.table.sizeOf type ≤ Memory.dataBase + scene.site.dataSize
  below : level ≤ base
  above : base ≤ roof
  highest : roof ≤ scene.site.top

/-- The scalars of a place of the store stand at an address. -/
structure Locates (scene : Scene) (base : Nat) (place : Place) (addr : Nat) : Prop where
  nonvoid : place.type ≠ .void
  direct : place.type.pointer = 0
  part : ∃ (home : Int) (kind : ValueType) (before after : List Slot),
    (scene.referents base).lookup place.name = some (.place home kind) ∧
    (scene.table.shapeOf kind).slots home =
      before ++ (scene.table.shapeOf place.type).slots addr ++ after ∧
    place.first = before.length ∧ home ≤ addr ∧
    addr + scene.table.sizeOf place.type ≤ home + scene.table.sizeOf kind

theorem visible_store (scene : Scene) (shown : Shown) : (scene.store shown).visible =
    shown.bytes.bindings scene.table (scene.referents shown.base) :=
  (bindings_append ..).symm

/-- The store knows what a name stands for. -/
theorem run_find {name : Text} {referent : Referent} (found : (scene.referents shown.base).lookup
    name = some referent) :
    (Eval.find name).run.run (scene.store shown) =
      (.ok (referent.binding scene.table shown.bytes), scene.store shown) := by
  have known : (scene.store shown).visible.lookup name =
      some (referent.binding scene.table shown.bytes) := by
    rw [visible_store, lookup_bindings, found]
    rfl
  refine (@Eval.run_bind_ok Store _ _ _ _ _ (scene.store shown) rfl).trans ?_
  rw [known]
  rfl

theorem Locates.run_read (locates : scene.Locates shown.base place addr)
    (stands : scene.Stands shown.base level roof) :
    (Eval.read scene.table place).run.run (scene.store shown) =
      (.ok ⟨place.type, shown.bytes.read
        ((scene.table.shapeOf place.type).slots addr)⟩, scene.store shown) := by
  obtain ⟨home, kind, before, after, found, parts, first, -, -⟩ := locates.part
  have count := Shape.length_slots (stands.program.ready.structs.shapeOf locates.nonvoid)
    (addr : Int)
  refine (Eval.run_bind_ok (run_find found)).trans ?_
  show (Except.ok (Value.mk place.type _), _) = _
  have words : (((Referent.place home kind).binding scene.table shown.bytes).value.words.drop
      place.first).take (scene.table.leavesOf place.type) =
      shown.bytes.read ((scene.table.shapeOf place.type).slots addr) := by
    show ((shown.bytes.read _).drop _).take _ = _
    rw [parts, Bytes.read_append, Bytes.read_append, first, List.append_assoc,
      List.drop_left' (Bytes.length_read before), List.take_left']
    rw [Bytes.length_read, count]
    rfl
  rw [words]

/-- Bytes that are stored at the address of a place change the store as an assignment does. -/
theorem Locates.run_assign (locates : scene.Locates shown.base place addr)
    (stands : scene.Stands shown.base level roof) {value : Value}
    (count : value.words.length = scene.table.leavesOf place.type) :
    (Eval.assign scene.table place value).run.run (scene.store shown) =
      (.ok (), scene.store { shown with
        bytes := shown.bytes.keep
          ((scene.table.shapeOf place.type).slots addr) value.words }) := by
  obtain ⟨home, kind, before, after, found, parts, first, -, -⟩ := locates.part
  have length := Shape.length_slots (stands.program.ready.structs.shapeOf locates.nonvoid)
    (addr : Int)
  have kept : (shown.bytes.keep _ value.words).bindings _ (scene.referents shown.base) = _ :=
    stands.program.roomy.bindings_keep stands.hosts found parts (count.trans length.symm)
  rw [referents, bindings_append, bindings_append, Bindings.overwrite_append, ← first,
    StructTable.map_size_slots] at kept
  show (Except.ok (), (scene.store shown).write place _) = _
  refine congrArg (Prod.mk _) ?_
  rw [Store.write]
  split at kept
  · next isLocal =>
    obtain ⟨locals, globals⟩ := List.append_inj kept (by
      rw [Bindings.length_overwrite]
      simp only [Bytes.bindings, List.length_map])
    rw [if_pos (show ((scene.store shown).locals.lookup place.name).isSome from isLocal)]
    simp only [store, Environment.storeIn, locals, globals]
    rfl
  · next isGlobal =>
    obtain ⟨locals, globals⟩ := List.append_inj kept
      (by simp only [Bytes.bindings, List.length_map])
    rw [if_neg (show ¬ ((scene.store shown).locals.lookup place.name).isSome from isGlobal)]
    simp only [store, Environment.storeIn, locals, globals]
    rfl

/-- The scalars of a place lie inside a variable, which lies in one of three regions. -/
theorem Locates.slots (locates : scene.Locates base place addr)
    (stands : scene.Stands base level roof) : ∃ (home : Int) (size : Nat),
      ((level : Int) ≤ home ∧ home + size ≤ base ∨ (base : Int) + 16 ≤ home ∧ home + size ≤ roof ∨
        (Memory.dataBase : Int) ≤ home ∧ home + size ≤ Memory.dataBase + scene.site.dataSize) ∧
      home ≤ addr ∧ addr + scene.table.sizeOf place.type ≤ home + size ∧
      ∀ slot ∈ (scene.table.shapeOf place.type).slots addr,
        slot.Sized ∧ home ≤ slot.offset ∧ slot.offset + slot.size ≤ home + size := by
  obtain ⟨home, kind, before, after, found, parts, -, low, high⟩ := locates.part
  have listed : (place.name, Referent.place home kind) ∈ scene.referents base := mem_of_lookup found
  obtain ⟨nonvoid, -⟩ := stands.hosts.placed _ listed home kind rfl
  refine ⟨home, scene.table.sizeOf kind, ?_, low, high, fun slot mem => ?_⟩
  · rcases List.mem_append.mp listed with inside | inside
    · rcases stands.locals _ inside home kind rfl with frame | block
      · exact .inl frame
      · exact .inr (.inl block)
    · exact .inr (.inr (stands.globals _ inside home kind rfl))
  · refine stands.program.roomy.slots nonvoid ?_
    rw [parts]
    simp [mem]

/-- Immediates reach the scalars of a place from its address, and those of a variable in the frame
from the base of the frame. -/
theorem Locates.within (locates : scene.Locates base place addr)
    (stands : scene.Stands base level roof) {floor origin : Nat} {offset : Int}
    (low : floor ≤ level) (start : (addr : Int) = origin + offset)
    (near : offset = 0 ∨ origin = base ∧ offset + scene.table.sizeOf place.type ≤ Memory.dataBase) :
    scene.Within floor origin ((scene.table.shapeOf place.type).slots offset) := by
  obtain ⟨home, size, region, above, -, inside⟩ := locates.slots stands
  intro slot mem
  have there : slot.shift origin ∈ (scene.table.shapeOf place.type).slots addr := by
    rw [start, Int.add_comm, Shape.slots_add]
    exact List.mem_map_of_mem mem
  obtain ⟨⟨access, width, bytes⟩, least, most⟩ := inside _ there
  have positive : 0 < access.bytes := by cases access <;> decide
  have shifted : (slot.shift origin).offset = slot.offset + origin := rfl
  have same : (slot.shift origin).size = slot.size := rfl
  have first := ((stands.program.roomy.fits place.type offset).mem mem).1
  have last : slot.offset + slot.size ≤ offset + scene.table.sizeOf place.type :=
    ((stands.program.roomy.fits place.type offset).mem mem).2
  have below := stands.below
  have roofs := stands.above
  have highest := stands.highest
  have top := scene.site.below
  have data := scene.site.data
  have base30 : Memory.dataBase = 2 ^ 30 := rfl
  refine ⟨?_, ?_, ⟨access, width, bytes⟩, ?_, ?_⟩
  · omega
  · omega
  · omega
  · omega

end Scene

namespace Value

/-- A literal that is no pointer is one scalar. -/
theorem scalar_of_ofLiteral? {e : Expr} {value : Value} (literal : ofLiteral? e = some value)
    (table : StructTable) : value.type.pointer = 0 ∧ value.words.length = 1 ∧
      table.leavesOf value.type = 1 := by
  unfold ofLiteral? at literal
  split at literal <;> cases literal <;> exact ⟨rfl, rfl, rfl⟩

end Value

namespace Scene

open Generate

/-- A value of a known type lies on some words, and nothing else has changed that matters. -/
structure Pushes (scene : Scene) (level roof : Nat) (shown : Shown) (rest : List Word)
    (found : Option ValueType) (value : Value) (final : Shown) : Prop where
  type : found = some value.type
  direct : value.type.pointer = 0
  count : value.words.length = scene.table.leavesOf value.type
  stack : final.stack = value.words.reverse ++ rest
  quiet : Quiet level roof shown final

variable {scene : Scene} {shown : Shown} {bound base level roof : Nat} {place : Place} {addr : Nat}

/-- The code of a literal pushes its value. -/
theorem leads_literal {e : Expr} {value : Value} (literal : Value.ofLiteral? e = some value) :
    scene.Leads (· = shown) (Generate.literal e) fun found final =>
      found = some value.type ∧ ∃ a, final = { shown with
        a, stack := value.words.reverse ++ shown.stack } := by
  have number : ∀ (number : Int) (type : ValueType), scene.Leads (· = shown) (do
      pushNumber number
      return some type) fun found final => found = some type ∧ ∃ a, final = { shown with
        a, stack := [Value.literalWord number].reverse ++ shown.stack } :=
    fun number type => .bind leads_pushNumber fun _ => .pure fun _ here => ⟨rfl, _, here⟩
  unfold Value.ofLiteral? at literal
  split at literal <;> cases literal <;> exact number _ _

/-- A value is converted to a wanted type. -/
theorem leads_coerce {value : Value} {rest : List Word} (wanted : ValueType)
    (count : value.words.length = scene.table.leavesOf value.type)
    (stack : shown.stack = value.words.reverse ++ rest) :
    scene.Leads (· = shown) (coerce (some value.type) (some wanted)) fun found final =>
      found = some (value.coerce wanted).type ∧ ∃ a, final = { shown with
        a, stack := (value.coerce wanted).words.reverse ++ rest } := by
  unfold Generate.coerce Value.coerce
  simp only [Option.some.injEq]
  refine .ite (fun converts => ?_) fun same => ?_
  · obtain ⟨word, words⟩ : ∃ word, value.words = [word] :=
      List.length_eq_one_iff.mp (by rw [count, converts.1]; rfl)
    rw [words] at stack
    rw [if_pos converts, words]
    refine .next (leads_pop rfl stack) (fun _ => (emits_convert _ _).bind fun _ =>
      (emits_push _).bind fun _ => .pure _) ?_
    rintro _ _ rfl
    refine .next (leads_convert _ rfl) (fun _ => (emits_push _).bind fun _ => .pure _) ?_
    rintro _ _ rfl
    exact .bind (leads_push rfl) fun _ => .pure fun _ here => ⟨rfl, _, here⟩
  · rw [if_neg same]
    refine .pure ?_
    rintro _ rfl
    exact ⟨rfl, _, by rw [← stack]⟩

/-- What is converted is a value of its type as before. -/
theorem count_coerce {table : StructTable} {value : Value} (wanted : ValueType)
    (direct : value.type.pointer = 0) (count : value.words.length = table.leavesOf value.type) :
    (value.coerce wanted).type.pointer = 0 ∧
      (value.coerce wanted).words.length = table.leavesOf (value.coerce wanted).type := by
  unfold Value.coerce
  split
  · next converts =>
    refine ⟨rfl, ?_⟩
    rw [List.length_map, count, converts.1]
    rfl
  · exact ⟨direct, count⟩

theorem leads_constantValue {constant : Constant} {value : Value}
    (literal : Value.ofLiteral? constant.value = some value) :
    scene.Leads (· = shown) (constantValue constant) fun found final =>
      found = some (value.coerce constant.type).type ∧ ∃ a, final = { shown with
        a, stack := (value.coerce constant.type).words.reverse ++ shown.stack } := by
  obtain ⟨-, one, leaves⟩ := Value.scalar_of_ofLiteral? literal scene.table
  refine .next (leads_literal literal) (fun _ => emits_coerce _ _) ?_
  rintro _ _ ⟨rfl, a, rfl⟩
  refine (leads_coerce constant.type (one.trans leaves.symm) rfl).weaken ?_
  rintro _ _ ⟨rfl, b, rfl⟩
  exact ⟨rfl, b, rfl⟩

/-- The code of a constant pushes its value. -/
theorem runs_constantValue {constant : Constant}
    (literal : (Value.ofLiteral? constant.value).isSome) :
    scene.Runs bound shown (constantValue constant) (pure constant.meaning)
      (scene.Pushes level roof shown shown.stack) := by
  obtain ⟨value, found⟩ := Option.isSome_iff_exists.mp literal
  obtain ⟨direct, one, leaves⟩ := Value.scalar_of_ofLiteral? found scene.table
  obtain ⟨direct', count⟩ := count_coerce constant.type direct (one.trans leaves.symm)
  rw [Constant.meaning, found]
  refine .of_leads (leads_constantValue found) ?_
  rintro _ _ ⟨rfl, a, rfl⟩
  exact ⟨_, rfl, rfl, direct', count, rfl, .of_same rfl rfl rfl⟩

/-- A variable in scope is a place. -/
theorem Stands.variable (stands : scene.Stands shown.base level roof) {name : Text} {home : Int}
    {kind : ValueType} (found : (scene.referents shown.base).lookup name =
    some (.place home kind)) :
    scene.Locates shown.base ⟨name, 0, kind⟩ home.toNat ∧ (home.toNat : Int) = home := by
  have listed : (name, Referent.place home kind) ∈ scene.referents shown.base := mem_of_lookup found
  obtain ⟨nonvoid, low⟩ := stands.hosts.placed _ listed home kind rfl
  have same : (home.toNat : Int) = home := Int.toNat_of_nonneg low
  refine ⟨⟨nonvoid, stands.direct _ listed, home, kind, [], [], found, ?_, rfl, ?_⟩, same⟩
  · rw [same, List.nil_append, List.append_nil]
  · rw [same]
    exact ⟨Int.le_refl _, Int.le_refl _⟩

/-- What a name of the scene stands for while its code runs. -/
theorem lookup_scene (scene : Scene) (base : Nat) (name : Text) :
    (scene.referents base).lookup name =
    (meaningIn scene.context.environment scene.scopes name).referent? base :=
  lookup_referents ..

/-- The scalars at a place are pushed. -/
theorem Locates.leads_push (locates : scene.Locates base place addr)
    (stands : scene.Stands base level roof) (low : shown.floor ≤ level) {reg : Register}
    {origin : Nat} {offset : Int} (points : Points reg)
    (start : shown.get reg = BitVec.ofNat 64 origin)
    (sum : (addr : Int) = origin + offset)
    (near : offset = 0 ∨ origin = base ∧
      offset + scene.table.sizeOf place.type ≤ Memory.dataBase) :
    scene.Leads (· = shown) (pushFrom reg offset (some place.type)) fun _ final =>
      ∃ a, final = { shown with
        a, stack := (shown.bytes.read ((scene.table.shapeOf place.type).slots addr)).reverse ++
          shown.stack } := by
  refine (leads_pushFrom origin points start (locates.within stands low sum near)).weaken ?_
  rintro _ _ ⟨a, rfl⟩
  exact ⟨a, by rw [sum, Int.add_comm]⟩

/-- The value at a place is one of its type. -/
theorem Locates.count (locates : scene.Locates base place addr)
    (stands : scene.Stands base level roof) {bytes : Bytes} :
    (bytes.read ((scene.table.shapeOf place.type).slots addr)).length =
      scene.table.leavesOf place.type :=
  (Bytes.length_read _).trans (Shape.length_slots (stands.program.ready.structs.shapeOf
    locates.nonvoid) _)

/-- What a local variable stands for is in the frame. -/
theorem lookup_frame {name : Text} {type : Option ValueType} {offset : Int} (base : Nat)
    (meant : meaningIn scene.context.environment scene.scopes name = .variable type offset) :
    (frameReferents base scene.scopes).lookup name =
      some (.place (base + offset) (type.getD .void)) := by
  rw [frameReferents, lookup_map, lookup_flatten]
  unfold meaningIn at meant
  split at meant
  · next found =>
    cases meant
    rw [found]
    rfl
  · cases meant
  · split at meant <;> cases meant

/-- What a global variable stands for is in the data segment. -/
theorem mem_globals {name : Text} {place : Global}
    (meant : meaningIn scene.context.environment scene.scopes name = .global place) :
    place ∈ scene.context.environment.globals := by
  unfold meaningIn at meant
  split at meant
  · cases meant
  · cases meant
  · split at meant <;> cases meant
    next found => exact List.mem_of_find?_eq_some found

/-- A local variable is a place near the base of the frame. -/
theorem Stands.local' (stands : scene.Stands shown.base level roof) {name : Text}
    {type : Option ValueType} {offset : Int}
    (meant : meaningIn scene.context.environment scene.scopes name = .variable type offset) :
    ∃ (kind : ValueType) (addr : Nat), type = some kind ∧
      scene.Locates shown.base ⟨name, 0, kind⟩ addr ∧ (addr : Int) = shown.base + offset ∧
      offset + scene.table.sizeOf kind ≤ Memory.dataBase ∧
      (scene.referents shown.base).lookup name = some (.place addr kind) := by
  have known := lookup_scene scene shown.base name
  rw [meant] at known
  obtain ⟨locates, same⟩ := stands.variable known
  have region := stands.locals _ (mem_of_lookup (lookup_frame shown.base meant)) _ _ rfl
  have below := scene.site.below
  have highest := stands.highest
  have above := stands.above
  cases type with
  | none => exact absurd rfl locates.nonvoid
  | some kind =>
    simp only [Option.getD_some] at region
    refine ⟨kind, _, rfl, locates, same, by omega, ?_⟩
    rw [known, same]
    rfl

/-- A global variable is a place in the data segment. -/
theorem Stands.global (stands : scene.Stands shown.base level roof) {name : Text} {place : Global}
    (meant : meaningIn scene.context.environment scene.scopes name = .global place) :
    ∃ addr : Nat, scene.Locates shown.base ⟨name, 0, place.type⟩ addr ∧
      BitVec.ofNat 64 Memory.dataBase + (BitVec.ofInt 32 place.offset).signExtend 64 =
        BitVec.ofNat 64 addr ∧
      (scene.referents shown.base).lookup name = some (.place addr place.type) := by
  have known := lookup_scene scene shown.base name
  rw [meant] at known
  obtain ⟨locates, same⟩ := stands.variable known
  have listed : (place.name, Referent.place (Memory.dataBase + place.offset) place.type) ∈
      scene.context.environment.referents :=
    List.mem_append_left _ (List.mem_map_of_mem (mem_globals meant))
  have region := stands.globals _ listed _ _ rfl
  have data := scene.site.data
  refine ⟨_, locates, ?_, by rw [known, same]; rfl⟩
  refine (address_add (by omega) (by omega) (by omega)).trans ?_
  rfl

/-- The code of a name pushes what the name is bound to. -/
theorem runs_nameValue (span : Span) (name : Text) (stands : scene.Stands shown.base level roof)
    (low : shown.floor ≤ level) :
    scene.Runs bound shown (nameValue span name) (do return (← Eval.find name).value)
      (scene.Pushes level roof shown shown.stack) := by
  have known := lookup_scene scene shown.base name
  refine .look (fun gen same => by rw [meaning_eq, same]) ?_
  rcases meant : meaningIn scene.context.environment scene.scopes name with
    ⟨type, offset⟩ | place | value | _
  · obtain ⟨kind, addr, rfl, locates, sum, near, found⟩ := stands.local' meant
    refine .of_leads (.bind (locates.leads_push stands low (.inr rfl) rfl sum (.inr ⟨rfl, near⟩))
      fun _ => @Leads.pure _ _ _ _ (fun found final => found = some kind ∧ ∃ a, final = { shown with
        a, stack := (shown.bytes.read ((scene.table.shapeOf kind).slots addr)).reverse ++
          shown.stack }) fun _ reached => ⟨rfl, reached⟩) ?_
    rintro _ _ ⟨rfl, a, rfl⟩
    exact ⟨_, Eval.run_bind_ok (run_find found), rfl, locates.direct, locates.count stands, rfl,
      .of_same rfl rfl rfl⟩
  · obtain ⟨addr, locates, sum, found⟩ := stands.global meant
    have leads : scene.Leads (· = shown) (do
        setDataAddress .b place.offset
        pushFrom .b 0 (some place.type)
        return some place.type) fun found final => found = some place.type ∧
          ∃ a, final = { shown with
            a
            b := BitVec.ofNat 64 addr
            stack := (shown.bytes.read ((scene.table.shapeOf place.type).slots addr)).reverse ++
              shown.stack } := by
      refine .next (leads_setDataAddress rfl) (fun _ => (emits_pushFrom _ _ _).bind fun _ =>
        .pure _) ?_
      rintro _ _ rfl
      rw [sum]
      refine .bind (locates.leads_push stands (by exact low) (.inl rfl) (by rfl)
        (Int.add_zero _).symm (.inl rfl))
        fun _ => .pure ?_
      rintro _ ⟨a, rfl⟩
      exact ⟨rfl, a, rfl⟩
    refine .of_leads leads ?_
    rintro _ _ ⟨rfl, a, rfl⟩
    exact ⟨_, Eval.run_bind_ok (run_find found), rfl, locates.direct, locates.count stands, rfl,
      .of_same rfl rfl rfl⟩
  · rw [meant] at known
    refine .find (run_find known) ?_
    exact runs_constantValue (stands.direct _ (mem_of_lookup known))
  · exact .refused

end Scene

end TinLang
