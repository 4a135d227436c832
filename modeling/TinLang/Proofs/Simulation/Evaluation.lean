import TinLang.Proofs.Simulation.Convention
import TinLang.Semantics.Statement

/-!
# Code that does what an evaluation says

What the names in scope are bound to can be read off the memory of a machine, so there is no
relation to keep between stores and machines, only a function. A machine meets an evaluation when it
comes to what the result of the evaluation asks for: it divides by zero where the evaluation does,
and lasts as long as the bound of an evaluation that is not finished. `Scene.Runs` says so of the
code that a step of a generator emits, from the store that memory holds.
-/
namespace TinLang

/-- What a name stands for while code runs. -/
inductive Referent where
  /-- A variable at an address. -/
  | place (addr : Int) (type : ValueType)
  /-- A constant. -/
  | constant (value : Constant)

/-- Names and what they stand for. -/
abbrev Referents := List (Text × Referent)

/-- What a local name stands for in the frame at an address. -/
def LocalMeaning.referent (base : Nat) : LocalMeaning → Referent
  | .variable type offset => .place (base + offset) (type.getD .void)
  | .constant value => .constant value

/-- What the local names stand for in the frame at an address, the innermost first. -/
def frameReferents (base : Nat) (scopes : List Scope) : Referents :=
  scopes.flatten.map fun entry => (entry.1, entry.2.referent base)

/-- What the names of the whole program stand for. -/
def Environment.referents (env : Environment) : Referents :=
  env.globals.map (fun place =>
    (place.name, .place (Memory.dataBase + place.offset) place.type)) ++
  env.constants.map fun constant => (constant.name, .constant constant)

/-- What a name is bound to when memory holds some bytes. -/
def Referent.binding (table : StructTable) (bytes : Bytes) : Referent → Binding
  | .place addr type => .variable ⟨type, bytes.read ((table.shapeOf type).slots addr)⟩
  | .constant value => .constant value.meaning

/-- What some names are bound to when memory holds some bytes. -/
def Bytes.bindings (bytes : Bytes) (table : StructTable) (referents : Referents) : Bindings :=
  referents.map fun entry => (entry.1, entry.2.binding table bytes)

/-- What a name stands for in the frame at an address. -/
def Generate.Meaning.referent? (base : Nat) : Meaning → Option Referent
  | .variable type offset => some (.place (base + offset) (type.getD .void))
  | .global place => some (.place (Memory.dataBase + place.offset) place.type)
  | .constant value => some (.constant value)
  | .undefined => none

theorem lookup_flatten {scopes : List Scope} {name : Text} :
    scopes.flatten.lookup name = scopes.findSome? fun (scope : Scope) => scope.lookup name := by
  induction scopes with
  | nil => rfl
  | cons scope scopes ih =>
    rw [List.flatten_cons, List.lookup_append, List.findSome?_cons, ih]
    cases scope.lookup name <;> rfl

theorem lookup_map {α β γ : Type} [BEq α] (entries : List (α × β)) (function : β → γ) (key : α) :
    (entries.map fun entry => (entry.1, function entry.2)).lookup key =
      (entries.lookup key).map function := by
  induction entries with
  | nil => rfl
  | cons entry entries ih =>
    rw [List.map_cons, List.lookup_cons, List.lookup_cons, ih]
    cases key == entry.1 <;> rfl

theorem lookup_of_find? {α β : Type} (entries : List α) (name : α → Text) (value : α → β)
    (key : Text) :
    (entries.map fun entry => (name entry, value entry)).lookup key =
      (entries.find? fun entry => name entry == key).map value := by
  induction entries with
  | nil => rfl
  | cons entry entries ih =>
    rw [List.map_cons, List.lookup_cons, List.find?_cons, ih, Bool.beq_comm]
    cases name entry == key <;> rfl

/-- Code and names agree on what a name stands for. -/
theorem lookup_referents (env : Environment) (base : Nat) (scopes : List Scope) (name : Text) :
    (frameReferents base scopes ++ env.referents).lookup name =
      (Generate.meaningIn env scopes name).referent? base := by
  rw [List.lookup_append, frameReferents, lookup_map, lookup_flatten, Environment.referents,
    List.lookup_append, lookup_of_find?, lookup_of_find?, Generate.meaningIn]
  cases scopes.findSome? fun (scope : Scope) => scope.lookup name with
  | some found => cases found <;> rfl
  | none =>
    show (((env.global? name).map _).or ((env.constant? name).map _)) = _
    cases env.global? name with
    | some place => rfl
    | none => cases env.constant? name <;> rfl

theorem lookup_bindings (bytes : Bytes) (table : StructTable) (referents : Referents)
    (name : Text) :
    (bytes.bindings table referents).lookup name = (referents.lookup name).map
    (Referent.binding table bytes) :=
  lookup_map referents _ name

theorem bindings_append (bytes : Bytes) (table : StructTable) (referents more : Referents) :
    bytes.bindings table (referents ++ more) = bytes.bindings table referents ++ bytes.bindings
      table more :=
  List.map_append

namespace Environment

/-- No two of some places overlap, and every access reaches a scalar there. -/
structure Hosts (env : Environment) (referents : Referents) : Prop where
  placed : ∀ entry ∈ referents, ∀ (addr : Int) type, entry.2 = .place addr type →
    type ≠ .void ∧ 0 ≤ addr
  apart : referents.Pairwise fun entry other => ∀ (addr : Int) type (place : Int) kind,
    entry.2 = .place addr type → other.2 = .place place kind →
      addr + env.structs.sizeOf type ≤ place ∨
        place + env.structs.sizeOf kind ≤ addr

variable {env : Environment} {referents : Referents} {bytes others : Bytes}

theorem Hosts.tail {entry : Text × Referent} (hosts : env.Hosts (entry :: referents)) :
    env.Hosts referents :=
  ⟨fun other mem => hosts.placed other (List.mem_cons_of_mem _ mem),
    (List.pairwise_cons.mp hosts.apart).2⟩

/-- What a check promises when no value has a size that wraps around. -/
structure Roomy (env : Environment) : Prop extends env.Ready where
  fits : ∀ type, (env.structs.shapeOf type).Fits (env.structs.sizeOf type)

/-- The scalars of a value lie inside its bytes, and are reached by one access. -/
theorem Roomy.slots (roomy : env.Roomy) {type : ValueType} (placed : type ≠ .void)
    {addr : Int} {slot : Slot}
    (mem : slot ∈ (env.structs.shapeOf type).slots addr) :
    slot.Sized ∧ addr ≤ slot.offset ∧
      slot.offset + slot.size ≤ addr + env.structs.sizeOf type :=
  ⟨roomy.settled.sized roomy.structs placed addr slot mem,
    (roomy.fits type addr).mem mem⟩

/-- The scalars of a value from an address on can be accessed there. -/
theorem Roomy.held (roomy : env.Roomy) {type : ValueType} (placed : type ≠ .void)
    {addr : Int} (low : 0 ≤ addr) :
    ∀ slot ∈ (env.structs.shapeOf type).slots addr, slot.Sized ∧ 0 ≤ slot.offset := by
  intro slot mem
  obtain ⟨sized, start, -⟩ := roomy.slots placed mem
  exact ⟨sized, Int.le_trans low start⟩

/-- Where no byte changes, names are bound to the same. -/
theorem Roomy.bindings_congr (roomy : env.Roomy)
    (placed : ∀ entry ∈ referents, ∀ (addr : Int) type, entry.2 = .place addr type →
      type ≠ .void ∧ 0 ≤ addr)
    (same : ∀ entry ∈ referents, ∀ (addr : Int) type, entry.2 = .place addr type →
      ∀ place : Nat, addr ≤ place → (place : Int) < addr + env.structs.sizeOf type →
        bytes place = others place) :
    bytes.bindings env.structs referents = others.bindings env.structs referents := by
  refine List.map_congr_left fun entry mem => ?_
  obtain ⟨name, referent⟩ := entry
  cases referent with
  | constant value => rfl
  | place addr type =>
    obtain ⟨nonvoid, low⟩ := placed _ mem addr type rfl
    have read : bytes.read ((env.structs.shapeOf type).slots addr) =
        others.read ((env.structs.shapeOf type).slots addr) := by
      refine Bytes.read_congr (roomy.held nonvoid low) fun slot inside place above below => ?_
      obtain ⟨-, start, stop⟩ := roomy.slots nonvoid inside
      exact same _ mem addr type rfl place (by omega) (by omega)
    rw [Referent.binding, Referent.binding, read]

section

variable {addr : Int} {type : ValueType} {before slots after : List Slot} {words : List Word}

/-- What is stored in a variable changes no name that stands for other places. -/
theorem Roomy.bindings_of_clear (roomy : env.Roomy) (nonvoid : type ≠ .void)
    (low : 0 ≤ addr)
    (inside : ∀ slot ∈ slots, slot ∈ (env.structs.shapeOf type).slots addr)
    (placed : ∀ entry ∈ referents, ∀ (addr : Int) type, entry.2 = .place addr type →
      type ≠ .void ∧ 0 ≤ addr)
    (clear : ∀ entry ∈ referents, ∀ (home : Int) kind, entry.2 = .place home kind →
      addr + env.structs.sizeOf type ≤ home ∨
        home + env.structs.sizeOf kind ≤ addr) :
    (bytes.keep slots words).bindings env.structs referents =
      bytes.bindings env.structs referents := by
  refine roomy.bindings_congr placed fun entry mem home kind stands place above below => ?_
  refine Bytes.keep_of_outside (fun slot held => roomy.held nonvoid low slot (inside slot held))
    (fun slot held => ?_) words
  obtain ⟨-, start, stop⟩ := roomy.slots nonvoid (inside slot held)
  have apart := clear entry mem home kind stands
  omega

/-- What is stored in a part of a variable is read back there, and the other words stay. -/
theorem Roomy.read_keep (roomy : env.Roomy) (nonvoid : type ≠ .void) (low : 0 ≤ addr)
    (parts : (env.structs.shapeOf type).slots addr = before ++ slots ++ after)
    (count : words.length = slots.length) :
    (bytes.keep slots words).read ((env.structs.shapeOf type).slots addr) =
      bytes.read before ++ List.zipWith narrowTo (slots.map Slot.size) words ++
        bytes.read after := by
  have held := roomy.held nonvoid low
  have order := (roomy.fits type addr).pairwise.imp
    (fun {slot other} earlier => (.inl earlier : Slot.Apart slot other))
  rw [parts] at held order
  obtain ⟨front, -, back⟩ := List.pairwise_append.mp order
  obtain ⟨-, middle, early⟩ := List.pairwise_append.mp front
  have kept : ∀ slot ∈ slots, slot.Sized ∧ 0 ≤ slot.offset :=
    fun slot mem => held slot (by simp [mem])
  rw [parts, Bytes.read_append, Bytes.read_append, Bytes.read_keep kept middle count,
    Bytes.read_keep_of_apart kept (fun slot mem => held slot (by simp [mem])) early words,
    Bytes.read_keep_of_apart kept (fun slot mem => held slot (by simp [mem])) ?_ words]
  exact fun other mem slot member' => (back slot (by simp [member']) other mem).symm

/-- What is stored in a part of a variable replaces that part of its words, and nothing else. -/
theorem Roomy.bindings_keep (roomy : env.Roomy) (hosts : env.Hosts referents)
    {name : Text} (found : referents.lookup name = some (.place addr type))
    (parts : (env.structs.shapeOf type).slots addr = before ++ slots ++ after)
    (count : words.length = slots.length) :
    (bytes.keep slots words).bindings env.structs referents =
      (bytes.bindings env.structs referents).overwrite name before.length
        (List.zipWith narrowTo (slots.map Slot.size) words) := by
  have listed : (name, Referent.place addr type) ∈ referents := Generate.mem_of_lookup found
  obtain ⟨nonvoid, low⟩ := hosts.placed _ listed addr type rfl
  have inside : ∀ slot ∈ slots, slot ∈ (env.structs.shapeOf type).slots addr := by
    intro slot mem
    rw [parts]
    simp [mem]
  induction referents with
  | nil => cases found
  | cons entry referents ih =>
    obtain ⟨other, referent⟩ := entry
    obtain ⟨ahead, -⟩ := List.pairwise_cons.mp hosts.apart
    rw [List.lookup_cons] at found
    by_cases same : name = other
    · subst same
      simp only [BEq.rfl] at found
      obtain rfl := Option.some.inj found
      have rest : (bytes.keep slots words).bindings env.structs referents =
          bytes.bindings env.structs referents :=
        roomy.bindings_of_clear nonvoid low inside hosts.tail.placed
          fun entry mem home kind => ahead entry mem addr type home kind rfl
      have length := bytes.length_read before
      have width : (List.zipWith narrowTo (slots.map Slot.size) words).length = slots.length := by
        rw [List.length_zipWith, List.length_map, count, Nat.min_self]
      show (name, Referent.binding _ _ _) :: (bytes.keep slots words).bindings env.structs
        referents = _
      rw [rest]
      show _ = (if name == name then _ else _)
      rw [if_pos BEq.rfl]
      refine congrArg (fun binding => (name, binding) :: _) ?_
      rw [Referent.binding, Referent.binding, Binding.overwrite, roomy.read_keep nonvoid low parts
        count, parts,
        Bytes.read_append, Bytes.read_append, width]
      dsimp only
      rw [List.drop_left' (by rw [List.length_append, length, Bytes.length_read]),
        List.append_assoc (bytes.read before) (bytes.read slots), List.take_left' length]
    · have differ : (name == other) = false := beq_false_of_ne same
      simp only [differ] at found
      have listed : (name, Referent.place addr type) ∈ referents := Generate.mem_of_lookup found
      have kept : (bytes.keep slots words).bindings env.structs [(other, referent)] =
          bytes.bindings env.structs [(other, referent)] := by
        refine roomy.bindings_of_clear nonvoid low inside ?_ ?_
        · intro entry mem
          rw [List.mem_singleton.mp mem]
          exact hosts.placed _ List.mem_cons_self
        · intro entry mem home kind stands
          rw [List.mem_singleton.mp mem] at stands
          exact (ahead _ listed home kind addr type stands rfl).symm
      have head := (List.cons.inj kept).1
      show _ :: (bytes.keep slots words).bindings env.structs referents = _
      rw [ih hosts.tail found listed, head]
      show _ = (if name == other then _ else _)
      rw [if_neg (by simp [differ])]
      rfl

end

end Environment

namespace Eval

variable {α β : Type}

theorem run_bind (first : Eval α) (next : α → Eval β) (store : Store) :
    (first >>= next).run.run store = match first.run.run store with
      | (.ok value, after) => (next value).run.run after
      | (.error stop, after) => (.error stop, after) := by
  simp only [ExceptT.run_bind, StateT.run_bind]
  rcases first.run.run store with ⟨_ | _, after⟩ <;> rfl

/-- Of two evaluations the second follows when the first has a result. -/
theorem run_bind_ok {first : Eval α} {next : α → Eval β} {store after : Store} {value : α}
    (done : first.run.run store = (.ok value, after)) :
    (first >>= next).run.run store = (next value).run.run after := by
  rw [run_bind, done]

end Eval

namespace Machine

variable {prog : Program} {settings : Settings} {bound : Nat} {α β : Type}
  {goal : α → Store → Machine → Prop} {machine : Machine}

/-- The machine comes to what the result of an evaluation asks for, divides by zero, or lasts as
long as the bound says, unless the stack overflows before. -/
def Meets (prog : Program) (settings : Settings) (bound : Nat)
    (goal : α → Store → Machine → Prop) (machine : Machine) : Except Stop α × Store → Prop
  | (.ok value, store) => machine.Comes prog settings (goal value store)
  | (.error .divided, store) => machine.Comes prog settings fun last =>
      last.Divides prog settings ∧ last.output = store.output
  | (.error .unfinished, _) => machine.Lasts prog settings bound
  | (.error .stuck, _) => machine.Comes prog settings fun _ => False

namespace Meets

/-- What comes to a machine that meets an evaluation meets it too. -/
theorem of_comes {middle : Machine → Prop} {result : Except Stop α × Store}
    (comes : machine.Comes prog settings middle)
    (later : ∀ after, middle after → after.Meets prog settings bound goal result) :
    machine.Meets prog settings bound goal result := by
  rcases result with ⟨stop | value, store⟩
  · cases stop with
    | divided => exact comes.bind later
    | unfinished => exact comes.lasts later
    | stuck => exact comes.bind later
  · exact comes.bind later

/-- A step on the way lets the machine last longer. -/
theorem of_takes {middle : Machine → Prop} {result : Except Stop α × Store}
    (takes : machine.Takes prog settings middle)
    (later : ∀ after, middle after → after.Meets prog settings bound goal result) :
    machine.Meets prog settings (bound + 1) goal result := by
  rcases result with ⟨stop | value, store⟩
  · cases stop with
    | divided => exact takes.comes.bind later
    | unfinished => exact takes.lasts later
    | stuck => exact takes.comes.bind later
  · exact takes.comes.bind later

theorem mono {result : Except Stop α × Store} {weaker : α → Store → Machine → Prop}
    (meets : machine.Meets prog settings bound goal result)
    (weakens : ∀ value store last, goal value store last → weaker value store last) :
    machine.Meets prog settings bound weaker result := by
  rcases result with ⟨stop | value, store⟩
  · cases stop <;> exact meets
  · exact Comes.mono meets (weakens value store)

theorem fewer {result : Except Stop α × Store} {less : Nat}
    (meets : machine.Meets prog settings bound goal result) (below : less ≤ bound) :
    machine.Meets prog settings less goal result := by
  rcases result with ⟨stop | value, store⟩
  · cases stop with
    | divided => exact meets
    | unfinished => exact Lasts.mono meets below
    | stuck => exact meets
  · exact meets

/-- What a machine comes to from where it meets an evaluation. -/
theorem next {result : Except Stop α × Store} {after : α → Store → Machine → Prop}
    (meets : machine.Meets prog settings bound goal result)
    (later : ∀ value store last, goal value store last →
      last.Comes prog settings (after value store)) :
    machine.Meets prog settings bound after result := by
  rcases result with ⟨stop | value, store⟩
  · cases stop <;> exact meets
  · exact Comes.bind meets (later value store)

/-- One evaluation after another. -/
theorem bind {first : Eval α} {next : α → Eval β} {store : Store}
    {after : β → Store → Machine → Prop}
    (meets : machine.Meets prog settings bound goal (first.run.run store))
    (later : ∀ value between last, goal value between last →
      last.Meets prog settings bound after ((next value).run.run between)) :
    machine.Meets prog settings bound after ((first >>= next).run.run store) := by
  rw [Eval.run_bind]
  rcases found : first.run.run store with ⟨stop | value, between⟩ <;> rw [found] at meets
  · cases stop <;> exact meets
  · exact of_comes meets (later value between)

end Meets

end Machine

/-- The store that memory holds in some scopes. -/
def Environment.storeIn (env : Environment) (scopes : List Scope) (shown : Shown) : Store where
  locals := shown.bytes.bindings env.structs (frameReferents shown.base scopes)
  globals := shown.bytes.bindings env.structs env.referents
  output := shown.output

namespace Scene

open Generate

variable {scene : Scene} {bound : Nat} {shown : Shown} {α β γ δ : Type}

/-- The store that memory holds. -/
def store (scene : Scene) (shown : Shown) : Store :=
  scene.context.environment.storeIn scene.scopes shown

/-- The code that a step emits does what an evaluation says of the store that memory holds. -/
def Runs (scene : Scene) (bound : Nat) (shown : Shown) (step : Generate α) (eval : Eval β)
    (after : α → β → Shown → Prop) : Prop :=
  ∀ ⦃gen value later⦄, step scene.context gen = .done (value, later) →
    gen.scopes = scene.scopes → later.piece.Completes scene.site.code scene.holes →
    ∀ ⦃machine⦄, scene.site.Shows gen.piece machine shown →
      machine.Meets scene.site.program scene.site.settings bound (fun result store last =>
        ∃ final, scene.site.Shows later.piece last final ∧ store = scene.store final ∧
          after value result final) (eval.run.run (scene.store shown))

/-- One step after another, the second from what is shown in between. -/
theorem Leads.next {before : Shown → Prop} {step : Generate α} {next : α → Generate γ}
    {middle : α → Shown → Prop} {after : γ → Shown → Prop} (first : scene.Leads before step middle)
    (emits : ∀ value, Emits (next value))
    (second : ∀ value between, middle value between →
      scene.Leads (· = between) (next value) after) :
    scene.Leads before (step >>= next) after :=
  first.bind fun value => .of_eq (second value) (emits value)

namespace Runs

variable {step : Generate α} {eval : Eval β} {after : α → β → Shown → Prop}

/-- Code that only leads on runs an evaluation that has a result. -/
theorem of_leads {middle : α → Shown → Prop} (leads : scene.Leads (· = shown) step middle)
    (evaluates : ∀ value final, middle value final → ∃ result,
      eval.run.run (scene.store shown) = (.ok result, scene.store final) ∧ after value
        result final) :
    scene.Runs bound shown step eval after := by
  intro gen value later done scopes complete machine shows
  refine .of_comes (leads.comes done scopes complete shows rfl) ?_
  rintro last ⟨final, reached, held⟩
  obtain ⟨result, run, holds⟩ := evaluates value final held
  rw [run]
  exact .here ⟨final, reached, rfl, holds⟩

theorem pure {value : α} {result : β} (holds : after value result shown) :
    scene.Runs bound shown (pure value) (pure result) after := by
  refine @of_leads _ _ _ _ _ _ _ _ (fun found final => found = value ∧ final = shown)
    (.pure fun _ same => ⟨rfl, same⟩) ?_
  rintro _ _ ⟨rfl, rfl⟩
  exact ⟨result, rfl, holds⟩

/-- One step after another, with one evaluation after another. -/
theorem bind {next : α → Generate γ} {continue' : β → Eval δ} {last : γ → δ → Shown → Prop}
    (emits : Emits step) (more : ∀ value, Emits (next value))
    (first : scene.Runs bound shown step eval after)
    (second : ∀ value result between, after value result between →
      scene.Runs bound between (next value) (continue' result) last) :
    scene.Runs bound shown (step >>= next) (eval >>= continue') last := by
  intro gen value later done scopes complete machine shows
  obtain ⟨found, between, one, two⟩ := bind_done.mp done
  obtain ⟨piece, rfl, emitted⟩ := emits one shows.bounded
  obtain ⟨_, rfl, further⟩ := more found two emitted.bounded
  refine (first one scopes (further.completes complete) shows).bind ?_
  rintro result _ middle ⟨final, reached, rfl, held⟩
  exact second found result final held two scopes complete reached

/-- Code that only leads on, and leaves the store, before code that runs an evaluation. -/
theorem lead {next : α → Generate γ} {middle : α → Shown → Prop} {last : γ → β → Shown → Prop}
    (more : ∀ value, Emits (next value)) (leads : scene.Leads (· = shown) step middle)
    (second : ∀ value between, middle value between →
      scene.store between = scene.store shown ∧ scene.Runs bound between (next value) eval last) :
    scene.Runs bound shown (step >>= next) eval last := by
  intro gen value later done scopes complete machine shows
  obtain ⟨found, between, one, two⟩ := bind_done.mp done
  obtain ⟨piece, rfl, emitted⟩ := leads.emits one shows.bounded
  obtain ⟨_, rfl, further⟩ := more found two emitted.bounded
  refine .of_comes (leads.comes one scopes (further.completes complete) shows rfl) ?_
  rintro middle ⟨final, reached, held⟩
  obtain ⟨same, runs⟩ := second found final held
  rw [← same]
  exact runs two scopes complete reached

/-- An evaluation that finds something in the store first. -/
theorem find {head : Eval δ} {next : δ → Eval β} {result : δ}
    (done : head.run.run (scene.store shown) = (.ok result, scene.store shown))
    (runs : scene.Runs bound shown step (next result) after) :
    scene.Runs bound shown step (head >>= next) after := by
  intro gen value later generated scopes complete machine shows
  rw [Eval.run_bind_ok done]
  exact runs generated scopes complete shows

/-- A step that only looks at the surroundings first. -/
theorem look {next : α → Generate γ} {found : α} {last : γ → β → Shown → Prop}
    (looks : ∀ gen, gen.scopes = scene.scopes →
      step scene.context gen = .done (found, gen))
    (runs : scene.Runs bound shown (next found) eval last) :
    scene.Runs bound shown (step >>= next) eval last := by
  intro gen value later done scopes complete machine shows
  obtain ⟨_, _, one, two⟩ := bind_done.mp done
  rw [looks gen scopes] at one
  obtain ⟨rfl, rfl⟩ := Prod.mk.inj (Task.done.inj one)
  exact runs two scopes complete shows

theorem environment {next : Environment → Generate γ} {last : γ → β → Shown → Prop}
    (runs : scene.Runs bound shown (next scene.context.environment) eval last) :
    scene.Runs bound shown (do next (← Generate.environment)) eval last :=
  look (fun _ _ => rfl) runs

theorem ite {test : Prop} [Decidable test] {yes no : Generate α}
    (first : test → scene.Runs bound shown yes eval after)
    (second : ¬ test → scene.Runs bound shown no eval after) :
    scene.Runs bound shown (if test then yes else no) eval after := by
  split
  · next holds => exact first holds
  · next fails => exact second fails

/-- A step that reports a problem is not done. -/
theorem reported {span : Span} {cause : ProblemCause} {next : Unit → Generate α} :
    scene.Runs bound shown (report span cause >>= next) eval after := by
  intro gen value later done
  obtain ⟨_, _, reports, -⟩ := bind_done.mp done
  cases reports

theorem refused {span : Span} {cause : ProblemCause} {last : Option ValueType → β → Shown → Prop} :
    scene.Runs bound shown (refuse span cause) eval last :=
  reported

end Runs

end Scene

end TinLang
