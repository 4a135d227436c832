import TinLang.Proofs.Machine.Confinement
import TinLang.Proofs.Machine.Control
import TinLang.Semantics.Value

/-!
# Calls of natives

A native looks at all its arguments before it does anything, so a fault there leaves the machine as
it was. What can be refused later is a write: that of the result, and those of what was read from a
file to the places that the caller gives. A native whose late writes can be done changes nothing
when it faults (`unchanged_of_fault`); one whose late writes are refused keeps what it did before
them (`run_readFile_of_refused`). The natives that print a number or compute one touch neither the
heap nor files.
-/
namespace TinLang

variable {count size index : Nat} {native called : Native} {addr : Word} {memory : Memory}
    {heap : Heap} {text : Text} {amount : Int}

namespace Heap

/-- A range that lies in a live block still does when there is one more block. -/
theorem Sound.holds_grown (sound : heap.Sound count)
    (small : size ≤ largestRequest) {addr : Nat}
    (holds : heap.holds addr amount = true) : (heap.grown size).holds addr amount = true := by
  obtain ⟨natural, block, live, inside⟩ := sound.holds_iff.mp holds
  obtain ⟨mem, same⟩ := sound.mem_live.mp live
  refine (sound.grown small).holds_iff.mpr ⟨natural, block, ?_, inside⟩
  refine (sound.grown small).mem_live.mpr ⟨mem_sizes_grown.mpr (.inr mem), ?_⟩
  rw [sizeAt_grown_of_mem sound mem, same]

/-- The new block lies in itself. -/
theorem Sound.holds_next (sound : heap.Sound count)
    (small : size ≤ largestRequest) : (heap.grown size).holds heap.next size = true := by
  refine (sound.grown small).holds_iff.mpr ⟨Int.natCast_nonneg _, ⟨heap.next, size⟩, ?_, ?_⟩
  · refine (sound.grown small).mem_live.mpr ⟨mem_sizes_grown.mpr (.inl rfl), ?_⟩
    rw [sizeAt_grown, if_pos rfl]
  · simp

theorem Sound.next_lt (sound : heap.Sound count)
    (few : count < mostRequests) : heap.next < 2 ^ 64 := by
  have addresses := sound.addresses
  unfold mostRequests at few
  unfold largestRequest base at addresses
  omega

end Heap

/-- The memory with one more block on its heap. -/
def Memory.grown (memory : Memory) (size : Nat) : Memory :=
  { memory with heap := memory.heap.grown size }

theorem Memory.addressable_grown (sound : memory.heap.Sound count)
    (small : size ≤ Heap.largestRequest) {addr : Nat}
    (inside : memory.addressable addr amount = true) :
    (memory.grown size).addressable addr amount = true := by
  unfold addressable at inside ⊢
  simp only [Bool.and_eq_true, Bool.or_eq_true] at inside ⊢
  exact ⟨inside.1, inside.2.imp_right (sound.holds_grown small)⟩

theorem Memory.addressable_next (sound : memory.heap.Sound count)
    (small : size ≤ Heap.largestRequest) :
    (memory.grown size).addressable memory.heap.next size = true := by
  have holds : (memory.grown size).heap.holds memory.heap.next size = true := sound.holds_next small
  rw [addressable, holds, Bool.or_true, Bool.and_true, decide_eq_true_eq]
  exact Int.natCast_nonneg size

/-- Nothing is addressable below the stack. -/
theorem Memory.not_addressable_of_lt (sound : memory.heap.Sound count)
    {addr : Nat} (low : addr < stackBase) :
    ¬ memory.addressable addr amount = true := by
  intro inside
  obtain ⟨-, region, mem, above, -⟩ := region_of_addressable inside
  have high : stackBase ≤ region.base := by
    rcases List.mem_cons.mp mem with rfl | mem
    · exact Nat.le_refl _
    rcases List.mem_cons.mp mem with rfl | mem
    · exact (by decide : stackBase ≤ dataBase)
    obtain ⟨block, live, rfl⟩ := List.mem_map.mp mem
    exact Nat.le_trans (by decide) (sound.placed block.address (sound.mem_live.mp live).1).1
  omega

namespace Machine

variable {α β : Type} {machine after : Machine}

/-- An operation only looks at the machine. -/
def Looks (action : Exec α) : Prop := ∀ machine, (action.run.run machine).2 = machine

theorem looks_pure (value : α) : Looks (pure value : Exec α) := fun _ => rfl

theorem looks_throw (cause : FaultCause) : Looks (throw cause : Exec α) := fun _ => rfl

theorem looks_get (slot : Fin 12) : Looks (get slot) := fun _ => rfl

theorem looks_getThe : Looks (getThe Machine : Exec Machine) := fun _ => rfl

theorem Looks.bind {first : Exec α} {next : α → Exec β} (looks : Looks first)
    (later : ∀ value, Looks (next value)) : Looks (first >>= next) := by
  intro machine
  have same := looks machine
  rw [run_bind]
  cases found : first.run.run machine with
  | mk result after =>
    rw [found] at same
    obtain rfl := same
    cases result with
    | ok value => exact later value _
    | error cause => rfl

theorem looks_readBytes (addr : Word) (count : Int) : Looks (readBytes addr count) := by
  refine looks_getThe.bind fun machine => ?_
  cases machine.memory.read? addr.toNat count with
  | none => exact looks_throw _
  | some bytes => exact looks_pure _

theorem looks_load (addr : Word) (size : AccessSize) : Looks (load addr size) := by
  refine looks_getThe.bind fun machine => ?_
  cases machine.memory.load? addr.toNat size with
  | none => exact looks_throw _
  | some word => exact looks_pure _

theorem looks_loadString (addr : Word) : Looks (loadString addr) := by
  refine looks_getThe.bind fun machine => ?_
  cases machine.memory.string addr.toNat with
  | error place => exact looks_throw _
  | ok text => exact looks_pure _

theorem looks_argument (native : Native) (index : Nat) : Looks (argument native index) := by
  refine (looks_get _).bind fun pointer => ?_
  split
  · exact looks_load _ _
  · exact looks_pure _

/-- Another machine has the same registers, and what was addressable is so there. -/
structure Keeps (machine after : Machine) : Prop where
  registers : after.registers = machine.registers
  addressable : ∀ addr count, machine.memory.addressable addr count = true →
    after.memory.addressable addr count = true

theorem Keeps.refl (machine : Machine) : Keeps machine machine := ⟨rfl, fun _ _ inside => inside⟩

theorem Keeps.trans {middle : Machine} (first : Keeps machine middle)
    (second : Keeps middle after) :
    Keeps machine after :=
  ⟨second.registers.trans first.registers, fun addr count inside =>
    second.addressable addr count (first.addressable addr count inside)⟩

theorem keeps_setBytes (machine : Machine) (addr : Nat) (text : Text) :
    Keeps machine { machine with memory := machine.memory.setBytes addr text } :=
  ⟨rfl, fun other count inside =>
    ((machine.memory.sameLayout_setBytes addr text).addressable_eq other count).trans inside⟩

/-- An operation completes, and what was addressable still is. -/
def Completes (action : Exec α) (machine : Machine) : Prop :=
  ∃ value after, action.run.run machine = (.ok value, after) ∧ Keeps machine after

theorem completes_pure (value : α) : Completes (pure value : Exec α) machine :=
  ⟨value, machine, rfl, .refl machine⟩

/-- What completes with a value before the rest. -/
theorem completes_bind {first : Exec α} {next : α → Exec β} {value : α}
    (run : first.run.run machine = (.ok value, after)) (keeps : Keeps machine after)
    (later : Completes (next value) after) : Completes (first >>= next) machine := by
  obtain ⟨result, last, run', keeps'⟩ := later
  exact ⟨result, last, by rw [run_bind, run]; exact run', keeps.trans keeps'⟩

theorem Completes.bind {first : Exec α} {next : α → Exec β} (completes : Completes first machine)
    (later : ∀ value after, Keeps machine after → Completes (next value) after) :
    Completes (first >>= next) machine := by
  obtain ⟨value, middle, run, keeps⟩ := completes
  exact completes_bind run keeps (later value middle keeps)

/-- An operation that is left out in some case before the rest. -/
theorem completes_unless {condition : Prop} [Decidable condition] {action : Exec Unit}
    {next : Unit → Exec α} (completes : ¬ condition → Completes action machine)
    (later : ∀ after, Keeps machine after → Completes (next ()) after) :
    Completes (if condition then next () else action >>= next) machine := by
  split
  · exact later machine (.refl machine)
  next apart => exact (completes apart).bind fun _ after keeps => later after keeps

theorem run_writeBytes_of_addressable
    (inside : machine.memory.addressable addr.toNat text.length = true) :
    (writeBytes addr text).run.run machine =
      (.ok (), { machine with memory := machine.memory.setBytes addr.toNat text }) := by
  have done : machine.memory.write? addr.toNat text =
      some (machine.memory.setBytes addr.toNat text) := by rw [Memory.write?, if_pos inside]
  simp only [writeBytes, changeMemory, run_bind, run_getThe, done]
  rfl

theorem completes_writeBytes
    (inside : machine.memory.addressable addr.toNat text.length = true) :
    Completes (writeBytes addr text) machine :=
  ⟨(), _, run_writeBytes_of_addressable inside, keeps_setBytes machine addr.toNat text⟩

theorem completes_store {size : AccessSize} (value : Word)
    (inside : machine.memory.addressable addr.toNat size.bytes = true) :
    Completes (store addr size value) machine := by
  have done := @Memory.store?_eq machine.memory addr.toNat size value
  rw [if_pos inside] at done
  exact ⟨(), _, run_store done, keeps_setBytes machine addr.toNat _⟩

theorem run_set (machine other : Machine) :
    (set other : Exec Unit).run.run machine = (.ok (), other) := rfl

/-- A fault of an operation leaves the machine as it was. -/
def Harmless (action : Exec α) (machine : Machine) : Prop :=
  ∀ cause after, action.run.run machine = (.error cause, after) → after = machine

theorem Looks.harmless {action : Exec α} (looks : Looks action) : Harmless action machine := by
  intro cause after faulted
  have same := looks machine
  rwa [faulted] at same

theorem Completes.harmless {action : Exec α} (completes : Completes action machine) :
    Harmless action machine := by
  intro cause after faulted
  obtain ⟨value, other, run, -⟩ := completes
  rw [run] at faulted
  exact nomatch (Prod.mk.inj faulted).1

/-- What is only looked at before cannot do harm. -/
theorem Looks.bind_harmless {first : Exec α} {next : α → Exec β} (looks : Looks first)
    (later : ∀ value, first.run.run machine = (.ok value, machine) →
      Harmless (next value) machine) :
    Harmless (first >>= next) machine := by
  intro cause after faulted
  have same := looks machine
  rw [run_bind] at faulted
  cases found : first.run.run machine with
  | mk result middle =>
    rw [found] at same faulted
    obtain rfl := same
    cases result with
    | ok value => exact later value found cause after faulted
    | error other => exact (Prod.mk.inj faulted).2.symm

theorem harmless_changeMemory (change : Memory → Option Memory) (cause : FaultCause) :
    Harmless (changeMemory change cause) machine := by
  intro other after faulted
  rw [changeMemory, run_bind, run_getThe] at faulted
  dsimp only at faulted
  cases found : change machine.memory with
  | none =>
    rw [found] at faulted
    exact (Prod.mk.inj faulted).2.symm
  | some memory =>
    rw [found] at faulted
    cases (Prod.mk.inj faulted).1

theorem harmless_giveResult (native : Native) (value : Word) :
    Harmless (giveResult native value) machine := by
  unfold giveResult
  cases typeAccess? native.result with
  | none => exact (looks_pure _).harmless
  | some size => exact (looks_get _).bind_harmless fun _ _ => harmless_changeMemory _ _

/-- The result of a native can be written. -/
def HasRoom (machine : Machine) (native : Native) : Prop :=
  machine.memory.addressable
    (machine.registers.get slotSP + BitVec.ofNat 64 native.layout.block).toNat 8 = true

/-- An argument is null or the place of something of some size. -/
def Refers (machine : Machine) (native : Native) (index : Nat) (size : AccessSize) : Prop :=
  ∀ place, ((argument native index).run.run machine).1 = .ok place →
    place = 0 ∨ machine.memory.addressable place.toNat size.bytes = true

/-- What a native writes after it has done something else can be written. -/
def Ready (machine : Machine) : Native → Prop
  | .allocate => machine.HasRoom .allocate
  | .writeFile => machine.HasRoom .writeFile
  | .readFile => machine.HasRoom .readFile ∧ machine.Refers .readFile 1 .eight ∧
      machine.Refers .readFile 2 .four
  | .printInt | .printFloat | .printChar | .printString | .release | .copy | .power
  | .squareRoot => True

theorem HasRoom.keeps (room : machine.HasRoom native)
    (keeps : Keeps machine after) : after.HasRoom native := by
  unfold HasRoom
  rw [keeps.registers]
  exact keeps.addressable _ _ room

theorem completes_giveResult (room : machine.HasRoom native) (value : Word) :
    Completes (giveResult native value) machine := by
  unfold giveResult
  cases typeAccess? native.result with
  | none => exact completes_pure _
  | some size => exact completes_bind (run_get _ _) (.refl _) (completes_store _ room)

theorem completes_giveUp (room : machine.HasRoom native) :
    Completes (giveUp native) machine := by
  have counted : Completes countSoftError machine := ⟨(), _, rfl, rfl, fun _ _ inside => inside⟩
  exact counted.bind fun _ _ keeps => completes_giveResult (room.keeps keeps) 0

theorem run_reserve_of_ok (answer : machine.memory.heap.allocate size =
    (machine.memory.heap.grown size, .ok machine.memory.heap.next)) :
    (reserve size).run.run machine = (.ok (some machine.memory.heap.next),
      { machine with memory := machine.memory.grown size }) := by
  simp only [reserve, run_bind, run_getThe, answer]
  rfl

/-- The heap refuses a request and stays as it was, or hands out a new block. -/
theorem reserve_cases (sound : machine.memory.heap.Sound count)
    (few : count < Heap.mostRequests) {size : Int} (small : size ≤ Heap.largestRequest) :
    (reserve size).run.run machine = (.ok none, machine) ∨
      ∃ after, (reserve size).run.run machine = (.ok (some machine.memory.heap.next), after) ∧
        Keeps machine after ∧ after.memory.addressable machine.memory.heap.next size = true := by
  have answer := sound.allocate_eq few small
  have refused : ∀ error, machine.memory.heap.allocate size = (machine.memory.heap, .error error) →
      (reserve size).run.run machine = (.ok none, machine) := by
    intro error refused
    simp only [reserve, run_bind, run_getThe, refused]
    rfl
  split at answer
  · exact .inl (refused _ answer)
  next positive =>
    split at answer
    · exact .inl (refused _ answer)
    · obtain ⟨number, rfl⟩ := Int.eq_ofNat_of_zero_le (Int.le_of_lt (Int.not_le.mp positive))
      have small : number ≤ Heap.largestRequest := Int.ofNat_le.mp small
      exact .inr ⟨_, run_reserve_of_ok answer,
        ⟨rfl, fun _ _ inside => Memory.addressable_grown sound small inside⟩,
        Memory.addressable_next sound small⟩

/-- Freeing is never refused. -/
theorem harmless_release (addr : Word) : Harmless (release addr) machine := by
  intro cause after faulted
  simp only [release, run_bind, run_getThe] at faulted
  cases found : machine.memory.heap.free addr.toNat with
  | ok heap =>
    rw [found] at faulted
    cases (Prod.mk.inj faulted).1
  | error cause =>
    rw [found] at faulted
    cases (Prod.mk.inj faulted).1

theorem harmless_allocate (sound : machine.memory.heap.Sound count)
    (few : count < Heap.mostRequests) (settings : Settings) (ready : machine.Ready .allocate) :
    Harmless (callNative settings .allocate) machine := by
  refine (looks_argument _ _).bind_harmless fun size _ => Completes.harmless ?_
  rcases reserve_cases sound few (signedHalf_le size) with refused | ⟨after, run, keeps, -⟩
  · exact completes_bind refused (.refl _) (completes_giveUp ready)
  · exact completes_bind run keeps (completes_giveResult (HasRoom.keeps ready keeps) _)

/-- Storing the address and the size of a block where they are wanted. -/
theorem completes_tell {size dataPlace sizePlace : Word}
    (room : machine.HasRoom native)
    (forData : dataPlace = 0 ∨ machine.memory.addressable dataPlace.toNat AccessSize.eight.bytes =
    true)
    (forSize : sizePlace = 0 ∨ machine.memory.addressable sizePlace.toNat AccessSize.four.bytes =
    true) :
    Completes (do
      unless dataPlace = 0 do store dataPlace .eight addr
      unless sizePlace = 0 do store sizePlace .four size
      giveResult native 1) machine := by
  refine completes_unless (fun some => completes_store _ (forData.resolve_left some))
    fun told first => ?_
  refine completes_unless (fun some => completes_store _ ?_) fun sized second => ?_
  · exact first.addressable _ _ (forSize.resolve_left some)
  · exact completes_giveResult (room.keeps (first.trans second)) 1

theorem harmless_readFile (sound : machine.memory.heap.Sound count)
    (few : count < Heap.mostRequests) (settings : Settings) (ready : machine.Ready .readFile) :
    Harmless (readFile settings .readFile) machine := by
  obtain ⟨room, forData, forSize⟩ := ready
  refine (looks_argument _ _).bind_harmless fun path _ => ?_
  refine (looks_argument _ _).bind_harmless fun dataPlace atData => ?_
  refine (looks_argument _ _).bind_harmless fun sizePlace atSize => ?_
  refine (looks_loadString _).bind_harmless fun path _ => Completes.harmless ?_
  have forData := forData dataPlace (by rw [atData])
  have forSize := forSize sizePlace (by rw [atSize])
  split
  · exact completes_giveUp room
  refine completes_bind (run_getThe _) (.refl _) ?_
  cases machine.files.read path with
  | error cause => exact completes_giveUp room
  | ok content =>
    dsimp only
    split
    · exact completes_giveUp room
    next short =>
      have small : (content.length : Int) ≤ Heap.largestRequest := by
        unfold Heap.largestRequest
        omega
      split
      · exact completes_bind (run_pure _ _) (.refl _) (completes_tell room forData forSize)
      · rcases reserve_cases sound few small with refused | ⟨after, run, keeps, inside⟩
        · exact completes_bind refused (.refl _) (completes_giveUp room)
        refine completes_bind run keeps ((completes_writeBytes ?_).bind fun _ filled keeps' => ?_)
        · rw [BitVec.toNat_ofNat, Nat.mod_eq_of_lt (sound.next_lt few)]
          exact inside
        have both := keeps.trans keeps'
        exact completes_tell (room.keeps both) (forData.imp_right (both.addressable _ _))
          (forSize.imp_right (both.addressable _ _))

theorem harmless_rewrite (room : machine.HasRoom .writeFile) (path : Text) (content : List UInt8) :
    Harmless (do
      let machine ← getThe Machine
      match machine.files.write path content with
      | .error _ => giveUp .writeFile
      | .ok files =>
        set { machine with files }
        giveResult .writeFile 1) machine := by
  refine looks_getThe.bind_harmless fun seen here => ?_
  obtain rfl : machine = seen := Except.ok.inj (Prod.mk.inj here).1
  cases machine.files.write path content with
  | error cause => exact (completes_giveUp room).harmless
  | ok files =>
    have keeps : Keeps machine { machine with files } := ⟨rfl, fun _ _ inside => inside⟩
    exact (completes_bind (run_set _ _) keeps (completes_giveResult (room.keeps keeps) 1)).harmless

theorem harmless_writeFile (settings : Settings) (ready : machine.Ready .writeFile) :
    Harmless (writeFile settings .writeFile) machine := by
  have room : machine.HasRoom .writeFile := ready
  refine (looks_argument _ _).bind_harmless fun path _ => ?_
  refine (looks_argument _ _).bind_harmless fun data _ => ?_
  refine (looks_argument _ _).bind_harmless fun count _ => ?_
  refine (looks_loadString _).bind_harmless fun path _ => ?_
  dsimp only
  split
  · exact (completes_giveUp room).harmless
  split
  · exact (looks_pure _).bind_harmless fun content _ => harmless_rewrite room path content
  · exact (looks_readBytes _ _).bind_harmless fun content _ => harmless_rewrite room path content

/-- A native that faults leaves the machine as it was, when its late writes can be done. -/
theorem harmless_callNative (sound : machine.memory.heap.Sound count)
    (few : count < Heap.mostRequests) (settings : Settings) (ready : machine.Ready native) :
    Harmless (callNative settings native) machine := by
  have prints : ∀ text, Harmless (print text) machine := fun text =>
    Completes.harmless ⟨(), _, rfl, rfl, fun _ _ inside => inside⟩
  cases native with
  | printInt | printFloat | printChar =>
    exact (looks_argument _ _).bind_harmless fun _ _ => prints _
  | printString =>
    exact (looks_argument _ _).bind_harmless fun _ _ =>
      (looks_loadString _).bind_harmless fun text _ => prints text
  | allocate => exact harmless_allocate sound few settings ready
  | release => exact (looks_argument _ _).bind_harmless fun addr _ => harmless_release addr
  | copy =>
    refine (looks_argument _ _).bind_harmless fun target _ => ?_
    refine (looks_argument _ _).bind_harmless fun source _ => ?_
    refine (looks_argument _ _).bind_harmless fun count _ => ?_
    exact (looks_readBytes _ _).bind_harmless fun bytes _ => harmless_changeMemory _ _
  | power =>
    refine (looks_argument _ _).bind_harmless fun base _ => ?_
    exact (looks_argument _ _).bind_harmless fun exponent _ => harmless_giveResult _ _
  | squareRoot => exact (looks_argument _ _).bind_harmless fun number _ => harmless_giveResult _ _
  | readFile => exact harmless_readFile sound few settings ready
  | writeFile => exact harmless_writeFile settings ready

/-- The next instruction calls a native. -/
def CallsNative (prog : Program) (machine : Machine) (native : Native) : Prop :=
  ∃ width fetched, machine.fetch prog = (width, .ok fetched) ∧
    fetched.instruction.op = .call ∧ fetched.immediate.toInt = native.id

/-- Another machine has the same stack pointer and memory, and the same outside. -/
structure Resembles (machine other : Machine) : Prop where
  pointer : other.registers.get slotSP = machine.registers.get slotSP
  memory : other.memory = machine.memory
  output : other.output = machine.output
  softErrors : other.softErrors = machine.softErrors
  files : other.files = machine.files

theorem Resembles.refl (machine : Machine) : Resembles machine machine := ⟨rfl, rfl, rfl, rfl, rfl⟩

/-- What a step ends with when its operation ends like this. -/
def concluded (prog : Program) (machine : Machine) :
    Except FaultCause Unit × Machine → Machine × Option Fault
  | (.ok _, after) => (after, none)
  | (.error cause, after) => (after, some (machine.faultAt prog cause))

/-- A step that calls a native performs it after moving the counter. -/
theorem step_of_callsNative {prog : Program}
    (calls : machine.CallsNative prog native) (settings : Settings) :
    ∃ moved, Resembles machine moved ∧ machine.step prog settings =
      machine.concluded prog ((callNative settings native).run.run moved) := by
  obtain ⟨width, fetched, found, op, target⟩ := calls
  have negative : native.id < 0 := by cases native <;> decide
  have action : execute prog settings fetched = callNative settings native := by
    unfold execute
    rw [op]
    simp only [call, target, negative, ↓reduceIte, Native.ofId?_id]
  refine ⟨{ machine with
    registers := assign machine.registers slotPC
      (machine.registers.get slotPC + BitVec.ofNat 64 width)
    steps := machine.steps + 1 }, ⟨?_, rfl, rfl, rfl, rfl⟩, ?_⟩
  · dsimp only
    rw [get_assign, if_neg (by decide)]
  · rw [step, found, ← action]
    rfl

theorem Resembles.argument_eq {other : Machine} (resembles : Resembles machine other)
    (native : Native) (index : Nat) :
    ((argument native index).run.run other).1 = ((argument native index).run.run machine).1 := by
  simp only [argument, run_bind, run_get, resembles.pointer]
  split
  · simp only [load, run_bind, run_getThe, resembles.memory]
    split <;> rfl
  · rfl

theorem Resembles.ready {other : Machine} (resembles : Resembles machine other)
    (ready : machine.Ready native) : other.Ready native := by
  have room : ∀ {native}, machine.HasRoom native → other.HasRoom native := by
    intro native room
    unfold HasRoom
    rw [resembles.pointer, resembles.memory]
    exact room
  have refers : ∀ {native index size}, machine.Refers native index size →
      other.Refers native index size := by
    intro native index size refers place found
    rw [resembles.memory]
    exact refers place ((resembles.argument_eq native index).symm.trans found)
  cases native with
  | allocate | writeFile => exact room ready
  | readFile => exact ⟨room ready.1, refers ready.2.1, refers ready.2.2⟩
  | printInt | printFloat | printChar | printString | release | copy | power | squareRoot => trivial

/-- A call of a native that faults changes neither the memory with the heap, nor the output, nor the
number of soft errors, nor the files, when the late writes of the native can be done. -/
theorem unchanged_of_fault {prog : Program} {settings : Settings}
    {fault : Fault} (sound : machine.memory.heap.Sound count) (few : count < Heap.mostRequests)
    (calls : machine.CallsNative prog native) (ready : machine.Ready native)
    (faulted : machine.step prog settings = (after, some fault)) :
    after.memory = machine.memory ∧ after.output = machine.output ∧
      after.softErrors = machine.softErrors ∧ after.files = machine.files := by
  obtain ⟨moved, resembles, result⟩ := step_of_callsNative calls settings
  have harmless := harmless_callNative (resembles.memory ▸ sound) few settings
    (resembles.ready ready)
  rw [faulted] at result
  cases run : (callNative settings native).run.run moved with
  | mk outcome last =>
    rw [run] at result
    cases outcome with
    | ok value => exact nomatch (Prod.mk.inj result).2
    | error cause =>
      obtain rfl := harmless cause last run
      obtain rfl := (Prod.mk.inj result).1
      exact ⟨resembles.memory, resembles.output, resembles.softErrors, resembles.files⟩

theorem Looks.run_eq {action : Exec α} (looks : Looks action) {value : α}
    (found : (action.run.run machine).1 = .ok value) : action.run.run machine =
    (.ok value, machine) :=
  Prod.ext found (looks machine)

/-- When the address of the content of a file cannot be stored where it is wanted, the block with
the content stays on the heap. -/
theorem run_readFile_of_refused (sound : machine.memory.heap.Sound count)
    (few : count < Heap.mostRequests) {settings : Settings} (allowed : settings.noFiles = false)
    {path dataPlace sizePlace : Word} {name content : Text}
    (atPath : ((argument .readFile 0).run.run machine).1 = .ok path)
    (atData : ((argument .readFile 1).run.run machine).1 = .ok dataPlace)
    (atSize : ((argument .readFile 2).run.run machine).1 = .ok sizePlace)
    (named : machine.memory.string path.toNat = .ok name)
    (found : machine.files.read name = .ok content) (nonempty : content ≠ [])
    (short : content.length < 0x80000000)
    (fits : machine.memory.heap.total + content.length ≤ machine.memory.heap.effectiveLimit)
    (wanted : dataPlace ≠ 0)
    (refused : ¬ (machine.memory.grown content.length).addressable dataPlace.toNat
      AccessSize.eight.bytes = true) :
    ∃ after, (readFile settings .readFile).run.run machine =
        (.error (.access dataPlace.toNat AccessSize.eight.bytes), after) ∧
      after.memory.heap = machine.memory.heap.grown content.length := by
  have positive : 0 < content.length := List.length_pos_iff.mpr nonempty
  have small : content.length ≤ Heap.largestRequest := by
    unfold Heap.largestRequest
    omega
  have answer := sound.allocate_eq few (Int.ofNat_le.mpr small)
  rw [if_neg (by omega), if_neg (by omega), Int.toNat_natCast] at answer
  have reserved := run_reserve_of_ok answer
  have inside : (machine.memory.grown content.length).addressable
      (BitVec.ofNat 64 machine.memory.heap.next).toNat content.length = true := by
    rw [BitVec.toNat_ofNat, Nat.mod_eq_of_lt (sound.next_lt few)]
    exact Memory.addressable_next sound small
  have heap : (machine.memory.grown content.length).heap =
      machine.memory.heap.grown content.length := rfl
  generalize machine.memory.grown content.length = memory at reserved inside refused heap
  have filled : (writeBytes _ content).run.run { machine with memory } = _ :=
    run_writeBytes_of_addressable inside
  have layout := memory.sameLayout_setBytes (BitVec.ofNat 64 machine.memory.heap.next).toNat content
  rw [← layout.addressable_eq] at refused
  generalize memory.setBytes (BitVec.ofNat 64 machine.memory.heap.next).toNat content = last
    at filled layout refused
  have stored : (store dataPlace .eight (BitVec.ofNat 64 machine.memory.heap.next)).run.run
      { machine with memory := last } = _ := Memory.run_store_of_not_addressable _ _ _ refused
  have read : (loadString path).run.run machine = (.ok name, machine) := by
    simp only [loadString, run_bind, run_getThe, named]
    rfl
  have large : ¬ 0x80000000 ≤ content.length := by omega
  have some : content.isEmpty = false := List.isEmpty_eq_false_iff.mpr nonempty
  refine ⟨{ machine with memory := last }, ?_, layout.2.2.trans heap⟩
  simp only [readFile, run_bind, (looks_argument _ _).run_eq atPath, (looks_argument _ _).run_eq
    atData,
    (looks_argument _ _).run_eq atSize, read, allowed, run_getThe, found, large, some,
    reserved, filled,
    wanted, stored, Bool.false_eq_true, ↓reduceIte]

/-- A program that reads a file. -/
def reading : Program where
  pieces := #[{ name := "main", code := #[.instruction { op := .call }, .immediate (-10)] }]
  linked := true

/-- A memory with 32 bytes of stack and the name of a file in the data segment. -/
def named : Memory := (⟨32, 2, {}, {}⟩ : Memory).setBytes Memory.dataBase "n\x00"

/-- A machine that is about to call it: the name of the file stands at some place, and the address
of its content is wanted at another one. -/
def poised (name wanted : Word) : Machine where
  registers := assign (Vector.replicate 12 0) slotSP (BitVec.ofNat 64 Memory.stackBase)
  memory := (named.setBytes Memory.stackBase (Memory.bytesOf 8 name.toNat)).setBytes
    (Memory.stackBase + 8) (Memory.bytesOf 8 wanted.toNat)
  piece := 0
  running := true
  steps := 0
  softErrors := 0
  output := #[]
  files := { nodes := [(["n"], .file "12345")] }

theorem byteAt_named : named.byteAt = Bytes.overwrite (fun _ => 0) Memory.dataBase "n\x00" := by
  have empty : (⟨32, 2, {}, {}⟩ : Memory).byteAt = fun _ => 0 := by
    funext addr
    simp [Memory.byteAt]
  rw [named, Memory.byteAt_setBytes, empty]

theorem byteAt_poised (name wanted : Word) : (poised name wanted).memory.byteAt =
    Bytes.store (Bytes.store named.byteAt Memory.stackBase .eight name)
      (Memory.stackBase + 8) .eight wanted := by
  rw [poised, Memory.byteAt_setBytes, Memory.byteAt_setBytes]
  rfl

theorem layout_poised (name wanted : Word) :
    (⟨32, 2, {}, {}⟩ : Memory).SameLayout (poised name wanted).memory := by
  have first := (⟨32, 2, {}, {}⟩ : Memory).sameLayout_setBytes Memory.dataBase "n\x00"
  have second := named.sameLayout_setBytes Memory.stackBase (Memory.bytesOf 8 name.toNat)
  have third := (named.setBytes Memory.stackBase (Memory.bytesOf 8 name.toNat)).sameLayout_setBytes
    (Memory.stackBase + 8) (Memory.bytesOf 8 wanted.toNat)
  exact ⟨third.1.trans (second.1.trans first.1), third.2.1.trans (second.2.1.trans first.2.1),
    third.2.2.trans (second.2.2.trans first.2.2)⟩

/-- What is addressable there is so in an empty memory of that layout. -/
theorem addressable_poised (name wanted : Word) (addr : Nat) (count : Int) :
    (poised name wanted).memory.addressable addr count =
      (⟨32, 2, {}, {}⟩ : Memory).addressable addr count :=
  (layout_poised name wanted).addressable_eq addr count

theorem argument_poised {name wanted : Word} (offset : Nat)
    (place : Native.readFile.layout.offsets[index]? = some offset)
    (width : (Native.readFile.params[index]?).bind typeAccess? = some .eight)
    (inside : offset + 8 ≤ 32) : ((argument .readFile index).run.run (poised name wanted)).1 =
      .ok (Bytes.word (poised name wanted).memory.byteAt (Memory.stackBase + offset) .eight) := by
  have stack : (poised name wanted).memory.stackTop = Memory.stackBase + 32 := by
    rw [Memory.stackTop, (layout_poised name wanted).1]
  have addr : ((poised name wanted).registers.get slotSP + BitVec.ofNat 64 offset).toNat =
      Memory.stackBase + offset := by
    have pointer : (poised name wanted).registers.get slotSP = BitVec.ofNat 64
      Memory.stackBase := rfl
    rw [pointer, ← BitVec.ofNat_add, BitVec.toNat_ofNat, Nat.mod_eq_of_lt]
    unfold Memory.stackBase
    omega
  have covers : (poised name wanted).memory.Covers (Memory.stackBase + offset)
      AccessSize.eight.bytes := .inl ⟨by omega, by rw [stack]; simp only [AccessSize.bytes]; omega⟩
  have read := Memory.load?_of_covers covers
  rw [← addr] at read
  simp only [argument, run_bind, run_get, place, width, run_load read]
  rw [addr]

/-- Any machine like that one has these arguments: the two words, and a null where the size could be
wanted. -/
theorem arguments_poised {name wanted : Word} {machine : Machine}
    (resembles : Resembles (poised name wanted) machine) :
    ((argument .readFile 0).run.run machine).1 = .ok name ∧
      ((argument .readFile 1).run.run machine).1 = .ok wanted ∧
      ((argument .readFile 2).run.run machine).1 = .ok 0 := by
  have first : Bytes.word (poised name wanted).memory.byteAt (Memory.stackBase + 0)
    .eight = name := by
    rw [byteAt_poised, Memory.word_store_of_apart (.inl (by decide))]
    exact (Memory.word_store ..).trans (Memory.narrow_eight name)
  have second : Bytes.word (poised name wanted).memory.byteAt (Memory.stackBase + 8) .eight =
    wanted := by
    rw [byteAt_poised, Memory.word_store, Memory.narrow_eight]
  have third : Bytes.word (poised name wanted).memory.byteAt (Memory.stackBase + 16)
    .eight = 0 := by
    rw [byteAt_poised, Memory.word_store_of_apart (.inr (by decide)),
      Memory.word_store_of_apart (.inr (by decide)), byteAt_named]
    decide
  refine ⟨?_, ?_, ?_⟩
  · rw [resembles.argument_eq, argument_poised 0 (by decide) (by decide) (by decide), first]
  · rw [resembles.argument_eq, argument_poised 8 (by decide) (by decide) (by decide), second]
  · rw [resembles.argument_eq, argument_poised 16 (by decide) (by decide) (by decide), third]

theorem extent_poised (name wanted : Word) : (poised name wanted).memory.extent = 34 + 1 := by
  obtain ⟨stack, size, heap⟩ := layout_poised name wanted
  rw [Memory.extent, stack, size, heap]
  rfl

theorem callsNative_poised (name wanted : Word) : (poised name wanted).CallsNative reading
    .readFile :=
  ⟨2, _, rfl, rfl, by decide⟩

theorem sound_poised (name wanted : Word) : (poised name wanted).memory.heap.Sound 0 := by
  rw [(layout_poised name wanted).2.2]
  exact Heap.sound_empty 0

/-- Reading a file whose name cannot be read, when nothing is wanted, faults and changes nothing. -/
theorem unchanged_of_fault_poised : ∃ after fault,
    (poised 8 0).step reading {} = (after, some fault) ∧
    fault.cause = .access 8 1 ∧ (poised 8 0).Ready .readFile ∧
    after.memory = (poised 8 0).memory ∧ after.output = (poised 8 0).output ∧
      after.softErrors = (poised 8 0).softErrors ∧ after.files = (poised 8 0).files := by
  have unnamed : (poised 8 0).memory.string 8 = .error 8 := by
    rw [Memory.string, extent_poised, Memory.stringWithin,
      if_neg (Memory.not_addressable_of_lt (sound_poised 8 0) (by decide))]
  have ready : (poised 8 0).Ready .readFile := by
    obtain ⟨-, atData, atSize⟩ := arguments_poised (Resembles.refl (poised 8 0))
    refine ⟨?_, fun place found => .inl ?_, fun place found => .inl ?_⟩
    · unfold HasRoom
      rw [addressable_poised]
      decide
    · exact Except.ok.inj (found.symm.trans atData)
    · exact Except.ok.inj (found.symm.trans atSize)
  obtain ⟨moved, resembles, result⟩ := step_of_callsNative (callsNative_poised 8 0) {}
  obtain ⟨atPath, atData, atSize⟩ := arguments_poised resembles
  have read : (loadString 8).run.run moved = (.error (.access 8 1), moved) := by
    have none : moved.memory.string (8 : Word).toNat = .error 8 := resembles.memory ▸ unnamed
    simp only [loadString, run_bind, run_getThe, none]
    rfl
  have failed : (callNative {} .readFile).run.run moved = (.error (.access 8 1), moved) := by
    simp only [callNative, readFile, run_bind, (looks_argument _ _).run_eq atPath,
      (looks_argument _ _).run_eq atData, (looks_argument _ _).run_eq atSize, read]
  rw [failed] at result
  exact ⟨_, _, result, rfl, ready,
    unchanged_of_fault (sound_poised 8 0) (by decide) (callsNative_poised 8 0) ready result⟩

theorem string_poised (wanted : Word) :
    (poised 0x40000000 wanted).memory.string 0x40000000 = .ok "n" := by
  have above : ∀ place : Nat, Memory.dataBase ≤ place →
      (poised 0x40000000 wanted).memory.byteAt place =
        Bytes.overwrite (fun _ => 0) Memory.dataBase "n\x00" place := by
    intro place high
    have far : Memory.stackBase + 8 + AccessSize.eight.bytes ≤ Memory.dataBase := by decide
    rw [byteAt_poised, Memory.store_of_outside (.inr (by omega)),
      Memory.store_of_outside (.inr (by omega)), byteAt_named]
  rw [Memory.string, extent_poised, Memory.stringWithin, addressable_poised, if_pos (by decide),
    above _ (by decide)]
  dsimp only
  rw [if_neg (by decide), Memory.stringWithin, addressable_poised, if_pos (by decide),
    above _ (by decide)]
  rfl

/-- Reading a file whose content is wanted at an address that cannot be written faults, and the
block with the content stays on the heap. -/
theorem spoiled_poised : ∃ after fault,
    (poised 0x40000000 8).step reading {} = (after, some fault) ∧ fault.cause = .access 8 8 ∧
    (poised 0x40000000 8).memory.heap.order = #[] ∧ after.memory.heap.order = #[Heap.base] ∧
    after.memory.heap ≠ (poised 0x40000000 8).memory.heap := by
  have heap : (poised 0x40000000 8).memory.heap = {} := (layout_poised 0x40000000 8).2.2
  obtain ⟨moved, resembles, result⟩ := step_of_callsNative (callsNative_poised 0x40000000 8) {}
  obtain ⟨atPath, atData, atSize⟩ := arguments_poised resembles
  have sound : moved.memory.heap.Sound 0 := resembles.memory ▸ sound_poised 0x40000000 8
  have empty : moved.memory.heap = {} := resembles.memory ▸ heap
  have small : 5 ≤ Heap.largestRequest := by decide
  have found : moved.files.read "n" = .ok "12345" := by rw [resembles.files]; decide
  have allowed : ({} : Settings).noFiles = false := rfl
  obtain ⟨after, run, kept⟩ := run_readFile_of_refused sound (by decide) allowed atPath
    atData atSize
    (resembles.memory ▸ string_poised 8) found (by decide) (by decide) (by rw [empty]; decide)
    (by decide) (Memory.not_addressable_of_lt (sound.grown small) (by decide))
  rw [callNative, run] at result
  refine ⟨_, _, result, rfl, by rw [heap], ?_, ?_⟩
  · rw [kept, empty]
    rfl
  · rw [kept, empty, heap]
    intro same
    exact absurd (congrArg Heap.order same) (by decide)

end Machine

namespace Site.Plain

variable {site : Site} {cell : Nat} {machine : Machine} {shown : Shown}

/-- The arguments of a native stand in the block at the floor. -/
def Given (called : Native) (arguments : List Word) (shown : Shown) : Prop :=
  ∀ (index offset : Nat) (size : AccessSize), called.layout.offsets[index]? = some offset →
    (called.params[index]?).bind Machine.typeAccess? = some size →
    arguments[index]? = some (shown.bytes.word (shown.floor + offset) size)

/-- An argument is read from its place in the block. -/
theorem run_argument_word (plain : site.Plain cell machine shown)
    (empty : shown.stack = []) {offset : Nat} {size : AccessSize}
    (place : called.layout.offsets[index]? = some offset)
    (width : (called.params[index]?).bind Machine.typeAccess? = some size)
    (room : shown.floor + offset + size.bytes ≤ shown.base) :
    (Machine.argument called index).run.run machine =
      (.ok (shown.bytes.word (shown.floor + offset) size), machine) := by
  obtain ⟨pointer, below, above, floor, top⟩ := plain.pointer_toNat
  rw [empty, List.length_nil] at floor
  have start : shown.pointer = shown.floor := by omega
  have highest := plain.highest
  have sees : Sees site shown (shown.floor + offset) size.bytes := ⟨by omega, .inl (by omega)⟩
  have addr : machine.registers.get Machine.slotSP + BitVec.ofNat 64 offset =
      BitVec.ofNat 64 (shown.floor + offset) := by
    rw [pointer, start, BitVec.ofNat_add]
  simp only [Machine.argument, Machine.run_bind, Machine.run_get, place, width,
    Machine.run_load (plain.load?_of_sees sees addr)]

theorem run_argument (plain : site.Plain cell machine shown)
    (empty : shown.stack = []) {offset : Nat} {size : AccessSize} {word : Word}
    {arguments : List Word} (given : Given called arguments shown)
    (argument : arguments[index]? = some word)
    (place : called.layout.offsets[index]? = some offset)
    (width : (called.params[index]?).bind Machine.typeAccess? = some size)
    (room : shown.floor + offset + size.bytes ≤ shown.base) :
    (Machine.argument called index).run.run machine = (.ok word, machine) := by
  have value := given index offset size place width
  rw [argument, Option.some.injEq] at value
  rw [value]
  exact plain.run_argument_word empty place width room

theorem run_native {imm : BitVec 32}
    (target : imm.toInt = called.id) (machine : Machine) :
    (Machine.execute site.program site.settings
      ⟨⟨.call, .unused, .unused, 0⟩, imm, 0, 0⟩).run.run machine =
      (Machine.callNative site.settings called).run.run machine := by
  have negative : called.id < 0 := by cases called <;> decide
  simp only [Machine.execute, Machine.call, target, negative, ↓reduceIte, Native.ofId?_id]

theorem run_giveResult (plain : site.Plain cell machine shown)
    (empty : shown.stack = []) (value : Word) {size : AccessSize}
    (access : Machine.typeAccess? called.result = some size)
    (room : shown.floor + called.layout.block + 8 ≤ shown.base) :
    ∃ after, (Machine.giveResult called value).run.run machine = (.ok (), after) ∧
      site.Plain cell after { shown with
        bytes := shown.bytes.store (shown.floor + called.layout.block) .eight
          (Memory.narrow size value.toNat) } := by
  obtain ⟨pointer, below, above, floor, top⟩ := plain.pointer_toNat
  rw [empty, List.length_nil] at floor
  have start : shown.pointer = shown.floor := by omega
  have highest := plain.highest
  have sees : Sees site shown (shown.floor + called.layout.block) AccessSize.eight.bytes :=
    ⟨by omega, .inl (by simp only [AccessSize.bytes]; omega)⟩
  have addr : machine.registers.get Machine.slotSP + BitVec.ofNat 64 called.layout.block =
      BitVec.ofNat 64 (shown.floor + called.layout.block) := by
    rw [pointer, start, BitVec.ofNat_add]
  obtain ⟨memory, stored, reached⟩ :=
    plain.store?_of_sees (Memory.narrow size value.toNat) sees addr
  refine ⟨_, ?_, reached⟩
  simp only [Machine.giveResult, access, Machine.run_bind, Machine.run_get,
    Machine.run_store stored]

/-- What is printed is added to the output. -/
theorem printed (plain : site.Plain cell machine shown) (text : Text) :
    site.Plain cell { machine with output := machine.output ++ text }
      { shown with output := shown.output ++ text } :=
  { plain with
    registers := fun reg slot slots isShown => by
      have value := plain.registers reg slot slots isShown
      cases reg <;> exact value
    output := by rw [plain.output] }

/-- What a native writes: its result, if it has one, to the word above its block. -/
def returned (called : Native) (result : Option Word) (shown : Shown) : Bytes :=
  match result with
  | some word => shown.bytes.store (shown.floor + called.layout.block) .eight word
  | none => shown.bytes

/-- Printing the only argument. -/
theorem run_printing (plain : site.Plain cell machine shown)
    (empty : shown.stack = []) {size : AccessSize} {word : Word}
    (given : Given called [word] shown) (place : called.layout.offsets[0]? = some 0)
    (width : (called.params[0]?).bind Machine.typeAccess? = some size)
    (room : shown.floor + 8 ≤ shown.base) (format : Word → Text) :
    (do Machine.print (format (← Machine.argument called 0)) : Exec Unit).run.run machine =
      (.ok (), { machine with output := machine.output ++ format word }) := by
  have short : size.bytes ≤ 8 := by cases size <;> decide
  have read := plain.run_argument empty given (show [word][0]? = some word from rfl) place width
    (by omega)
  simp only [Machine.run_bind, read, Machine.print, Machine.run_modify]

theorem comes_native (plain : site.Plain cell machine shown)
    {imm : BitVec 32} {arguments : List Word} {result : Option Word}
    (here : site.code[cell]? = some (.instruction ⟨.call, .unused, .unused, 0⟩))
    (next : site.code[cell + 1]? = some (.immediate imm))
    (target : imm.toInt = called.id) (empty : shown.stack = [])
    (effect : called.effect? arguments = some (text, result))
    (given : Given called arguments shown)
    (room : shown.floor + called.layout.block + 8 * result.toList.length ≤ shown.base) :
    machine.Comes site.program site.settings fun after => site.Plain (cell + 2) after
      { shown with bytes := returned called result shown, output := shown.output ++ text } := by
  refine plain.comes_of_fetch (plain.fetch_wide here next rfl rfl rfl) fun moved after => .inl ?_
  rw [run_native target]
  have block : called.layout.block = 8 ∨ 8 ≤ called.layout.block := by cases called <;> decide
  unfold Native.effect? at effect
  split at effect <;> try (obtain ⟨rfl, rfl⟩ := Prod.mk.inj (Option.some.inj effect))
  case h_1 number =>
    exact ⟨_, after.run_printing empty given (by decide) (show _ = some AccessSize.four by decide)
      (by omega) _, after.printed _⟩
  case h_2 number =>
    exact ⟨_, after.run_printing empty given (by decide) (show _ = some AccessSize.four by decide)
      (by omega) fun word => Single.fixed 6 (word.setWidth 32), after.printed _⟩
  case h_3 character =>
    exact ⟨_, after.run_printing empty given (by decide) (show _ = some AccessSize.one by decide)
      (by omega) fun word => [(word.toNat % 256).toUInt8], after.printed _⟩
  case h_4 base exponent =>
    have narrow : AccessSize.four.bytes = 4 := rfl
    have read := after.run_argument empty given (show [base, exponent][0]? = some base from rfl)
      (show _ = some 0 by decide) (show _ = some AccessSize.four by decide) (by omega)
    have read' := after.run_argument empty given (show [base, exponent][1]? =
      some exponent from rfl)
      (show _ = some 4 by decide) (show _ = some AccessSize.four by decide) (by omega)
    obtain ⟨last, run, reached⟩ := after.run_giveResult empty
      (Arithmetic.ofSingle (Arithmetic.power (Arithmetic.toSingle base)
        (Arithmetic.toSingle exponent))) (show Machine.typeAccess? Native.power.result =
          some .four by decide)
      (by simpa using room)
    refine ⟨last, ?_, by simpa [returned] using reached⟩
    simp only [Machine.callNative, Machine.run_bind, read, read', run]
  case h_5 number =>
    have narrow : AccessSize.four.bytes = 4 := rfl
    have read := after.run_argument empty given (show [number][0]? = some number from rfl)
      (show _ = some 0 by decide) (show _ = some AccessSize.four by decide) (by omega)
    obtain ⟨last, run, reached⟩ := after.run_giveResult empty
      (Arithmetic.ofSingle (Arithmetic.squareRoot (Arithmetic.toSingle number)))
      (show Machine.typeAccess? Native.squareRoot.result = some .four by decide)
        (by simpa using room)
    refine ⟨last, ?_, by simpa [returned] using reached⟩
    simp only [Machine.callNative, Machine.run_bind, read, run]
  case h_6 => simp at effect

end Site.Plain

end TinLang
