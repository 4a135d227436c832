import TinLang.Proofs.Completed
import TinLang.Proofs.Simulation.Operations

/-!
# Code that finds and changes places

The code of a place pushes its address. Code that loads through the address reads the place, and
code that stores through it assigns the place.
-/
namespace TinLang

/-- A type that is no pointer takes values of its own only. -/
theorem ValueType.eq_of_direct {place value : ValueType} (direct : value.pointer = 0)
    (accepts : place.accepts value = true) : place = value := by
  rcases Bool.or_eq_true_iff.mp accepts with same | pointers
  · exact of_decide_eq_true same
  · have pointer := (Bool.and_eq_true_iff.mp (Bool.and_eq_true_iff.mp pointers).1).2
    rw [ValueType.isPointer, direct] at pointer
    contradiction

/-- Without pointers nothing points to a struct. -/
theorem ValueType.pointedStruct?_eq_none {type : ValueType} (direct : type.pointer = 0) :
    type.pointedStruct? = none := by
  obtain ⟨base, pointer⟩ := type
  obtain rfl : pointer = 0 := direct
  cases base <;> rfl

/-- A type with the name of a struct is that struct. -/
theorem ValueType.eq_of_structName? {type : ValueType} {name : Text}
    (struct : type.structName? = some name) : type = ⟨.struct name, 0⟩ := by
  obtain ⟨base, pointer⟩ := type
  cases base with
  | struct other =>
    cases pointer with
    | zero =>
      obtain rfl := Option.some.inj struct
      rfl
    | succ pointer => simp [ValueType.structName?] at struct
  | _ => simp [ValueType.structName?] at struct

/-- Only names and members name places. -/
theorem Expr.not_isPlace {e : Expr} (name : ∀ span text, e = .name span text → False)
    (mem : ∀ span object field, e = .member span object field → False) : ¬ e.isPlace := by
  cases e with
  | name span text => exact (name _ _ rfl).elim
  | member span object field => exact (mem _ _ _ rfl).elim
  | _ => exact Bool.false_ne_true

namespace Scene

open Generate

variable {scene : Scene} {before shown : Shown} {bound base level roof : Nat} {rest : List Word}
  {place : Place} {addr : Nat}

/-- The member of the struct at a place is at its offset from there. -/
theorem Locates.member (locates : scene.Locates base place addr)
    (stands : scene.Stands base level roof) {struct field : Text} {mem : Member}
    (type : place.type.structName? = some struct)
    (found : (scene.table.get struct).member? field = some mem) :
    ∃ inner, place.member scene.table field = .ok inner ∧ inner.type = mem.type ∧
      scene.Locates base inner (addr + mem.offset) ∧
      mem.offset + scene.table.sizeOf mem.type ≤ scene.table.sizeOf place.type := by
  have prog := stands.program
  have listed : mem ∈ (scene.table.get struct).members := List.mem_of_find?_eq_some found
  have named : mem.name = field := by simpa using List.find?_some found
  obtain ⟨nonvoid, -⟩ := prog.ready.structs.get struct mem listed
  have size : scene.table.sizeOf place.type = (scene.table.get struct).size := by
    rw [ValueType.eq_of_structName? type]
    rfl
  have shape : scene.table.shapeOf place.type = (scene.table.get struct).shape := by
    rw [StructTable.shapeOf, type]
  have small : wordSize * (scene.table.get struct).shape.leaves < 2 ^ 63 := by
    rw [← shape]
    exact Nat.lt_trans (prog.values (some place.type)) (by decide)
  have inside : mem.offset + scene.table.sizeOf mem.type ≤
    (scene.table.get struct).size := (prog.ready.settled.spans struct small).within mem listed
  refine ⟨⟨place.name, place.first + (scene.table.get struct).leavesBefore field, mem.type⟩, ?_,
    rfl, ⟨nonvoid, prog.members struct mem listed, ?_⟩, size ▸ inside⟩
  · rw [Place.member, type]
    dsimp only
    rw [found]
  · obtain ⟨home, kind, front, back, there, parts, first, low, high⟩ := locates.part
    have accessed : (scene.table.get struct).shape.Accessed := by
      rw [← shape]
      exact prog.ready.structs.shapeOf locates.nonvoid
    obtain ⟨inner, outer, split, count⟩ := StructType.slots_of_mem (prog.ready.settled.distinct
      struct) accessed
      listed (addr : Int)
    refine ⟨home, kind, front ++ inner, outer ++ back, there, ?_, ?_, by omega, ?_⟩
    · rw [parts, shape, split, prog.ready.settled.members struct mem listed]
      simp only [List.append_assoc]
      rfl
    · rw [List.length_append, first, count, named]
    · rw [size] at high
      dsimp only
      omega

/-- The address of a place lies on some words. -/
structure Addresses (scene : Scene) (level roof : Nat) (before : Shown) (rest : List Word)
    (found : Option ValueType) (place : Place) (final : Shown) : Prop where
  type : found = some place.type
  stack : ∃ addr : Nat, scene.Locates before.base place addr ∧
    final.stack = BitVec.ofNat 64 addr :: rest
  quiet : Quiet level roof before final

/-- The immediate that holds a distance from the base of a frame gives the address. -/
theorem frame_address {offset : Int} (sum : (addr : Int) = base + offset)
    (near : offset ≤ Memory.dataBase) (high : base ≤ Memory.dataBase) :
    BitVec.ofNat 64 base + (BitVec.ofInt 32 offset).signExtend 64 = BitVec.ofNat 64 addr := by
  have base30 : Memory.dataBase = 2 ^ 30 := rfl
  rw [address_add (by omega) (by omega) (by omega), ← sum, Int.toNat_natCast]

/-- The code of a name gives its address. -/
theorem runs_nameAddress (span : Span) (name : Text) (stands : scene.Stands shown.base level roof) :
    scene.Runs bound shown (nameAddress span name) (Expr.place scene.table (.name span name))
      (scene.Addresses level roof shown shown.stack) := by
  have known := lookup_scene scene shown.base name
  refine .look (fun gen same => by rw [meaning_eq, same]) ?_
  rcases meant : meaningIn scene.context.environment scene.scopes name with
    ⟨type, offset⟩ | place | value | _
  · obtain ⟨kind, addr, rfl, locates, sum, near, found⟩ := stands.local' meant
    have highest := stands.highest
    have above := stands.above
    have below := scene.site.below
    have leads : scene.Leads (· = shown) (do
        emit .move .b .basePointer
        increase .b offset
        push .b
        return some kind) fun found final => found = some kind ∧ final = { shown with
          b := BitVec.ofNat 64 addr
          stack := BitVec.ofNat 64 addr :: shown.stack } := by
      refine .next (leads_move rfl rfl) (fun _ => (emits_increase _ _).bind fun _ =>
        (emits_push _).bind fun _ => .pure _) ?_
      rintro _ _ rfl
      refine .next (leads_increase rfl) (fun _ => (emits_push _).bind fun _ => .pure _) ?_
      rintro _ _ rfl
      refine .bind (leads_push rfl) fun _ => .pure ?_
      rintro _ rfl
      have same : BitVec.ofNat 64 shown.base + (BitVec.ofInt 32 offset).signExtend 64 =
          BitVec.ofNat 64 addr := frame_address sum (by omega) (by omega)
      refine ⟨rfl, ?_⟩
      rw [← same]
      rfl
    refine .of_leads leads ?_
    rintro _ _ ⟨rfl, rfl⟩
    exact ⟨_, Eval.run_bind_ok (run_find found), rfl, ⟨addr, locates, rfl⟩, .of_same rfl rfl rfl⟩
  · obtain ⟨addr, locates, sum, found⟩ := stands.global meant
    have leads : scene.Leads (· = shown) (do
        setDataAddress .b place.offset
        push .b
        return some place.type) fun found final => found = some place.type ∧ final = { shown with
          b := BitVec.ofNat 64 addr
          stack := BitVec.ofNat 64 addr :: shown.stack } := by
      refine .next (leads_setDataAddress rfl) (fun _ => (emits_push _).bind fun _ => .pure _) ?_
      rintro _ _ rfl
      rw [sum]
      exact .bind (leads_push rfl) fun _ => .pure fun _ same => ⟨rfl, same⟩
    refine .of_leads leads ?_
    rintro _ _ ⟨rfl, rfl⟩
    exact ⟨_, Eval.run_bind_ok (run_find found), rfl, ⟨addr, locates, rfl⟩, .of_same rfl rfl rfl⟩
  · exact .refused
  · exact .refused

/-- The address of a member follows from that of its struct. -/
theorem runs_memberAddress (span : Span) (field : Text)
    (locates : scene.Locates before.base place addr)
    (stands : scene.Stands before.base level roof)
    (stack : shown.stack = BitVec.ofNat 64 addr :: rest) (quiet : Quiet level roof before shown) :
    scene.Runs bound shown (memberAddress span field (some place.type))
      (Eval.lift (place.member scene.table field)) (scene.Addresses level roof before rest) := by
  unfold memberAddress
  dsimp only
  cases type : place.type.structName? with
  | none => exact .reported
  | some struct =>
    refine .environment ?_
    cases found : (scene.table.get struct).member? field with
    | none => exact .reported
    | some mem =>
      obtain ⟨inner, holds, same, there, inside⟩ := locates.member stands type found
      rw [holds]
      dsimp only
      rw [← same]
      refine .ite (fun _ => ?_) fun start => ?_
      · obtain ⟨home, size, region, low, high, -⟩ := locates.slots stands
        have highest := stands.highest
        have below := stands.below
        have roofs := stands.above
        have top := scene.site.below
        have data := scene.site.data
        have base30 : Memory.dataBase = 2 ^ 30 := rfl
        have sum : BitVec.ofNat 64 addr + (BitVec.ofInt 32 mem.offset).signExtend 64 =
            BitVec.ofNat 64 (addr + mem.offset) :=
          (address_add (by omega) (by omega) (by omega)).trans rfl
        have leads : scene.Leads (· = shown) (do
            pop .b
            increase .b mem.offset
            push .b
            return some inner.type) fun found final => found = some inner.type ∧
              final = { shown with
                b := BitVec.ofNat 64 (addr + mem.offset)
                stack := BitVec.ofNat 64 (addr + mem.offset) :: rest } := by
          refine .next (leads_pop rfl stack) (fun _ => (emits_increase _ _).bind fun _ =>
            (emits_push _).bind fun _ => .pure _) ?_
          rintro _ _ rfl
          refine .next (leads_increase rfl) (fun _ => (emits_push _).bind fun _ => .pure _) ?_
          rintro _ _ rfl
          refine .bind (leads_push rfl) fun _ => .pure ?_
          rintro _ rfl
          refine ⟨rfl, ?_⟩
          rw [← sum]
          rfl
        refine .of_leads leads ?_
        rintro _ _ ⟨rfl, rfl⟩
        exact ⟨inner, rfl, rfl, ⟨_, there, rfl⟩, quiet.trans (.of_same rfl rfl rfl)⟩
      · rw [Decidable.not_not.mp start] at there
        exact .pure ⟨rfl, ⟨addr, there, stack⟩, quiet⟩

/-- The code of a member gives its address. -/
theorem runs_memberOfPlace (span : Span) (field : Text)
    (locates : scene.Locates before.base place addr)
    (stands : scene.Stands before.base level roof)
    (stack : shown.stack = BitVec.ofNat 64 addr :: rest) (quiet : Quiet level roof before shown) :
    scene.Runs bound shown (memberOfPlace span field (some place.type))
      (Eval.lift (place.member scene.table field)) (scene.Addresses level roof before rest) := by
  unfold memberOfPlace
  rw [Option.bind_some, ValueType.pointedStruct?_eq_none locates.direct]
  exact runs_memberAddress span field locates stands stack quiet

/-- What is at the address on the stack is pushed instead of it. -/
theorem runs_loadValue (locates : scene.Locates shown.base place addr)
    (stands : scene.Stands shown.base level roof) (low : shown.floor ≤ level)
    (stack : shown.stack = BitVec.ofNat 64 addr :: rest) (quiet : Quiet level roof before shown) :
    scene.Runs bound shown (loadValue (some place.type)) (Eval.read scene.table place)
      (scene.Pushes level roof before rest) := by
  have leads : scene.Leads (· = shown) (loadValue (some place.type)) fun found final =>
      found = some place.type ∧ ∃ a b, final = { shown with
        a, b, stack := (shown.bytes.read ((scene.table.shapeOf place.type).slots addr)).reverse ++
          rest } := by
    refine .next (leads_pop rfl stack) (fun _ => (emits_pushFrom _ _ _).bind fun _ => .pure _) ?_
    rintro _ _ rfl
    refine .bind (locates.leads_push stands (by exact low) (.inl rfl) (by rfl) (Int.add_zero _).symm
      (.inl rfl))
      fun _ => .pure ?_
    rintro _ ⟨a, rfl⟩
    exact ⟨rfl, a, _, rfl⟩
  refine .of_leads leads ?_
  rintro _ _ ⟨rfl, a, b, rfl⟩
  exact ⟨_, locates.run_read stands, rfl, locates.direct, locates.count stands, rfl,
    quiet.trans (.of_same rfl rfl rfl)⟩

/-- What is stored at a place changes nothing that an expression may not change. -/
theorem Locates.quiet_keep (locates : scene.Locates shown.base place addr)
    (stands : scene.Stands shown.base level roof) (words : List Word) :
    Quiet level roof shown { shown with
      bytes := shown.bytes.keep ((scene.table.shapeOf place.type).slots addr) words } := by
  obtain ⟨home, size, region, low, high, inside⟩ := locates.slots stands
  have below := stands.below
  have above := stands.above
  refine ⟨rfl, rfl, fun byte least most kept => Bytes.keep_of_outside (fun slot mem => ?_)
    (fun slot mem => ?_) words⟩
  · obtain ⟨sized, first, last⟩ := inside slot mem
    exact ⟨sized, by omega⟩
  · obtain ⟨sized, first, last⟩ := inside slot mem
    omega

/-- One access reaches a scalar at a place. -/
theorem Locates.scalar (locates : scene.Locates base place addr)
    (stands : scene.Stands base level roof) {floor : Nat} (low : floor ≤ level)
    (single : place.type.structName? = none) :
    ∃ access : AccessSize,
      AccessSize.ofCode? (scene.table.sizeOf place.type).toUInt8 = some access ∧
      (scene.table.shapeOf place.type).slots addr = [⟨addr, scene.table.sizeOf place.type⟩] ∧
      access.bytes = scene.table.sizeOf place.type ∧
      ∀ shown : Shown, shown.floor = floor →
        Site.Plain.Sees scene.site shown addr access.bytes := by
  have slots : (scene.table.shapeOf place.type).slots addr =
      [⟨addr, scene.table.sizeOf place.type⟩] := by
    rw [StructTable.shapeOf, single]
    rfl
  obtain ⟨-, -, ⟨⟨access, width, bytes⟩, above, reach⟩⟩ := locates.within stands low
    (Int.add_zero _).symm (.inl rfl) ⟨0, scene.table.sizeOf place.type⟩ (by
      have moved := (scene.table.shapeOf place.type).slots_add 0 addr
      rw [StructTable.shapeOf, single]
      exact List.mem_singleton_self _)
  refine ⟨access, width, slots, bytes, fun shown same => ?_⟩
  simp only [Slot.shift, Int.zero_add] at above reach bytes
  exact ⟨by omega, by omega⟩

namespace Runs

variable {α β : Type} {step : Generate α} {eval : Eval β} {after : α → β → Shown → Prop}

/-- A value that does not fit is reported. -/
theorem fits {span : Span} {type value : ValueType} {use : Use} {next : Bool → Generate α}
    (runs : type.accepts value = true → scene.Runs bound shown (next true) eval after) :
    scene.Runs bound shown (do next (← Generate.fits span (some type) (some value) use))
      eval after := by
  intro gen result later done
  obtain ⟨fitting, between, one, two⟩ := bind_done.mp done
  obtain ⟨rfl, accepts, rfl⟩ := fits_done one
  exact runs accepts two

end Runs

/-- The words on the stack are stored at a place. -/
theorem Locates.leads_pop (locates : scene.Locates base place addr)
    (stands : scene.Stands base level roof) (low : shown.floor ≤ level) {reg : Register}
    {origin : Nat} {offset : Int} (points : Points reg)
    (start : shown.get reg = BitVec.ofNat 64 origin)
    (sum : (addr : Int) = origin + offset)
    (near : offset = 0 ∨ origin = base ∧
      offset + scene.table.sizeOf place.type ≤ Memory.dataBase) {words : List Word}
    (count : words.length = scene.table.leavesOf place.type)
    (stack : shown.stack = words.reverse ++ rest) :
    scene.Leads (· = shown) (popTo reg offset (some place.type)) fun _ final =>
      ∃ a, final = { shown with
        a, stack := rest, bytes := shown.bytes.keep
          ((scene.table.shapeOf place.type).slots addr) words } := by
  have length := Shape.length_slots (stands.program.ready.structs.shapeOf locates.nonvoid) offset
  refine (leads_popTo origin points start (locates.within stands low sum near)
    (count.trans length.symm) stack).weaken ?_
  rintro _ _ ⟨a, rfl⟩
  exact ⟨a, by rw [sum, Int.add_comm]⟩

/-- The value on the stack is stored at the address below it. -/
theorem runs_storeValue (span : Span) {value : Value}
    (locates : scene.Locates shown.base place addr)
    (stands : scene.Stands shown.base level roof) (low : shown.floor ≤ level)
    (direct : value.type.pointer = 0)
    (count : value.words.length = scene.table.leavesOf value.type)
    (stack : shown.stack = value.words.reverse ++ BitVec.ofNat 64 addr :: rest)
    (quiet : Quiet level roof before shown) :
    scene.Runs bound shown (storeValue span (some place.type) (some value.type))
      (Eval.store scene.table place value) (scene.Pushes level roof before rest) := by
  refine .fits fun accepts => ?_
  have same : place.type = value.type := ValueType.eq_of_direct direct accepts
  have assigned := locates.run_assign stands (count.trans (by rw [same]))
  have kept := locates.quiet_keep stands value.words
  rw [if_pos rfl]
  cases struct : place.type.structName? with
  | none =>
    obtain ⟨access, width, slots, bytes, sees⟩ := locates.scalar stands low struct
    have positive : scene.table.sizeOf place.type ≠ 0 := by
      rw [← bytes]
      cases access <;> decide
    obtain ⟨word, words⟩ : ∃ word, value.words = [word] := by
      refine exists_word count ?_
      simp only [StructTable.leavesOf, ← same, StructTable.shapeOf, struct, Shape.leaves,
        if_neg positive]
    rw [words] at stack
    rw [slots, words] at assigned kept
    have leads : scene.Leads (· = shown) (do
        pop .a
        pop .b
        emit .store .b .a ((← environment).structs.sizeOf place.type).toUInt8
        push .a
        return some place.type) fun found final => found = some place.type ∧ ∃ a b,
          final = { shown with
            a, b, stack := word :: rest
            bytes := shown.bytes.keep [⟨addr, scene.table.sizeOf place.type⟩] [word] } := by
      have emits : ∀ size : UInt8, Emits (do
          emit .store .b .a size
          push .a
          return some place.type) := fun size =>
            (emits_emit (by decide) (by decide) (by decide)).bind
        fun _ => (emits_push _).bind fun _ => .pure _
      refine .next (leads_pop rfl stack) (fun _ => (emits_pop _).bind fun _ =>
        emits_environment.bind fun _ => emits _) ?_
      rintro _ _ rfl
      refine .next (leads_pop rfl rfl) (fun _ => emits_environment.bind fun _ => emits _) ?_
      rintro _ _ rfl
      refine .next leads_environment (fun _ => emits _) ?_
      rintro _ _ ⟨rfl, rfl⟩
      refine .next (leads_store addr rfl rfl width rfl (sees _ rfl))
        (fun _ => (emits_push _).bind fun _ => .pure _) ?_
      rintro _ _ rfl
      refine .bind (leads_push rfl) fun _ => .pure ?_
      rintro _ rfl
      refine ⟨rfl, word, BitVec.ofNat 64 addr, ?_⟩
      simp only [Bytes.keep, Bytes.put, width, Int.toNat_natCast]
      rfl
    refine .of_leads leads ?_
    rintro _ _ ⟨rfl, a, b, rfl⟩
    refine ⟨value, (Eval.run_bind_ok assigned).trans ?_, congrArg some same, direct, count, ?_,
      quiet.trans (kept.trans (.of_same rfl rfl rfl))⟩
    · rw [if_neg (by rw [struct]; exact Bool.false_ne_true)]
      rfl
    · rw [words]
      rfl
  | some name =>
    have small : 8 * value.words.length < 2 ^ 31 := by
      have bytes := stands.program.values (some value.type)
      rw [Environment.bytesOf_some, ← count] at bytes
      exact bytes
    have inside : value.words.length < shown.stack.length := by
      rw [stack, List.length_append, List.length_reverse, List.length_cons]
      omega
    have word : shown.stack[value.words.length] = BitVec.ofNat 64 addr := by
      simp only [stack]
      rw [List.getElem_append_right (by simp)]
      simp
    have leads : scene.Leads (· = shown) (do
        emitNumber .loadAt .b .stackPointer wordSize.toUInt8
          (wordSize * (← environment).leavesOf (some place.type))
        popTo .b 0 (some place.type)
        pop .b
        pushFrom .b 0 (some place.type)
        return some place.type) fun found final => found = some place.type ∧ ∃ a b,
          final = { shown with
            a, b, stack := ((shown.bytes.keep ((scene.table.shapeOf place.type).slots addr)
              value.words).read ((scene.table.shapeOf place.type).slots addr)).reverse ++ rest
            bytes := shown.bytes.keep ((scene.table.shapeOf place.type).slots addr)
              value.words } := by
      have emits : Emits (do
          popTo .b 0 (some place.type)
          pop .b
          pushFrom .b 0 (some place.type)
          return some place.type) := (emits_popTo _ _ _).bind fun _ => (emits_pop _).bind fun _ =>
        (emits_pushFrom _ _ _).bind fun _ => .pure _
      refine .next leads_environment (fun _ => (emits_emitNumber (by decide)).bind fun _ =>
        emits) ?_
      rintro _ shown ⟨rfl, rfl⟩
      have words : ((wordSize : Int) * (scene.context.environment.leavesOf (some place.type) :
        Nat)) =
          ((8 * value.words.length : Nat) : Int) := by
        rw [count, ← same]
        rfl
      rw [words]
      refine .next (leads_loadWord rfl inside small) (fun _ => emits) ?_
      rintro _ _ rfl
      rw [word]
      refine .next (locates.leads_pop stands (by exact low) (.inl rfl) (by rfl)
        (Int.add_zero _).symm (.inl rfl)
        (count.trans (by rw [same])) (by exact stack))
        (fun _ => (emits_pop _).bind fun _ => (emits_pushFrom _ _ _).bind fun _ => .pure _) ?_
      rintro _ _ ⟨a, rfl⟩
      refine .next (leads_pop rfl rfl) (fun _ => (emits_pushFrom _ _ _).bind fun _ => .pure _) ?_
      rintro _ _ rfl
      refine .bind (locates.leads_push stands (by exact low) (.inl rfl) (by rfl)
        (Int.add_zero _).symm (.inl rfl))
        fun _ => .pure ?_
      rintro _ ⟨a, rfl⟩
      exact ⟨rfl, a, _, rfl⟩
    refine .of_leads leads ?_
    rintro _ _ ⟨rfl, a, b, rfl⟩
    let stored : Shown := { shown with
      bytes := shown.bytes.keep ((scene.table.shapeOf place.type).slots addr) value.words }
    have read := @Locates.run_read scene stored level roof place addr locates stands
    refine ⟨⟨place.type, _⟩, (Eval.run_bind_ok assigned).trans ?_, rfl, locates.direct,
      locates.count stands, rfl, quiet.trans (kept.trans (.of_same rfl rfl rfl))⟩
    rw [if_pos (by rw [struct]; rfl)]
    exact read

/-- The code that changes the number at the address on the stack leaves the number from before or
after. -/
theorem leads_stepPlace {type : ValueType} {access : AccessSize} {size : Nat} (early : Bool)
    (distance : Int) (width : AccessSize.ofCode? size.toUInt8 = some access)
    (sees : ∀ other : Shown, other.floor = shown.floor →
      Site.Plain.Sees scene.site other addr access.bytes) {word after : Word}
    (number : shown.bytes.word addr access = word)
    (sum : word + (BitVec.ofInt 32 distance).signExtend 64 = after)
    (stack : shown.stack = BitVec.ofNat 64 addr :: rest) :
    scene.Leads (· = shown) (do
      pop .b
      emit .load .a .b size.toUInt8
      if !early then push .a
      increase .a distance
      emit .store .b .a size.toUInt8
      if early then push .a
      return some type) fun found final => found = some type ∧ final = { shown with
        a := after, b := BitVec.ofNat 64 addr, stack := (if early then after else word) :: rest
        bytes := shown.bytes.keep [⟨addr, size⟩] [after] } := by
  have last : Emits (do
      if early then push .a
      return some type) :=
    .ite (fun _ => (emits_push _).bind fun _ => .pure _) fun _ => .pure _
  have tail : Emits (do
      increase .a distance
      emit .store .b .a size.toUInt8
      if early then push .a
      return some type) := (emits_increase _ _).bind fun _ =>
    (emits_emit (by decide) (by decide) (by decide)).bind fun _ => last
  have body : Emits (do
      if !early then push .a
      increase .a distance
      emit .store .b .a size.toUInt8
      if early then push .a
      return some type) := .ite (fun _ => (emits_push _).bind fun _ => tail) fun _ => tail
  have finish : ∀ (stack : List Word), scene.Leads (· = { shown with
        a := word, b := BitVec.ofNat 64 addr, stack }) (do
      increase .a distance
      emit .store .b .a size.toUInt8
      if early then push .a
      return some type) fun found final => found = some type ∧ final = { shown with
        a := after, b := BitVec.ofNat 64 addr, stack := if early then after :: stack else stack
        bytes := shown.bytes.keep [⟨addr, size⟩] [after] } := by
    intro stack
    have kept : shown.bytes.keep [⟨addr, size⟩] [after] =
        shown.bytes.store addr access after := by
      simp only [Bytes.keep, Bytes.put, width, Int.toNat_natCast]
    rw [kept, ← sum]
    refine .next (leads_increase rfl) (fun _ =>
      (emits_emit (by decide) (by decide) (by decide)).bind
      fun _ => last) ?_
    rintro _ _ rfl
    refine .next (leads_store addr rfl rfl width rfl (sees _ rfl)) (fun _ => last) ?_
    rintro _ _ rfl
    refine .ite (fun yes => .bind (leads_push rfl) fun _ => .pure ?_) fun no => .pure ?_
    · rintro _ rfl
      exact ⟨rfl, by rw [if_pos yes]; rfl⟩
    · rintro _ rfl
      exact ⟨rfl, by rw [if_neg no]; rfl⟩
  refine .next (leads_pop rfl stack) (fun _ => (emits_emit (by decide) (by decide) (by decide)).bind
    fun _ => body) ?_
  rintro _ _ rfl
  refine .next (leads_load addr rfl rfl width rfl (sees _ rfl)) (fun _ => body) ?_
  rintro _ _ rfl
  subst number
  cases early with
  | true => exact finish rest
  | false =>
    refine .next (leads_push rfl) (fun _ => tail) ?_
    rintro _ _ rfl
    exact finish _

/-- The number at the address on the stack is changed by one. -/
theorem runs_stepPlace (span : Span) (op : StepOp) (early : Bool)
    (locates : scene.Locates shown.base place addr)
    (stands : scene.Stands shown.base level roof) (low : shown.floor ≤ level)
    (stack : shown.stack = BitVec.ofNat 64 addr :: rest) (quiet : Quiet level roof before shown) :
    scene.Runs bound shown (stepPlace span op early (some place.type))
      (Eval.increase scene.table op.distance early place) (scene.Pushes level roof
        before rest) := by
  unfold stepPlace
  dsimp only
  refine .ite (fun integral => .environment ?_) fun _ => .reported
  have single : place.type.structName? = none ∧ scene.table.leavesOf place.type = 1 := by
    rcases integral with same | same <;> rw [same] <;> exact ⟨rfl, rfl⟩
  obtain ⟨access, width, slots, -, sees⟩ := locates.scalar stands low single.1
  have read := locates.run_read stands
  have held : shown.bytes.read ((scene.table.shapeOf place.type).slots addr) =
      [shown.bytes.word addr access] := by
    rw [slots]
    simp only [Bytes.read, Bytes.scalar, List.map_cons, List.map_nil, width, Int.toNat_natCast]
  rw [held] at read
  have evaluates : ∀ after : Word, (do
        Eval.assign scene.table place ⟨place.type, [after]⟩
        return if early then (⟨place.type, [after]⟩ : Value) else
          ⟨place.type, [shown.bytes.word addr access]⟩ : Eval Value).run.run (scene.store shown) =
          (.ok ⟨place.type, [if early then after else shown.bytes.word addr access]⟩,
            scene.store { shown with
              bytes := shown.bytes.keep [⟨addr, scene.table.sizeOf place.type⟩] [after] }) ∧
      Quiet level roof shown { shown with
        bytes := shown.bytes.keep [⟨addr, scene.table.sizeOf place.type⟩] [after] } := by
    intro after
    have assigned := @Locates.run_assign scene shown level roof place addr locates stands
      ⟨place.type, [after]⟩ single.2.symm
    have kept := locates.quiet_keep stands [after]
    rw [slots] at assigned kept
    refine ⟨(Eval.run_bind_ok assigned).trans ?_, kept⟩
    cases early <;> rfl
  have runs : ∀ distance : Int, scene.Runs bound shown (do
      pop .b
      emit .load .a .b (scene.table.sizeOf place.type).toUInt8
      if !early then push .a
      increase .a distance
      emit .store .b .a (scene.table.sizeOf place.type).toUInt8
      if early then push .a
      return some place.type)
      (Eval.increase scene.table ((BitVec.ofInt 32 distance).signExtend 64) early place)
      (scene.Pushes level roof before rest) := by
    intro distance
    refine .of_leads (leads_stepPlace early distance width sees rfl rfl stack) ?_
    rintro _ _ ⟨rfl, rfl⟩
    obtain ⟨evaluates, kept⟩ := evaluates
      (shown.bytes.word addr access + (BitVec.ofInt 32 distance).signExtend 64)
    exact ⟨_, (Eval.run_bind_ok read).trans evaluates, rfl, locates.direct, single.2.symm, rfl,
      quiet.trans (kept.trans (.of_same rfl rfl rfl))⟩
  cases op with
  | increment => exact runs 1
  | decrement => exact runs (-1)

/-- The words of a value lie on the stack with the first deepest. -/
theorem getElem_reverse_append {words : List Word} (rest : List Word) {index : Nat}
    (inside : index < words.length) :
    (words.reverse ++ rest)[words.length - 1 - index]? = some words[index] := by
  have same : words.length - 1 - (words.length - 1 - index) = index := by omega
  rw [List.getElem?_append_left (by rw [List.length_reverse]; omega),
    List.getElem?_reverse (by omega), same]
  exact List.getElem?_eq_getElem inside

/-- A word below the top is set from the other end. -/
theorem set_reverse_append {words : List Word} (rest : List Word) {index : Nat}
    (inside : index < words.length) (word : Word) :
    (words.reverse ++ rest).set (words.length - 1 - index) word =
      (words.set index word).reverse ++ rest := by
  rw [List.set_append_left _ _ (by rw [List.length_reverse]; omega)]
  congr 1
  refine List.ext_getElem (by simp) fun place low high => ?_
  simp only [List.length_set, List.length_reverse] at low
  simp only [List.getElem_set, List.getElem_reverse, List.length_set]
  split <;> split <;> first | rfl | omega

/-- The words of a member are copied in front of the value that it is part of. -/
theorem leads_copyLeaves {words : List Word} {first count start : Nat}
    (inside : first + start + count ≤ words.length) (small : 8 * words.length < 2 ^ 31)
    (stack : shown.stack = words.reverse ++ rest) :
    scene.Leads (· = shown) (copyLeaves words.length first (List.range' start count)) fun _ final =>
      ∃ (a : Word) (moved : List Word), final = { shown with a, stack := moved.reverse ++ rest } ∧
        moved.length = words.length ∧
        moved.take (start + count) = words.take start ++ (words.drop (first + start)).take
          count := by
  induction count generalizing start shown words with
  | zero =>
    refine .pure ?_
    rintro final rfl
    exact ⟨final.a, words, by rw [← stack], rfl, by rw [List.take_zero, List.append_nil]; rfl⟩
  | succ count ih =>
    rw [List.range'_succ]
    unfold copyLeaves
    refine .ite (fun _ => ?_) fun none => ?_
    · have source : words.length - 1 - (first + start) < shown.stack.length := by
        rw [stack, List.length_append, List.length_reverse]
        omega
      have target : words.length - 1 - start < shown.stack.length := by
        rw [stack, List.length_append, List.length_reverse]
        omega
      have place : wordSize * (words.length - 1 - first - start) =
          8 * (words.length - 1 - (first + start)) := by rw [Nat.sub_sub _ first]; rfl
      have word : shown.stack[words.length - 1 - (first + start)] = words[first + start] := by
        refine Option.some.inj ((List.getElem?_eq_getElem source).symm.trans ?_)
        rw [stack]
        exact getElem_reverse_append rest (by omega)
      rw [place]
      have emits : Emits (do
          emitNumber .storeAt .stackPointer .a wordSize.toUInt8
            ((wordSize * (words.length - 1 - start) : Nat) : Int)
          copyLeaves words.length first (List.range' (start + 1) count)) :=
        (emits_emitNumber (by decide)).bind fun _ => emits_copyLeaves _ _ _
      refine .next (leads_loadWord rfl source (by omega)) (fun _ => emits) ?_
      rintro _ _ rfl
      refine .next (leads_storeWord rfl target (by omega)) (fun _ => emits_copyLeaves _ _ _) ?_
      rintro _ _ rfl
      have same : shown.stack.set (words.length - 1 - start) words[first + start] =
          (words.set start words[first + start]).reverse ++ rest := by
        rw [stack]
        exact set_reverse_append rest (by omega) _
      have later := @ih { shown with
          a := words[first + start]
          stack := (words.set start words[first + start]).reverse ++ rest }
        (words.set start words[first + start]) (start + 1) (by rw [List.length_set]; omega)
        (by rw [List.length_set]; exact small) rfl
      rw [List.length_set] at later
      refine later.mono ?_ ?_
      · rintro _ rfl
        rw [← same, ← word]
        rfl
      · rintro _ _ ⟨a, moved, rfl, length, front⟩
        refine ⟨a, moved, rfl, length, ?_⟩
        rw [show start + (count + 1) = start + 1 + count by omega, front, ← Nat.add_assoc,
          List.drop_set_of_lt (by omega), List.drop_eq_getElem_cons
            (show first + start < _ by omega),
          List.take_succ_cons, List.take_succ_eq_append_getElem
            (show start < _ by rw [List.length_set]; omega),
          List.take_set_of_le (Nat.le_refl _), List.getElem_set_self, List.append_assoc]
        rfl
    · obtain rfl : first = 0 := Decidable.not_not.mp none
      refine (ih (by omega) small stack).weaken ?_
      rintro _ _ ⟨a, moved, rfl, length, front⟩
      refine ⟨a, moved, rfl, length, ?_⟩
      rw [show start + (count + 1) = start + 1 + count by omega, front, Nat.zero_add, Nat.zero_add,
        List.drop_eq_getElem_cons (show start < _ by omega), List.take_succ_cons,
        List.take_succ_eq_append_getElem (show start < _ by omega), List.append_assoc]
      rfl

/-- The scalars of a member are some of those of its struct. -/
theorem leaves_of_member (prog : scene.context.environment.Direct) {struct : Text} {mem : Member}
    (listed : mem ∈ (scene.table.get struct).members) :
    mem.shape = scene.table.shapeOf mem.type ∧
      (scene.table.get struct).leavesBefore mem.name + mem.shape.leaves ≤
        (scene.table.get struct).shape.leaves := by
  have shape : mem.shape = scene.table.shapeOf mem.type :=
    prog.ready.settled.members struct mem listed
  have placed : (⟨.struct struct, 0⟩ : ValueType) ≠ .void := by simp [ValueType.void]
  have accessed : (scene.table.get struct).shape.Accessed := prog.ready.structs.shapeOf placed
  obtain ⟨nonvoid, -⟩ := prog.ready.structs.get struct mem listed
  have inner : mem.shape.Accessed := by
    rw [shape]
    exact prog.ready.structs.shapeOf nonvoid
  obtain ⟨front, back, split, before⟩ := StructType.slots_of_mem (prog.ready.settled.distinct
    struct) accessed
    listed 0
  have total := Shape.length_slots accessed 0
  rw [split, List.length_append, List.length_append, Shape.length_slots inner, before] at total
  exact ⟨shape, Nat.le.intro total⟩

/-- Extracting a member leaves its words on the operand stack. -/
theorem leads_extractMember {struct : StructType} {mem : Member} {words : List Word}
    (total : words.length = struct.shape.leaves)
    (inside : struct.leavesBefore mem.name + mem.shape.leaves ≤ struct.shape.leaves)
    (small : 8 * words.length < 2 ^ 31) (stack : shown.stack = words.reverse ++ rest) :
    scene.Leads (· = shown) (extractMember struct mem) fun _ final => ∃ a, final = { shown with
      a, stack := ((words.drop (struct.leavesBefore mem.name)).take
        mem.shape.leaves).reverse ++ rest } := by
  unfold extractMember
  dsimp only
  rw [← total] at inside ⊢
  rw [List.range_eq_range']
  have copied := @leads_copyLeaves scene shown rest words (struct.leavesBefore mem.name)
    mem.shape.leaves 0 (by omega) small stack
  refine .next copied (fun _ => .ite (fun _ => emits_increase _ _) fun _ => .pure _) ?_
  rintro _ _ ⟨a, moved, rfl, length, front⟩
  rw [Nat.zero_add, List.take_zero, List.nil_append, Nat.add_zero] at front
  rw [← front]
  refine .ite (fun fewer => ?_) fun all => .pure ?_
  · have distance : (wordSize : Int) * ((words.length : Int) - (mem.shape.leaves : Int)) =
        ((8 * (words.length - mem.shape.leaves) : Nat) : Int) := by
      unfold wordSize
      omega
    rw [distance]
    refine (leads_drop (by omega) ?_).weaken ?_
    · rw [List.length_append, List.length_reverse, length]
      omega
    · rintro _ _ rfl
      refine ⟨a, ?_⟩
      have split : moved.reverse = (moved.drop mem.shape.leaves).reverse ++
          (moved.take mem.shape.leaves).reverse := by
        rw [← List.reverse_append, List.take_append_drop]
      rw [split, List.append_assoc, List.drop_left'
        (by rw [List.length_reverse, List.length_drop, length])]
  · rintro _ rfl
    exact ⟨a, by rw [List.take_of_length_le (by omega)]⟩

/-- The struct on the stack is replaced by one of its members. -/
theorem runs_memberOfValue (prog : scene.context.environment.Direct) (span : Span) (field : Text)
    {value : Value} (direct : value.type.pointer = 0)
    (count : value.words.length = scene.table.leavesOf value.type)
    (stack : shown.stack = value.words.reverse ++ rest) (quiet : Quiet level roof before shown) :
    scene.Runs bound shown (memberOfValue span field (some value.type))
      (Eval.lift (value.member scene.table field)) (scene.Pushes level roof before rest) := by
  refine .environment ?_
  dsimp only
  rw [ValueType.pointedStruct?_eq_none direct, Value.member]
  cases type : value.type.structName? with
  | none => exact .reported
  | some struct =>
    dsimp only
    cases found : (scene.table.get struct).member? field with
    | none => exact .reported
    | some mem =>
      have listed : mem ∈ (scene.table.get struct).members := List.mem_of_find?_eq_some found
      have named : mem.name = field := by simpa using List.find?_some found
      obtain ⟨shape, inside⟩ := leaves_of_member prog listed
      have small : 8 * value.words.length < 2 ^ 31 := by
        have bytes := prog.values (some value.type)
        rw [Environment.bytesOf_some, ← count] at bytes
        exact bytes
      have leaves : scene.table.leavesOf mem.type = mem.shape.leaves := by rw [shape]; rfl
      have whole : scene.table.leavesOf value.type = (scene.table.get struct).shape.leaves := by
        rw [StructTable.leavesOf, StructTable.shapeOf, type]
      rw [whole] at count
      subst named
      have leads : scene.Leads (· = shown) (do
          extractMember (scene.table.get struct) mem
          return some mem.type) fun found final => found = some mem.type ∧
            ∃ a, final = { shown with
              a, stack := ((value.words.drop
                ((scene.table.get struct).leavesBefore mem.name)).take
                  mem.shape.leaves).reverse ++ rest } :=
        .bind (leads_extractMember count inside small stack) fun _ =>
          .pure fun _ here => ⟨rfl, here⟩
      refine .of_leads leads ?_
      rintro _ _ ⟨rfl, a, rfl⟩
      refine ⟨_, rfl, rfl, prog.members struct mem listed, ?_, by rw [leaves],
        quiet.trans (.of_same rfl rfl rfl)⟩
      rw [List.length_take, List.length_drop, count]
      show min _ _ = scene.table.leavesOf mem.type
      omega

namespace Runs

/-- A step that is never done. -/
theorem never {α β : Type} {step : Generate α} {eval : Eval β} {after : α → β → Shown → Prop}
    (impossible : ∀ gen value later, gen.scopes = scene.scopes →
      step scene.context gen ≠ .done (value, later)) :
    scene.Runs bound shown step eval after :=
  fun gen value later done scopes => absurd done (impossible gen value later scopes)

end Runs

/-- The type has no members, nor has what it points to. -/
def Plain (type : ValueType) : Prop := type.structName? = none ∧ type.pointedStruct? = none

/-- A literal has the type of its value, which is plain. -/
theorem plain_of_literal {e : Expr} {value : Value} (literal : Value.ofLiteral? e = some value)
    {ctx : FunctionContext} {gen later : Generator} {found : Option ValueType}
    (done : Generate.literal e ctx gen = .done (found, later)) :
    found = some value.type ∧ Plain value.type := by
  unfold Value.ofLiteral? at literal
  split at literal <;> cases literal <;>
    exact ⟨((Prod.mk.inj (Task.done.inj done)).1).symm, rfl, rfl⟩

/-- The value of a constant has no members. -/
theorem plain_of_constant {constant : Constant} (direct : (Value.ofLiteral? constant.value).isSome)
    {ctx : FunctionContext} {gen later : Generator} {found : Option ValueType}
    (done : constantValue constant ctx gen = .done (found, later)) :
    ∃ type, found = some type ∧ Plain type := by
  obtain ⟨value, literal⟩ := Option.isSome_iff_exists.mp direct
  obtain ⟨given, between, one, two⟩ := bind_done.mp done
  obtain ⟨rfl, plain⟩ := plain_of_literal literal one
  rcases coerce_done two with ⟨-, rfl⟩ | ⟨-, rfl, -⟩
  · exact ⟨.float, rfl, rfl, rfl⟩
  · exact ⟨_, rfl, plain⟩

/-- The place of a constant has no members. -/
theorem memberOfValue_plain {span : Span} {field : Text} {type : ValueType} (plain : Plain type)
    {ctx : FunctionContext} {gen : Generator} {result : Option ValueType × Generator} :
    memberOfValue span field (some type) ctx gen ≠ .done result := by
  intro done
  obtain ⟨_, _, look, done⟩ := bind_done.mp done
  dsimp only at done
  rw [plain.1, plain.2] at done
  obtain ⟨_, _, reports, -⟩ := bind_done.mp done
  cases reports

/-- No member is found through a plain type. -/
theorem memberOfPointer_plain {span : Span} {field : Text} {type : ValueType} (plain : Plain type)
    {ctx : FunctionContext} {gen : Generator} {result : Option ValueType × Generator} :
    memberOfPointer span field (some type) ctx gen ≠ .done result := by
  intro done
  unfold memberOfPointer at done
  dsimp only at done
  rw [plain.1, plain.2] at done
  obtain ⟨_, _, reports, -⟩ := bind_done.mp done
  cases reports

/-- An expression that names a place is found to be one, unless it names a constant. -/
theorem addressable_isPlace (direct : ∀ entry ∈ scene.referents base, entry.2.Direct) {e : Expr}
    (placed : e.isPlace) : ∃ found, (∀ gen, gen.scopes = scene.scopes →
        addressable e scene.context gen = .done (found, gen)) ∧
      (found = false → ∀ gen type later, gen.scopes = scene.scopes →
        expr e scene.context gen = .done (type, later) →
          ∃ known, type = some known ∧ Plain known) := by
  induction e using Expr.isPlace.induct with
  | case1 span name =>
    have known := lookup_scene scene base name
    cases meant : meaningIn scene.context.environment scene.scopes name with
    | constant value =>
      rw [meant] at known
      refine ⟨false, fun gen same => ?_, fun _ gen type later same done => ?_⟩
      · refine bind_done.mpr ⟨_, _, meaning_eq name _ _, ?_⟩
        rw [same, meant]
        rfl
      · obtain ⟨_, _, look, done⟩ := bind_done.mp done
        rw [meaning_eq, same, meant] at look
        obtain ⟨rfl, rfl⟩ := Prod.mk.inj (Task.done.inj look)
        exact plain_of_constant (direct _ (mem_of_lookup known)) done
    | _ =>
      refine ⟨true, fun gen same => ?_, fun wrong => absurd wrong (by decide)⟩
      refine bind_done.mpr ⟨_, _, meaning_eq name _ _, ?_⟩
      rw [same, meant]
      rfl
  | case2 span object field ih =>
    obtain ⟨found, looks, constant⟩ := ih placed
    refine ⟨found, looks, fun none gen type later same done => ?_⟩
    unfold expr at done
    obtain ⟨_, _, look, done⟩ := bind_done.mp done
    rw [looks gen same] at look
    obtain ⟨rfl, rfl⟩ := Prod.mk.inj (Task.done.inj look)
    rw [none] at done
    obtain ⟨_, _, one, two⟩ := bind_done.mp done
    obtain ⟨known, rfl, plain⟩ := constant none _ _ _ same one
    exact absurd two (memberOfValue_plain plain)
  | case3 e name mem => exact absurd placed (Expr.not_isPlace name mem)

/-- The place of a member is found from the place of its struct. -/
theorem runs_memberPlace (span : Span) (object : Expr) (field : Text)
    (stands : scene.Stands shown.base level roof)
    (runs : scene.Runs bound shown (Generate.address object) (object.place scene.table)
      (scene.Addresses level roof shown shown.stack)) :
    scene.Runs bound shown (do memberOfPlace span field (← Generate.address object))
      (Expr.place scene.table (.member span object field))
      (scene.Addresses level roof shown shown.stack) := by
  refine .bind (emits_address object) (fun _ => emits_memberOfPlace _ _ _) runs ?_
  rintro _ place between ⟨rfl, ⟨addr, there, stack⟩, quiet⟩
  exact runs_memberOfPlace span field there stands stack quiet

/-- The code of a place pushes its address. -/
theorem runs_address {e : Expr} (placed : e.isPlace) (stands : scene.Stands shown.base level roof) :
    scene.Runs bound shown (Generate.address e) (e.place scene.table)
      (scene.Addresses level roof shown shown.stack) := by
  induction e using Expr.isPlace.induct with
  | case1 span name => exact runs_nameAddress span name stands
  | case2 span object field ih =>
    obtain ⟨found, looks, constant⟩ := addressable_isPlace stands.direct
      (show object.isPlace from placed)
    unfold Generate.address
    refine .look looks ?_
    cases found with
    | true => exact runs_memberPlace span object field stands (ih placed)
    | false =>
      refine .never fun gen type later same done => ?_
      obtain ⟨_, _, one, two⟩ := bind_done.mp done
      obtain ⟨known, rfl, plain⟩ := constant rfl _ _ _ same one
      exact memberOfPointer_plain plain two
  | case3 e name mem => exact absurd placed (Expr.not_isPlace name mem)

end Scene

end TinLang
