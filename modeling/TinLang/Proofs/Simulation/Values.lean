import TinLang.Proofs.Machine.Slots
import TinLang.Proofs.Simulation.Leads

/-!
# Values between memory and the operand stack

The code that pushes a value reads its scalars in order, so that the first lies deepest, and the
code that pops one stores them from the last to the first.
-/
namespace TinLang

/-- A scalar lies in the stack above the operand stack or in the data segment. -/
structure Site.Holds (site : Site) (floor : Nat) (slot : Slot) : Prop where
  sized : slot.Sized
  low : (floor : Int) ≤ slot.offset
  high : slot.offset + slot.size ≤ site.top ∨ (Memory.dataBase : Int) ≤ slot.offset ∧
    slot.offset + slot.size ≤ Memory.dataBase + site.dataSize

/-- The place at a distance that an immediate holds from an address. -/
theorem address_add {origin : Nat} {distance : Int} (low : -2 ^ 31 ≤ distance)
    (high : distance < 2 ^ 31) (natural : 0 ≤ origin + distance) :
    BitVec.ofNat 64 origin + (BitVec.ofInt 32 distance).signExtend 64 =
      BitVec.ofNat 64 (origin + distance).toNat := by
  rw [BitVec.signExtend, Scene.toInt_ofInt low high, ← BitVec.ofInt_natCast, ← BitVec.ofInt_natCast,
    ← BitVec.ofInt_add, Int.toNat_of_nonneg natural]

namespace Scene

open Generate

variable {scene : Scene} {shown : Shown} {base : Register} {origin : Nat} {slots : List Slot}

/-- A register that holds the address of a value, or of a frame. -/
def Points (base : Register) : Prop := base = .b ∨ base = .basePointer

/-- A register that points is one that code sees. -/
theorem Points.isShown (points : Points base) : base.isShown := by
  rcases points with rfl | rfl <;> rfl

/-- A pointing register depends on the address and the frame only. -/
theorem Points.get_eq (points : Points base) {other : Shown} (b : other.b = shown.b)
    (same : other.base = shown.base) : other.get base = shown.get base := by
  rcases points with rfl | rfl
  · exact b
  · exact congrArg (BitVec.ofNat 64) same

/-- Immediates hold the offsets of some places, and the places at an address are there. -/
def Within (scene : Scene) (floor origin : Nat) (slots : List Slot) : Prop :=
  ∀ slot ∈ slots, -2 ^ 31 ≤ slot.offset ∧ slot.offset < 2 ^ 31 ∧
    scene.site.Holds floor (slot.shift origin)

/-- Code sees the slots of a range through the register that points to it. -/
theorem Within.sees {floor : Nat} (within : scene.Within floor origin slots) {slot : Slot}
    (mem : slot ∈ slots) (level : shown.floor = floor)
    (start : shown.get base = BitVec.ofNat 64 origin) :
    ∃ size, AccessSize.ofCode? slot.size.toUInt8 = some size ∧
      shown.get base + (BitVec.ofInt 32 slot.offset).signExtend 64 =
        BitVec.ofNat 64 (slot.shift origin).offset.toNat ∧
      Site.Plain.Sees scene.site shown (slot.shift origin).offset.toNat size.bytes := by
  obtain ⟨low, high, ⟨size, width, count⟩, above, inside⟩ := within slot mem
  have natural : 0 ≤ (origin : Int) + slot.offset := by
    have place : (slot.shift origin).offset = slot.offset + origin := rfl
    omega
  refine ⟨size, width, ?_, ?_⟩
  · rw [start, address_add low high natural]
    congr 2
    exact Int.add_comm _ _
  · have bytes : (slot.shift origin).size = slot.size := rfl
    refine ⟨by omega, ?_⟩
    rcases inside with stack | ⟨least, most⟩
    · left
      omega
    · right
      omega

/-- Pushing slots puts their words on the operand stack. -/
theorem leads_pushSlots (origin : Nat) (points : Points base)
    (start : shown.get base = BitVec.ofNat 64 origin)
    (within : scene.Within shown.floor origin slots) :
    scene.Leads (· = shown) (pushSlots base slots) fun _ final => ∃ a, final = { shown with
      a, stack := (shown.bytes.read (slots.map (Slot.shift origin))).reverse ++ shown.stack } := by
  induction slots generalizing shown with
  | nil => exact .pure fun _ here => ⟨shown.a, here⟩
  | cons slot slots ih =>
    obtain ⟨size, width, place, sees⟩ := within.sees List.mem_cons_self rfl start
    refine .bind (leads_loadAt _ rfl points.isShown width place sees) fun _ => ?_
    refine .bind (leads_push rfl) fun _ => ?_
    have word : shown.bytes.word (slot.shift origin).offset.toNat size =
        shown.bytes.scalar (slot.shift origin) := by
      rw [Bytes.scalar, show (slot.shift origin).size = slot.size from rfl, width]
    have rest := fun other mem => within other (List.mem_cons_of_mem slot mem)
    refine .weaken (ih ?_ rest) ?_
    · refine Eq.trans ?_ start
      exact points.get_eq rfl rfl
    · rintro _ _ ⟨a, rfl⟩
      refine ⟨a, ?_⟩
      simp only [Shown.set, Shown.get, word, Bytes.read, List.map_cons, List.reverse_cons,
        List.append_assoc, List.singleton_append]

/-- Popping to some places and then to others. -/
theorem leads_popSlots_append {more : List Slot} {before : Shown → Prop}
    {middle after : Unit → Shown → Prop} (first : scene.Leads before (popSlots base slots) middle)
    (second : scene.Leads (middle ()) (popSlots base more) after) :
    scene.Leads before (popSlots base (slots ++ more)) after := by
  have split : ∀ {slots : List Slot} {ctx gen result},
      popSlots base (slots ++ more) ctx gen = .done result →
      (do popSlots base slots; popSlots base more) ctx gen = .done result := by
    intro slots
    induction slots with
    | nil => exact fun done => bind_done.mpr ⟨(), _, rfl, done⟩
    | cons slot slots ih =>
      intro ctx gen result done
      obtain ⟨_, _, popped, rest⟩ := bind_done.mp done
      obtain ⟨_, _, stored, rest⟩ := bind_done.mp rest
      obtain ⟨value, between, one, two⟩ := bind_done.mp (ih rest)
      exact bind_done.mpr ⟨value, between,
        bind_done.mpr ⟨_, _, popped, bind_done.mpr ⟨_, _, stored, one⟩⟩, two⟩
  exact ⟨emits_popSlots base _, fun _ _ _ done => (first.bind fun _ => second).comes (split done)⟩

/-- The words on the operand stack are stored in some places. -/
theorem leads_popSlots (origin : Nat) (points : Points base)
    (start : shown.get base = BitVec.ofNat 64 origin)
    (within : scene.Within shown.floor origin slots) {words rest : List Word}
    (count : words.length = slots.length) (stack : shown.stack = words.reverse ++ rest) :
    scene.Leads (· = shown) (popSlots base slots.reverse) fun _ final => ∃ a, final = { shown with
      a, stack := rest, bytes := shown.bytes.keep (slots.map (Slot.shift origin)) words } := by
  induction slots generalizing words rest with
  | nil =>
    obtain rfl := List.length_eq_zero_iff.mp count
    refine .pure fun _ here => ⟨shown.a, ?_⟩
    rw [here, show rest = shown.stack from stack.symm]
    rfl
  | cons slot slots ih =>
    cases words with
    | nil => simp at count
    | cons word words =>
      have others := fun other mem => within other (List.mem_cons_of_mem slot mem)
      rw [List.reverse_cons, List.append_assoc, List.singleton_append] at stack
      rw [List.reverse_cons]
      refine leads_popSlots_append (ih others (by simpa using count) stack) ?_
      refine .of_eq ?_ (emits_popSlots _ _)
      rintro _ ⟨a, rfl⟩
      refine .bind (leads_pop rfl rfl) fun _ => ?_
      obtain ⟨size, width, place, sees⟩ := within.sees List.mem_cons_self rfl start
      refine .bind (leads_storeAt _ rfl points.isShown width (Eq.trans ?_ place) sees) fun _ => ?_
      · congr 1
        exact points.get_eq rfl rfl
      refine .pure fun _ here => ⟨word, here.trans ?_⟩
      simp only [Shown.set, Shown.get, List.map_cons, Bytes.keep, Bytes.put]
      rw [show (slot.shift origin).size = slot.size from rfl, width]

variable {type : ValueType} {offset : Int} {addr : Nat}

/-- Pushing a value puts its words on the operand stack. -/
theorem leads_pushFrom (origin : Nat) (points : Points base)
    (start : shown.get base = BitVec.ofNat 64 origin)
    (within : scene.Within shown.floor origin
      ((scene.context.environment.structs.shapeOf type).slots offset)) :
    scene.Leads (· = shown) (pushFrom base offset (some type)) fun _ final =>
      ∃ a, final = { shown with
        a, stack := (shown.bytes.read ((scene.context.environment.structs.shapeOf type).slots
          (offset + origin))).reverse ++ shown.stack } := by
  refine .bind leads_environment fun env => ?_
  refine .of_eq ?_ (emits_pushSlots _ _)
  rintro _ ⟨rfl, rfl⟩
  rw [Shape.slots_add]
  exact leads_pushSlots origin points start within

/-- Popping a value stores its words, each cut to the size of its scalar. -/
theorem leads_popTo (origin : Nat) (points : Points base)
    (start : shown.get base = BitVec.ofNat 64 origin)
    (within : scene.Within shown.floor origin
      ((scene.context.environment.structs.shapeOf type).slots offset)) {words rest : List Word}
    (count : words.length =
      ((scene.context.environment.structs.shapeOf type).slots offset).length)
    (stack : shown.stack = words.reverse ++ rest) :
    scene.Leads (· = shown) (popTo base offset (some type)) fun _ final =>
      ∃ a, final = { shown with
        a, stack := rest, bytes := shown.bytes.keep
          ((scene.context.environment.structs.shapeOf type).slots (offset + origin)) words } := by
  refine .bind leads_environment fun env => ?_
  refine .of_eq ?_ (emits_popSlots _ _)
  rintro _ ⟨rfl, rfl⟩
  rw [Shape.slots_add]
  exact leads_popSlots origin points start within count stack

end Scene

end TinLang
