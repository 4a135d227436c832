import TinLang.Code.Instruction
import TinLang.Machine.Heap

/-!
# Guest memory

The memory of a program has three kinds of regions: the stack, a copy of the data segment and the
live blocks of the heap. A range is addressable when it lies in one region. The contents are kept
by address, a byte never written being zero; an address belongs to at most one region in the life
of a memory, so the regions need no contents of their own.
-/
namespace TinLang

/-- A machine word: a register or an address. -/
abbrev Word := BitVec 64

/-- The bytes of a program and which of them it may use. -/
structure Memory where
  /-- The size of the stack. -/
  stackSize : Nat
  /-- The size of the data segment. -/
  dataSize : Nat
  /-- The blocks of the heap. -/
  heap : Heap
  /-- The bytes that were written, by address. -/
  contents : Std.HashMap Nat UInt8

namespace Memory

/-- The address of the lowest byte of the stack. -/
def stackBase : Nat := 0x10000

/-- The address of the first byte of the data segment. -/
def dataBase : Nat := 0x40000000

/-- The stack size when none is configured. -/
def defaultStackSize : Nat := 64 * 1024

/-- The largest stack, which ends below the data segment. -/
def maxStackSize : Nat := dataBase - stackBase

/-- The address after the highest byte of the stack. -/
def stackTop (memory : Memory) : Nat := stackBase + memory.stackSize

/-- The byte at an address. -/
def byteAt (memory : Memory) (address : Nat) : UInt8 := memory.contents.getD address 0

/-- The memory with another byte at an address. -/
def setByte (memory : Memory) (address : Nat) (byte : UInt8) : Memory :=
  { memory with contents := memory.contents.insert address byte }

/-- A byte that was set is there. -/
@[simp] theorem byteAt_setByte_same (memory : Memory) (address : Nat) (byte : UInt8) :
    (memory.setByte address byte).byteAt address = byte := by
  simp [byteAt, setByte]

/-- Setting a byte leaves every other byte as it was. -/
theorem byteAt_setByte_of_ne (memory : Memory) {address other : Nat} (byte : UInt8)
    (differ : address ≠ other) :
    (memory.setByte address byte).byteAt other = memory.byteAt other := by
  simp [byteAt, setByte, Std.HashMap.getD_insert, differ]

/-- The bytes of a range. -/
def bytesAt (memory : Memory) (address : Nat) : (count : Nat) → Text
  | 0 => []
  | count + 1 => memory.byteAt address :: bytesAt memory (address + 1) count

/-- The memory with other bytes from an address on. -/
def setBytes (memory : Memory) (address : Nat) : Text → Memory
  | [] => memory
  | byte :: bytes => setBytes (memory.setByte address byte) (address + 1) bytes

/-- The memory at the start of a run. -/
def initial (stackSize : Nat) (data : Array UInt8) (heap : Heap) : Memory :=
  setBytes ⟨stackSize, data.size, heap, {}⟩ dataBase data.toList

/-- A range lies in one region. -/
def addressable (memory : Memory) (address : Nat) (count : Int) : Bool :=
  decide (0 ≤ count) &&
    (Heap.within stackBase memory.stackSize address count.toNat ||
      Heap.within dataBase memory.dataSize address count.toNat ||
      memory.heap.holds address count)

/-- The bytes of a range, if it is addressable. -/
def read? (memory : Memory) (address : Nat) (count : Int) : Option Text :=
  if memory.addressable address count then some (memory.bytesAt address count.toNat) else none

/-- The memory with other bytes in a range, if it is addressable. -/
def write? (memory : Memory) (address : Nat) (bytes : Text) : Option Memory :=
  if memory.addressable address bytes.length then some (memory.setBytes address bytes) else none

/-- The number that bytes write, least significant first. -/
def numberOf : Text → Nat
  | [] => 0
  | byte :: bytes => byte.toNat + 256 * numberOf bytes

/-- The lowest bytes of a number, least significant first. -/
def bytesOf : (count number : Nat) → Text
  | 0, _ => []
  | count + 1, number => (number % 256).toUInt8 :: bytesOf count (number / 256)

/-- A word cut to the size of an access and extended again by its sign. -/
def narrow (size : AccessSize) (number : Nat) : Word :=
  (BitVec.ofNat (8 * size.bytes) number).signExtend 64

/-- The word of some size at an address, extended by its sign, if it is addressable. -/
def load? (memory : Memory) (address : Nat) (size : AccessSize) : Option Word :=
  (memory.read? address size.bytes).map fun bytes => narrow size (numberOf bytes)

/-- The memory with the low bytes of a word at an address, if they are addressable. -/
def store? (memory : Memory) (address : Nat) (size : AccessSize) (value : Word) : Option Memory :=
  memory.write? address (bytesOf size.bytes value.toNat)

/-- The memory with zeros in a range, if it is addressable. -/
def clear? (memory : Memory) (address : Nat) (count : Int) : Option Memory :=
  if memory.addressable address count then
    some (memory.setBytes address (List.replicate count.toNat 0))
  else none

/-- The string that starts at an address and is followed by a zero, of at most `bound` bytes;
else the address of the byte that is not addressable. -/
def stringWithin (memory : Memory) : (bound : Nat) → (address : Nat) → Except Nat Text
  | 0, address => .error address
  | bound + 1, address =>
    if memory.addressable address 1 then
      let byte := memory.byteAt address
      if byte = 0 then .ok []
      else (stringWithin memory bound ((address + 1) % 0x10000000000000000)).map (byte :: ·)
    else .error address

/-- The most bytes that can be read one after another: those of all regions. -/
def extent (memory : Memory) : Nat :=
  memory.stackSize + memory.dataSize + (memory.heap.blocks.map HeapBlock.size).foldr (· + ·) 0 + 1

/-- The string that starts at an address and is followed by a zero. -/
def string (memory : Memory) (address : Nat) : Except Nat Text :=
  memory.stringWithin memory.extent address

end Memory

end TinLang
