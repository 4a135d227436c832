import Std.Data.HashMap
import Std.Data.HashSet
import TinLang.Native

/-!
# The heap

The heap hands out blocks at ascending addresses and never uses an address twice. Consecutive
blocks are at least sixteen bytes apart, so no access spans two of them. The total size of the
live blocks is limited; sizes and the total are 64-bit signed numbers. The live blocks are kept
twice, by address and in the order of their addresses, so that the block around an address is
found by bisection.
-/
namespace TinLang

/-- A live block. -/
structure HeapBlock where
  /-- The address of its first byte. -/
  address : Nat
  /-- Its size in bytes. -/
  size : Nat
  deriving DecidableEq, Repr, Inhabited

/-- Why a heap operation is refused. -/
inductive HeapError where
  | invalidSize (size : Int)
  | outOfMemory (size live : Int)
  | doubleFree (address : Nat)
  | unknownPointer (address : Nat)
  deriving DecidableEq, Repr

/-- The message of a heap error. -/
def HeapError.message : HeapError → Text
  | .invalidSize size => "invalid allocation size " ++ Text.ofInt size
  | .outOfMemory size live =>
    "out of guest memory: " ++ Text.ofInt size ++ " bytes requested, " ++ Text.ofInt live ++ " live"
  | .doubleFree address => "double free at 0x" ++ Text.hex address
  | .unknownPointer address => "free of unknown pointer 0x" ++ Text.hex address

/-- The allocation table of one machine. -/
structure Heap where
  /-- The most bytes that may be live; zero stands for the default. -/
  limit : Int := 0
  /-- The sizes of the live blocks by their addresses. -/
  sizes : Std.HashMap Nat Nat := {}
  /-- The addresses of the live blocks, ascending. -/
  order : Array Nat := #[]
  /-- The addresses of the blocks freed so far. -/
  freed : Std.HashSet Nat := {}
  /-- The address of the next block. -/
  next : Nat := 0x100000000
  /-- The total size of the live blocks. -/
  total : Int := 0
  deriving Repr, Inhabited

namespace Heap

/-- The address of the first block. -/
def base : Nat := 0x100000000

/-- The space between consecutive blocks, and their alignment. -/
def guard : Int := 16

/-- The limit when none is set. -/
def defaultLimit : Int := 256 * 1024 * 1024

/-- The limit that applies. -/
def effectiveLimit (heap : Heap) : Int := if heap.limit = 0 then defaultLimit else heap.limit

/-- The distance from a block of some size to the next. -/
def stride (size : Int) : Int :=
  wrapSigned ((wrapSigned (size + guard - 1)).tdiv guard * guard + guard)

/-- The heap with a block of some size at the next address. -/
def placed (heap : Heap) (size : Int) : Heap :=
  { heap with
    sizes := heap.sizes.insert heap.next size.toNat
    order := heap.order.push heap.next
    next := ((heap.next + stride size) % 0x10000000000000000).toNat
    total := heap.total + size }

/-- The heap with one more block and the address of the block, or why the limit refuses it. -/
def allocate (heap : Heap) (size : Int) : Heap × Except HeapError Nat :=
  if size ≤ 0 then (heap, .error (.invalidSize size))
  else if heap.effectiveLimit < wrapSigned (heap.total + size) then
    (heap, .error (.outOfMemory size heap.total))
  else (heap.placed size, .ok heap.next)

/-- What a request comes to on a host that provides blocks of up to some size: nothing when the
limit admits a block that the host cannot provide, which ends the whole program. -/
def request (host : Int) (heap : Heap) (size : Int) : Option (Heap × Except HeapError Nat) :=
  match heap.allocate size with
  | (after, .ok address) => if host < size then none else some (after, .ok address)
  | (after, .error error) => some (after, .error error)

/-- The first of the indices from `low` to `high` whose item passes a test, by bisection; the
items that pass have to follow those that do not. -/
def bisect (items : Array Nat) (test : Nat → Bool) (low high : Nat) (inside : high ≤ items.size) :
    Nat :=
  if apart : low < high then
    let middle := (low + high) / 2
    if test items[middle] then bisect items test low middle (by omega)
    else bisect items test (middle + 1) high inside
  else low
  termination_by high - low

/-- How many live blocks stand before the first whose address passes a test. -/
def position (heap : Heap) (test : Nat → Bool) : Nat :=
  bisect heap.order test 0 heap.order.size (Nat.le_refl _)

/-- The live block at an address. -/
def at? (heap : Heap) (address : Nat) : Option HeapBlock :=
  (heap.sizes[address]?).map fun size => ⟨address, size⟩

/-- The heap without the block at an address, or why there is none to free. -/
def free (heap : Heap) (address : Nat) : Except HeapError Heap :=
  match heap.at? address with
  | some block =>
    .ok { heap with
      sizes := heap.sizes.erase address
      freed := heap.freed.insert address
      total := heap.total - block.size
      order := heap.order.eraseIdxIfInBounds
        (heap.position fun start => decide (address ≤ start)) }
  | none =>
    if heap.freed.contains address then .error (.doubleFree address)
    else .error (.unknownPointer address)

/-- The live block that could hold an address: the highest one not above it. -/
def block? (heap : Heap) (address : Nat) : Option HeapBlock :=
  match heap.position fun start => decide (address < start) with
  | 0 => none
  | before + 1 => (heap.order[before]?).bind heap.at?

/-- A range lies in a region of some size at some base. -/
def within (base size address count : Nat) : Bool :=
  decide (base ≤ address) && decide (address - base + count ≤ size)

/-- A range lies in one live block. -/
def holds (heap : Heap) (address : Nat) (count : Int) : Bool :=
  decide (0 ≤ count) &&
    match heap.block? address with
    | some block => within block.address block.size address count.toNat
    | none => false

/-- The live blocks in the order of their addresses. -/
def live (heap : Heap) : List HeapBlock := heap.order.toList.filterMap heap.at?

/-- The live blocks, the newest and so highest first. -/
def blocks (heap : Heap) : List HeapBlock := heap.live.reverse

end Heap

end TinLang
