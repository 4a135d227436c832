import TinLang.Machine.Basic
import TinLang.Single.Show

/-!
# Native calls

What each native does. Its arguments stand in the block that the stack pointer points to, and its
result goes to the word right above the block. A native that cannot do its work counts a soft
error and returns zero; only a bad address is a fault.
-/
namespace TinLang.Machine

/-- The access size of values of a type name; void has none. -/
def typeAccess? (name : Text) : Option AccessSize := AccessSize.ofCode?
    (Native.typeSize name).toUInt8

/-- The value of an argument. -/
def argument (native : Native) (index : Nat) : Exec Word := do
  let pointer ← get slotSP
  match native.layout.offsets[index]?, (native.params[index]?).bind typeAccess? with
  | some offset, some size => load (pointer + BitVec.ofNat 64 offset) size
  | _, _ => return 0

/-- Write the result, cut to its type and extended to a word. -/
def giveResult (native : Native) (value : Word) : Exec Unit := do
  match typeAccess? native.result with
  | none => return ()
  | some size =>
    let pointer ← get slotSP
    let word := Memory.narrow size value.toNat
    store (pointer + BitVec.ofNat 64 native.layout.block) .eight word

/-- Count a soft error and return zero. -/
def giveUp (native : Native) : Exec Unit := do
  countSoftError
  giveResult native 0

/-- A 32-bit argument as a signed number. -/
def signedHalf (word : Word) : Int := (word.setWidth 32).toInt

/-- Reserve a block and keep the table; none when the heap refuses. -/
def reserve (size : Int) : Exec (Option Nat) := do
  let machine ← getThe Machine
  let (heap, outcome) := machine.memory.heap.allocate size
  set { machine with memory := { machine.memory with heap } }
  match outcome with
  | .ok address => return some address
  | .error _ => return none

/-- Free the block at an address. -/
def release (address : Word) : Exec Unit := do
  let machine ← getThe Machine
  match machine.memory.heap.free address.toNat with
  | .ok heap => set { machine with memory := { machine.memory with heap } }
  | .error _ => countSoftError

/-- Read a file into a new block and store its address and size where asked. -/
def readFile (settings : Settings) (native : Native) : Exec Unit := do
  let path ← argument native 0
  let dataPlace ← argument native 1
  let sizePlace ← argument native 2
  let path ← loadString path
  if settings.noFiles then giveUp native else
    match (← getThe Machine).files.read path with
    | .error _ => giveUp native
    | .ok content =>
      if 0x80000000 ≤ content.length then giveUp native else
        let block ← if content.isEmpty then pure (some 0) else reserve content.length
        match block with
        | none => giveUp native
        | some address =>
          unless content.isEmpty do writeBytes (BitVec.ofNat 64 address) content
          unless dataPlace = 0 do store dataPlace .eight (BitVec.ofNat 64 address)
          unless sizePlace = 0 do store sizePlace .four (BitVec.ofNat 64 content.length)
          giveResult native 1

/-- Write a range of memory to a file. -/
def writeFile (settings : Settings) (native : Native) : Exec Unit := do
  let path ← argument native 0
  let data ← argument native 1
  let count ← argument native 2
  let path ← loadString path
  let count := signedHalf count
  if settings.noFiles ∨ count < 0 then giveUp native else
    let content ← if count = 0 then pure [] else readBytes data count
    let machine ← getThe Machine
    match machine.files.write path content with
    | .error _ => giveUp native
    | .ok files =>
      set { machine with files }
      giveResult native 1

/-- Perform a native call. -/
def callNative (settings : Settings) (native : Native) : Exec Unit :=
  match native with
  | .printInt => do print (Text.ofInt (signedHalf (← argument native 0)))
  | .printFloat => do print (Single.fixed 6 ((← argument native 0).setWidth 32))
  | .printChar => do print [((← argument native 0).toNat % 256).toUInt8]
  | .printString => do print (← loadString (← argument native 0))
  | .allocate => do
    match ← reserve (signedHalf (← argument native 0)) with
    | some address => giveResult native (BitVec.ofNat 64 address)
    | none => giveUp native
  | .release => do release (← argument native 0)
  | .copy => do
    let target ← argument native 0
    let source ← argument native 1
    let count := signedHalf (← argument native 2)
    let bytes ← readBytes source count
    writeBytes target bytes
  | .power => do
    let base := Arithmetic.toSingle (← argument native 0)
    let exponent := Arithmetic.toSingle (← argument native 1)
    giveResult native (Arithmetic.ofSingle (Arithmetic.power base exponent))
  | .squareRoot => do
    let number := Arithmetic.toSingle (← argument native 0)
    giveResult native (Arithmetic.ofSingle (Arithmetic.squareRoot number))
  | .readFile => readFile settings native
  | .writeFile => writeFile settings native

end TinLang.Machine
