import TinLang.Text

/-!
# Natives and argument blocks

Natives are the functions that the machine provides to programs. Each has a negative number that
call immediates hold, a name and a signature of type names. Arguments stand in a block: each at
the natural alignment of its size, the block rounded up to words, the return slot right above it.
-/
namespace TinLang

/-- The value of a number kept in 64 bits as a signed word. -/
def wrapSigned (number : Int) : Int := number.bmod 0x10000000000000000

/-- The bits of a number kept in 64 bits. -/
def wrapUnsigned (number : Int) : Nat := (number % 0x10000000000000000).toNat

/-- A small number is kept as it is. -/
theorem wrapSigned_eq {number : Int} (low : -0x8000000000000000 ≤ number)
    (high : number < 0x8000000000000000) :
    wrapSigned number = number :=
  Int.bmod_eq_of_le (by simpa using low) (by simpa using high)

/-- A small number has its own bits. -/
theorem wrapUnsigned_eq {number : Nat} (small : number < 0x10000000000000000) :
    wrapUnsigned number = number := by
  unfold wrapUnsigned
  omega

/-- A small sum has its own bits. -/
theorem wrapUnsigned_add {first second : Nat} (small : first + second < 0x10000000000000000) :
    wrapUnsigned (first + second) = first + second :=
  @wrapUnsigned_eq (first + second) small

/-- A size kept in 64 bits rounded up to a multiple. The quotient is cut towards zero. -/
def alignUp (number multiple : Nat) : Nat :=
  wrapUnsigned ((wrapSigned (number + multiple - 1)).tdiv multiple * multiple)

variable {number multiple : Nat}

/-- Nothing wraps around when a small number is rounded up. -/
theorem alignUp_eq (positive : 0 < multiple) (small : number + multiple ≤ 0x8000000000000000) :
    alignUp number multiple = (number + multiple - 1) / multiple * multiple := by
  have raised : wrapSigned (number + multiple - 1) = (number + multiple - 1 : Nat) := by
    rw [wrapSigned_eq] <;> omega
  have below := Nat.div_mul_le_self (number + multiple - 1) multiple
  rw [alignUp, raised, Int.tdiv_eq_ediv_of_nonneg (Int.natCast_nonneg _)]
  exact @wrapUnsigned_eq ((number + multiple - 1) / multiple * multiple) (by omega)

/-- Rounding up reaches a small number. -/
theorem le_alignUp (positive : 0 < multiple) (small : number + multiple ≤ 0x8000000000000000) :
    number ≤ alignUp number multiple := by
  have whole := Nat.div_add_mod (number + multiple - 1) multiple
  have part := Nat.mod_lt (number + multiple - 1) positive
  rw [alignUp_eq positive small, Nat.mul_comm]
  omega

/-- Rounding a small number up adds less than the multiple. -/
theorem alignUp_lt (positive : 0 < multiple) (small : number + multiple ≤ 0x8000000000000000) :
    alignUp number multiple < number + multiple := by
  have below := Nat.div_mul_le_self (number + multiple - 1) multiple
  rw [alignUp_eq positive small]
  omega

/-- Rounding up to an alignment gives a multiple of it. -/
theorem dvd_alignUp (number : Nat) {multiple : Nat} (even : multiple ∣ 8) :
    multiple ∣ alignUp number multiple := by
  have wraps : (multiple : Int) ∣ 0x10000000000000000 :=
    Int.dvd_trans (Int.natCast_dvd_natCast.mpr even) (by decide)
  refine Int.natCast_dvd_natCast.mp (Int.dvd_of_emod_eq_zero ?_)
  rw [alignUp, wrapUnsigned, Int.toNat_of_nonneg (by omega), Int.emod_emod_of_dvd _ wraps,
    Int.mul_emod_left]

/-- Rounding a small number up gives the least multiple that reaches it. -/
theorem alignUp_le {bound : Nat} (positive : 0 < multiple)
    (small : number + multiple ≤ 0x8000000000000000)
    (reaches : number ≤ bound) (aligned : multiple ∣ bound) : alignUp number multiple ≤ bound := by
  obtain ⟨count, rfl⟩ := aligned
  have below : number + multiple - 1 < (count + 1) * multiple := by
    rw [Nat.add_mul, Nat.mul_comm count]
    omega
  rw [alignUp_eq positive small, Nat.mul_comm]
  exact Nat.mul_le_mul_left multiple
    (Nat.le_of_lt_succ ((Nat.div_lt_iff_lt_mul positive).2 below))

/-- The natural alignment of a value of some size: the largest power of two up to eight that the
size reaches. -/
def naturalAlignment (size : Int) : Nat :=
  if 8 ≤ size then 8 else if 4 ≤ size then 4 else if 2 ≤ size then 2 else 1

/-- Where the arguments of a call stand. -/
structure ArgumentLayout where
  /-- The offset of each argument. -/
  offsets : List Nat
  /-- The size of the block. -/
  block : Nat
  deriving DecidableEq, Repr

/-- The offsets of arguments of the given sizes from an offset on, and the end of the last. -/
def argumentOffsets : (offset : Nat) → List Nat → List Nat × Nat
  | offset, [] => ([], offset)
  | offset, size :: sizes =>
    let start := alignUp offset (naturalAlignment (wrapSigned size))
    let (offsets, stop) := argumentOffsets (wrapUnsigned (start + size)) sizes
    (start :: offsets, stop)

/-- The layout of arguments of the given sizes. -/
def ArgumentLayout.ofSizes (sizes : List Nat) : ArgumentLayout :=
  let (offsets, stop) := argumentOffsets 0 sizes
  ⟨offsets, alignUp stop 8⟩

/-- A function that the machine provides. -/
inductive Native where
  | printInt | printFloat | printChar | printString
  | allocate | release | copy | power | squareRoot | readFile | writeFile
  deriving DecidableEq, Repr

namespace Native

/-- Every native in the order of the numbers, from minus one down. -/
def all : List Native :=
  [.printInt, .printFloat, .printChar, .printString, .allocate, .release, .copy, .power,
    .squareRoot, .readFile, .writeFile]

/-- The number of a native in call immediates. -/
def id : Native → Int
  | .printInt => -1
  | .printFloat => -2
  | .printChar => -3
  | .printString => -4
  | .allocate => -5
  | .release => -6
  | .copy => -7
  | .power => -8
  | .squareRoot => -9
  | .readFile => -10
  | .writeFile => -11

/-- The name of a native in programs. -/
def name : Native → Text
  | .printInt => "printi"
  | .printFloat => "printf"
  | .printChar => "printc"
  | .printString => "prints"
  | .allocate => "malloc"
  | .release => "mfree"
  | .copy => "memcpy"
  | .power => "pow"
  | .squareRoot => "sqrt"
  | .readFile => "read_file"
  | .writeFile => "write_file"

/-- The names of the parameter types. -/
def params : Native → List Text
  | .printInt => ["int"]
  | .printFloat => ["float"]
  | .printChar => ["char"]
  | .printString => ["char*"]
  | .allocate => ["int"]
  | .release => ["void*"]
  | .copy => ["void*", "void*", "int"]
  | .power => ["float", "float"]
  | .squareRoot => ["float"]
  | .readFile => ["char*", "char**", "int*"]
  | .writeFile => ["char*", "char*", "int"]

/-- The name of the result type. -/
def result : Native → Text
  | .printInt | .printFloat | .printChar | .printString | .release | .copy => "void"
  | .allocate => "void*"
  | .power | .squareRoot => "float"
  | .readFile | .writeFile => "bool"

/-- The native with a number. -/
def ofId? (id : Int) : Option Native := all.find? fun native => native.id == id

/-- The native with a name. -/
def ofName? (name : Text) : Option Native := all.find? fun native => native.name == name

/-- How a listing shows the native with a number. -/
def describeId (id : Int) : Text :=
  match ofId? id with
  | some native => native.name
  | none => "native(" ++ Text.ofInt id ++ ")"

/-- The size of a value of a primitive or pointer type name; zero for every other name. -/
def typeSize (name : Text) : Nat :=
  if name.getLast? = some (Text.byte '*') then 8
  else if name = "int" ∨ name = "float" then 4
  else if name = "char" ∨ name = "bool" then 1
  else 0

/-- The layout of the arguments of a native. -/
def layout (native : Native) : ArgumentLayout := .ofSizes (native.params.map typeSize)

/-- The size of the return slot. -/
def returnSlot (native : Native) : Nat := alignUp (typeSize native.result) 8

/-- A native is found by its number. -/
@[simp] theorem ofId?_id (native : Native) : ofId? native.id = some native := by
  cases native <;> decide

/-- A native is found by its name. -/
@[simp] theorem ofName?_name (native : Native) : ofName? native.name = some native := by
  cases native <;> decide

end Native

end TinLang
