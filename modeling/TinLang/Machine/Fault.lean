import TinLang.Program.Piece

/-!
# Faults

A fault ends a run. Its cause says what the machine refused; the kind and the detail of a cause
are what a program's author sees, together with the place of the instruction.
-/
namespace TinLang

/-- The class of a fault. -/
inductive FaultKind where
  | counterOutOfRange
  | stackOverflow
  | stackUnderflow
  | frameMismatch
  | accessViolation
  | divideByZero
  | badCallTarget
  | badInstruction
  deriving DecidableEq, Repr

namespace FaultKind

/-- Every class in the order of the numbers, from one on. -/
def all : List FaultKind :=
  [.counterOutOfRange, .stackOverflow, .stackUnderflow, .frameMismatch, .accessViolation,
    .divideByZero, .badCallTarget, .badInstruction]

/-- The name of a class. -/
def name : FaultKind → Text
  | .counterOutOfRange => "PC out of bounds"
  | .stackOverflow => "Stack overflow"
  | .stackUnderflow => "Stack underflow"
  | .frameMismatch => "Stack pointer and base pointer mismatch on ret instruction"
  | .accessViolation => "Access violation"
  | .divideByZero => "Division by zero"
  | .badCallTarget => "Invalid call target"
  | .badInstruction => "Invalid instruction"

/-- How the class with a number is shown. -/
def describeCode (code : UInt8) : Text :=
  match all[code.toNat - 1]? with
  | some kind => if code = 0 then "fault(0)" else kind.name
  | none => "fault(" ++ Text.ofNat code.toNat ++ ")"

end FaultKind

/-- What the machine refused. -/
inductive FaultCause where
  /-- No instruction stands at the counter. -/
  | noInstruction (counter : Int) (length : Nat)
  | missingImmediate (op : Opcode)
  | undefinedRegister (instruction : Instruction)
  | undefinedOpcode (op : Opcode)
  | undefinedConversion (modifier : UInt8)
  | undefinedControl (modifier : UInt8)
  | undefinedSize (modifier : UInt8)
  | access (address : Nat) (size : Int)
  | division
  | callOverflow (callee : Text)
  | pushOverflow
  | popUnderflow
  | returnUnderflow
  /-- The stack pointer was moved below the stack. -/
  | pointerBelow (pointer : Int)
  /-- The stack pointer was moved above the stack. -/
  | pointerAbove (pointer : Int)
  | unequalPointers (stackPointer basePointer : Int)
  | noPiece (immediate : Int)
  | noNative (id : Int)
  | returnOutside (piece : Int)
  deriving DecidableEq, Repr

namespace FaultCause

/-- The class of a cause. -/
def kind : FaultCause → FaultKind
  | .noInstruction .. | .missingImmediate _ => .counterOutOfRange
  | .undefinedRegister _ | .undefinedOpcode _ | .undefinedConversion _ | .undefinedControl _
  | .undefinedSize _ => .badInstruction
  | .access .. => .accessViolation
  | .division => .divideByZero
  | .callOverflow _ | .pushOverflow | .pointerBelow _ => .stackOverflow
  | .popUnderflow | .returnUnderflow | .pointerAbove _ => .stackUnderflow
  | .unequalPointers .. => .frameMismatch
  | .noPiece _ | .noNative _ | .returnOutside _ => .badCallTarget

/-- What is said about a cause beyond its class. -/
def detail : FaultCause → Text
  | .noInstruction counter length =>
    "pc " ++ Text.ofInt counter ++ ", piece length " ++ Text.ofNat length
  | .missingImmediate op => op.name ++ " is missing its immediate"
  | .undefinedRegister instruction => instruction.describe
  | .undefinedOpcode op => op.name
  | .undefinedConversion modifier => "cast kind " ++ Text.ofNat modifier.toNat
  | .undefinedControl modifier => "control flag " ++ Text.ofNat modifier.toNat
  | .undefinedSize modifier => "access size " ++ Text.ofNat modifier.toNat
  | .access .. | .division => []
  | .callOverflow callee => "call to " ++ callee
  | .pushOverflow => "push"
  | .popUnderflow => "pop"
  | .returnUnderflow => "ret"
  | .pointerBelow pointer | .pointerAbove pointer => "sp=0x" ++ Text.hexInt pointer
  | .unequalPointers stackPointer basePointer =>
    "sp=0x" ++ Text.hexInt stackPointer ++ " bp=0x" ++ Text.hexInt basePointer
  | .noPiece immediate => "immediate " ++ Text.ofInt immediate
  | .noNative id => "native " ++ Text.ofInt id
  | .returnOutside piece => "return into piece " ++ Text.ofInt piece

/-- The address of a refused access, zero for other causes. -/
def address : FaultCause → Nat
  | .access address _ => address
  | _ => 0

/-- The size of a refused access, zero for other causes. -/
def size : FaultCause → Int
  | .access _ size => size
  | _ => 0

end FaultCause

/-- A fault at its place. -/
structure Fault where
  /-- What was refused. -/
  cause : FaultCause
  /-- The name of the piece. -/
  piece : Text
  /-- The cell of the instruction. -/
  counter : Int
  /-- The source line of the instruction, if it is known. -/
  line : Option SourceLine
  deriving DecidableEq, Repr

namespace Fault

/-- The class of a fault. -/
def kind (fault : Fault) : FaultKind := fault.cause.kind

/-- The message of a fault. -/
def message (fault : Fault) : Text :=
  let access : Text := match fault.cause with
    | .access address size =>
      " at 0x" ++ Text.hex address ++ " (" ++ Text.ofInt size ++ " bytes)"
    | _ => []
  let detail : Text := if fault.cause.detail.isEmpty then [] else ": " ++ fault.cause.detail
  let line : Text := match fault.line with
    | some line =>
      if 0 < line.number then " (line " ++ Text.ofInt line.number ++ ": " ++ line.text ++ ")" else
        []
    | none => []
  "VM: " ++ fault.kind.name ++ access ++ detail ++ " in " ++ fault.piece ++ " at " ++
    Text.ofInt fault.counter ++ line

end Fault

end TinLang
