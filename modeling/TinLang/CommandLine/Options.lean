import TinLang.CommandLine.Flag
import TinLang.Machine.Basic
import TinLang.Sample.Basic

/-!
# Options of the commands

Each command has a record of options and the flags that fill it in.
-/
namespace TinLang

/-- Raise a verbosity, or set it. A truth value that holds raises it by one. -/
def Verbosity.enter (text : Text) (verbosity : Int) : Except Text Int :=
  match Argument.truth text, Numeral.signedWithin? 64 text with
  | .ok true, _ => .ok (verbosity + 1)
  | .ok false, _ => .ok verbosity
  | .error _, some level => .ok level
  | .error _, none => .error ("invalid verbosity " ++ text.quoted)

namespace CountRange

/-- The range that a text writes: one count, or two with a dash between them. -/
def ofText? (text : Text) : Option CountRange := do
  let (first, last) := match Text.cut (Text.byte '-') text with
    | some (first, last) => (first, some last)
    | none => (text, none)
  let low ← Numeral.signedWithin? 64 first
  guard (0 ≤ low)
  match last with
  | none => return ⟨low, low⟩
  | some last =>
    let high ← Numeral.signedWithin? 64 last
    guard (low ≤ high)
    return ⟨low, high⟩

/-- The range that a text writes, or a message. -/
def read (text : Text) : Except Text CountRange :=
  match ofText? text with
  | some range => .ok range
  | none => .error ("invalid range " ++ text.quoted)

/-- The text of a range. -/
def text (range : CountRange) : Text :=
  if range.low = range.high then Text.ofInt range.low
  else Text.ofInt range.low ++ "-" ++ Text.ofInt range.high

end CountRange

namespace Flag

variable {Options : Type}

/-- A flag for the verbosity. -/
def verbosity (change : (Int → Except Text Int) → Options → Except Text Options) : Flag Options :=
  { name := "v", usage := "Verbose output (repeat for more)", enter := fun value =>
    change (Verbosity.enter value) }

/-- A switch. -/
def switch (name usage : Text) (set : Bool → Options → Options) : Flag Options :=
  { name, usage, enter := fun value options => match Argument.truth value with
      | .ok found => .ok (set found options)
      | .error fault => .error fault.message }

/-- A flag for an integer. -/
def integer (name usage shownDefault : Text) (set : Int → Options → Options) : Flag Options :=
  { name, usage, shownDefault, valueWord := "int",
    enter := fun value options => match Argument.integer value with
      | .ok found => .ok (set found options)
      | .error fault => .error fault.message }

/-- A flag for a natural number. -/
def natural (name usage : Text) (set : Nat → Options → Options) : Flag Options :=
  { name, usage, valueWord := "uint",
    enter := fun value options => match Argument.natural value with
      | .ok found => .ok (set found options)
      | .error fault => .error fault.message }

/-- A flag for a text. -/
def string (name usage : Text) (set : Text → Options → Options) : Flag Options :=
  { name, usage, valueWord := "string", enter := fun value options => .ok (set value options) }

/-- A flag for a range of counts. -/
def range (name usage : Text) (default : CountRange) (set : CountRange → Options → Options) :
    Flag Options :=
  { name, usage, valueWord := "value", shownDefault := default.text,
    enter := fun value options => (CountRange.read value).map fun found => set found options }

end Flag

/-- The options of a listing. -/
structure ListingOptions where
  /-- How much is told about the work. -/
  verbosity : Int := 0
  deriving DecidableEq, Repr

/-- The flags of a listing. -/
def ListingOptions.flags : FlagSet ListingOptions :=
  ⟨"disasm", [.verbosity fun change options =>
    (change options.verbosity).map fun verbosity => { options with verbosity }]⟩

/-- The options of a build. -/
structure BuildOptions where
  /-- How much is told about the work. -/
  verbosity : Int := 0
  /-- The path of the image; empty for the default. -/
  output : Text := []
  /-- The image has no source lines. -/
  strip : Bool := false
  deriving DecidableEq, Repr

/-- The flags of a build. -/
def BuildOptions.flags : FlagSet BuildOptions :=
  ⟨"build",
    [.verbosity fun change options =>
        (change options.verbosity).map fun verbosity => { options with verbosity },
      .string "o" "Output image path" fun output options => { options with output },
      .switch "strip" "Drop source line tables from the image" fun strip options =>
        { options with strip }]⟩

/-- The options of a run. What is not given is left to the settings of the project. -/
structure RunOptions where
  /-- How much is told about the work. -/
  verbosity : Int := 0
  /-- The run is stepped through. -/
  step : Bool := false
  /-- The run is profiled. -/
  profile : Bool := false
  /-- Every instruction is traced. -/
  trace : Option Bool := none
  /-- The number of instructions after which the run stops. -/
  maxSteps : Option Nat := none
  /-- The size of the stack. -/
  stackSize : Option Int := none
  /-- The most bytes that may be live on the heap. -/
  heapLimit : Option Int := none
  /-- The program may not read or write files. -/
  noFiles : Option Bool := none
  deriving DecidableEq, Repr

namespace RunOptions

/-- The flags of a run. -/
def flags : FlagSet RunOptions :=
  ⟨"run",
    [.verbosity fun change options =>
        (change options.verbosity).map fun verbosity => { options with verbosity },
      .switch "trace" "Trace every executed instruction to stderr" fun trace options =>
        { options with trace },
      .switch "step" "Stop before every instruction and read commands from stdin"
        fun step options =>
        { options with step },
      .switch "profile" "Print an opcode and call profile after the run" fun profile options =>
        { options with profile },
      .natural "max-steps" "Stop after this many instructions (0 = no limit)"
        fun maxSteps options =>
        { options with maxSteps },
      .integer "stack" "Stack size in bytes (0 = default)" [] fun stackSize options =>
        { options with stackSize },
      .integer "heap-limit" "Heap limit in bytes (0 = default)" [] fun heapLimit options =>
        { options with heapLimit },
      .switch "no-files" "Make read_file and write_file fail" fun noFiles options =>
        { options with noFiles }]⟩

/-- The settings with what the options say instead. -/
def settings (options : RunOptions) (base : Settings) : Settings :=
  { stackSize := options.stackSize.getD base.stackSize
    heapLimit := options.heapLimit.getD base.heapLimit
    maxSteps := options.maxSteps.getD base.maxSteps
    trace := options.trace.getD base.trace
    noFiles := options.noFiles.getD base.noFiles }

end RunOptions

/-- The options of writing a random program. -/
structure SampleOptions where
  /-- How much is told about the work. -/
  verbosity : Int := 0
  /-- The limits of the program. -/
  settings : SampleSettings := {}
  /-- The path of the program; empty for the standard output. -/
  output : Text := []
  /-- The program is built and run. -/
  check : Bool := false
  deriving DecidableEq, Repr

namespace SampleOptions

/-- Change the limits. -/
def limit (change : SampleSettings → SampleSettings) (options : SampleOptions) : SampleOptions :=
  { options with settings := change options.settings }

/-- The flags of writing a random program. -/
def flags : FlagSet SampleOptions :=
  let base : SampleSettings := {}
  ⟨"gen",
    [.verbosity fun change options =>
        (change options.verbosity).map fun verbosity => { options with verbosity },
      .natural "seed" "Random seed" fun seed => limit fun settings => { settings with seed },
      .range "structs" "Struct count, n or min-max" base.structs fun structs =>
        limit fun settings => { settings with structs },
      .range "members" "Members per struct" base.members fun members =>
        limit fun settings => { settings with members },
      .range "functions" "Functions besides main" base.functions fun functions =>
        limit fun settings => { settings with functions },
      .range "args" "Arguments per function" base.arguments fun arguments =>
        limit fun settings => { settings with arguments },
      .range "statements" "Statements per function body" base.statements fun statements =>
        limit fun settings => { settings with statements },
      .range "globals" "Global count" base.globals fun globals =>
        limit fun settings => { settings with globals },
      .range "consts" "Constant count" base.constants fun constants =>
        limit fun settings => { settings with constants },
      .integer "depth" "Nesting depth of blocks and expressions" (Text.ofInt base.depth)
        fun depth =>
        limit fun settings => { settings with depth },
      .string "o" "Output file (default stdout)" fun output options => { options with output },
      .switch "check" "Build and run the program after writing it" fun check options =>
        { options with check }]⟩

end SampleOptions

/-- The options of the language server. -/
structure ServerOptions where
  /-- How much is told about the work. -/
  verbosity : Int := 0
  /-- How many functions are generated at once. -/
  workers : Int := 0
  deriving DecidableEq, Repr

/-- The flags of the language server. -/
def ServerOptions.flags : FlagSet ServerOptions :=
  ⟨"lsp",
    [.verbosity fun change options =>
        (change options.verbosity).map fun verbosity => { options with verbosity },
      .integer "workers" "Functions generated at once (0 = GOMAXPROCS)" [] fun workers options =>
        { options with workers }]⟩

end TinLang
