import TinLang.CommandLine.Load
import TinLang.CommandLine.Options
import TinLang.Machine.Session
import TinLang.Sample.Program

/-!
# Commands

What the commands do with the file system and the standard input, as functions of both: the exit
status, what is written to the two outputs, and the file system afterwards.
-/
namespace TinLang

/-- What a command has done. -/
structure CommandResult where
  /-- The exit status. -/
  status : Nat := 0
  /-- What was written to the standard output. -/
  output : Text := []
  /-- What was written to the standard error output. -/
  errors : Text := []
  /-- The file system afterwards. -/
  files : FileSystem

namespace CommandResult

/-- A command that failed with a message. -/
def failed (files : FileSystem) (message : Text) : CommandResult :=
  { status := 1, errors := "Error: " ++ message ++ "\n", files }

/-- A command whose program could not be loaded. -/
def notLoaded (files : FileSystem) (error : LoadError) : CommandResult :=
  let result := failed files error.message
  let lines := error.diagnostics.flatMap fun diagnostic => diagnostic.describe ++ [Text.byte '\n']
  { result with errors := lines ++ result.errors }

/-- The same with more at the front of the standard error output. -/
def withErrors (text : Text) (result : CommandResult) : CommandResult :=
  { result with errors := text ++ result.errors }

end CommandResult

/-- A run as a command shows it. -/
structure Execution where
  /-- The exit status of the program, or why the run ended early. -/
  status : Except Text Nat
  /-- What the program wrote. -/
  output : Text := []
  /-- What is told about the run. -/
  notes : Text := []
  /-- What was seen of the run. -/
  session : Session
  /-- The file system afterwards. -/
  files : FileSystem

namespace Execution

/-- How many bytes of the current frame are shown on either side after a fault. -/
def frameExtent : Int := 64

/-- The state of the machine, which is shown after a fault. -/
def faultNotes (program : Program) (machine : Machine) : StopReason → Text
  | .fault _ => machine.dumpRegisters program ++ machine.dumpFrame frameExtent frameExtent
  | _ => []

/-- The note about native calls that failed. -/
def softErrorNote (count : Nat) : Text :=
  if count = 0 then [] else Text.ofNat count ++ " native calls failed\n"

/-- Run a program. The exit status is the low byte of its result; a program without a main piece
does nothing. -/
def ofProgram (session : Session) (program : Program) (settings : Settings) (files : FileSystem) :
    Execution :=
  match session.run program settings files with
  | .error .notLinked => { status := .error StartError.notLinked.message, session, files }
  | .error cause => { status := .ok 0, notes := cause.message ++ "\n", session, files }
  | .ok (machine, some reason, session) =>
    { status := .error reason.message, output := machine.output.toList
      notes := session.text ++ faultNotes program machine reason
      session, files := machine.files }
  | .ok (machine, none, session) =>
    { status := .ok ((machine.registers.get Machine.slotA).toNat % 256)
      output := machine.output.toList
      notes := session.text ++ softErrorNote machine.softErrors
      session, files := machine.files }

end Execution

namespace Command

/-- The description of all commands. -/
def usage : Text :=
  Text.join "\n"
    ["Usage: tin <command> [options] [files...]", "", "Commands:",
      "  build    compile sources into a bytecode image",
      "  run      compile (or load an image) and execute main",
      "  disasm   print the linked program listing",
      "  gen      write a random program for stress testing",
      "  lsp      start the language server on stdio", "",
      "Without files, sources come from the nearest tin.toml.", "", "Examples:",
      "  tin run hello.tin            # Build and run one file",
      "  tin build -o app.tinc        # Build the project in the current directory",
      "  tin run -profile app.tinc    # Run an image and print the opcode profile",
      "  tin run -step hello.tin      # Single-step; type help at the prompt",
      "  tin disasm hello.tin         # Show generated code",
      "  tin gen -seed 7 -check       # Write, build and run a random program", ""]

/-- Read the flags of a command and go on with its options and the other arguments. -/
def withFlags {Options : Type} (set : FlagSet Options) (defaults : Options) (files : FileSystem)
    (arguments : List Text) (command : Options → List Text → CommandResult) : CommandResult :=
  match set.parse arguments defaults with
  | .ok (options, rest) => command options rest
  | .error .help => { errors := set.usage, files }
  | .error error => { status := 2, errors := error.message ++ "\n" ++ set.usage, files }

/-- Load the program that the arguments name and go on with it. -/
def withProgram (formats : Formats) (files : FileSystem) (arguments : List Text)
    (command : LoadedProgram → CommandResult) : CommandResult :=
  match LoadedProgram.ofArguments formats files arguments with
  | .ok loaded => command loaded
  | .error error => .notLoaded files error

/-- The path of the image that a build writes. -/
def imagePath (options : BuildOptions) (arguments : List Text) (loaded : LoadedProgram) : Text :=
  if options.output.isEmpty then
    match loaded.manifest with
    | some manifest => manifest.outputPath
    | none => Path.stem (arguments.headD []) ++ Manifest.imageExtension
  else options.output

/-- Build a program into an image. -/
def build (formats : Formats) (files : FileSystem) (options : BuildOptions)
    (arguments : List Text) : CommandResult :=
  withProgram formats files arguments fun loaded =>
    let path := imagePath options arguments loaded
    match Image.encode? formats.images options.strip loaded.program with
    | none => .failed files StartError.notLinked.message
    | some image =>
      match files.write path image with
      | .error cause => .failed files ("cannot write " ++ path ++ ": " ++ cause.message)
      | .ok files =>
        let note : Text := "Wrote " ++ path ++ " (" ++ Text.ofNat loaded.program.pieces.size ++
          " pieces, " ++ Text.ofNat loaded.program.data.size ++ " bytes of data)\n"
        { output := if 0 < options.verbosity then note else [], files }

/-- Run a program. -/
def run (formats : Formats) (files : FileSystem) (input : Text) (options : RunOptions)
    (arguments : List Text) : CommandResult :=
  withProgram formats files arguments fun loaded =>
    let base := (loaded.manifest.map Manifest.settings).getD {}
    let settings := options.settings base
    let profiled := options.profile || (loaded.manifest.map Manifest.profile).getD false
    let session : Session :=
      { tracing := settings.trace
        profile := if profiled then some {} else none
        stepper := if options.step then some { input } else none }
    let execution := Execution.ofProgram session loaded.program settings files
    let report := (execution.session.profile.map Profile.report).getD []
    let result : CommandResult := match execution.status with
      | .error message => .failed execution.files message
      | .ok status =>
        let note : Text := "exit " ++ Text.ofNat status ++ "\n"
        { status, errors := if 0 < options.verbosity then note else [], files := execution.files }
    { result.withErrors (execution.notes ++ report) with output := execution.output }

/-- Write the listing of a program. -/
def disassemble (formats : Formats) (files : FileSystem) (arguments : List Text) :
    CommandResult :=
  withProgram formats files arguments fun loaded =>
    { output := Listing.ofProgram loaded.program, files }

/-- Build and run a random program whose output is dropped. Returns what is told about it, and why
it failed, if it did. -/
def check (source : Text) (files : FileSystem) : Text × Option Text :=
  let build := Build.ofSources [⟨"gen.tin", source⟩]
  match build.failure with
  | some failure =>
    (build.diagnostics.flatMap fun diagnostic => diagnostic.describe ++ [Text.byte '\n'],
      some failure.message)
  | none =>
    let execution := Execution.ofProgram {} build.program { noFiles := true } files
    match execution.status with
    | .error message => (execution.notes, some message)
    | .ok _ => (execution.notes, none)

/-- Write a random program. -/
def sample (files : FileSystem) (options : SampleOptions) : CommandResult :=
  let source := options.settings.write
  let written := if options.output.isEmpty then .ok files else files.write options.output source
  match written with
  | .error cause => .failed files cause.message
  | .ok files =>
    let output := if options.output.isEmpty then source else []
    if options.check then
      match check source files with
      | (notes, none) => { output, errors := notes, files }
      | (notes, some message) =>
        let failure := CommandResult.failed files
          ("seed " ++ Text.ofNat options.settings.seed ++ ": " ++ message)
        { failure.withErrors notes with output }
    else { output, files }

/-- The arguments ask for a run that reads the standard input. -/
def readsInput : List Text → Bool
  | [] => false
  | name :: arguments =>
    name == Text.ofString "run" &&
      match RunOptions.flags.parse arguments {} with
      | .ok (options, _) => options.step
      | .error _ => false

/-- Do what the arguments say. The language server is reached through its own requests, so its
command only reads its flags. -/
def perform (formats : Formats) (files : FileSystem) (input : Text) :
    List Text → CommandResult
  | [] => { status := 2, errors := usage, files }
  | name :: arguments =>
    if name = "build" then withFlags BuildOptions.flags {} files arguments (build formats files)
    else if name = "run" then withFlags RunOptions.flags {} files arguments
      (run formats files input)
    else if name = "disasm" then
      withFlags ListingOptions.flags {} files arguments fun _ => disassemble formats files
    else if name = "gen" then
      withFlags SampleOptions.flags {} files arguments fun options _ => sample files options
    else if name = "lsp" then withFlags ServerOptions.flags {} files arguments fun _ _ => { files }
    else if name = "help" ∨ name = "-h" ∨ name = "--help" then { errors := usage, files }
    else
      { status := 2, errors := "Error: unknown command " ++ name.quoted ++ "\n\n" ++ usage, files }

end Command

end TinLang
