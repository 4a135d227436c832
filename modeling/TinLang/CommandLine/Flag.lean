import TinLang.CommandLine.Argument
import TinLang.Text.Quoted

/-!
# Flags

Flags come before the other arguments of a command. A flag starts with one dash or two; a value
follows an equals sign or is the next argument, and a switch needs none. Two dashes alone end the
flags. Each flag enters its value into the options of its command.
-/
namespace TinLang

/-- A flag of a command with options of some type. -/
structure Flag (Options : Type) where
  /-- The name without dashes. -/
  name : Text
  /-- The word for its value; a switch has none. -/
  valueWord : Text := []
  /-- What it does. -/
  usage : Text
  /-- The value that applies without the flag, when it is worth showing. -/
  shownDefault : Text := []
  /-- Enter a value into the options; a message when it does not fit. -/
  enter : Text → Options → Except Text Options

/-- The flag needs no value. -/
def Flag.isSwitch {Options : Type} (flag : Flag Options) : Bool := flag.valueWord.isEmpty

/-- Why flags cannot be read. -/
inductive FlagError where
  | help
  | malformed (argument : Text)
  | undefined (name : Text)
  | badSwitch (value name reason : Text)
  | missingValue (name : Text)
  | badValue (value name reason : Text)
  deriving DecidableEq, Repr

/-- The message of flags that cannot be read. -/
def FlagError.message : FlagError → Text
  | .help => "flag: help requested"
  | .malformed argument => "bad flag syntax: " ++ argument
  | .undefined name => "flag provided but not defined: -" ++ name
  | .badSwitch value name reason =>
    "invalid boolean value " ++ value.quoted ++ " for -" ++ name ++ ": " ++ reason
  | .missingValue name => "flag needs an argument: -" ++ name
  | .badValue value name reason =>
    "invalid value " ++ value.quoted ++ " for flag -" ++ name ++ ": " ++ reason

/-- What an argument is, as far as its spelling tells. -/
inductive ArgumentForm where
  | plain
  | endOfFlags
  | malformed
  | flag (name : Text) (value : Option Text)
  deriving DecidableEq, Repr

/-- The form of an argument. An equals sign cannot come first in a name. -/
def ArgumentForm.of (argument : Text) : ArgumentForm :=
  match Text.dropLeading? "--" argument, Text.dropLeading? "-" argument with
  | some [], _ => .endOfFlags
  | some name, _ => named name
  | none, some [] => .plain
  | none, some name => named name
  | none, none => .plain
where
  /-- The form of a flag after its dashes. -/
  named : Text → ArgumentForm
    | [] => .malformed
    | first :: rest =>
      if first = Text.byte '-' ∨ first = Text.byte '=' then .malformed
      else match Text.cut (Text.byte '=') rest with
        | some (name, value) => .flag (first :: name) (some value)
        | none => .flag (first :: rest) none

/-- The flags of a command. -/
structure FlagSet (Options : Type) where
  /-- The name of the command. -/
  command : Text
  /-- The flags. -/
  flags : List (Flag Options)

namespace FlagSet

variable {Options : Type}

/-- The flag of a name; a request for help is an error of its own. -/
def find (set : FlagSet Options) (name : Text) : Except FlagError (Flag Options) :=
  match set.flags.find? fun flag => flag.name == name with
  | some flag => .ok flag
  | none => if name = "help" ∨ name = "h" then .error .help else .error (.undefined name)

/-- Enter a value into the options. -/
def enter (flag : Flag Options) (value : Text) (options : Options) : Except FlagError Options :=
  (flag.enter value options).mapError fun reason =>
    if flag.isSwitch then .badSwitch value flag.name reason else .badValue value flag.name reason

/-- Read the flags at the front of some arguments into the options; returns the arguments after
them. -/
def parse (set : FlagSet Options) : List Text → Options → Except FlagError (Options × List Text)
  | [], options => .ok (options, [])
  | argument :: rest, options =>
    match ArgumentForm.of argument with
    | .plain => .ok (options, argument :: rest)
    | .endOfFlags => .ok (options, rest)
    | .malformed => .error (.malformed argument)
    | .flag name given => do
      let flag ← set.find name
      match given with
      | some value => parse set rest (← enter flag value options)
      | none =>
        if flag.isSwitch then parse set rest (← enter flag "true" options)
        else match rest with
          | [] => .error (.missingValue name)
          | value :: others => parse set others (← enter flag value options)

/-- The lines about a flag. The usage of a switch of one letter stands on the line of its name. -/
def describe (flag : Flag Options) : Text :=
  let word : Text := if flag.isSwitch then [] else " " ++ flag.valueWord
  let head : Text := "  -" ++ flag.name ++ word
  let gap : Text := if head.length ≤ 4 then "\t" else "\n    \t"
  let shown : Text := if flag.shownDefault.isEmpty then [] else " (default " ++ flag.shownDefault ++
    ")"
  head ++ gap ++ flag.usage ++ shown ++ "\n"

/-- The description of all flags in the order of their names. -/
def usage (set : FlagSet Options) : Text :=
  let sorted := set.flags.mergeSort fun left right => !Text.precedes right.name left.name
  "Usage of tin " ++ (set.command ++ ":\n" ++ sorted.flatMap describe : Text)

end FlagSet

end TinLang
