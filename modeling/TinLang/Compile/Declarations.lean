import TinLang.Compile.Environment
import TinLang.Compile.Problem
import TinLang.Syntax.Literals

/-!
# Checking declarations

The declarations of all files together become an environment. Structs come first, because every
other declaration may name them; then functions, constants and global variables, which are placed
in the data segment, and last every string literal is stored there, so that places do not depend
on the code. A declaration with a problem is left out, and the rest is checked all the same.
-/
namespace TinLang

/-- The constant of a declaration, whose value has to be a literal of the written type. An integer
may stand for a floating-point number. -/
def Environment.constantOf (environment : Environment) (declaration : ConstDecl) :
    Except (Span × ProblemCause) Constant :=
  match declaration.value.literalType? with
  | none => .error (declaration.value.span, .notLiteral declaration.name)
  | some literal =>
    match declaration.type with
    | none => .ok ⟨declaration.name, literal, declaration.value⟩
    | some written =>
      match environment.resolve? written with
      | none => .error (written.span, .unknownType written)
      | some type =>
        if type.accepts literal ∨ (type = .float ∧ literal = .int) then
          .ok ⟨declaration.name, type, declaration.value⟩
        else .error (declaration.span, .constantType literal type)

/-- How far the layout of a struct has come. -/
inductive LayoutProgress where
  | pending
  | busy
  | done
  | failed
  deriving DecidableEq, Repr

/-- A struct that is being laid out. -/
structure StructDraft where
  /-- The name of the file. -/
  file : Text
  /-- The declaration. -/
  declaration : StructDecl
  /-- How far it has come. -/
  progress : LayoutProgress := .pending
  deriving Repr

/-- The state of a check. -/
structure Checker where
  /-- The declarations so far. -/
  environment : Environment := {}
  /-- The structs being laid out. -/
  drafts : List StructDraft := []
  /-- The program, of which the data segment is filled. -/
  program : Program := {}
  /-- The problems so far. -/
  problems : Array Problem := #[]
  /-- The data segment was to be larger than numbers of 64 bits, which ends the whole program. -/
  panicked : Bool := false

/-- A step of a check. -/
abbrev Check := StateM Checker

namespace Check

/-- Report a problem at a place of a file. -/
def report (file : Text) (span : Span) (cause : ProblemCause) : Check Unit :=
  modify fun checker => { checker with problems := checker.problems.push ⟨file, span.start, cause⟩ }

/-- Change the environment. -/
def extend (change : Environment → Environment) : Check Unit :=
  modify fun checker => { checker with environment := change checker.environment }

/-- The type that a written type names; an unknown name is reported. -/
def resolve (file : Text) (type : TypeExpr) : Check (Option ValueType) := do
  match (← get).environment.resolve? type with
  | some found => return some found
  | none =>
    report file type.span (.unknownType type)
    return none

/-- Enter a struct whose name is free. -/
def enterStruct (file : Text) (declaration : StructDecl) : Check Unit := do
  let checker ← get
  if (BaseType.builtin? declaration.name).isSome then
    report file declaration.span (.redefinesBuiltin declaration.name)
  else if (checker.environment.structs.get? declaration.name).isSome then
    report file declaration.span (.structDeclared declaration.name)
  else
    let draft : StructDraft := { file, declaration }
    set { checker with drafts := checker.drafts ++ [draft] }
    extend fun environment =>
      { environment with structs := environment.structs ++ [{ name := declaration.name }] }

/-- Note how far the layout of a struct has come. -/
def mark (name : Text) (progress : LayoutProgress) : Check Unit :=
  modify fun checker => { checker with
    drafts := checker.drafts.map fun draft =>
      if draft.declaration.name = name then { draft with progress } else draft }

/-- Add a member at the next offset that its alignment admits, and return the offset after it. -/
def placeMember (struct : Text) (offset : Nat) (name : Text) (type : ValueType) : Check Nat := do
  let table := (← get).environment.structs
  let align := table.alignOf type
  let start := alignUp offset align
  extend fun environment => { environment with
    structs := environment.structs.modify struct fun found => { found with
      members := found.members ++ [⟨name, type, start, table.shapeOf type⟩]
      align := max found.align align } }
  return wrapUnsigned (start + table.sizeOf type)

/-- Lay out members after those already placed, up to the first problem; `layout` lays out the
struct of a name. -/
def placeMembers (layout : Text → Check Bool) (file struct : Text) :
    (offset : Nat) → (seen : List Text) → List Field → Check Bool
  | offset, _, [] => do
    extend fun environment => { environment with
      structs := environment.structs.modify struct fun found =>
        { found with size := alignUp offset found.align } }
    return true
  | offset, seen, field :: fields => do
    if seen.contains field.name then
      report file field.span (.duplicateMember field.name struct)
      return false
    match ← resolve file field.type with
    | none => return false
    | some type =>
      if type.isVoid then
        report file field.span (.voidMember field.name)
        return false
      let complete ← match type.structName? with
        | some inner => layout inner
        | none => pure true
      if complete then
        let next ← placeMember struct offset field.name type
        placeMembers layout file struct next (field.name :: seen) fields
      else return false

/-- Lay out a struct, and the structs it holds before it; says whether it is complete. The depth
bounds how deep structs hold one another. -/
def layoutStruct : (depth : Nat) → Text → Check Bool
  | 0, _ => return false
  | depth + 1, name => do
    match (← get).drafts.find? fun draft => draft.declaration.name == name with
    | none => return false
    | some draft =>
      match draft.progress with
      | .done => return true
      | .failed => return false
      | .busy =>
        report draft.file draft.declaration.span (.containsItself name)
        return false
      | .pending =>
        mark name .busy
        let complete ←
          placeMembers (layoutStruct depth) draft.file name 0 [] draft.declaration.members
        mark name (if complete then .done else .failed)
        return complete

/-- Check the structs of all files. -/
def structs (files : List SourceFile) : Check Unit := do
  files.forM fun file => file.structs.forM (enterStruct file.name)
  let drafts := (← get).drafts
  drafts.forM fun draft => do
    let _ ← layoutStruct (drafts.length + 1) draft.declaration.name

/-- The types of parameters. -/
def parameterTypes (file : Text) : List Field → Check (List (Option ValueType))
  | [] => return []
  | field :: fields => do
    let type ← resolve file field.type
    if type = some .void then report file field.span (.voidParameter field.name)
    return type :: (← parameterTypes file fields)

/-- Check that main takes nothing and returns an integer or nothing. -/
def mainSignature (file : Text) (declaration : FuncDecl) (result : ValueType) : Check Unit := do
  if declaration.params ≠ [] then report file declaration.span .mainParameters
  if result ≠ .void ∧ result ≠ .int then report file declaration.span (.mainResult result)

/-- Check the signature of a function. -/
def function (file : SourceFile) (declaration : FuncDecl) : Check Unit := do
  let name := declaration.name
  if (Native.ofName? name).isSome then report file.name declaration.span (.redefinesNative name)
  else if ((← get).environment.function? name).isSome then
    report file.name declaration.span (.functionDeclared name)
  else
    let result ← match declaration.result with
      | some type => pure ((← resolve file.name type).getD .void)
      | none => pure .void
    let types ← parameterTypes file.name declaration.params
    let layout := ArgumentLayout.ofSizes (types.map (← get).environment.sizeOf)
    let params := (declaration.params.zip (types.zip layout.offsets)).map
      fun (field, type, offset) => ⟨field.name, type, offset⟩
    if name = "main" then mainSignature file.name declaration result
    extend fun environment => { environment with
      functions := environment.functions ++ [⟨declaration, file, params, result, layout.block⟩] }

/-- Report a name that a constant or global variable already has; says whether it is free. -/
def free (file : Text) (span : Span) (name : Text) : Check Bool := do
  let environment := (← get).environment
  if (environment.constant? name).isSome || (environment.global? name).isSome then
    report file span (.alreadyDeclared name)
    return false
  else return true

/-- Check a constant of a file. -/
def constant (file : SourceFile) (declaration : ConstDecl) : Check Unit := do
  if ← free file.name declaration.span declaration.name then
    match (← get).environment.constantOf declaration with
    | .ok constant =>
      extend fun environment =>
        { environment with constants := environment.constants ++ [constant] }
    | .error (span, cause) => report file.name span cause

/-- How many zeros fill data of a size up to a multiple. -/
def padding (size multiple : Nat) : Nat := (wrapSigned (alignUp size multiple) - size).toNat

/-- Fill the data segment with zeros up to a multiple. -/
def alignData (multiple : Nat) : Check Unit :=
  modify fun checker =>
    let size := checker.program.data.size
    { checker with program := (checker.program.appendData (padding size multiple) []).1 }

/-- Add zeros to the data segment, and return the offset of the first. A negative size and one that
leaves the numbers of 64 bits end the whole program. -/
def reserve (size : Nat) : Check (Option Nat) := do
  let checker ← get
  if checker.program.data.size + size < 0x8000000000000000 then
    let (program, offset) := checker.program.appendData size []
    set { checker with program }
    return some offset
  else
    set { checker with panicked := true }
    return none

/-- Check a global variable, and place it in the data segment. -/
def global (file : SourceFile) (declaration : GlobalDecl) : Check Unit := do
  if ← free file.name declaration.span declaration.name then
    match ← resolve file.name declaration.type with
    | none => return ()
    | some type =>
      if type.isVoid then report file.name declaration.span (.voidGlobal declaration.name)
      else
        let table := (← get).environment.structs
        alignData (table.alignOf type)
        match ← reserve (table.sizeOf type) with
        | none => return ()
        | some offset =>
          extend fun environment => { environment with
            globals := environment.globals ++ [⟨declaration, file, type, offset⟩] }

/-- Store the string literals of a file in the data segment. -/
def strings (file : SourceFile) : Check Unit :=
  modify fun checker => { checker with
    program := file.strings.foldl (fun program text => (program.intern text).1) checker.program }

/-- Check the declarations of all files. -/
def files (files : List SourceFile) : Check Unit := do
  structs files
  files.forM fun file => file.funcs.forM (function file)
  files.forM fun file => file.consts.forM (constant file)
  files.forM fun file => file.globals.forM (global file)
  files.forM strings

end Check

/-- The check of the declarations of some files. -/
def Checker.ofFiles (files : List SourceFile) : Checker := ((Check.files files).run {}).2

end TinLang
