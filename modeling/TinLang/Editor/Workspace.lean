import TinLang.Compile.Build

/-!
# Workspaces

A workspace holds the open documents as they were last analysed together. Analysis builds all of
them as one program; the documents are kept even when they do not parse, so that declarations can
be found while a program is being typed.
-/
namespace TinLang

/-- What a symbol names. -/
inductive SymbolKind where
  | keyword
  | type
  | native
  | function
  | struct
  | global
  | const
  deriving DecidableEq, Repr

/-- The name of a kind. -/
def SymbolKind.name : SymbolKind → Text
  | .keyword => "keyword"
  | .type => "type"
  | .native => "native"
  | .function => "function"
  | .struct => "struct"
  | .global => "global"
  | .const => "const"

/-- A name that an editor can complete or look up. -/
structure NamedSymbol where
  /-- The name. -/
  name : Text
  /-- What it names. -/
  kind : SymbolKind
  /-- The document of the declaration; empty for a built-in name. -/
  document : Text := []
  /-- The stretch of the declaration. -/
  span : Span := ⟨⟨0, 0, 0⟩, ⟨0, 0, 0⟩⟩
  /-- How it is declared. -/
  detail : Text
  deriving DecidableEq, Repr

/-- One occurrence of an identifier. -/
structure Reference where
  /-- The document. -/
  document : Text
  /-- Where it stands. -/
  position : Position
  /-- Its length in bytes. -/
  length : Nat
  deriving DecidableEq, Repr

namespace NamedSymbol

/-- A name with its type. -/
def typed (name type : Text) : Text := name ++ ": " ++ type

/-- The signature of a function or native. -/
def signature (name : Text) (params : List Text) (result : Option Text) : Text :=
  let head := "fun " ++ name ++ "(" ++ Text.join ", " params ++ ")"
  match result with
  | some type => typed head type
  | none => head

/-- The symbol of a struct. -/
def ofStruct (document : Text) (declaration : StructDecl) : NamedSymbol :=
  { name := declaration.name, kind := .struct, document, span := declaration.span,
    detail := "struct " ++ declaration.name }

/-- The symbol of a function. -/
def ofFunction (document : Text) (declaration : FuncDecl) : NamedSymbol :=
  let params := declaration.params.map fun field => typed field.name field.type.text
  { name := declaration.name, kind := .function, document, span := declaration.span,
    detail := signature declaration.name params (declaration.result.map TypeExpr.text) }

/-- The symbol of a global variable. -/
def ofGlobal (document : Text) (declaration : GlobalDecl) : NamedSymbol :=
  { name := declaration.name, kind := .global, document, span := declaration.span,
    detail := "global " ++ typed declaration.name declaration.type.text }

/-- The stretch of a source text. -/
def excerpt (source : Text) (span : Span) : Text :=
  if span.start.offset < span.stop.offset ∧ span.stop.offset ≤ source.length then
    (source.drop span.start.offset).take (span.stop.offset - span.start.offset)
  else []

/-- The symbol of a constant, whose value is shown as it is written. -/
def ofConstant (document source : Text) (declaration : ConstDecl) : NamedSymbol :=
  let head : Text := match declaration.type with
    | some type => "const " ++ typed declaration.name type.text
    | none => "const " ++ declaration.name
  let value := excerpt source declaration.value.span
  { name := declaration.name, kind := .const, document, span := declaration.span,
    detail := if value.isEmpty then head else head ++ " = " ++ value }

/-- The symbol of a native. -/
def ofNative (native : Native) : NamedSymbol :=
  let result := if native.result = "void" then none else some native.result
  { name := native.name, kind := .native, detail := signature native.name native.params result }

/-- The reserved words, the built-in types and the natives. -/
def builtins : List NamedSymbol :=
  (Text.sort (Keyword.all.map Keyword.word)).map
      (fun name => { name, kind := .keyword, detail := "keyword" }) ++
    (Text.sort (BaseType.builtins.map BaseType.name)).map
      (fun name => { name, kind := .type, detail := "type" }) ++
    Native.all.map ofNative

/-- The symbols that a file declares. -/
def ofFile (document : Text) (file : SourceFile) : List NamedSymbol :=
  file.structs.map (ofStruct document) ++ file.funcs.map (ofFunction document) ++
    file.globals.map (ofGlobal document) ++ file.consts.map (ofConstant document file.source)

end NamedSymbol

/-- The documents of an editor by their names. -/
abbrev Documents := List (Text × Text)

/-- The documents in the order of their names. -/
def Documents.sorted (documents : Documents) : Documents :=
  documents.mergeSort fun left right => !Text.precedes right.1 left.1

/-- The diagnostics of each document. -/
abbrev DocumentDiagnostics := List (Text × List Diagnostic)

/-- The documents as they were last analysed. -/
structure Workspace where
  /-- The documents by name, in the order of their names. -/
  files : List (Text × SourceFile) := []
  /-- The declarations; none when the analysis stopped at syntax errors. -/
  environment : Option Environment := none

namespace Workspace

/-- Build all documents together. Every document has an entry, empty when it is clean. -/
def analyze (documents : Documents) : Workspace × DocumentDiagnostics :=
  let sorted := documents.sorted
  let build := Build.ofSources (sorted.map fun (name, text) => ⟨name, text⟩)
  (⟨(sorted.map Prod.fst).zip build.files, build.environment⟩,
    sorted.map fun (name, _) =>
      (name, build.diagnostics.filter fun diagnostic => diagnostic.file == name))

/-- The answer of an analysis that was cancelled, which finds nothing. -/
def cancelled (documents : Documents) : DocumentDiagnostics :=
  documents.sorted.map fun (name, _) => (name, [])

/-- The declarations of all documents. -/
def declarations (workspace : Workspace) : List NamedSymbol :=
  workspace.files.flatMap fun (name, file) => NamedSymbol.ofFile name file

/-- The declarations of all documents, then the built-in names. -/
def symbols (workspace : Workspace) : List NamedSymbol :=
  workspace.declarations ++ NamedSymbol.builtins

/-- The small form of a glyph. Names are ASCII, so of other glyphs only the two whose small form
is an ASCII letter matter: the dotted capital I and the Kelvin sign. -/
def smallForm (glyph : Glyph) : Text :=
  if 65 ≤ glyph.code ∧ glyph.code ≤ 90 then [(glyph.code + 32).toUInt8]
  else if glyph.code = 0x130 then "i"
  else if glyph.code = 0x212A then "k"
  else glyph.bytes

/-- A text without capitals. -/
def lowered (text : Text) : Text := text.glyphs.flatMap smallForm

/-- The symbols without those whose name an earlier one has. -/
def distinct : (seen : List Text) → List NamedSymbol → List NamedSymbol
  | _, [] => []
  | seen, symbol :: symbols =>
    if seen.contains symbol.name then distinct seen symbols
    else symbol :: distinct (symbol.name :: seen) symbols

/-- The symbols whose names start with a text, whatever the case; a positive limit bounds their
number. -/
def complete (workspace : Workspace) (start : Text) (limit : Int) : List NamedSymbol :=
  let found := distinct [] (workspace.symbols.filter fun symbol =>
    (Text.dropLeading? (lowered start) (lowered symbol.name)).isSome)
  if 0 < limit then found.take limit.toNat else found

/-- The first symbol of a name. -/
def lookup? (workspace : Workspace) (name : Text) : Option NamedSymbol :=
  workspace.symbols.find? fun symbol => symbol.name == name

/-- A line that gives the offset of a part. -/
def offsetLine (part : Text) (offset : Nat) : Text :=
  "\n- `" ++ part ++ "` at offset " ++ Text.ofInt (wrapSigned offset)

/-- The facts about a function: its argument block and the offsets in it. -/
def functionFacts (function : Function) : Text :=
  let lines := function.params.flatMap fun parameter => offsetLine parameter.name parameter.offset
  "\nargument block " ++ (Text.ofInt (wrapSigned function.block) ++ " bytes" ++ lines : Text)

/-- The facts about a struct: its size, its alignment and the offsets of its members. -/
def structFacts (struct : StructType) : Text :=
  let lines := struct.members.flatMap fun member =>
    offsetLine (NamedSymbol.typed member.name member.type.text) member.offset
  "\nsize " ++ (Text.ofInt (wrapSigned struct.size) ++ ", align " ++
        (Text.ofNat struct.align ++ lines : Text) : Text)

/-- The facts about a global variable: its place and its size. -/
def globalFacts (environment : Environment) (global : Global) : Text :=
  "\ndata offset " ++ Text.ofNat global.offset ++ ", " ++
    Text.ofInt (wrapSigned (environment.structs.sizeOf global.type)) ++ " bytes"

/-- The facts about a native: its number and its layout. -/
def nativeFacts (native : Native) : Text :=
  "\nnative call " ++ Text.ofInt native.id ++ ", argument block " ++
    Text.ofNat native.layout.block ++ " bytes, return slot " ++ Text.ofNat native.returnSlot ++
    " bytes"

/-- The facts about a symbol that the last check found. -/
def facts (workspace : Workspace) (symbol : NamedSymbol) : Text :=
  let checked {α : Type} (find : Environment → Option α) (render : Environment → α → Text) : Text :=
    match workspace.environment with
    | some environment => ((find environment).map (render environment)).getD []
    | none => []
  match symbol.kind with
  | .type =>
    "\n" ++ Text.ofNat (((ValueType.ofText? symbol.name).map (StructTable.sizeOf [])).getD 0) ++
      " bytes"
  | .native => ((Native.ofName? symbol.name).map nativeFacts).getD []
  | .function =>
    checked (fun environment => (environment.function? symbol.name).map Prod.snd)
      fun _ function => functionFacts function
  | .struct => checked (fun environment => environment.structs.get? symbol.name)
      fun _ struct => structFacts struct
  | .global => checked (fun environment => environment.global? symbol.name) globalFacts
  | .keyword => []
  | .const => []

/-- A description of a name with markup: how it is declared, and the facts about it. Nothing for
reserved words and unknown names. -/
def describe (workspace : Workspace) (name : Text) : Text :=
  match workspace.lookup? name with
  | none => []
  | some symbol =>
    if symbol.kind = .keyword then []
    else "```tin\n" ++ symbol.detail ++ "\n```\n" ++ workspace.facts symbol

/-- The identifiers of a document that spell a name. -/
def referencesIn (name document source : Text) : List Reference :=
  ((Scan.tokens source).filter fun token => decide (token.kind = .identifier) && token.literal
    == name).map
    fun token => ⟨document, token.position, name.length⟩

/-- The identifiers of all documents that spell a name. -/
def references (workspace : Workspace) (name : Text) : List Reference :=
  workspace.files.flatMap fun (document, file) => referencesIn name document file.source

end Workspace

end TinLang
