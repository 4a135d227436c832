import TinLang.Editor.Word
import TinLang.Editor.Worker

/-!
# Language servers

A language server holds the open documents of an editor and answers its requests. Every change of
the documents leads to an analysis of all of them together, whose diagnostics are published one
document at a time. Requests about a place look at the word there and ask the workspace about it.
-/
namespace TinLang

/-- A stretch of a document. -/
structure DocumentRange where
  /-- The place of its first byte. -/
  start : Caret
  /-- The place after its last byte. -/
  stop : Caret
  deriving DecidableEq, Repr

namespace DocumentRange

/-- The stretch of some bytes of a line. -/
def ofLength (start : Caret) (length : Nat) : DocumentRange :=
  ⟨start, { start with column := start.column + length }⟩

/-- The place at a line and a column counted from one. -/
def caret (line column : Int) : Caret := ⟨(line - 1).toNat, (column - 1).toNat⟩

/-- The stretch of a syntax tree. -/
def ofSpan (span : Span) : DocumentRange :=
  ⟨caret span.start.line span.start.column, caret span.stop.line span.stop.column⟩

end DocumentRange

/-- A diagnostic as an editor shows it: it covers the word at its place, or one byte. -/
structure Marker where
  /-- The stretch that is marked. -/
  range : DocumentRange
  /-- What is wrong there. -/
  message : Text
  deriving DecidableEq, Repr

/-- The marker of a diagnostic in a document. -/
def Marker.ofDiagnostic (text : Text) (diagnostic : Diagnostic) : Marker :=
  let start := DocumentRange.caret diagnostic.line diagnostic.column
  ⟨.ofLength start (max (Caret.wordAt text start).length 1), diagnostic.message⟩

/-- All markers of a document, which replace those published before. -/
structure Notification where
  /-- The name of the document. -/
  document : Text
  /-- Its markers. -/
  markers : List Marker
  deriving DecidableEq, Repr

/-- A stretch of a named document. -/
structure DocumentPlace where
  /-- The name of the document. -/
  document : Text
  /-- The stretch. -/
  range : DocumentRange
  deriving DecidableEq, Repr

/-- A change of a document. -/
inductive DocumentChange where
  | whole (text : Text)
  | part
  deriving DecidableEq, Repr

/-- The text of a document. -/
def Documents.text? (documents : Documents) (name : Text) : Option Text := documents.lookup name

/-- The documents without the one of a name. -/
def Documents.erase (documents : Documents) (name : Text) : Documents :=
  documents.filter fun entry => entry.1 != name

/-- The documents with a text under a name. -/
def Documents.put (documents : Documents) (name text : Text) : Documents :=
  documents.erase name ++ [(name, text)]

/-- The number that stands for a kind of symbol in the answers of a language server. -/
def SymbolKind.itemCode : SymbolKind → Nat
  | .keyword => 14
  | .type => 7
  | .struct => 22
  | .native => 3
  | .function => 3
  | .const => 21
  | .global => 6

/-- A language server with its open documents. -/
structure LanguageServer where
  /-- The open documents. -/
  documents : Documents := []
  /-- The worker that analyses them. -/
  worker : Worker := {}

namespace LanguageServer

/-- The name that the server gives itself. -/
def name : Text := "tin-lsp"

/-- The version of the server. -/
def version : Text := "0.1.0"

/-- The most names that one answer offers. -/
def completionLimit : Nat := 100

/-- Analyse the open documents. Every one of them gets a notification; there are none after the
worker has stopped. -/
def analyze (server : LanguageServer) : List Notification × LanguageServer :=
  match server.worker.analyze server.documents with
  | .error _ => ([], server)
  | .ok (answer, worker) =>
    ((answer.getD []).map fun (document, diagnostics) =>
      ⟨document, diagnostics.map (Marker.ofDiagnostic ((server.documents.text? document).getD []))⟩,
      { server with worker })

/-- Open a document, or replace its text. -/
def openDocument (server : LanguageServer) (document text : Text) :
    List Notification × LanguageServer :=
  { server with documents := server.documents.put document text }.analyze

/-- Change a document. The last change has to give the whole text, otherwise nothing happens. -/
def changeDocument (server : LanguageServer) (document : Text) (changes : List DocumentChange) :
    List Notification × LanguageServer :=
  match changes.getLast? with
  | some (.whole text) => server.openDocument document text
  | some .part => ([], server)
  | none => ([], server)

/-- Close a document. The others are analysed without it, and its markers are removed. -/
def closeDocument (server : LanguageServer) (document : Text) :
    List Notification × LanguageServer :=
  let (notifications, server) :=
    { server with documents := server.documents.erase document }.analyze
  (notifications ++ [⟨document, []⟩], server)

/-- Stop the worker. -/
def shutdown (server : LanguageServer) : LanguageServer :=
    { server with worker := server.worker.stop }

/-- The answer to a question about a word; none for an empty word. -/
def ask {α : Type} (server : LanguageServer) (word : Option Text) (answer : Workspace →
    Text → Option α) :
    Except WorkerError (Option α) :=
  match word with
  | none => .ok none
  | some [] => .ok none
  | some word => server.worker.perform fun workspace => .ok (answer workspace word)

/-- The answer to a question about the word at a place; a stopped worker knows nothing. -/
def askAt {α : Type} (server : LanguageServer) (document : Text) (caret : Caret)
    (answer : Workspace → Text → Option α) : Option α :=
  let word := (server.documents.text? document).map fun text => Caret.wordAt text caret
  (server.ask word answer).toOption.join

/-- The elements of a list; none when it is empty. -/
def unlessEmpty {α : Type} (elements : List α) : Option (List α) :=
  if elements.isEmpty then none else some elements

/-- The names that continue the word before a place. -/
def completion (server : LanguageServer) (document : Text) (caret : Caret) :
    Except WorkerError (Option (List NamedSymbol)) :=
  server.ask ((server.documents.text? document).map fun text => Caret.wordBefore text caret)
    fun workspace word => unlessEmpty (workspace.complete word completionLimit)

/-- The description of the word at a place. -/
def hover (server : LanguageServer) (document : Text) (caret : Caret) : Option Text :=
  server.askAt document caret fun workspace word => unlessEmpty (workspace.describe word)

/-- Where the word at a place is declared; none for a built-in name. -/
def definition (server : LanguageServer) (document : Text) (caret : Caret) : Option DocumentPlace :=
  server.askAt document caret fun workspace word =>
    match workspace.lookup? word with
    | some symbol =>
      if symbol.document.isEmpty then none else some ⟨symbol.document, .ofSpan symbol.span⟩
    | none => none

/-- Where the word at a place stands in the documents. -/
def references (server : LanguageServer) (document : Text) (caret : Caret) :
    Option (List DocumentPlace) :=
  server.askAt document caret fun workspace word =>
    unlessEmpty ((workspace.references word).map fun reference =>
      ⟨reference.document, .ofLength
        (DocumentRange.caret reference.position.line reference.position.column) reference.length⟩)

end LanguageServer

end TinLang
