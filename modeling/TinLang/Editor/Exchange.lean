import Mathlib.Logic.Function.Basic
import Mathlib.Logic.Relation
import TinLang.Editor.Server

/-!
# Exchanges between an editor and its language server

An editor tells its server what happens to the documents, and every event has a handler of its own:
it changes the documents, takes a snapshot of them under the worker's lock, queues the snapshot,
waits for the answer and publishes what it says. Handlers are at work at the same time, and so is
the worker. What they publish is on its way to the editor for a while, and nothing keeps it in
order.

An exchange is the state of all this at one moment. A step is what one handler, the worker or the
way to the editor does next, and any of them may be next. The queue has no bound here: a handler
that waits for room in it is one that has not queued its snapshot yet.
-/
namespace TinLang

/-- What happens to a document in an editor. -/
inductive EditorEvent where
  | opened (document text : Text)
  | changed (document : Text) (changes : List DocumentChange)
  | closed (document : Text)
  deriving DecidableEq, Repr

/-- A change of the open documents. -/
inductive Edit where
  | put (document text : Text)
  | erase (document : Text)
  deriving DecidableEq, Repr

namespace Edit

/-- The documents after a change. -/
def apply (documents : Documents) : Edit → Documents
  | .put document text => documents.put document text
  | .erase document => documents.erase document

/-- What the handler of a change publishes: what the analysis found, and nothing more about a
document that was closed. -/
def publish (found : List Notification) : Edit → List Notification
  | .put .. => found
  | .erase document => found.filter (fun other => other.document != document) ++ [⟨document, []⟩]

end Edit

/-- The change that an event asks for. The last change of a document has to give the whole text,
otherwise there is none. -/
def EditorEvent.edit? : EditorEvent → Option Edit
  | .opened document text => some (.put document text)
  | .changed document changes =>
    match changes.getLast? with
    | some (.whole text) => some (.put document text)
    | some .part | none => none
  | .closed document => some (.erase document)

/-- The notifications for an answer about some documents; a skipped snapshot has none. -/
def Documents.notifications (documents : Documents) (answer : Option DocumentDiagnostics) :
    List Notification :=
  (answer.getD []).map fun (document, diagnostics) =>
    ⟨document, diagnostics.map (Marker.ofDiagnostic ((documents.text? document).getD []))⟩

/-- The notifications that an analysis of some documents leads to. -/
def Documents.published (documents : Documents) : List Notification :=
  documents.notifications (some (Workspace.analyze documents).2)

/-- Handle one event to its end before anything else happens. -/
def LanguageServer.handle (server : LanguageServer) : EditorEvent → List Notification ×
    LanguageServer
  | .opened document text => server.openDocument document text
  | .changed document changes => server.changeDocument document changes
  | .closed document => server.closeDocument document

/-- How far the handler of an event has come. -/
inductive Stage where
  /-- It has done nothing yet. -/
  | arrived
  /-- The event asks for no change, and the handler has returned. -/
  | ignored
  /-- It has changed the documents. -/
  | changed
  /-- It holds the worker's lock and has copied the documents. -/
  | copied (documents : Documents)
  /-- Its snapshot has a number, and the lock is free again. -/
  | numbered (snapshot : Snapshot)
  /-- Its snapshot is queued or being processed. -/
  | waiting (snapshot : Snapshot)
  /-- The worker has answered. -/
  | answered (snapshot : Snapshot) (answer : Option DocumentDiagnostics)
  /-- It has sent its notifications and returned. -/
  | returned (snapshot : Snapshot) (answer : Option DocumentDiagnostics)

/-- What the worker is doing. -/
inductive Activity where
  | idle
  /-- It has taken a snapshot from the queue. -/
  | holding (snapshot : Snapshot)
  /-- It has found that the snapshot is the latest one and is going to analyse it. -/
  | cleared (snapshot : Snapshot)
  /-- It has an answer to give. -/
  | finished (snapshot : Snapshot) (answer : Option DocumentDiagnostics)

/-- A notification with the number of the snapshot that its sender took. The number is not sent. -/
structure Letter where
  /-- The number. -/
  number : Nat
  /-- What is sent. -/
  notification : Notification
  deriving DecidableEq, Repr

/-- The state of a language server and its editor. -/
structure Exchange (ι : Type) where
  /-- The open documents, and the worker with its workspace and queue. -/
  server : LanguageServer := {}
  /-- How far the handlers have come. -/
  stages : ι → Stage := fun _ => .arrived
  /-- A handler holds the worker's lock. -/
  locked : Bool := false
  /-- What the worker is doing. -/
  activity : Activity := .idle
  /-- The handlers that have changed the documents, in the order in which they did. -/
  changes : List ι := []
  /-- The snapshots that were analysed, in the order in which they were. -/
  ran : List Snapshot := []
  /-- What is on its way to the editor. -/
  flying : List Letter := []
  /-- What the editor has received, in the order in which it did. -/
  received : List Letter := []

namespace Exchange

variable {ι : Type} [DecidableEq ι] (events : ι → EditorEvent)

/-- One handler, the worker or the way to the editor goes on. -/
inductive Step : Exchange ι → Exchange ι → Prop where
  /-- A handler finds that its event asks for no change. -/
  | ignore {exchange : Exchange ι} (handler : ι)
    (stage : exchange.stages handler = .arrived) (nothing : (events handler).edit? = none) :
    Step exchange { exchange with stages := Function.update exchange.stages handler .ignored }
  /-- A handler changes the documents. -/
  | change {exchange : Exchange ι} (handler : ι) (edit : Edit)
    (stage : exchange.stages handler = .arrived) (asked : (events handler).edit? = some edit) :
    Step exchange { exchange with
      server := { exchange.server with documents := edit.apply exchange.server.documents }
      stages := Function.update exchange.stages handler .changed
      changes := exchange.changes ++ [handler] }
  /-- A handler takes the worker's lock and copies the documents. -/
  | copy {exchange : Exchange ι} (handler : ι)
    (stage : exchange.stages handler = .changed) (free : exchange.locked = false) :
    Step exchange { exchange with
      stages := Function.update exchange.stages handler (.copied exchange.server.documents)
      locked := true }
  /-- A handler numbers its snapshot and gives the lock back. -/
  | number {exchange : Exchange ι} (handler : ι) (documents : Documents)
    (stage : exchange.stages handler = .copied documents) :
    Step exchange { exchange with
      server := { exchange.server with worker := (exchange.server.worker.take documents).2 }
      stages := Function.update exchange.stages handler
        (.numbered (exchange.server.worker.take documents).1)
      locked := false }
  /-- A handler queues its snapshot. -/
  | enqueue {exchange : Exchange ι} (handler : ι) (snapshot : Snapshot)
    (stage : exchange.stages handler = .numbered snapshot) :
    Step exchange { exchange with
      server := { exchange.server with worker := exchange.server.worker.enqueue snapshot }
      stages := Function.update exchange.stages handler (.waiting snapshot) }
  /-- The worker takes the next snapshot from the queue. -/
  | dequeue {exchange : Exchange ι} (snapshot : Snapshot) (queue : List Snapshot)
    (idle : exchange.activity = .idle) (waits : exchange.server.worker.queue = snapshot :: queue) :
    Step exchange { exchange with
      server := { exchange.server with worker := { exchange.server.worker with queue } }
      activity := .holding snapshot }
  /-- The worker, for which it needs the lock, compares the number with that of the latest
  snapshot. A stale one has no answer. -/
  | compare {exchange : Exchange ι} (snapshot : Snapshot)
    (holding : exchange.activity = .holding snapshot) (free : exchange.locked = false) :
    Step exchange { exchange with
      activity := if exchange.server.worker.isCurrent snapshot then .cleared snapshot
        else .finished snapshot none }
  /-- The worker analyses the snapshot. -/
  | analyze {exchange : Exchange ι} (snapshot : Snapshot)
    (cleared : exchange.activity = .cleared snapshot) :
    Step exchange { exchange with
      server := { exchange.server with
        worker := { exchange.server.worker with
          workspace := (Workspace.analyze snapshot.documents).1 } }
      activity := .finished snapshot (some (Workspace.analyze snapshot.documents).2)
      ran := exchange.ran ++ [snapshot] }
  /-- The worker gives its answer to the handler that waits for it. -/
  | reply {exchange : Exchange ι} (handler : ι) (snapshot : Snapshot)
    (answer : Option DocumentDiagnostics) (finished : exchange.activity = .finished snapshot answer)
    (stage : exchange.stages handler = .waiting snapshot) :
    Step exchange { exchange with
      activity := .idle
      stages := Function.update exchange.stages handler (.answered snapshot answer) }
  /-- A handler sends its notifications and returns. -/
  | publish {exchange : Exchange ι} (handler : ι) (edit : Edit) (snapshot : Snapshot)
    (answer : Option DocumentDiagnostics) (stage : exchange.stages handler = .answered
    snapshot answer)
    (asked : (events handler).edit? = some edit) :
    Step exchange { exchange with
      stages := Function.update exchange.stages handler (.returned snapshot answer)
      flying := exchange.flying ++
        (edit.publish (snapshot.documents.notifications answer)).map (Letter.mk snapshot.number) }
  /-- A notification arrives, whichever it is. -/
  | deliver {exchange : Exchange ι} (before : List Letter) (letter : Letter) (after : List Letter)
    (flying : exchange.flying = before ++ letter :: after) :
    Step exchange { exchange with
      flying := before ++ after
      received := exchange.received ++ [letter] }

/-- Any number of steps. -/
def Reaches : Exchange ι → Exchange ι → Prop := Relation.ReflTransGen (Step events)

/-- The documents after the changes of some handlers. -/
def replay (handlers : List ι) : Documents :=
  (handlers.filterMap fun handler => (events handler).edit?).foldl Edit.apply []

/-- The last notification about a document that the editor has received. -/
def latest? (exchange : Exchange ι) (document : Text) : Option Letter :=
  (exchange.received.filter fun letter => letter.notification.document == document).getLast?

end Exchange

end TinLang
