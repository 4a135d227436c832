import TinLang.Editor.Workspace

/-!
# Analysis workers

A worker owns a workspace and works off a queue of snapshots of the documents. Snapshots are
numbered in the order in which they are taken. When its turn comes, a snapshot that is not the
latest one taken is stale: it is skipped, and the latest one, which is queued too or will be,
takes its place.
-/
namespace TinLang

/-- The documents at the time of a request, with the number of the request. -/
structure Snapshot where
  /-- The number, counted from one. -/
  number : Nat
  /-- The documents. -/
  documents : Documents

/-- Why a worker has no answer. -/
inductive WorkerError where
  | stopped
  | failed (message : Text)
  deriving DecidableEq, Repr

/-- The message of a worker that has no answer. -/
def WorkerError.message : WorkerError → Text
  | .stopped => "worker stopped"
  | .failed message => message

/-- A worker with its workspace and its queue. -/
structure Worker where
  /-- The documents as they were last analysed. -/
  workspace : Workspace := {}
  /-- How many snapshots were taken. -/
  taken : Nat := 0
  /-- The snapshots that wait, the next one first. -/
  queue : List Snapshot := []
  /-- The worker takes no more requests. -/
  stopped : Bool := false

namespace Worker

/-- Take a snapshot of the documents. -/
def take (worker : Worker) (documents : Documents) : Snapshot × Worker :=
  (⟨worker.taken + 1, documents⟩, { worker with taken := worker.taken + 1 })

/-- Queue a snapshot. -/
def enqueue (worker : Worker) (snapshot : Snapshot) : Worker :=
  { worker with queue := worker.queue ++ [snapshot] }

/-- No snapshot was taken after this one. -/
def isCurrent (worker : Worker) (snapshot : Snapshot) : Bool := snapshot.number == worker.taken

/-- Analyse a snapshot unless it is stale. A stale one has no diagnostics. -/
def process (worker : Worker) (snapshot : Snapshot) : Option DocumentDiagnostics × Worker :=
  if worker.isCurrent snapshot then
    let (workspace, diagnostics) := Workspace.analyze snapshot.documents
    (some diagnostics, { worker with workspace })
  else (none, worker)

/-- Process the snapshots of a list in turn. -/
def processAll (worker : Worker) : List Snapshot → List (Option DocumentDiagnostics) × Worker
  | [] => ([], worker)
  | snapshot :: snapshots =>
    let (answer, worker) := worker.process snapshot
    let (answers, worker) := worker.processAll snapshots
    (answer :: answers, worker)

/-- Process everything that waits. -/
def drain (worker : Worker) : List (Option DocumentDiagnostics) × Worker :=
  { worker with queue := [] }.processAll worker.queue

/-- Take a snapshot and queue it. -/
def submit (worker : Worker) (documents : Documents) : Worker :=
  let (snapshot, worker) := worker.take documents
  worker.enqueue snapshot

/-- Submit several versions of the documents in turn and then process them all. -/
def analyzeAll (worker : Worker) (versions : List Documents) :
    Except WorkerError (List (Option DocumentDiagnostics) × Worker) :=
  if worker.stopped then .error .stopped else .ok (versions.foldl submit worker).drain

/-- Submit the documents and process them. -/
def analyze (worker : Worker) (documents : Documents) :
    Except WorkerError (Option DocumentDiagnostics × Worker) :=
  (worker.analyzeAll [documents]).map fun (answers, worker) => (answers.head?.join, worker)

/-- Run a task on the workspace, which the task only reads. A task that fails does not stop the
worker. -/
def perform {α : Type} (worker : Worker) (task : Workspace → Except Text α) :
    Except WorkerError α :=
  if worker.stopped then .error .stopped else (task worker.workspace).mapError .failed

/-- The worker after it is told to stop. -/
def stop (worker : Worker) : Worker := { worker with stopped := true }

end Worker

end TinLang
