import Mathlib.Data.List.Nodup
import TinLang.Proofs.Editor.Snapshots

/-!
# One event after another

What a change of the documents does to the text under a name, and which documents an analysis has an
answer for: exactly the open ones, each once. When nothing else is at work, a handler can go all the
way to its end, and then it has done what handling its event at once does. So handling events one
after another is one of the ways in which an exchange may go.
-/
namespace TinLang

variable {server : LanguageServer} {edit : Edit} {notification : Notification} {document : Text}

namespace Documents

variable {documents : Documents} {name other text : Text}

/-- The names of the documents. -/
def names (documents : Documents) : List Text := documents.map Prod.fst

theorem text?_eq_none : documents.text? name = none ↔ name ∉ documents.names := by
  simp [text?, names, List.lookup_eq_none_iff]
  grind

theorem text?_ne_none : documents.text? name ≠ none ↔ name ∈ documents.names := by
  rw [Ne, text?_eq_none, not_not]

@[simp] theorem text?_erase_same (documents : Documents) (name : Text) :
    (documents.erase name).text? name = none := by
  rw [text?_eq_none, names, List.mem_map]
  rintro ⟨entry, mem, rfl⟩
  simp [erase] at mem

theorem text?_erase_of_ne (documents : Documents) (apart : other ≠ name) :
    (documents.erase name).text? other = documents.text? other := by
  unfold text? erase
  induction documents with
  | nil => rfl
  | cons entry documents ih =>
    obtain ⟨key, value⟩ := entry
    by_cases here : key = name
    · subst here
      simpa [List.lookup_cons, beq_eq_false_iff_ne.mpr apart] using ih
    · by_cases found : other = key
      · subst found
        simp [here]
      · simpa [here, List.lookup_cons, beq_eq_false_iff_ne.mpr found] using ih

@[simp] theorem text?_put_same (documents : Documents) (name text : Text) :
    (documents.put name text).text? name = some text := by
  have absent := text?_erase_same documents name
  unfold text? at absent ⊢
  simp [put, List.lookup_append, absent]

theorem text?_put_of_ne (documents : Documents) (text : Text) (apart : other ≠ name) :
    (documents.put name text).text? other = documents.text? other := by
  rw [← text?_erase_of_ne documents apart]
  unfold text?
  simp [put, List.lookup_append, List.lookup_cons, beq_eq_false_iff_ne.mpr apart]

/-- An analysis has an answer for every document, in the order of their names. -/
theorem names_published (documents : Documents) :
    documents.published.map Notification.document = documents.sorted.names := by
  simp [published, notifications, Workspace.analyze, names, Function.comp_def]

theorem perm_published (documents : Documents) :
    (documents.published.map Notification.document).Perm documents.names := by
  rw [names_published]
  exact (List.mergeSort_perm _ _).map _

/-- An answer says something about the documents of its snapshot only. -/
theorem mem_names_of_mem_published
    (mem : notification ∈ documents.published) : notification.document ∈ documents.names :=
  (perm_published documents).mem_iff.mp (List.mem_map_of_mem mem)

theorem exists_mem_published (opened : name ∈ documents.names) :
    ∃ notification ∈ documents.published, notification.document = name :=
  List.mem_map.mp ((perm_published documents).mem_iff.mpr opened)

end Documents

namespace Edit

/-- The change concerns a document. -/
def Concerns (document : Text) : Edit → Prop
  | put name _ | erase name => name = document

instance (document : Text) (edit : Edit) : Decidable (edit.Concerns document) := by
  cases edit <;> unfold Concerns <;> infer_instance

/-- A change leaves the documents that it does not concern as they are. -/
theorem text?_apply_of_not_concerns (documents : Documents)
    (apart : ¬ edit.Concerns document) :
    (edit.apply documents).text? document = documents.text? document := by
  cases edit with
  | put name text => exact Documents.text?_put_of_ne documents text (Ne.symm apart)
  | erase name => exact Documents.text?_erase_of_ne documents (Ne.symm apart)

/-- A change after which a document that it concerns is not open has closed it. -/
theorem eq_erase_of_text?_eq_none {documents : Documents}
    (concerns : edit.Concerns document) (gone : (edit.apply documents).text? document = none) :
    edit = .erase document := by
  cases edit with
  | put name text =>
    obtain rfl : name = document := concerns
    rw [apply, Documents.text?_put_same] at gone
    contradiction
  | erase name => rw [show name = document from concerns]

/-- What is published about a document that a handler closes is that there is nothing more. -/
theorem eq_of_mem_publish_erase {found : List Notification}
    (mem : notification ∈ (erase document).publish found)
    (same : notification.document = document) : notification = ⟨document, []⟩ := by
  rcases List.mem_append.mp mem with inside | last
  · rw [List.mem_filter, same, bne_self_eq_false] at inside
    exact absurd inside.2 Bool.false_ne_true
  · exact List.mem_singleton.mp last

/-- What is published about other documents is what the analysis found. -/
theorem mem_publish_iff {found : List Notification}
    (other : edit ≠ .erase notification.document) :
    notification ∈ edit.publish found ↔ notification ∈ found := by
  cases edit with
  | put name text => exact Iff.rfl
  | erase name =>
    have apart : notification.document ≠ name := fun same => other (by rw [same])
    have apart' : notification ≠ ⟨name, []⟩ := fun same => apart (by rw [same])
    simp [publish, apart, apart']

end Edit

/-- Analysing the open documents at once, when nothing waits. -/
theorem LanguageServer.analyze_eq (runs : server.worker.stopped = false)
    (nothing : server.worker.queue = []) : server.analyze =
      (server.documents.published, { server with
        worker := { server.worker with
          workspace := (Workspace.analyze server.documents).1
          taken := server.worker.taken + 1 } }) := by
  obtain ⟨documents, worker⟩ := server
  obtain ⟨workspace, taken, queue, stopped⟩ := worker
  obtain rfl : stopped = false := runs
  obtain rfl : queue = [] := nothing
  simp [analyze, Worker.analyze, Worker.analyzeAll, Worker.submit, Worker.take, Worker.enqueue,
    Worker.drain, Worker.processAll, Worker.process, Worker.isCurrent, Except.map,
    Documents.published, Documents.notifications]

/-- Making a change and analysing. -/
def LanguageServer.apply (server : LanguageServer) (edit : Edit) :
    List Notification × LanguageServer :=
  let (found, server) := { server with documents := edit.apply server.documents }.analyze
  (edit.publish found, server)

theorem LanguageServer.handle_of_edit? {event : EditorEvent}
    (runs : server.worker.stopped = false) (nothing : server.worker.queue = [])
    (asked : event.edit? = some edit) : server.handle event = server.apply edit := by
  cases event with
  | opened document text =>
    obtain rfl := Option.some.inj asked
    rfl
  | changed document changes =>
    rw [handle, changeDocument]
    unfold EditorEvent.edit? at asked
    dsimp only at asked
    cases last : changes.getLast? with
    | none =>
      rw [last] at asked
      contradiction
    | some change =>
      rw [last] at asked
      cases change with
      | part => contradiction
      | whole text =>
        obtain rfl := Option.some.inj asked
        rfl
  | closed document =>
    obtain rfl := Option.some.inj asked
    have others : (Documents.erase server.documents document).published.filter
        (fun other => other.document != document) =
          (Documents.erase server.documents document).published := by
      refine List.filter_eq_self.mpr fun other mem => ?_
      have inside := Documents.mem_names_of_mem_published mem
      have absent := Documents.text?_eq_none.mp
        (Documents.text?_erase_same server.documents document)
      simp only [bne_iff_ne, ne_eq]
      rintro rfl
      exact absent inside
    have whole := @analyze_eq ⟨server.documents.erase document, server.worker⟩ runs nothing
    dsimp only at whole
    rw [handle, closeDocument, apply, Edit.apply, whole]
    simp only [Edit.publish, others]

theorem LanguageServer.handle_of_edit?_eq_none {event : EditorEvent}
    (nothing : event.edit? = none) : server.handle event = ([], server) := by
  cases event with
  | opened document text => contradiction
  | closed document => contradiction
  | changed document changes =>
    rw [handle, changeDocument]
    unfold EditorEvent.edit? at nothing
    dsimp only at nothing
    cases last : changes.getLast? with
    | none => rfl
    | some change =>
      rw [last] at nothing
      cases change with
      | part => rfl
      | whole text => contradiction

namespace Exchange

variable {ι : Type} [DecidableEq ι] {events : ι → EditorEvent} {state after : Exchange ι}

/-- Nothing is at work, and the worker is not stopped. -/
structure Quiet (state : Exchange ι) : Prop where
  idle : state.activity = .idle
  nothing : state.server.worker.queue = []
  free : state.locked = false
  runs : state.server.worker.stopped = false

/-- One event was handled at once. -/
structure Handled (events : ι → EditorEvent) (state : Exchange ι) (handler : ι)
    (after : Exchange ι) : Prop where
  quiet : after.Quiet
  server : after.server = (state.server.handle (events handler)).2
  flying : after.flying = state.flying ++
    (state.server.handle (events handler)).1.map (Letter.mk after.server.worker.taken)
  received : after.received = state.received
  returned : (after.stages handler).IsReturned
  others : ∀ other, other ≠ handler → after.stages other = state.stages other

/-- One handler has gone on to a stage, and nothing is at work. -/
structure Went (state : Exchange ι) (handler : ι) (stage : Stage) (server : LanguageServer)
    (after : Exchange ι) : Prop where
  stages : after.stages = Function.update state.stages handler stage
  server : after.server = server
  idle : after.activity = .idle
  free : after.locked = false
  flying : after.flying = state.flying
  received : after.received = state.received

/-- A handler can go on until its snapshot is queued. -/
theorem went_waiting {handler : ι} (stage : state.stages handler = .arrived)
    (asked : (events handler).edit? = some edit) (idle : state.activity = .idle)
    (free : state.locked = false) {snapshot : Snapshot} {worker : Worker}
    (next : state.server.worker.take (edit.apply state.server.documents) =
    (snapshot, worker)) :
    ∃ after, Reaches events state after ∧ Went state handler (.waiting snapshot)
      ⟨edit.apply state.server.documents, worker.enqueue snapshot⟩ after := by
  refine ⟨_, .head (.change handler edit stage asked) <|
    .head (.copy handler (Function.update_self _ _ _) free) <|
    .head (.number handler _ (Function.update_self _ _ _)) <|
    .single (.enqueue handler _ (Function.update_self _ _ _)), ?_, ?_, idle, rfl, rfl, rfl⟩
  · simp only [Function.update_idem, next]
  · simp only [next]

/-- The worker can analyse the only snapshot that waits and answer its handler. -/
theorem went_answered {middle : Exchange ι} {handler : ι} {snapshot : Snapshot}
    (went : Went state handler (.waiting snapshot) server middle)
    (waits : server.worker.queue = [snapshot]) (current : server.worker.isCurrent snapshot = true) :
    ∃ after, Reaches events middle after ∧ Went state handler
      (.answered snapshot (some (Workspace.analyze snapshot.documents).2))
      { server with worker := { server.worker with
        queue := [], workspace := (Workspace.analyze snapshot.documents).1 } } after := by
  obtain ⟨stages, rfl, idle, free, flying, received⟩ := went
  refine ⟨_, .head (.dequeue snapshot [] idle waits) <|
    .head (.compare snapshot rfl free) <|
    .head (.analyze snapshot (if_pos current)) <|
    .single (.reply handler snapshot _ rfl ?_), ?_, rfl, rfl, free, flying, received⟩
  · simp only [stages, Function.update_self]
  · simp only [stages, Function.update_idem]

/-- Handling an event at once is one of the ways in which an exchange may go on. -/
theorem reaches_handle (events : ι → EditorEvent) (state : Exchange ι) (quiet : state.Quiet)
    (handler : ι) (stage : state.stages handler = .arrived) :
    ∃ after, Reaches events state after ∧ Handled events state handler after := by
  obtain ⟨idle, nothing, free, runs⟩ := quiet
  cases asked : (events handler).edit? with
  | none =>
    refine ⟨_, .single (.ignore handler stage asked), ⟨idle, nothing, free, runs⟩, ?_, ?_,
      rfl, ?_, ?_⟩
    · rw [LanguageServer.handle_of_edit?_eq_none asked]
    · rw [LanguageServer.handle_of_edit?_eq_none asked, List.map_nil, List.append_nil]
    · dsimp only
      rw [Function.update_self]
      trivial
    · exact fun other apart => Function.update_of_ne apart _ _
  | some edit =>
    have handled := LanguageServer.handle_of_edit? runs nothing asked
    have whole := @LanguageServer.analyze_eq
      ⟨edit.apply state.server.documents, state.server.worker⟩ runs nothing
    dsimp only at whole
    rw [LanguageServer.apply, whole] at handled
    obtain ⟨waiting, first, went⟩ := went_waiting stage asked idle free rfl
    obtain ⟨answered, second, went⟩ := went_answered went
      (by simp only [Worker.enqueue, nothing, List.nil_append]) (beq_self_eq_true _)
    have third := Step.publish handler edit _ _ (by rw [went.stages, Function.update_self]) asked
    refine ⟨_, (first.trans second).tail third, ⟨went.idle, ?_, went.free, ?_⟩, ?_, ?_, ?_, ?_, ?_⟩
    · rw [went.server]
    · rw [went.server]
      exact runs
    · rw [went.server, handled]
      simp only [Worker.enqueue, nothing]
    · rw [went.flying, went.server, handled]
      rfl
    · exact went.received
    · dsimp only
      rw [Function.update_self]
      trivial
    · intro other apart
      simp only [went.stages, Function.update_of_ne apart]

end Exchange

end TinLang
