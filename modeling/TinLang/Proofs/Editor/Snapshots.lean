import Mathlib.Data.List.Basic
import TinLang.Editor.Exchange

/-!
# The snapshots of an exchange

Handlers change the documents in some order and number their snapshots under one lock. So the
snapshot of a number holds the documents after the first so many changes, and among these are the
changes of every handler whose snapshot has that number or a lower one. This holds however the
steps of the handlers follow each other: a handler changes the documents before it copies them, and
no other handler numbers a snapshot between the copy and the number.
-/
namespace TinLang

variable {stage : Stage} {snapshot : Snapshot}

namespace Stage

/-- The handler has changed the documents. -/
def Edited : Stage → Prop
  | arrived | ignored => False
  | changed | copied _ | numbered _ | waiting _ | answered .. | returned .. => True

/-- The snapshot of a handler that has numbered one. -/
def snapshot? : Stage → Option Snapshot
  | arrived | ignored | changed | copied _ => none
  | numbered snapshot | waiting snapshot | answered snapshot _ | returned snapshot _ =>
    some snapshot

/-- The snapshot of a handler with the answer to it. -/
def answer? : Stage → Option (Snapshot × Option DocumentDiagnostics)
  | arrived | ignored | changed | copied _ | numbered _ | waiting _ => none
  | answered snapshot answer | returned snapshot answer => some (snapshot, answer)

/-- The documents that a handler has copied under the lock. -/
def copy? : Stage → Option Documents
  | copied documents => some documents
  | arrived | ignored | changed | numbered _ | waiting _ | answered .. | returned .. => none

theorem snapshot?_of_answer?
    {answer : Option DocumentDiagnostics} (given : stage.answer? = some (snapshot, answer)) :
    stage.snapshot? = some snapshot := by
  cases stage <;> simp_all [answer?, snapshot?]

/-- The handler is at its end. -/
def IsReturned : Stage → Prop
  | ignored | returned .. => True
  | arrived | changed | copied _ | numbered _ | waiting _ | answered .. => False

theorem edited_of_snapshot?
    (taken : stage.snapshot? = some snapshot) : stage.Edited := by
  cases stage <;> simp_all [snapshot?, Edited]

/-- A handler that has an answer and is at its end has returned with it. -/
theorem eq_returned {answer : Option DocumentDiagnostics}
    (returned : stage.IsReturned) (given : stage.answer? = some (snapshot, answer)) :
    stage = .returned snapshot answer := by
  cases stage <;> simp_all [IsReturned, answer?]

/-- A handler that has changed the documents and returned has an answer. -/
theorem answer?_of_isReturned (returned : stage.IsReturned) (edited : stage.Edited) :
    ∃ snapshot answer, stage.answer? = some (snapshot, answer) := by
  cases stage <;> simp_all [IsReturned, Edited, answer?]

end Stage

namespace Exchange

variable {ι : Type} {events : ι → EditorEvent} {state after : Exchange ι}

/-- What is seen of one handler's stage changes with that stage only. -/
theorem update_congr {α : Type} [DecidableEq ι] (view : Stage → α) {stages : ι → Stage}
    {handler : ι}
    (same : view stage = view (stages handler)) (other : ι) :
    view (Function.update stages handler stage other) = view (stages other) := by
  by_cases here : other = handler
  · rw [here, Function.update_self, same]
  · rw [Function.update_of_ne here]

/-- The documents are those after the recorded changes, and every handler that has changed them is
recorded once. -/
structure Recorded (events : ι → EditorEvent) (state : Exchange ι) : Prop where
  nodup : state.changes.Nodup
  edited : ∀ handler, handler ∈ state.changes ↔ (state.stages handler).Edited
  asked : ∀ handler ∈ state.changes, ∃ edit, (events handler).edit? = some edit
  ignored : ∀ handler, state.stages handler = .ignored → (events handler).edit? = none
  documents : state.server.documents = replay events state.changes

theorem recorded_start : Recorded events ({} : Exchange ι) where
  nodup := List.nodup_nil
  edited _ := ⟨fun mem => absurd mem List.not_mem_nil, fun edited => edited.elim⟩
  asked _ mem := absurd mem List.not_mem_nil
  ignored _ stage := by cases stage
  documents := rfl

theorem replay_append (handlers : List ι) {handler : ι} {edit : Edit}
    (asked : (events handler).edit? = some edit) :
    replay events (handlers ++ [handler]) = edit.apply (replay events handlers) := by
  simp [replay, asked]

variable [DecidableEq ι]

/-- A step that leaves the documents as they are. -/
theorem Recorded.keep (recorded : Recorded events state) {handler : ι}
    (stages : after.stages = Function.update state.stages handler stage)
    (edited : (state.stages handler).Edited) (still : stage.Edited)
    (changes : after.changes = state.changes)
    (documents : after.server.documents = state.server.documents) : Recorded events after where
  nodup := by rw [changes]; exact recorded.nodup
  edited other := by
    rw [changes, recorded.edited, stages,
      update_congr Stage.Edited (propext ⟨fun _ => edited, fun _ => still⟩)]
  asked := by rw [changes]; exact recorded.asked
  ignored other := by
    rw [stages]
    by_cases here : other = handler
    · rw [here, Function.update_self]
      rintro rfl
      exact still.elim
    · rw [Function.update_of_ne here]
      exact recorded.ignored other
  documents := by rw [documents, changes]; exact recorded.documents

theorem Recorded.step (recorded : Recorded events state) (step : Step events state after) :
    Recorded events after := by
  cases step with
  | ignore handler stage nothing =>
    refine { recorded with edited := fun other => ?_, ignored := fun other => ?_ }
    · rw [recorded.edited, update_congr Stage.Edited (by rw [stage]; rfl)]
    · dsimp only
      by_cases here : other = handler
      · exact fun _ => here ▸ nothing
      · rw [Function.update_of_ne here]
        exact recorded.ignored other
  | change handler edit stage asked =>
    have fresh : handler ∉ state.changes := by
      rw [recorded.edited, stage]
      exact id
    refine ⟨?_, fun other => ?_, ?_, fun other => ?_, ?_⟩ <;> dsimp only
    · exact List.nodup_append.mpr ⟨recorded.nodup, List.pairwise_singleton _ _, by
        rintro one mem _ same rfl
        exact fresh (List.mem_singleton.mp same ▸ mem)⟩
    · by_cases here : other = handler
      · subst here
        simp [Stage.Edited]
      · simp [here, recorded.edited]
    · intro other mem
      rcases List.mem_append.mp mem with before | here
      · exact recorded.asked other before
      · exact ⟨edit, List.mem_singleton.mp here ▸ asked⟩
    · by_cases here : other = handler
      · rw [here, Function.update_self]
        exact fun stage => by cases stage
      · rw [Function.update_of_ne here]
        exact recorded.ignored other
    · rw [replay_append _ asked, recorded.documents]
  | copy handler stage free =>
    exact recorded.keep rfl (by rw [stage]; trivial) trivial rfl rfl
  | number handler documents stage =>
    exact recorded.keep rfl (by rw [stage]; trivial) trivial rfl rfl
  | enqueue handler snapshot stage =>
    exact recorded.keep rfl (by rw [stage]; trivial) trivial rfl rfl
  | reply handler snapshot answer finished stage =>
    exact recorded.keep rfl (by rw [stage]; trivial) trivial rfl rfl
  | publish handler edit snapshot answer stage asked =>
    exact recorded.keep rfl (by rw [stage]; trivial) trivial rfl rfl
  | dequeue | compare | analyze | deliver => exact { recorded with }

omit [DecidableEq ι]

/-- Documents are those after the first so many changes, among them the changes of some handlers. -/
def Saw (events : ι → EditorEvent) (state : Exchange ι) (documents : Documents)
    (known : ι → Prop) : Prop :=
  ∃ seen, seen <+: state.changes ∧ documents = replay events seen ∧
    ∀ handler, known handler → handler ∈ seen

theorem Saw.congr {documents : Documents} {known others : ι → Prop}
    (saw : Saw events state documents known) (changes : state.changes <+: after.changes)
    (fewer : ∀ handler, others handler → known handler) : Saw events after documents others := by
  obtain ⟨seen, first, same, each⟩ := saw
  exact ⟨seen, first.trans changes, same, fun handler other => each handler (fewer handler other)⟩

/-- Snapshots are numbered one after another, and each holds the changes of those before it. -/
structure Numbered (events : ι → EditorEvent) (state : Exchange ι) : Prop where
  single : ∀ handler documents, (state.stages handler).copy? = some documents →
    state.locked = true ∧
      ∀ other copied, (state.stages other).copy? = some copied → other = handler
  copied : ∀ handler documents, (state.stages handler).copy? = some documents →
    Saw events state documents fun other =>
      other = handler ∨ ∃ snapshot, (state.stages other).snapshot? = some snapshot
  saw : ∀ handler snapshot, (state.stages handler).snapshot? = some snapshot →
    Saw events state snapshot.documents fun other =>
      ∃ earlier, (state.stages other).snapshot? = some earlier ∧ earlier.number ≤ snapshot.number
  bound : ∀ handler snapshot, (state.stages handler).snapshot? = some snapshot →
    0 < snapshot.number ∧ snapshot.number ≤ state.server.worker.taken
  distinct : ∀ handler other snapshot second, (state.stages handler).snapshot? = some snapshot →
    (state.stages other).snapshot? = some second → snapshot.number = second.number →
    handler = other
  newest : 0 < state.server.worker.taken → ∃ handler snapshot,
    (state.stages handler).snapshot? = some snapshot ∧
      snapshot.number = state.server.worker.taken

theorem numbered_start : Numbered events ({} : Exchange ι) where
  single _ _ stage := by cases stage
  copied _ _ stage := by cases stage
  saw _ _ stage := by cases stage
  bound _ _ stage := by cases stage
  distinct _ _ _ _ stage := by cases stage
  newest positive := absurd positive (Nat.lt_irrefl 0)

/-- A step in which no handler copies the documents or numbers a snapshot. -/
theorem Numbered.congr (numbered : Numbered events state)
    (copies : ∀ handler, (after.stages handler).copy? = (state.stages handler).copy?)
    (snapshots : ∀ handler, (after.stages handler).snapshot? = (state.stages handler).snapshot?)
    (changes : state.changes <+: after.changes) (locked : after.locked = state.locked)
    (taken : after.server.worker.taken = state.server.worker.taken) : Numbered events after where
  single handler documents := by
    simp only [copies, locked]
    exact numbered.single handler documents
  copied handler documents stage := by
    rw [copies] at stage
    refine (numbered.copied handler documents stage).congr changes fun other known => ?_
    rwa [snapshots] at known
  saw handler snapshot stage := by
    rw [snapshots] at stage
    refine (numbered.saw handler snapshot stage).congr changes fun other known => ?_
    rwa [snapshots] at known
  bound handler snapshot := by
    rw [snapshots, taken]
    exact numbered.bound handler snapshot
  distinct handler other snapshot second := by
    rw [snapshots, snapshots]
    exact numbered.distinct handler other snapshot second
  newest := by
    simp only [taken, snapshots]
    exact numbered.newest

variable [DecidableEq ι]

/-- A step in which one handler goes on without copying the documents or numbering a snapshot. -/
theorem Numbered.keep (numbered : Numbered events state) {handler : ι}
    (copies : stage.copy? = (state.stages handler).copy?)
    (snapshots : stage.snapshot? = (state.stages handler).snapshot?)
    (stages : after.stages = Function.update state.stages handler stage)
    (changes : state.changes <+: after.changes) (locked : after.locked = state.locked)
    (taken : after.server.worker.taken = state.server.worker.taken) : Numbered events after := by
  refine numbered.congr ?_ ?_ changes locked taken
  · rw [stages]
    exact update_congr Stage.copy? copies
  · rw [stages]
    exact update_congr Stage.snapshot? snapshots

theorem Numbered.copy (numbered : Numbered events state) (recorded : Recorded events state)
    {handler : ι} (stage : state.stages handler = .changed) (free : state.locked = false) :
    Numbered events { state with
      stages := Function.update state.stages handler (.copied state.server.documents)
      locked := true } := by
  have alone : ∀ other documents, (state.stages other).copy? ≠ some documents := by
    intro other documents copied
    have locked := (numbered.single other documents copied).1
    rw [free] at locked
    contradiction
  have snapshots : ∀ other, (Function.update state.stages handler
      (.copied state.server.documents) other).snapshot? = (state.stages other).snapshot? :=
    update_congr Stage.snapshot? (by rw [stage]; rfl)
  have copies : ∀ other documents, (Function.update state.stages handler
      (.copied state.server.documents) other).copy? = some documents →
      other = handler ∧ documents = state.server.documents := by
    intro other documents copied
    by_cases here : other = handler
    · rw [here, Function.update_self] at copied
      exact ⟨here, (Option.some.inj copied).symm⟩
    · rw [Function.update_of_ne here] at copied
      exact absurd copied (alone other documents)
  refine ⟨?_, ?_, ?_, ?_, ?_, ?_⟩ <;> simp only [snapshots]
  · intro other documents copied
    refine ⟨trivial, fun third second copied' => ?_⟩
    exact (copies third second copied').1.trans (copies other documents copied).1.symm
  · intro other documents copied
    obtain ⟨rfl, rfl⟩ := copies other documents copied
    refine ⟨state.changes, List.prefix_refl _, recorded.documents, fun third known => ?_⟩
    rw [recorded.edited]
    rcases known with rfl | ⟨snapshot, taken⟩
    · rw [stage]
      trivial
    · exact Stage.edited_of_snapshot? taken
  · exact fun other snapshot taken => (numbered.saw other snapshot taken).congr (List.prefix_refl _)
      fun _ known => known
  · exact numbered.bound
  · exact numbered.distinct
  · exact numbered.newest

theorem Numbered.number (numbered : Numbered events state) {handler : ι} {documents : Documents}
    (stage : state.stages handler = .copied documents) :
    Numbered events { state with
      server := { state.server with worker := (state.server.worker.take documents).2 }
      stages := Function.update state.stages handler
        (.numbered (state.server.worker.take documents).1)
      locked := false } := by
  have copied : (state.stages handler).copy? = some documents := by rw [stage]; rfl
  have none : (state.stages handler).snapshot? = none := by rw [stage]; rfl
  have single := (numbered.single handler documents copied).2
  have copies : ∀ other, (Function.update state.stages handler
      (.numbered (state.server.worker.take documents).1) other).copy? = Option.none := by
    intro other
    by_cases here : other = handler
    · rw [here, Function.update_self]
      rfl
    · rw [Function.update_of_ne here]
      exact Option.eq_none_iff_forall_ne_some.mpr fun found copied =>
        here (single other found copied)
  have snapshots : ∀ other snapshot, (Function.update state.stages handler
      (.numbered (state.server.worker.take documents).1) other).snapshot? = some snapshot →
      other = handler ∧ snapshot = ⟨state.server.worker.taken + 1, documents⟩ ∨
        other ≠ handler ∧ (state.stages other).snapshot? = some snapshot := by
    intro other snapshot taken
    by_cases here : other = handler
    · rw [here, Function.update_self] at taken
      exact .inl ⟨here, (Option.some.inj taken).symm⟩
    · rw [Function.update_of_ne here] at taken
      exact .inr ⟨here, taken⟩
  refine ⟨?_, ?_, ?_, ?_, ?_, ?_⟩ <;> simp only [copies, reduceCtorEq, false_implies, implies_true]
  · intro other snapshot taken
    rcases snapshots other snapshot taken with ⟨rfl, rfl⟩ | ⟨apart, taken⟩
    · refine (numbered.copied other documents copied).congr (List.prefix_refl _) ?_
      rintro third ⟨earlier, taken', below⟩
      rcases snapshots third earlier taken' with ⟨rfl, rfl⟩ | ⟨_, before⟩
      · exact .inl rfl
      · exact .inr ⟨earlier, before⟩
    · refine (numbered.saw other snapshot taken).congr (List.prefix_refl _) ?_
      rintro third ⟨earlier, taken', below⟩
      have bound := (numbered.bound other snapshot taken).2
      rcases snapshots third earlier taken' with ⟨rfl, rfl⟩ | ⟨_, before⟩
      · dsimp only at below
        omega
      · exact ⟨earlier, before, below⟩
  · intro other snapshot taken
    show 0 < snapshot.number ∧ snapshot.number ≤ state.server.worker.taken + 1
    rcases snapshots other snapshot taken with ⟨rfl, rfl⟩ | ⟨_, before⟩
    · exact ⟨Nat.succ_pos _, Nat.le_refl _⟩
    · have bound := numbered.bound other snapshot before
      exact ⟨bound.1, Nat.le_succ_of_le bound.2⟩
  · intro other third snapshot second taken taken' same
    rcases snapshots other snapshot taken with ⟨rfl, rfl⟩ | ⟨_, before⟩ <;>
      rcases snapshots third second taken' with ⟨rfl, rfl⟩ | ⟨_, before'⟩
    · rfl
    · have bound := (numbered.bound third second before').2
      dsimp only at same
      omega
    · have bound := (numbered.bound other snapshot before).2
      dsimp only at same
      omega
    · exact numbered.distinct other third snapshot second before before' same
  · intro _
    refine ⟨handler, (state.server.worker.take documents).1, ?_, rfl⟩
    rw [Function.update_self]
    rfl

theorem Numbered.step (numbered : Numbered events state) (recorded : Recorded events state)
    (step : Step events state after) : Numbered events after := by
  cases step with
  | copy handler stage free => exact numbered.copy recorded stage free
  | number handler documents stage => exact numbered.number stage
  | change handler edit stage asked =>
    exact numbered.keep (by rw [stage]; rfl) (by rw [stage]; rfl) rfl (List.prefix_append
      _ _) rfl rfl
  | ignore handler stage nothing =>
    exact numbered.keep (by rw [stage]; rfl) (by rw [stage]; rfl) rfl (List.prefix_refl _) rfl rfl
  | enqueue handler snapshot stage =>
    exact numbered.keep (by rw [stage]; rfl) (by rw [stage]; rfl) rfl (List.prefix_refl _) rfl rfl
  | reply handler snapshot answer finished stage =>
    exact numbered.keep (by rw [stage]; rfl) (by rw [stage]; rfl) rfl (List.prefix_refl _) rfl rfl
  | publish handler edit snapshot answer stage asked =>
    exact numbered.keep (by rw [stage]; rfl) (by rw [stage]; rfl) rfl (List.prefix_refl _) rfl rfl
  | dequeue | compare | analyze | deliver =>
    exact numbered.congr (fun _ => rfl) (fun _ => rfl) (List.prefix_refl _) rfl rfl

end Exchange

end TinLang
