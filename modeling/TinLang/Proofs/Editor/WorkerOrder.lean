import Mathlib.Data.List.Nodup
import TinLang.Proofs.Editor.Snapshots

/-!
# The order of analyses

Snapshots may be queued in another order than they were numbered in, and a newer one may be numbered
while the worker is about to analyse an older one. Still the numbers of the analyses that run only
grow, because a snapshot is analysed only if no newer one was numbered when the worker compared; and
when everything submitted was processed, the last one that ran is the latest there is, so the
workspace is that of its documents (`inOrder_of_reaches`).
-/
namespace TinLang

variable {snapshot : Snapshot} {answer : Option DocumentDiagnostics} {stage : Stage}

/-- The snapshot that the worker is busy with. -/
def Activity.snapshots : Activity → List Snapshot
  | idle => []
  | holding snapshot | cleared snapshot | finished snapshot _ => [snapshot]

/-- The snapshot that a handler waits for. -/
def Stage.waited? : Stage → Option Snapshot
  | waiting snapshot => some snapshot
  | arrived | ignored | changed | copied _ | numbered _ | answered .. | returned .. => none

theorem Stage.snapshot?_of_waited?
    (waits : stage.waited? = some snapshot) : stage.snapshot? = some snapshot := by
  cases stage <;> simp_all [waited?, snapshot?]

theorem Stage.waited?_of_answer? {given : Snapshot × Option DocumentDiagnostics}
    (answered : stage.answer? = some given) : stage.waited? = none := by
  cases stage <;> simp_all [waited?, answer?]

namespace Exchange

variable {ι : Type} {events : ι → EditorEvent} {state after : Exchange ι}

/-- The snapshots that were queued and not answered, the next one first. -/
def pending (state : Exchange ι) : List Snapshot :=
  state.activity.snapshots ++ state.server.worker.queue

/-- Every snapshot that a handler waits for is queued or being processed, once. -/
structure Queued (state : Exchange ι) : Prop where
  once : (state.pending.map Snapshot.number).Nodup
  waits : ∀ snapshot, snapshot ∈ state.pending ↔
    ∃ handler, (state.stages handler).waited? = some snapshot

theorem queued_start : Queued ({} : Exchange ι) where
  once := List.nodup_nil
  waits _ := ⟨fun mem => absurd mem List.not_mem_nil, fun ⟨_, stage⟩ => by cases stage⟩

/-- A step that neither queues nor answers a snapshot. -/
theorem Queued.congr (queued : Queued state) (pending : after.pending = state.pending)
    (waits : ∀ handler, (after.stages handler).waited? = (state.stages handler).waited?) :
    Queued after where
  once := by rw [pending]; exact queued.once
  waits snapshot := by
    rw [pending, queued.waits]
    simp only [waits]

variable [DecidableEq ι]

/-- A step of one handler that neither queues nor answers a snapshot. -/
theorem Queued.keep (queued : Queued state) {handler : ι}
    (stages : after.stages = Function.update state.stages handler stage)
    (waits : stage.waited? = (state.stages handler).waited?)
    (pending : after.pending = state.pending) : Queued after := by
  refine queued.congr pending ?_
  rw [stages]
  exact update_congr Stage.waited? waits

/-- A step that queues the snapshot of a handler. -/
theorem Queued.enqueue (queued : Queued state) (numbered : Numbered events state)
    {handler : ι} (stage : state.stages handler = .numbered snapshot)
    (stages : after.stages = Function.update state.stages handler (.waiting snapshot))
    (pending : after.pending = state.pending ++ [snapshot]) : Queued after := by
  have taken : (state.stages handler).snapshot? = some snapshot := by rw [stage]; rfl
  have idle : (state.stages handler).waited? = none := by rw [stage]; rfl
  constructor
  · rw [pending, List.map_append, List.nodup_append]
    refine ⟨queued.once, List.pairwise_singleton _ _, ?_⟩
    rintro one mem _ last same
    obtain ⟨other, inside, rfl⟩ := List.mem_map.mp mem
    obtain ⟨third, waits⟩ := (queued.waits other).mp inside
    rw [List.map_singleton, List.mem_singleton] at last
    have here := numbered.distinct third handler other snapshot (Stage.snapshot?_of_waited? waits)
      taken (same.trans last)
    rw [here, idle] at waits
    contradiction
  · intro other
    rw [pending, List.mem_append, queued.waits, List.mem_singleton, stages]
    constructor
    · rintro (⟨third, waits⟩ | rfl)
      · refine ⟨third, ?_⟩
        rw [Function.update_of_ne ?_]
        · exact waits
        · rintro rfl
          rw [idle] at waits
          contradiction
      · exact ⟨handler, by rw [Function.update_self]; rfl⟩
    · rintro ⟨third, waits⟩
      by_cases here : third = handler
      · rw [here, Function.update_self] at waits
        exact .inr (Option.some.inj waits).symm
      · rw [Function.update_of_ne here] at waits
        exact .inl ⟨third, waits⟩

/-- A step that answers the handler of the first snapshot. -/
theorem Queued.reply (queued : Queued state) (numbered : Numbered events state)
    {handler : ι}
    (stage : state.stages handler = .waiting snapshot)
    (stages : after.stages = Function.update state.stages handler (.answered snapshot answer))
    (pending : state.pending = snapshot :: after.pending) : Queued after := by
  have once := queued.once
  rw [pending, List.map_cons, List.nodup_cons] at once
  have waited : (state.stages handler).waited? = some snapshot := by rw [stage]; rfl
  constructor
  · exact once.2
  · intro other
    have waits := queued.waits other
    rw [pending, List.mem_cons] at waits
    rw [stages]
    constructor
    · intro mem
      obtain ⟨third, found⟩ := waits.mp (.inr mem)
      refine ⟨third, ?_⟩
      rw [Function.update_of_ne ?_]
      · exact found
      · rintro rfl
        rw [waited] at found
        exact once.1 (Option.some.inj found ▸ List.mem_map_of_mem mem)
    · rintro ⟨third, found⟩
      by_cases here : third = handler
      · rw [here, Function.update_self] at found
        contradiction
      · rw [Function.update_of_ne here] at found
        rcases waits.mpr ⟨third, found⟩ with rfl | inside
        · exact absurd (numbered.distinct third handler other other
            (Stage.snapshot?_of_waited? found) (Stage.snapshot?_of_waited? waited) rfl) here
        · exact inside

theorem Queued.step (queued : Queued state) (numbered : Numbered events state)
    (step : Step events state after) : Queued after := by
  cases step with
  | enqueue handler snapshot stage =>
    exact queued.enqueue numbered stage rfl (by simp [pending, Worker.enqueue])
  | reply handler snapshot answer finished stage =>
    exact queued.reply numbered stage rfl (by simp [pending, finished, Activity.snapshots])
  | dequeue snapshot queue idle waits =>
    refine queued.congr ?_ fun _ => rfl
    simp [pending, idle, waits, Activity.snapshots]
  | compare snapshot holding free =>
    refine queued.congr ?_ fun _ => rfl
    simp only [pending, holding]
    split <;> rfl
  | analyze snapshot cleared =>
    refine queued.congr ?_ fun _ => rfl
    simp [pending, cleared, Activity.snapshots]
  | deliver => exact queued.congr rfl fun _ => rfl
  | ignore handler stage nothing => exact queued.keep rfl (by rw [stage]; rfl) rfl
  | change handler edit stage asked => exact queued.keep rfl (by rw [stage]; rfl) rfl
  | copy handler stage free => exact queued.keep rfl (by rw [stage]; rfl) rfl
  | number handler documents stage => exact queued.keep rfl (by rw [stage]; rfl) rfl
  | publish handler edit snapshot answer stage asked =>
    exact queued.keep rfl (by rw [stage]; rfl) rfl

/-- The worker has an answer to a snapshot, or has given it. -/
def Gave (state : Exchange ι) (snapshot : Snapshot) (answer : Option DocumentDiagnostics) :
    Prop :=
  state.activity = .finished snapshot answer ∨
    ∃ handler, (state.stages handler).answer? = some (snapshot, answer)

/-- The workspace after some analyses. -/
def workspaceAfter (ran : List Snapshot) : Workspace :=
  match ran.getLast? with
  | some snapshot => (Workspace.analyze snapshot.documents).1
  | none => {}

/-- Analyses ran in the order of their numbers, and a snapshot was skipped only when there was a
newer one. -/
structure Ordered (state : Exchange ι) : Prop where
  increasing : (state.ran.map Snapshot.number).Pairwise (· < ·)
  gave : ∀ snapshot ∈ state.ran, ∃ answer, state.Gave snapshot answer
  cleared : ∀ snapshot, state.activity = .cleared snapshot →
    ∀ earlier ∈ state.ran, earlier.number < snapshot.number
  answers : ∀ snapshot answer, state.Gave snapshot answer →
    snapshot ∈ state.ran ∧ answer = some (Workspace.analyze snapshot.documents).2 ∨
      snapshot ∉ state.ran ∧ answer = none ∧ snapshot.number < state.server.worker.taken
  workspace : state.server.worker.workspace = workspaceAfter state.ran

omit [DecidableEq ι] in
theorem ordered_start : Ordered ({} : Exchange ι) where
  increasing := .nil
  gave _ mem := absurd mem List.not_mem_nil
  cleared _ activity := by cases activity
  answers _ _ gave := by rcases gave with activity | ⟨_, stage⟩ <;> contradiction
  workspace := rfl

omit [DecidableEq ι] in
/-- A step that concerns no answer and no analysis. -/
theorem Ordered.congr (ordered : Ordered state) (ran : after.ran = state.ran)
    (workspace : after.server.worker.workspace = state.server.worker.workspace)
    (taken : state.server.worker.taken ≤ after.server.worker.taken)
    (gave : ∀ snapshot answer, after.Gave snapshot answer ↔ state.Gave snapshot answer)
    (cleared : ∀ snapshot, after.activity = .cleared snapshot →
      state.activity = .cleared snapshot) : Ordered after where
  increasing := by rw [ran]; exact ordered.increasing
  gave := by
    simp only [ran, gave]
    exact ordered.gave
  cleared snapshot activity := by
    rw [ran]
    exact ordered.cleared snapshot (cleared snapshot activity)
  answers snapshot answer given := by
    rw [ran]
    rcases ordered.answers snapshot answer ((gave snapshot answer).mp given) with found | skipped
    · exact .inl found
    · exact .inr ⟨skipped.1, skipped.2.1, Nat.lt_of_lt_of_le skipped.2.2 taken⟩
  workspace := by rw [workspace, ran]; exact ordered.workspace

/-- A step of one handler that concerns no answer. -/
theorem Ordered.keep (ordered : Ordered state) {handler : ι}
    (stages : after.stages = Function.update state.stages handler stage)
    (answers : stage.answer? = (state.stages handler).answer?)
    (activity : after.activity = state.activity) (ran : after.ran = state.ran)
    (workspace : after.server.worker.workspace = state.server.worker.workspace)
    (taken : state.server.worker.taken ≤ after.server.worker.taken) : Ordered after := by
  refine ordered.congr ran workspace taken (fun snapshot answer => ?_) fun snapshot cleared => ?_
  · simp only [Gave, activity, stages, update_congr Stage.answer? answers]
  · rwa [activity] at cleared

omit [DecidableEq ι] in
/-- The worker is busy with a snapshot that no handler has an answer to. -/
theorem Queued.unanswered (queued : Queued state) (numbered : Numbered events state)
    (busy : snapshot ∈ state.activity.snapshots) {handler : ι}
    {other : Snapshot}
    (given : (state.stages handler).answer? = some (other, answer)) :
    other.number ≠ snapshot.number := by
  intro same
  obtain ⟨waiter, waits⟩ := (queued.waits snapshot).mp (List.mem_append_left _ busy)
  have here := numbered.distinct handler waiter other snapshot (Stage.snapshot?_of_answer? given)
    (Stage.snapshot?_of_waited? waits) same
  rw [← here, Stage.waited?_of_answer? given] at waits
  contradiction

omit [DecidableEq ι] in
/-- What the worker is busy with has a number. -/
theorem Queued.busy_le (queued : Queued state) (numbered : Numbered events state)
    (busy : snapshot ∈ state.activity.snapshots) :
    snapshot.number ≤ state.server.worker.taken := by
  obtain ⟨waiter, waits⟩ := (queued.waits snapshot).mp (List.mem_append_left _ busy)
  exact (numbered.bound waiter snapshot (Stage.snapshot?_of_waited? waits)).2

omit [DecidableEq ι] in
/-- What the worker gave an answer to has a number. -/
theorem Queued.gave_le (queued : Queued state) (numbered : Numbered events state)
    (gave : state.Gave snapshot answer) :
    snapshot.number ≤ state.server.worker.taken := by
  rcases gave with finished | ⟨handler, given⟩
  · exact queued.busy_le numbered (by rw [finished]; exact List.mem_singleton_self _)
  · exact (numbered.bound handler snapshot (Stage.snapshot?_of_answer? given)).2

omit [DecidableEq ι] in
theorem Ordered.compare (ordered : Ordered state) (queued : Queued state)
    (numbered : Numbered events state)
    (holding : state.activity = .holding snapshot) :
    Ordered { state with
      activity := if state.server.worker.isCurrent snapshot then .cleared snapshot
        else .finished snapshot none } := by
  have busy : snapshot ∈ state.activity.snapshots := by
    rw [holding]
    exact List.mem_singleton_self _
  have before : ∀ earlier ∈ state.ran, earlier.number ≠ snapshot.number := by
    intro earlier mem
    obtain ⟨answer, finished | ⟨handler, given⟩⟩ := ordered.gave earlier mem
    · rw [holding] at finished
      contradiction
    · exact queued.unanswered numbered busy given
  split
  · next current =>
    have latest : snapshot.number = state.server.worker.taken := eq_of_beq current
    refine ⟨ordered.increasing, fun earlier mem => ?_, fun other cleared earlier mem => ?_,
      fun other answer gave => ?_, ordered.workspace⟩
    · obtain ⟨answer, finished | given⟩ := ordered.gave earlier mem
      · rw [holding] at finished
        contradiction
      · exact ⟨answer, .inr given⟩
    · obtain rfl := Activity.cleared.inj cleared
      obtain ⟨answer, gave⟩ := ordered.gave earlier mem
      have below := queued.gave_le numbered gave
      have apart := before earlier mem
      omega
    · rcases gave with finished | given
      · contradiction
      · exact ordered.answers other answer (.inr given)
  · next stale =>
    have bound := queued.busy_le numbered busy
    have older : snapshot.number ≠ state.server.worker.taken := fun same =>
      stale (beq_iff_eq.mpr same)
    refine ⟨ordered.increasing, fun earlier mem => ?_, fun other cleared => ?_,
      fun other answer gave => ?_, ordered.workspace⟩
    · obtain ⟨answer, finished | given⟩ := ordered.gave earlier mem
      · rw [holding] at finished
        contradiction
      · exact ⟨answer, .inr given⟩
    · contradiction
    · rcases gave with finished | given
      · obtain ⟨rfl, rfl⟩ := Activity.finished.inj finished
        refine .inr ⟨fun mem => before snapshot mem rfl, rfl, ?_⟩
        dsimp only
        omega
      · exact ordered.answers other answer (.inr given)

omit [DecidableEq ι] in
theorem Ordered.analyze (ordered : Ordered state) (queued : Queued state)
    (numbered : Numbered events state)
    (cleared : state.activity = .cleared snapshot) :
    Ordered { state with
      server := { state.server with
        worker := { state.server.worker with
          workspace := (Workspace.analyze snapshot.documents).1 } }
      activity := .finished snapshot (some (Workspace.analyze snapshot.documents).2)
      ran := state.ran ++ [snapshot] } := by
  have busy : snapshot ∈ state.activity.snapshots := by
    rw [cleared]
    exact List.mem_singleton_self _
  have below := ordered.cleared snapshot cleared
  refine ⟨?_, fun earlier mem => ?_, fun other activity => ?_, fun other answer gave => ?_, ?_⟩
  · rw [List.map_append, List.pairwise_append]
    refine ⟨ordered.increasing, List.pairwise_singleton _ _, ?_⟩
    rintro one mem _ last
    obtain ⟨earlier, inside, rfl⟩ := List.mem_map.mp mem
    rw [List.map_singleton, List.mem_singleton] at last
    rw [last]
    exact below earlier inside
  · rcases List.mem_append.mp mem with inside | last
    · obtain ⟨answer, finished | given⟩ := ordered.gave earlier inside
      · rw [cleared] at finished
        contradiction
      · exact ⟨answer, .inr given⟩
    · exact ⟨_, .inl (by rw [List.mem_singleton.mp last])⟩
  · contradiction
  · rcases gave with finished | ⟨handler, given⟩
    · obtain ⟨rfl, rfl⟩ := Activity.finished.inj finished
      exact .inl ⟨List.mem_append_right _ (List.mem_singleton_self _), rfl⟩
    · have apart := queued.unanswered numbered busy given
      rcases ordered.answers other answer (.inr ⟨handler, given⟩) with found | skipped
      · exact .inl ⟨List.mem_append_left _ found.1, found.2⟩
      · refine .inr ⟨fun mem => ?_, skipped.2⟩
        rcases List.mem_append.mp mem with inside | last
        · exact skipped.1 inside
        · exact apart (by rw [List.mem_singleton.mp last])
  · simp [workspaceAfter]

/-- A step that answers a handler. -/
theorem Ordered.reply (ordered : Ordered state) {handler : ι}
    (finished : state.activity = .finished snapshot answer)
    (stage : state.stages handler = .waiting snapshot)
    (stages : after.stages = Function.update state.stages handler (.answered snapshot answer))
    (activity : after.activity = .idle) (ran : after.ran = state.ran)
    (server : after.server = state.server) : Ordered after := by
  refine ordered.congr ran (by rw [server]) (Nat.le_of_eq (by rw [server])) (fun other found => ?_)
    fun _ cleared => ?_
  · constructor
    · rintro (finished' | ⟨third, given⟩)
      · rw [activity] at finished'
        contradiction
      · rw [stages] at given
        by_cases here : third = handler
        · rw [here, Function.update_self] at given
          obtain ⟨rfl, rfl⟩ := Prod.mk.inj (Option.some.inj given)
          exact .inl finished
        · rw [Function.update_of_ne here] at given
          exact .inr ⟨third, given⟩
    · rintro (finished' | ⟨third, given⟩)
      · obtain ⟨rfl, rfl⟩ := Activity.finished.inj (finished.symm.trans finished')
        exact .inr ⟨handler, by rw [stages, Function.update_self]; rfl⟩
      · refine .inr ⟨third, ?_⟩
        rw [stages, Function.update_of_ne ?_]
        · exact given
        · rintro rfl
          rw [stage] at given
          contradiction
  · rw [activity] at cleared
    contradiction

theorem Ordered.step (ordered : Ordered state) (queued : Queued state)
    (numbered : Numbered events state) (step : Step events state after) : Ordered after := by
  cases step with
  | compare snapshot holding free => exact ordered.compare queued numbered holding
  | analyze snapshot cleared => exact ordered.analyze queued numbered cleared
  | reply handler snapshot answer finished stage =>
    exact ordered.reply finished stage rfl rfl rfl rfl
  | dequeue snapshot queue idle waits =>
    refine ordered.congr rfl rfl (Nat.le_refl _) (fun other answer => ?_) fun _ activity => by
      contradiction
    simp [Gave, idle]
  | deliver => exact ordered.congr rfl rfl (Nat.le_refl _) (fun _ _ => Iff.rfl) fun _ same => same
  | ignore handler stage nothing =>
    exact ordered.keep rfl (by rw [stage]; rfl) rfl rfl rfl (Nat.le_refl _)
  | change handler edit stage asked =>
    exact ordered.keep rfl (by rw [stage]; rfl) rfl rfl rfl (Nat.le_refl _)
  | copy handler stage free =>
    exact ordered.keep rfl (by rw [stage]; rfl) rfl rfl rfl (Nat.le_refl _)
  | number handler documents stage =>
    exact ordered.keep rfl (by rw [stage]; rfl) rfl rfl rfl (Nat.le_succ _)
  | enqueue handler snapshot stage =>
    exact ordered.keep rfl (by rw [stage]; rfl) rfl rfl rfl (Nat.le_refl _)
  | publish handler edit snapshot answer stage asked =>
    exact ordered.keep rfl (by rw [stage]; rfl) rfl rfl rfl (Nat.le_refl _)

/-- All that holds of an exchange at every moment. -/
structure Sound (events : ι → EditorEvent) (state : Exchange ι) : Prop where
  recorded : Recorded events state
  numbered : Numbered events state
  queued : Queued state
  ordered : Ordered state

theorem sound_of_reaches (reached : Reaches events {} state) : Sound events state := by
  induction reached with
  | refl => exact ⟨recorded_start, numbered_start, queued_start, ordered_start⟩
  | tail _ step ih =>
    exact ⟨ih.recorded.step step, ih.numbered.step ih.recorded step, ih.queued.step
      ih.numbered step,
      ih.ordered.step ih.queued ih.numbered step⟩

omit [DecidableEq ι]

/-- Every snapshot that was numbered was queued and answered. -/
def Processed (state : Exchange ι) : Prop :=
  ∀ handler snapshot, (state.stages handler).snapshot? = some snapshot →
    ∃ answer, (state.stages handler).answer? = some (snapshot, answer)

/-- An analysis ran last, with the highest number, and left its workspace; a handler has its answer.
It saw the changes of some handlers, and the others have not numbered a snapshot. -/
structure EndsWith (events : ι → EditorEvent) (state : Exchange ι) (last : Snapshot) : Prop where
  ends : state.ran.getLast? = some last
  highest : ∀ handler snapshot, (state.stages handler).snapshot? = some snapshot →
    snapshot.number ≤ last.number
  answered : ∃ handler, (state.stages handler).answer? =
    some (last, some (Workspace.analyze last.documents).2)
  workspace : state.server.worker.workspace = (Workspace.analyze last.documents).1
  saw : ∃ seen unseen, state.changes = seen ++ unseen ∧ last.documents = replay events seen ∧
    ∀ handler ∈ unseen, (state.stages handler).snapshot? = none

/-- When every snapshot was answered, the latest of them is the one that was analysed last. -/
theorem Sound.endsWith (sound : Sound events state) (processed : state.Processed)
    (positive : 0 < state.server.worker.taken) : ∃ last, EndsWith events state last := by
  obtain ⟨handler, last, taken, newest⟩ := sound.numbered.newest positive
  obtain ⟨answer, given⟩ := processed handler last taken
  obtain ⟨mem, rfl⟩ : last ∈ state.ran ∧ answer = some (Workspace.analyze last.documents).2 := by
    rcases sound.ordered.answers last answer (.inr ⟨handler, given⟩) with found | skipped
    · exact found
    · omega
  have ends : state.ran.getLast? = some last := by
    obtain ⟨before, final, split⟩ : ∃ before final, state.ran = before ++ [final] :=
      ⟨_, _, (List.dropLast_append_getLast (List.ne_nil_of_mem mem)).symm⟩
    have increasing := sound.ordered.increasing
    rw [split, List.map_append, List.pairwise_append] at increasing
    rw [split, List.mem_append, List.mem_singleton] at mem
    rw [split, List.getLast?_concat]
    rcases mem with inside | rfl
    · obtain ⟨found, gave⟩ := sound.ordered.gave final (by simp [split])
      have below := sound.queued.gave_le sound.numbered gave
      have above := increasing.2.2 last.number (List.mem_map_of_mem inside) final.number (by simp)
      omega
    · rfl
  obtain ⟨seen, ⟨unseen, whole⟩, same, each⟩ := sound.numbered.saw handler last taken
  refine ⟨last, ends, fun other snapshot taken => ?_, ⟨handler, given⟩, ?_, seen, unseen,
    whole.symm, same, ?_⟩
  · rw [newest]
    exact (sound.numbered.bound other snapshot taken).2
  · rw [sound.ordered.workspace, workspaceAfter, ends]
  · intro other mem
    refine Option.eq_none_iff_forall_ne_some.mpr fun snapshot taken => ?_
    have bound := (sound.numbered.bound other snapshot taken).2
    have once := sound.recorded.nodup
    rw [← whole, List.nodup_append] at once
    exact once.2.2 other (each other ⟨snapshot, taken, by omega⟩) other mem rfl

/-- The worker never goes back in time. -/
structure InOrder (events : ι → EditorEvent) (state : Exchange ι) : Prop where
  /-- The numbers of the analyses that ran grow. -/
  increasing : (state.ran.map Snapshot.number).Pairwise (· < ·)
  /-- A handler has the answer of the analysis if its snapshot was analysed, and none if it was
  skipped. -/
  answers : ∀ handler snapshot answer, (state.stages handler).answer? = some (snapshot, answer) →
    snapshot ∈ state.ran ∧ answer = some (Workspace.analyze snapshot.documents).2 ∨
      snapshot ∉ state.ran ∧ answer = none
  /-- The documents are those after the changes made so far, each made once. -/
  documents : state.changes.Nodup ∧ state.server.documents = replay events state.changes
  /-- When every snapshot was answered, the latest one was analysed last. -/
  processed : state.Processed → 0 < state.server.worker.taken →
    ∃ last, EndsWith events state last
  /-- When all handlers have returned, and one of them has changed the documents, the last analysis
  saw the changes of all of them, and the workspace is that of the final documents. -/
  returned : (∀ handler, (state.stages handler).IsReturned) →
    (∀ handler, handler ∈ state.changes ↔ (events handler).edit? ≠ none) ∧
      (state.changes ≠ [] → ∃ last, EndsWith events state last ∧
        last.documents = state.server.documents ∧
        state.server.worker.workspace = (Workspace.analyze state.server.documents).1)

theorem Sound.inOrder (sound : Sound events state) : InOrder events state where
  increasing := sound.ordered.increasing
  answers handler snapshot answer given := by
    rcases sound.ordered.answers snapshot answer (.inr ⟨handler, given⟩) with found | skipped
    · exact .inl found
    · exact .inr ⟨skipped.1, skipped.2.1⟩
  documents := ⟨sound.recorded.nodup, sound.recorded.documents⟩
  processed := sound.endsWith
  returned all := by
    refine ⟨fun handler => ⟨fun mem => ?_, fun asked => ?_⟩, fun changed => ?_⟩
    · obtain ⟨edit, same⟩ := sound.recorded.asked handler mem
      rw [same]
      exact Option.some_ne_none edit
    · rw [sound.recorded.edited]
      have returned := all handler
      cases stage : state.stages handler with
      | ignored => exact absurd (sound.recorded.ignored handler stage) asked
      | returned => trivial
      | arrived | changed | copied _ | numbered _ | waiting _ | answered _ _ =>
        rw [stage] at returned
        exact returned.elim
    · have given : ∀ handler ∈ state.changes, ∃ snapshot answer,
          (state.stages handler).answer? = some (snapshot, answer) := fun handler mem =>
        Stage.answer?_of_isReturned (all handler) ((sound.recorded.edited handler).mp mem)
      have processed : state.Processed := by
        intro handler snapshot taken
        obtain ⟨other, answer, given⟩ :=
          Stage.answer?_of_isReturned (all handler) (Stage.edited_of_snapshot? taken)
        rw [Stage.snapshot?_of_answer? given] at taken
        exact ⟨answer, Option.some.inj taken ▸ given⟩
      obtain ⟨handler, mem⟩ := List.exists_mem_of_ne_nil _ changed
      obtain ⟨snapshot, answer, found⟩ := given handler mem
      have bound := sound.numbered.bound handler snapshot (Stage.snapshot?_of_answer? found)
      obtain ⟨last, ends⟩ := sound.endsWith processed (by omega)
      obtain ⟨seen, unseen, whole, same, none⟩ := ends.saw
      have nobody : unseen = [] := by
        refine List.eq_nil_iff_forall_not_mem.mpr fun other inside => ?_
        obtain ⟨_, _, found⟩ := given other (by simp [whole, inside])
        have taken := none other inside
        rw [Stage.snapshot?_of_answer? found] at taken
        contradiction
      have final : last.documents = state.server.documents := by
        rw [sound.recorded.documents, same, whole, nobody, List.append_nil]
      exact ⟨last, ends, final, by rw [ends.workspace, final]⟩

/-- Two documents are opened. -/
def crossing : Bool → EditorEvent
  | false => .opened "one.tin" "fun main() \x7b left; \x7d"
  | true => .opened "two.tin" "fun help() \x7b \x7d"

end Exchange

end TinLang
