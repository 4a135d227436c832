import TinLang.Proofs.Editor.Handling
import TinLang.Proofs.Editor.WorkerOrder

/-!
# What the editor shows in the end

Every notification travels on its own, so a list of an older analysis may arrive after that of a
newer one, and then the editor keeps showing it (`not_converged_stale`). When the lists of every
document arrive in the order of the snapshots they come from, the editor ends with those of the
final documents, however the handlers took turns (`converged_of_inSequence`).
-/
namespace TinLang

variable {answer : Option DocumentDiagnostics} {document : Text} {snapshot : Snapshot}
    {letter : Letter} {edit : Edit}

/-- The snapshot of a handler that has sent its notifications, with the answer to it. -/
def Stage.sent? : Stage → Option (Snapshot × Option DocumentDiagnostics)
  | returned snapshot answer => some (snapshot, answer)
  | arrived | ignored | changed | copied _ | numbered _ | waiting _ | answered .. => none

namespace Exchange

variable {ι : Type} {events : ι → EditorEvent} {state after : Exchange ι}

/-- The editor shows the right thing about every document: for an open one what an analysis of the
final documents finds, and for a closed one nothing. -/
structure Converged (events : ι → EditorEvent) (state : Exchange ι) : Prop where
  opened : ∀ document ∈ state.server.documents.names, ∃ letter,
    state.latest? document = some letter ∧
      letter.notification ∈ state.server.documents.published
  closed : ∀ handler document, (events handler).edit? = some (.erase document) →
    document ∉ state.server.documents.names → ∃ letter,
      state.latest? document = some letter ∧ letter.notification.markers = []

/-- The lists of every document arrived in the order of the snapshots they come from. -/
def InSequence (state : Exchange ι) : Prop :=
  ∀ document, ((state.received.filter fun letter =>
    letter.notification.document == document).map Letter.number).Pairwise (· ≤ ·)

/-- No document was open again when the handler that closed it took its snapshot. -/
def NeverReopened (events : ι → EditorEvent) (state : Exchange ι) : Prop :=
  ∀ handler document snapshot, (events handler).edit? = some (.erase document) →
    (state.stages handler).snapshot? = some snapshot → document ∉ snapshot.documents.names

/-- A handler that has returned has sent a letter. -/
structure Sent (events : ι → EditorEvent) (state : Exchange ι) (letter : Letter) (handler : ι)
    (edit : Edit) (snapshot : Snapshot) (answer : Option DocumentDiagnostics) : Prop where
  stage : state.stages handler = .returned snapshot answer
  asked : (events handler).edit? = some edit
  number : letter.number = snapshot.number
  member : letter.notification ∈ edit.publish (snapshot.documents.notifications answer)

/-- What is on its way or has arrived is what the handlers that have returned have sent. -/
def Posted (events : ι → EditorEvent) (state : Exchange ι) : Prop :=
  ∀ letter, letter ∈ state.flying ∨ letter ∈ state.received ↔
    ∃ handler edit snapshot answer, Sent events state letter handler edit snapshot answer

/-- At the start no letters are there and none were sent. -/
theorem posted_start : Posted events ({} : Exchange ι) := by
  refine fun letter => ⟨fun found => ?_, fun ⟨_, _, _, _, sent⟩ => ?_⟩
  · rcases found with found | found <;> exact absurd found List.not_mem_nil
  · have stage := sent.stage
    contradiction

variable [DecidableEq ι]

/-- A step of one handler that sends nothing. -/
theorem Posted.keep (posted : Posted events state) {handler : ι} {stage : Stage}
    (stages : after.stages = Function.update state.stages handler stage)
    (before : (state.stages handler).sent? = none) (behind : stage.sent? = none)
    (flying : after.flying = state.flying) (received : after.received = state.received) :
    Posted events after := by
  have same : ∀ other snapshot answer, after.stages other = .returned snapshot answer ↔
      state.stages other = .returned snapshot answer := by
    intro other snapshot answer
    rw [stages]
    by_cases here : other = handler
    · rw [here, Function.update_self]
      constructor
      · rintro rfl
        contradiction
      · intro found
        rw [found] at before
        contradiction
    · rw [Function.update_of_ne here]
  intro letter
  rw [flying, received, posted letter]
  constructor
  · rintro ⟨other, edit, snapshot, answer, sent⟩
    exact ⟨other, edit, snapshot, answer, { sent with stage := (same _ _ _).mpr sent.stage }⟩
  · rintro ⟨other, edit, snapshot, answer, sent⟩
    exact ⟨other, edit, snapshot, answer, { sent with stage := (same _ _ _).mp sent.stage }⟩

/-- A step in which a handler sends its letters. -/
theorem Posted.publish (posted : Posted events state) {handler : ι}

    (stage : state.stages handler = .answered snapshot answer)
    (asked : (events handler).edit? = some edit) :
    Posted events { state with
      stages := Function.update state.stages handler (.returned snapshot answer)
      flying := state.flying ++
        (edit.publish (snapshot.documents.notifications answer)).map (Letter.mk snapshot.number)
          } := by
  intro letter
  constructor
  · intro found
    have cases : (letter ∈ state.flying ∨ letter ∈ state.received) ∨
        letter ∈ (edit.publish (snapshot.documents.notifications answer)).map
          (Letter.mk snapshot.number) := by
      rcases found with found | found
      · rcases List.mem_append.mp found with before | new
        · exact .inl (.inl before)
        · exact .inr new
      · exact .inl (.inr found)
    rcases cases with old | new
    · obtain ⟨other, edit', snapshot', answer', sent⟩ := (posted letter).mp old
      refine ⟨other, edit', snapshot', answer', { sent with stage := ?_ }⟩
      dsimp only
      rw [Function.update_of_ne ?_]
      · exact sent.stage
      · rintro rfl
        have returned := sent.stage
        rw [stage] at returned
        contradiction
    · obtain ⟨notification, mem, rfl⟩ := List.mem_map.mp new
      exact ⟨handler, edit, snapshot, answer, Function.update_self _ _ _, asked, rfl, mem⟩
  · rintro ⟨other, edit', snapshot', answer', sent⟩
    by_cases here : other = handler
    · obtain ⟨returned, asked', number, mem⟩ := sent
      dsimp only at returned
      rw [here, Function.update_self] at returned
      obtain ⟨rfl, rfl⟩ := Stage.returned.inj returned
      rw [here, asked] at asked'
      obtain rfl := Option.some.inj asked'
      refine .inl (List.mem_append_right _ (List.mem_map.mpr ⟨letter.notification, mem, ?_⟩))
      rw [← number]
    · have returned := sent.stage
      dsimp only at returned
      rw [Function.update_of_ne here] at returned
      rcases (posted letter).mpr ⟨other, edit', snapshot', answer', { sent with stage := returned }⟩
        with found | found
      · exact .inl (List.mem_append_left _ found)
      · exact .inr found

/-- After a step the letters are still those that the handlers have sent. -/
theorem Posted.step (posted : Posted events state) (step : Step events state after) :
    Posted events after := by
  cases step with
  | publish handler edit snapshot answer stage asked => exact posted.publish stage asked
  | deliver before letter behind flying =>
    intro other
    have found := posted other
    rw [flying] at found
    refine Iff.trans ?_ (found.trans ⟨?_, ?_⟩)
    · simp only [List.mem_append, List.mem_cons, List.not_mem_nil, or_false]
      tauto
    · exact fun ⟨handler, edit, snapshot, answer, sent⟩ =>
        ⟨handler, edit, snapshot, answer, { sent with }⟩
    · exact fun ⟨handler, edit, snapshot, answer, sent⟩ =>
        ⟨handler, edit, snapshot, answer, { sent with }⟩
  | dequeue | compare | analyze =>
    exact fun letter => (posted letter).trans
      ⟨fun ⟨handler, edit, snapshot, answer, sent⟩ =>
        ⟨handler, edit, snapshot, answer, { sent with }⟩,
      fun ⟨handler, edit, snapshot, answer, sent⟩ =>
        ⟨handler, edit, snapshot, answer, { sent with }⟩⟩
  | ignore handler stage nothing => exact posted.keep rfl (by rw [stage]; rfl) rfl rfl rfl
  | change handler edit stage asked => exact posted.keep rfl (by rw [stage]; rfl) rfl rfl rfl
  | copy handler stage free => exact posted.keep rfl (by rw [stage]; rfl) rfl rfl rfl
  | number handler documents stage => exact posted.keep rfl (by rw [stage]; rfl) rfl rfl rfl
  | enqueue handler snapshot stage => exact posted.keep rfl (by rw [stage]; rfl) rfl rfl rfl
  | reply handler snapshot answer finished stage =>
    exact posted.keep rfl (by rw [stage]; rfl) rfl rfl rfl

/-- In a reachable exchange the letters are those that the handlers have sent. -/
theorem posted_of_reaches (reached : Reaches events {} state) : Posted events state := by
  induction reached with
  | refl => exact posted_start
  | tail _ step ih => exact ih.step step

omit [DecidableEq ι]

/-- The event of a handler changes a document. -/
def Touches (events : ι → EditorEvent) (document : Text) (handler : ι) : Prop :=
  ∃ edit, (events handler).edit? = some edit ∧ edit.Concerns document

/-- Handlers that do not touch a document leave it as it is. -/
theorem text?_replay_append (handlers : List ι) {others : List ι}
    (apart : ∀ handler ∈ others, ¬ Touches events document handler) :
    (replay events (handlers ++ others)).text? document =
      (replay events handlers).text? document := by
  unfold replay
  rw [List.filterMap_append, List.foldl_append]
  generalize (handlers.filterMap fun handler => (events handler).edit?).foldl Edit.apply
    [] = documents
  induction others generalizing documents with
  | nil => rfl
  | cons handler others ih =>
    have rest := ih fun other mem => apart other (List.mem_cons_of_mem _ mem)
    cases asked : (events handler).edit? with
    | none =>
      simp only [List.filterMap_cons, asked]
      exact rest documents
    | some edit =>
      simp only [List.filterMap_cons, asked, List.foldl_cons]
      rw [rest]
      refine Edit.text?_apply_of_not_concerns documents fun concerns => ?_
      exact apart handler List.mem_cons_self ⟨edit, asked, concerns⟩

/-- Of the handlers that touch a document, one is the last. -/
theorem exists_last {test : ι → Prop} {handlers : List ι}
    (found : ∃ handler ∈ handlers, test handler) :
    ∃ before handler behind, handlers = before ++ handler :: behind ∧ test handler ∧
      ∀ other ∈ behind, ¬ test other := by
  induction handlers with
  | nil =>
    obtain ⟨_, mem, _⟩ := found
    exact absurd mem List.not_mem_nil
  | cons first handlers ih =>
    by_cases later : ∃ handler ∈ handlers, test handler
    · obtain ⟨before, handler, behind, split, holds, none⟩ := ih later
      exact ⟨first :: before, handler, behind, by rw [split]; rfl, holds, none⟩
    · obtain ⟨handler, mem, holds⟩ := found
      rcases List.mem_cons.mp mem with rfl | inside
      · exact ⟨[], handler, handlers, rfl, holds, fun other mem holds => later ⟨other, mem, holds⟩⟩
      · exact absurd ⟨handler, inside, holds⟩ later

/-- A document is closed when the last handler that touched it closed it. -/
theorem exists_closing (sound : Sound events state) {handler : ι}
    (mem : handler ∈ state.changes) (touches : Touches events document handler)
    (gone : state.server.documents.text? document = none) :
    ∃ before closing behind, state.changes = before ++ closing :: behind ∧
      (events closing).edit? = some (.erase document) ∧
      (∀ other ∈ behind, ¬ Touches events document other) ∧
      (replay events (before ++ [closing])).text? document = none := by
  obtain ⟨before, closing, behind, split, ⟨edit, asked, concerns⟩, none⟩ :=
    exists_last ⟨handler, mem, touches⟩
  have closed : (replay events (before ++ [closing])).text? document = Option.none := by
    rw [sound.recorded.documents, split, List.append_cons, text?_replay_append _ none] at gone
    exact gone
  refine ⟨before, closing, behind, split, ?_, none, closed⟩
  rw [replay_append before asked] at closed
  rw [asked, Edit.eq_erase_of_text?_eq_none concerns closed]

/-- Once a document was closed for good, no snapshot that saw that holds it. -/
theorem not_mem_names_of_closing (sound : Sound events state)
    {before behind seen : List ι} {closing : ι}
    (split : state.changes = before ++ closing :: behind)
    (never : ∀ other ∈ behind, ¬ Touches events document other)
    (closed : (replay events (before ++ [closing])).text? document = none)
    (first : seen <+: state.changes) (saw : closing ∈ seen) :
    document ∉ (replay events seen).names := by
  rw [← Documents.text?_eq_none]
  have once := sound.recorded.nodup
  obtain ⟨unseen, whole⟩ := first
  rw [split, List.append_cons] at whole
  rcases List.append_eq_append_iff.mp whole with ⟨more, same, _⟩ | ⟨more, same, rest⟩
  · -- The snapshot saw no more than this closing, and it did see it.
    rcases List.eq_nil_or_concat more with rfl | ⟨fewer, final, rfl⟩
    · rw [List.append_nil] at same
      rw [← same]
      exact closed
    · rw [List.concat_eq_append, ← List.append_assoc] at same
      obtain ⟨front, _⟩ := List.append_inj' same rfl
      rw [split, List.nodup_append] at once
      exact absurd rfl (once.2.2 closing (by rw [front]; exact List.mem_append_left _ saw) closing
        List.mem_cons_self)
  · rw [same, text?_replay_append]
    · exact closed
    · exact fun other mem => never other (by rw [rest]; exact List.mem_append_left _ mem)

/-- The letters about a document end with one that comes from no older snapshot. -/
theorem InSequence.exists_latest (sequence : state.InSequence)
    (mem : letter ∈ state.received) : ∃ last ∈ state.received,
      state.latest? letter.notification.document = some last ∧
      last.notification.document = letter.notification.document ∧ letter.number ≤ last.number := by
  have ordered := sequence letter.notification.document
  have inside : letter ∈ state.received.filter fun other =>
      other.notification.document == letter.notification.document :=
    List.mem_filter.mpr ⟨mem, beq_self_eq_true _⟩
  obtain ⟨before, last, split⟩ : ∃ before last, (state.received.filter fun other =>
      other.notification.document == letter.notification.document) = before ++ [last] :=
    ⟨_, _, (List.dropLast_append_getLast (List.ne_nil_of_mem inside)).symm⟩
  have found : last ∈ state.received.filter fun other =>
      other.notification.document == letter.notification.document := by simp [split]
  obtain ⟨arrived, same⟩ := List.mem_filter.mp found
  refine ⟨last, arrived, by rw [latest?, split, List.getLast?_concat], eq_of_beq same, ?_⟩
  rw [split, List.mem_append, List.mem_singleton] at inside
  rw [split, List.map_append, List.pairwise_append] at ordered
  rcases inside with inside | rfl
  · exact ordered.2.2 letter.number (List.mem_map_of_mem inside) last.number (by simp)
  · exact Nat.le_refl _

/-- The handler of a letter has a snapshot. -/
theorem Sent.snapshot? {handler : ι}
    (sent : Sent events state letter handler edit snapshot answer) :
    (state.stages handler).snapshot? = some snapshot := by
  rw [sent.stage]
  rfl

/-- The snapshot of a letter has the number of the letter, so it has no more than the last one. -/
theorem EndsWith.number_le {last : Snapshot} (ends : EndsWith events state last)
    {handler : ι}
    (sent : Sent events state letter handler edit snapshot answer) :
    letter.number ≤ last.number := by
  rw [sent.number]
  exact ends.highest handler snapshot sent.snapshot?

/-- About an open document the editor shows what an analysis of the final documents finds. -/
theorem Sound.shows_opened (sound : Sound events state) (posted : Posted events state)
    (delivered : state.flying = []) (sequence : state.InSequence)
    (never : NeverReopened events state)
    (returned : ∀ handler, (state.stages handler).IsReturned)
    (opened : document ∈ state.server.documents.names) : ∃ letter,
      state.latest? document = some letter ∧
        letter.notification ∈ state.server.documents.published := by
  have changed : state.changes ≠ [] := by
    intro none
    rw [sound.recorded.documents, none] at opened
    exact absurd opened List.not_mem_nil
  obtain ⟨last, ends, final, _⟩ := (sound.inOrder.returned returned).2 changed
  rw [← final] at opened ⊢
  obtain ⟨handler, given⟩ := ends.answered
  have stage := Stage.eq_returned (returned handler) given
  have taken := Stage.snapshot?_of_answer? given
  obtain ⟨edit, asked⟩ := sound.recorded.asked handler
    ((sound.recorded.edited handler).mpr (Stage.edited_of_snapshot? taken))
  have other : ∀ notification : Notification, notification.document = document →
      edit ≠ .erase notification.document := by
    rintro notification rfl rfl
    exact never handler _ last asked taken opened
  obtain ⟨notification, found, rfl⟩ := Documents.exists_mem_published opened
  have arrived : ⟨last.number, notification⟩ ∈ state.received := by
    refine ((posted _).mpr ⟨handler, edit, last, _, stage, asked, rfl,
      (Edit.mem_publish_iff (other notification rfl)).mpr found⟩).resolve_left ?_
    rw [delivered]
    exact List.not_mem_nil
  obtain ⟨letter, mem, latest, same, later⟩ := sequence.exists_latest arrived
  refine ⟨letter, latest, ?_⟩
  obtain ⟨handler', edit', snapshot, answer, sent⟩ := (posted letter).mp (.inr mem)
  have number : snapshot.number = last.number := by
    have below := ends.number_le sent
    have equal := sent.number
    dsimp only at later
    omega
  obtain rfl := sound.numbered.distinct handler' handler snapshot last sent.snapshot? taken number
  obtain ⟨rfl, rfl⟩ := Stage.returned.inj (sent.stage.symm.trans stage)
  obtain rfl := Option.some.inj (sent.asked.symm.trans asked)
  exact (Edit.mem_publish_iff (other letter.notification same)).mp sent.member

/-- About a closed document the editor shows nothing. -/
theorem Sound.shows_closed (sound : Sound events state) (posted : Posted events state)
    (delivered : state.flying = []) (sequence : state.InSequence)
    (returned : ∀ handler, (state.stages handler).IsReturned) {handler : ι}
    (asked : (events handler).edit? = some (.erase document))
    (gone : document ∉ state.server.documents.names) : ∃ letter,
      state.latest? document = some letter ∧ letter.notification.markers = [] := by
  have mem : handler ∈ state.changes :=
    ((sound.inOrder.returned returned).1 handler).mpr (by rw [asked]; exact Option.some_ne_none _)
  obtain ⟨before, closing, behind, split, asked, none, closed⟩ :=
    exists_closing sound mem ⟨_, asked, rfl⟩ (Documents.text?_eq_none.mpr gone)
  have inside : closing ∈ state.changes := by simp [split]
  obtain ⟨taken, answer, given⟩ :=
    Stage.answer?_of_isReturned (returned closing) ((sound.recorded.edited closing).mp inside)
  have stage := Stage.eq_returned (returned closing) given
  have arrived : ⟨taken.number, ⟨document, []⟩⟩ ∈ state.received := by
    refine ((posted _).mpr ⟨closing, _, taken, answer, stage, asked, rfl,
      List.mem_append_right _ (List.mem_singleton_self _)⟩).resolve_left ?_
    rw [delivered]
    exact List.not_mem_nil
  obtain ⟨letter, received, latest, same, later⟩ := sequence.exists_latest arrived
  dsimp only at latest same later
  refine ⟨letter, latest, ?_⟩
  obtain ⟨sender, edit, snapshot, answer', sent⟩ := (posted letter).mp (.inr received)
  have number : taken.number ≤ snapshot.number := by
    have equal := sent.number
    omega
  by_cases closes : edit = .erase document
  · have mem := sent.member
    rw [closes] at mem
    rw [Edit.eq_of_mem_publish_erase mem same]
  · exfalso
    have mem := (Edit.mem_publish_iff (by rw [same]; exact closes)).mp sent.member
    obtain ⟨seen, first, documents, each⟩ := sound.numbered.saw sender snapshot sent.snapshot?
    refine not_mem_names_of_closing sound split none closed first
      (each closing ⟨taken, Stage.snapshot?_of_answer? given, number⟩) ?_
    rw [← documents, ← same]
    rcases sound.ordered.answers snapshot answer'
      (.inr ⟨sender, by rw [sent.stage]; rfl⟩) with ⟨_, rfl⟩ | ⟨_, rfl, _⟩
    · exact Documents.mem_names_of_mem_published mem
    · exact absurd mem List.not_mem_nil

/-- What is on its way may arrive in any order. -/
theorem reaches_delivered [DecidableEq ι] (events : ι → EditorEvent) {order : List Letter} :
    ∀ state : Exchange ι, state.flying.Perm order →
      Reaches events state { state with flying := [], received := state.received ++
        order } := by
  induction order with
  | nil =>
    intro state all
    obtain ⟨server, stages, locked, activity, changes, ran, flying, received⟩ := state
    obtain rfl := all.eq_nil
    rw [List.append_nil]
    exact .refl
  | cons letter order tail =>
    intro state all
    obtain ⟨before, behind, split⟩ := List.append_of_mem (all.mem_iff.mpr List.mem_cons_self)
    have rest : (before ++ behind).Perm order :=
      (List.perm_middle.symm.trans (split ▸ all)).cons_inv
    have first : Step events state _ := .deliver before letter behind split
    have others := tail { state with
      flying := before ++ behind, received := state.received ++ [letter] } rest
    dsimp only at others
    rw [List.append_assoc, List.singleton_append] at others
    exact .head first others

/-- A document is opened with a mistake in it, and then the mistake is taken out. -/
def repairing : Bool → EditorEvent
  | false => .opened "one.tin" "fun main() \x7b left; \x7d"
  | true => .changed "one.tin" [.whole "fun main() \x7b \x7d"]

/-- The list that the first of the two events leads to. -/
def faulted : Letter := ⟨1, "one.tin", [⟨⟨⟨0, 13⟩, ⟨0, 17⟩⟩, "undefined: left"⟩]⟩

/-- The list that the second one leads to. -/
def repaired : Letter := ⟨2, "one.tin", []⟩

/-- Handling the two events one after another, while neither list has arrived yet. -/
theorem reaches_repairing : ∃ state, Reaches repairing {} state ∧
    (∀ handler, (state.stages handler).IsReturned) ∧
    state.server.documents = Documents.put [] "one.tin" "fun main() \x7b \x7d" ∧
    state.flying = [faulted, repaired] ∧ state.received = [] := by
  obtain ⟨opened, first, open'⟩ := reaches_handle repairing {} ⟨rfl, rfl, rfl, rfl⟩ false rfl
  obtain ⟨changed, second, change⟩ := reaches_handle repairing opened open'.quiet true
    (open'.others true (by decide))
  refine ⟨changed, first.trans second, fun handler => ?_, ?_, ?_, ?_⟩
  · cases handler with
    | false => rw [change.others false (by decide)]; exact open'.returned
    | true => exact change.returned
  · rw [change.server, open'.server]
    decide
  · rw [change.flying, change.server, open'.flying, open'.server]
    decide +kernel
  · rw [change.received, open'.received]

end Exchange

end TinLang
