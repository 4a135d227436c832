import TinLang.Proofs.Grammar.Rules
import TinLang.Proofs.Parse

/-!
# The grammar comes to an end

Every rule is entered with fewer tokens left than the rule that enters it, or on a lower level:
`Rule.each_lower` goes through the bodies and says so of each call. The tokens that are left and
the level therefore bound how deep the rules go, the depth they are given is never used up
(`Rule.parse_eq_run`), and without any depth the rules have a finite evaluation that yields the
same (`Rule.evaluates`). In particular a source file is read up to the end of its text, whatever
its bytes are.
-/
namespace TinLang.Parse

open Cursor (Passes Fit)

namespace Descent

variable {place : Cursor} {least : Nat} {error : SyntaxError}

variable {α β : Type}

/-- A body that ends when its calls are evaluated from their own bodies, and what it yields. -/
inductive Evaluates : {α : Type} → Descent α → Cursor → Option α → Cursor → Prop where
  | done {α : Type} {result : Option α} {cursor : Cursor} :
    Evaluates (done result) cursor result cursor
  | step {α β : Type} {action : Parse β} {next : Option β → Descent α} {cursor last : Cursor}
    {result : Option α}
    (later : Evaluates (next (action.run.run cursor).1) (action.run.run cursor).2 result last) :
    Evaluates (step action next) cursor result last
  | call {α β : Type} {rule : Rule β} {next : Option β → Descent α} {cursor middle last : Cursor}
    {answer : Option β} {result : Option α} (inner : Evaluates rule.body cursor answer middle)
    (later : Evaluates (next answer) middle result last) :
    Evaluates (call rule next) cursor result last

/-- An evaluated body calls a rule at a cursor. -/
inductive Makes {α β : Type} : Descent α → Cursor → Rule β → Cursor → Prop where
  | here {rule : Rule β} {next : Option β → Descent α} {cursor : Cursor} :
    Makes (call rule next) cursor rule cursor
  | step {γ : Type} {action : Parse γ} {next : Option γ → Descent α} {cursor place : Cursor}
    {called : Rule β}
    (later : Makes (next (action.run.run cursor).1) (action.run.run cursor).2 called place) :
    Makes (step action next) cursor called place
  | call {γ : Type} {rule : Rule γ} {next : Option γ → Descent α} {cursor middle place : Cursor}
    {answer : Option γ} {called : Rule β} (inner : Evaluates rule.body cursor answer middle)
    (later : Makes (next answer) middle called place) : Makes (call rule next) cursor called place

/-- A body is evaluated in one way only. -/
theorem Evaluates.unique {body : Descent α} {cursor first second : Cursor} {one other : Option α}
    (left : Evaluates body cursor one first) (right : Evaluates body cursor other second) :
    one = other ∧ first = second := by
  induction left generalizing second with
  | done =>
    cases right
    exact ⟨rfl, rfl⟩
  | step _ ih =>
    cases right with
    | step later => exact ih later
  | call _ _ inner ih =>
    cases right with
    | call innerRight later =>
      obtain ⟨rfl, rfl⟩ := inner innerRight
      exact ih later

/-- Something holds of every call of a body, where the calls do what the rules do with enough
depth. -/
def Each (holds : {β : Type} → Rule β → Cursor → Prop) {α : Type} : Descent α → Cursor → Prop
  | done _, _ => True
  | step action next, cursor =>
    Each holds (next (action.run.run cursor).1) (action.run.run cursor).2
  | call rule next, cursor =>
    holds rule cursor ∧
      Each holds (next (rule.parse.run.run cursor).1) (rule.parse.run.run cursor).2

section Each

variable {holds other : {β : Type} → Rule β → Cursor → Prop} {body : Descent α} {cursor : Cursor}

theorem Each.mono (each : Each holds body cursor)
    (weaker : ∀ {β : Type} (rule : Rule β) (place : Cursor), holds rule place → other rule place) :
    Each other body cursor := by
  induction body generalizing cursor with
  | done => trivial
  | step _ _ ih => exact ih _ each
  | call rule _ ih => exact ⟨weaker rule cursor each.1, ih _ each.2⟩

/-- A body does the same with another oracle that says the same of its calls. -/
theorem Each.run_congr {oracle : Oracle}
    (same : Each (fun rule place => (oracle rule).run.run place = rule.parse.run.run place) body
      cursor) :
    (body.run oracle).run.run cursor = (body.run Rule.parse).run.run cursor := by
  induction body generalizing cursor with
  | done => rfl
  | step action next ih => exact ih _ same
  | call rule next ih =>
    change ((next ((oracle rule).run.run cursor).1).run oracle).run.run
      ((oracle rule).run.run cursor).2 = _
    rw [same.1]
    exact ih _ same.2

/-- A body whose calls are evaluated to what the rules yield is evaluated to what it yields. -/
theorem Each.evaluates
    (inner : Each (fun rule place =>
      Evaluates rule.body place (rule.parse.run.run place).1 (rule.parse.run.run place).2) body
      cursor) :
    Evaluates body cursor ((body.run Rule.parse).run.run cursor).1
      ((body.run Rule.parse).run.run cursor).2 := by
  induction body generalizing cursor with
  | done => exact .done
  | step action next ih => exact .step (ih _ inner)
  | call rule next ih => exact .call inner.1 (ih _ inner.2)

/-- What holds of every call of a body holds of those that its evaluation makes. -/
theorem Each.makes
    (each : Each (fun rule place => holds rule place ∧
      Evaluates rule.body place (rule.parse.run.run place).1 (rule.parse.run.run place).2) body
      cursor)
    {called : Rule β} (makes : Makes body cursor called place) :
    holds called place := by
  induction makes with
  | here => exact each.1.1
  | step _ ih => exact ih each
  | call inner _ ih =>
    obtain ⟨rfl, rfl⟩ := inner.unique each.1.2
    exact ih each.2

end Each

end Descent

namespace Rule

variable {α β : Type}

/-- The level of a rule. A rule that is entered before a token is passed is on a lower one. -/
def level : {α : Type} → Rule α → Nat
  | _, stars | _, type | _, field | _, sizeof _ | _, binaryFrom _ _ _ | _, selection _ _
  | _, primary | _, initializer | _, constant | _, skipStatement | _, block | _, branch
  | _, struct | _, function | _, global | _, skipDeclaration => 0
  | _, unary | _, members _ | _, params | _, declaration _ => 1
  | _, binary _ | _, declarations _ => 2
  | _, expression => 3
  | _, arguments | _, statement => 4
  | _, statements => 5

/-- A call that a rule makes at a later place, or at the same place on a lower level. -/
def Lower (rule : Rule α) (cursor : Cursor) (called : Rule β) (place : Cursor) : Prop :=
  ∃ tokens, cursor.Passes tokens place ∧ (tokens = [] → called.level < rule.level)

/-- The current token is one with which the rule is entered. -/
def Ready : {α : Type} → Rule α → Cursor → Prop
  | _, branch, cursor => cursor.current.kind = .keyword .ifBranch
  | _, constant, cursor => cursor.current.kind = .keyword .constDecl
  | _, struct, cursor => cursor.current.kind = .keyword .structDecl
  | _, function, cursor => cursor.current.kind = .keyword .funDecl
  | _, global, cursor => cursor.current.kind = .keyword .globalDecl
  | _, declaration _, cursor => cursor.current.kind ≠ .endOfText
  | _, _, _ => True

/-- How many tokens a rule passes at least when it yields a value. -/
def least : {α : Type} → Rule α → Nat
  | _, stars | _, binaryFrom _ _ _ | _, selection _ _ | _, initializer | _, skipStatement
  | _, statements | _, members _ | _, params | _, skipDeclaration | _, declarations _ => 0
  | _, _ => 1

end Rule

section Accounts

variable {α : Type} {cursor : Cursor}

theorem Accounts.passing {step : Parse α} {fewer : Nat} {good : α → List Token → Prop}
    (accounts : Accounts cursor step least good) (enough : fewer ≤ least) :
    Accounts cursor step fewer fun _ _ => True :=
  accounts.mono enough fun _ _ _ => trivial

/-- A rule passes the tokens that it has to, or reports an error. -/
theorem Rule.accounts_parse (rule : Rule α) (ready : rule.Ready cursor) :
    Accounts cursor rule.parse rule.least fun _ _ => True := by
  have deep := enough_depth cursor
  have few := pending_lt_remaining cursor
  cases rule with
  | stars => exact .get ((accounts_stars _).passing (Nat.le_refl 0))
  | type => exact accounts_type.passing (Nat.le_refl 1)
  | field => exact accounts_field.passing (Nat.le_refl 1)
  | sizeof start => exact (accounts_sizeof start).passing (Nat.le_refl 1)
  | expression => exact .get (((exprAccounts _).expression (by omega)).passing (Nat.le_refl 1))
  | binary least => exact .get (((exprAccounts _).binary least (by omega)).passing (Nat.le_refl 1))
  | binaryFrom start least left =>
    exact .get (((exprAccounts _).binaryFrom start least left (by omega)).passing (Nat.le_refl 0))
  | unary => exact .get (((exprAccounts _).unary (by omega)).passing (Nat.le_refl 1))
  | selection start object =>
    exact .get (((exprAccounts _).selection start object (by omega)).passing (Nat.le_refl 0))
  | primary => exact .get (((exprAccounts _).primary (by omega)).passing (Nat.le_refl 1))
  | arguments => exact .get (((exprAccounts _).arguments (by omega)).passing (Nat.le_refl 1))
  | initializer => exact .get ((accounts_initializer (by omega)).passing (Nat.le_refl 0))
  | constant => exact .get ((advances_constant ready (by omega)).1.passing (Nat.le_refl 1))
  | skipStatement => exact .get (accounts_skipStatement _)
  | block => exact .get (((stmtAccounts _).block (by omega)).passing (Nat.le_refl 1))
  | statements => exact .get (((stmtAccounts _).statements (by omega)).passing (Nat.le_refl 0))
  | statement => exact .get (((stmtAccounts _).statement (by omega)).passing (Nat.le_refl 1))
  | branch => exact .get (((stmtAccounts _).branch (by omega) ready).passing (Nat.le_refl 1))
  | members owner => exact .get ((accounts_members owner _ few).passing (Nat.le_refl 0))
  | struct => exact (advances_struct ready).1.passing (Nat.le_refl 1)
  | params => exact .get ((accounts_params _ few).passing (Nat.le_refl 0))
  | function => exact (advances_function ready).1.passing (Nat.le_refl 1)
  | global => exact (advances_global ready).1.passing (Nat.le_refl 1)
  | skipDeclaration => exact .get (accounts_skipDeclaration _)
  | declaration file => exact (accounts_declaration file ready).passing (Nat.le_refl 1)
  | declarations file => exact .get ((accounts_declarations _ file few).passing (Nat.le_refl 0))

end Accounts

/-- What is seen of a reading: the cursors it comes to, and the stretches that count as nodes. A
node runs over tokens that are passed between cursors that are seen. -/
structure View where
  sees : Cursor → Prop
  covers : Extent → Prop
  between {first middle last : Cursor} {taken later : List Token} :
    sees first → first.Fit → first.Passes taken middle → middle.Passes later last → sees last →
      sees middle
  token {cursor : Cursor} : cursor.Fit → sees cursor → cursor.current.kind ≠ .endOfText →
    sees cursor.next → covers ⟨⟨cursor.current.position, cursor.current.stop⟩, true⟩
  node {start cursor : Cursor} {taken : List Token} : start.Fit → sees start →
    start.Passes taken cursor → sees cursor → taken ≠ [] →
      covers ⟨⟨start.current.position, cursor.lastStop⟩, false⟩

namespace View

/-- Everything is seen. -/
def all : View where
  sees _ := True
  covers _ := True
  between _ _ _ _ _ := trivial
  token _ _ _ _ := trivial
  node _ _ _ _ _ := trivial

variable {view : View} {extents others : List Extent} {extent : Extent}

/-- All of some extents are nodes. -/
def Shows (view : View) (extents : List Extent) : Prop := ∀ extent ∈ extents, view.covers extent

theorem Shows.nil : view.Shows [] := fun _ mem => absurd mem List.not_mem_nil

theorem Shows.cons (first : view.covers extent) (later : view.Shows extents) :
    view.Shows (extent :: extents) := List.forall_mem_cons.mpr ⟨first, later⟩

theorem Shows.one (covers : view.covers extent) : view.Shows [extent] := .cons covers .nil

theorem Shows.append (left : view.Shows extents) (right : view.Shows others) :
    view.Shows (extents ++ others) := List.forall_mem_append.mpr ⟨left, right⟩

/-- What runs from a place to where a token was passed later is a node. -/
def Opened (view : View) (place : Position) (cursor : Cursor) : Prop :=
  ∀ taken after, cursor.Passes taken after → view.sees after →
    view.covers ⟨⟨place, after.lastStop⟩, false⟩

theorem Shows.add {file : SourceFile} {decl : Declaration} (inside : view.Shows file.extents)
    (more : view.Shows decl.extents) : view.Shows (file.add decl).extents := by
  intro extent mem
  obtain ⟨other, listed, found⟩ := List.mem_flatMap.mp mem
  rcases List.mem_cons.mp ((file.declarations_add decl).subset listed) with rfl | old
  · exact more extent found
  · exact inside extent (List.mem_flatMap.mpr ⟨other, old, found⟩)

end View

namespace Rule

/-- The nodes in what a rule yields. -/
def extents : {α : Type} → Rule α → α → List Extent
  | _, stars, _ | _, skipStatement, _ | _, skipDeclaration, _ => []
  | _, type, written => [⟨written.span, false⟩]
  | _, field, named => named.extents
  | _, sizeof _, value | _, expression, value | _, binary _, value | _, binaryFrom _ _ _, value
  | _, unary, value | _, selection _ _, value | _, primary, value => value.extents
  | _, arguments, values => Expr.extentsOfAll values
  | _, initializer, value => Expr.extentsOf? value
  | _, constant, declared => declared.extents
  | _, block, body => body.extents
  | _, statements, inner => extentsOfStatements inner
  | _, statement, inner | _, branch, inner => inner.extents
  | _, members _, fields | _, params, fields => fields.flatMap Field.extents
  | _, struct, declared => (Declaration.struct declared).extents
  | _, function, declared => (Declaration.function declared).extents
  | _, global, declared => (Declaration.global declared).extents
  | _, declaration _, file | _, declarations _, file => file.extents

/-- The place that a rule is given is one where a node was opened, and what it is given consists of
nodes. -/
def Given (view : View) : {α : Type} → Rule α → Cursor → Prop
  | _, sizeof place, cursor => view.Opened place cursor
  | _, binaryFrom place _ left, cursor => view.Opened place cursor ∧ view.Shows left.extents
  | _, selection place object, cursor => view.Opened place cursor ∧ view.Shows object.extents
  | _, declaration file, _ | _, declarations file, _ => view.Shows file.extents
  | _, _, _ => True

theorem given_all {α : Type} (rule : Rule α) (cursor : Cursor) : rule.Given .all cursor := by
  cases rule <;> simp [Given, View.Opened, View.Shows, View.all]

end Rule

namespace Descent

variable {α : Type} {view : View} {lower : {β : Type} → Rule β → Cursor → Prop} {good : α → Prop}
  {body : Descent α} {cursor : Cursor}

/-- In a body steps pass tokens and calls are lower, ready and given what they need; what the body
yields is good when the calls yield nodes. -/
def Keeps (view : View) (lower : {β : Type} → Rule β → Cursor → Prop) {α : Type} (good : α → Prop) :
    Descent α → Cursor → Prop
  | done result, _ => ∀ value, result = some value → good value
  | step action next, cursor =>
    (∃ taken, cursor.Passes taken (action.run.run cursor).2) ∧
      (view.sees (action.run.run cursor).2 →
        Keeps view lower good (next (action.run.run cursor).1) (action.run.run cursor).2)
  | call rule next, cursor =>
    (lower rule cursor ∧ rule.Ready cursor ∧ rule.Given view cursor) ∧
      (view.sees (rule.parse.run.run cursor).2 →
        (∀ value, (rule.parse.run.run cursor).1 = some value → view.Shows (rule.extents value)) →
          Keeps view lower good (next (rule.parse.run.run cursor).1) (rule.parse.run.run cursor).2)

theorem Keeps.each (keeps : body.Keeps .all lower good cursor) :
    body.Each (fun called place => lower called place ∧ called.Ready place) cursor := by
  induction body generalizing cursor with
  | done => trivial
  | step _ _ ih => exact ih _ (keeps.2 trivial)
  | call rule _ ih =>
    exact ⟨⟨keeps.1.1, keeps.1.2.1⟩, ih _ (keeps.2 trivial fun _ _ _ _ => trivial)⟩

/-- A body is run by passing tokens. -/
theorem Keeps.passes (keeps : body.Keeps .all lower good cursor) (fit : cursor.Fit) :
    ∃ taken, cursor.Passes taken ((body.run Rule.parse).run.run cursor).2 := by
  induction body generalizing cursor with
  | done => exact ⟨[], .stay⟩
  | step action next ih =>
    obtain ⟨⟨taken, passes⟩, later⟩ := keeps
    obtain ⟨others, further⟩ := ih _ (later trivial) (passes.fit fit)
    exact ⟨_, passes.trans further⟩
  | call rule next ih =>
    obtain ⟨⟨-, ready, -⟩, later⟩ := keeps
    obtain ⟨result, taken, after, run, passes, -⟩ := rule.accounts_parse ready fit
    obtain rfl : (rule.parse.run.run cursor).2 = after := congrArg Prod.snd run
    obtain ⟨others, further⟩ := ih _ (later trivial fun _ _ _ _ => trivial) (passes.fit fit)
    exact ⟨_, passes.trans further⟩

/-- When the calls of a body yield nodes, what it yields is good. -/
theorem Keeps.yields {fine : α → Prop} (calls : ∀ {β : Type} (rule : Rule β) (place : Cursor),
      lower rule place → rule.Ready place → rule.Given view place → place.Fit → view.sees place →
        view.sees (rule.parse.run.run place).2 →
          ∀ value, (rule.parse.run.run place).1 = some value →
          view.Shows (rule.extents value))
    (plain : body.Keeps .all lower fine cursor) (keeps : body.Keeps view lower good cursor)
    (fit : cursor.Fit) (here : view.sees cursor)
    (there : view.sees ((body.run Rule.parse).run.run cursor).2) :
    ∀ value, ((body.run Rule.parse).run.run cursor).1 = some value → good value := by
  induction body generalizing cursor with
  | done => exact keeps
  | step action next ih =>
    obtain ⟨⟨taken, passes⟩, later⟩ := keeps
    obtain ⟨others, further⟩ := (plain.2 trivial).passes (passes.fit fit)
    have seen := view.between here fit passes further there
    exact ih _ (plain.2 trivial) (later seen) (passes.fit fit) seen there
  | call rule next ih =>
    obtain ⟨⟨down, ready, given⟩, later⟩ := keeps
    have plain := plain.2 trivial fun _ _ _ _ => trivial
    obtain ⟨result, taken, after, run, passes, -⟩ := rule.accounts_parse ready fit
    obtain rfl : (rule.parse.run.run cursor).2 = after := congrArg Prod.snd run
    obtain ⟨others, further⟩ := plain.passes (passes.fit fit)
    have seen := view.between here fit passes further there
    have shown := calls rule cursor down ready given fit here seen
    exact ih _ plain (later seen shown) (passes.fit fit) seen there

end Descent

/-- A body keeps to a view below a rule that was entered at a start, when at least a number of
tokens is passed before the body. -/
def Marks (view : View) {α β : Type} (rule : Rule β) (start : Cursor) (passed : Nat)
    (cursor : Cursor) (body : Descent α) (good : α → Prop) : Prop :=
  ∀ taken, start.Passes taken cursor → passed ≤ taken.length → start.Fit → view.sees start →
    view.sees cursor → body.Keeps view (fun called place => rule.Lower start called place) good
      cursor

namespace Marks

open Descent (take enter attempted)

variable {view : View} {α β γ : Type} {rule : Rule γ} {start cursor : Cursor} {passed : Nat}
  {good : β → Prop}

/-- A body may be examined knowing which cursor is seen. -/
theorem intro {body : Descent β} (later : cursor.Fit → view.sees cursor →
    Marks view rule start passed cursor body good) :
    Marks view rule start passed cursor body good :=
  fun taken passes enough fit here there =>
    later (passes.fit fit) there taken passes enough fit here there

theorem mono {body : Descent β} {fewer : Nat} (marks : Marks view rule start fewer cursor body good)
    (within : fewer ≤ passed) : Marks view rule start passed cursor body good :=
  fun taken passes enough => marks taken passes (Nat.le_trans within enough)

theorem pure {value : β} (holds : good value) :
    Marks view rule start passed cursor (pure value) good :=
  fun _ _ _ _ _ _ _ same => Option.some.inj same ▸ holds

theorem current {next : Token → Descent β}
    (later : Marks view rule start passed cursor (next cursor.current) good) :
    Marks view rule start passed cursor (take Parse.current >>= next) good :=
  fun taken passes enough fit here there =>
    ⟨⟨[], .stay⟩, fun _ => later taken passes enough fit here there⟩

theorem get {next : Cursor → Descent β}
    (later : Marks view rule start passed cursor (next cursor) good) :
    Marks view rule start passed cursor (take MonadState.get >>= next) good :=
  fun taken passes enough fit here there =>
    ⟨⟨[], .stay⟩, fun _ => later taken passes enough fit here there⟩

theorem isAt {kind : TokenKind} {next : Bool → Descent β}
    (later : Marks view rule start passed cursor
      (next (decide (cursor.current.kind = kind))) good) :
    Marks view rule start passed cursor (take (Parse.isAt kind) >>= next) good :=
  fun taken passes enough fit here there =>
    ⟨⟨[], .stay⟩, fun _ => later taken passes enough fit here there⟩

theorem problemCount {next : Nat → Descent β}
    (later : Marks view rule start passed cursor (next cursor.problems.size) good) :
    Marks view rule start passed cursor (take Parse.problemCount >>= next) good :=
  fun taken passes enough fit here there =>
    ⟨⟨[], .stay⟩, fun _ => later taken passes enough fit here there⟩

/-- A place from which the rule was entered is open once a token is passed. -/
theorem opens {place : Position} {body : Descent β} (some : place = start.current.position ∧
      0 < passed ∨ view.Opened place start)
    (later : view.Opened place cursor → Marks view rule start passed cursor body good) :
    Marks view rule start passed cursor body good := by
  intro taken passes enough fit here there
  refine later (fun others after further seen => ?_) taken passes enough fit here there
  rcases some with ⟨rfl, some⟩ | opened
  · have whole := passes.trans further
    refine view.node fit here whole seen fun none => ?_
    simp only [List.append_eq_nil_iff] at none
    rw [none.1] at enough
    exact absurd some (Nat.not_lt.mpr enough)
  · exact opened _ after (passes.trans further) seen

/-- The stretch of a node that was opened. -/
theorem span {place : Position} {next : Span → Descent β} (opened : view.Opened place cursor)
    (later : view.covers ⟨⟨place, cursor.lastStop⟩, false⟩ →
      Marks view rule start passed cursor (next ⟨place, cursor.lastStop⟩) good) :
    Marks view rule start passed cursor (take (Parse.spanFrom place) >>= next) good :=
  fun taken passes enough fit here there => ⟨⟨[], .stay⟩, fun _ =>
    later (opened [] cursor .stay there) taken passes enough fit here there⟩

/-- The stretch of a node runs over the tokens passed since the rule was entered. -/
theorem spanFrom {next : Span → Descent β} (some : 0 < passed)
    (later : view.covers ⟨⟨start.current.position, cursor.lastStop⟩, false⟩ →
      Marks view rule start passed cursor (next ⟨start.current.position, cursor.lastStop⟩) good) :
    Marks view rule start passed cursor
      (take (Parse.spanFrom start.current.position) >>= next) good :=
  .opens (.inl ⟨rfl, some⟩) fun opened => .span opened later

/-- A step with which a body ends. -/
theorem take {action : Parse β} {between : β → List Token → Prop}
    (accounts : Accounts cursor action least between)
    (yields : cursor.Fit → view.sees cursor → view.sees (action.run.run cursor).2 →
      ∀ value, (action.run.run cursor).1 = some value → good value) :
    Marks view rule start passed cursor (take action) good := by
  intro taken passes enough fit here there
  obtain ⟨result, others, after, run, further, -⟩ := accounts (passes.fit fit)
  refine ⟨⟨others, ?_⟩, yields (passes.fit fit) there⟩
  rw [run]
  exact further

theorem fail :
    Marks view rule start passed cursor (Descent.take (Parse.fail error)) good :=
  fun _ _ _ _ _ _ => ⟨⟨[], .report error .stay⟩, fun _ => nofun⟩

/-- Nothing is done after a report that yields nothing. -/
theorem fails {next : α → Descent β} :
    Marks view rule start passed cursor (Descent.take (Parse.fail error) >>= next) good :=
  fun _ _ _ _ _ _ => ⟨⟨[], .report error .stay⟩, fun _ => nofun⟩

/-- A step. -/
theorem step {action : Parse α} {next : α → Descent β}
    {between : α → List Token → Prop} (accounts : Accounts cursor action least between)
    (later : ∀ value after, (action.run.run cursor) = (some value, after) →
      Marks view rule start (passed + least) after (next value) good) :
    Marks view rule start passed cursor (Descent.take action >>= next) good := by
  intro taken passes enough fit here there
  obtain ⟨result, others, after, run, further, found⟩ := accounts (passes.fit fit)
  change (∃ taken, cursor.Passes taken (action.run.run cursor).2) ∧ (_ →
    ((Descent.done (action.run.run cursor).1).bind next).Keeps view _ good _)
  rw [run]
  refine ⟨⟨others, further⟩, fun seen => ?_⟩
  cases result with
  | none => exact nofun
  | some value =>
    refine later value after run (taken ++ others) (passes.trans further) ?_ fit here seen
    have passedLater := found.1
    rw [List.length_append]
    omega

theorem advance {next : Unit → Descent β} (inside : cursor.current.kind ≠ .endOfText)
    (later : Marks view rule start (passed + 1) cursor.next (next ()) good) :
    Marks view rule start passed cursor (Descent.take Parse.advance >>= next) good :=
  step (.advance inside) fun _ after run => by
    obtain rfl : cursor.next = after := congrArg Prod.snd run
    exact later

theorem expectSymbol {sign : Symbol} {next : Unit → Descent β}
    (later : ∀ value after, Marks view rule start (passed + 1) after (next value) good) :
    Marks view rule start passed cursor (Descent.take (Parse.expectSymbol sign) >>= next) good :=
  step (.expectSymbol sign) fun value after _ => later value after

theorem expectName {next : Text → Descent β}
    (later : ∀ value after, Marks view rule start (passed + 1) after (next value) good) :
    Marks view rule start passed cursor (Descent.take Parse.expectName >>= next) good :=
  step .expectName fun value after _ => later value after

theorem report {next : Unit → Descent β}
    (later : Marks view rule start passed (cursor.report error) (next ()) good) :
    Marks view rule start passed cursor (Descent.take (modify (·.report error)) >>= next) good := by
  intro taken passes enough fit here there
  have further : cursor.Passes [] (cursor.report error) := .report error .stay
  refine ⟨⟨_, further⟩, later _ (passes.trans further) ?_ fit here⟩
  rwa [List.append_nil]

/-- A literal is the token passed. -/
theorem literal {good : Expr → Prop} {build : Span → Expr}
    (inside : cursor.current.kind ≠ .endOfText)
    (yields : ∀ span, view.covers ⟨span, true⟩ → good (build span)) :
    Marks view rule start passed cursor (Descent.take (Parse.literal build)) good := by
  have accounts : Accounts cursor (Parse.literal build) 1 fun _ _ => True :=
    .current (.bind (.advance inside) fun _ _ _ _ => .spanFrom (.pure fun _ => trivial))
  refine .take accounts fun fit here there value same => ?_
  obtain rfl := Option.some.inj same
  exact yields _ (view.token fit here inside there)

/-- The semicolon after a statement is no part of it. -/
theorem endStatement {statement : Stmt} {good : Stmt → Prop} (holds : good statement) :
    Marks view rule start passed cursor (Descent.take (Parse.endStatement statement)) good :=
  .take (accounts_endStatement statement) fun _ _ _ _ same => Option.some.inj same ▸ holds

/-- A call, and how a body goes on after it. -/
theorem call {called : Rule α} {next : Option α → Descent β}
    {between : α → List Token → Prop} (accounts : Accounts cursor called.parse least between)
    (ready : called.Ready cursor) (given : called.Given view cursor)
    (lower : passed = 0 → called.level < rule.level)
    (later : ∀ answer others after, called.parse.run.run cursor = (answer, after) →
      cursor.Passes others after → (answer = none → cursor.problems.size < after.problems.size) →
        (∀ value, answer = some value →
          least ≤ others.length ∧ view.Shows (called.extents value)) →
            Marks view rule start (passed + others.length) after (next answer) good) :
    Marks view rule start passed cursor (.call called next) good := by
  intro taken passes enough fit here there
  refine ⟨⟨⟨taken, passes, ?_⟩, ready, given⟩, ?_⟩
  · rintro rfl
    exact lower (Nat.le_zero.mp enough)
  obtain ⟨answer, others, after, run, further, found⟩ := accounts (passes.fit fit)
  rw [run]
  intro seen shows
  have enough : passed + others.length ≤ (taken ++ others).length := by
    rw [List.length_append]
    exact Nat.add_le_add_right enough _
  refine later answer others after run further ?_ ?_ _ (passes.trans further) enough fit here seen
  · rintro rfl
    exact found
  · rintro value rfl
    exact ⟨found.1, shows value rfl⟩

/-- A call that passes a known number of tokens. -/
theorem entering {called : Rule α} {next : α → Descent β}
    {between : α → List Token → Prop} (accounts : Accounts cursor called.parse least between)
    (ready : called.Ready cursor) (given : called.Given view cursor)
    (lower : passed = 0 → called.level < rule.level)
    (later : ∀ value after, view.Shows (called.extents value) →
      Marks view rule start (passed + least) after (next value) good) :
    Marks view rule start passed cursor (enter called >>= next) good := by
  refine call accounts ready given lower fun answer others after _ _ _ found => ?_
  cases answer with
  | none => exact fun _ _ _ _ _ _ => nofun
  | some value =>
    obtain ⟨enough, shows⟩ := found value rfl
    exact (later value after shows).mono (Nat.add_le_add_left enough _)

/-- A call. -/
theorem enter {called : Rule α} {next : α → Descent β} (ready : called.Ready cursor)
    (given : called.Given view cursor) (lower : passed = 0 → called.level < rule.level)
    (later : ∀ value after, view.Shows (called.extents value) →
      Marks view rule start (passed + called.least) after (next value) good) :
    Marks view rule start passed cursor (Descent.enter called >>= next) good :=
  entering (called.accounts_parse ready) ready given lower later

/-- A call with which a body ends. -/
theorem last {called : Rule β} (ready : called.Ready cursor) (given : called.Given view cursor)
    (lower : passed = 0 → called.level < rule.level)
    (agree : ∀ value, view.Shows (called.extents value) → good value) :
    Marks view rule start passed cursor (Descent.enter called) good :=
  call (called.accounts_parse ready) ready given lower
    fun _ _ _ _ _ _ found _ _ _ _ _ _ value same =>
    agree value (found value same).2

/-- A call whose value is made into another one. -/
theorem mapped {δ : Type} {called : Rule α} {function : α → δ} {next : δ → Descent β}
    (ready : called.Ready cursor) (given : called.Given view cursor)
    (lower : passed = 0 → called.level < rule.level)
    (later : ∀ value after, view.Shows (called.extents value) →
      Marks view rule start (passed + called.least) after (next (function value)) good) :
    Marks view rule start passed cursor (function <$> Descent.enter called >>= next) good := by
  refine call (called.accounts_parse ready) ready given lower
    fun answer others after _ _ _ found => ?_
  cases answer with
  | none => exact fun _ _ _ _ _ _ => nofun
  | some value =>
    obtain ⟨enough, shows⟩ := found value rfl
    exact (later value after shows).mono (Nat.add_le_add_left enough _)

/-- A call after which a body goes on whatever it yields. -/
theorem attempted {called : Rule α} {next : Option α → Descent β} (ready : called.Ready cursor)
    (given : called.Given view cursor) (lower : passed = 0 → called.level < rule.level)
    (later : ∀ answer after, (∀ value, answer = some value → view.Shows (called.extents value)) →
      Marks view rule start passed after (next answer) good) :
    Marks view rule start passed cursor (Descent.attempted called >>= next) good :=
  call (called.accounts_parse ready) ready given lower fun answer _ after _ _ _ found =>
    (later answer after fun value same => (found value same).2).mono (Nat.le_add_right _ _)

/-- A type after a colon, or none. -/
theorem writtenType {next : Option TypeExpr → Descent β}
    (some : 0 < passed) (later : ∀ type after, view.Shows (TypeExpr.extentOf? type) →
      Marks view rule start passed after (next type) good) :
    Marks view rule start passed cursor
      (Descent.take (isAtSymbol .colon) >>= fun colon => if colon then
        Descent.take Parse.advance >>= fun _ => Option.some <$> Descent.enter .type >>= next
        else Pure.pure none >>= next) good := by
  refine .isAt ?_
  split
  · next here =>
    refine .advance (by rw [of_decide_eq_true here]; simp) ?_
    refine .mapped trivial trivial (by omega) fun type last found => ?_
    exact (later (Option.some type) last found).mono (by omega)
  · exact later none cursor .nil

end Marks

namespace Rule

open Descent (enter)

variable {view : View} {cursor : Cursor}

/-- Given what it needs, the body of a rule goes down and yields nodes. -/
def Marked (view : View) {α : Type} (rule : Rule α) : Prop :=
  ∀ cursor, rule.Ready cursor → rule.Given view cursor →
    Marks view rule cursor 0 cursor rule.body fun value => view.Shows (rule.extents value)

theorem marked_stars : stars.Marked view := by
  refine fun cursor _ _ => .isAt ?_
  split
  · next here =>
    refine .advance (by rw [of_decide_eq_true here]; simp) ?_
    exact .enter trivial trivial (by simp) fun _ _ _ => .pure .nil
  · exact .pure .nil

theorem marked_type : type.Marked view := by
  refine fun cursor _ _ => .current ?_
  split
  · next kind =>
    refine .advance (by rw [kind]; simp) (.enter trivial trivial (by simp) fun pointer last _ => ?_)
    exact .spanFrom (by omega) fun covers => .pure (.one covers)
  · exact .fail

theorem marked_field : field.Marked view := by
  refine fun cursor _ _ => .current (.expectName fun name _ => .expectSymbol fun _ _ => ?_)
  refine .enter trivial trivial (by simp) fun type last found => ?_
  exact .spanFrom (by omega) fun covers => .pure (.cons covers found)

theorem marked_sizeof (place : Position) : (sizeof place).Marked view := by
  refine fun cursor _ given => .expectSymbol fun _ _ => .enter trivial trivial (by simp) ?_
  refine fun type _ found => .expectSymbol fun _ _ => .opens (.inr given) fun opened => ?_
  exact .span opened fun covers => .pure (.cons covers found)

theorem marked_expression : expression.Marked view := by
  refine fun cursor _ _ => .current ?_
  refine .enter trivial trivial (by simp [level]) fun target after left => .isAt ?_
  split
  · next here =>
    refine .advance (by rw [of_decide_eq_true here]; simp) ?_
    refine .enter trivial trivial (by simp) fun value last right => ?_
    exact .spanFrom (by omega) fun covers => .pure (.cons covers (.append left right))
  · exact .pure left

theorem marked_binary (least : Nat) : (binary least).Marked view := by
  refine fun cursor _ _ => .current ?_
  refine .enter trivial trivial (by simp [level]) fun left after found => ?_
  refine .opens (.inl ⟨rfl, by simp [Rule.least]⟩) fun opened => ?_
  exact .last trivial ⟨opened, found⟩ (by simp [Rule.least]) fun _ => id

theorem marked_binaryFrom (place : Position) (least : Nat) (left : Expr) :
    (binaryFrom place least left).Marked view := by
  refine fun cursor _ given => .current ?_
  split
  · next op operator =>
    split
    · exact .pure given.2
    · refine .advance (by rw [kind_of_infixOp? operator]; simp) ?_
      refine .enter trivial trivial (by simp) fun right _ more => ?_
      refine .opens (.inr given.1) fun opened => .span opened fun covers => ?_
      exact .last trivial ⟨opened, .cons covers (.append given.2 more)⟩ (by simp) fun _ => id
  · exact .pure given.2

theorem marked_unary : unary.Marked view := by
  refine fun cursor _ _ => .current ?_
  split
  · next op _ operator =>
    refine .advance (by rw [kind_of_unaryOp? operator]; simp) ?_
    refine .enter trivial trivial (by simp) fun operand _ found => ?_
    exact .spanFrom (by omega) fun covers => .pure (.cons covers found)
  · next op _ operator =>
    refine .advance (by rw [kind_of_stepOp? operator]; simp) ?_
    refine .enter trivial trivial (by simp) fun operand _ found => ?_
    exact .spanFrom (by omega) fun covers => .pure (.cons covers found)
  · refine .enter trivial trivial (by simp [level]) fun value _ found => ?_
    refine .opens (.inl ⟨rfl, by simp [Rule.least]⟩) fun opened => ?_
    exact .last trivial ⟨opened, found⟩ (by simp [Rule.least]) fun _ => id

theorem marked_selection (place : Position) (object : Expr) :
    (selection place object).Marked view := by
  refine fun cursor _ given => .current ?_
  split
  · next kind =>
    refine .advance (by rw [kind]; simp) (.expectName fun mem _ => ?_)
    refine .opens (.inr given.1) fun opened => .span opened fun covers => ?_
    exact .last trivial ⟨opened, .cons covers given.2⟩ (by simp) fun _ => id
  · next kind =>
    refine .advance (by rw [kind]; simp) (.enter trivial trivial (by simp) ?_)
    refine fun index _ more => .expectSymbol fun _ _ => .opens (.inr given.1) fun opened => ?_
    refine .span opened fun covers => .last trivial ⟨opened, ?_⟩ (by simp) fun _ => id
    exact .cons covers (.append given.2 more)
  · split
    · next op operator =>
      refine .advance (by rw [kind_of_stepOp? operator]; simp) ?_
      refine .opens (.inr given.1) fun opened => .span opened fun covers => ?_
      exact .last trivial ⟨opened, .cons covers given.2⟩ (by simp) fun _ => id
    · exact .pure given.2

theorem marks_integer {rule : Rule Expr} {start : Cursor} {passed : Nat}
    (inside : cursor.current.kind ≠ .endOfText) {token : Token} :
    Marks view rule start passed cursor (Descent.take (integer token)) fun value =>
      view.Shows value.extents := by
  unfold integer
  split
  · split
    · exact .literal inside fun _ => .one
    · exact .fail
  · exact .fail

theorem marks_float {rule : Rule Expr} {start : Cursor} {passed : Nat}
    (inside : cursor.current.kind ≠ .endOfText) {token : Token} :
    Marks view rule start passed cursor (Descent.take (float token)) fun value =>
      view.Shows value.extents := by
  unfold float
  split
  · exact .literal inside fun _ => .one
  · exact .fail

theorem marked_primary : primary.Marked view := by
  refine fun cursor _ _ => .current ?_
  simp only
  split
  · next kind => exact marks_integer (by rw [kind]; simp)
  · next kind => exact marks_float (by rw [kind]; simp)
  iterate 5
    next kind => exact .literal (by rw [kind]; simp) fun _ => .one
  · next kind =>
    -- A name is its token, and the opening parenthesis of a call is already behind it.
    have inside : cursor.current.kind ≠ .endOfText := by rw [kind]; simp
    refine .intro fun fit here => .advance inside (.intro fun _ there => .isAt ?_)
    split
    · next here =>
      refine .advance (by rw [of_decide_eq_true here]; simp) ?_
      refine .enter trivial trivial (by simp) fun values _ found => ?_
      exact .spanFrom (by omega) fun covers => .pure (.cons covers found)
    · exact .spanFrom (by omega) fun _ => .pure (.one (view.token fit here inside there))
  · next kind =>
    refine .advance (by rw [kind]; simp) (.enter trivial trivial (by simp) fun inner _ found => ?_)
    exact .expectSymbol fun _ _ => .pure found
  · next kind =>
    refine .advance (by rw [kind]; simp) (.expectSymbol fun _ _ => ?_)
    refine .enter trivial trivial (by simp) fun type _ named => .expectSymbol fun _ _ => ?_
    refine .expectSymbol fun _ _ => .enter trivial trivial (by simp) fun value _ found => ?_
    refine .expectSymbol fun _ _ => .spanFrom (by omega) fun covers => .pure ?_
    exact .cons covers (.append named found)
  · next kind =>
    refine .advance (by rw [kind]; simp) ?_
    refine .opens (.inl ⟨rfl, by omega⟩) fun opened => ?_
    exact .last trivial opened (by simp) fun _ => id
  · exact .fail

theorem marked_arguments : arguments.Marked view := by
  refine fun cursor _ _ => .isAt ?_
  split
  · next here => exact .advance (by rw [of_decide_eq_true here]; simp) (.pure .nil)
  · refine .enter trivial trivial (by simp [level]) fun argument _ first => .isAt ?_
    split
    · exact .enter trivial trivial (by simp [least]) fun others _ more => .pure (.append first more)
    · refine .expectSymbol fun _ _ => ?_
      exact .enter trivial trivial (by simp) fun others _ more => .pure (.append first more)

theorem marked_initializer : initializer.Marked view := by
  refine fun cursor _ _ => .isAt ?_
  split
  · next here =>
    refine .advance (by rw [of_decide_eq_true here]; simp) ?_
    exact .enter trivial trivial (by simp) fun value _ found => .pure found
  · exact .pure .nil

theorem marked_constant : constant.Marked view := by
  intro cursor ready _
  have keyword : cursor.current.kind = .keyword .constDecl := ready
  refine .current (.advance (by rw [keyword]; simp) (.expectName fun name _ => ?_))
  refine .writtenType (by omega) fun type _ named => .expectSymbol fun _ _ => ?_
  refine .enter trivial trivial (by simp) fun value _ found => .expectSymbol fun _ _ => ?_
  exact .spanFrom (by omega) fun covers => .pure (.cons covers (.append named found))

theorem marked_skipStatement : skipStatement.Marked view := by
  refine fun cursor _ _ => .current ?_
  split
  · exact .pure .nil
  · next kind => exact .take (.advance (by rw [kind]; simp)) fun _ _ _ _ _ => .nil
  · exact .pure .nil
  · exact .pure .nil
  · next inside _ _ _ =>
    exact .advance inside (.last trivial trivial (by simp) fun _ => id)

theorem marked_block : block.Marked view := by
  refine fun cursor _ _ => .current (.expectSymbol fun _ _ => ?_)
  refine .enter trivial trivial (by simp) fun inner _ found => ?_
  exact .spanFrom (by omega) fun covers => .pure (.cons covers found)

theorem shows_read {read : Option Stmt} {later : List Stmt}
    (first : ∀ statement, read = some statement → view.Shows statement.extents)
    (more : view.Shows (extentsOfStatements later)) :
    view.Shows (extentsOfStatements (read.toList ++ later)) := by
  cases read with
  | none => exact more
  | some statement => exact .append (first statement rfl) more

/-- After a statement with errors, and at the next one otherwise, the statements go on at a later
place. -/
theorem marks_resumed {start middle : Cursor} {passed : List Token} {read : Option Stmt}
    (passes : start.Passes passed middle)
    (counted : middle.problems.size = start.problems.size → passed ≠ [])
    (moved : start.current.kind = .symbol .leftBrace → passed ≠ [])
    (inside : start.current.kind ≠ .endOfText)
    (closing : start.current.kind ≠ .symbol .rightBrace)
    (first : ∀ statement, read = some statement → view.Shows statement.extents) :
    Marks view statements start (0 + passed.length) middle
      (if start.problems.size < middle.problems.size then
        enter skipStatement >>= fun _ => enter statements >>= fun later =>
          pure (read.toList ++ later)
      else enter statements >>= fun later => pure (read.toList ++ later))
      fun inner => view.Shows (extentsOfStatements inner) := by
  have rose := passes.rose
  have goesOn (count : Nat) (some : 0 < count) (after : Cursor) :
      Marks view statements start count after
        (enter statements >>= fun later => pure (read.toList ++ later))
        fun inner => view.Shows (extentsOfStatements inner) :=
    .enter trivial trivial (by omega) fun later _ more => .pure (shows_read first more)
  split
  · cases passed with
    | nil =>
      have opening : start.current.kind ≠ .symbol .leftBrace := fun same => moved same rfl
      rw [← passes.stays.1] at inside opening closing
      exact .entering (.get (advances_skipStatement _ inside opening closing).1) trivial trivial
        (by simp [level]) fun _ after _ => goesOn _ (by simp) after
    | cons token tokens =>
      exact .enter trivial trivial (by simp) fun _ after _ =>
        goesOn _ (by rw [List.length_cons]; omega) after
  · have some : 0 < passed.length := List.length_pos_iff.mpr (counted (by omega))
    exact goesOn _ (by omega) middle

/-- A statement that is not read has passed its opening brace or leaves something to skip. -/
theorem marked_statements : statements.Marked view := by
  refine fun cursor _ _ => .current ?_
  split
  · next kind => exact .advance (by rw [kind]; simp) (.pure .nil)
  · exact .fail
  · next closing inside =>
    refine .problemCount (.intro fun fit _ => ?_)
    refine .call (statement.accounts_parse trivial) trivial trivial (by simp [level]) ?_
    intro read passed middle run passes reported found
    refine .problemCount (marks_resumed passes ?_ ?_ inside closing fun value same =>
      (found value same).2)
    · rintro clean rfl
      cases read with
      | none => exact Nat.ne_of_gt (reported rfl) clean
      | some value => exact Nat.not_succ_le_zero 0 (found value rfl).1
    · rintro kind rfl
      have deep := enough_depth cursor
      have rules := stmtAccounts (depthFor cursor.remaining)
      have entered : Advances cursor statement.parse fun value tokens =>
        Agrees tokens value.words :=
        .get (rules.entered (by omega) kind)
      have fewer := entered.2 fit
      rw [run] at fewer
      exact Nat.ne_of_lt fewer passes.pending_of_nil

theorem marked_statement : statement.Marked view := by
  refine fun cursor _ _ => .current ?_
  split
  · exact .enter trivial trivial (by simp [level]) fun body _ found => .pure found
  · next kind => exact .last kind trivial (by simp [level]) fun _ => id
  · next kind =>
    refine .advance (by rw [kind]; simp) ?_
    refine .enter trivial trivial (by simp) fun condition _ first => ?_
    refine .enter trivial trivial (by simp) fun body _ more => ?_
    exact .spanFrom (by omega) fun covers => .pure (.cons covers (.append first more))
  · next kind =>
    refine .advance (by rw [kind]; simp) (.spanFrom (by omega) fun covers => ?_)
    exact .endStatement (.one covers)
  · next kind =>
    refine .advance (by rw [kind]; simp) (.spanFrom (by omega) fun covers => ?_)
    exact .endStatement (.one covers)
  · next kind =>
    refine .advance (by rw [kind]; simp) (.isAt ?_)
    split
    · refine .spanFrom (by omega) fun covers => .endStatement ?_
      exact .one covers
    · refine .mapped trivial trivial (by simp) fun value _ found => ?_
      refine .spanFrom (by omega) fun covers => .endStatement ?_
      exact .cons covers found
  · next kind => exact .enter kind trivial (by simp [level]) fun declared _ found => .pure found
  · refine .get ?_
    split
    · refine .enter trivial trivial (by simp [level]) fun field _ named => ?_
      refine .enter trivial trivial (by simp [least]) fun value _ found => ?_
      refine .spanFrom (by simp [least]) fun covers => .endStatement (.cons covers ?_)
      exact .cons (named _ (List.mem_cons_of_mem _ (List.mem_cons_self ..))) found
    · refine .enter trivial trivial (by simp [level]) fun expr _ found => ?_
      refine .spanFrom (by simp [least]) fun covers => .endStatement ?_
      exact .cons covers found

theorem marked_branch : branch.Marked view := by
  intro cursor ready _
  have keyword : cursor.current.kind = .keyword .ifBranch := ready
  refine .current (.advance (by rw [keyword]; simp) ?_)
  refine .enter trivial trivial (by simp) fun condition _ first => ?_
  refine .enter trivial trivial (by simp) fun body _ second => .isAt ?_
  have front := View.Shows.append first second
  split
  · next here =>
    refine .advance (by rw [of_decide_eq_true here]; simp) (.isAt ?_)
    split
    · next chained =>
      have ready : _ = TokenKind.keyword .ifBranch := of_decide_eq_true chained
      refine .enter ready trivial (by simp) fun otherwise _ third => ?_
      exact .spanFrom (by omega) fun covers => .pure (.cons covers (.append front third))
    · refine .mapped trivial trivial (by simp) fun otherwise _ third => ?_
      exact .spanFrom (by omega) fun covers => .pure (.cons covers (.append front third))
  · exact .spanFrom (by omega) fun covers => .pure (.cons covers (.append front .nil))

theorem marked_members (owner : Text) : (members owner).Marked view := by
  refine fun cursor _ _ => .current ?_
  split
  · next kind => exact .advance (by rw [kind]; simp) (.pure .nil)
  · exact .fail
  · refine .enter trivial trivial (by simp [level]) fun mem _ first => .current ?_
    split
    · next kind =>
      refine .advance (by rw [kind]; simp) ?_
      exact .enter trivial trivial (by simp) fun others _ more => .pure (.append first more)
    · next kind =>
      refine .advance (by rw [kind]; simp) ?_
      exact .enter trivial trivial (by simp) fun others _ more => .pure (.append first more)
    · exact .enter trivial trivial (by simp [least]) fun others _ more => .pure (.append first more)
    · exact .fails

theorem marked_struct : struct.Marked view := by
  intro cursor ready _
  have keyword : cursor.current.kind = .keyword .structDecl := ready
  refine .current (.advance (by rw [keyword]; simp) (.expectName fun name _ => ?_))
  refine .expectSymbol fun _ _ => .enter trivial trivial (by simp) fun members _ found => ?_
  exact .spanFrom (by omega) fun covers => .pure (.cons covers found)

theorem marked_params : params.Marked view := by
  refine fun cursor _ _ => .isAt ?_
  split
  · next here => exact .advance (by rw [of_decide_eq_true here]; simp) (.pure .nil)
  · refine .enter trivial trivial (by simp [level]) fun param _ first => .isAt ?_
    split
    · exact .enter trivial trivial (by simp [least]) fun others _ more => .pure (.append first more)
    · refine .expectSymbol fun _ _ => ?_
      exact .enter trivial trivial (by simp) fun others _ more => .pure (.append first more)

theorem marked_function : function.Marked view := by
  intro cursor ready _
  have keyword : cursor.current.kind = .keyword .funDecl := ready
  refine .current (.advance (by rw [keyword]; simp) (.expectName fun name _ => ?_))
  refine .expectSymbol fun _ _ => .enter trivial trivial (by simp) fun params _ first => ?_
  refine .writtenType (by omega) fun result _ named => .spanFrom (by omega) fun covers => ?_
  refine .enter trivial trivial (by simp) fun body _ found => .pure ?_
  exact .append (.append (.cons covers found) first) named

theorem marked_global : global.Marked view := by
  intro cursor ready _
  have keyword : cursor.current.kind = .keyword .globalDecl := ready
  refine .current (.advance (by rw [keyword]; simp) (.expectName fun name _ => ?_))
  refine .expectSymbol fun _ _ => .enter trivial trivial (by simp) fun type _ named => ?_
  refine .enter trivial trivial (by simp) fun value _ found => .expectSymbol fun _ _ => ?_
  exact .spanFrom (by omega) fun covers => .pure (.cons covers (.append named found))

theorem marked_skipDeclaration : skipDeclaration.Marked view := by
  refine fun cursor _ _ => .current ?_
  split
  iterate 5 exact .pure .nil
  next inside _ _ _ _ =>
    exact .advance inside (.last trivial trivial (by simp) fun _ => id)

/-- One declaration, kept when it is read. -/
theorem marks_kept {α : Type} {file : SourceFile} {rule : Rule α} {keep : Option α → SourceFile}
    (build : α → Declaration) (nothing : keep none = file)
    (same : ∀ value, keep (some value) = file.add (build value))
    (agree : ∀ value, rule.extents value = (build value).extents) (ready : rule.Ready cursor)
    (given : rule.Given view cursor) (low : rule.level < 1) (inside : view.Shows file.extents) :
    Marks view (declaration file) cursor 0 cursor
      (Descent.attempted rule >>= fun read => pure (keep read))
      fun file => view.Shows file.extents := by
  refine .attempted ready given (fun _ => low) fun read _ found => .pure ?_
  cases read with
  | none => exact nothing ▸ inside
  | some value =>
    rw [same]
    exact inside.add (agree value ▸ found value rfl)

theorem marked_declaration (file : SourceFile) : (declaration file).Marked view := by
  refine fun cursor ready given => .current ?_
  split
  · next kind =>
    exact marks_kept .struct (by simp) (fun _ => rfl) (fun _ => rfl) kind trivial Nat.one_pos given
  · next kind =>
    exact marks_kept .function (by simp) (fun _ => rfl) (fun _ => rfl) kind trivial
      Nat.one_pos given
  · next kind =>
    exact marks_kept .global (by simp) (fun _ => rfl) (fun _ => rfl) kind trivial Nat.one_pos given
  · next kind =>
    exact marks_kept .constant (by simp) (fun _ => rfl) (fun _ => rfl) kind trivial
      Nat.one_pos given
  · exact .report (.advance ready (.pure given))

theorem marked_declarations (file : SourceFile) : (declarations file).Marked view := by
  refine fun cursor _ given => .isAt ?_
  split
  · exact .pure given
  · next inside =>
    have inside := of_decide_eq_false (Bool.eq_false_iff.mpr inside)
    refine .problemCount (.enter inside given (by simp [level]) fun file _ found => ?_)
    refine .problemCount ?_
    split
    · refine .enter trivial trivial (by simp [least]) fun _ _ _ => ?_
      exact .last trivial found (by simp [least]) fun _ => id
    · exact .last trivial found (by simp [least]) fun _ => id

/-- Every rule goes down and yields nodes. -/
theorem marked {α : Type} (rule : Rule α) : rule.Marked view := by
  cases rule with
  | stars => exact marked_stars
  | type => exact marked_type
  | field => exact marked_field
  | sizeof place => exact marked_sizeof place
  | expression => exact marked_expression
  | binary least => exact marked_binary least
  | binaryFrom place least left => exact marked_binaryFrom place least left
  | unary => exact marked_unary
  | selection place object => exact marked_selection place object
  | primary => exact marked_primary
  | arguments => exact marked_arguments
  | initializer => exact marked_initializer
  | constant => exact marked_constant
  | skipStatement => exact marked_skipStatement
  | block => exact marked_block
  | statements => exact marked_statements
  | statement => exact marked_statement
  | branch => exact marked_branch
  | members owner => exact marked_members owner
  | struct => exact marked_struct
  | params => exact marked_params
  | function => exact marked_function
  | global => exact marked_global
  | skipDeclaration => exact marked_skipDeclaration
  | declaration file => exact marked_declaration file
  | declarations file => exact marked_declarations file

/-- Every call of a body is ready, and goes to a later place or to a lower level. -/
theorem each_lower {α : Type} (rule : Rule α) (fit : cursor.Fit) (ready : rule.Ready cursor) :
    rule.body.Each (fun called place => rule.Lower cursor called place ∧ called.Ready place)
      cursor :=
  (rule.marked cursor ready (rule.given_all cursor) [] .stay (Nat.le_refl 0) fit trivial
    trivial).each

/-- What goes down with every call: first the tokens that are left, then the level. -/
def measure {α : Type} (rule : Rule α) (cursor : Cursor) : Nat := 16 * cursor.pending + rule.level

theorem level_lt {α : Type} (rule : Rule α) : rule.level < 16 := by
  cases rule <;> simp [level]

theorem Lower.fit {α β : Type} {rule : Rule α} {called : Rule β}
    (lower : rule.Lower cursor called place) (fit : cursor.Fit) : place.Fit := by
  obtain ⟨tokens, passes, -⟩ := lower
  exact passes.fit fit

theorem Lower.pending_le {α β : Type} {rule : Rule α} {called : Rule β}
    (lower : rule.Lower cursor called place) (fit : cursor.Fit) :
    place.pending ≤ cursor.pending ∧
      (place.pending = cursor.pending → called.level < rule.level) := by
  obtain ⟨tokens, passes, below⟩ := lower
  have fewer := passes.pending fit.1
  refine ⟨by omega, fun same => below (List.length_eq_zero_iff.mp (by omega))⟩

theorem Lower.measure_lt {α β : Type} {rule : Rule α} {called : Rule β}
    (lower : rule.Lower cursor called place) (fit : cursor.Fit) :
    called.measure place < rule.measure cursor := by
  obtain ⟨fewer, below⟩ := lower.pending_le fit
  have small := called.level_lt
  unfold measure
  by_cases same : place.pending = cursor.pending
  · have levels := below same
    omega
  · omega

/-- The group is of one rule that enters itself. -/
def Group.repeats : Group → Bool
  | .none | .expressions | .statements => false
  | _ => true

/-- The level of the one rule of a group. -/
def Group.level : Group → Nat
  | .members | .params => 1
  | .declarations => 2
  | _ => 0

theorem level_of_repeats {α : Type} {rule : Rule α} (repeats : rule.group.repeats) :
    rule.level = rule.group.level := by
  cases rule <;> first | rfl | cases repeats

/-- The depth or bound that a rule uses up at most. -/
def need {α : Type} (rule : Rule α) (cursor : Cursor) : Nat :=
  if rule.group.repeats then cursor.pending else rule.measure cursor

/-- A call inside a group needs less. -/
theorem Lower.need_lt {α β : Type} {rule : Rule α} {called : Rule β}
    (lower : rule.Lower cursor called place) (fit : cursor.Fit)
    (inside : called.group = rule.group) :
    called.need place < rule.need cursor := by
  unfold need
  rw [inside]
  split
  · next repeats =>
    obtain ⟨fewer, below⟩ := lower.pending_le fit
    have same : called.level = rule.level := by
      rw [level_of_repeats repeats, level_of_repeats (inside ▸ repeats), inside]
    have moved : place.pending ≠ cursor.pending := fun stays => by
      have := below stays
      omega
    omega
  · exact lower.measure_lt fit

theorem run_get {α : Type} {next : Cursor → Parse α} :
    (MonadState.get >>= next).run.run cursor = (next cursor).run.run cursor := rfl

/-- Rules are entered with a depth that they do not use up. -/
theorem parse_eq_within {α : Type} (rule : Rule α) (cursor : Cursor) :
    ∃ depth, rule.need cursor < depth ∧
      rule.parse.run.run cursor = (rule.within depth).run.run cursor := by
  have deep := enough_depth cursor
  have few := pending_lt_remaining cursor
  have small := rule.level_lt
  have measured : rule.measure cursor < depthFor cursor.remaining := by
    unfold measure
    omega
  cases rule with
  | stars | skipStatement | members | params | skipDeclaration | declarations =>
    exact ⟨cursor.remaining, few, run_get⟩
  | initializer | constant =>
    exact ⟨depthFor cursor.remaining + 1, Nat.lt_succ_of_lt measured, run_get⟩
  | type | field | sizeof | struct | function | global | declaration =>
    exact ⟨depthFor cursor.remaining, measured, rfl⟩
  | _ => exact ⟨depthFor cursor.remaining, measured, run_get⟩

/-- A rule with enough depth does what its body does. -/
theorem within_eq_run {α : Type} (rule : Rule α) (fit : cursor.Fit) (ready : rule.Ready cursor)
    {depth : Nat} (deep : rule.need cursor < depth) :
    (rule.within depth).run.run cursor = (rule.body.run parse).run.run cursor := by
  induction measured : rule.measure cursor using Nat.strongRecOn generalizing α cursor depth with
  | ind measure ih =>
    obtain ⟨depth, rfl⟩ : ∃ less, depth = less + 1 := ⟨depth - 1, by omega⟩
    rw [within_succ]
    refine Descent.Each.run_congr ((rule.each_lower fit ready).mono ?_)
    rintro β called place ⟨lower, ready⟩
    have solved {depth : Nat} (deep : called.need place < depth) :
        (called.within depth).run.run place = (called.body.run parse).run.run place :=
      ih _ (measured ▸ lower.measure_lt fit) called (lower.fit fit) ready deep rfl
    unfold handed
    split
    · next inside =>
      have less := lower.need_lt fit inside
      obtain ⟨other, enough, same⟩ := called.parse_eq_within place
      rw [same, solved enough, solved (by omega)]
    · rfl

/-- A rule does what its body does: its depth is not used up. -/
theorem parse_eq_run {α : Type} (rule : Rule α) (fit : cursor.Fit) (ready : rule.Ready cursor) :
    rule.parse.run.run cursor = (rule.body.run parse).run.run cursor := by
  obtain ⟨depth, enough, same⟩ := rule.parse_eq_within cursor
  rw [same, within_eq_run rule fit ready enough]

/-- Without any depth a rule comes to an end, with what it yields when it has one. -/
theorem evaluates {α : Type} (rule : Rule α) (fit : cursor.Fit) (ready : rule.Ready cursor) :
    rule.body.Evaluates cursor (rule.parse.run.run cursor).1 (rule.parse.run.run cursor).2 := by
  induction measured : rule.measure cursor using Nat.strongRecOn generalizing α cursor with
  | ind measure ih =>
    rw [rule.parse_eq_run fit ready]
    refine Descent.Each.evaluates ((rule.each_lower fit ready).mono ?_)
    rintro β called place ⟨lower, ready⟩
    exact ih _ (measured ▸ lower.measure_lt fit) called (lower.fit fit) ready rfl

/-- What a rule yields between cursors that are seen consists of nodes. -/
theorem shows_parse {α : Type} (rule : Rule α) (fit : cursor.Fit) (ready : rule.Ready cursor)
    (given : rule.Given view cursor) (here : view.sees cursor)
    (there : view.sees (rule.parse.run.run cursor).2) :
    ∀ value, (rule.parse.run.run cursor).1 = some value → view.Shows (rule.extents value) := by
  induction measured : rule.measure cursor using Nat.strongRecOn generalizing α cursor with
  | ind measure ih =>
    rw [rule.parse_eq_run fit ready] at there ⊢
    have plain := rule.marked cursor ready (rule.given_all cursor) [] .stay (Nat.le_refl 0) fit
      trivial trivial
    refine Descent.Keeps.yields ?_ plain
      (rule.marked cursor ready given [] .stay (Nat.le_refl 0) fit here here) fit here there
    intro β called place lower ready given placed seen ended
    exact ih _ (measured ▸ lower.measure_lt fit) called placed ready given seen ended rfl

/-- Every call that the evaluation of a rule makes is ready, and goes to a later place or to a lower
level. -/
theorem makes_lower {α β : Type} {rule : Rule α} (fit : cursor.Fit) (ready : rule.Ready cursor)
    {called : Rule β} (makes : rule.body.Makes cursor called place) :
    rule.Lower cursor called place ∧ called.Ready place := by
  have each : rule.body.Each (fun called place =>
      (rule.Lower cursor called place ∧ called.Ready place) ∧ called.body.Evaluates place
        (called.parse.run.run place).1 (called.parse.run.run place).2) cursor :=
    (rule.each_lower fit ready).mono fun called place lower =>
      ⟨lower, called.evaluates (lower.1.fit fit) lower.2⟩
  exact each.makes makes

end Rule

/-- A step yields a value and comes to a cursor as described. -/
def Total {α : Type} (cursor : Cursor) (step : Parse α) (reached : α → Cursor → Prop) : Prop :=
  ∃ value after, step.run.run cursor = (some value, after) ∧ reached value after

section Total

variable {α β : Type} {cursor : Cursor} {reached : α → Cursor → Prop}

theorem Total.pure {value : α} (holds : reached value cursor) :
    Total cursor (pure value) reached := ⟨value, cursor, rfl, holds⟩

theorem Total.get {next : Cursor → Parse α} (later : Total cursor (next cursor) reached) :
    Total cursor (MonadState.get >>= next) reached := later

theorem Total.current {next : Token → Parse α}
    (later : Total cursor (next cursor.current) reached) :
    Total cursor (Parse.current >>= next) reached := later

theorem Total.isAt {kind : TokenKind} {next : Bool → Parse α}
    (later : Total cursor (next (decide (cursor.current.kind = kind))) reached) :
    Total cursor (Parse.isAt kind >>= next) reached := later

theorem Total.problemCount {next : Nat → Parse α}
    (later : Total cursor (next cursor.problems.size) reached) :
    Total cursor (Parse.problemCount >>= next) reached := later

theorem Total.advance {next : Unit → Parse α} (later : Total cursor.next (next ()) reached) :
    Total cursor (Parse.advance >>= next) reached := later

/-- A step that goes on whatever the first one yields. -/
theorem Total.attempt {step : Parse β} {function : Option β → α} :
    Total cursor (Parse.attempt step >>= fun read => Pure.pure (function read)) fun _ _ => True :=
  ⟨_, _, rfl, trivial⟩

/-- One step after another, with fewer tokens left. -/
theorem Total.bind {step : Parse β} {next : β → Parse α}
    {good : β → List Token → Prop} {between : β → Cursor → Prop} (first : Total cursor step between)
    (accounts : Accounts cursor step least good) (fit : cursor.Fit)
    (later : ∀ value tokens after, between value after → cursor.Passes tokens after →
      after.pending + least ≤ cursor.pending → Total after (next value) reached) :
    Total cursor (step >>= next) reached := by
  obtain ⟨value, middle, run, holds⟩ := first
  obtain ⟨result, tokens, after, same, passes, found⟩ := accounts fit
  obtain ⟨rfl, rfl⟩ := Prod.mk.inj (run.symm.trans same)
  have fewer := passes.pending fit.1
  have some := found.1
  obtain ⟨result, last, runLater, holds⟩ := later value tokens middle holds passes (by omega)
  exact ⟨result, last, (run_bind_some run).trans runLater, holds⟩

theorem total_skipDeclaration (bound : Nat) :
    Total cursor (skipDeclaration bound) fun _ _ => True := by
  induction bound generalizing cursor with
  | zero => exact .pure trivial
  | succ bound ih =>
    refine .current ?_
    split
    iterate 5 exact .pure trivial
    exact .advance ih

theorem total_declaration (file : SourceFile) :
    Total cursor (declaration file) fun _ _ => True := by
  refine .current ?_
  split
  · exact .attempt
  · exact .attempt
  · exact .attempt
  · exact .get .attempt
  · exact ⟨_, _, rfl, trivial⟩

/-- The declarations of a file are read up to the end of its text, and keep what each of them keeps
and what stays when tokens are passed. -/
theorem total_declarations {keeps : SourceFile → Cursor → Prop}
    (passing : ∀ file cursor tokens after, keeps file cursor → cursor.Fit →
      cursor.Passes tokens after → keeps file after)
    (adding : ∀ file cursor, keeps file cursor → cursor.Fit → cursor.current.kind ≠ .endOfText →
      Total cursor (declaration file) keeps) (bound : Nat) (file : SourceFile)
        (deep : cursor.pending < bound) (fit : cursor.Fit)
    (kept : keeps file cursor) : Total cursor (declarations bound file)
      fun result after => after.current.kind = .endOfText ∧ keeps result after := by
  induction bound generalizing cursor file with
  | zero => omega
  | succ bound ih =>
    refine .isAt ?_
    split
    · next ended => exact .pure ⟨of_decide_eq_true ended, kept⟩
    · next inside =>
      have inside := of_decide_eq_false (Bool.eq_false_iff.mpr inside)
      have first := adding file cursor kept fit inside
      refine .problemCount (.bind first (accounts_declaration file inside) fit ?_)
      intro result tokens after kept passes fewer
      have fit := passes.fit fit
      refine .problemCount ?_
      split
      · refine .get (.bind (total_skipDeclaration _) (accounts_skipDeclaration _) fit ?_)
        intro _ tokens last _ passes fewer
        exact ih result (by omega) (passes.fit fit) (passing result after tokens last
          kept fit passes)
      · exact ih result (by omega) fit kept

end Total

end TinLang.Parse

namespace TinLang

open Parse (Rule Descent)

/-- Reading a source comes to a rule at a cursor. -/
inductive SourceFile.Enters (name source : Text) : {α : Type} → Rule α → Cursor → Prop
  | start : Enters name source (.declarations ⟨name, source, [], [], [], []⟩)
      (.ofTokens (Scan.tokens source))
  | call {α β : Type} {rule : Rule α} {cursor : Cursor} {called : Rule β} {place : Cursor}
    (entered : Enters name source rule cursor) (makes : rule.body.Makes cursor called place) :
    Enters name source called place

theorem SourceFile.Enters.ready {name source : Text} {α : Type} {rule : Rule α} {cursor : Cursor}
    (enters : Enters name source rule cursor) : cursor.Fit ∧ rule.Ready cursor := by
  induction enters with
  | start => exact ⟨Cursor.fit_ofTokens source, trivial⟩
  | call _ makes ih =>
    obtain ⟨lower, ready⟩ := Rule.makes_lower ih.1 ih.2 makes
    exact ⟨lower.fit ih.1, ready⟩

/-- Reading a source yields a file at the end of its text, which keeps what every declaration
keeps. -/
theorem SourceFile.parse_keeps (name source : Text) {keeps : SourceFile → Cursor → Prop}
    (passing : ∀ file cursor tokens after, keeps file cursor → cursor.Fit →
      cursor.Passes tokens after → keeps file after)
    (adding : ∀ file cursor, keeps file cursor → cursor.Fit → cursor.current.kind ≠ .endOfText →
      Parse.Total cursor (Parse.declaration file) keeps)
    (start : keeps ⟨name, source, [], [], [], []⟩ (.ofTokens (Scan.tokens source))) :
    ∃ file last, (Rule.declarations ⟨name, source, [], [], [], []⟩).parse.run.run
        (.ofTokens (Scan.tokens source)) = (some file, last) ∧ last.current.kind = .endOfText ∧
      keeps file last ∧ parse name source = (file, last.diagnostics name) := by
  have enough := Parse.pending_lt_remaining (.ofTokens (Scan.tokens source))
  obtain ⟨file, last, run, ended, kept⟩ := Parse.total_declarations passing adding _
    ⟨name, source, [], [], [], []⟩ enough (Cursor.fit_ofTokens source) start
  refine ⟨file, last, Rule.run_get.trans run, ended, kept, ?_⟩
  simp only [parse, run]
  rfl

/-- Reading a source is an evaluation that yields a file at the end of the text. -/
theorem SourceFile.parse_evaluates (name source : Text) :
    ∃ file last, (Rule.declarations ⟨name, source, [], [], [], []⟩).body.Evaluates
        (.ofTokens (Scan.tokens source)) (some file) last ∧
      last.current.kind = .endOfText ∧ parse name source = (file, last.diagnostics name) := by
  obtain ⟨file, last, run, ended, -, parsed⟩ := @parse_keeps name source
    (fun _ _ => True) (fun _ _ _ _ _ _ _ => trivial) (fun file _ _ _ _ => Parse.total_declaration
    file) trivial
  have whole := (Rule.declarations ⟨name, source, [], [], [], []⟩).evaluates
    (Cursor.fit_ofTokens source) trivial
  rw [run] at whole
  exact ⟨file, last, whole, ended, parsed⟩

/-- Reading a source ends, and ends at the end of its text. Without any bound the rules have a
finite evaluation, which yields the file and the errors; every rule that is entered on the way has
one as well, which yields what the rule yields, and each call in it has passed a token or goes to a
strictly lower level of the grammar. A list goes on by a call of the same rule, so that each part of
it passes a token. -/
theorem SourceFile.parse_terminates (name source : Text) :
    (∃ file last, (Rule.declarations ⟨name, source, [], [], [], []⟩).body.Evaluates
        (.ofTokens (Scan.tokens source)) (some file) last ∧
      last.current.kind = .endOfText ∧ parse name source = (file, last.diagnostics name)) ∧
    ∀ (α : Type) (rule : Rule α) (cursor : Cursor), Enters name source rule cursor →
      rule.body.Evaluates cursor (rule.parse.run.run cursor).1 (rule.parse.run.run cursor).2 ∧
      ∀ (β : Type) (called : Rule β) (place : Cursor), rule.body.Makes cursor called place →
        rule.Lower cursor called place := by
  refine ⟨parse_evaluates name source, fun α rule cursor enters => ?_⟩
  obtain ⟨fit, ready⟩ := enters.ready
  exact ⟨rule.evaluates fit ready, fun β called place makes =>
    (Rule.makes_lower fit ready makes).1⟩

end TinLang
