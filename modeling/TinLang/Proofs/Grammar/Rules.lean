import TinLang.Proofs.Grammar.Faithful

/-!
# Rules without a bound

The rules of the grammar take a depth or a bound that makes them end. `Rule.body` writes each of
them down without one: a body is steps on the cursor and calls of rules (`Descent`), and a call is
not expanded. What a body does is given by what the calls do, so the rules with enough depth are
its solution (`Descent.run`), and a rule that ends by itself is one that has a finite evaluation
(`Descent.Evaluates`).
-/
namespace TinLang.Parse

/-- A rule of the grammar. -/
inductive Rule : Type → Type where
  | stars : Rule Nat
  | type : Rule TypeExpr
  | field : Rule Field
  | sizeof (start : Position) : Rule Expr
  | expression : Rule Expr
  | binary (least : Nat) : Rule Expr
  | binaryFrom (start : Position) (least : Nat) (left : Expr) : Rule Expr
  | unary : Rule Expr
  | selection (start : Position) (object : Expr) : Rule Expr
  | primary : Rule Expr
  | arguments : Rule (List Expr)
  | initializer : Rule (Option Expr)
  | constant : Rule ConstDecl
  | skipStatement : Rule Unit
  | block : Rule Block
  | statements : Rule (List Stmt)
  | statement : Rule Stmt
  | branch : Rule Stmt
  | members (struct : Text) : Rule (List Field)
  | struct : Rule StructDecl
  | params : Rule (List Field)
  | function : Rule FuncDecl
  | global : Rule GlobalDecl
  | skipDeclaration : Rule Unit
  | declaration (file : SourceFile) : Rule SourceFile
  | declarations (file : SourceFile) : Rule SourceFile

/-- The body of a rule: steps that call no rule, and calls. Either goes on from a value or from
none. -/
inductive Descent (α : Type) : Type 1 where
  | done (result : Option α)
  | step {β : Type} (step : Parse β) (next : Option β → Descent α)
  | call {β : Type} (rule : Rule β) (next : Option β → Descent α)

namespace Descent

variable {α β : Type}

/-- One body after another; nothing is done after a body that yields nothing. -/
def bind : Descent α → (α → Descent β) → Descent β
  | done none, _ => done none
  | done (some value), next => next value
  | step first next, later => step first fun answer => (next answer).bind later
  | call rule next, later => call rule fun answer => (next answer).bind later

instance : Monad Descent where
  pure value := done (some value)
  bind := bind

/-- A step that calls no rule. -/
def take (action : Parse α) : Descent α := step action done

/-- A call of a rule. -/
def enter (rule : Rule α) : Descent α := call rule done

/-- What a rule yields, going on either way. -/
def attempted (rule : Rule α) : Descent (Option α) := call rule fun answer => done (some answer)

end Descent

namespace Rule

open Descent (take enter attempted)

/-- The body of every rule. -/
def body : {α : Type} → Rule α → Descent α
  | _, stars => do
    if ← take (isAtSymbol .star) then
      take advance
      return (← enter stars) + 1
    else return 0
  | _, type => do
    let token ← take current
    if token.kind = .identifier then
      take advance
      let pointer ← enter stars
      return ⟨← take (spanFrom token.position), token.literal, pointer⟩
    else take (fail (.expectedType token))
  | _, field => do
    let start := (← take current).position
    let name ← take expectName
    take (expectSymbol .colon)
    let type ← enter type
    return ⟨← take (spanFrom start), name, type⟩
  | _, sizeof start => do
    take (expectSymbol .leftParen)
    let type ← enter type
    take (expectSymbol .rightParen)
    return .sizeof (← take (spanFrom start)) type
  | _, expression => do
    let start := (← take current).position
    let target ← enter (binary 1)
    if ← take (isAtSymbol .assign) then
      take advance
      let value ← enter expression
      return .assign (← take (spanFrom start)) target value
    else return target
  | _, binary least => do
    let start := (← take current).position
    let left ← enter unary
    enter (binaryFrom start least left)
  | _, binaryFrom start least left => do
    match infixOp? (← take current) with
    | some op =>
      if op.precedence < least then return left
      else
        take advance
        let right ← enter (binary (op.precedence + 1))
        enter (binaryFrom start least (.binary (← take (spanFrom start)) op left right))
    | none => return left
  | _, unary => do
    let token ← take current
    match unaryOp? token, stepOp? token with
    | some op, _ =>
      take advance
      let operand ← enter unary
      return .unary (← take (spanFrom token.position)) op operand
    | none, some op =>
      take advance
      let operand ← enter unary
      return .step (← take (spanFrom token.position)) op true operand
    | none, none =>
      let value ← enter primary
      enter (selection token.position value)
  | _, selection start object => do
    let token ← take current
    match token.kind with
    | .symbol .dot =>
      take advance
      let mem ← take expectName
      enter (selection start (.member (← take (spanFrom start)) object mem))
    | .symbol .leftBracket =>
      take advance
      let index ← enter expression
      take (expectSymbol .rightBracket)
      enter (selection start (.index (← take (spanFrom start)) object index))
    | _ =>
      match stepOp? token with
      | some op =>
        take advance
        enter (selection start (.step (← take (spanFrom start)) op false object))
      | none => return object
  | _, primary => do
    let token ← take current
    let start := token.position
    match token.kind with
    | .integer => take (integer token)
    | .float => take (float token)
    | .string => take (literal (.string · token.literal))
    | .character => take (literal (.character · (characterValue token.literal)))
    | .keyword .trueValue => take (literal (.bool · true))
    | .keyword .falseValue => take (literal (.bool · false))
    | .keyword .nullValue => take (literal .null)
    | .identifier =>
      take advance
      if ← take (isAtSymbol .leftParen) then
        take advance
        let arguments ← enter arguments
        return .call (← take (spanFrom start)) token.literal arguments
      else return .name (← take (spanFrom start)) token.literal
    | .symbol .leftParen =>
      take advance
      let inner ← enter expression
      take (expectSymbol .rightParen)
      return inner
    | .keyword .castTo =>
      take advance
      take (expectSymbol .less)
      let type ← enter type
      take (expectSymbol .greater)
      take (expectSymbol .leftParen)
      let value ← enter expression
      take (expectSymbol .rightParen)
      return .cast (← take (spanFrom start)) type value
    | .keyword .sizeofType =>
      take advance
      enter (sizeof start)
    | _ => take (fail (.unexpectedInExpression token))
  | _, arguments => do
    if ← take (isAtSymbol .rightParen) then
      take advance
      return []
    else
      let argument ← enter expression
      unless ← take (isAtSymbol .rightParen) do take (expectSymbol .comma)
      return argument :: (← enter arguments)
  | _, initializer => do
    if ← take (isAtSymbol .assign) then
      take advance
      return some (← enter expression)
    else return none
  | _, constant => do
    let start := (← take current).position
    take advance
    let name ← take expectName
    let type ← if ← take (isAtSymbol .colon) then
        take advance
        some <$> enter type
      else pure none
    take (expectSymbol .assign)
    let value ← enter expression
    take (expectSymbol .semicolon)
    return ⟨← take (spanFrom start), name, type, value⟩
  | _, skipStatement => do
    match (← take current).kind with
    | .endOfText => return ()
    | .symbol .semicolon => take advance
    | .symbol .rightBrace | .symbol .leftBrace => return ()
    | _ =>
      take advance
      enter skipStatement
  | _, block => do
    let start := (← take current).position
    take (expectSymbol .leftBrace)
    let statements ← enter statements
    return .mk (← take (spanFrom start)) statements
  | _, statements => do
    let token ← take current
    match token.kind with
    | .symbol .rightBrace =>
      take advance
      return []
    | .endOfText => take (fail .unfinishedBlock)
    | _ =>
      let before ← take problemCount
      let read ← attempted statement
      if before < (← take problemCount) then enter skipStatement
      let later ← enter statements
      return read.toList ++ later
  | _, statement => do
    let token ← take current
    let start := token.position
    match token.kind with
    | .symbol .leftBrace => return .block (← enter block)
    | .keyword .ifBranch => enter branch
    | .keyword .whileLoop =>
      take advance
      let condition ← enter expression
      let body ← enter block
      return .loop (← take (spanFrom start)) condition body
    | .keyword .breakLoop =>
      take advance
      take (endStatement (.leave (← take (spanFrom start))))
    | .keyword .continueLoop =>
      take advance
      take (endStatement (.again (← take (spanFrom start))))
    | .keyword .returnValue =>
      take advance
      let value ← if ← take (isAtSymbol .semicolon) then pure none
        else some <$> enter expression
      take (endStatement (.result (← take (spanFrom start)) value))
    | .keyword .constDecl => return .constant (← enter constant)
    | _ =>
      if token.kind = .identifier ∧ (← take get).following.kind = .symbol .colon then
        let field ← enter field
        let value ← enter initializer
        take (endStatement (.declare (← take (spanFrom start)) field.name field.type value))
      else
        let expr ← enter expression
        take (endStatement (.evaluate (← take (spanFrom start)) expr))
  | _, branch => do
    let start := (← take current).position
    take advance
    let condition ← enter expression
    let body ← enter block
    if ← take (isAt (.keyword .elseBranch)) then
      take advance
      let otherwise ← if ← take (isAt (.keyword .ifBranch)) then enter branch
        else .block <$> enter block
      return .branch (← take (spanFrom start)) condition body (some otherwise)
    else return .branch (← take (spanFrom start)) condition body none
  | _, members owner => do
    let token ← take current
    match token.kind with
    | .symbol .rightBrace =>
      take advance
      return []
    | .endOfText => take (fail (.unfinishedStruct owner))
    | _ =>
      let mem ← enter field
      let token ← take current
      match token.kind with
      | .symbol .comma | .symbol .semicolon => take advance
      | .symbol .rightBrace => pure ()
      | _ => take (fail (.unseparatedMember mem.name token))
      return mem :: (← enter (members owner))
  | _, struct => do
    let start := (← take current).position
    take advance
    let name ← take expectName
    take (expectSymbol .leftBrace)
    let members ← enter (members name)
    return ⟨← take (spanFrom start), name, members⟩
  | _, params => do
    if ← take (isAtSymbol .rightParen) then
      take advance
      return []
    else
      let param ← enter field
      unless ← take (isAtSymbol .rightParen) do take (expectSymbol .comma)
      return param :: (← enter params)
  | _, function => do
    let start := (← take current).position
    take advance
    let name ← take expectName
    take (expectSymbol .leftParen)
    let params ← enter params
    let result ← if ← take (isAtSymbol .colon) then
        take advance
        some <$> enter type
      else pure none
    let span ← take (spanFrom start)
    let body ← enter block
    return ⟨span, name, params, result, body⟩
  | _, global => do
    let start := (← take current).position
    take advance
    let name ← take expectName
    take (expectSymbol .colon)
    let type ← enter type
    let value ← enter initializer
    take (expectSymbol .semicolon)
    return ⟨← take (spanFrom start), name, type, value⟩
  | _, skipDeclaration => do
    match (← take current).kind with
    | .endOfText => return ()
    | .keyword .structDecl | .keyword .funDecl | .keyword .globalDecl | .keyword .constDecl =>
      return ()
    | _ =>
      take advance
      enter skipDeclaration
  | _, declaration file => do
    let token ← take current
    match token.kind with
    | .keyword .structDecl =>
      let read ← attempted struct
      return { file with structs := file.structs ++ read.toList }
    | .keyword .funDecl =>
      let read ← attempted function
      return { file with funcs := file.funcs ++ read.toList }
    | .keyword .globalDecl =>
      let read ← attempted global
      return { file with globals := file.globals ++ read.toList }
    | .keyword .constDecl =>
      let read ← attempted constant
      return { file with consts := file.consts ++ read.toList }
    | _ =>
      take (modify (·.report (.expectedDeclaration token)))
      take advance
      return file
  | _, declarations file => do
    if ← take (isAt .endOfText) then return file
    else
      let before ← take problemCount
      let file ← enter (declaration file)
      if before < (← take problemCount) then enter skipDeclaration
      enter (declarations file)

end Rule

/-- What every rule does. -/
abbrev Oracle : Type 1 := {β : Type} → Rule β → Parse β

namespace Descent

variable {α β : Type} (oracle : Oracle)

/-- What a body does when its calls do what the oracle says. -/
def run : Descent α → Parse α
  | done result => OptionT.mk (pure result)
  | step action next => OptionT.mk (action.run >>= fun answer => ((next answer).run).run)
  | call rule next => OptionT.mk ((oracle rule).run >>= fun answer => ((next answer).run).run)

@[simp] theorem run_pure (value : α) : run oracle (pure value) = pure value := rfl

@[simp] theorem run_take (action : Parse α) : run oracle (take action) = action := by
  change OptionT.mk (action.run >>= pure) = action
  rw [bind_pure]
  rfl

@[simp] theorem run_enter (rule : Rule α) : run oracle (enter rule) = oracle rule := by
  change OptionT.mk ((oracle rule).run >>= pure) = oracle rule
  rw [bind_pure]
  rfl

@[simp] theorem run_attempted (rule : Rule α) :
    run oracle (attempted rule) = Parse.attempt (oracle rule) := rfl

@[simp] theorem run_bind (first : Descent α) (later : α → Descent β) :
    run oracle (first >>= later) = run oracle first >>= fun value => run oracle (later value) := by
  change run oracle (first.bind later) = _
  induction first with
  | done result => cases result <;> rfl
  | step _ _ ih | call _ _ ih =>
    refine OptionT.ext ?_
    simp only [bind, run, ih, OptionT.run_bind, OptionT.run_mk, bind_assoc, Option.elimM]

@[simp] theorem run_map (function : α → β) (body : Descent α) :
    run oracle (function <$> body) = function <$> run oracle body := by
  change run oracle (body >>= fun value => pure (function value)) = _
  rw [run_bind, map_eq_pure_bind]
  rfl

@[simp] theorem run_ite (test : Prop) [Decidable test] (first second : Descent α) :
    run oracle (if test then first else second) =
      if test then run oracle first else run oracle second :=
  apply_ite _ _ _ _

end Descent

namespace Rule

/-- The rules of a depth. -/
def within (depth : Nat) : Oracle
  | _, stars => Parse.stars depth
  | _, type => Parse.type
  | _, field => Parse.field
  | _, sizeof start => Parse.sizeof start
  | _, expression => Parse.expression depth
  | _, binary least => Parse.binary depth least
  | _, binaryFrom start least left => Parse.binaryFrom depth start least left
  | _, unary => Parse.unary depth
  | _, selection start object => Parse.selection depth start object
  | _, primary => Parse.primary depth
  | _, arguments => Parse.arguments depth
  | _, initializer => Parse.initializer (depth - 1)
  | _, constant => Parse.constant (depth - 1)
  | _, skipStatement => Parse.skipStatement depth
  | _, block => Parse.block depth
  | _, statements => Parse.statements depth
  | _, statement => Parse.statement depth
  | _, branch => Parse.branch depth
  | _, members owner => Parse.members owner depth
  | _, struct => Parse.struct
  | _, params => Parse.params depth
  | _, function => Parse.function
  | _, global => Parse.global
  | _, skipDeclaration => Parse.skipDeclaration depth
  | _, declaration file => Parse.declaration file
  | _, declarations file => Parse.declarations depth file

/-- The rules as other rules enter them, with a depth or a bound that suffices. -/
def parse : Oracle
  | _, stars => do Parse.stars (← get).remaining
  | _, type => Parse.type
  | _, field => Parse.field
  | _, sizeof start => Parse.sizeof start
  | _, expression => do Parse.expression (depthFor (← get).remaining)
  | _, binary least => do Parse.binary (depthFor (← get).remaining) least
  | _, binaryFrom start least left => do
    Parse.binaryFrom (depthFor (← get).remaining) start least left
  | _, unary => do Parse.unary (depthFor (← get).remaining)
  | _, selection start object => do
    Parse.selection (depthFor (← get).remaining) start object
  | _, primary => do Parse.primary (depthFor (← get).remaining)
  | _, arguments => do Parse.arguments (depthFor (← get).remaining)
  | _, initializer => do Parse.initializer (depthFor (← get).remaining)
  | _, constant => do Parse.constant (depthFor (← get).remaining)
  | _, skipStatement => do Parse.skipStatement (← get).remaining
  | _, block => do Parse.block (depthFor (← get).remaining)
  | _, statements => do Parse.statements (depthFor (← get).remaining)
  | _, statement => do Parse.statement (depthFor (← get).remaining)
  | _, branch => do Parse.branch (depthFor (← get).remaining)
  | _, members owner => do Parse.members owner (← get).remaining
  | _, struct => Parse.struct
  | _, params => do Parse.params (← get).remaining
  | _, function => Parse.function
  | _, global => Parse.global
  | _, skipDeclaration => do Parse.skipDeclaration (← get).remaining
  | _, declaration file => Parse.declaration file
  | _, declarations file => do Parse.declarations (← get).remaining file

/-- The rules that hand a depth on to each other. -/
inductive Group where
  | none
  | stars
  | expressions
  | skipStatement
  | statements
  | members
  | params
  | skipDeclaration
  | declarations
  deriving DecidableEq

/-- The group of a rule. -/
def group : {α : Type} → Rule α → Group
  | _, stars => .stars
  | _, expression | _, binary _ | _, binaryFrom _ _ _ | _, unary | _, selection _ _ | _, primary
  | _, arguments | _, initializer | _, constant => .expressions
  | _, skipStatement => .skipStatement
  | _, block | _, statements | _, statement | _, branch => .statements
  | _, members _ => .members
  | _, params => .params
  | _, skipDeclaration => .skipDeclaration
  | _, declarations _ => .declarations
  | _, type | _, field | _, sizeof _ | _, struct | _, function | _, global | _, declaration _ =>
    .none

/-- The rules as a rule of a group enters them: those of its group with the depth it hands on. -/
def handed (group : Group) (depth : Nat) : Oracle := fun rule =>
  if rule.group = group then rule.within depth else rule.parse

/-- A rule with some depth does what its body does with the rules that it enters. -/
theorem within_succ (depth : Nat) {α : Type} (rule : Rule α) :
    within (depth + 1) rule = rule.body.run (handed rule.group depth) := by
  cases rule with
  | stars => simp [body, within, handed, group, Parse.stars]
  | type => simp [body, within, handed, group, Parse.type, parse]
  | field => simp [body, within, handed, group, Parse.field]
  | sizeof start => simp [body, within, handed, group, Parse.sizeof]
  | expression => simp [body, within, handed, group, Parse.expression]
  | binary least => simp [body, within, handed, group, Parse.binary]
  | arguments => simp [body, within, handed, group, Parse.arguments]
  | initializer => simp [body, within, handed, group, Parse.initializer]
  | constant => simp [body, within, handed, group, Parse.constant, parse]
  | block => simp [body, within, handed, group, Parse.block]
  | branch => simp [body, within, handed, group, Parse.branch, parse]
  | struct => simp [body, within, handed, group, Parse.struct, parse]
  | params => simp [body, within, handed, group, Parse.params, parse]
  | function => simp [body, within, handed, group, Parse.function, parse]
  | global => simp [body, within, handed, group, Parse.global, parse]
  | declarations file => simp [body, within, handed, group, Parse.declarations, parse]
  | binaryFrom start least left =>
    simp only [body, within, Parse.binaryFrom, Descent.run_bind, Descent.run_take]
    refine bind_congr fun token => ?_
    split <;> simp [*, handed, within, group]
  | unary =>
    simp only [body, within, Parse.unary, Descent.run_bind, Descent.run_take]
    refine bind_congr fun token => ?_
    split <;> simp [*, handed, within, group]
  | selection start object =>
    simp only [body, within, Parse.selection, Descent.run_bind, Descent.run_take]
    refine bind_congr fun token => ?_
    split
    · simp [*, handed, within, group]
    · simp [*, handed, within, group]
    · split <;> simp [*, handed, within, group]
  | primary =>
    simp only [body, within, Parse.primary, Descent.run_bind, Descent.run_take]
    refine bind_congr fun token => ?_
    split <;> simp [*, handed, within, group, parse]
  | skipStatement =>
    simp only [body, within, Parse.skipStatement, Descent.run_bind, Descent.run_take]
    refine bind_congr fun token => ?_
    split <;> simp [*, handed, within, group]
  | statements =>
    simp only [body, within, Parse.statements, Descent.run_bind, Descent.run_take]
    refine bind_congr fun token => ?_
    split <;> simp [*, handed, within, group, parse]
  | statement =>
    simp only [body, within, Parse.statement, Descent.run_bind, Descent.run_take]
    refine bind_congr fun token => ?_
    split <;> simp [*, handed, within, group, parse]
  | members owner =>
    simp only [body, within, Parse.members, Descent.run_bind, Descent.run_take]
    refine bind_congr fun token => ?_
    split
    · simp [*]
    · simp [*]
    · simp only [*, Descent.run_bind, Descent.run_enter, Descent.run_take]
      simp only [handed, group, within, parse]
      refine bind_congr fun mem => bind_congr fun next => ?_
      split <;> simp [*, handed, within, group]
  | skipDeclaration =>
    simp only [body, within, Parse.skipDeclaration, Descent.run_bind, Descent.run_take]
    refine bind_congr fun token => ?_
    split <;> simp [*, handed, within, group]
  | declaration file =>
    simp only [body, within, Parse.declaration, Descent.run_bind, Descent.run_take]
    refine bind_congr fun token => ?_
    split
    · simp [*, handed, within, group]
    · simp [*, handed, within, group]
    · simp [*, handed, within, group]
    · simp [*, handed, group, parse]
      rfl
    · simp [*]

end Rule

end TinLang.Parse
