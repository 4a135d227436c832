import TinLang.Proofs.Grammar.Reading
import TinLang.Syntax.Bare

/-!
# Spelled expressions

`Spelled` relates words to the expressions and arguments they spell, at the levels of the grammar:
an operand stands at a level at least as tight as its place requires, and parentheses may stand
around any expression. The grammar reads every phrase back, up to places, when the word after it
does not continue it; the words that `Expr.words` gives are among those that spell an expression.
-/
namespace TinLang

variable {type : TypeExpr} {token : Token}

/-- The kind of the tokens that read as a word. -/
def SyntaxWord.kind : SyntaxWord → TokenKind
  | .integer _ => .integer
  | .float _ => .float
  | .string _ => .string
  | .character _ => .character
  | .name _ => .identifier
  | .keyword reserved => .keyword reserved
  | .symbol sign => .symbol sign

theorem Token.Says.kind {word : SyntaxWord} (said : token.Says word) :
    token.kind = word.kind := by
  cases word <;> exact said.1

/-- How tightly a token holds on to a phrase before it: a parenthesis would make a name a call,
then come the operators after a value, the infix operators and the equals sign. -/
def TokenKind.grip : TokenKind → Nat
  | .symbol .leftParen => 10
  | .symbol .dot | .symbol .leftBracket | .symbol .plusPlus | .symbol .minusMinus => 8
  | .symbol .assign => 1
  | .symbol sign =>
    match BinaryOp.ofSymbol? sign with
    | some op => op.precedence
    | none => 0
  | _ => 0

/-- Words do not continue a phrase of a level: the first of them grips no tighter. -/
def Stops (level : Nat) (words : List SyntaxWord) : Prop :=
  ∀ word ∈ words.head?, word.kind.grip ≤ level

section Stops

variable {level : Nat} {words rest : List SyntaxWord} {cursor : Cursor}

theorem Stops.mono {tighter : Nat} (stops : Stops level words) (within : level ≤ tighter) :
    Stops tighter words :=
  fun word first => Nat.le_trans (stops word first) within

theorem stops_cons {word : SyntaxWord} (loose : word.kind.grip ≤ level) :
    Stops level (word :: words) := by
  intro first found
  obtain rfl := Option.some.inj found
  exact loose

theorem Cursor.Stands.grip_le (stands : cursor.Stands words) (stops : Stops level words) :
    cursor.current.kind.grip ≤ level := by
  cases words with
  | nil => rw [show cursor.current.kind = .endOfText from stands]; exact Nat.zero_le _
  | cons word words => rw [stands.heard.kind]; exact stops word rfl

/-- A token with a loose grip is none of those that grip tightly. -/
theorem Cursor.Stands.kind_ne (stands : cursor.Stands words) (stops : Stops level words)
    {kind : TokenKind} (tight : level < kind.grip) : cursor.current.kind ≠ kind := by
  intro same
  have loose := stands.grip_le stops
  rw [same] at loose
  omega

/-- The next token is not of a kind when the first word ahead is not. -/
theorem Cursor.Stands.kind_ne_of_head (stands : cursor.Stands words) {kind : TokenKind}
    (other : ∀ word ∈ words.head?, word.kind ≠ kind) (inside : kind ≠ .endOfText) :
    cursor.current.kind ≠ kind := by
  cases words with
  | nil => rw [show cursor.current.kind = .endOfText from stands]; exact inside.symm
  | cons word words => rw [stands.heard.kind]; exact other word rfl

end Stops

/-- What some words spell: an expression that holds together at least at a level, or the arguments
of a call. -/
inductive Phrase where
  | expr (level : Nat) (value : Expr)
  | arguments (values : List Expr)

/-- Words spell a phrase. -/
inductive Spelled : List SyntaxWord → Phrase → Prop
  | int {span value} (small : value < 0x100000000) :
    Spelled [.integer value] (.expr 9 (.int span value))
  | string {span} {value : Text} (proper : value.isUtf8) :
    Spelled [.string value] (.expr 9 (.string span value))
  | character {span value} : Spelled [.character value] (.expr 9 (.character span value))
  | bool {span} {value : Bool} :
    Spelled [.keyword (if value then .trueValue else .falseValue)] (.expr 9 (.bool span value))
  | null {span} : Spelled [.keyword .nullValue] (.expr 9 (.null span))
  | name {span} {spelling : Text} (proper : spelling.isName) :
    Spelled [.name spelling] (.expr 9 (.name span spelling))
  | call {span words values} {callee : Text} (proper : callee.isName)
    (spelled : Spelled words (.arguments values)) :
    Spelled (.name callee :: SyntaxWord.parens words) (.expr 9 (.call span callee values))
  | cast {span words value} {type : TypeExpr} (proper : type.name.isName)
    (spelled : Spelled words (.expr 0 value)) :
    Spelled (.keyword .castTo :: .symbol .less :: (type.words ++
      .symbol .greater :: SyntaxWord.parens words)) (.expr 9 (.cast span type value))
  | sizeof {span} {type : TypeExpr} (proper : type.name.isName) :
    Spelled (.keyword .sizeofType :: SyntaxWord.parens type.words) (.expr 9 (.sizeof span type))
  | parens {words value} (spelled : Spelled words (.expr 0 value)) :
    Spelled (SyntaxWord.parens words) (.expr 9 value)
  | late {span words value} {op : StepOp} (spelled : Spelled words (.expr 8 value)) :
    Spelled (words ++ [.symbol op.symbol]) (.expr 8 (.step span op false value))
  | member {span words value} {field : Text} (proper : field.isName)
    (spelled : Spelled words (.expr 8 value)) :
    Spelled (words ++ [.symbol .dot, .name field]) (.expr 8 (.member span value field))
  | index {span words others value place} (spelled : Spelled words (.expr 8 value))
    (inside : Spelled others (.expr 0 place)) :
    Spelled (words ++ .symbol .leftBracket :: (others ++ [.symbol .rightBracket]))
      (.expr 8 (.index span value place))
  | unary {span words value} {op : UnaryOp} (spelled : Spelled words (.expr 7 value)) :
    Spelled (.symbol op.symbol :: words) (.expr 7 (.unary span op value))
  | early {span words value} {op : StepOp} (spelled : Spelled words (.expr 7 value)) :
    Spelled (.symbol op.symbol :: words) (.expr 7 (.step span op true value))
  | binary {span words others left right} {op : BinaryOp}
    (first : Spelled words (.expr op.precedence left))
    (second : Spelled others (.expr (op.precedence + 1) right)) :
    Spelled (words ++ .symbol op.symbol :: others)
      (.expr op.precedence (.binary span op left right))
  | assign {span words others target value} (first : Spelled words (.expr 1 target))
    (second : Spelled others (.expr 0 value)) :
    Spelled (words ++ .symbol .assign :: others) (.expr 0 (.assign span target value))
  | loosen {words value level looser} (spelled : Spelled words (.expr level value))
    (loose : looser ≤ level) : Spelled words (.expr looser value)
  | nothing : Spelled [] (.arguments [])
  | one {words value} (spelled : Spelled words (.expr 0 value)) : Spelled words (.arguments [value])
  | more {words others value second values} (spelled : Spelled words (.expr 0 value))
    (later : Spelled others (.arguments (second :: values))) :
    Spelled (words ++ .symbol .comma :: others) (.arguments (value :: second :: values))

namespace TokenKind

/-- A kind of token with which an operand starts. -/
def startsOperand : TokenKind → Bool
  | .integer | .float | .string | .character | .identifier | .symbol .leftParen => true
  | .keyword reserved => reserved ∈ [.trueValue, .falseValue, .nullValue, .castTo, .sizeofType]
  | _ => false

/-- A kind of token that is an operator before a value. -/
def startsUnary : TokenKind → Bool
  | .symbol sign => sign ∈ [.minus, .bang, .amp, .star, .plusPlus, .minusMinus]
  | _ => false

/-- A kind of token with which no expression starts. -/
def startsNone (kind : TokenKind) : Bool := !kind.startsOperand && !kind.startsUnary

end TokenKind

/-- An expression starts as its level allows. -/
def Phrase.Starts : Phrase → List SyntaxWord → Prop
  | .expr level _, words =>
    ∃ first others, words = first :: others ∧
      (first.kind.startsOperand ∨ level ≤ 7 ∧ first.kind.startsUnary)
  | .arguments _, _ => True

namespace Phrase.Starts

variable {words rest : List SyntaxWord} {value other : Expr} {level looser : Nat}

theorem loosen (starts : (Phrase.expr level value).Starts words) (loose : looser ≤ level) :
    (Phrase.expr looser value).Starts words := by
  obtain ⟨first, others, same, starts⟩ := starts
  exact ⟨first, others, same, starts.imp_right fun unary => ⟨Nat.le_trans loose unary.1, unary.2⟩⟩

theorem append (starts : (Phrase.expr level value).Starts words) :
    (Phrase.expr level other).Starts (words ++ rest) := by
  obtain ⟨first, others, rfl, starts⟩ := starts
  exact ⟨first, others ++ rest, rfl, starts⟩

/-- An expression has a first word. -/
theorem length_pos (starts : (Phrase.expr level value).Starts words) : 0 < words.length := by
  obtain ⟨first, others, rfl, -⟩ := starts
  exact Nat.succ_pos _

theorem operand {first : SyntaxWord} (starts : first.kind.startsOperand) :
    (Phrase.expr level value).Starts (first :: rest) :=
  ⟨first, rest, rfl, .inl starts⟩

/-- The first word of an expression is of no other kind. -/
theorem head_ne {first : SyntaxWord} (starts : (Phrase.expr level value).Starts (first :: rest))
    {kind : TokenKind} (other : kind.startsNone) : first.kind ≠ kind := by
  obtain ⟨first, others, same, starts⟩ := starts
  obtain ⟨rfl, rfl⟩ := List.cons.inj same
  rintro rfl
  rw [TokenKind.startsNone] at other
  rcases starts with starts | ⟨-, starts⟩ <;> simp [starts] at other

theorem kind_ne {cursor : Cursor} (starts : (Phrase.expr level value).Starts words)
    (stands : cursor.Stands (words ++ rest)) {kind : TokenKind} (other : kind.startsNone) :
    cursor.current.kind ≠ kind := by
  cases words with
  | nil => exact absurd starts.length_pos (by simp)
  | cons first others =>
    rw [stands.heard.kind]
    exact starts.head_ne other

end Phrase.Starts

namespace SyntaxWord

variable {word : SyntaxWord} {words others : List SyntaxWord}

/-- Words that can be read back from their text. -/
def Proper (words : List SyntaxWord) : Prop := ∀ word ∈ words, word.isProper

@[simp] theorem proper_nil : Proper [] := by simp [Proper]

@[simp] theorem proper_cons : Proper (word :: words) ↔ word.isProper ∧ Proper words := by
  simp [Proper]

@[simp] theorem proper_append : Proper (words ++ others) ↔ Proper words ∧ Proper others := by
  simp only [Proper, List.mem_append, or_imp, forall_and]

theorem proper_type : Proper type.words ↔ type.name.isName := by
  have stars : Proper (List.replicate type.pointer (.symbol .star)) := by
    intro word mem
    rw [List.eq_of_mem_replicate mem]
    rfl
  simp [TypeExpr.words, isProper, stars]

end SyntaxWord

namespace Spelled

open SyntaxWord (Proper isProper proper_type)

variable {words : List SyntaxWord} {phrase : Phrase}

theorem starts (spelled : Spelled words phrase) : phrase.Starts words := by
  induction spelled with
  | bool =>
    next value => exact .operand (by cases value <;> rfl)
  | int | string | character | null | name | call | cast | sizeof | parens => exact .operand rfl
  | late _ starts | member _ _ starts | index _ _ starts => exact starts.append
  | unary =>
    next op _ _ => exact ⟨_, _, rfl, .inr ⟨Nat.le_refl 7, by cases op <;> rfl⟩⟩
  | early =>
    next op _ _ => exact ⟨_, _, rfl, .inr ⟨Nat.le_refl 7, by cases op <;> rfl⟩⟩
  | binary _ _ starts => exact starts.append
  | assign _ _ starts => exact (starts.loosen (Nat.zero_le 1)).append
  | loosen _ loose starts => exact starts.loosen loose
  | nothing | one | more => trivial

/-- No phrase has a colon in it. -/
theorem colonless (spelled : Spelled words phrase) : .symbol .colon ∉ words := by
  have written : ∀ type : TypeExpr, .symbol .colon ∉ type.words := by
    simp [TypeExpr.words]
  induction spelled with
  | bool => simp
  | int | string | character | null | name | nothing => simp
  | call _ _ colonless | parens _ colonless => simpa [SyntaxWord.parens] using colonless
  | cast _ _ colonless => simpa [SyntaxWord.parens, written] using colonless
  | sizeof => simpa [SyntaxWord.parens] using written _
  | late _ colonless | unary _ colonless | early _ colonless =>
    next op _ => cases op <;> simpa [StepOp.symbol, UnaryOp.symbol] using colonless
  | member _ _ colonless => simpa using colonless
  | index _ _ first second | assign _ _ first second | more _ _ first second =>
    simpa using ⟨first, second⟩
  | binary _ _ first second =>
    next op _ _ => cases op <;> simpa [BinaryOp.symbol] using ⟨first, second⟩
  | loosen _ _ colonless | one _ colonless => exact colonless

/-- The words of a phrase can be read back from their text. -/
theorem proper (spelled : Spelled words phrase) : Proper words := by
  induction spelled with
  | int | character | bool | null | nothing => simp [isProper]
  | string proper | name proper => simpa [isProper] using proper
  | call callee _ proper => simpa [SyntaxWord.parens, isProper] using ⟨callee, proper⟩
  | cast type _ proper => simpa [SyntaxWord.parens, isProper, proper_type] using ⟨type, proper⟩
  | sizeof type => simpa [SyntaxWord.parens, isProper, proper_type] using type
  | parens _ proper => simpa [SyntaxWord.parens, isProper] using proper
  | member field _ proper => simpa [isProper] using ⟨proper, field⟩
  | late _ proper | unary _ proper | early _ proper => simpa [isProper] using proper
  | index _ _ first second | binary _ _ first second | assign _ _ first second
  | more _ _ first second => simpa [isProper] using ⟨first, second⟩
  | loosen _ _ proper | one _ proper => exact proper

end Spelled

namespace Parse

/-- The two expressions differ in their places only. -/
def Same (value found : Expr) : Prop := found.bare = value.bare

variable {words : List SyntaxWord} {value : Expr}

/-- The words are read as an operand. -/
def ReadsPrimary (words : List SyntaxWord) (value : Expr) : Prop :=
  ∀ ⦃cursor : Cursor⦄ ⦃rest depth⦄, cursor.Stands (words ++ rest) → Stops 9 rest →
    16 * words.length ≤ depth + 3 → Yields cursor (primary depth) (cursor.skip words.length)
      (Same value)

/-- The words are read as an operand and operators after it, and perhaps more of these follow. -/
def ReadsSelection (words : List SyntaxWord) (value : Expr) : Prop :=
  ∀ ⦃cursor : Cursor⦄ ⦃rest depth⦄, cursor.Stands (words ++ rest) → Stops 9 rest →
    16 * words.length ≤ depth + 3 → ∀ ⦃start after⦄ ⦃good : Expr → Prop⦄,
      (∀ later found, depth ≤ later + words.length → Same value found →
        Yields (cursor.skip words.length) (selection later start found) after good) →
      Yields cursor (primary depth >>= selection depth start) after good

/-- The words are read as a value with operators before and after it. -/
def ReadsUnary (words : List SyntaxWord) (value : Expr) : Prop :=
  ∀ ⦃cursor : Cursor⦄ ⦃rest depth⦄, cursor.Stands (words ++ rest) → Stops 7 rest →
    16 * words.length ≤ depth + 2 → Yields cursor (unary depth) (cursor.skip words.length)
      (Same value)

/-- The words are read as operands of a level, and perhaps more of these follow. -/
def ReadsBinary (level : Nat) (words : List SyntaxWord) (value : Expr) : Prop :=
  ∀ ⦃cursor : Cursor⦄ ⦃rest depth least⦄, cursor.Stands (words ++ rest) → Stops level rest →
    least ≤ level → 16 * words.length ≤ depth + 1 → ∀ ⦃after⦄ ⦃good : Expr → Prop⦄,
      (∀ later found, depth ≤ later + words.length + 1 → Same value found →
        Yields (cursor.skip words.length) (binaryFrom later cursor.current.position least found)
          after
          good) →
      Yields cursor (binary depth least) after good

/-- The words are read as an expression. -/
def ReadsExpression (words : List SyntaxWord) (value : Expr) : Prop :=
  ∀ ⦃cursor : Cursor⦄ ⦃rest depth⦄, cursor.Stands (words ++ rest) → Stops 0 rest →
    16 * words.length ≤ depth → Yields cursor (expression depth) (cursor.skip words.length)
      (Same value)

/-- The words are read as the arguments of a call, up to and with the closing parenthesis. -/
def ReadsArguments (words : List SyntaxWord) (values : List Expr) : Prop :=
  ∀ ⦃cursor : Cursor⦄ ⦃rest depth⦄, cursor.Stands (words ++ .symbol .rightParen :: rest) →
    16 * (words.length + 1) ≤ depth →
      Yields cursor (arguments depth) (cursor.skip (words.length + 1)) fun found =>
        Expr.bareAll found = Expr.bareAll values

/-- The grammar reads the words as an expression of a level, with the rule of the level and with
the rules of all looser ones. -/
structure ReadsLevel (level : Nat) (words : List SyntaxWord) (value : Expr) : Prop where
  primary : 9 ≤ level → ReadsPrimary words value
  selection : 8 ≤ level → ReadsSelection words value
  unary : 7 ≤ level → ReadsUnary words value
  binary : 1 ≤ level → ReadsBinary (min level 7) words value
  expression : ReadsExpression words value

/-- The grammar reads the words as the phrase. -/
def Reads (words : List SyntaxWord) : Phrase → Prop
  | .expr level value => ReadsLevel level words value
  | .arguments values => ReadsArguments words values

variable {cursor : Cursor} {rest : List SyntaxWord} {depth level : Nat}

theorem ReadsPrimary.selection (reads : ReadsPrimary words value) (some : 0 < words.length) :
    ReadsSelection words value := by
  intro cursor rest depth stands stops deep start after good continues
  refine (reads stands stops deep).bind fun found same => continues _ _ (by omega) same

/-- Nothing is selected from a value when the next token does not hold on to it. -/
theorem yields_selection_end (stands : cursor.Stands rest) (stops : Stops 7 rest) (deep : 0 < depth)
    {start : Position} {object : Expr} {good : Expr → Prop} (same : good object) :
    Yields cursor (selection depth start object) cursor good := by
  obtain ⟨depth, rfl⟩ := Nat.exists_eq_add_one.mpr deep
  refine .current ?_
  have loose := stands.grip_le stops
  split
  · next kind => rw [kind] at loose; exact absurd loose (by decide)
  · next kind => rw [kind] at loose; exact absurd loose (by decide)
  · have none : stepOp? cursor.current = none := by
      unfold stepOp?
      split
      · next kind => rw [kind] at loose; exact absurd loose (by decide)
      · next kind => rw [kind] at loose; exact absurd loose (by decide)
      · rfl
    simp only [none]
    exact .pure same

/-- An operand does not start with an operator. -/
theorem unaryOp?_of_startsOperand {word : SyntaxWord} (said : token.Says word)
    (starts : word.kind.startsOperand) : unaryOp? token = none ∧ stepOp? token = none := by
  rw [unaryOp?, stepOp?, said.kind]
  cases word with
  | symbol sign => cases sign <;> first | exact ⟨rfl, rfl⟩ | cases starts
  | _ => exact ⟨rfl, rfl⟩

theorem ReadsSelection.unary (reads : ReadsSelection words value)
    (starts : (Phrase.expr 8 value).Starts words) : ReadsUnary words value := by
  intro cursor rest depth stands stops deep
  obtain ⟨first, others, rfl, starts⟩ := starts
  obtain starts | ⟨impossible, -⟩ := starts
  swap
  · omega
  obtain ⟨unary, step⟩ := unaryOp?_of_startsOperand stands.heard starts
  simp only [List.length_cons] at deep
  obtain ⟨depth, rfl⟩ : ∃ smaller, depth = smaller + 1 := ⟨depth - 1, by omega⟩
  refine .current ?_
  simp only [unary, step]
  refine reads stands (stops.mono (by omega)) (by simp; omega) fun later found enough same => ?_
  exact yields_selection_end stands.skip stops (by simp at enough; omega) same

theorem ReadsUnary.binary (reads : ReadsUnary words value) (some : 0 < words.length)
    (tight : level ≤ 7) : ReadsBinary level words value := by
  intro cursor rest depth least stands stops _ deep after good continues
  obtain ⟨depth, rfl⟩ : ∃ smaller, depth = smaller + 1 := ⟨depth - 1, by omega⟩
  refine .current ?_
  exact (reads stands (stops.mono tight) (by omega)).bind fun found same =>
    continues _ _ (by omega) same

theorem precedence_le_grip {op : BinaryOp} (found : infixOp? token = some op) :
    op.precedence ≤ token.kind.grip := by
  unfold infixOp? at found
  split at found
  · next sign kind =>
    rw [kind]
    cases sign <;> cases found <;> decide
  · cases found

/-- No more operands follow when the next token is no operator that binds as tightly. -/
theorem yields_binaryFrom_end {least : Nat}
    (loose : ∀ op, infixOp? cursor.current = some op → op.precedence < least) (deep : 0 < depth)
    {start : Position} {left : Expr} {good : Expr → Prop} (same : good left) :
    Yields cursor (binaryFrom depth start least left) cursor good := by
  obtain ⟨depth, rfl⟩ := Nat.exists_eq_add_one.mpr deep
  refine .current ?_
  split
  · next op found =>
    rw [if_pos (loose op found)]
    exact .pure same
  · exact .pure same

/-- Words that do not continue a phrase hold no operator that binds tighter. -/
theorem precedence_lt_of_stops {least : Nat} (stands : cursor.Stands rest)
    (stops : Stops level rest)
    (within : level < least) (op : BinaryOp) (found : infixOp? cursor.current = some op) :
    op.precedence < least :=
  Nat.lt_of_le_of_lt (Nat.le_trans (precedence_le_grip found) (stands.grip_le stops)) within

theorem ReadsBinary.expression (reads : ReadsBinary level words value) (some : 0 < words.length)
    (tight : 1 ≤ level) : ReadsExpression words value := by
  intro cursor rest depth stands stops deep
  obtain ⟨depth, rfl⟩ : ∃ smaller, depth = smaller + 1 := ⟨depth - 1, by omega⟩
  refine .current ?_
  have operands : Yields cursor (Parse.binary depth 1) (cursor.skip words.length) (Same value) :=
    reads stands (stops.mono (Nat.zero_le _)) tight (by omega) fun later found enough same =>
      yields_binaryFrom_end (precedence_lt_of_stops stands.skip stops Nat.zero_lt_one)
        (by omega) same
  have no : (cursor.skip words.length).current.kind ≠ .symbol .assign :=
    stands.skip.kind_ne stops (by decide)
  refine operands.bind fun found same => .isAt ?_
  rw [decide_eq_false no]
  exact .pure same

theorem ReadsBinary.loosen {looser : Nat} (reads : ReadsBinary level words value)
    (loose : looser ≤ level) : ReadsBinary looser words value :=
  fun _ _ _ _ stands stops within deep _ _ continues =>
    reads stands (stops.mono loose) (Nat.le_trans within loose) deep continues

namespace ReadsLevel

theorem of_expression (reads : ReadsExpression words value) : ReadsLevel 0 words value where
  primary := by omega
  selection := by omega
  unary := by omega
  binary := by omega
  expression := reads

theorem of_binary (reads : ReadsBinary level words value) (some : 0 < words.length)
    (least : 1 ≤ level) (most : level < 7) : ReadsLevel level words value where
  primary := by omega
  selection := by omega
  unary := by omega
  binary _ := by rwa [Nat.min_eq_left (by omega)]
  expression := reads.expression some least

theorem of_unary (reads : ReadsUnary words value) (some : 0 < words.length) :
    ReadsLevel 7 words value where
  primary := by omega
  selection := by omega
  unary _ := reads
  binary _ := reads.binary some (Nat.le_refl 7)
  expression := (reads.binary some (Nat.le_refl 7)).expression some (by decide)

theorem of_selection (reads : ReadsSelection words value)
    (starts : (Phrase.expr 8 value).Starts words) : ReadsLevel 8 words value :=
  have loose := of_unary (reads.unary starts) starts.length_pos
  { loose with
    primary := by omega
    selection := fun _ => reads
    unary := fun _ => loose.unary (by decide)
    binary := fun _ => loose.binary (by decide) }

theorem of_primary (reads : ReadsPrimary words value)
    (starts : (Phrase.expr 9 value).Starts words) : ReadsLevel 9 words value :=
  have loose := of_selection (reads.selection starts.length_pos) (starts.loosen (by decide))
  { loose with
    primary := fun _ => reads
    selection := fun _ => loose.selection (by decide)
    unary := fun _ => loose.unary (by decide)
    binary := fun _ => loose.binary (by decide) }

theorem loosen {looser : Nat} (reads : ReadsLevel level words value) (loose : looser ≤ level) :
    ReadsLevel looser words value where
  primary tight := reads.primary (by omega)
  selection tight := reads.selection (by omega)
  unary tight := reads.unary (by omega)
  binary tight := (reads.binary (by omega)).loosen (by omega)
  expression := reads.expression

end ReadsLevel

/-- A type is read up to its last star. -/
theorem yields_type (stands : cursor.Stands (type.words ++ rest))
    (ends : ∀ word ∈ rest.head?, word.kind ≠ .symbol .star) :
    Yields cursor Parse.type (cursor.skip type.words.length) (·.bare = type.bare) := by
  have read : ∀ count bound (cursor : Cursor),
      cursor.Stands (List.replicate count (.symbol .star) ++ rest) → count < bound →
        Yields cursor (stars bound) (cursor.skip count) (· = count) := by
    intro count
    induction count with
    | zero =>
      intro bound cursor stands positive
      obtain ⟨bound, rfl⟩ := Nat.exists_eq_add_one.mpr positive
      have no : cursor.current.kind ≠ .symbol .star := stands.kind_ne_of_head ends (by decide)
      refine .isAt ?_
      rw [decide_eq_false no]
      exact .pure rfl
    | succ count ih =>
      intro bound cursor stands positive
      obtain ⟨bound, rfl⟩ : ∃ smaller, bound = smaller + 1 := ⟨bound - 1, by omega⟩
      refine .isAt ?_
      rw [decide_eq_true stands.heard.1]
      refine .advance ((ih bound cursor.next stands.next (by omega)).bind fun found same => ?_)
      exact .pure (by rw [same])
  refine .current ?_
  rw [if_pos stands.heard.1]
  have later : cursor.next.Stands (List.replicate type.pointer (.symbol .star) ++ rest) :=
    stands.next
  have enough := later.enough
  refine .advance (.get ((read type.pointer _ _ later ?_).bind fun found same => ?_))
  · simp only [List.length_append, List.length_replicate] at enough
    omega
  · have length : type.words.length = type.pointer + 1 := by simp [TypeExpr.words]
    rw [length, ← Cursor.skip_next]
    refine .spanFrom (.pure ?_)
    rw [same, show cursor.current.literal = type.name from stands.heard.2]
    rfl

/-- A literal that is one token. -/
theorem yields_literal {build : Span → Expr} (same : ∀ span, Same value (build span)) :
    Yields cursor (literal build) cursor.next (Same value) :=
  .current (.advance (.spanFrom (.pure (same _))))

/-- A word that is an operand by itself. -/
theorem readsPrimary_one {word : SyntaxWord} (one : ∀ (cursor : Cursor) depth,
    cursor.current.Says word → Yields cursor (primary (depth + 1)) cursor.next (Same value)) :
    ReadsPrimary [word] value := by
  intro cursor rest depth stands stops deep
  obtain ⟨depth, rfl⟩ : ∃ smaller, depth = smaller + 1 :=
    ⟨depth - 1, by simp at deep; omega⟩
  exact one cursor depth stands.heard

theorem readsPrimary_int {span : Span} {number : Nat} (small : number < 0x100000000) :
    ReadsPrimary [.integer number] (.int span number) := by
  refine readsPrimary_one fun cursor depth said => ?_
  refine .current ?_
  simp only [said.1, integer, said.2, if_pos small]
  exact yields_literal fun _ => rfl

theorem readsPrimary_string {span : Span} {text : Text} :
    ReadsPrimary [.string text] (.string span text) := by
  refine readsPrimary_one fun cursor depth said => ?_
  refine .current ?_
  simp only [said.1, said.2]
  exact yields_literal fun _ => rfl

/-- A byte is the value of its character. -/
theorem characterValue_encode (byte : UInt8) :
    characterValue (Glyph.encode byte.toNat) = byte := by
  obtain ⟨lead, tail, encoded, read⟩ := Glyph.wellFormed?_encode_byte byte
  have one := Text.glyphs_cons_append (read [])
  rw [List.append_nil] at one
  rw [encoded, characterValue, one]
  exact UInt8.ofNat_toNat

theorem readsPrimary_character {span : Span} {byte : UInt8} :
    ReadsPrimary [.character byte] (.character span byte) := by
  refine readsPrimary_one fun cursor depth said => ?_
  refine .current ?_
  simp only [said.1, said.2, characterValue_encode]
  exact yields_literal fun _ => rfl

theorem readsPrimary_bool {span : Span} {truth : Bool} :
    ReadsPrimary [.keyword (if truth then .trueValue else .falseValue)] (.bool span truth) := by
  refine readsPrimary_one fun cursor depth said => ?_
  refine .current ?_
  cases truth
  · simp only [show cursor.current.kind = .keyword .falseValue from said.1]
    exact yields_literal fun _ => rfl
  · simp only [show cursor.current.kind = .keyword .trueValue from said.1]
    exact yields_literal fun _ => rfl

theorem readsPrimary_null {span : Span} : ReadsPrimary [.keyword .nullValue] (.null span) := by
  refine readsPrimary_one fun cursor depth said => ?_
  refine .current ?_
  simp only [show cursor.current.kind = .keyword .nullValue from said.1]
  exact yields_literal fun _ => rfl

/-- A name before anything but a parenthesis is a variable. -/
theorem readsPrimary_name {span : Span} {spelling : Text} :
    ReadsPrimary [.name spelling] (.name span spelling) := by
  intro cursor rest depth stands stops deep
  obtain ⟨depth, rfl⟩ : ∃ smaller, depth = smaller + 1 := ⟨depth - 1, by simp at deep; omega⟩
  have no : cursor.next.current.kind ≠ .symbol .leftParen :=
    stands.next.kind_ne stops (by decide)
  refine .current ?_
  simp only [stands.heard.1]
  refine .advance (.isAt ?_)
  rw [decide_eq_false no]
  exact .spanFrom (.pure (by rw [stands.heard.2]; rfl))

theorem readsPrimary_call {span : Span} {callee : Text} {values : List Expr}
    (reads : ReadsArguments words values) :
    ReadsPrimary (.name callee :: SyntaxWord.parens words) (.call span callee values) := by
  intro cursor rest depth stands stops deep
  simp only [SyntaxWord.parens, List.length_cons, List.length_append, List.length_nil] at deep
  simp only [SyntaxWord.parens, List.cons_append, List.append_assoc, List.nil_append] at stands
  obtain ⟨depth, rfl⟩ : ∃ smaller, depth = smaller + 1 := ⟨depth - 1, by omega⟩
  refine .current ?_
  simp only [stands.heard.1]
  refine .advance (.isAt ?_)
  rw [decide_eq_true stands.next.heard.1]
  refine .advance ((reads stands.next.next (by omega)).bind fun found same => ?_)
  simp only [Cursor.skip_next, SyntaxWord.parens, List.length_cons, List.length_append,
    List.length_nil]
  refine .spanFrom (.pure ?_)
  rw [stands.heard.2]
  exact congrArg (Expr.call default callee) same

theorem readsPrimary_parens (reads : ReadsExpression words value) :
    ReadsPrimary (SyntaxWord.parens words) value := by
  intro cursor rest depth stands stops deep
  simp only [SyntaxWord.parens, List.length_cons, List.length_append, List.length_nil] at deep
  simp only [SyntaxWord.parens, List.cons_append, List.append_assoc, List.nil_append] at stands
  obtain ⟨depth, rfl⟩ : ∃ smaller, depth = smaller + 1 := ⟨depth - 1, by omega⟩
  refine .current ?_
  simp only [show cursor.current.kind = .symbol .leftParen from stands.heard.1]
  refine .advance ((reads stands.next (stops_cons (by decide)) (by omega)).bind fun found same =>
    ?_)
  refine .expect stands.next.skip.heard.1 ?_
  simp only [Cursor.skip_next, Cursor.next_skip, SyntaxWord.parens, List.length_cons,
    List.length_append, List.length_nil]
  exact .pure same

theorem readsPrimary_sizeof {span : Span} :
    ReadsPrimary (.keyword .sizeofType :: SyntaxWord.parens type.words) (.sizeof span type) := by
  intro cursor rest depth stands stops deep
  simp only [SyntaxWord.parens, List.length_cons, List.length_append, List.length_nil] at deep
  simp only [SyntaxWord.parens, List.cons_append, List.append_assoc, List.nil_append] at stands
  obtain ⟨depth, rfl⟩ : ∃ smaller, depth = smaller + 1 := ⟨depth - 1, by omega⟩
  refine .current ?_
  simp only [show cursor.current.kind = .keyword .sizeofType from stands.heard.1]
  refine .advance (.expect stands.next.heard.1 ?_)
  have inside := stands.next.next
  refine (yields_type inside (by simp [SyntaxWord.kind])).bind fun found same => ?_
  refine .expect inside.skip.heard.1 (.spanFrom ?_)
  simp only [Cursor.skip_next, Cursor.next_skip, SyntaxWord.parens, List.length_cons,
    List.length_append, List.length_nil]
  exact .pure (congrArg (Expr.sizeof default) same)

theorem readsPrimary_cast {span : Span} (reads : ReadsExpression words value) :
    ReadsPrimary (.keyword .castTo :: .symbol .less :: (type.words ++
      .symbol .greater :: SyntaxWord.parens words)) (.cast span type value) := by
  intro cursor rest depth stands stops deep
  simp only [SyntaxWord.parens, List.length_cons, List.length_append, List.length_nil] at deep
  simp only [SyntaxWord.parens, List.cons_append, List.append_assoc, List.nil_append] at stands
  obtain ⟨depth, rfl⟩ : ∃ smaller, depth = smaller + 1 := ⟨depth - 1, by omega⟩
  refine .current ?_
  simp only [show cursor.current.kind = .keyword .castTo from stands.heard.1]
  refine .advance (.expect stands.next.heard.1 ?_)
  have written := stands.next.next
  refine (yields_type written (by simp [SyntaxWord.kind])).bind fun read sameType => ?_
  refine .expect written.skip.heard.1 (.expect written.skip.next.heard.1 ?_)
  have inside := written.skip.next.next
  refine (reads inside (stops_cons (by decide)) (by omega)).bind fun found same => ?_
  refine .expect inside.skip.heard.1 (.spanFrom ?_)
  simp only [Cursor.skip_next, Cursor.next_skip, Cursor.skip_skip, SyntaxWord.parens,
    List.length_cons, List.length_append, List.length_nil]
  exact .pure_skip (by omega) (congrArg₂ (Expr.cast default) sameType same)

/-- An operand after which something is selected. -/
theorem ReadsSelection.select {others : List SyntaxWord} {result : Expr}
    (reads : ReadsSelection words value) (some : 0 < others.length)
    (holds : ∀ rest, Stops 9 (others ++ rest))
    (step : ∀ {cursor : Cursor} {rest depth start after} {good : Expr → Prop} {found : Expr},
      cursor.Stands (others ++ rest) → 16 * others.length ≤ depth + 15 → Same value found →
        (∀ selected, Same result selected →
          Yields (cursor.skip others.length) (selection depth start selected) after good) →
        Yields cursor (selection (depth + 1) start found) after good) :
    ReadsSelection (words ++ others) result := by
  intro cursor rest depth stands stops deep start after good continues
  simp only [List.length_append] at deep continues
  rw [List.append_assoc] at stands
  refine reads stands (holds rest) (by omega) fun later found enough same => ?_
  obtain ⟨later, rfl⟩ : ∃ smaller, later = smaller + 1 := ⟨later - 1, by omega⟩
  refine step stands.skip (by omega) same fun selected sameResult => ?_
  rw [Cursor.skip_skip]
  exact continues _ _ (by omega) sameResult

theorem ReadsSelection.late {span : Span} {op : StepOp} (reads : ReadsSelection words value) :
    ReadsSelection (words ++ [.symbol op.symbol]) (.step span op false value) := by
  refine reads.select (by simp) (fun rest => stops_cons (by cases op <;> decide))
    fun stands _ same continues => ?_
  next cursor rest depth start after good found _ =>
  have kind : cursor.current.kind = .symbol op.symbol := stands.heard.1
  refine .current ?_
  cases op <;>
  · simp only [kind, StepOp.symbol, stepOp?]
    exact .advance (.spanFrom (continues _ (congrArg (Expr.step default _ false) same)))

theorem ReadsSelection.member {span : Span} {field : Text} (reads : ReadsSelection words value) :
    ReadsSelection (words ++ [.symbol .dot, .name field]) (.member span value field) := by
  refine reads.select (by simp) (fun rest => stops_cons (by decide))
    fun stands _ same continues => ?_
  next cursor rest depth start after good found _ =>
  have kind : cursor.current.kind = .symbol .dot := stands.heard.1
  refine .current ?_
  simp only [kind]
  refine .advance (.expectName stands.next.heard.1 (.spanFrom (continues _ ?_)))
  rw [stands.next.heard.2]
  exact congrArg (Expr.member default · field) same

theorem ReadsSelection.index {span : Span} {others : List SyntaxWord} {place : Expr}
    (reads : ReadsSelection words value) (inside : ReadsExpression others place) :
    ReadsSelection (words ++ .symbol .leftBracket :: (others ++ [.symbol .rightBracket]))
      (.index span value place) := by
  refine reads.select (by simp) (fun rest => stops_cons (by decide))
    fun stands deep same continues => ?_
  next cursor rest depth start after good found =>
  simp only [List.length_cons, List.length_append, List.length_nil] at deep continues
  have kind : cursor.current.kind = .symbol .leftBracket := stands.heard.1
  have next : cursor.next.Stands (others ++ .symbol .rightBracket :: rest) := by
    simpa using stands.next
  refine .current ?_
  simp only [kind]
  refine .advance ((inside next (stops_cons (by decide)) (by omega)).bind fun read samePlace => ?_)
  refine .expect next.skip.heard.1 (.spanFrom ?_)
  simp only [Cursor.skip_next, Cursor.next_skip]
  exact continues _ (congrArg₂ (Expr.index default) same samePlace)

theorem ReadsUnary.unary {span : Span} {op : UnaryOp} (reads : ReadsUnary words value) :
    ReadsUnary (.symbol op.symbol :: words) (.unary span op value) := by
  intro cursor rest depth stands stops deep
  simp only [List.length_cons] at deep
  obtain ⟨depth, rfl⟩ : ∃ smaller, depth = smaller + 1 := ⟨depth - 1, by omega⟩
  have operator : unaryOp? cursor.current = some op := by
    rw [unaryOp?, stands.heard.1]
    cases op <;> rfl
  refine .current ?_
  simp only [operator]
  refine .advance ((reads stands.next stops (by omega)).bind fun found same => .spanFrom ?_)
  exact .pure (congrArg (Expr.unary default op) same)

theorem ReadsUnary.early {span : Span} {op : StepOp} (reads : ReadsUnary words value) :
    ReadsUnary (.symbol op.symbol :: words) (.step span op true value) := by
  intro cursor rest depth stands stops deep
  simp only [List.length_cons] at deep
  obtain ⟨depth, rfl⟩ : ∃ smaller, depth = smaller + 1 := ⟨depth - 1, by omega⟩
  have operator : unaryOp? cursor.current = none ∧ stepOp? cursor.current = some op := by
    rw [unaryOp?, stepOp?, stands.heard.1]
    cases op <;> exact ⟨rfl, rfl⟩
  refine .current ?_
  simp only [operator.1, operator.2]
  refine .advance ((reads stands.next stops (by omega)).bind fun found same => .spanFrom ?_)
  exact .pure (congrArg (Expr.step default op true) same)

/-- Infix operators group to the left: the operands so far are the left operand of the next
operator, and its right operand binds tighter. -/
theorem ReadsBinary.operate {span : Span} {op : BinaryOp} {others : List SyntaxWord} {right : Expr}
    (first : ReadsBinary op.precedence words value)
    (second : ReadsBinary (op.precedence + 1) others right) :
    ReadsBinary op.precedence (words ++ .symbol op.symbol :: others)
      (.binary span op value right) := by
  intro cursor rest depth least stands stops within deep after good continues
  simp only [List.length_append, List.length_cons] at deep continues
  rw [List.append_assoc] at stands
  have grip : (SyntaxWord.symbol op.symbol).kind.grip = op.precedence := by cases op <;> rfl
  refine first stands (stops_cons (Nat.le_of_eq grip)) within (by omega)
    fun later left enough same => ?_
  obtain ⟨later, rfl⟩ : ∃ smaller, later = smaller + 1 := ⟨later - 1, by omega⟩
  have operator : infixOp? (cursor.skip words.length).current = some op := by
    rw [infixOp?, stands.skip.heard.1]
    exact BinaryOp.ofSymbol?_symbol op
  have next := stands.skip.next
  refine .current ?_
  simp only [operator, if_neg (Nat.not_lt.mpr within)]
  have operand : Yields (cursor.skip words.length).next (Parse.binary later (op.precedence + 1))
      ((cursor.skip words.length).next.skip others.length) (Same right) :=
    second next (stops.mono (Nat.le_succ _)) (Nat.le_refl _) (by omega)
      fun further found enough same =>
        yields_binaryFrom_end (precedence_lt_of_stops next.skip stops (Nat.lt_succ_self _))
          (by omega)
          same
  refine .advance (operand.bind fun found sameRight => .spanFrom ?_)
  rw [Cursor.skip_next, Cursor.skip_skip]
  exact continues _ _ (by omega) (congrArg₂ (Expr.binary default op) same sameRight)

theorem ReadsBinary.assign {span : Span} {others : List SyntaxWord} {result : Expr}
    (target : ReadsBinary 1 words value) (reads : ReadsExpression others result) :
    ReadsExpression (words ++ .symbol .assign :: others) (.assign span value result) := by
  intro cursor rest depth stands stops deep
  simp only [List.length_append, List.length_cons] at deep
  rw [List.append_assoc] at stands
  obtain ⟨depth, rfl⟩ : ∃ smaller, depth = smaller + 1 := ⟨depth - 1, by omega⟩
  refine .current ?_
  have operands : Yields cursor (Parse.binary depth 1) (cursor.skip words.length) (Same value) := by
    refine target stands (stops_cons (by decide)) (Nat.le_refl 1) (by omega)
      fun later found enough same => yields_binaryFrom_end ?_ (by omega) same
    intro op operator
    rw [infixOp?, stands.skip.heard.1] at operator
    cases operator
  have next := stands.skip.next
  refine operands.bind fun found sameTarget => .isAt ?_
  rw [decide_eq_true stands.skip.heard.1]
  refine .advance ((reads next stops (by omega)).bind fun read same => .spanFrom ?_)
  rw [Cursor.skip_next, Cursor.skip_skip, List.length_append, List.length_cons]
  exact .pure_skip (by omega) (congrArg₂ (Expr.assign default) sameTarget same)

theorem readsArguments_nothing : ReadsArguments [] [] := by
  intro cursor rest depth stands deep
  obtain ⟨depth, rfl⟩ : ∃ smaller, depth = smaller + 1 := ⟨depth - 1, by simp at deep; omega⟩
  refine .isAt ?_
  rw [decide_eq_true stands.heard.1]
  exact .advance (.pure rfl)

theorem ReadsExpression.one (reads : ReadsExpression words value)
    (starts : (Phrase.expr 0 value).Starts words) : ReadsArguments words [value] := by
  intro cursor rest depth stands deep
  obtain ⟨depth, rfl⟩ : ∃ smaller, depth = smaller + 1 := ⟨depth - 1, by omega⟩
  have ends := stands.skip
  refine .isAt ?_
  rw [decide_eq_false (starts.kind_ne stands (by decide))]
  refine (reads stands (stops_cons (by decide)) (by omega)).bind fun found same => .isAt ?_
  rw [decide_eq_true ends.heard.1]
  have some := starts.length_pos
  refine (readsArguments_nothing ends (by simp only [List.length_nil]; omega)).bind
    fun others none => ?_
  rw [Cursor.skip_skip]
  exact .pure_skip rfl (congrArg₂ List.cons same none)

theorem ReadsExpression.more {others : List SyntaxWord} {values : List Expr}
    (reads : ReadsExpression words value) (starts : (Phrase.expr 0 value).Starts words)
    (later : ReadsArguments others values) :
    ReadsArguments (words ++ .symbol .comma :: others) (value :: values) := by
  intro cursor rest depth stands deep
  simp only [List.length_append, List.length_cons] at deep
  rw [List.append_assoc] at stands
  obtain ⟨depth, rfl⟩ : ∃ smaller, depth = smaller + 1 := ⟨depth - 1, by omega⟩
  have comma := stands.skip
  have no : (cursor.skip words.length).current.kind ≠ .symbol .rightParen := by
    rw [comma.heard.1]
    decide
  refine .isAt ?_
  rw [decide_eq_false (starts.kind_ne stands (by decide))]
  refine (reads stands (stops_cons (by decide)) (by omega)).bind fun found same => .isAt ?_
  rw [decide_eq_false no]
  refine .expect comma.heard.1 ((later comma.next (by omega)).bind fun read sameAll => ?_)
  rw [Cursor.skip_next, Cursor.skip_skip, List.length_append, List.length_cons]
  exact .pure_skip (by omega) (congrArg₂ List.cons same sameAll)

/-- The grammar reads every phrase from the words that spell it. -/
theorem reads_of_spelled {phrase : Phrase} (spelled : Spelled words phrase) :
    Reads words phrase := by
  have starts := spelled.starts
  induction spelled with
  | int small => exact .of_primary (readsPrimary_int small) starts
  | string => exact .of_primary readsPrimary_string starts
  | character => exact .of_primary readsPrimary_character starts
  | bool => exact .of_primary readsPrimary_bool starts
  | null => exact .of_primary readsPrimary_null starts
  | name => exact .of_primary readsPrimary_name starts
  | call _ spelled reads => exact .of_primary (readsPrimary_call (reads spelled.starts)) starts
  | cast _ spelled reads =>
    exact .of_primary (readsPrimary_cast (reads spelled.starts).expression) starts
  | sizeof => exact .of_primary readsPrimary_sizeof starts
  | parens spelled reads =>
    exact .of_primary (readsPrimary_parens (reads spelled.starts).expression) starts
  | late spelled reads =>
    exact .of_selection ((reads spelled.starts).selection (by decide)).late starts
  | member _ spelled reads =>
    exact .of_selection ((reads spelled.starts).selection (by decide)).member starts
  | index spelled inside reads readsInside =>
    exact .of_selection (((reads spelled.starts).selection (by decide)).index
      (readsInside inside.starts).expression) starts
  | unary spelled reads =>
    exact .of_unary ((reads spelled.starts).unary (by decide)).unary starts.length_pos
  | early spelled reads =>
    exact .of_unary ((reads spelled.starts).unary (by decide)).early starts.length_pos
  | binary first second reads readsSecond =>
    next op =>
    have bounds : 1 ≤ op.precedence ∧ op.precedence < 7 := by cases op <;> decide
    have left := (reads first.starts).binary bounds.1
    have right := (readsSecond second.starts).binary (by omega)
    rw [Nat.min_eq_left (by omega)] at left right
    exact .of_binary (left.operate right) starts.length_pos bounds.1 bounds.2
  | assign first second reads readsSecond =>
    have target := (reads first.starts).binary (Nat.le_refl 1)
    exact .of_expression (target.assign (readsSecond second.starts).expression)
  | loosen spelled loose reads => exact (reads spelled.starts).loosen loose
  | nothing => exact readsArguments_nothing
  | one spelled reads => exact (reads spelled.starts).expression.one spelled.starts
  | more spelled later reads readsLater =>
    exact (reads spelled.starts).expression.more spelled.starts (readsLater later.starts)

end Parse

end TinLang
