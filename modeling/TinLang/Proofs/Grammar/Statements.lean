import TinLang.Proofs.Grammar.Spelling

/-!
# Spelled statements and declarations

`SpelledCode` relates words to statements, and `SpelledDeclaration` to declarations, on top of
`Spelled`. The grammar reads the words back, up to places and without an error, and a whole file
is its declarations one after another.
-/
namespace TinLang

variable {parts : List (List SyntaxWord)} {fields : List Field} {name : Text} {code : CodePhrase}

/-- Words spell an equals sign with a value, or there are none. -/
def SpelledInitial : List SyntaxWord → Option Expr → Prop
  | words, none => words = []
  | words, some value =>
    ∃ others, words = .symbol .assign :: others ∧ Spelled others (.expr 0 value)

/-- Words spell a constant. -/
inductive SpelledConstant : List SyntaxWord → ConstDecl → Prop
  | mk {span words value} {name : Text} {type : Option TypeExpr} (proper : name.isName)
    (typed : ∀ written ∈ type, written.name.isName) (spelled : Spelled words (.expr 0 value)) :
    SpelledConstant (.keyword .constDecl :: .name name :: (TypeExpr.annotation type ++
      .symbol .assign :: (words ++ [.symbol .semicolon]))) ⟨span, name, type, value⟩

/-- What some words spell among statements: one of them, a choice from its reserved word on, the
other side of a choice, a block or what stands in it. -/
inductive CodePhrase where
  | statement (statement : Stmt)
  | choice (choice : Stmt)
  | otherwise (side : Option Stmt)
  | block (body : Block)
  | statements (statements : List Stmt)

/-- Words spell code. -/
inductive SpelledCode : List SyntaxWord → CodePhrase → Prop
  | declare {span words value} {name : Text} {type : TypeExpr} (proper : name.isName)
    (typed : type.name.isName) (spelled : SpelledInitial words value) :
    SpelledCode (.name name :: .symbol .colon :: (type.words ++ (words ++ [.symbol .semicolon])))
      (.statement (.declare span name type value))
  | constant {words decl} (spelled : SpelledConstant words decl) :
    SpelledCode words (.statement (.constant decl))
  | evaluate {span words value} (spelled : Spelled words (.expr 0 value)) :
    SpelledCode (words ++ [.symbol .semicolon]) (.statement (.evaluate span value))
  | branch {words choice} (spelled : SpelledCode words (.choice choice)) :
    SpelledCode words (.statement choice)
  | loop {span words others condition body} (spelled : Spelled words (.expr 0 condition))
    (inside : SpelledCode others (.block body)) :
    SpelledCode (.keyword .whileLoop :: (words ++ others)) (.statement (.loop span condition body))
  | leave {span} :
    SpelledCode [.keyword .breakLoop, .symbol .semicolon] (.statement (.leave span))
  | again {span} :
    SpelledCode [.keyword .continueLoop, .symbol .semicolon] (.statement (.again span))
  | finish {span} :
    SpelledCode [.keyword .returnValue, .symbol .semicolon] (.statement (.result span none))
  | result {span words value} (spelled : Spelled words (.expr 0 value)) :
    SpelledCode (.keyword .returnValue :: (words ++ [.symbol .semicolon]))
      (.statement (.result span (some value)))
  | block {words body} (inside : SpelledCode words (.block body)) :
    SpelledCode words (.statement (.block body))
  | choice {span words others more condition body side} (spelled :
    Spelled words (.expr 0 condition))
    (inside : SpelledCode others (.block body)) (otherwise : SpelledCode more (.otherwise side)) :
    SpelledCode (.keyword .ifBranch :: (words ++ (others ++ more)))
      (.choice (.branch span condition body side))
  | plain : SpelledCode [] (.otherwise none)
  | final {words body} (inside : SpelledCode words (.block body)) :
    SpelledCode (.keyword .elseBranch :: words) (.otherwise (some (.block body)))
  | chain {words choice} (spelled : SpelledCode words (.choice choice)) :
    SpelledCode (.keyword .elseBranch :: words) (.otherwise (some choice))
  | braces {span words statements} (inside : SpelledCode words (.statements statements)) :
    SpelledCode (.symbol .leftBrace :: (words ++ [.symbol .rightBrace]))
      (.block (.mk span statements))
  | nothing : SpelledCode [] (.statements [])
  | more {words others statement statements} (spelled : SpelledCode words (.statement statement))
    (later : SpelledCode others (.statements statements)) :
    SpelledCode (words ++ others) (.statements (statement :: statements))

/-- A field with proper names. -/
def Field.Proper (field : Field) : Prop := field.name.isName ∧ field.type.name.isName

/-- Words spell a declaration. -/
inductive SpelledDeclaration : List SyntaxWord → Declaration → Prop
  | struct {span name members} (proper : Text.isName name)
    (inside : ∀ mem ∈ members, Field.Proper mem) :
    SpelledDeclaration (.keyword .structDecl :: .name name :: .symbol .leftBrace ::
      (SyntaxWord.commas (members.map Field.words) ++ [.symbol .rightBrace]))
      (.struct ⟨span, name, members⟩)
  | constant {words decl} (spelled : SpelledConstant words decl) :
    SpelledDeclaration words (.constant decl)
  | global {span words value} {name : Text} {type : TypeExpr} (proper : name.isName)
    (typed : type.name.isName) (spelled : SpelledInitial words value) :
    SpelledDeclaration (.keyword .globalDecl :: .name name :: .symbol .colon :: (type.words ++
      (words ++ [.symbol .semicolon]))) (.global ⟨span, name, type, value⟩)
  | function {span name params words body} {result : Option TypeExpr} (proper : Text.isName name)
    (inside : ∀ param ∈ params, Field.Proper param)
    (typed : ∀ written ∈ result, written.name.isName)
    (spelled : SpelledCode words (.block body)) :
    SpelledDeclaration (.keyword .funDecl :: .name name ::
      (SyntaxWord.parens (SyntaxWord.commas (params.map Field.words)) ++
        (TypeExpr.annotation result ++ words)))
      (.function ⟨span, name, params, result, body⟩)

/-- The kinds of tokens with which no statement starts. -/
def TokenKind.endsStatements (kind : TokenKind) : Bool :=
  kind ∈ [.endOfText, .symbol .rightBrace, .keyword .elseBranch]

/-- Code starts as its kind requires. -/
def CodePhrase.Starts : CodePhrase → List SyntaxWord → Prop
  | .statement _, words =>
    ∃ first others, words = first :: others ∧ first.kind.endsStatements = false
  | .choice _, words => ∃ others, words = .keyword .ifBranch :: others
  | .block _, words => ∃ others, words = .symbol .leftBrace :: others
  | .statements _, words =>
    words = [] ∨ ∃ first others, words = first :: others ∧ first.kind.endsStatements = false
  | .otherwise _, _ => True

theorem SpelledCode.starts {words : List SyntaxWord} (spelled : SpelledCode words code) :
    code.Starts words := by
  induction spelled with
  | declare => exact ⟨_, _, rfl, rfl⟩
  | constant spelled => cases spelled; exact ⟨_, _, rfl, rfl⟩
  | evaluate spelled =>
    have starts := spelled.starts
    obtain ⟨first, others, rfl, -⟩ := spelled.starts
    refine ⟨first, _, rfl, ?_⟩
    simp only [TokenKind.endsStatements, List.mem_cons, List.not_mem_nil, or_false, not_or,
      decide_eq_false_iff_not]
    exact ⟨starts.head_ne rfl, starts.head_ne rfl, starts.head_ne rfl⟩
  | branch _ starts =>
    obtain ⟨others, rfl⟩ := starts
    exact ⟨_, _, rfl, rfl⟩
  | loop | leave | again | finish | result => exact ⟨_, _, rfl, rfl⟩
  | block _ starts =>
    obtain ⟨others, rfl⟩ := starts
    exact ⟨_, _, rfl, rfl⟩
  | choice => exact ⟨_, rfl⟩
  | braces => exact ⟨_, rfl⟩
  | nothing => exact .inl rfl
  | more _ _ starts =>
    obtain ⟨first, others, rfl, plain⟩ := starts
    exact .inr ⟨_, _, rfl, plain⟩
  | plain | final | chain => trivial

section Proper

open SyntaxWord (Proper isProper proper_type)

variable {words : List SyntaxWord}

theorem SpelledInitial.proper {value : Option Expr} (spelled : SpelledInitial words value) :
    Proper words := by
  cases value with
  | none => rw [spelled]; exact SyntaxWord.proper_nil
  | some value =>
    obtain ⟨others, rfl, spelled⟩ := spelled
    simpa [isProper] using spelled.proper

theorem proper_annotation {type : Option TypeExpr} (typed : ∀ written ∈ type, written.name.isName) :
    Proper (TypeExpr.annotation type) := by
  cases type with
  | none => exact SyntaxWord.proper_nil
  | some type => simpa [TypeExpr.annotation, isProper, proper_type] using typed type rfl

theorem SpelledConstant.proper {decl : ConstDecl}
    (spelled : SpelledConstant words decl) : Proper words := by
  cases spelled with
  | mk proper typed spelled =>
    simpa [isProper] using ⟨proper, proper_annotation typed, spelled.proper⟩

theorem SpelledCode.proper (spelled : SpelledCode words code) :
    Proper words := by
  induction spelled with
  | declare proper typed spelled =>
    simpa [isProper, proper_type] using ⟨proper, typed, spelled.proper⟩
  | constant spelled => exact spelled.proper
  | evaluate spelled | result spelled => simpa [isProper] using spelled.proper
  | branch _ proper | block _ proper => exact proper
  | loop spelled _ proper => simpa [isProper] using ⟨spelled.proper, proper⟩
  | choice spelled _ _ inside otherwise =>
    simpa [isProper] using ⟨spelled.proper, inside, otherwise⟩
  | final _ proper | chain _ proper | braces _ proper => simpa [isProper] using proper
  | more _ _ first later => simpa using ⟨first, later⟩
  | leave | again | finish | plain | nothing => simp [isProper]

theorem proper_commas (each : ∀ words ∈ parts, Proper words) :
    Proper (SyntaxWord.commas parts) := by
  induction parts with
  | nil => exact SyntaxWord.proper_nil
  | cons first parts ih =>
    have later := ih fun words mem => each words (List.mem_cons_of_mem _ mem)
    cases parts with
    | nil => exact each first (by simp)
    | cons second parts => simpa [SyntaxWord.commas, isProper] using ⟨each first (by simp), later⟩

theorem proper_fields (proper : ∀ field ∈ fields, field.Proper) :
    Proper (SyntaxWord.commas (fields.map Field.words)) := by
  refine proper_commas fun words mem => ?_
  obtain ⟨field, listed, rfl⟩ := List.mem_map.mp mem
  have both : field.name.isName ∧ field.type.name.isName := proper field listed
  simpa [Field.words, isProper, proper_type] using both

theorem SpelledDeclaration.proper {decl : Declaration}
    (spelled : SpelledDeclaration words decl) : Proper words := by
  cases spelled with
  | struct proper inside => simpa [isProper] using ⟨proper, proper_fields inside⟩
  | constant spelled => exact spelled.proper
  | global proper typed spelled =>
    simpa [isProper, proper_type] using ⟨proper, typed, spelled.proper⟩
  | function proper inside typed spelled =>
    simpa [SyntaxWord.parens, isProper] using
      ⟨proper, proper_fields inside, proper_annotation typed, spelled.proper⟩

end Proper

namespace Parse

variable {α : Type} {cursor : Cursor} {words rest : List SyntaxWord}

/-- A field is read up to the end of its type. -/
theorem yields_field {expected : Field} (stands : cursor.Stands (expected.words ++ rest))
    (ends : ∀ word ∈ rest.head?, word.kind ≠ .symbol .star) :
    Yields cursor field (cursor.skip expected.words.length) (·.bare = expected.bare) := by
  have type := stands.next.next
  refine .current (.expectName stands.heard.1 (.expect stands.next.heard.1 ?_))
  refine (yields_type type ends).bind fun found same => .spanFrom (.pure ?_)
  rw [stands.heard.2]
  exact congrArg (Field.mk default expected.name) same

/-- A type after a colon is read, or none where there is no colon. -/
theorem yields_annotation {type : Option TypeExpr} {next : Option TypeExpr → Parse α}
    {after : Cursor} {good : α → Prop} {first : SyntaxWord}
    (stands : cursor.Stands (TypeExpr.annotation type ++ first :: rest))
    (ends : first.kind ≠ .symbol .star ∧ first.kind ≠ .symbol .colon)
    (later : ∀ found : Option TypeExpr, found.map TypeExpr.bare = type.map TypeExpr.bare →
      Yields (cursor.skip (TypeExpr.annotation type).length) (next found) after good) :
    Yields cursor (isAtSymbol .colon >>= fun colon =>
      if colon then advance >>= fun _ => some <$> Parse.type >>= next else pure none >>= next)
      after good := by
  refine .isAt ?_
  cases type with
  | none =>
    have no : cursor.current.kind ≠ .symbol .colon := by
      rw [stands.heard.kind]
      exact ends.2
    rw [decide_eq_false no]
    exact later none rfl
  | some type =>
    have written : cursor.next.Stands (type.words ++ first :: rest) := stands.next
    rw [decide_eq_true stands.heard.1]
    have read : Yields cursor.next (some <$> Parse.type) (cursor.next.skip type.words.length)
        fun found => found.map TypeExpr.bare = some type.bare :=
      .map ((yields_type written (by simpa using ends.1)).mono fun found same => congrArg some same)
    exact .advance (read.bind later)

/-- The depth that the rules for statements give an expression suffices. -/
theorem enough_depthFor (stands : cursor.Stands (words ++ rest)) :
    16 * words.length ≤ depthFor cursor.remaining := by
  have enough := stands.enough
  rw [List.length_append] at enough
  rw [depthFor]
  omega

theorem yields_expression {value : Expr} (spelled : Spelled words (.expr 0 value))
    (stands : cursor.Stands (words ++ rest)) (stops : Stops 0 rest) :
    Yields cursor (expression (depthFor cursor.remaining)) (cursor.skip words.length)
      (Same value) :=
  (reads_of_spelled spelled).expression stands stops (enough_depthFor stands)

/-- A value after an equals sign is read, or none. -/
theorem yields_initializer {value : Option Expr} (spelled : SpelledInitial words value)
    (stands : cursor.Stands (words ++ rest)) (stops : Stops 0 rest) :
    Yields cursor (initializer (depthFor cursor.remaining)) (cursor.skip words.length)
      (·.map Expr.bare = value.map Expr.bare) := by
  have enough := enough_depthFor stands
  cases value with
  | none =>
    obtain rfl := spelled
    refine .isAt ?_
    rw [decide_eq_false (stands.kind_ne stops (by decide))]
    exact .pure rfl
  | some value =>
    obtain ⟨others, rfl, spelled⟩ := spelled
    simp only [List.length_cons] at enough
    refine .isAt ?_
    rw [decide_eq_true stands.heard.1]
    refine .advance (Yields.map ?_)
    exact ((reads_of_spelled spelled).expression stands.next stops (by omega)).mono
      fun found same => congrArg some same

theorem yields_constant {decl : ConstDecl} (spelled : SpelledConstant words decl)
    (stands : cursor.Stands (words ++ rest)) :
    Yields cursor (constant (depthFor cursor.remaining)) (cursor.skip words.length)
      (·.bare = decl.bare) := by
  have enough := enough_depthFor stands
  cases spelled with
  | @mk span words value name type proper typed spelled =>
    simp only [List.length_cons, List.length_append] at enough
    simp only [List.cons_append, List.append_assoc] at stands
    have annotated := stands.next.next
    have assign := annotated.skip
    have value := assign.next
    refine .current (.advance (.expectName stands.next.heard.1 ?_))
    refine yields_annotation annotated (by decide) fun found sameType => ?_
    refine .expect assign.heard.1 ?_
    refine ((reads_of_spelled spelled).expression value (stops_cons (by decide)) (by omega)).bind
      fun read same => .expect value.skip.heard.1 (.spanFrom ?_)
    simp only [Cursor.skip_next, Cursor.next_skip, Cursor.skip_skip, List.length_cons,
      List.length_append, List.length_nil, stands.next.heard.2]
    exact .pure_skip (by omega) (congrArg₂ (ConstDecl.mk default name) sameType same)

/-- A statement before its semicolon ends there. -/
theorem yields_endStatement {statement : Stmt} {good : Stmt → Prop}
    (stands : cursor.Stands (.symbol .semicolon :: rest)) (holds : good statement) :
    Yields cursor (endStatement statement) cursor.next good := by
  have passed : Yields cursor (expectSymbol .semicolon) cursor.next fun _ => True := by
    have step : expectSymbol .semicolon = expectSymbol .semicolon >>= fun _ => pure () := by
      rw [bind_pure_unit]
    rw [step]
    exact .expect stands.heard.1 (.pure trivial)
  exact passed.attempt.bind fun _ _ => .pure holds

/-- The words are read as a statement, unless the other side of a choice follows. -/
def ReadsStatement (words : List SyntaxWord) (expected : Stmt) : Prop :=
  ∀ ⦃cursor : Cursor⦄ ⦃rest depth⦄, cursor.Stands (words ++ rest) →
    (∀ word ∈ rest.head?, word.kind ≠ .keyword .elseBranch) → 4 * words.length ≤ depth + 1 →
      Yields cursor (statement depth) (cursor.skip words.length) (·.bare = expected.bare)

/-- The words are read as a choice, unless its other side follows. -/
def ReadsChoice (words : List SyntaxWord) (expected : Stmt) : Prop :=
  ∀ ⦃cursor : Cursor⦄ ⦃rest depth⦄, cursor.Stands (words ++ rest) →
    (∀ word ∈ rest.head?, word.kind ≠ .keyword .elseBranch) → 4 * words.length ≤ depth + 2 →
      Yields cursor (branch depth) (cursor.skip words.length) (·.bare = expected.bare)

/-- The words are read as a block. -/
def ReadsBlock (words : List SyntaxWord) (expected : Block) : Prop :=
  ∀ ⦃cursor : Cursor⦄ ⦃rest depth⦄, cursor.Stands (words ++ rest) →
    4 * words.length ≤ depth + 2 →
      Yields cursor (block depth) (cursor.skip words.length) (·.bare = expected.bare)

/-- The words are none, or are read as the other side of a choice. -/
def ReadsOtherwise (words : List SyntaxWord) : Option Stmt → Prop
  | none => words = []
  | some expected => ∃ others, words = .keyword .elseBranch :: others ∧
    ∀ ⦃cursor : Cursor⦄ ⦃rest depth⦄, cursor.Stands (others ++ rest) →
      (∀ word ∈ rest.head?, word.kind ≠ .keyword .elseBranch) → 4 * others.length ≤ depth + 2 →
        ∀ ⦃next : Stmt → Parse Stmt⦄ ⦃after⦄ ⦃good : Stmt → Prop⦄,
          (∀ found, found.bare = expected.bare →
            Yields (cursor.skip others.length) (next found) after good) →
          Yields cursor (isAt (.keyword .ifBranch) >>= fun chained =>
            if chained then branch depth >>= next else .block <$> block depth >>= next) after good

/-- The words are read as the statements of a block, up to and with its closing brace. -/
def ReadsStatements (words : List SyntaxWord) (expected : List Stmt) : Prop :=
  ∀ ⦃cursor : Cursor⦄ ⦃rest depth⦄, cursor.Stands (words ++ .symbol .rightBrace :: rest) →
    4 * (words.length + 1) ≤ depth →
      Yields cursor (statements depth) (cursor.skip (words.length + 1))
        (bareStatements · = bareStatements expected)

/-- The grammar reads the words as the code. -/
def ReadsCode (words : List SyntaxWord) : CodePhrase → Prop
  | .statement expected => ReadsStatement words expected
  | .choice expected => ReadsChoice words expected
  | .otherwise expected => ReadsOtherwise words expected
  | .block expected => ReadsBlock words expected
  | .statements expected => ReadsStatements words expected

variable {span : Span} {value : Expr} {body : Block} {others : List SyntaxWord}

/-- A word is written with its own kind, and a statement in it is entered at a positive depth. -/
theorem readsStatement_of_enter {expected : Stmt} (positive : 0 < words.length)
    (enter : ∀ {cursor : Cursor} {rest depth}, cursor.Stands (words ++ rest) →
      (∀ word ∈ rest.head?, word.kind ≠ .keyword .elseBranch) → 4 * words.length ≤ depth + 2 →
        Yields cursor (statement (depth + 1)) (cursor.skip words.length) (·.bare = expected.bare)) :
    ReadsStatement words expected := by
  intro cursor rest depth stands ends deep
  obtain ⟨depth, rfl⟩ : ∃ smaller, depth = smaller + 1 := ⟨depth - 1, by omega⟩
  exact enter stands ends deep

theorem readsStatement_declare {type : TypeExpr} {value : Option Expr}
    (spelled : SpelledInitial words value) : ReadsStatement
      (.name name :: .symbol .colon :: (type.words ++ (words ++ [.symbol .semicolon])))
      (.declare span name type value) := by
  refine readsStatement_of_enter (by simp) fun {cursor rest depth} stands _ _ => ?_
  have shape : cursor.Stands ((Field.mk default name type).words ++
      (words ++ .symbol .semicolon :: rest)) := by
    simpa [Field.words] using stands
  have star : ∀ word ∈ (words ++ .symbol .semicolon :: rest).head?, word.kind ≠ .symbol .star := by
    cases value with
    | none => rw [spelled]; simp [SyntaxWord.kind]
    | some value => obtain ⟨others, rfl, -⟩ := spelled; simp [SyntaxWord.kind]
  have initial := shape.skip
  refine .current ?_
  simp only [stands.heard.1]
  refine .get ?_
  rw [if_pos ⟨trivial, stands.next.heard.1⟩]
  refine (yields_field shape star).bind fun field sameField => .get ?_
  refine (yields_initializer spelled initial (stops_cons (by decide))).bind fun read same => ?_
  refine .spanFrom ?_
  have sameName : field.name = name := congrArg Field.name sameField
  have sameType : field.type.bare = type.bare := congrArg Field.type sameField
  have passed : cursor.skip (SyntaxWord.name name :: .symbol .colon ::
      (type.words ++ (words ++ [.symbol .semicolon]))).length =
        ((cursor.skip (Field.mk default name type).words.length).skip words.length).next := by
    simp [Field.words]
    congr 1
    omega
  rw [passed]
  refine yields_endStatement initial.skip ?_
  rw [sameName]
  exact congrArg₂ (Stmt.declare default name) sameType same

/-- No expression has a colon after its first word, which would make it a declaration. -/
theorem following_ne_colon (spelled : Spelled words (.expr 0 value))
    (stands : cursor.Stands (words ++ .symbol .semicolon :: rest)) :
    cursor.following.kind ≠ .symbol .colon := by
  have colonless := spelled.colonless
  obtain ⟨first, others, rfl, -⟩ := spelled.starts
  have next : cursor.next.Stands (others ++ .symbol .semicolon :: rest) := stands.next
  change cursor.next.current.kind ≠ _
  cases others with
  | nil => rw [next.heard.1]; decide
  | cons second others =>
    intro kind
    rw [next.heard.kind] at kind
    cases second <;> cases kind
    simp at colonless

theorem readsStatement_evaluate (spelled : Spelled words (.expr 0 value)) :
    ReadsStatement (words ++ [.symbol .semicolon]) (.evaluate span value) := by
  refine readsStatement_of_enter (by simp) fun {cursor rest depth} stands _ _ => ?_
  rw [List.append_assoc] at stands
  have plain : ∀ kind : TokenKind, kind.startsNone → cursor.current.kind ≠ kind :=
    fun kind other => spelled.starts.kind_ne stands other
  refine .current ?_
  split
  iterate 7 next kind => exact absurd kind (plain _ rfl)
  refine .get ?_
  rw [if_neg fun both => following_ne_colon spelled stands both.2]
  refine .get ((yields_expression spelled stands (stops_cons (by decide))).bind fun found same =>
    ?_)
  refine .spanFrom ?_
  rw [List.length_append, List.length_singleton, ← Cursor.next_skip]
  exact yields_endStatement stands.skip (congrArg (Stmt.evaluate default) same)

theorem readsStatement_constant {decl : ConstDecl}
    (spelled : SpelledConstant words decl) :
    ReadsStatement words (.constant decl) := by
  have head : ∃ others, words = .keyword .constDecl :: others := by cases spelled; exact ⟨_, rfl⟩
  obtain ⟨others, rfl⟩ := head
  refine readsStatement_of_enter (by simp) fun {cursor rest depth} stands _ _ => ?_
  refine .current ?_
  simp only [show cursor.current.kind = .keyword .constDecl from stands.heard.1]
  exact .get ((yields_constant spelled stands).bind fun found same =>
    .pure (congrArg Stmt.constant same))

theorem readsStatement_loop {condition : Expr} (spelled : Spelled words (.expr 0 condition))
    (starts : (CodePhrase.block body).Starts others) (inside : ReadsBlock others body) :
    ReadsStatement (.keyword .whileLoop :: (words ++ others)) (.loop span condition body) := by
  refine readsStatement_of_enter (by simp) fun {cursor rest depth} stands _ deep => ?_
  obtain ⟨tail, rfl⟩ := starts
  have next : cursor.next.Stands (words ++ (.symbol .leftBrace :: tail ++ rest)) := by
    simpa using stands.next
  have positive := spelled.starts.length_pos
  simp only [List.length_cons, List.length_append] at deep
  refine .current ?_
  simp only [show cursor.current.kind = .keyword .whileLoop from stands.heard.1]
  refine .advance (.get ?_)
  refine (yields_expression spelled next (stops_cons (by decide))).bind fun found same => ?_
  refine (inside next.skip (by simp only [List.length_cons]; omega)).bind fun read sameBody => ?_
  refine .spanFrom ?_
  simp only [Cursor.skip_next, Cursor.skip_skip, List.length_cons, List.length_append]
  exact .pure_skip (by omega) (congrArg₂ (Stmt.loop default) same sameBody)

theorem readsStatement_leave : ReadsStatement [.keyword .breakLoop, .symbol .semicolon]
    (.leave span) := by
  refine readsStatement_of_enter (by simp) fun {cursor rest depth} stands _ _ => ?_
  refine .current ?_
  simp only [show cursor.current.kind = .keyword .breakLoop from stands.heard.1]
  exact .advance (.spanFrom (yields_endStatement stands.next rfl))

theorem readsStatement_again :
    ReadsStatement [.keyword .continueLoop, .symbol .semicolon] (.again span) := by
  refine readsStatement_of_enter (by simp) fun {cursor rest depth} stands _ _ => ?_
  refine .current ?_
  simp only [show cursor.current.kind = .keyword .continueLoop from stands.heard.1]
  exact .advance (.spanFrom (yields_endStatement stands.next rfl))

theorem readsStatement_finish :
    ReadsStatement [.keyword .returnValue, .symbol .semicolon] (.result span none) := by
  refine readsStatement_of_enter (by simp) fun {cursor rest depth} stands _ _ => ?_
  refine .current ?_
  simp only [show cursor.current.kind = .keyword .returnValue from stands.heard.1]
  refine .advance (.isAt ?_)
  rw [decide_eq_true stands.next.heard.1]
  exact .value (.spanFrom (yields_endStatement stands.next rfl))

theorem readsStatement_result (spelled : Spelled words (.expr 0 value)) :
    ReadsStatement (.keyword .returnValue :: (words ++ [.symbol .semicolon]))
      (.result span (some value)) := by
  refine readsStatement_of_enter (by simp) fun {cursor rest depth} stands _ _ => ?_
  have next : cursor.next.Stands (words ++ .symbol .semicolon :: rest) := by
    simpa using stands.next
  refine .current ?_
  simp only [show cursor.current.kind = .keyword .returnValue from stands.heard.1]
  refine .advance (.isAt ?_)
  rw [decide_eq_false (spelled.starts.kind_ne next rfl)]
  refine .get ?_
  have read : Yields cursor.next (some <$> expression (depthFor cursor.next.remaining))
      (cursor.next.skip words.length) fun found => found.map Expr.bare = some value.bare :=
    .map ((yields_expression spelled next (stops_cons (by decide))).mono
      fun found same => congrArg some same)
  refine read.bind fun found same => .spanFrom ?_
  have passed : cursor.skip (SyntaxWord.keyword .returnValue ::
    (words ++ [.symbol .semicolon])).length =
      (cursor.next.skip words.length).next := by
    simp
  rw [passed]
  exact yields_endStatement next.skip (congrArg (Stmt.result default) same)

theorem readsStatement_block (starts : (CodePhrase.block body).Starts words)
    (inside : ReadsBlock words body) : ReadsStatement words (.block body) := by
  obtain ⟨tail, rfl⟩ := starts
  refine readsStatement_of_enter (by simp) fun {cursor rest depth} stands _ deep => ?_
  refine .current ?_
  simp only [show cursor.current.kind = .symbol .leftBrace from stands.heard.1]
  exact (inside stands deep).bind fun found same => .pure (congrArg Stmt.block same)

theorem readsStatement_branch {choice : Stmt} (starts : (CodePhrase.choice choice).Starts words)
    (reads : ReadsChoice words choice) : ReadsStatement words choice := by
  obtain ⟨tail, rfl⟩ := starts
  refine readsStatement_of_enter (by simp) fun {cursor rest depth} stands ends deep => ?_
  refine .current ?_
  simp only [show cursor.current.kind = .keyword .ifBranch from stands.heard.1]
  exact reads stands ends deep

theorem readsChoice {condition : Expr} {more : List SyntaxWord} {side : Option Stmt}
    (spelled : Spelled words (.expr 0 condition)) (starts : (CodePhrase.block body).Starts others)
    (inside : ReadsBlock others body) (otherwise : ReadsOtherwise more side) :
    ReadsChoice (.keyword .ifBranch :: (words ++ (others ++ more)))
      (.branch span condition body side) := by
  intro cursor rest depth stands ends deep
  obtain ⟨tail, rfl⟩ := starts
  have next : cursor.next.Stands (words ++ (.symbol .leftBrace :: tail ++ (more ++ rest))) := by
    simpa using stands.next
  have positive := spelled.starts.length_pos
  simp only [List.length_cons, List.length_append] at deep
  obtain ⟨depth, rfl⟩ : ∃ smaller, depth = smaller + 1 := ⟨depth - 1, by omega⟩
  refine .current (.advance (.get ?_))
  refine (yields_expression spelled next (stops_cons (by decide))).bind fun found same => ?_
  refine (inside next.skip (by simp only [List.length_cons]; omega)).bind fun read sameBody => ?_
  have later : ((cursor.next.skip words.length).skip (SyntaxWord.symbol .leftBrace ::
    tail).length).Stands
      (more ++ rest) := next.skip.skip
  have sameParts := congrArg₂ (Stmt.branch default) same sameBody
  refine .isAt ?_
  cases side with
  | none =>
    obtain rfl := otherwise
    rw [decide_eq_false (later.kind_ne_of_head ends (by decide))]
    refine .spanFrom ?_
    simp only [Cursor.skip_next, Cursor.skip_skip, List.length_cons, List.length_append,
      List.length_nil]
    exact .pure_skip (by omega) (congrFun sameParts none)
  | some side =>
    obtain ⟨others, rfl, reads⟩ := otherwise
    simp only [List.length_cons] at deep
    rw [decide_eq_true later.heard.1]
    refine .advance (reads later.next ends (by omega) fun found sameSide => .spanFrom ?_)
    simp only [Cursor.skip_next, Cursor.skip_skip, List.length_cons, List.length_append]
    exact .pure_skip (by omega) (congrArg₂ (fun head side => head (some side)) sameParts sameSide)

theorem readsOtherwise_final (starts : (CodePhrase.block body).Starts words)
    (inside : ReadsBlock words body) :
    ReadsOtherwise (.keyword .elseBranch :: words) (some (.block body)) := by
  obtain ⟨tail, rfl⟩ := starts
  refine ⟨_, rfl, fun cursor rest depth stands _ deep next after good later => .isAt ?_⟩
  have no : cursor.current.kind ≠ .keyword .ifBranch := by rw [stands.heard.1]; decide
  rw [decide_eq_false no]
  have read : Yields cursor (Stmt.block <$> block depth)
      (cursor.skip (SyntaxWord.symbol .leftBrace :: tail).length)
        (·.bare = (Stmt.block body).bare) :=
    .map ((inside stands deep).mono fun found same => congrArg Stmt.block same)
  exact read.bind later

theorem readsOtherwise_chain {choice : Stmt} (starts : (CodePhrase.choice choice).Starts words)
    (reads : ReadsChoice words choice) :
    ReadsOtherwise (.keyword .elseBranch :: words) (some choice) := by
  obtain ⟨tail, rfl⟩ := starts
  refine ⟨_, rfl, fun cursor rest depth stands ends deep next after good later => .isAt ?_⟩
  rw [decide_eq_true stands.heard.1]
  exact (reads stands ends deep).bind later

theorem readsBlock {statements : List Stmt} (inside : ReadsStatements words statements) :
    ReadsBlock (.symbol .leftBrace :: (words ++ [.symbol .rightBrace])) (.mk span statements) := by
  intro cursor rest depth stands deep
  have next : cursor.next.Stands (words ++ .symbol .rightBrace ::
    rest) := by simpa using stands.next
  simp only [List.length_cons, List.length_append, List.length_nil] at deep
  obtain ⟨depth, rfl⟩ : ∃ smaller, depth = smaller + 1 := ⟨depth - 1, by omega⟩
  refine .current (.expect stands.heard.1 ?_)
  refine (inside next (by omega)).bind fun found same => .spanFrom ?_
  simp only [Cursor.skip_next, List.length_cons, List.length_append, List.length_nil]
  exact .pure_skip (by omega) (congrArg (Block.mk default) same)

theorem readsStatements_nothing : ReadsStatements [] [] := by
  intro cursor rest depth stands deep
  obtain ⟨depth, rfl⟩ : ∃ smaller, depth = smaller + 1 := ⟨depth - 1, by simp at deep; omega⟩
  refine .current ?_
  simp only [show cursor.current.kind = .symbol .rightBrace from stands.heard.1]
  exact .advance (.pure rfl)

theorem readsStatements_more {first : Stmt} {statements : List Stmt}
    (starts : (CodePhrase.statement first).Starts words) (reads : ReadsStatement words first)
    (startsLater : (CodePhrase.statements statements).Starts others)
    (later : ReadsStatements others statements) :
    ReadsStatements (words ++ others) (first :: statements) := by
  intro cursor rest depth stands deep
  rw [List.append_assoc] at stands
  rw [List.length_append] at deep
  have positive : 0 < words.length := by
    obtain ⟨word, tail, rfl, -⟩ := starts
    exact Nat.succ_pos _
  obtain ⟨depth, rfl⟩ : ∃ smaller, depth = smaller + 1 := ⟨depth - 1, by omega⟩
  have plain : cursor.current.kind.endsStatements = false := by
    obtain ⟨word, tail, rfl, plain⟩ := starts
    rw [stands.heard.kind]
    exact plain
  have ends : ∀ word ∈ (others ++ .symbol .rightBrace :: rest).head?,
      word.kind ≠ .keyword .elseBranch := by
    rintro word found kind
    obtain rfl | ⟨next, tail, rfl, plain⟩ := startsLater
    · obtain rfl := Option.some.inj found
      cases kind
    · obtain rfl := Option.some.inj found
      rw [kind] at plain
      cases plain
  have same : (cursor.skip words.length).problems = cursor.problems := stands.problems_skip
  refine .current ?_
  split
  · next kind => rw [kind] at plain; cases plain
  · next kind => rw [kind] at plain; cases plain
  · refine .problemCount ?_
    have read := reads stands ends (by omega : 4 * words.length ≤ depth + 1)
    refine read.attempt.bind fun found sameFirst => .problemCount ?_
    rw [same, if_neg (Nat.lt_irrefl _)]
    refine (later stands.skip (by omega)).bind fun others sameOthers => ?_
    obtain ⟨value, rfl, sameValue⟩ := sameFirst
    rw [Cursor.skip_skip, List.length_append]
    exact .pure_skip (by omega) (congrArg₂ List.cons sameValue sameOthers)

/-- The grammar reads all code from the words that spell it. -/
theorem reads_of_spelledCode (spelled : SpelledCode words code) :
    ReadsCode words code := by
  induction spelled with
  | declare _ _ spelled => exact readsStatement_declare spelled
  | constant spelled => exact readsStatement_constant spelled
  | evaluate spelled => exact readsStatement_evaluate spelled
  | branch spelled reads => exact readsStatement_branch spelled.starts reads
  | loop spelled inside reads => exact readsStatement_loop spelled inside.starts reads
  | leave => exact readsStatement_leave
  | again => exact readsStatement_again
  | finish => exact readsStatement_finish
  | result spelled => exact readsStatement_result spelled
  | block inside reads => exact readsStatement_block inside.starts reads
  | choice spelled inside _ reads readsSide =>
    exact readsChoice spelled inside.starts reads readsSide
  | plain => exact rfl
  | final inside reads => exact readsOtherwise_final inside.starts reads
  | chain spelled reads => exact readsOtherwise_chain spelled.starts reads
  | braces _ reads => exact readsBlock reads
  | nothing => exact readsStatements_nothing
  | more spelled later reads readsLater =>
    exact readsStatements_more spelled.starts reads later.starts readsLater

theorem yields_block (spelled : SpelledCode words (.block body))
    (stands : cursor.Stands (words ++ rest)) :
    Yields cursor (block (depthFor cursor.remaining)) (cursor.skip words.length)
      (·.bare = body.bare) := by
  have enough := enough_depthFor stands
  have reads : ReadsBlock words body := reads_of_spelledCode spelled
  exact reads stands (by omega)

end Parse

theorem SourceFile.bare_add (file : SourceFile) (decl : Declaration) :
    (file.add decl).bare = file.bare.add decl.bare := by
  cases decl <;> simp [SourceFile.bare, SourceFile.add, Declaration.bare]

theorem SourceFile.bare_foldl_add (declarations : List Declaration) (file : SourceFile) :
    (declarations.foldl SourceFile.add file).bare =
      (declarations.map Declaration.bare).foldl SourceFile.add file.bare := by
  induction declarations generalizing file with
  | nil => rfl
  | cons first others ih => simp [ih, SourceFile.bare_add]

namespace Parse

variable {cursor : Cursor} {words rest : List SyntaxWord}

/-- A comma or the closing brace ends a member. -/
theorem yields_members {struct : Text} {bound : Nat}
    (stands : cursor.Stands
      (SyntaxWord.commas (fields.map Field.words) ++ .symbol .rightBrace :: rest))
    (deep : fields.length < bound) :
    Yields cursor (members struct bound)
      (cursor.skip ((SyntaxWord.commas (fields.map Field.words)).length + 1))
      (·.map Field.bare = fields.map Field.bare) := by
  induction fields generalizing cursor bound with
  | nil =>
    obtain ⟨bound, rfl⟩ := Nat.exists_eq_add_one.mpr deep
    refine .current ?_
    simp only [show cursor.current.kind = .symbol .rightBrace from stands.heard.1]
    exact .advance (.pure rfl)
  | cons first fields ih =>
    obtain ⟨bound, rfl⟩ : ∃ smaller, bound = smaller + 1 := ⟨bound - 1, by omega⟩
    have name : cursor.current.kind = .identifier := by
      cases fields <;> exact stands.heard.1
    refine .current ?_
    simp only [name]
    cases fields with
    | nil =>
      have field : cursor.Stands (first.words ++ .symbol .rightBrace :: rest) := stands
      refine (yields_field field (by simp [SyntaxWord.kind])).bind fun found same => .current ?_
      simp only [show (cursor.skip first.words.length).current.kind = .symbol .rightBrace from
        field.skip.heard.1]
      have later := @ih (cursor.skip first.words.length) bound field.skip (by simpa using deep)
      refine .value (later.bind fun others sameOthers => ?_)
      rw [Cursor.skip_skip]
      exact .pure_skip rfl (congrArg₂ List.cons same sameOthers)
    | cons second fields =>
      have field : cursor.Stands (first.words ++ .symbol .comma ::
          (SyntaxWord.commas ((second :: fields).map Field.words) ++
            .symbol .rightBrace :: rest)) := by
        simpa [SyntaxWord.commas] using stands
      refine (yields_field field (by simp [SyntaxWord.kind])).bind fun found same => .current ?_
      simp only [show (cursor.skip first.words.length).current.kind = .symbol .comma from
        field.skip.heard.1]
      refine .advance ((ih field.skip.next (by simpa using deep)).bind fun others sameOthers => ?_)
      rw [Cursor.skip_next, Cursor.skip_skip]
      refine .pure_skip ?_ (congrArg₂ List.cons same sameOthers)
      simp only [List.map_cons, SyntaxWord.commas, List.length_append, List.length_cons]
      omega

theorem yields_params {bound : Nat}
    (stands : cursor.Stands
      (SyntaxWord.commas (fields.map Field.words) ++ .symbol .rightParen :: rest))
    (deep : fields.length < bound) :
    Yields cursor (params bound)
      (cursor.skip ((SyntaxWord.commas (fields.map Field.words)).length + 1))
      (·.map Field.bare = fields.map Field.bare) := by
  induction fields generalizing cursor bound with
  | nil =>
    obtain ⟨bound, rfl⟩ := Nat.exists_eq_add_one.mpr deep
    refine .isAt ?_
    rw [decide_eq_true stands.heard.1]
    exact .advance (.pure rfl)
  | cons first fields ih =>
    obtain ⟨bound, rfl⟩ : ∃ smaller, bound = smaller + 1 := ⟨bound - 1, by omega⟩
    have name : cursor.current.kind ≠ .symbol .rightParen := by
      cases fields <;> rw [stands.heard.1] <;> decide
    refine .isAt ?_
    rw [decide_eq_false name]
    cases fields with
    | nil =>
      have field : cursor.Stands (first.words ++ .symbol .rightParen :: rest) := stands
      refine (yields_field field (by simp [SyntaxWord.kind])).bind fun found same => .isAt ?_
      rw [decide_eq_true field.skip.heard.1]
      have later := @ih (cursor.skip first.words.length) bound field.skip (by simpa using deep)
      refine later.bind fun others sameOthers => ?_
      rw [Cursor.skip_skip]
      exact .pure_skip rfl (congrArg₂ List.cons same sameOthers)
    | cons second fields =>
      have field : cursor.Stands (first.words ++ .symbol .comma ::
          (SyntaxWord.commas ((second :: fields).map Field.words) ++
            .symbol .rightParen :: rest)) := by
        simpa [SyntaxWord.commas] using stands
      refine (yields_field field (by simp [SyntaxWord.kind])).bind fun found same => .isAt ?_
      have comma : (cursor.skip first.words.length).current.kind ≠ .symbol .rightParen := by
        rw [field.skip.heard.1]
        decide
      rw [decide_eq_false comma]
      refine .expect field.skip.heard.1
        ((ih field.skip.next (by simpa using deep)).bind fun others sameOthers => ?_)
      rw [Cursor.skip_next, Cursor.skip_skip]
      refine .pure_skip ?_ (congrArg₂ List.cons same sameOthers)
      simp only [List.map_cons, SyntaxWord.commas, List.length_append, List.length_cons]
      omega

/-- As many fields as words suffice for a bound on the number of fields. -/
theorem length_le_commas (fields : List Field) :
    fields.length ≤ (SyntaxWord.commas (fields.map Field.words)).length := by
  induction fields with
  | nil => exact Nat.zero_le _
  | cons first fields ih =>
    cases fields with
    | nil => simp [SyntaxWord.commas, Field.words]
    | cons second fields =>
      simp only [List.map_cons, SyntaxWord.commas, List.length_append, List.length_cons] at ih ⊢
      omega

theorem yields_struct (span : Span)
    (stands : cursor.Stands (.keyword .structDecl :: .name name :: .symbol .leftBrace ::
      (SyntaxWord.commas (fields.map Field.words) ++ .symbol .rightBrace :: rest))) :
    Yields cursor Parse.struct
      (cursor.skip ((SyntaxWord.commas (fields.map Field.words)).length + 4))
      (·.bare = (StructDecl.mk span name fields).bare) := by
  have inside := stands.next.next.next
  have bound := inside.enough
  have count := length_le_commas fields
  simp only [List.length_append] at bound
  refine .current (.advance (.expectName stands.next.heard.1 (.expect stands.next.next.heard.1 ?_)))
  refine .get ((yields_members inside (by omega)).bind fun found same => .spanFrom ?_)
  simp only [Cursor.skip_next, stands.next.heard.2]
  exact .pure_skip (by omega) (congrArg (StructDecl.mk default name) same)

theorem yields_global (span : Span) {type : TypeExpr} {value : Option Expr}
    (spelled : SpelledInitial words value)
    (stands : cursor.Stands (.keyword .globalDecl :: .name name :: .symbol .colon ::
      (type.words ++ (words ++ .symbol .semicolon :: rest)))) :
    Yields cursor Parse.global (cursor.skip (type.words.length + words.length + 4))
      (·.bare = (GlobalDecl.mk span name type value).bare) := by
  have written := stands.next.next.next
  have initial := written.skip
  have star : ∀ word ∈ (words ++ .symbol .semicolon :: rest).head?, word.kind ≠ .symbol .star := by
    cases value with
    | none => rw [spelled]; simp [SyntaxWord.kind]
    | some value => obtain ⟨others, rfl, -⟩ := spelled; simp [SyntaxWord.kind]
  refine .current (.advance (.expectName stands.next.heard.1 (.expect stands.next.next.heard.1 ?_)))
  refine (yields_type written star).bind fun read sameType => .get ?_
  refine (yields_initializer spelled initial (stops_cons (by decide))).bind fun found same => ?_
  refine .expect initial.skip.heard.1 (.spanFrom ?_)
  simp only [Cursor.skip_next, Cursor.next_skip, Cursor.skip_skip, stands.next.heard.2]
  exact .pure_skip (by omega) (congrArg₂ (GlobalDecl.mk default name) sameType same)

theorem yields_function (span : Span) {result : Option TypeExpr}
    {body : Block} (spelled : SpelledCode words (.block body))
    (stands : cursor.Stands (.keyword .funDecl :: .name name :: .symbol .leftParen ::
      (SyntaxWord.commas (fields.map Field.words) ++ .symbol .rightParen ::
        (TypeExpr.annotation result ++ (words ++ rest))))) :
    Yields cursor Parse.function (cursor.skip ((SyntaxWord.commas (fields.map Field.words)).length +
        (TypeExpr.annotation result).length + words.length + 4))
      (·.bare = (FuncDecl.mk span name fields result body).bare) := by
  have inside := stands.next.next.next
  have bound := inside.enough
  have count := length_le_commas fields
  simp only [List.length_append] at bound
  obtain ⟨tail, rfl⟩ := spelled.starts
  have annotated := inside.skip.next
  have braces := annotated.skip
  refine .current (.advance (.expectName stands.next.heard.1 (.expect stands.next.next.heard.1 ?_)))
  refine .get ((yields_params inside (by omega)).bind fun params same => ?_)
  rw [← Cursor.next_skip]
  refine yields_annotation annotated (by decide) fun written sameType => .spanFrom (.get ?_)
  refine (yields_block spelled braces).bind fun read sameBody => ?_
  simp only [Cursor.skip_next, Cursor.next_skip, Cursor.skip_skip, stands.next.heard.2]
  refine .pure_skip (by omega) ?_
  simp only [FuncDecl.bare, same, sameType, sameBody]

/-- A declaration is read and added to the file. -/
theorem yields_declaration {expected : Declaration} (spelled : SpelledDeclaration words expected)
    (stands : cursor.Stands (words ++ rest)) (file : SourceFile) :
    Yields cursor (declaration file) (cursor.skip words.length)
      (·.bare = file.bare.add expected.bare) := by
  have added : ∀ found : Declaration, found.bare = expected.bare →
      (file.add found).bare = file.bare.add expected.bare :=
    fun found same => by rw [SourceFile.bare_add, same]
  refine .current ?_
  cases spelled with
  | @struct span name fields =>
    have shape : cursor.Stands (.keyword .structDecl :: .name name :: .symbol .leftBrace ::
        (SyntaxWord.commas (fields.map Field.words) ++ .symbol .rightBrace :: rest)) := by
      simpa using stands
    simp only [show cursor.current.kind = .keyword .structDecl from shape.heard.1]
    refine (yields_struct span shape).attempt.bind fun read found => ?_
    obtain ⟨found, rfl, same⟩ := found
    refine .pure_skip (by simp) (added (.struct found) ?_)
    exact congrArg Declaration.struct same
  | @constant words decl spelled =>
    have first : cursor.current.kind = .keyword .constDecl := by
      cases spelled
      exact stands.heard.1
    simp only [first]
    refine .get ((yields_constant spelled stands).attempt.bind fun read found => ?_)
    obtain ⟨found, rfl, same⟩ := found
    exact .pure (added (.constant found) (congrArg Declaration.constant same))
  | @global span words value name type proper typed spelled =>
    have shape : cursor.Stands (.keyword .globalDecl :: .name name :: .symbol .colon ::
        (type.words ++ (words ++ .symbol .semicolon :: rest))) := by
      simpa using stands
    simp only [show cursor.current.kind = .keyword .globalDecl from shape.heard.1]
    refine (yields_global span spelled shape).attempt.bind fun read found => ?_
    obtain ⟨found, rfl, same⟩ := found
    refine .pure_skip ?_ (added (.global found) (congrArg Declaration.global same))
    simp only [List.length_cons, List.length_append, List.length_nil]
    omega
  | @function span name fields words body result proper inside typed spelled =>
    have shape : cursor.Stands (.keyword .funDecl :: .name name :: .symbol .leftParen ::
        (SyntaxWord.commas (fields.map Field.words) ++ .symbol .rightParen ::
          (TypeExpr.annotation result ++ (words ++ rest)))) := by
      simpa [SyntaxWord.parens] using stands
    simp only [show cursor.current.kind = .keyword .funDecl from shape.heard.1]
    refine (yields_function span spelled shape).attempt.bind fun read found => ?_
    obtain ⟨found, rfl, same⟩ := found
    refine .pure_skip ?_ (added (.function found) (congrArg Declaration.function same))
    simp only [SyntaxWord.parens, List.length_cons, List.length_append, List.length_nil]
    omega

/-- The words of a declaration start with a reserved word. -/
theorem ne_nil_of_spelledDeclaration {expected : Declaration}
    (spelled : SpelledDeclaration words expected) :
    ∃ reserved others, words = .keyword reserved :: others := by
  cases spelled with
  | constant spelled => cases spelled; exact ⟨_, _, rfl⟩
  | struct | global | function => exact ⟨_, _, rfl⟩

/-- The declarations of a file are read one after another, each without an error. -/
theorem yields_declarations {expected : List Declaration}
    (spelled : List.Forall₂ SpelledDeclaration parts expected)
    (stands : cursor.Stands parts.flatten) {bound : Nat} (enough : parts.length < bound)
    (file : SourceFile) :
    Yields cursor (declarations bound file) (cursor.skip parts.flatten.length)
      (·.bare = (expected.map Declaration.bare).foldl SourceFile.add file.bare) := by
  induction spelled generalizing cursor bound file with
  | nil =>
    obtain ⟨bound, rfl⟩ := Nat.exists_eq_add_one.mpr enough
    refine .isAt ?_
    rw [decide_eq_true (show cursor.current.kind = .endOfText from stands)]
    exact .pure rfl
  | @cons words decl parts expected first others ih =>
    obtain ⟨bound, rfl⟩ : ∃ smaller, bound = smaller + 1 := ⟨bound - 1, by simp at enough; omega⟩
    have front : cursor.Stands (words ++ parts.flatten) := by simpa using stands
    have inside : cursor.current.kind ≠ .endOfText := by
      obtain ⟨reserved, tail, rfl⟩ := ne_nil_of_spelledDeclaration first
      rw [front.heard.1]
      simp
    refine .isAt ?_
    rw [decide_eq_false inside]
    refine .problemCount ((yields_declaration first front file).bind fun found same => ?_)
    refine .problemCount ?_
    rw [front.problems_skip, if_neg (Nat.lt_irrefl _)]
    have later := ih front.skip (by simpa using enough) found
    rw [same, Cursor.skip_skip] at later
    simpa using later

end Parse

/-- The words of declarations are at least as many as the declarations. -/
theorem length_le_flatten {expected : List Declaration}
    (spelled : List.Forall₂ SpelledDeclaration parts expected) :
    parts.length ≤ parts.flatten.length := by
  induction spelled with
  | nil => exact Nat.zero_le _
  | cons first others ih =>
    obtain ⟨reserved, tail, rfl⟩ := Parse.ne_nil_of_spelledDeclaration first
    simp only [List.length_cons, List.flatten_cons, List.length_append]
    omega

/-- A text that is scanned as the words of some declarations is read as their file, up to places,
and nothing is reported. -/
theorem SourceFile.parse_of_scans {text : Text} {order : List Declaration}
    (scans : Scan.Scans text.glyphs parts.flatten)
    (spelled : List.Forall₂ SpelledDeclaration parts order) :
    (SourceFile.parse name text).2 = [] ∧ (SourceFile.parse name text).1.bare =
      (SourceFile.ofDeclarations name text order).bare := by
  obtain ⟨tokens, last, scanned, said, ended⟩ := scans (text.glyphs.length + 1) .start (by omega)
  obtain ⟨stands, clean⟩ := Cursor.stands_ofTokens ended said
  have all : Scan.tokens text = tokens ++ [last] := scanned
  rw [← all] at stands clean
  generalize start : Cursor.ofTokens (Scan.tokens text) = cursor at stands clean
  have enough := stands.enough
  have bound := length_le_flatten spelled
  have fits : parts.length < cursor.remaining := by omega
  obtain ⟨found, same, run⟩ :=
    Parse.yields_declarations spelled stands fits ⟨name, text, [], [], [], []⟩
  have quiet : (cursor.skip parts.flatten.length).problems = #[] := by
    rw [← List.append_nil parts.flatten] at stands
    exact stands.problems_skip.trans clean
  have shape : SourceFile.parse name text = (found, []) := by
    simp only [SourceFile.parse, start, run, Option.getD_some, Cursor.diagnostics, quiet]
    rfl
  rw [shape]
  exact ⟨rfl, same.trans (SourceFile.bare_foldl_add order _).symm⟩

end TinLang
