import TinLang.Proofs.Grammar.Passing
import TinLang.Proofs.Grammar.Spelling
import TinLang.Syntax.Literals
import Mathlib.Data.List.Pairwise

/-!
# Nothing is read silently

Every rule of the grammar accounts for the tokens it passes: it yields nothing only when it has
reported an error, and where it reports nothing the tokens passed agree with what it yields. So a
text without diagnostics has no lexical errors, and its tokens are those of the declarations read
from it, in the order in which they start.
-/
namespace TinLang.Parse

open SyntaxWord (isSignificant)

variable {cursor : Cursor} {depth : Nat}

theorem accounts_stars (bound : Nat) : Accounts cursor (stars bound) 0 fun count tokens =>
    Agrees tokens (List.replicate count (.symbol .star)) := by
  induction bound generalizing cursor with
  | zero => exact .pure .nil
  | succ bound ih =>
    refine .isAt ?_
    split
    · next here =>
      refine .andThen (.advanceSymbol (of_decide_eq_true here)) fun _ tokens after _ => ?_
      refine .andThen ih fun count others last _ => .pure fun more star => ?_
      rw [List.append_nil]
      exact star.append more
    · exact .pure .nil

theorem accounts_type : Accounts cursor type 1 fun value tokens => Agrees tokens value.words := by
  refine .current ?_
  split
  · next kind =>
    refine .bind (.advance (by rw [kind]; simp)) fun _ tokens after _ => .get ?_
    refine .andThen (accounts_stars _) fun count others last _ => .spanFrom (.pure ?_)
    intro stars passed
    rw [passed, List.append_nil]
    have name : Agrees [cursor.current] [.name cursor.current.literal] := .one ⟨kind, rfl⟩
    exact name.append stars
  · exact .fail

theorem accounts_field : Accounts cursor field 1 fun value tokens => Agrees tokens value.words := by
  refine .current (.bind .expectName fun name tokens after _ => ?_)
  refine .andThen (.expectSymbol _) fun _ colon next _ => ?_
  refine .andThen accounts_type fun type others last _ => .spanFrom (.pure ?_)
  intro written sign named
  rw [List.append_nil]
  exact named.append (sign.append written)

theorem accounts_literal {build : Span → Expr} {word : SyntaxWord} (said : cursor.current.Says word)
    (words : ∀ span, (build span).words = [word]) :
    Accounts cursor (literal build) 1 fun value tokens => Agrees tokens value.words := by
  have inside : cursor.current.kind ≠ .endOfText := by
    rw [said.kind]
    cases word <;> simp [SyntaxWord.kind]
  refine .current (.bind (.advance inside) fun _ tokens after _ => .spanFrom (.pure ?_))
  intro passed
  rw [passed, words]
  exact .one said

theorem accounts_integer (kind : cursor.current.kind = .integer) :
    Accounts cursor (integer cursor.current) 1 fun value tokens => Agrees tokens value.words := by
  unfold integer
  split
  · next value read =>
    split
    · have said : cursor.current.Says (.integer value) := ⟨kind, read⟩
      exact accounts_literal said fun _ => rfl
    · exact .fail
  · exact .fail

theorem accounts_float (kind : cursor.current.kind = .float) :
    Accounts cursor (float cursor.current) 1 fun value tokens => Agrees tokens value.words := by
  unfold float
  split
  · next bits read =>
    have said : cursor.current.Says (.float bits) := ⟨kind, read⟩
    exact accounts_literal said fun _ => rfl
  · exact .fail

/-- What follows the reserved word `sizeof`. -/
theorem accounts_sizeof (start : Position) : Accounts cursor (sizeof start) 1 fun value tokens =>
    ∀ before, Agrees before [.keyword .sizeofType] → Agrees (before ++ tokens) value.words := by
  refine .bind (.expectSymbol _) fun _ opening next _ => ?_
  refine .andThen accounts_type fun type tokens after _ => ?_
  refine .andThen (.expectSymbol _) fun _ closing last _ => .spanFrom (.pure ?_)
  intro closed written opened before reserved
  rw [List.append_nil]
  exact (reserved.append (opened.append (written.append closed))).congr
    (by simp [Expr.words, isSignificant])

theorem kind_of_infixOp? {token : Token} {op : BinaryOp} (found : infixOp? token = some op) :
    token.kind = .symbol op.symbol := by
  unfold infixOp? at found
  split at found
  · next sign kind =>
    rw [kind]
    cases sign <;> cases found <;> rfl
  · cases found

theorem kind_of_unaryOp? {token : Token} {op : UnaryOp} (found : unaryOp? token = some op) :
    token.kind = .symbol op.symbol := by
  unfold unaryOp? at found
  split at found <;> next kind => cases found <;> exact kind

theorem kind_of_stepOp? {token : Token} {op : StepOp} (found : stepOp? token = some op) :
    token.kind = .symbol op.symbol := by
  unfold stepOp? at found
  split at found <;> next kind => cases found <;> exact kind

/-- The rules for expressions of a depth account for the tokens they pass, when the depth suffices
for the tokens that are left. -/
structure ExprAccounts (depth : Nat) : Prop where
  expression : ∀ {cursor : Cursor}, 16 * cursor.pending + 4 ≤ depth →
    Accounts cursor (expression depth) 1 fun value tokens => Agrees tokens value.words
  binary : ∀ {cursor : Cursor} (least : Nat), 16 * cursor.pending + 3 ≤ depth →
    Accounts cursor (binary depth least) 1 fun value tokens => Agrees tokens value.words
  binaryFrom : ∀ {cursor : Cursor} (start : Position) (least : Nat) (left : Expr),
    16 * cursor.pending + 1 ≤ depth →
      Accounts cursor (binaryFrom depth start least left) 0 fun value tokens =>
        ∀ before, Agrees before left.words → Agrees (before ++ tokens) value.words
  unary : ∀ {cursor : Cursor}, 16 * cursor.pending + 2 ≤ depth →
    Accounts cursor (unary depth) 1 fun value tokens => Agrees tokens value.words
  selection : ∀ {cursor : Cursor} (start : Position) (object : Expr),
    16 * cursor.pending + 1 ≤ depth →
      Accounts cursor (selection depth start object) 0 fun value tokens =>
        ∀ before, Agrees before object.words → Agrees (before ++ tokens) value.words
  primary : ∀ {cursor : Cursor}, 16 * cursor.pending + 1 ≤ depth →
    Accounts cursor (primary depth) 1 fun value tokens => Agrees tokens value.words
  arguments : ∀ {cursor : Cursor}, 16 * cursor.pending + 5 ≤ depth →
    Accounts cursor (arguments depth) 1 fun values tokens =>
      Agrees tokens (Expr.wordsOfAll values).flatten

theorem accounts_expression (rules : ExprAccounts depth)
    (deep : 16 * cursor.pending + 4 ≤ depth + 1) :
    Accounts cursor (expression (depth + 1)) 1 fun value tokens => Agrees tokens value.words := by
  refine .current (.bind (rules.binary 1 (by omega)) fun target tokens after _ => .isAt ?_)
  split
  · next here =>
    refine .andThen (.advanceSymbol (of_decide_eq_true here)) fun _ equals next _ => ?_
    refine .andThen (rules.expression (by omega)) fun value others last _ => .spanFrom (.pure ?_)
    intro assigned sign held
    rw [List.append_nil]
    exact (held.append (sign.append assigned)).congr (by simp [Expr.words])
  · exact .pure fun held => by rwa [List.append_nil]

theorem accounts_binary (rules : ExprAccounts depth) (least : Nat)
    (deep : 16 * cursor.pending + 3 ≤ depth + 1) :
    Accounts cursor (binary (depth + 1) least) 1 fun value tokens => Agrees tokens value.words := by
  refine .current (.bind (rules.unary (by omega)) fun left tokens after _ => ?_)
  exact (rules.binaryFrom _ least left (by omega)).mono (Nat.le_refl 0)
    fun value others more held => more tokens held

theorem accounts_binaryFrom (rules : ExprAccounts depth) (start : Position) (least : Nat)
    (left : Expr) (deep : 16 * cursor.pending + 1 ≤ depth + 1) :
    Accounts cursor (binaryFrom (depth + 1) start least left) 0 fun value tokens =>
      ∀ before, Agrees before left.words → Agrees (before ++ tokens) value.words := by
  refine .current ?_
  split
  · next op found =>
    split
    · exact .pure fun before held => by rwa [List.append_nil]
    · refine .andThen (.advanceSymbol (kind_of_infixOp? found)) fun _ sign next _ => ?_
      refine .andThen (rules.binary _ (by omega)) fun right others last _ => .spanFrom ?_
      refine (rules.binaryFrom start least _ (by omega)).mono (Nat.le_refl 0) ?_
      intro value tokens more spoken written before held
      have operands (span : Span) :
          Agrees (before ++ (sign ++ others)) (Expr.binary span op left right).words :=
        (held.append (written.append spoken)).congr (by simp [Expr.words])
      simpa using more _ (operands _)
  · exact .pure fun before held => by rwa [List.append_nil]

theorem accounts_unary (rules : ExprAccounts depth) (deep : 16 * cursor.pending + 2 ≤ depth + 1) :
    Accounts cursor (unary (depth + 1)) 1 fun value tokens => Agrees tokens value.words := by
  refine .current ?_
  split
  · next op _ found =>
    refine .bind (.advanceSymbol (kind_of_unaryOp? found)) fun _ sign next _ => ?_
    refine .andThen (rules.unary (by omega)) fun operand others last _ => .spanFrom (.pure ?_)
    intro held written
    rw [List.append_nil]
    exact (written.append held).congr (by simp [Expr.words])
  · next op _ found =>
    refine .bind (.advanceSymbol (kind_of_stepOp? found)) fun _ sign next _ => ?_
    refine .andThen (rules.unary (by omega)) fun operand others last _ => .spanFrom (.pure ?_)
    intro held written
    rw [List.append_nil]
    exact (written.append held).congr (by simp [Expr.words])
  · refine .bind (rules.primary (by omega)) fun value tokens after _ => ?_
    exact (rules.selection _ value (by omega)).mono (Nat.le_refl 0)
      fun result others more held => more tokens held

theorem accounts_selection (rules : ExprAccounts depth) (start : Position) (object : Expr)
    (deep : 16 * cursor.pending + 1 ≤ depth + 1) :
    Accounts cursor (selection (depth + 1) start object) 0 fun value tokens =>
      ∀ before, Agrees before object.words → Agrees (before ++ tokens) value.words := by
  refine .current ?_
  split
  · next kind =>
    refine .andThen (.advanceSymbol kind) fun _ dot next _ => ?_
    refine .andThen .expectName fun field others last _ => .spanFrom ?_
    refine (rules.selection start _ (by omega)).mono (Nat.le_refl 0) ?_
    intro value tokens more named written before held
    have selected (span : Span) :
        Agrees (before ++ (dot ++ others)) (Expr.member span object field).words :=
      (held.append (written.append named)).congr (by simp [Expr.words])
    simpa using more _ (selected _)
  · next kind =>
    refine .andThen (.advanceSymbol kind) fun _ bracket next _ => ?_
    refine .andThen (rules.expression (by omega)) fun place others last _ => ?_
    refine .andThen (.expectSymbol _) fun _ closing ended _ => .spanFrom ?_
    refine (rules.selection start _ (by omega)).mono (Nat.le_refl 0) ?_
    intro value tokens more closed spoken opened before held
    have selected (span : Span) : Agrees (before ++ (bracket ++ (others ++ closing)))
        (Expr.index span object place).words :=
      (held.append (opened.append (spoken.append closed))).congr (by simp [Expr.words])
    simpa using more _ (selected _)
  · split
    · next op found =>
      refine .andThen (.advanceSymbol (kind_of_stepOp? found)) fun _ sign next _ => .spanFrom ?_
      refine (rules.selection start _ (by omega)).mono (Nat.le_refl 0) ?_
      intro value tokens more written before held
      have stepped (span : Span) :
          Agrees (before ++ sign) (Expr.step span op false object).words :=
        (held.append written).congr (by simp [Expr.words])
      simpa using more _ (stepped _)
    · exact .pure fun before held => by rwa [List.append_nil]

theorem accounts_primary (rules : ExprAccounts depth) (deep : 16 * cursor.pending + 1 ≤ depth + 1) :
    Accounts cursor (primary (depth + 1)) 1 fun value tokens => Agrees tokens value.words := by
  refine .intro fun fit => .current ?_
  have genuine : cursor.current.Genuine := fit.2 _ (List.mem_cons_self ..)
  simp only
  split
  · next kind => exact accounts_integer kind
  · next kind => exact accounts_float kind
  · next kind =>
    have said : cursor.current.Says (.string cursor.current.literal) := ⟨kind, rfl⟩
    exact accounts_literal said fun _ => rfl
  · next kind =>
    have single : ∃ value : UInt8, cursor.current.literal = Glyph.encode value.toNat := by
      rw [Token.Genuine, kind] at genuine
      exact genuine
    obtain ⟨value, same⟩ := single
    have said : cursor.current.Says (.character value) := ⟨kind, same⟩
    rw [same, characterValue_encode]
    exact accounts_literal said fun _ => rfl
  · next kind => exact accounts_literal (Token.says_keyword genuine kind) fun _ => rfl
  · next kind => exact accounts_literal (Token.says_keyword genuine kind) fun _ => rfl
  · next kind => exact accounts_literal (Token.says_keyword genuine kind) fun _ => rfl
  · next kind =>
    have name : Agrees [cursor.current] [.name cursor.current.literal] := .one ⟨kind, rfl⟩
    refine .bind (.advance (by rw [kind]; simp)) fun _ tokens next _ => .isAt ?_
    split
    · next here =>
      refine .andThen (.advanceSymbol (of_decide_eq_true here)) fun _ opening after _ => ?_
      refine .andThen (rules.arguments (by omega)) fun values others last _ => .spanFrom (.pure ?_)
      intro spoken opened passed
      rw [passed, List.append_nil]
      exact (name.append (opened.append spoken)).congr (by simp [Expr.words, isSignificant])
    · exact .spanFrom (.pure fun passed => by rwa [passed, List.append_nil])
  · next kind =>
    refine .bind (.advanceSymbol kind) fun _ opening next _ => ?_
    refine .andThen (rules.expression (by omega)) fun value others after _ => ?_
    refine .andThen (.expectSymbol _) fun _ closing last _ => .pure ?_
    intro closed held opened
    rw [List.append_nil]
    exact (opened.append (held.append closed)).congr (by simp [isSignificant])
  · next kind =>
    refine .bind (.advanceKeyword kind) fun _ reserved next _ => ?_
    refine .andThen (.expectSymbol _) fun _ less first _ => ?_
    refine .andThen accounts_type fun type written second _ => ?_
    refine .andThen (.expectSymbol _) fun _ greater third _ => ?_
    refine .andThen (.expectSymbol _) fun _ opening fourth _ => ?_
    refine .andThen (rules.expression (by omega)) fun value others after _ => ?_
    refine .andThen (.expectSymbol _) fun _ closing last _ => .spanFrom (.pure ?_)
    intro closed held opened above typed below start
    rw [List.append_nil]
    exact (start.append (below.append (typed.append (above.append
      (opened.append (held.append closed)))))).congr (by simp [Expr.words, isSignificant])
  · next kind =>
    refine .bind (.advanceKeyword kind) fun _ reserved next _ => ?_
    exact (accounts_sizeof _).mono (Nat.zero_le _) fun value others more start => more _ start
  · exact .fail

theorem accounts_arguments (rules : ExprAccounts depth)
    (deep : 16 * cursor.pending + 5 ≤ depth + 1) :
    Accounts cursor (arguments (depth + 1)) 1 fun values tokens =>
      Agrees tokens (Expr.wordsOfAll values).flatten := by
  refine .isAt ?_
  split
  · next here =>
    refine .bind (.advanceSymbol (of_decide_eq_true here)) fun _ closing after _ => .pure ?_
    intro closed
    rw [List.append_nil]
    exact closed.congr rfl
  · refine .bind (rules.expression (by omega)) fun value tokens after _ => .isAt ?_
    split
    · refine .andThen (rules.arguments (by omega)) fun values others last _ => .pure ?_
      intro spoken held
      rw [List.append_nil]
      exact (held.append spoken).congr (by simp [Expr.wordsOfAll])
    · refine .andThen (.expectSymbol _) fun _ comma next _ => ?_
      refine .andThen (rules.arguments (by omega)) fun values others last _ => .pure ?_
      intro spoken apart held
      rw [List.append_nil]
      exact (held.append (apart.append spoken)).congr (by simp [Expr.wordsOfAll, isSignificant])

/-- Every depth accounts for the tokens that it suffices for. -/
theorem exprAccounts (depth : Nat) : ExprAccounts depth := by
  induction depth with
  | zero => constructor <;> intros <;> omega
  | succ depth rules =>
    exact {
      expression := accounts_expression rules
      binary := accounts_binary rules
      binaryFrom := accounts_binaryFrom rules
      unary := accounts_unary rules
      selection := accounts_selection rules
      primary := accounts_primary rules
      arguments := accounts_arguments rules }

/-- The depth that a rule gives the rules below it suffices for the tokens that are left. -/
theorem enough_depth (cursor : Cursor) : 16 * cursor.pending + 16 ≤ depthFor cursor.remaining := by
  unfold Cursor.pending depthFor Cursor.remaining
  split <;> omega

/-- An expression read at the depth that statements give it. -/
theorem accounts_exprAt : Accounts cursor (expression (depthFor cursor.remaining)) 1
    fun value tokens => Agrees tokens value.words :=
  (exprAccounts _).expression (Nat.le_trans (by omega) (enough_depth cursor))

theorem accounts_initializer (deep : 16 * cursor.pending + 4 ≤ depth) :
    Accounts cursor (initializer depth) 0 fun value tokens =>
      Agrees tokens (Expr.initialWords value) := by
  refine .isAt ?_
  split
  · next here =>
    refine .andThen (.advanceSymbol (of_decide_eq_true here)) fun _ equals next _ => ?_
    refine (((exprAccounts depth).expression (by omega)).map fun value others held => ?_).mono
      (Nat.zero_le 1) fun _ _ holds => holds
    exact fun sign => sign.append held
  · exact .pure .nil

/-- A type after a colon, or none. -/
theorem accounts_annotation {α : Type} {next : Option TypeExpr → Parse α}
    {good : α → List Token → Prop}
    (later : ∀ type tokens after, after.pending ≤ cursor.pending →
      Accounts after (next type) 0 fun result others =>
        Agrees tokens (TypeExpr.annotation type) → good result (tokens ++ others)) :
    Accounts cursor (isAtSymbol .colon >>= fun colon => if colon then
        advance >>= fun _ => some <$> type >>= next else pure none >>= next) 0 good := by
  refine .isAt ?_
  split
  · next here =>
    refine .andThen (.advanceSymbol (of_decide_eq_true here)) fun _ colon middle _ => ?_
    rw [bind_map_left]
    refine .andThen accounts_type fun type tokens after _ => ?_
    refine (later (some type) (colon ++ tokens) after (by omega)).mono (Nat.le_refl 0) ?_
    intro result others holds held sign
    simpa using holds (sign.append held)
  · refine .value ((later none [] cursor (Nat.le_refl _)).mono (Nat.le_refl 0) ?_)
    exact fun result others holds => holds .nil

/-- A declaration starts at the first token passed. -/
def Opens (start : Position) (tokens : List Token) : Prop :=
  ∃ first others, tokens = first :: others ∧ start = first.position

theorem advances_constant (kind : cursor.current.kind = .keyword .constDecl)
    (deep : 16 * cursor.pending + 4 ≤ depth) :
    Advances cursor (constant depth) fun value tokens =>
      Agrees tokens value.words ∧ Opens value.span.start tokens := by
  refine .current (.advance (by rw [kind]; simp) fun genuine fewer => ?_)
  refine .andThen .expectName fun name named first _ => ?_
  refine accounts_annotation fun type annotation second _ => ?_
  refine .andThen (.expectSymbol _) fun _ equals third _ => ?_
  refine .andThen ((exprAccounts depth).expression (by omega)) fun value tokens fourth _ => ?_
  refine .andThen (.expectSymbol _) fun _ closing last _ => .spanFrom (.pure ?_)
  intro closed held sign typed called
  refine ⟨?_, _, _, rfl, rfl⟩
  have reserved : Agrees [cursor.current] [.keyword .constDecl] :=
    .one (Token.says_keyword genuine kind)
  rw [List.append_nil]
  exact (reserved.append (called.append (typed.append (sign.append (held.append closed))))).congr
    (by simp [ConstDecl.words, isSignificant])

/-- A statement is kept when its semicolon is missing, which is reported. -/
theorem accounts_endStatement (statement : Stmt) :
    Accounts cursor (endStatement statement) 0 fun value tokens =>
      value = statement ∧ Agrees tokens [.symbol .semicolon] := by
  refine .andThen (Accounts.expectSymbol _).attempt fun read tokens after _ => .pure ?_
  rintro ⟨_, _, held⟩
  rw [List.append_nil]
  exact ⟨rfl, held⟩

theorem accounts_skipStatement (bound : Nat) :
    Accounts cursor (skipStatement bound) 0 fun _ _ => True := by
  induction bound generalizing cursor with
  | zero => exact .pure trivial
  | succ bound ih =>
    refine .current ?_
    split
    · exact .pure trivial
    · next kind => exact (Accounts.advanceSymbol kind).mono (Nat.zero_le 1) fun _ _ _ => trivial
    · exact .pure trivial
    · exact .pure trivial
    · next other _ _ _ =>
      exact .andThen (.advance other) fun _ _ _ _ => ih.mono (Nat.le_refl 0) fun _ _ _ _ => trivial

/-- Recovery passes a token that is neither a brace nor the end of the text. -/
theorem advances_skipStatement (bound : Nat) (inside : cursor.current.kind ≠ .endOfText)
    (opening : cursor.current.kind ≠ .symbol .leftBrace)
    (closing : cursor.current.kind ≠ .symbol .rightBrace) :
    Advances cursor (skipStatement (bound + 1)) fun _ _ => True := by
  refine .current ?_
  split
  · contradiction
  · exact (Advances.one inside).mono fun _ _ _ => trivial
  · contradiction
  · contradiction
  · exact .advance inside fun _ _ => (accounts_skipStatement bound).mono (Nat.le_refl 0)
      fun _ _ _ => trivial

/-- The rules for statements of a depth account for the tokens they pass, when the depth suffices
for the tokens that are left. At an opening brace a statement passes it, whatever follows. -/
structure StmtAccounts (depth : Nat) : Prop where
  block : ∀ {cursor : Cursor}, 16 * cursor.pending + 3 ≤ depth →
    Accounts cursor (block depth) 1 fun value tokens => Agrees tokens value.words
  opened : ∀ {cursor : Cursor}, 16 * cursor.pending + 3 ≤ depth →
    cursor.current.kind = .symbol .leftBrace →
      Advances cursor (Parse.block depth) fun value tokens => Agrees tokens value.words
  statements : ∀ {cursor : Cursor}, 16 * cursor.pending + 5 ≤ depth →
    Accounts cursor (statements depth) 0 fun values tokens =>
      Agrees tokens (wordsOfStatements values ++ [.symbol .rightBrace])
  statement : ∀ {cursor : Cursor}, 16 * cursor.pending + 4 ≤ depth →
    Accounts cursor (statement depth) 1 fun value tokens => Agrees tokens value.words
  entered : ∀ {cursor : Cursor}, 16 * cursor.pending + 4 ≤ depth →
    cursor.current.kind = .symbol .leftBrace →
      Advances cursor (Parse.statement depth) fun value tokens => Agrees tokens value.words
  branch : ∀ {cursor : Cursor}, 16 * cursor.pending + 3 ≤ depth →
    cursor.current.kind = .keyword .ifBranch →
      Accounts cursor (branch depth) 1 fun value tokens => Agrees tokens value.words

theorem advances_block (rules : StmtAccounts depth) (deep : 16 * cursor.pending + 3 ≤ depth + 1)
    (kind : cursor.current.kind = .symbol .leftBrace) :
    Advances cursor (block (depth + 1)) fun value tokens => Agrees tokens value.words := by
  refine .current (.expectSymbol kind fun genuine _ => ?_)
  refine .andThen (rules.statements (by omega)) fun values tokens after _ => .spanFrom (.pure ?_)
  intro held
  have brace : Agrees [cursor.current] [.symbol .leftBrace] := .one (Token.says_symbol genuine kind)
  rw [List.append_nil]
  exact brace.append held

theorem accounts_block (rules : StmtAccounts depth) (deep : 16 * cursor.pending + 3 ≤ depth + 1) :
    Accounts cursor (block (depth + 1)) 1 fun value tokens => Agrees tokens value.words := by
  by_cases kind : cursor.current.kind = .symbol .leftBrace
  · exact (advances_block rules deep kind).1
  · refine .current (.bind (.expectSymbol _) fun _ brace first _ => ?_)
    refine .andThen (rules.statements (by omega)) fun values tokens after _ => .spanFrom (.pure ?_)
    intro held opened
    rw [List.append_nil]
    exact opened.append held

theorem advances_statement (rules : StmtAccounts depth) (deep : 16 * cursor.pending + 4 ≤ depth + 1)
    (kind : cursor.current.kind = .symbol .leftBrace) :
    Advances cursor (statement (depth + 1)) fun value tokens => Agrees tokens value.words := by
  refine .current ?_
  simp only [kind]
  refine (rules.opened (by omega) kind).bind fun value tokens after _ => .pure fun held => ?_
  rwa [List.append_nil]

theorem accounts_statement (rules : StmtAccounts depth)
    (deep : 16 * cursor.pending + 4 ≤ depth + 1) :
    Accounts cursor (statement (depth + 1)) 1 fun value tokens => Agrees tokens value.words := by
  refine .current ?_
  split
  · next kind =>
    refine (rules.block (by omega)).bind fun value tokens after _ => .pure fun held => ?_
    rwa [List.append_nil]
  · next kind => exact rules.branch (by omega) kind
  · next kind =>
    refine .bind (.advanceKeyword kind) fun _ reserved first _ => .get ?_
    refine .andThen accounts_exprAt fun condition tokens second _ => ?_
    refine .andThen (rules.block (by omega)) fun body others last _ => .spanFrom (.pure ?_)
    intro inside held start
    rw [List.append_nil]
    exact start.append (held.append inside)
  · next kind =>
    refine .bind (.advanceKeyword kind) fun _ reserved first _ => .spanFrom ?_
    refine (accounts_endStatement _).mono (Nat.le_refl 0) ?_
    rintro value tokens ⟨rfl, ended⟩ start
    exact start.append ended
  · next kind =>
    refine .bind (.advanceKeyword kind) fun _ reserved first _ => .spanFrom ?_
    refine (accounts_endStatement _).mono (Nat.le_refl 0) ?_
    rintro value tokens ⟨rfl, ended⟩ start
    exact start.append ended
  · next kind =>
    refine .bind (.advanceKeyword kind) fun _ reserved first _ => .isAt ?_
    split
    · refine .value (.spanFrom ((accounts_endStatement _).mono (Nat.le_refl 0) ?_))
      rintro value tokens ⟨rfl, ended⟩ start
      exact start.append ended
    · refine .get ?_
      rw [bind_map_left]
      refine .andThen accounts_exprAt fun value tokens second _ => .spanFrom ?_
      refine (accounts_endStatement _).mono (Nat.le_refl 0) ?_
      rintro _ closing ⟨rfl, ended⟩ held start
      exact start.append (held.append ended)
  · next kind =>
    have enough := enough_depth cursor
    refine .get ((advances_constant kind (by omega)).1.bind fun value tokens after _ => .pure ?_)
    intro held
    rw [List.append_nil]
    exact held.1
  · refine .get ?_
    split
    · refine accounts_field.bind fun field tokens first _ => .get ?_
      have enough := enough_depth first
      refine .andThen (accounts_initializer (by omega)) fun value others second _ => .spanFrom ?_
      refine (accounts_endStatement _).mono (Nat.le_refl 0) ?_
      rintro _ closing ⟨rfl, ended⟩ held named
      simpa [Stmt.words, Field.words] using named.append (held.append ended)
    · refine .get (accounts_exprAt.bind fun value tokens first _ => .spanFrom ?_)
      refine (accounts_endStatement _).mono (Nat.le_refl 0) ?_
      rintro _ closing ⟨rfl, ended⟩ held
      exact held.append ended

theorem accounts_branch (rules : StmtAccounts depth) (deep : 16 * cursor.pending + 3 ≤ depth + 1)
    (kind : cursor.current.kind = .keyword .ifBranch) :
    Accounts cursor (branch (depth + 1)) 1 fun value tokens => Agrees tokens value.words := by
  refine .current (.bind (.advanceKeyword kind) fun _ reserved first _ => .get ?_)
  refine .andThen accounts_exprAt fun condition tokens second _ => ?_
  refine .andThen (rules.block (by omega)) fun body others third _ => .isAt ?_
  split
  · next here =>
    refine .andThen (.advanceKeyword (of_decide_eq_true here)) fun _ other fourth _ => .isAt ?_
    split
    · next chained =>
      refine .andThen (rules.branch (by omega) (of_decide_eq_true chained))
        fun side more last _ => .spanFrom (.pure ?_)
      intro chosen word inside held start
      rw [List.append_nil]
      exact start.append (held.append (inside.append (word.append chosen)))
    · rw [bind_map_left]
      refine .andThen (rules.block (by omega)) fun side more last _ => .spanFrom (.pure ?_)
      intro chosen word inside held start
      rw [List.append_nil]
      exact start.append (held.append (inside.append (word.append chosen)))
  · refine .spanFrom (.pure ?_)
    intro inside held start
    simpa [Stmt.words, wordsOfOtherwise] using start.append (held.append inside)

/-- After a statement with errors, and at the next one otherwise, the statements go on with fewer
tokens left. -/
theorem accounts_resumed {α : Type} {middle : Cursor} {next : Parse α}
    {good : α → List Token → Prop} {tokens : List Token} (passes : cursor.Passes tokens middle)
    (sound : cursor.Sound) (counted : middle.problems.size = cursor.problems.size → tokens ≠ [])
    (moved : cursor.current.kind = .symbol .leftBrace → tokens ≠ [])
    (inside : cursor.current.kind ≠ .endOfText)
    (closing : cursor.current.kind ≠ .symbol .rightBrace)
    (later : ∀ after, after.pending < cursor.pending → Accounts after next 0 good) :
    Accounts middle (if cursor.problems.size < middle.problems.size then
        get >>= fun place => skipStatement place.remaining >>= fun _ => next else next) 0
      fun result others => middle.problems.size = cursor.problems.size → good result others := by
  have fewer := passes.pending sound
  have rose := passes.rose
  split
  · next dirty =>
    refine .get ?_
    cases tokens with
    | nil =>
      have opening : cursor.current.kind ≠ .symbol .leftBrace := fun same => moved same rfl
      rw [← passes.stays.1] at inside opening closing
      refine (advances_skipStatement _ inside opening closing).1.andThen fun _ _ after _ => ?_
      exact (later after (by omega)).mono (Nat.le_refl 0) fun _ _ _ _ _ => by omega
    | cons token tokens =>
      rw [List.length_cons] at fewer
      refine (accounts_skipStatement _).andThen fun _ _ after _ => ?_
      exact (later after (by omega)).mono (Nat.le_refl 0) fun _ _ _ _ _ => by omega
  · next clean =>
    have some : 0 < tokens.length := List.length_pos_iff.mpr (counted (by omega))
    exact (later middle (by omega)).mono (Nat.le_refl 0) fun _ _ holds _ => holds

theorem accounts_statements (rules : StmtAccounts depth)
    (deep : 16 * cursor.pending + 5 ≤ depth + 1) :
    Accounts cursor (statements (depth + 1)) 0 fun values tokens =>
      Agrees tokens (wordsOfStatements values ++ [.symbol .rightBrace]) := by
  refine .intro fun fit => .current ?_
  split
  · next kind =>
    refine .andThen (.advanceSymbol kind) fun _ tokens after _ => .pure fun closed => ?_
    rwa [List.append_nil]
  · exact .fail
  · next closing inside =>
    -- a statement that is not read can only have left the cursor in place at something to skip
    have attempted : Accounts cursor (attempt (statement depth))
        (if cursor.current.kind = .symbol .leftBrace then 1 else 0) fun read tokens =>
          ∃ value, read = some value ∧ 1 ≤ tokens.length ∧ Agrees tokens value.words := by
      have read : Accounts cursor (statement depth) 1 fun value tokens =>
          1 ≤ tokens.length ∧ Agrees tokens value.words := (rules.statement (by omega)).counted
      split
      · next kind => exact Advances.attempt ⟨read, (rules.entered (by omega) kind).2⟩
      · exact read.attempt
    refine .problemCount ((attempted.bindPassing fun read tokens middle passes least known =>
      .problemCount ?_).mono (Nat.zero_le _) fun _ _ holds => holds)
    have counted : middle.problems.size = cursor.problems.size → tokens ≠ [] := by
      intro clean
      obtain ⟨_, _, some, _⟩ := known clean
      exact List.length_pos_iff.mp some
    have moved : cursor.current.kind = .symbol .leftBrace → tokens ≠ [] := by
      intro kind
      rw [if_pos kind] at least
      exact List.length_pos_iff.mp least
    refine accounts_resumed passes fit.1 counted moved inside closing fun after fewer => ?_
    refine .andThen (rules.statements (by omega)) fun later others last _ => .pure ?_
    rintro held ⟨value, rfl, -, first⟩
    rw [List.append_nil]
    simpa [wordsOfStatements] using first.append held

/-- Every depth accounts for the tokens of the statements that it suffices for. -/
theorem stmtAccounts (depth : Nat) : StmtAccounts depth := by
  induction depth with
  | zero => constructor <;> intros <;> omega
  | succ depth rules =>
    exact {
      block := accounts_block rules
      opened := advances_block rules
      statements := accounts_statements rules
      statement := accounts_statement rules
      entered := advances_statement rules
      branch := accounts_branch rules }

theorem accounts_members (struct : Text) (bound : Nat) (deep : cursor.pending < bound) :
    Accounts cursor (members struct bound) 0 fun values tokens =>
      Agrees tokens ((values.map Field.words).flatten ++ [.symbol .rightBrace]) := by
  induction bound generalizing cursor with
  | zero => omega
  | succ bound ih =>
    refine .current ?_
    split
    · next kind =>
      refine .andThen (.advanceSymbol kind) fun _ tokens after _ => .pure fun closed => ?_
      rwa [List.append_nil]
    · exact .fail
    · refine .andThen accounts_field fun mem tokens middle _ => .current ?_
      have later : ∀ (apart : List Token) (after : Cursor), after.pending ≤ middle.pending →
          Accounts after (members struct bound >>= fun others => pure (mem :: others)) 0
            fun values others => (∃ words, SyntaxWord.significant words = [] ∧ Agrees apart words) →
              Agrees tokens mem.words → Agrees (tokens ++ (apart ++ others))
                ((values.map Field.words).flatten ++ [.symbol .rightBrace]) := by
        intro apart after fewer
        refine .andThen (ih (by omega)) fun values others last _ => .pure ?_
        rintro spoken ⟨words, nothing, said⟩ held
        rw [List.append_nil]
        exact (held.append (said.append spoken)).congr (by simp [nothing])
      split
      · next kind =>
        refine .andThen (.advanceSymbol kind) fun _ comma after _ => ?_
        exact (later comma after (by omega)).mono (Nat.le_refl 0)
          fun _ _ holds said => holds ⟨_, rfl, said⟩
      · next kind =>
        refine .andThen (.advanceSymbol kind) fun _ semicolon after _ => ?_
        exact (later semicolon after (by omega)).mono (Nat.le_refl 0)
          fun _ _ holds said => holds ⟨_, rfl, said⟩
      · exact (later [] middle (Nat.le_refl _)).mono (Nat.le_refl 0)
          fun _ _ holds => holds ⟨[], rfl, .nil⟩
      · have failed : Accounts middle
            (fail (.unseparatedMember mem.name middle.current) : Parse Unit) 0
              fun _ _ => False := .fail
        exact .andThen failed fun _ _ after _ => (later [] after (by omega)).mono (Nat.le_refl 0)
          fun _ _ _ absurd => absurd.elim

theorem accounts_params (bound : Nat) (deep : cursor.pending < bound) :
    Accounts cursor (params bound) 0 fun values tokens =>
      Agrees tokens (values.map Field.words).flatten := by
  induction bound generalizing cursor with
  | zero => omega
  | succ bound ih =>
    refine .isAt ?_
    split
    · next here =>
      refine .andThen (.advanceSymbol (of_decide_eq_true here)) fun _ closing after _ => .pure ?_
      intro closed
      rw [List.append_nil]
      exact closed.congr rfl
    · refine .andThen accounts_field fun param tokens after _ => .isAt ?_
      split
      · refine .andThen (ih (by omega)) fun values others last _ => .pure ?_
        intro spoken held
        rw [List.append_nil]
        exact (held.append spoken).congr (by simp)
      · refine .andThen (.expectSymbol _) fun _ comma next _ => ?_
        refine .andThen (ih (by omega)) fun values others last _ => .pure ?_
        intro spoken apart held
        rw [List.append_nil]
        exact (held.append (apart.append spoken)).congr (by simp [isSignificant])

/-- The bound on the tokens that are left suffices for a list of names with types. -/
theorem pending_lt_remaining (cursor : Cursor) : cursor.pending < cursor.remaining := by
  unfold Cursor.pending Cursor.remaining
  split <;> omega

theorem advances_struct (kind : cursor.current.kind = .keyword .structDecl) :
    Advances cursor struct fun value tokens =>
      Agrees tokens (Declaration.struct value).words ∧ Opens value.span.start tokens := by
  refine .current (.advance (by rw [kind]; simp) fun genuine _ => ?_)
  refine .andThen .expectName fun name named first _ => ?_
  refine .andThen (.expectSymbol _) fun _ opening second _ => .get ?_
  have enough := pending_lt_remaining second
  refine .andThen (accounts_members name _ enough) fun members tokens last _ => .spanFrom (.pure ?_)
  intro held opened called
  refine ⟨?_, _, _, rfl, rfl⟩
  have reserved : Agrees [cursor.current] [.keyword .structDecl] :=
    .one (Token.says_keyword genuine kind)
  rw [List.append_nil]
  exact (reserved.append (called.append (opened.append held))).congr
    (by simp [Declaration.words])

theorem advances_function (kind : cursor.current.kind = .keyword .funDecl) :
    Advances cursor function fun value tokens =>
      Agrees tokens (Declaration.function value).words ∧ Opens value.span.start tokens := by
  refine .current (.advance (by rw [kind]; simp) fun genuine _ => ?_)
  refine .andThen .expectName fun name named first _ => ?_
  refine .andThen (.expectSymbol _) fun _ opening second _ => .get ?_
  refine .andThen (accounts_params _ (pending_lt_remaining second)) fun params tokens third _ => ?_
  refine accounts_annotation fun result annotation fourth _ => .spanFrom (.get ?_)
  have enough := enough_depth fourth
  refine .andThen ((stmtAccounts _).block (by omega)) fun body others last _ => .pure ?_
  intro inside typed held opened called
  refine ⟨?_, _, _, rfl, rfl⟩
  have reserved : Agrees [cursor.current] [.keyword .funDecl] :=
    .one (Token.says_keyword genuine kind)
  rw [List.append_nil]
  exact (reserved.append (called.append (opened.append (held.append (typed.append inside))))).congr
    (by simp [Declaration.words, isSignificant])

theorem advances_global (kind : cursor.current.kind = .keyword .globalDecl) :
    Advances cursor global fun value tokens =>
      Agrees tokens (Declaration.global value).words ∧ Opens value.span.start tokens := by
  refine .current (.advance (by rw [kind]; simp) fun genuine _ => ?_)
  refine .andThen .expectName fun name named first _ => ?_
  refine .andThen (.expectSymbol _) fun _ colon second _ => ?_
  refine .andThen accounts_type fun type tokens third _ => .get ?_
  have enough := enough_depth third
  refine .andThen (accounts_initializer (by omega)) fun value others fourth _ => ?_
  refine .andThen (.expectSymbol _) fun _ closing last _ => .spanFrom (.pure ?_)
  intro closed held typed sign called
  refine ⟨?_, _, _, rfl, rfl⟩
  have reserved : Agrees [cursor.current] [.keyword .globalDecl] :=
    .one (Token.says_keyword genuine kind)
  rw [List.append_nil]
  exact (reserved.append (called.append (sign.append (typed.append (held.append closed))))).congr
    (by simp [Declaration.words, isSignificant])

theorem accounts_skipDeclaration (bound : Nat) :
    Accounts cursor (skipDeclaration bound) 0 fun _ _ => True := by
  induction bound generalizing cursor with
  | zero => exact .pure trivial
  | succ bound ih =>
    refine .current ?_
    split
    · exact .pure trivial
    · exact .pure trivial
    · exact .pure trivial
    · exact .pure trivial
    · exact .pure trivial
    · next other _ _ _ _ =>
      exact .andThen (.advance other) fun _ _ _ _ => ih.mono (Nat.le_refl 0) fun _ _ _ _ => trivial

/-- Tokens are read as declarations that are added to a file and start at growing places. -/
def Adds (file result : SourceFile) (tokens : List Token) : Prop :=
  ∃ order : List Declaration, result = order.foldl SourceFile.add file ∧
    Agrees tokens (order.flatMap Declaration.words) ∧
      (order.map Declaration.start).Sublist (tokens.map Token.position)

/-- One declaration, kept when it is read. -/
theorem accounts_kept {α : Type} {file : SourceFile} {step : Parse α} {build : α → Declaration}
    {keep : Option α → SourceFile} (same : ∀ value, keep (some value) = file.add (build value))
    (advances : Advances cursor step fun value tokens =>
      Agrees tokens (build value).words ∧ Opens (build value).start tokens) :
    Accounts cursor (attempt step >>= fun read => pure (keep read)) 1 (Adds file) := by
  refine advances.attempt.bind fun read tokens after _ => .pure ?_
  rintro ⟨value, rfl, agrees, first, others, rfl, start⟩
  rw [List.append_nil, same]
  refine ⟨[build value], rfl, by simpa using agrees, ?_⟩
  rw [List.map_cons, List.map_cons, ← start]
  exact (List.nil_sublist _).cons_cons _

theorem accounts_declaration (file : SourceFile) (inside : cursor.current.kind ≠ .endOfText) :
    Accounts cursor (declaration file) 1 (Adds file) := by
  refine .current ?_
  split
  · next kind => exact accounts_kept (fun _ => rfl) (advances_struct kind)
  · next kind => exact accounts_kept (fun _ => rfl) (advances_function kind)
  · next kind => exact accounts_kept (fun _ => rfl) (advances_global kind)
  · next kind =>
    have enough := enough_depth cursor
    have advances : Advances cursor (constant (depthFor cursor.remaining)) fun value tokens =>
        Agrees tokens (Declaration.constant value).words ∧
          Opens (Declaration.constant value).start tokens := advances_constant kind (by omega)
    exact .get (accounts_kept (fun _ => rfl) advances)
  · refine .report (Accounts.bind (.advance inside) fun _ _ _ _ => .pure fun _ => trivial)

/-- The declarations are read up to the end of the text. -/
theorem accounts_declarations (bound : Nat) (file : SourceFile) (deep : cursor.pending < bound) :
    Accounts cursor (declarations bound file) 0 fun result tokens =>
      Adds file result tokens ∧
        ∃ last, cursor.ahead = tokens ++ [last] ∧ last.kind = .endOfText := by
  induction bound generalizing cursor file with
  | zero => omega
  | succ bound ih =>
    refine .intro fun fit => .isAt ?_
    split
    · next ended =>
      have last : cursor.current.kind = .endOfText := of_decide_eq_true ended
      have only : cursor.ahead = [cursor.current] := if_pos last
      exact .pure ⟨⟨[], rfl, .nil, .slnil⟩, cursor.current, only, last⟩
    · next inside =>
      have declared := accounts_declaration file (of_decide_eq_false (Bool.eq_false_iff.mpr inside))
      refine .problemCount ((declared.bindPassing fun read tokens middle passes least _ =>
        .problemCount ?_).mono (Nat.zero_le _) fun _ _ holds => holds)
      have fewer := passes.pending fit.1
      split
      · next dirty =>
        refine .get (.andThen (accounts_skipDeclaration _) fun _ _ after _ => ?_)
        exact (ih read (by omega)).mono (Nat.le_refl 0) fun _ _ _ _ clean => by omega
      · refine (ih read (by omega)).mono (Nat.le_refl 0) ?_
        rintro result others ⟨⟨later, rfl, agrees, places⟩, last, rest, ended⟩ clean
          ⟨order, rfl, first, starts⟩
        refine ⟨⟨order ++ later, by simp, ?_, ?_⟩, last, ?_, ended⟩
        · rw [List.flatMap_append]
          exact first.append agrees
        · rw [List.map_append, List.map_append]
          exact starts.append places
        · rw [passes.ahead fit.1 clean, rest, List.append_assoc]

/-- At a cursor no rule of the grammar yields nothing without reporting an error. -/
structure NeverSilent (cursor : Cursor) : Prop where
  type : Reports cursor type
  field : Reports cursor field
  sizeof : ∀ start, Reports cursor (sizeof start)
  expression : ∀ depth, depthFor cursor.remaining ≤ depth → Reports cursor (expression depth)
  binary : ∀ depth least, depthFor cursor.remaining ≤ depth → Reports cursor (binary depth least)
  binaryFrom : ∀ depth start least left, depthFor cursor.remaining ≤ depth →
    Reports cursor (binaryFrom depth start least left)
  unary : ∀ depth, depthFor cursor.remaining ≤ depth → Reports cursor (unary depth)
  selection : ∀ depth start object, depthFor cursor.remaining ≤ depth →
    Reports cursor (selection depth start object)
  primary : ∀ depth, depthFor cursor.remaining ≤ depth → Reports cursor (primary depth)
  arguments : ∀ depth, depthFor cursor.remaining ≤ depth → Reports cursor (arguments depth)
  initializer : ∀ depth, depthFor cursor.remaining ≤ depth → Reports cursor (initializer depth)
  constant : ∀ depth, depthFor cursor.remaining ≤ depth →
    cursor.current.kind = .keyword .constDecl → Reports cursor (constant depth)
  block : ∀ depth, depthFor cursor.remaining ≤ depth → Reports cursor (block depth)
  statements : ∀ depth, depthFor cursor.remaining ≤ depth → Reports cursor (statements depth)
  statement : ∀ depth, depthFor cursor.remaining ≤ depth → Reports cursor (statement depth)
  branch : ∀ depth, depthFor cursor.remaining ≤ depth →
    cursor.current.kind = .keyword .ifBranch → Reports cursor (branch depth)
  members : ∀ struct, Reports cursor (members struct cursor.remaining)
  struct : cursor.current.kind = .keyword .structDecl → Reports cursor struct
  params : Reports cursor (params cursor.remaining)
  function : cursor.current.kind = .keyword .funDecl → Reports cursor function
  global : cursor.current.kind = .keyword .globalDecl → Reports cursor global

theorem neverSilent (fit : cursor.Fit) : NeverSilent cursor := by
  have enough := enough_depth cursor
  have few := pending_lt_remaining cursor
  exact {
    type := accounts_type.reports fit
    field := accounts_field.reports fit
    sizeof := fun start => (accounts_sizeof start).reports fit
    expression := fun depth deep => ((exprAccounts depth).expression (by omega)).reports fit
    binary := fun depth least deep => ((exprAccounts depth).binary least (by omega)).reports fit
    binaryFrom := fun depth start least left deep =>
      ((exprAccounts depth).binaryFrom start least left (by omega)).reports fit
    unary := fun depth deep => ((exprAccounts depth).unary (by omega)).reports fit
    selection := fun depth start object deep =>
      ((exprAccounts depth).selection start object (by omega)).reports fit
    primary := fun depth deep => ((exprAccounts depth).primary (by omega)).reports fit
    arguments := fun depth deep => ((exprAccounts depth).arguments (by omega)).reports fit
    initializer := fun depth deep =>
      (accounts_initializer (Nat.le_trans (by omega) deep)).reports fit
    constant := fun depth deep kind =>
      (advances_constant kind (Nat.le_trans (by omega) deep)).1.reports fit
    block := fun depth deep => ((stmtAccounts depth).block (by omega)).reports fit
    statements := fun depth deep => ((stmtAccounts depth).statements (by omega)).reports fit
    statement := fun depth deep => ((stmtAccounts depth).statement (by omega)).reports fit
    branch := fun depth deep kind => ((stmtAccounts depth).branch (by omega) kind).reports fit
    members := fun struct => (accounts_members struct _ few).reports fit
    struct := fun kind => (advances_struct kind).1.reports fit
    params := (accounts_params _ few).reports fit
    function := fun kind => (advances_function kind).1.reports fit
    global := fun kind => (advances_global kind).1.reports fit }

end TinLang.Parse

namespace TinLang

instance (first second : Position) : Decidable (first.UpTo second) :=
  inferInstanceAs (Decidable (_ ∨ _))

/-- The declarations of a file in the order in which they start. -/
def SourceFile.inOrder (file : SourceFile) : List Declaration :=
  file.declarations.mergeSort fun first second => first.start.UpTo second.start

/-- A cursor that reading a source can come to. -/
def Cursor.Reached (source : Text) (cursor : Cursor) : Prop :=
  ∃ tokens, Cursor.Passes (.ofTokens (Scan.tokens source)) tokens cursor

/-- The cursor before the first token of a source is fit. -/
theorem Cursor.fit_ofTokens (source : Text) : (Cursor.ofTokens (Scan.tokens source)).Fit := by
  refine ⟨sound_ofTokens (Scan.complete_tokens source), ?_⟩
  obtain ⟨suffix, found, -⟩ := settle_suffix ⟨.endOfText, [], .start⟩ (Scan.tokens source) #[]
  obtain ⟨later, foundNext, -⟩ :=
    settle_suffix (settle ⟨.endOfText, [], .start⟩ (Scan.tokens source) #[]).1
      (settle ⟨.endOfText, [], .start⟩ (Scan.tokens source) #[]).2.1
      (settle ⟨.endOfText, [], .start⟩ (Scan.tokens source) #[]).2.2
  have scanned := Scan.genuine_tokensWithin (source.glyphs.length + 1) .start source.glyphs
  have first : (Cursor.ofTokens (Scan.tokens source)).current.Genuine := by
    rcases found with ending | mem
    · rw [show (Cursor.ofTokens (Scan.tokens source)).current = _ from ending]
      trivial
    · exact scanned _ mem
  intro token mem
  rcases List.mem_cons.mp mem with rfl | mem
  · exact first
  · rcases List.mem_cons.mp mem with rfl | mem
    · rcases foundNext with same | mem
      · rw [show (Cursor.ofTokens (Scan.tokens source)).following = _ from same]
        exact first
      · exact scanned _ (suffix.subset mem)
    · exact scanned _ (suffix.subset (later.subset mem))

/-- Where reading its first tokens reports nothing, all tokens of a source are ahead. -/
theorem Cursor.ahead_ofTokens (source : Text)
    (clean : (Cursor.ofTokens (Scan.tokens source)).problems.size = 0) :
    (Cursor.ofTokens (Scan.tokens source)).ahead = Scan.tokens source := by
  have complete := Scan.complete_tokens source
  obtain ⟨last, found, ended⟩ := complete.ended
  cases tokens : Scan.tokens source with
  | nil =>
    rw [tokens] at found
    cases found
  | cons token others =>
    rw [tokens] at clean found complete
    have rose := (settle_suffix (settle ⟨.endOfText, [], .start⟩ (token :: others) #[]).1
      (settle ⟨.endOfText, [], .start⟩ (token :: others) #[]).2.1
      (settle ⟨.endOfText, [], .start⟩ (token :: others) #[]).2.2).2.2
    have clean : (settle (settle ⟨.endOfText, [], .start⟩ (token :: others) #[]).1
      (settle ⟨.endOfText, [], .start⟩ (token :: others) #[]).2.1
      (settle ⟨.endOfText, [], .start⟩ (token :: others) #[]).2.2).2.2.size = 0 := clean
    have first : settle ⟨.endOfText, [], .start⟩ (token :: others) #[] = (token, others, #[]) :=
      settle_clean (Nat.le_antisymm (Nat.le_trans rose (Nat.le_of_eq clean)) (Nat.zero_le _))
    rw [first] at clean rose
    cases others with
    | nil =>
      have final : token.kind = .endOfText := by
        rw [List.getLast?_singleton] at found
        rwa [Option.some.inj found]
      have only : (Cursor.ofTokens [token]).current = token := by
        simp only [Cursor.ofTokens, first]
      rw [ahead, only, if_pos final]
    | cons second others =>
      have further : token.kind ≠ .endOfText :=
        ((List.pairwise_cons.mp complete.ordered).1 second (List.mem_cons_self ..)).1
      have next : settle token (second :: others) #[] = (second, others, #[]) := settle_clean clean
      have whole : Cursor.ofTokens (token :: second :: others) =
          ⟨token, second, others, ⟨0, 0, 0⟩, #[]⟩ := by
        simp only [Cursor.ofTokens, first, next]
      rw [whole, ahead, if_neg further]

namespace SourceFile

theorem declarations_add (file : SourceFile) (decl : Declaration) :
    (file.add decl).declarations.Perm (decl :: file.declarations) := by
  have moved (before after : List Declaration) :
      (before ++ decl :: after).Perm (decl :: (before ++ after)) := List.perm_middle
  cases decl with
  | struct decl =>
    have front := moved (file.structs.map .struct)
      (file.consts.map .constant ++ file.globals.map .global ++ file.funcs.map .function)
    simpa only [add, declarations, List.map_append, List.map_cons, List.map_nil, List.append_assoc,
      List.cons_append, List.nil_append] using front
  | constant decl =>
    have front := moved (file.structs.map .struct ++ file.consts.map .constant)
      (file.globals.map .global ++ file.funcs.map .function)
    simpa only [add, declarations, List.map_append, List.map_cons, List.map_nil, List.append_assoc,
      List.cons_append, List.nil_append] using front
  | global decl =>
    have front := moved (file.structs.map .struct ++ file.consts.map .constant ++
      file.globals.map .global) (file.funcs.map .function)
    simpa only [add, declarations, List.map_append, List.map_cons, List.map_nil, List.append_assoc,
      List.cons_append, List.nil_append] using front
  | function decl =>
    have front := moved (file.structs.map .struct ++ file.consts.map .constant ++
      file.globals.map .global ++ file.funcs.map .function) []
    simpa only [add, declarations, List.map_append, List.map_cons, List.map_nil, List.append_assoc,
      List.append_nil] using front

theorem declarations_foldl (order : List Declaration) (file : SourceFile) :
    (order.foldl add file).declarations.Perm (order ++ file.declarations) := by
  induction order generalizing file with
  | nil => exact .refl _
  | cons decl order ih =>
    refine (ih (file.add decl)).trans ?_
    refine ((declarations_add file decl).append_left order).trans ?_
    exact List.perm_middle

/-- Declarations that start at growing places are in order. -/
theorem inOrder_ofDeclarations {name source : Text} {order : List Declaration}
    (growing : (order.map Declaration.start).Pairwise Position.Before) :
    (ofDeclarations name source order).inOrder = order := by
  have ordered : order.Pairwise fun first second => first.start.Before second.start :=
    List.pairwise_map.mp growing
  have same : (ofDeclarations name source order).declarations.Perm order := by
    have found := declarations_foldl order ⟨name, source, [], [], [], []⟩
    rwa [show declarations ⟨name, source, [], [], [], []⟩ = [] from rfl, List.append_nil] at found
  have perm : (ofDeclarations name source order).inOrder.Perm order :=
    (List.mergeSort_perm _ _).trans same
  let upTo (first second : Declaration) : Prop := first.start.UpTo second.start
  refine @List.Perm.eq_of_pairwise _ upTo _ _ ?_ ?_ (ordered.imp Position.Before.upTo) perm
  · let alike (first second : Declaration) : Prop :=
      upTo first second → upTo second first → first = second
    have symmetric : Std.Symm alike := ⟨fun _ _ same left right => (same right left).symm⟩
    have apart : order.Pairwise alike := by
      refine ordered.imp fun before _ back => ?_
      unfold Position.Before at before
      unfold upTo Position.UpTo at back
      omega
    intro first second mem other
    exact apart.forall_of_forall (fun _ _ _ _ => rfl) (perm.subset mem) other
  · refine (List.pairwise_mergeSort ?_ ?_ _).imp of_decide_eq_true
    · intro first second third left right
      exact decide_eq_true ((of_decide_eq_true left).trans (of_decide_eq_true right))
    · intro first second
      rw [Bool.or_eq_true, decide_eq_true_eq, decide_eq_true_eq]
      unfold upTo Position.UpTo
      omega

/-- Where parsing reports nothing, the tokens of the text agree with the declarations that are read,
one after another. -/
theorem agrees_of_clean {name source : Text} (clean : (parse name source).2 = []) :
    ∃ order body last, (parse name source).1 = ofDeclarations name source order ∧
      Scan.tokens source = body ++ [last] ∧ last.kind = .endOfText ∧ (∀ token ∈ body, token.Valid) ∧
        Agrees body (order.flatMap Declaration.words) ∧
          (order.map Declaration.start).Sublist (body.map Token.position) := by
  have fit := Cursor.fit_ofTokens source
  have enough := Parse.pending_lt_remaining (.ofTokens (Scan.tokens source))
  obtain ⟨result, tokens, after, run, passes, found⟩ :=
    Parse.accounts_declarations _ ⟨name, source, [], [], [], []⟩ enough fit
  have parsed : parse name source =
      (result.getD ⟨name, source, [], [], [], []⟩, after.diagnostics name) := by
    simp only [parse, run]
  rw [parsed] at clean ⊢
  have none : after.problems.size = 0 := by
    have short := congrArg List.length clean
    simpa [Cursor.diagnostics] using short
  have rose := passes.rose
  cases result with
  | none => omega
  | some file =>
    obtain ⟨⟨order, rfl, agrees, places⟩, last, whole, ended⟩ := found.2 (by omega)
    rw [Cursor.ahead_ofTokens source (by omega)] at whole
    exact ⟨order, tokens, last, rfl, whole, ended, passes.valid fit.1, agrees, places⟩

/-- Nothing is accepted silently: where parsing reports nothing, the text has no lexical errors and
its tokens are, up to parentheses, commas and semicolons, those of the declarations read from it in
the order in which they start. And no rule of the grammar yields nothing without a report. -/
theorem parse_faithful (name source : Text) :
    ((parse name source).2 = [] → ∃ body last, Scan.tokens source = body ++ [last] ∧
      last.kind = .endOfText ∧ (∀ token ∈ body, token.Valid) ∧
        List.Forall₂ Token.Says (body.filter Token.isSignificant)
          (SyntaxWord.significant ((parse name source).1.inOrder.flatMap Declaration.words))) ∧
    ∀ cursor : Cursor, cursor.Reached source → Parse.NeverSilent cursor := by
  constructor
  · intro silent
    obtain ⟨order, body, last, read, whole, ended, valid, agrees, places⟩ := agrees_of_clean silent
    refine ⟨body, last, whole, ended, valid, ?_⟩
    have ordered := (Scan.complete_tokens source).ordered
    rw [whole] at ordered
    have growing : (body.map Token.position).Pairwise Position.Before := by
      refine List.pairwise_map.mpr ((List.pairwise_append.mp ordered).1.imp_of_mem ?_)
      exact fun mem _ ahead => ahead.2 (valid _ mem)
    have inOrder : (ofDeclarations name source order).inOrder = order :=
      inOrder_ofDeclarations (growing.sublist places)
    rw [read, inOrder]
    exact agrees.erased
  · rintro cursor ⟨tokens, passes⟩
    exact Parse.neverSilent (passes.fit (Cursor.fit_ofTokens source))

/-- A function with redundant parentheses. -/
def sumSource : Text := "fun sum(a: int, b: int): int { return ((a) + b); }"

theorem parse_faithful_sum :
    (parse "sum.tin" sumSource).2 = [] ∧
      (∃ body last, Scan.tokens sumSource = body ++ [last] ∧ last.kind = .endOfText ∧
        (∀ token ∈ body, token.Valid) ∧ List.Forall₂ Token.Says (body.filter Token.isSignificant)
          (SyntaxWord.significant
            ((parse "sum.tin" sumSource).1.inOrder.flatMap Declaration.words))) ∧
        Parse.NeverSilent (.ofTokens (Scan.tokens sumSource)) := by
  have silent : (parse "sum.tin" sumSource).2 = [] := by decide
  have faithful := parse_faithful "sum.tin" sumSource
  exact ⟨silent, faithful.1 silent, faithful.2 _ ⟨[], .stay⟩⟩

end SourceFile

/-- The string literal that a word is. -/
def SyntaxWord.string? : SyntaxWord → Option Text
  | .string value => some value
  | _ => none

/-- The string literals in some words. -/
def SyntaxWord.strings (words : List SyntaxWord) : List Text := words.filterMap string?

namespace SyntaxWord

@[simp] theorem strings_nil : strings [] = [] := rfl

@[simp] theorem strings_append (words others : List SyntaxWord) :
    strings (words ++ others) = strings words ++ strings others := List.filterMap_append ..

@[simp] theorem strings_cons (word : SyntaxWord) (words : List SyntaxWord) :
    strings (word :: words) = word.string?.toList ++ strings words := by
  cases word <;> rfl

@[simp] theorem strings_significant (words : List SyntaxWord) :
    strings (significant words) = strings words := by
  induction words with
  | nil => rfl
  | cons word words ih =>
    rw [significant_cons, strings_append, ih, strings_cons]
    cases word with
    | symbol sign => cases sign <;> rfl
    | _ => rfl

@[simp] theorem strings_parens (words : List SyntaxWord) : strings (parens words) =
  strings words := by
  rw [← strings_significant, significant_parens, strings_significant]

@[simp] theorem strings_operand (least tightness : Nat) (words : List SyntaxWord) :
    strings (operand least tightness words) = strings words := by
  rw [← strings_significant, significant_operand, strings_significant]

@[simp] theorem strings_commas (parts : List (List SyntaxWord)) :
    strings (commas parts) = strings parts.flatten := by
  rw [← strings_significant, significant_commas, strings_significant]

end SyntaxWord

@[simp] theorem TypeExpr.strings_words (type : TypeExpr) : SyntaxWord.strings type.words = [] := by
  simp [words, SyntaxWord.strings, SyntaxWord.string?]

namespace Expr

mutual

/-- The string literals of an expression are those in its words. -/
theorem strings_words (expr : Expr) : SyntaxWord.strings expr.words = expr.strings := by
  cases expr with
  | call _ _ arguments => simp [words, strings, SyntaxWord.string?, strings_wordsOfAll arguments]
  | binary _ _ left right =>
    simp [words, strings, SyntaxWord.string?, strings_words left, strings_words right]
  | step _ _ before operand =>
    cases before <;> simp [words, strings, SyntaxWord.string?, strings_words operand]
  | unary _ _ operand | member _ operand | cast _ _ operand =>
    simp [words, strings, SyntaxWord.string?, strings_words operand]
  | assign _ left right | index _ left right =>
    simp [words, strings, SyntaxWord.string?, strings_words left, strings_words right]
  | _ => simp [words, strings, SyntaxWord.string?]

theorem strings_wordsOfAll (exprs : List Expr) :
    SyntaxWord.strings (wordsOfAll exprs).flatten = stringsOfAll exprs := by
  cases exprs with
  | nil => rfl
  | cons expr exprs => simp [wordsOfAll, stringsOfAll, strings_words expr, strings_wordsOfAll exprs]

end

theorem strings_initialWords (expr : Option Expr) :
    SyntaxWord.strings (initialWords expr) = stringsOf? expr := by
  cases expr with
  | none => rfl
  | some expr => simp [initialWords, stringsOf?, SyntaxWord.string?, strings_words]

end Expr

theorem ConstDecl.strings_words (decl : ConstDecl) :
    SyntaxWord.strings decl.words = decl.value.strings := by
  cases found : decl.type <;>
    simp [words, found, TypeExpr.annotation, SyntaxWord.string?, Expr.strings_words]

mutual

theorem Stmt.strings_words (statement : Stmt) :
    SyntaxWord.strings statement.words = statement.strings := by
  cases statement with
  | constant decl => exact decl.strings_words
  | branch _ condition body otherwise =>
    simp [Stmt.words, Stmt.strings, SyntaxWord.string?, Expr.strings_words,
      Block.strings_words body, strings_wordsOfOtherwise otherwise]
  | loop _ condition body =>
    simp [Stmt.words, Stmt.strings, SyntaxWord.string?, Expr.strings_words,
      Block.strings_words body]
  | block body => exact body.strings_words
  | result _ value => cases value <;>
      simp [Stmt.words, Stmt.strings, SyntaxWord.string?, Expr.strings_words, Expr.stringsOf?]
  | _ =>
    simp [Stmt.words, Stmt.strings, SyntaxWord.string?, Expr.strings_words,
      Expr.strings_initialWords]

theorem strings_wordsOfOtherwise (otherwise : Option Stmt) :
    SyntaxWord.strings (wordsOfOtherwise otherwise) = stringsOfOtherwise otherwise := by
  cases otherwise with
  | none => rfl
  | some statement =>
    simp [wordsOfOtherwise, stringsOfOtherwise, SyntaxWord.string?, Stmt.strings_words statement]

theorem Block.strings_words (block : Block) : SyntaxWord.strings block.words = block.strings := by
  cases block with
  | mk _ statements =>
    simp [Block.words, Block.strings, SyntaxWord.string?, strings_wordsOfStatements statements]

theorem strings_wordsOfStatements (statements : List Stmt) :
    SyntaxWord.strings (wordsOfStatements statements) = stringsOfStatements statements := by
  cases statements with
  | nil => rfl
  | cons statement statements =>
    simp [wordsOfStatements, stringsOfStatements, Stmt.strings_words statement,
      strings_wordsOfStatements statements]

end

/-- The words of a declaration with a string literal of the file say it. -/
theorem SourceFile.word_of_string {file : SourceFile} {text : Text} (mem : text ∈ file.strings) :
    ∃ decl ∈ file.declarations, SyntaxWord.string text ∈ decl.words := by
  have said {words : List SyntaxWord} (inside : text ∈ SyntaxWord.strings words) :
      SyntaxWord.string text ∈ words := by
    obtain ⟨word, mem, found⟩ := List.mem_filterMap.mp inside
    cases word <;> cases found
    exact mem
  simp only [strings, List.mem_append, List.mem_flatMap] at mem
  rcases mem with (⟨decl, known, inside⟩ | ⟨decl, known, inside⟩) |
    ⟨decl, known, inside⟩
  · refine ⟨.constant decl, by simp [declarations, known], said ?_⟩
    rwa [← decl.strings_words] at inside
  · refine ⟨.global decl, by simp [declarations, known], said ?_⟩
    rw [← Expr.strings_initialWords] at inside
    simpa [Declaration.words, SyntaxWord.string?] using inside
  · refine ⟨.function decl, by simp [declarations, known], said ?_⟩
    rw [← Block.strings_words] at inside
    simp [Declaration.words, inside]

/-- Where parsing reports nothing, the names of functions and the string literals are UTF-8. -/
theorem SourceFile.utf8_of_clean {name source : Text} (clean : (parse name source).2 = []) :
    (∀ decl ∈ (parse name source).1.funcs, decl.name.isUtf8) ∧
      ∀ text ∈ (parse name source).1.strings, text.isUtf8 := by
  obtain ⟨order, body, last, read, whole, -, -, agrees, -⟩ := agrees_of_clean clean
  have listed : ∀ decl ∈ (parse name source).1.declarations, decl ∈ order := by
    intro decl mem
    rw [read] at mem
    simpa [declarations] using (declarations_foldl order ⟨name, source, [], [], [], []⟩).subset mem
  have utf8 {decl : Declaration} {word : SyntaxWord} {text : Text}
      (mem : decl ∈ (parse name source).1.declarations) (inside : word ∈ decl.words)
      (kind : word = .name text ∨ word = .string text) : text.isUtf8 := by
    have said := List.mem_flatMap.mpr ⟨decl, listed decl mem, inside⟩
    have significant : word.isSignificant := by rcases kind with rfl | rfl <;> rfl
    obtain ⟨token, found, said⟩ := agrees.spoken said significant
    have valid := (Scan.complete_tokens source).utf8 token (whole ▸ List.mem_append_left _ found)
    rcases kind with rfl | rfl
    · exact said.2 ▸ valid (.inl said.1)
    · exact said.2 ▸ valid (.inr said.1)
  refine ⟨fun decl mem => ?_, fun text mem => ?_⟩
  · have known : Declaration.function decl ∈ (parse name source).1.declarations := by
      simp [declarations, mem]
    exact utf8 known (by simp [Declaration.words]) (.inl rfl)
  · obtain ⟨decl, known, inside⟩ := word_of_string mem
    exact utf8 known inside (.inr rfl)

end TinLang
