import TinLang.Proofs.Grammar.Statements

/-!
# Printed files

A file whose names are names of the language, whose integer literals fit 32 bits, whose string
literals are UTF-8 and that has no floating-point literals is printed as words that spell it. Its
text is therefore read back as the same file, up to places, and nothing is reported.
-/
namespace TinLang

namespace Expr

mutual

/-- The expression is read back from its words. -/
def isPrintable : Expr → Bool
  | .int _ value => decide (value < 0x100000000)
  | .float .. => false
  | .string _ value => value.isUtf8
  | .character .. | .bool .. | .null _ => true
  | .name _ spelling => spelling.isName
  | .call _ callee arguments => callee.isName && areAllPrintable arguments
  | .binary _ _ left right => left.isPrintable && right.isPrintable
  | .unary _ _ operand | .step _ _ _ operand => operand.isPrintable
  | .assign _ target value => target.isPrintable && value.isPrintable
  | .member _ object field => object.isPrintable && field.isName
  | .index _ object place => object.isPrintable && place.isPrintable
  | .cast _ type value => type.name.isName && value.isPrintable
  | .sizeof _ type => type.name.isName

/-- Each of some expressions is read back from its words. -/
def areAllPrintable : List Expr → Bool
  | [] => true
  | expr :: exprs => expr.isPrintable && areAllPrintable exprs

end

end Expr

/-- The constant is read back from its words. -/
def ConstDecl.isPrintable (decl : ConstDecl) : Bool :=
  decl.name.isName && decl.type.all (·.name.isName) && decl.value.isPrintable

/-- A block or a choice, which are what can stand on the other side of a choice. -/
def Stmt.isOtherSide : Stmt → Bool
  | .block _ | .branch .. => true
  | _ => false

mutual

/-- The statement is read back from its words. -/
def Stmt.isPrintable : Stmt → Bool
  | .declare _ name type value => name.isName && type.name.isName && value.all Expr.isPrintable
  | .constant decl => decl.isPrintable
  | .evaluate _ expr => expr.isPrintable
  | .branch _ condition body otherwise =>
    condition.isPrintable && body.isPrintable && isOtherwisePrintable otherwise
  | .loop _ condition body => condition.isPrintable && body.isPrintable
  | .leave _ | .again _ => true
  | .result _ value => value.all Expr.isPrintable
  | .block body => body.isPrintable

/-- The other side of a choice, if there is one, is a block or another choice and is read back from
its words. -/
def isOtherwisePrintable : Option Stmt → Bool
  | none => true
  | some statement => statement.isOtherSide && statement.isPrintable

/-- The block is read back from its words. -/
def Block.isPrintable : Block → Bool
  | .mk _ statements => areAllPrintable statements

/-- Each of some statements is read back from its words. -/
def areAllPrintable : List Stmt → Bool
  | [] => true
  | statement :: statements => statement.isPrintable && areAllPrintable statements

end

/-- The field is read back from its words. -/
def Field.isPrintable (field : Field) : Bool := field.name.isName && field.type.name.isName

/-- The declaration is read back from its words. -/
def Declaration.isPrintable : Declaration → Bool
  | .struct decl => decl.name.isName && decl.members.all Field.isPrintable
  | .constant decl => decl.isPrintable
  | .global decl =>
    decl.name.isName && decl.type.name.isName &&
      decl.value.all Expr.isPrintable
  | .function decl =>
    decl.name.isName && decl.params.all Field.isPrintable &&
      decl.result.all (·.name.isName) && decl.body.isPrintable

/-- An operand stands between parentheses where it does not hold together tightly enough. -/
theorem Spelled.operand {words : List SyntaxWord} {least tightness : Nat} {value : Expr}
    (spelled : Spelled words (.expr tightness value)) (within : least ≤ 9) :
    Spelled (SyntaxWord.operand least tightness words) (.expr least value) := by
  unfold SyntaxWord.operand
  split
  · exact .loosen (.parens (.loosen spelled (Nat.zero_le _))) within
  · exact .loosen spelled (by omega)

theorem BinaryOp.precedence_le (op : BinaryOp) : op.precedence ≤ 6 := by cases op <;> decide

namespace Expr

mutual

theorem spelled_words : (value : Expr) → value.isPrintable →
    Spelled value.words (.expr value.tightness value)
  | .int _ value, printable => .int (of_decide_eq_true printable)
  | .string _ value, printable => .string printable
  | .character .., _ => .character
  | .bool .., _ => .bool
  | .null _, _ => .null
  | .name .., printable => .name printable
  | .call _ callee arguments, printable => by
    rw [isPrintable, Bool.and_eq_true] at printable
    exact .call printable.1 (spelled_commas arguments printable.2)
  | .binary _ op left right, printable => by
    rw [isPrintable, Bool.and_eq_true] at printable
    have bound := op.precedence_le
    exact .binary ((spelled_words left printable.1).operand (by omega))
      ((spelled_words right printable.2).operand (by omega))
  | .unary _ op operand, printable => .unary ((spelled_words operand printable).operand (by decide))
  | .step _ op true operand, printable =>
    .early ((spelled_words operand printable).operand (by decide))
  | .step _ op false operand, printable =>
    .late ((spelled_words operand printable).operand (by decide))
  | .assign _ target value, printable => by
    rw [isPrintable, Bool.and_eq_true] at printable
    exact .assign ((spelled_words target printable.1).operand (by decide))
      (.loosen (spelled_words value printable.2) (Nat.zero_le _))
  | .member _ object field, printable => by
    rw [isPrintable, Bool.and_eq_true] at printable
    exact .member printable.2 ((spelled_words object printable.1).operand (by decide))
  | .index _ object place, printable => by
    rw [isPrintable, Bool.and_eq_true] at printable
    exact .index ((spelled_words object printable.1).operand (by decide))
      (.loosen (spelled_words place printable.2) (Nat.zero_le _))
  | .cast _ type value, printable => by
    rw [isPrintable, Bool.and_eq_true] at printable
    exact .cast printable.1 (.loosen (spelled_words value printable.2) (Nat.zero_le _))
  | .sizeof _ type, printable => .sizeof printable

theorem spelled_commas : (values : List Expr) → areAllPrintable values →
    Spelled (SyntaxWord.commas (wordsOfAll values)) (.arguments values)
  | [], _ => .nothing
  | [value], printable => by
    rw [areAllPrintable, Bool.and_eq_true] at printable
    exact .one (.loosen (spelled_words value printable.1) (Nat.zero_le _))
  | value :: second :: values, printable => by
    rw [areAllPrintable, Bool.and_eq_true] at printable
    exact .more (.loosen (spelled_words value printable.1) (Nat.zero_le _))
      (spelled_commas (second :: values) printable.2)

end

theorem spelled_loose {value : Expr} (printable : value.isPrintable) :
    Spelled value.words (.expr 0 value) :=
  .loosen (value.spelled_words printable) (Nat.zero_le _)

theorem spelled_initialWords {value : Option Expr} (printable : value.all isPrintable) :
    SpelledInitial (initialWords value) value := by
  cases value with
  | none => rfl
  | some value => exact ⟨_, rfl, spelled_loose printable⟩

end Expr

theorem ConstDecl.spelled_words {decl : ConstDecl} (printable : decl.isPrintable) :
    SpelledConstant decl.words decl := by
  rw [isPrintable, Bool.and_eq_true, Bool.and_eq_true, Option.all_eq_true] at printable
  exact .mk printable.1.1 printable.1.2 (Expr.spelled_loose printable.2)

mutual

theorem Stmt.spelled_words : (statement : Stmt) → statement.isPrintable →
    SpelledCode statement.words (.statement statement)
  | .declare _ name type value, printable => by
    rw [Stmt.isPrintable, Bool.and_eq_true, Bool.and_eq_true] at printable
    exact .declare printable.1.1 printable.1.2 (Expr.spelled_initialWords printable.2)
  | .constant decl, printable => .constant (ConstDecl.spelled_words printable)
  | .evaluate _ expr, printable => .evaluate (Expr.spelled_loose printable)
  | .branch span condition body otherwise, printable => by
    rw [Stmt.isPrintable, Bool.and_eq_true, Bool.and_eq_true] at printable
    exact .branch (.choice (Expr.spelled_loose printable.1.1) (body.spelled_words printable.1.2)
      (spelled_wordsOfOtherwise otherwise printable.2))
  | .loop _ condition body, printable => by
    rw [Stmt.isPrintable, Bool.and_eq_true] at printable
    exact .loop (Expr.spelled_loose printable.1) (body.spelled_words printable.2)
  | .leave _, _ => .leave
  | .again _, _ => .again
  | .result _ none, _ => .finish
  | .result _ (some value), printable => .result (Expr.spelled_loose printable)
  | .block body, printable => .block (body.spelled_words printable)

theorem spelled_wordsOfOtherwise : (otherwise : Option Stmt) → isOtherwisePrintable otherwise →
    SpelledCode (wordsOfOtherwise otherwise) (.otherwise otherwise)
  | none, _ => .plain
  | some (.block body), printable => by
    rw [isOtherwisePrintable, Bool.and_eq_true] at printable
    exact .final (body.spelled_words printable.2)
  | some (.branch span condition body otherwise), printable => by
    rw [isOtherwisePrintable, Bool.and_eq_true, Stmt.isPrintable, Bool.and_eq_true,
      Bool.and_eq_true] at printable
    exact .chain (.choice (Expr.spelled_loose printable.2.1.1) (body.spelled_words printable.2.1.2)
      (spelled_wordsOfOtherwise otherwise printable.2.2))

theorem Block.spelled_words : (body : Block) → body.isPrintable →
    SpelledCode body.words (.block body)
  | .mk _ statements, printable => .braces (spelled_wordsOfStatements statements printable)

theorem spelled_wordsOfStatements : (statements : List Stmt) → areAllPrintable statements →
    SpelledCode (wordsOfStatements statements) (.statements statements)
  | [], _ => .nothing
  | statement :: statements, printable => by
    rw [areAllPrintable, Bool.and_eq_true] at printable
    exact .more (statement.spelled_words printable.1)
      (spelled_wordsOfStatements statements printable.2)

end

theorem Field.proper_of_isPrintable {fields : List Field} (printable : fields.all isPrintable) :
    ∀ field ∈ fields, Field.Proper field := by
  intro field mem
  have each := List.all_eq_true.mp printable field mem
  rwa [isPrintable, Bool.and_eq_true] at each

theorem Declaration.spelled_words {decl : Declaration} (printable : decl.isPrintable) :
    SpelledDeclaration decl.words decl := by
  cases decl with
  | struct decl =>
    rw [isPrintable, Bool.and_eq_true] at printable
    exact .struct printable.1 (Field.proper_of_isPrintable printable.2)
  | constant decl => exact .constant (ConstDecl.spelled_words printable)
  | global decl =>
    rw [isPrintable, Bool.and_eq_true, Bool.and_eq_true] at printable
    exact .global printable.1.1 printable.1.2 (Expr.spelled_initialWords printable.2)
  | function decl =>
    rw [isPrintable, Bool.and_eq_true, Bool.and_eq_true, Bool.and_eq_true,
      Option.all_eq_true] at printable
    exact .function printable.1.1.1 (Field.proper_of_isPrintable printable.1.1.2) printable.1.2
      (decl.body.spelled_words printable.2)

/-- The declarations of a file do not depend on its name and its text. -/
theorem SourceFile.ofDeclarations_eq (other written name source : Text) (order : List Declaration) :
    SourceFile.ofDeclarations name source order =
      { SourceFile.ofDeclarations other written order with name := name, source := source } := by
  have each : ∀ file : SourceFile,
      order.foldl SourceFile.add { file with name := name, source := source } =
        { order.foldl SourceFile.add file with name := name, source := source } := by
    induction order with
    | nil => exact fun _ => rfl
    | cons first others ih =>
      intro file
      rw [List.foldl_cons, List.foldl_cons, ← ih]
      cases first <;> rfl
  exact each ⟨other, written, [], [], [], []⟩

/-- The declarations of a file, one kind after another, are an order in which it can be printed. -/
theorem SourceFile.ofDeclarations_declarations (file : SourceFile) :
    SourceFile.ofDeclarations file.name file.source file.declarations = file := by
  have added : ∀ {α : Type} (make : α → Declaration) (put : SourceFile → List α → SourceFile)
      (_ : ∀ file, put file [] = file)
      (_ : ∀ file first others, put (file.add (make first)) others = put file (first :: others))
      (values : List α) (file : SourceFile),
      (values.map make).foldl SourceFile.add file = put file values := by
    intro α make put none more values
    induction values with
    | nil => exact fun file => (none file).symm
    | cons first others ih => exact fun file => (ih _).trans (more file first others)
  rw [ofDeclarations, declarations, List.foldl_append, List.foldl_append, List.foldl_append,
    added .struct (fun file values => { file with structs := file.structs ++ values }) (by simp)
      (by simp [add]),
    added .constant (fun file values => { file with consts := file.consts ++ values }) (by simp)
      (by simp [add]),
    added .global (fun file values => { file with globals := file.globals ++ values }) (by simp)
      (by simp [add]),
    added .function (fun file values => { file with funcs := file.funcs ++ values }) (by simp)
      (by simp [add])]
  rfl

/-- Printing a file and reading the text gives the file back, up to places, and nothing is reported,
in whatever order the declarations of different kinds are printed. -/
theorem SourceFile.parse_print (name : Text) {file : SourceFile} {order : List Declaration}
    (arranged : SourceFile.ofDeclarations file.name file.source order = file)
    (printable : ∀ decl ∈ order, decl.isPrintable) :
    (SourceFile.parse name (Declaration.print order)).2 = [] ∧
      (SourceFile.parse name (Declaration.print order)).1.bare =
        { file.bare with name := name, source := Declaration.print order } := by
  have spelled : List.Forall₂ SpelledDeclaration (order.map Declaration.words) order := by
    rw [List.forall₂_map_left_iff, List.forall₂_same]
    exact fun decl mem => Declaration.spelled_words (printable decl mem)
  have proper : SyntaxWord.Proper (order.flatMap Declaration.words) := by
    intro word mem
    obtain ⟨decl, listed, inside⟩ := List.mem_flatMap.mp mem
    exact (Declaration.spelled_words (printable decl listed)).proper word inside
  have scans := Scan.scans_join proper
  rw [List.flatMap_def] at scans
  obtain ⟨quiet, same⟩ := SourceFile.parse_of_scans scans spelled
  refine ⟨quiet, same.trans ?_⟩
  rw [SourceFile.ofDeclarations_eq file.name file.source, arranged]
  rfl

/-- A file with a struct, a constant, a global and a function that calls itself. -/
def factorialFile : SourceFile :=
  let int : TypeExpr := ⟨default, "int", 0⟩
  let pair : TypeExpr := ⟨default, "Pair", 1⟩
  let n : Expr := .name default "n"
  let one : Expr := .int default 1
  let smaller : Expr := .call default "factorial" [.binary default .sub n one, .null default]
  let body : Block := .mk default [
    .branch default (.binary default .lessEqual n one)
      (.mk default [.result default (some one)])
      (some (.block (.mk default [
        .evaluate default (.step default .increment false
          (.member default (.unary default .deref (.name default "p")) "left")),
        .result default (some (.binary default .mul n smaller))])))]
  { name := "factorial.tin", source := []
    structs := [⟨default, "Pair", [⟨default, "left", int⟩, ⟨default, "right", int⟩]⟩]
    consts := [⟨default, "SIGN", none, .unary default .negate one⟩]
    globals := [⟨default, "letter", ⟨default, "char", 0⟩, some (.character default 0x0A)⟩]
    funcs := [⟨default, "factorial", [⟨default, "n", int⟩, ⟨default, "p", pair⟩], some int, body⟩] }

theorem SourceFile.parse_print_factorial :
    (∀ decl ∈ factorialFile.declarations, decl.isPrintable) ∧
      (SourceFile.parse "copy.tin" (Declaration.print factorialFile.declarations)).2 = [] ∧
        (SourceFile.parse "copy.tin" (Declaration.print factorialFile.declarations)).1.bare =
          { factorialFile.bare with
            name := "copy.tin", source := Declaration.print factorialFile.declarations } := by
  have printable : ∀ decl ∈ factorialFile.declarations, decl.isPrintable := by decide
  exact ⟨printable, SourceFile.parse_print "copy.tin" factorialFile.ofDeclarations_declarations
    printable⟩

end TinLang
