import TinLang.Syntax.Literals
import TinLang.Syntax.Parse
import TinLang.Syntax.Print

/-!
# Nodes of declarations

The nodes of a declaration are the parts of its syntax tree. `starts` gives the places where the
nodes of functions and initial values start, `places` those of all nodes of a declaration, and
`extents` the stretches of all nodes with what is known of them.
-/
namespace TinLang

namespace Expr

mutual

/-- The places where an expression and the nodes in it start. -/
def starts : Expr → List Position
  | .call span _ arguments => span.start :: startsOfAll arguments
  | .binary span _ left right => span.start :: (left.starts ++ right.starts)
  | .unary span _ operand => span.start :: operand.starts
  | .step span _ _ operand => span.start :: operand.starts
  | .assign span target value => span.start :: (target.starts ++ value.starts)
  | .member span object _ => span.start :: object.starts
  | .index span object place => span.start :: (object.starts ++ place.starts)
  | .cast span type value => span.start :: type.span.start :: value.starts
  | .sizeof span type => [span.start, type.span.start]
  | .int span _ | .float span _ | .string span _ | .character span _ | .bool span _ | .null span
  | .name span _ => [span.start]

/-- The places where some expressions and the nodes in them start. -/
def startsOfAll : List Expr → List Position
  | [] => []
  | expr :: exprs => expr.starts ++ startsOfAll exprs

end

/-- An expression starts at a place of its own. -/
theorem start_mem_starts (expr : Expr) : expr.span.start ∈ expr.starts := by
  cases expr <;> simp [span, starts]

/-- The places of an expression that may be missing. -/
def startsOf? (expr : Option Expr) : List Position := (expr.map starts).getD []

end Expr

/-- The places of a constant. -/
def ConstDecl.starts (decl : ConstDecl) : List Position :=
  decl.span.start ::
    ((decl.type.map fun type => type.span.start).toList ++ decl.value.starts)

mutual

/-- The places where a statement and the nodes in it start. -/
def Stmt.starts : Stmt → List Position
  | .declare span _ type value => span.start :: type.span.start :: Expr.startsOf? value
  | .constant decl => decl.starts
  | .evaluate span expr => span.start :: expr.starts
  | .branch span condition body otherwise =>
    span.start :: (condition.starts ++ body.starts ++ startsOfOtherwise otherwise)
  | .loop span condition body => span.start :: (condition.starts ++ body.starts)
  | .result span value => span.start :: Expr.startsOf? value
  | .block body => body.starts
  | .leave span | .again span => [span.start]

/-- The places of a statement that may be missing. -/
def startsOfOtherwise : Option Stmt → List Position
  | none => []
  | some statement => statement.starts

/-- The places where a block and the nodes in it start. -/
def Block.starts : Block → List Position
  | .mk span statements => span.start :: startsOfStatements statements

/-- The places of some statements. -/
def startsOfStatements : List Stmt → List Position
  | [] => []
  | statement :: statements => statement.starts ++ startsOfStatements statements

end

/-- The places of the header and the body of a function. -/
def FuncDecl.starts (decl : FuncDecl) : List Position :=
  decl.span.start :: decl.body.starts

/-- The places of the initial value of a global variable. -/
def GlobalDecl.starts (decl : GlobalDecl) : List Position :=
  Expr.startsOf? decl.value

/-- The stretch of a node of a syntax tree. A literal and a name are one token (`single`). -/
structure Extent where
  span : Span
  single : Bool
deriving DecidableEq, Repr

namespace Expr

mutual

/-- An expression and the nodes in it. -/
def extents : Expr → List Extent
  | .call span _ arguments => ⟨span, false⟩ :: extentsOfAll arguments
  | .binary span _ left right => ⟨span, false⟩ :: (left.extents ++ right.extents)
  | .unary span _ operand => ⟨span, false⟩ :: operand.extents
  | .step span _ _ operand => ⟨span, false⟩ :: operand.extents
  | .assign span target value => ⟨span, false⟩ :: (target.extents ++ value.extents)
  | .member span object _ => ⟨span, false⟩ :: object.extents
  | .index span object place => ⟨span, false⟩ :: (object.extents ++ place.extents)
  | .cast span type value => ⟨span, false⟩ :: ⟨type.span, false⟩ :: value.extents
  | .sizeof span type => [⟨span, false⟩, ⟨type.span, false⟩]
  | .int span _ | .float span _ | .string span _ | .character span _ | .bool span _ | .null span
  | .name span _ => [⟨span, true⟩]

/-- Some expressions and the nodes in them. -/
def extentsOfAll : List Expr → List Extent
  | [] => []
  | expr :: exprs => expr.extents ++ extentsOfAll exprs

end

/-- An expression that may be missing, and the nodes in it. -/
def extentsOf? (expr : Option Expr) : List Extent := (expr.map extents).getD []

end Expr

/-- A written type that may be missing. -/
def TypeExpr.extentOf? (type : Option TypeExpr) : List Extent :=
  (type.map fun type => ⟨type.span, false⟩).toList

/-- A constant and the nodes in it. -/
def ConstDecl.extents (decl : ConstDecl) : List Extent :=
  ⟨decl.span, false⟩ ::
    (TypeExpr.extentOf? decl.type ++ decl.value.extents)

mutual

/-- A statement and the nodes in it. -/
def Stmt.extents : Stmt → List Extent
  | .declare span _ type value => ⟨span, false⟩ :: ⟨type.span, false⟩ :: Expr.extentsOf? value
  | .constant decl => decl.extents
  | .evaluate span expr => ⟨span, false⟩ :: expr.extents
  | .branch span condition body otherwise =>
    ⟨span, false⟩ :: (condition.extents ++ body.extents ++ extentsOfOtherwise otherwise)
  | .loop span condition body => ⟨span, false⟩ :: (condition.extents ++ body.extents)
  | .result span value => ⟨span, false⟩ :: Expr.extentsOf? value
  | .block body => body.extents
  | .leave span | .again span => [⟨span, false⟩]

/-- A statement that may be missing, and the nodes in it. -/
def extentsOfOtherwise : Option Stmt → List Extent
  | none => []
  | some statement => statement.extents

/-- A block and the nodes in it. -/
def Block.extents : Block → List Extent
  | .mk span statements => ⟨span, false⟩ :: extentsOfStatements statements

/-- Some statements and the nodes in them. -/
def extentsOfStatements : List Stmt → List Extent
  | [] => []
  | statement :: statements => statement.extents ++ extentsOfStatements statements

end

/-- A field and its type. -/
def Field.extents (field : Field) : List Extent := [⟨field.span, false⟩, ⟨field.type.span, false⟩]

/-- A declaration and the nodes in it. The stretch of a function is that of its header. -/
def Declaration.extents : Declaration → List Extent
  | .struct decl =>
    ⟨decl.span, false⟩ :: decl.members.flatMap Field.extents
  | .constant decl => decl.extents
  | .global decl =>
    ⟨decl.span, false⟩ :: ⟨decl.type.span, false⟩ ::
      Expr.extentsOf? decl.value
  | .function decl =>
    (⟨decl.span, false⟩ :: decl.body.extents) ++
      decl.params.flatMap Field.extents ++ TypeExpr.extentOf? decl.result

/-- The nodes of a file. -/
def SourceFile.extents (file : SourceFile) : List Extent :=
  file.declarations.flatMap Declaration.extents

/-- The places where nodes start. -/
def Extent.places (extents : List Extent) : List Position :=
  extents.map fun extent => extent.span.start

@[simp] theorem Extent.places_nil : places [] = [] := rfl

@[simp] theorem Extent.places_cons (extent : Extent) (extents : List Extent) :
    places (extent :: extents) = extent.span.start :: places extents := rfl

@[simp] theorem Extent.places_append (left right : List Extent) :
    places (left ++ right) = places left ++ places right := List.map_append

mutual

theorem Expr.places_extents (expr : Expr) : Extent.places expr.extents = expr.starts := by
  cases expr with
  | call _ _ arguments => simp [extents, starts, places_extentsOfAll arguments]
  | binary _ _ left right => simp [extents, starts, places_extents left, places_extents right]
  | unary _ _ operand => simp [extents, starts, places_extents operand]
  | step _ _ _ operand => simp [extents, starts, places_extents operand]
  | assign _ target value => simp [extents, starts, places_extents target, places_extents value]
  | member _ object => simp [extents, starts, places_extents object]
  | index _ object place => simp [extents, starts, places_extents object, places_extents place]
  | cast _ _ value => simp [extents, starts, places_extents value]
  | _ => rfl

theorem Expr.places_extentsOfAll (exprs : List Expr) :
    Extent.places (extentsOfAll exprs) = startsOfAll exprs := by
  cases exprs with
  | nil => rfl
  | cons expr exprs =>
    simp [extentsOfAll, startsOfAll, places_extents expr, places_extentsOfAll exprs]

end

theorem Expr.places_extentsOf? (expr : Option Expr) :
    Extent.places (extentsOf? expr) = startsOf? expr := by
  cases expr with
  | none => rfl
  | some expr => exact places_extents expr

theorem ConstDecl.places_extents (decl : ConstDecl) :
    Extent.places decl.extents = decl.starts := by
  obtain ⟨span, name, type, value⟩ := decl
  cases type with
  | none => simp [extents, starts, TypeExpr.extentOf?, value.places_extents]
  | some type => simp [extents, starts, TypeExpr.extentOf?, value.places_extents]

mutual

theorem Stmt.places_extents (statement : Stmt) :
    Extent.places statement.extents = statement.starts := by
  cases statement with
  | declare _ _ _ value => simp [Stmt.extents, Stmt.starts, Expr.places_extentsOf?]
  | constant decl => exact decl.places_extents
  | evaluate _ expr => simp [Stmt.extents, Stmt.starts, Expr.places_extents]
  | branch _ condition body otherwise =>
    simp [Stmt.extents, Stmt.starts, Expr.places_extents, Block.places_extents body,
      places_extentsOfOtherwise otherwise]
  | loop _ condition body =>
    simp [Stmt.extents, Stmt.starts, Expr.places_extents, Block.places_extents body]
  | result _ value => simp [Stmt.extents, Stmt.starts, Expr.places_extentsOf?]
  | block body => simp [Stmt.extents, Stmt.starts, Block.places_extents body]
  | leave | again => rfl

theorem places_extentsOfOtherwise (otherwise : Option Stmt) :
    Extent.places (extentsOfOtherwise otherwise) = startsOfOtherwise otherwise := by
  cases otherwise with
  | none => rfl
  | some statement => simp [extentsOfOtherwise, startsOfOtherwise, Stmt.places_extents statement]

theorem Block.places_extents (block : Block) : Extent.places block.extents = block.starts := by
  cases block with
  | mk _ statements =>
    simp [Block.extents, Block.starts, places_extentsOfStatements statements]

theorem places_extentsOfStatements (statements : List Stmt) :
    Extent.places (extentsOfStatements statements) = startsOfStatements statements := by
  cases statements with
  | nil => rfl
  | cons statement statements =>
    simp [extentsOfStatements, startsOfStatements, Stmt.places_extents statement,
      places_extentsOfStatements statements]

end

/-- The places of a field. -/
def Field.places (field : Field) : List Position := [field.span.start, field.type.span.start]

/-- The place of a written type that may be missing. -/
def TypeExpr.placeOf? (type : Option TypeExpr) : List Position :=
  (type.map fun type => type.span.start).toList

/-- The places of a declaration and of all nodes in it. -/
def Declaration.places : Declaration → List Position
  | .struct decl => decl.span.start :: decl.members.flatMap Field.places
  | .constant decl => decl.starts
  | .global decl =>
    decl.span.start :: decl.type.span.start :: decl.starts
  | .function decl =>
    decl.starts ++ decl.params.flatMap Field.places ++
      TypeExpr.placeOf? decl.result

/-- The places where the nodes of a file start. -/
def SourceFile.places (file : SourceFile) : List Position :=
  file.declarations.flatMap Declaration.places

theorem SourceFile.mem_function {file : SourceFile} {decl : FuncDecl}
    (declared : decl ∈ file.funcs) : .function decl ∈ file.declarations := by
  simp [declarations, declared]

theorem SourceFile.mem_global {file : SourceFile} {decl : GlobalDecl}
    (declared : decl ∈ file.globals) : .global decl ∈ file.declarations := by
  simp [declarations, declared]

/-- The places where tokens start. -/
def Token.places (tokens : List Token) : List Position := tokens.map Token.position

theorem Field.places_extents (fields : List Field) :
    Extent.places (fields.flatMap extents) = fields.flatMap places := by
  induction fields with
  | nil => rfl
  | cons field fields ih => rw [List.flatMap_cons, List.flatMap_cons, Extent.places_append, ih]; rfl

theorem Declaration.places_extents (decl : Declaration) :
    Extent.places decl.extents = decl.places := by
  cases decl with
  | struct decl => simp [extents, places, Field.places_extents]
  | constant decl => exact decl.places_extents
  | global decl => simp [extents, places, GlobalDecl.starts, Expr.places_extentsOf?]
  | function decl =>
    have result : Extent.places (TypeExpr.extentOf? decl.result) =
        TypeExpr.placeOf? decl.result := by cases decl.result <;> rfl
    simp [extents, places, FuncDecl.starts, Block.places_extents, Field.places_extents, result]

theorem SourceFile.places_extents (file : SourceFile) :
    Extent.places file.extents = file.places := by
  rw [extents, places]
  induction file.declarations with
  | nil => rfl
  | cons decl declarations ih =>
    rw [List.flatMap_cons, List.flatMap_cons, Extent.places_append, ih, decl.places_extents]

/-- No place of one list is on the line and in the column of a place of the other. -/
def Apart (starts others : List Position) : Prop :=
  ∀ first ∈ starts, ∀ second ∈ others, ¬ (first.line = second.line ∧ first.column = second.column)

end TinLang
