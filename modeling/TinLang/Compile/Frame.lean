import TinLang.Compile.Generator

/-!
# Local frames

How much of its frame a function takes for its variables. A variable keeps its place until the end
of its block, and statements after a jump out of their block are no part of the function.
-/
namespace TinLang

mutual

/-- The statement jumps away, so what follows it in its block is not reached. -/
def Stmt.stops : Stmt → Bool
  | .leave _ | .again _ | .result _ _ => true
  | .block body => body.stops
  | _ => false

/-- The block ends in a jump away. -/
def Block.stops : Block → Bool
  | .mk _ body => stopsAny body

/-- One of some statements jumps away. -/
def stopsAny : List Stmt → Bool
  | [] => false
  | first :: rest => first.stops || stopsAny rest

end

namespace Environment

/-- The bytes of a variable of a written type. -/
def placeSize (environment : Environment) (type : TypeExpr) : Nat :=
  alignUp (environment.sizeOf (environment.resolve? type)) wordSize

/-- The bytes that a statement takes until the end of its block. -/
def taken (environment : Environment) : Stmt → Nat
  | .declare _ _ type _ => environment.placeSize type
  | _ => 0

mutual

/-- The most bytes that a statement takes at a time. -/
def room (environment : Environment) : Stmt → Nat
  | .declare _ _ type _ => environment.placeSize type
  | .branch _ _ body none => environment.blockRoom body
  | .branch _ _ body (some other) => max (environment.blockRoom body) (environment.room other)
  | .loop _ _ body => environment.blockRoom body
  | .block body => environment.blockRoom body
  | _ => 0

/-- The most bytes that a block takes at a time. -/
def blockRoom (environment : Environment) : Block → Nat
  | .mk _ body => environment.roomOfAll body

/-- The most bytes that some statements take at a time, up to the first that jumps away. -/
def roomOfAll (environment : Environment) : List Stmt → Nat
  | [] => 0
  | first :: rest =>
    if first.stops then environment.room first
    else max (environment.room first) (environment.taken first + environment.roomOfAll rest)

end

/-- The most bytes that the variables of a function take at a time. -/
def frameSize (environment : Environment) (function : Function) : Nat :=
  environment.blockRoom function.declaration.body

end Environment

end TinLang
