import Disco.Frontend.Lowering
import Disco.IR.Semantics

/-! # Analyzed function bodies

The syntax tree as the analyzer leaves it to `Optimizer`: names are bound, types are
noted and conversions are written out. A child that may be missing is `absent`. The
parser builds no separate begin and end of a plot, and positions are left out.
-/

namespace Disco.Optimizer

open Frontend IR Library

abbrev SymbolId := Nat

/-- What the analyzer notes at an expression. -/
structure Note where
  resultType : Ty := {}
  addressType : Ty := {}
  isConstant : Bool := false
  constantValue : Int := 0

structure LiteralExpr where
  note : Note
  kind : LiteralKind
  lexeme : Text

structure VariableExpr where
  note : Note
  name : String
  symbolId : SymbolId
  isArrayDecay : Bool := false

inductive Expr where
  | absent
  | literalExpr (literal : LiteralExpr)
  | variableExpr (named : VariableExpr)
  | plotCoordinateExpr (note : Note) (isY : Bool)
  /-- Without a position, the pixel under the cursor. -/
  | readPixelExpr (note : Note) (x y : Expr)
  | initializerListExpr (note : Note) (elements : List Expr)
  | stringExpr (note : Note) (lexeme : Text)
  | nullExpr (note : Note)
  | updateExpr (note : Note) (target value : Expr) (operation : BinaryOperator) (operationType : Ty) (pointerStride : Int)
      (returnsOld : Bool)
  | binaryExpr (note : Note) (operation : BinaryOperator) (left right : Expr) (pointerStride : Int)
  | assignExpr (note : Note) (name value : Expr)
  | unaryExpr (note : Note) (operation : UnaryOperator) (right : Expr)
  | addressOfExpr (note : Note) (right : Expr)
  | dereferenceExpr (note : Note) (right : Expr)
  | subscriptExpr (note : Note) (array index : Expr) (elementSize : Int)
  | memberAccessExpr (note : Note) (object : Expr) (memberOffset : Int)
  | callExpr (note : Note) (callee : String) (resolvedSymbol : String) (arguments : List Expr)
  | castExpr (note : Note) (expression : Expr)
  | layoutQueryExpr (note : Note)

structure AggregateInitializer where
  offset : Int
  type : Ty
  value : Expr

structure VarDeclStmt where
  name : String
  type : Ty
  symbolId : SymbolId
  initializer : Expr := .absent
  aggregateInitializers : List AggregateInitializer := []
  isGlobal : Bool := false
  isConstexpr : Bool := false

inductive Stmt where
  | absent
  | blockStmt (statements : List Stmt)
  | ifStmt (condition : Expr) (thenBranch elseBranch : Stmt)
  | hardwareLoopStmt (count : LiteralExpr) (body : Stmt)
  | whileStmt (isCached : Bool) (condition : Expr) (body : Stmt)
  | forStmt (isCached : Bool) (initializer : Stmt) (condition increment : Expr) (body : Stmt)
  | breakStmt
  | continueStmt
  | fallthroughStmt
  | returnStmt (value : Expr)
  | varDeclStmt (declaration : VarDeclStmt)
  | functionDeclStmt (name : String) (body : List Stmt)
  | expressionStmt (expression : Expr)
  | plotStmt
  | plotBlockStmt (body : Stmt)
  | setColorStmt (colorValue : Expr)
  | cmodeStmt (optionsValue : Expr)
  | rpixStmt
  | caseStmt (value : Expr)
  | defaultStmt
  | switchStmt (condition : Expr) (body : List Stmt)
  | staticAssertStmt (condition : Expr)
  | enumDeclStmt
  | structDefStmt
  | typeAliasDeclStmt
  | bitmapDeclStmt
  | useBitmapStmt
  | constDataStmt (initializers : List Expr)

namespace Expr

def note : Expr → Note
  | .absent => {}
  | .literalExpr literal => literal.note
  | .variableExpr named => named.note
  | .plotCoordinateExpr note _ | .readPixelExpr note _ _ | .initializerListExpr note _ | .stringExpr note _
  | .nullExpr note | .updateExpr note _ _ _ _ _ _ | .binaryExpr note _ _ _ _ | .assignExpr note _ _
  | .unaryExpr note _ _ | .addressOfExpr note _ | .dereferenceExpr note _ | .subscriptExpr note _ _ _
  | .memberAccessExpr note _ _ | .callExpr note _ _ _ | .castExpr note _ | .layoutQueryExpr note => note

def resultType (e : Expr) : Ty := e.note.resultType

def isAbsent : Expr → Bool
  | .absent => true
  | _ => false

/-! ## Casts to a kind of node -/

def asLiteral : Expr → Option LiteralExpr
  | .literalExpr literal => some literal
  | _ => none

def asVariable : Expr → Option VariableExpr
  | .variableExpr named => some named
  | _ => none

/-- The type and whether it is the vertical one. -/
def asPlotCoordinate : Expr → Option (Ty × Bool)
  | .plotCoordinateExpr note isY => some (note.resultType, isY)
  | _ => none

/-- The operation and the operands. -/
def asBinary : Expr → Option (BinaryOperator × Expr × Expr)
  | .binaryExpr _ operation left right _ => some (operation, left, right)
  | _ => none

/-- The target and the value. -/
def asAssign : Expr → Option (Expr × Expr)
  | .assignExpr _ name value => some (name, value)
  | _ => none

end Expr

def Stmt.asVarDecl : Stmt → Option VarDeclStmt
  | .varDeclStmt declaration => some declaration
  | _ => none

/-! ## Names -/

mutual

/-- The variables that the evaluation of an expression can touch by name. -/
def Expr.mentions : Expr → List SymbolId
  | .variableExpr named => [named.symbolId]
  | .readPixelExpr _ x y => if x.isAbsent then [] else x.mentions ++ y.mentions
  | .updateExpr _ target value _ _ _ _ => target.mentions ++ value.mentions
  | .binaryExpr _ _ left right _ => left.mentions ++ right.mentions
  | .assignExpr _ name value => name.mentions ++ value.mentions
  | .unaryExpr _ _ right => right.mentions
  | .addressOfExpr _ right => right.mentions
  | .dereferenceExpr _ right => right.mentions
  | .subscriptExpr _ array index _ => array.mentions ++ index.mentions
  | .memberAccessExpr _ object _ => object.mentions
  | .callExpr _ _ _ arguments => mentionsAll arguments
  | .castExpr _ expression => expression.mentions
  | _ => []

def mentionsAll : List Expr → List SymbolId
  | [] => []
  | e :: rest => e.mentions ++ mentionsAll rest

end

def VarDeclStmt.evaluates (declaration : VarDeclStmt) : List SymbolId :=
  declaration.initializer.mentions ++ mentionsAll (declaration.aggregateInitializers.map AggregateInitializer.value)

mutual

/-- The variables that a statement declares or touches by name. -/
def Stmt.mentions : Stmt → List SymbolId
  | .blockStmt statements => mentionsEach statements
  | .ifStmt condition thenBranch elseBranch => condition.mentions ++ (thenBranch.mentions ++ elseBranch.mentions)
  | .hardwareLoopStmt _ body => body.mentions
  | .whileStmt _ condition body => condition.mentions ++ body.mentions
  | .forStmt _ initializer condition increment body =>
      initializer.mentions ++ (condition.mentions ++ (body.mentions ++ increment.mentions))
  | .returnStmt value => value.mentions
  | .varDeclStmt declaration => declaration.symbolId :: declaration.evaluates
  | .expressionStmt expression => expression.mentions
  | .plotBlockStmt body => body.mentions
  | .setColorStmt colorValue => colorValue.mentions
  | .switchStmt condition body => condition.mentions ++ mentionsEach body
  | _ => []

def mentionsEach : List Stmt → List SymbolId
  | [] => []
  | s :: rest => s.mentions ++ mentionsEach rest

end

/-! ## What a hardware loop cannot hold -/

/-- Whether the evaluation of an expression can call a function. -/
def Expr.calls : Expr → Bool
  | .readPixelExpr _ x y => !x.isAbsent && (x.calls || y.calls)
  | .updateExpr _ target value _ _ _ _ => target.calls || value.calls
  | .binaryExpr _ _ left right _ => left.calls || right.calls
  | .assignExpr _ name value => name.calls || value.calls
  | .unaryExpr _ _ right => right.calls
  | .addressOfExpr _ right => right.calls
  | .dereferenceExpr _ right => right.calls
  | .subscriptExpr _ array index _ => array.calls || index.calls
  | .memberAccessExpr _ object _ => object.calls
  | .callExpr _ _ _ _ => true
  | .castExpr _ expression => expression.calls
  | _ => false

mutual

/-- Whether control can leave a statement early, or something in it needs the registers of
a hardware loop: a call, or another loop. -/
def Stmt.disturbsLoop : Stmt → Bool
  | .blockStmt statements => anyDisturbsLoop statements
  | .ifStmt condition thenBranch elseBranch => condition.calls || thenBranch.disturbsLoop || elseBranch.disturbsLoop
  | .hardwareLoopStmt _ _ | .whileStmt _ _ _ | .forStmt _ _ _ _ _ => true
  | .breakStmt | .continueStmt | .returnStmt _ => true
  | .varDeclStmt declaration =>
      declaration.initializer.calls || declaration.aggregateInitializers.any fun element => element.value.calls
  | .expressionStmt expression => expression.calls
  | .plotBlockStmt body => body.disturbsLoop
  | .setColorStmt colorValue => colorValue.calls
  | .switchStmt condition body => condition.calls || anyDisturbsLoop body
  | _ => false

def anyDisturbsLoop : List Stmt → Bool
  | [] => false
  | s :: rest => s.disturbsLoop || anyDisturbsLoop rest

end

end Disco.Optimizer
