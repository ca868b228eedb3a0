import Disco.Optimizer.Execution

/-! # Recognizing hardware loops

`Optimizer`: a `for` loop that counts a literal down to zero, and whose counter nothing
else can see, becomes a hardware loop.
-/

namespace Disco.Optimizer

open Frontend IR Library

/-! ## Walks -/

mutual

def expressionUsesSymbol (id : SymbolId) : Expr → Bool
  | .readPixelExpr _ x y => !x.isAbsent && (expressionUsesSymbol id x || expressionUsesSymbol id y)
  | .variableExpr named => named.symbolId == id
  | .updateExpr _ target value _ _ _ _ => expressionUsesSymbol id target || expressionUsesSymbol id value
  | .binaryExpr _ _ left right _ => expressionUsesSymbol id left || expressionUsesSymbol id right
  | .assignExpr _ name value => expressionUsesSymbol id name || expressionUsesSymbol id value
  | .unaryExpr _ _ right => expressionUsesSymbol id right
  | .addressOfExpr _ right => expressionUsesSymbol id right
  | .dereferenceExpr _ right => expressionUsesSymbol id right
  | .subscriptExpr _ array index _ => expressionUsesSymbol id array || expressionUsesSymbol id index
  | .memberAccessExpr _ object _ => expressionUsesSymbol id object
  -- calls may alias locals and overwrite the hardware-loop registers
  | .callExpr _ _ _ _ => true
  | .castExpr _ expression => expressionUsesSymbol id expression
  | _ => false

end

def declarationUsesSymbol (id : SymbolId) (declaration : VarDeclStmt) : Bool :=
  expressionUsesSymbol id declaration.initializer ||
    declaration.aggregateInitializers.any fun element => expressionUsesSymbol id element.value

mutual

def statementUsesSymbol (id : SymbolId) : Stmt → Bool
  | .plotBlockStmt body => statementUsesSymbol id body
  | .blockStmt statements => anyUsesSymbol id statements
  | .ifStmt condition thenBranch elseBranch =>
      expressionUsesSymbol id condition || statementUsesSymbol id thenBranch || statementUsesSymbol id elseBranch
  | .forStmt _ initializer condition increment body =>
      statementUsesSymbol id initializer || expressionUsesSymbol id condition || expressionUsesSymbol id increment ||
        statementUsesSymbol id body
  | .whileStmt _ condition body => expressionUsesSymbol id condition || statementUsesSymbol id body
  | .hardwareLoopStmt _ body => statementUsesSymbol id body
  | .switchStmt condition body => expressionUsesSymbol id condition || anyUsesSymbol id body
  | .caseStmt value => expressionUsesSymbol id value
  | .returnStmt value => expressionUsesSymbol id value
  | .varDeclStmt declaration => declarationUsesSymbol id declaration
  | .expressionStmt expression => expressionUsesSymbol id expression
  | .setColorStmt colorValue => expressionUsesSymbol id colorValue
  | .cmodeStmt optionsValue => expressionUsesSymbol id optionsValue
  | _ => false

def anyUsesSymbol (id : SymbolId) : List Stmt → Bool
  | [] => false
  | s :: rest => statementUsesSymbol id s || anyUsesSymbol id rest

end

mutual

def containsBreak : Stmt → Bool
  | .plotBlockStmt body => containsBreak body
  | .breakStmt | .continueStmt => true
  | .blockStmt statements => anyContainsBreak statements
  | .ifStmt _ thenBranch elseBranch => containsBreak thenBranch || containsBreak elseBranch
  | .whileStmt _ _ _ | .hardwareLoopStmt _ _ | .forStmt _ _ _ _ _ => true
  | .switchStmt _ body => anyContainsBreak body
  | _ => false

def anyContainsBreak : List Stmt → Bool
  | [] => false
  | s :: rest => containsBreak s || anyContainsBreak rest

end

mutual

def containsReturn : Stmt → Bool
  | .plotBlockStmt body => containsReturn body
  | .returnStmt _ => true
  | .blockStmt statements => anyContainsReturn statements
  | .ifStmt _ thenBranch elseBranch => containsReturn thenBranch || containsReturn elseBranch
  | .whileStmt _ _ body => containsReturn body
  | .forStmt _ _ _ _ body => containsReturn body
  | .switchStmt _ body => anyContainsReturn body
  | _ => false

def anyContainsReturn : List Stmt → Bool
  | [] => false
  | s :: rest => containsReturn s || anyContainsReturn rest

end

/-! ## Recognition -/

/-- The number of a literal whose text is a number from end to end. -/
def parseIntegerLiteral (literal : LiteralExpr) : Option Int :=
  match DiscoNumeric.parse literal.lexeme with
  | some (value, parsed) => if parsed = literal.lexeme.length then some value else none
  | none => none

/-- A loop that can be counted by the hardware. -/
structure Counted where
  declaration : VarDeclStmt
  count : LiteralExpr
  iterations : Int
  variableOf : VariableExpr
  zero : LiteralExpr
  target : VariableExpr
  left : VariableExpr
  one : LiteralExpr

/-- The nodes of `for (type i = count; i > zero; i = i - one)`. -/
def countedHeader (initializer : Stmt) (condition increment : Expr) : Option Counted := do
  let declaration ← initializer.asVarDecl
  let count ← declaration.initializer.asLiteral
  let (greater, compared, bound) ← condition.asBinary
  let variableOf ← compared.asVariable
  let zero ← bound.asLiteral
  let (name, value) ← increment.asAssign
  let target ← name.asVariable
  let (minus, minuend, subtrahend) ← value.asBinary
  let left ← minuend.asVariable
  let one ← subtrahend.asLiteral
  let n ← parseIntegerLiteral count
  let z ← parseIntegerLiteral zero
  let d ← parseIntegerLiteral one
  if declaration.type.isVolatile = false ∧ 0 < n ∧ n ≤ 65535 ∧ variableOf.symbolId = declaration.symbolId ∧ greater = .greater ∧
      z = 0 ∧ target.symbolId = declaration.symbolId ∧ minus = .minus ∧ left.symbolId = declaration.symbolId ∧ d = 1
  then some ⟨declaration, count, n, variableOf, zero, target, left, one⟩
  else none

/-- A loop whose counter can be removed. -/
def recognize (target : TargetKind) (isCached : Bool) (initializer : Stmt) (condition increment : Expr) (body : Stmt) : Option Counted :=
  if supportsCapability target .hardwareLoops = true ∧ isCached = false then
    (countedHeader initializer condition increment).filter fun counted =>
      !statementUsesSymbol counted.declaration.symbolId body && !containsBreak body && !containsReturn body
  else none

/-- The recognition, where a statement may be replaced. -/
def recognizeIf (replace : Bool) (target : TargetKind) (isCached : Bool) (initializer : Stmt) (condition increment : Expr) (body : Stmt) :
    Option Counted :=
  if replace then recognize target isCached initializer condition increment body else none

mutual

/-- A statement with what is in it optimized; `replace` says whether it may itself be
replaced. -/
def rewrite (target : TargetKind) (replace : Bool) : Stmt → Stmt
  | .forStmt isCached initializer condition increment body =>
      match recognizeIf replace target isCached initializer condition increment body with
      | some counted => .hardwareLoopStmt counted.count (rewrite target true body)
      | none => .forStmt isCached initializer condition increment (rewrite target true body)
  | .functionDeclStmt name body => .functionDeclStmt name (optimizeAll target body)
  | .blockStmt statements => .blockStmt (optimizeAll target statements)
  | .ifStmt condition thenBranch elseBranch => .ifStmt condition (rewrite target true thenBranch) (rewrite target true elseBranch)
  | .whileStmt isCached condition body => .whileStmt isCached condition (rewrite target true body)
  | .switchStmt condition body => .switchStmt condition (optimizeAll target body)
  | .plotBlockStmt body => .plotBlockStmt (rewrite target false body)
  | .hardwareLoopStmt count body => .hardwareLoopStmt count (rewrite target false body)
  | s => s

def optimizeAll (target : TargetKind) : List Stmt → List Stmt
  | [] => []
  | s :: rest => rewrite target true s :: optimizeAll target rest

end

/-- `Optimizer::optimize`. -/
def optimize (target : TargetKind) (s : Stmt) : Stmt := rewrite target true s

/-- A loop that is replaced. -/
structure Replaced where
  counted : Counted
  initializer : Stmt
  condition : Expr
  increment : Expr
  body : Stmt

def Replaced.counter (loop : Replaced) : SymbolId := loop.counted.declaration.symbolId

def Replaced.statement (loop : Replaced) : Stmt := .forStmt false loop.initializer loop.condition loop.increment loop.body

mutual

/-- The loops that are replaced. -/
def replaced (target : TargetKind) (replace : Bool) : Stmt → List Replaced
  | .forStmt isCached initializer condition increment body =>
      match recognizeIf replace target isCached initializer condition increment body with
      | some counted => ⟨counted, initializer, condition, increment, body⟩ :: replaced target true body
      | none => replaced target true body
  | .blockStmt statements => replacedAll target statements
  | .ifStmt _ thenBranch elseBranch => replaced target true thenBranch ++ replaced target true elseBranch
  | .whileStmt _ _ body => replaced target true body
  | .switchStmt _ body => replacedAll target body
  | .plotBlockStmt body => replaced target false body
  | .hardwareLoopStmt _ body => replaced target false body
  | _ => []

def replacedAll (target : TargetKind) : List Stmt → List Replaced
  | [] => []
  | s :: rest => replaced target true s ++ replacedAll target rest

end

end Disco.Optimizer
