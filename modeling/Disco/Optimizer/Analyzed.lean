import Disco.Optimizer.HardwareLoops

/-! # What the analyzer guarantees

The optimizer is run on bodies that the analyzer has accepted: every name stands for a
variable that is in scope, every declaration gets the next symbol id, and types are noted
by the rules of the analyzer. Only the rules that the optimizer relies on are stated.
-/

namespace Disco.Optimizer

open Frontend IR Library

/-! ## Scopes -/

/-- The variables that names can stand for, and the next symbol id. -/
structure Scope where
  visible : List SymbolId
  next : SymbolId

namespace Scope

def sees (scope : Scope) (names : List SymbolId) : Bool := names.all fun name => decide (name ∈ scope.visible)

/-- Where a scope ends, its names do. -/
def leave (scope inner : Scope) : Scope := { visible := scope.visible, next := inner.next }

def declare (scope : Scope) (declaration : VarDeclStmt) : Option Scope :=
  if scope.sees declaration.evaluates = true ∧ declaration.symbolId = scope.next
  then some ⟨scope.next :: scope.visible, scope.next + 1⟩ else none

def check (scope : Scope) (names : List SymbolId) : Option Scope := if scope.sees names = true then some scope else none

end Scope

mutual

/-- The scope behind a statement whose names are all in scope. -/
def scopeAfter (scope : Scope) : Stmt → Option Scope
  | .blockStmt statements => (scopeAfterAll scope statements).map scope.leave
  | .ifStmt condition thenBranch elseBranch => do
      let scope ← scope.check condition.mentions
      let scope ← scopeAfter scope thenBranch
      scopeAfter scope elseBranch
  | .hardwareLoopStmt _ body => (scopeAfter scope body).map scope.leave
  | .whileStmt _ condition body => do
      let scope ← scope.check condition.mentions
      scopeAfter scope body
  | .forStmt _ initializer condition increment body => do
      let inner ← scopeAfter scope initializer
      let inner ← inner.check condition.mentions
      let inner ← scopeAfter inner body
      let inner ← inner.check increment.mentions
      pure (scope.leave inner)
  | .returnStmt value => scope.check value.mentions
  | .varDeclStmt declaration => scope.declare declaration
  | .expressionStmt expression => scope.check expression.mentions
  | .plotBlockStmt body => scopeAfter scope body
  | .setColorStmt colorValue => scope.check colorValue.mentions
  | .switchStmt condition body => do
      let scope ← scope.check condition.mentions
      scopeAfterAll scope body
  | _ => some scope

def scopeAfterAll (scope : Scope) : List Stmt → Option Scope
  | [] => some scope
  | s :: rest => do
      let scope ← scopeAfter scope s
      scopeAfterAll scope rest

end

/-! ## Types -/

/-- The values that the analyzer lets a literal have. -/
def InRange (type : Ty) (value : Int) : Prop :=
  if type.base = .byte then (if type.isUnsigned then 0 ≤ value ∧ value ≤ 255 else -128 ≤ value ∧ value ≤ 127)
  else if type.base = .word then (if type.isUnsigned then 0 ≤ value ∧ value ≤ 65535 else -32768 ≤ value ∧ value ≤ 32767)
  else False

instance (type : Ty) (value : Int) : Decidable (InRange type value) := by
  unfold InRange
  infer_instance

/-- The texts of the two keywords. -/
def LiteralExpr.WellFormed (literal : LiteralExpr) : Prop :=
  (literal.kind = .keywordTrue → literal.lexeme = nameOf "true") ∧ (literal.kind = .keywordFalse → literal.lexeme = nameOf "false")

/-- A literal that initializes an object without a conversion. -/
def InitializerNoted (type : Ty) (literal : LiteralExpr) : Prop :=
  literal.WellFormed ∧ type.pointerLevel = 0 ∧ type.arraySize = 0 ∧
    (literal.kind ≠ .keywordTrue ∧ literal.kind ≠ .keywordFalse →
      literal.note.resultType = Analyzer.valueType type ∧
        ∃ value, literalValue literal.kind literal.lexeme = some value ∧ InRange type value)

/-- A name has the type of the variable it stands for, and a value only if that is constant. -/
def VariableNoted (locals : SymbolId → Option Ty) (named : VariableExpr) : Prop :=
  ∀ type, locals named.symbolId = some type → named.note.resultType = type ∧ named.isArrayDecay = false ∧
    (named.note.isConstant = true → type.isConst = true)

def isComparison (operation : BinaryOperator) : Bool :=
  decide (operation = .equalEqual ∨ operation = .bangEqual ∨ operation = .less ∨ operation = .lessEqual ∨
    operation = .greater ∨ operation = .greaterEqual)

/-- The operands of integer arithmetic are words of one signedness, that of the result. -/
def BinaryNoted (note : Note) (operation : BinaryOperator) (left : Expr) (pointerStride : Int) : Prop :=
  operation ≠ .andAnd ∧ operation ≠ .orOr ∧ operation ≠ .shiftLeft ∧ operation ≠ .shiftRight ∧
      left.resultType.pointerLevel = 0 →
    pointerStride = 0 ∧ left.resultType.base = .word ∧
      note.resultType = if isComparison operation then { base := .bool, sizeInBytes := 1 }
        else { base := .word, sizeInBytes := 2, isUnsigned := left.resultType.isUnsigned, space := .ram }

mutual

def Expr.Noted (locals : SymbolId → Option Ty) : Expr → Prop
  | .literalExpr literal => literal.WellFormed
  | .variableExpr named => VariableNoted locals named
  | .readPixelExpr _ x y => x.Noted locals ∧ y.Noted locals
  | .updateExpr _ target value _ _ _ _ => target.Noted locals ∧ value.Noted locals
  | .binaryExpr note operation left right pointerStride =>
      BinaryNoted note operation left pointerStride ∧ left.Noted locals ∧ right.Noted locals
  | .assignExpr note name value =>
      note.resultType = name.resultType ∧ name.resultType.isConst = false ∧ name.Noted locals ∧ value.Noted locals
  | .unaryExpr _ _ right => right.Noted locals
  | .addressOfExpr _ right => right.Noted locals
  | .dereferenceExpr _ right => right.Noted locals
  | .subscriptExpr _ array index _ => array.Noted locals ∧ index.Noted locals
  | .memberAccessExpr _ object _ => object.Noted locals
  | .callExpr _ _ _ arguments => AllNoted locals arguments
  | .castExpr _ expression => expression.Noted locals
  | _ => True

def AllNoted (locals : SymbolId → Option Ty) : List Expr → Prop
  | [] => True
  | e :: rest => e.Noted locals ∧ AllNoted locals rest

end

def VarDeclStmt.Noted (locals : SymbolId → Option Ty) (declaration : VarDeclStmt) : Prop :=
  declaration.isGlobal = false ∧ locals declaration.symbolId = some declaration.type ∧ declaration.initializer.Noted locals ∧
    AllNoted locals (declaration.aggregateInitializers.map AggregateInitializer.value) ∧
    (declaration.isConstexpr = true → declaration.type.isConst = true) ∧
    ∀ literal, declaration.initializer = .literalExpr literal →
      declaration.aggregateInitializers = [] ∧ InitializerNoted declaration.type literal

mutual

def Stmt.Noted (locals : SymbolId → Option Ty) : Stmt → Prop
  | .blockStmt statements => EachNoted locals statements
  | .ifStmt condition thenBranch elseBranch => condition.Noted locals ∧ thenBranch.Noted locals ∧ elseBranch.Noted locals
  | .hardwareLoopStmt count body => count.WellFormed ∧ body.Noted locals
  | .whileStmt _ condition body => condition.Noted locals ∧ body.Noted locals
  | .forStmt _ initializer condition increment body =>
      initializer.Noted locals ∧ condition.Noted locals ∧ increment.Noted locals ∧ body.Noted locals
  | .returnStmt value => value.Noted locals
  | .varDeclStmt declaration => declaration.Noted locals
  | .expressionStmt expression => expression.Noted locals
  | .plotBlockStmt body => body.Noted locals
  | .setColorStmt colorValue => colorValue.Noted locals
  | .cmodeStmt optionsValue => optionsValue.Noted locals
  | .switchStmt condition body => condition.Noted locals ∧ EachNoted locals body
  | _ => True

def EachNoted (locals : SymbolId → Option Ty) : List Stmt → Prop
  | [] => True
  | s :: rest => s.Noted locals ∧ EachNoted locals rest

end

/-- A function body that the analyzer has accepted, in the scope of its parameters and of
the variables outside it. -/
structure Analyzed (locals : SymbolId → Option Ty) (scope : Scope) (body : List Stmt) : Prop where
  noted : EachNoted locals body
  resolved : ∃ after, scopeAfterAll scope body = some after
  fresh : ∀ x ∈ scope.visible, x < scope.next

end Disco.Optimizer
