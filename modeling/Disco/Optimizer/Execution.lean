import Disco.Optimizer.Tree
import Disco.Library.Computation

/-! # Execution of function bodies

What a body does, in the order in which it is lowered: scalar values are computed, and
everything else is asked of the machine around the program and recorded. Some variables
have storage of their own, which only their names reach; accesses to it are not recorded.
The frame temporary that holds a logical value is left out.

A loop that goes on for longer than a bound is cut off there.
-/

namespace Disco.Optimizer

open Frontend IR Library

structure State (W : Type) where
  cells : SymbolId → Int
  world : W
  trace : List Event

/-- Why a statement does not run to its end. -/
inductive Stop where
  | halted (halt : Halt)
  | breaking
  | continuing
  | returning (value : Option Int)
  /-- A loop was cut off. -/
  | unfinished
  deriving DecidableEq, Repr

abbrev Eval (W : Type) : Type → Type := Computation (State W) Halt

abbrev Exec (W : Type) : Type → Type := Computation (State W) Stop

/-- The address type of an l-value; a name without one is a local, or in the space of its type. -/
def Expr.storageType : Expr → Ty
  | .variableExpr named =>
      if named.isArrayDecay then named.note.resultType
      else if named.note.addressType.pointerLevel > 0 then named.note.addressType
      else Lowerer.pointerTo named.note.resultType (if named.symbolId ≠ 0 then .ram else named.note.resultType.space)
  | e =>
      if e.note.addressType.pointerLevel > 0 then e.note.addressType
      else Lowerer.pointerTo e.note.resultType e.note.resultType.space

/-- An expression that `color` reads straight from ROM. -/
def Expr.isRomByte (e : Expr) : Bool :=
  let place := match e with
    | .subscriptExpr .. | .dereferenceExpr .. | .memberAccessExpr .. | .variableExpr .. => true
    | _ => false
  place && !e.note.isConstant && decide (e.resultType.base = .byte) && decide (e.resultType.pointerLevel = 0) &&
    decide (e.note.addressType.pointerLevel > 0) && decide (e.note.addressType.space = .rom) && !e.resultType.isVolatile

section Evaluation

variable {W : Type} (perform : Perform W) (own : SymbolId → Bool)

/-- What one instruction gives, with what it asks of the machine. -/
def issue (i : Instruction) (arguments : List Int) : Eval W Int := fun s =>
  match produce perform i.effect arguments 0 s.world with
  | .error halt => (.error halt, s)
  | .ok p => (.ok p.slot.word, { s with world := p.world, trace := s.trace ++ p.events })

def constant (plot : Bool) (type : Ty) (value : Int) : Eval W Int :=
  issue perform { type := type, immediate := value, inPlotContext := plot } []

def loadFrom (plot : Bool) (type : Ty) (address : Int) : Eval W Int :=
  issue perform { opcode := .loadIndirect, type := type, memoryVolatile := type.isVolatile, inPlotContext := plot } [address]

/-- `operation` says what the store is for. -/
def storeTo (plot : Bool) (operation : String) (type : Ty) (isVolatile : Bool) (address value : Int) : Eval W Int :=
  issue perform { opcode := .storeIndirect, type := type, operation := operation, memoryVolatile := isVolatile, inPlotContext := plot }
    [address, value]

def addressOf (plot : Bool) (type : Ty) (name : String) (symbolId : SymbolId) : Eval W Int :=
  issue perform { opcode := .address, type := type, symbol := name, symbolId := symbolId, inPlotContext := plot } []

def memberAddress (plot : Bool) (type : Ty) (offset object : Int) : Eval W Int :=
  issue perform { opcode := .address, type := type, operation := "member", immediate := offset, inPlotContext := plot } [object]

def elementAddress (plot : Bool) (type : Ty) (elementSize base index : Int) : Eval W Int :=
  issue perform { opcode := .pointerOffset, type := type, operation := "+", immediate := elementSize, inPlotContext := plot } [base, index]

def readCoordinate (plot : Bool) (type : Ty) (isY : Bool) : Eval W Int :=
  issue perform { opcode := .plotCoordinateRead, type := type, immediate := if isY then 1 else 0, inPlotContext := plot } []

def writeCoordinate (plot : Bool) (type : Ty) (isY : Bool) (value : Int) : Eval W Int :=
  issue perform { opcode := .plotCoordinateWrite, type := type, immediate := if isY then 1 else 0, inPlotContext := plot } [value]

/-- The storage of a variable of its own. -/
def readCell (symbolId : SymbolId) (type : Ty) : Eval W Int := Computation.read fun s => convert (s.cells symbolId) type

def State.setCell (s : State W) (symbolId : SymbolId) (value : Int) : State W :=
  { s with cells := Function.update s.cells symbolId value }

def writeCell {ε : Type} (symbolId : SymbolId) (type : Ty) (value : Int) : Computation (State W) ε Unit :=
  Computation.change fun s => s.setCell symbolId (convert value type)

/-- A variable whose value is in storage of its own. -/
def isOwn (e : Expr) : Option SymbolId :=
  match e with
  | .variableExpr named => if own named.symbolId ∧ named.isArrayDecay = false then some named.symbolId else none
  | _ => none

def literalNumber (literal : LiteralExpr) : Option Int :=
  match literal.kind with
  | .keywordTrue => some 1
  | .keywordFalse => some 0
  | _ => (DiscoNumeric.parse literal.lexeme).map Prod.fst

def evalLiteral (plot : Bool) (literal : LiteralExpr) : Eval W Int :=
  match literalNumber literal with
  | some value => constant perform plot literal.note.resultType value
  | none => Computation.stop .stuck

/-- A literal that is lowered together with its sign. -/
def negatedLiteral (operation : UnaryOperator) (right : Expr) : Option LiteralExpr :=
  if operation = .minus then right.asLiteral.filter fun literal => decide (literal.kind = .integer) else none

/-- The operation between two evaluated operands. -/
def combine (plot : Bool) (type leftType : Ty) (operation : BinaryOperator) (pointerStride left right : Int) : Eval W Int :=
  issue perform
    { opcode :=
        if leftType.pointerLevel > 0 ∧ pointerStride = 0 then .pointerCompare
        else if pointerStride > 0 then .pointerOffset else .binary
      type := type
      operation := operation.lexeme
      immediate := pointerStride
      inPlotContext := plot } [left, right]

/-- A value in another type, if the types differ. -/
def castTo (plot : Bool) (source into : Ty) (value : Int) : Eval W Int :=
  if sameValueType source into then pure value else issue perform { opcode := .cast, type := into, inPlotContext := plot } [value]

/-- The new value of an updated object. -/
def updated (plot : Bool) (type targetType operationType : Ty) (operation : BinaryOperator) (pointerStride : Int)
    (old : Int) (value : Eval W Int) : Eval W Int := do
  let operand ← castTo perform plot targetType operationType old
  let rhs ← value
  let result ← issue perform
    { opcode := if pointerStride ≠ 0 then .pointerOffset else .binary
      type := operationType
      operation := operation.lexeme
      immediate := pointerStride
      inPlotContext := plot } [operand, rhs]
  castTo perform plot operationType type result

mutual

/-- `lowerExpression`. -/
def eval (plot : Bool) : Expr → Eval W Int
  | .absent => Computation.stop .stuck
  | .literalExpr literal => evalLiteral perform plot literal
  | .variableExpr named =>
      if named.note.isConstant then constant perform plot named.note.resultType named.note.constantValue
      else match isOwn own (.variableExpr named) with
        | some symbolId => readCell symbolId named.note.resultType
        | none => do
            let place ← addressOf perform plot (Expr.variableExpr named).storageType named.name named.symbolId
            if named.isArrayDecay then pure place else loadFrom perform plot named.note.resultType place
  | .plotCoordinateExpr note isY => readCoordinate perform plot note.resultType isY
  | .readPixelExpr note x y => do
      let coordinate : Ty := { base := .word, sizeInBytes := 2 }
      if x.isAbsent then issue perform { opcode := .rpix, type := note.resultType, inPlotContext := plot } []
      else do
        let px ← eval plot x
        let _ ← writeCoordinate perform plot coordinate false px
        let py ← eval plot y
        let _ ← writeCoordinate perform plot coordinate true py
        issue perform { opcode := .rpix, type := note.resultType, inPlotContext := plot } []
  | .initializerListExpr _ _ | .stringExpr _ _ => Computation.stop .stuck
  | .nullExpr note => issue perform { type := note.resultType, operation := "null", inPlotContext := plot } []
  | .updateExpr note target value operation operationType pointerStride returnsOld =>
      let renew (old : Int) : Eval W Int :=
        updated perform plot note.resultType target.resultType operationType operation pointerStride old (eval plot value)
      match target.asPlotCoordinate, isOwn own target with
      | some (type, isY), _ => do
          let old ← readCoordinate perform plot type isY
          let new ← renew old
          let _ ← writeCoordinate perform plot note.resultType isY new
          pure (if returnsOld then old else new)
      | none, some symbolId => do
          let old ← readCell symbolId target.resultType
          let new ← renew old
          writeCell symbolId note.resultType new
          pure (if returnsOld then old else new)
      | none, none => do
          let place ← address plot target
          let old ← loadFrom perform plot target.resultType place
          let new ← renew old
          let _ ← storeTo perform plot "assign" note.resultType target.resultType.isVolatile place new
          pure (if returnsOld then old else new)
  | .binaryExpr note operation left right pointerStride => do
      let a ← eval plot left
      match operation with
      | .andAnd => if a ≠ 0 then eval plot right else constant perform plot note.resultType 0
      | .orOr => if a ≠ 0 then constant perform plot note.resultType 1 else eval plot right
      | operation => do
          let b ← eval plot right
          combine perform plot note.resultType left.resultType operation pointerStride a b
  | .assignExpr note name value =>
      match name.asPlotCoordinate, isOwn own name with
      | some (_, isY), _ => do
          let v ← eval plot value
          let _ ← writeCoordinate perform plot note.resultType isY v
          pure v
      | none, some symbolId => do
          let v ← eval plot value
          writeCell symbolId note.resultType v
          pure v
      | none, none => do
          let place ← address plot name
          let v ← eval plot value
          let _ ← storeTo perform plot "assign" note.resultType name.resultType.isVolatile place v
          pure v
  | .unaryExpr note operation right =>
      match negatedLiteral operation right with
      | some literal =>
          match literalNumber literal with
          | some value => constant perform plot note.resultType (-value)
          | none => Computation.stop .stuck
      | none => do
          let v ← eval plot right
          issue perform { opcode := .unary, type := note.resultType, operation := operation.lexeme, inPlotContext := plot } [v]
  | .addressOfExpr _ right => address plot right
  | .dereferenceExpr note right => do
      let place ← eval plot right
      loadFrom perform plot note.resultType place
  | .subscriptExpr note array index elementSize => do
      let base ← (if array.resultType.arraySize > 0 then address plot array else eval plot array)
      let i ← eval plot index
      let place ← elementAddress perform plot (Expr.subscriptExpr note array index elementSize).storageType elementSize base i
      loadFrom perform plot note.resultType place
  | .memberAccessExpr note object memberOffset => do
      let base ← address plot object
      let place ← memberAddress perform plot (Expr.memberAccessExpr note object memberOffset).storageType memberOffset base
      loadFrom perform plot note.resultType place
  | .callExpr note callee resolvedSymbol arguments => do
      let values ← evalAll plot arguments
      let target := if resolvedSymbol = "" then callee else resolvedSymbol
      issue perform { opcode := .call, type := note.resultType, symbol := target, inPlotContext := plot } values
  | .castExpr note expression => do
      let v ← eval plot expression
      issue perform { opcode := .cast, type := note.resultType, inPlotContext := plot } [v]
  | .layoutQueryExpr note => constant perform plot note.resultType note.constantValue

/-- `lowerAddress`. -/
def address (plot : Bool) : Expr → Eval W Int
  | .variableExpr named => addressOf perform plot (Expr.variableExpr named).storageType named.name named.symbolId
  | .dereferenceExpr _ right => eval plot right
  | .subscriptExpr note array index elementSize => do
      let base ← (if array.resultType.arraySize > 0 then address plot array else eval plot array)
      let i ← eval plot index
      elementAddress perform plot (Expr.subscriptExpr note array index elementSize).storageType elementSize base i
  | .memberAccessExpr note object memberOffset => do
      let base ← address plot object
      memberAddress perform plot (Expr.memberAccessExpr note object memberOffset).storageType memberOffset base
  | _ => Computation.stop .stuck

def evalAll (plot : Bool) : List Expr → Eval W (List Int)
  | [] => pure []
  | e :: rest => do
      let v ← eval plot e
      let others ← evalAll plot rest
      pure (v :: others)

end

/-- `lowerCondition`: the branches of a condition, without a value in between. -/
def condition (plot : Bool) : Expr → Eval W Bool
  | .binaryExpr note operation left right pointerStride =>
      match operation with
      | .andAnd => do
          let holds ← condition plot left
          match holds with
          | true => condition plot right
          | false => pure false
      | .orOr => do
          let holds ← condition plot left
          match holds with
          | true => pure true
          | false => condition plot right
      | operation => do
          let v ← eval perform own plot (.binaryExpr note operation left right pointerStride)
          pure (decide (v ≠ 0))
  | .unaryExpr note operation right =>
      match operation with
      | .bang => do
          let holds ← condition plot right
          pure (!holds)
      | operation => do
          let v ← eval perform own plot (.unaryExpr note operation right)
          pure (decide (v ≠ 0))
  | .castExpr note expression =>
      if note.resultType.base = .bool ∧ note.resultType.pointerLevel = 0 ∧ isIntegerType expression.resultType = true then
        condition plot expression
      else do
        let v ← eval perform own plot (.castExpr note expression)
        pure (decide (v ≠ 0))
  | e => do
      let v ← eval perform own plot e
      pure (decide (v ≠ 0))

/-! ## Statements -/

def lift {α : Type} (x : Eval W α) : Exec W α := x.mapStop .halted

/-- Asked for its effect only. -/
def emit (i : Instruction) (arguments : List Int) : Exec W Unit := do
  let _ ← lift (issue perform i arguments)
  pure ()

def evalEffect (plot : Bool) (e : Expr) : Exec W Unit := do
  let _ ← lift (eval perform own plot e)
  pure ()

/-- How often a hardware loop runs: its counter has sixteen bits and is tested at the end. -/
def hardwareCount (count : Int) : Nat :=
  if (count % 0x10000).toNat = 0 then 0x10000 else (count % 0x10000).toNat

def onBreak : Stop → Option Unit
  | .breaking => some ()
  | _ => none

def onContinue : Stop → Option Unit
  | .continuing => some ()
  | _ => none

def cacheHint (isCached plot : Bool) : Exec W Unit :=
  if isCached then emit perform { opcode := .cache, inPlotContext := plot } [] else pure ()

/-- One round of a loop that is tested at its top; `next` comes after the body. -/
def loopRound (isCached plot : Bool) (test : Expr) (body next : Exec W Unit) : Exec W Bool := do
  cacheHint perform isCached plot
  let more ← lift (condition perform own plot test)
  match more with
  | true => do
      body.rescue onContinue
      next
      pure true
  | false => pure false

def storeAggregates (plot : Bool) (place : Int) : List AggregateInitializer → Exec W Unit
  | [] => pure ()
  | element :: rest => do
      let target ← lift (memberAddress perform plot (Lowerer.pointerTo element.type .ram) element.offset place)
      let value ← lift (eval perform own plot element.value)
      let _ ← lift (storeTo perform plot "declare" element.type element.type.isVolatile target value)
      storeAggregates plot place rest

/-- A declaration of a variable with storage of its own, or of any other. -/
def declare (plot : Bool) (declaration : VarDeclStmt) : Exec W Unit :=
  if declaration.isGlobal ∨ declaration.isConstexpr ∨
      (declaration.initializer.isAbsent ∧ declaration.aggregateInitializers.isEmpty) then pure ()
  else if own declaration.symbolId ∧ declaration.aggregateInitializers.isEmpty then do
    let value ← lift (eval perform own plot declaration.initializer)
    writeCell declaration.symbolId declaration.type value
  else do
    let named : VariableExpr := ⟨{ resultType := declaration.type }, declaration.name, declaration.symbolId, false⟩
    let place ← lift (addressOf perform plot (Expr.variableExpr named).storageType declaration.name declaration.symbolId)
    storeAggregates perform own plot place declaration.aggregateInitializers
    if declaration.initializer.isAbsent then pure ()
    else do
      let value ← lift (eval perform own plot declaration.initializer)
      let _ ← lift (storeTo perform plot "declare" declaration.type declaration.type.isVolatile place value)
      pure ()

def isDefault : Stmt → Bool
  | .defaultStmt => true
  | _ => false

def isLabel (value : Int) : Stmt → Bool
  | .caseStmt (.literalExpr literal) => decide ((DiscoNumeric.parse literal.lexeme).map Prod.fst = some value)
  | _ => false

/-- The label that a switch goes to. -/
def selectArm (value : Int) (body : List Stmt) : Option Nat :=
  match body.findIdx? (isLabel value) with
  | some index => some index
  | none => body.findIdx? isDefault

variable (bound : Nat)

mutual

/-- The execution of a statement; no loop goes on for more than `bound` rounds. -/
def exec (plot : Bool) : Stmt → Exec W Unit
  | .blockStmt statements => execFrom plot 0 statements
  | .ifStmt test thenBranch elseBranch => do
      let holds ← lift (condition perform own plot test)
      match holds with
      | true => exec plot thenBranch
      | false => exec plot elseBranch
  | .hardwareLoopStmt count body => do
      let n ← lift (evalLiteral perform plot count)
      Computation.times (exec plot body) (hardwareCount n)
  | .whileStmt isCached test body =>
      (Computation.rounds (loopRound perform own isCached plot test (exec plot body) (pure ())) .unfinished bound).rescue onBreak
  | .forStmt isCached initializer test increment body => do
      exec plot initializer
      let next : Exec W Unit := if increment.isAbsent then pure () else evalEffect perform own plot increment
      (Computation.rounds (loopRound perform own isCached plot test (exec plot body) next) .unfinished bound).rescue onBreak
  | .breakStmt => Computation.stop .breaking
  | .continueStmt => Computation.stop .continuing
  | .returnStmt value =>
      if value.isAbsent then Computation.stop (.returning none)
      else do
        let v ← lift (eval perform own plot value)
        Computation.stop (.returning (some v))
  | .varDeclStmt declaration => declare perform own plot declaration
  | .expressionStmt expression => evalEffect perform own plot expression
  | .plotStmt => emit perform { opcode := .plot, inPlotContext := plot } []
  | .plotBlockStmt body => do
      emit perform { opcode := .plotBegin, inPlotContext := true } []
      exec true body
      emit perform { opcode := .plotEnd } []
  | .setColorStmt colorValue =>
      if colorValue.isRomByte then do
        let place ← lift (address perform own plot colorValue)
        emit perform { opcode := .setColor, operation := "rom.byte", inPlotContext := plot } [place]
      else do
        let v ← lift (eval perform own plot colorValue)
        emit perform { opcode := .setColor, inPlotContext := plot } [v]
  | .cmodeStmt optionsValue => emit perform { opcode := .cMode, immediate := optionsValue.note.constantValue, inPlotContext := plot } []
  | .rpixStmt => emit perform { opcode := .rpix, type := { base := .void }, inPlotContext := plot } []
  | .switchStmt selector body => do
      let value ← lift (eval perform own plot selector)
      match selectArm value body with
      | some index => (execFrom plot (index + 1) body).rescue onBreak
      | none => pure ()
  | .absent | .fallthroughStmt | .functionDeclStmt _ _ | .caseStmt _ | .defaultStmt | .staticAssertStmt _ | .enumDeclStmt
  | .structDefStmt | .typeAliasDeclStmt | .bitmapDeclStmt | .useBitmapStmt | .constDataStmt _ => pure ()

/-- The statements of a list, after so many of them. -/
def execFrom (plot : Bool) : Nat → List Stmt → Exec W Unit
  | _, [] => pure ()
  | 0, s :: rest => do
      exec plot s
      execFrom plot 0 rest
  | skipped + 1, _ :: rest => execFrom plot skipped rest

end

end Evaluation

end Disco.Optimizer
