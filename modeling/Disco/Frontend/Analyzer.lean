import Disco.Frontend.Expression
import Disco.IR.Verifier

/-! # Typing scalar expressions

What `Analyzer` does to an expression over `bool`, `byte` and `word`: it gives
every node a type, adopts literals to the type next to them, makes implicit
conversions explicit and notes the constants it finds.
-/

namespace Disco.Frontend

open IR Library

/-- A declared name. Named constants have their value, variables have none. -/
structure ValueSymbol where
  type : PlainType
  constant : Option Int
  symbolId : Nat := 0
  storage : AddressSpace := .ram

structure StructSymbol where
  totalSize : Int
  alignment : Int
  members : List (String × Nat)

/-- What a name in an expression can mean, innermost declaration first. -/
structure Env where
  target : TargetKind := .gsu
  values : List (String × ValueSymbol) := []
  structs : List (String × StructSymbol) := []
  enums : List (String × PlainType) := []

namespace Analyzer

/-! ## Types -/

def targetName : TargetKind → String
  | .gsu => "GSU"
  | .spc700 => "SPC700"

/-- `to_string` of a plain type. -/
def typeText (type : Ty) : String :=
  (if type.isConst then "const " else "") ++ (if type.isVolatile then "volatile " else "") ++
    (if type.space = .rom then "rom " else "") ++ (if type.isUnsigned then "unsigned " else "") ++
    match type.base with
    | .byte => "byte"
    | .bool => "bool"
    | .word => "word"
    | .struct => "struct " ++ type.structName
    | .void => "void"
    | .none => ""

/-- An enumeration is its underlying type. -/
def resolveEnum (env : Env) (type : Ty) : Except String Ty :=
  if type.enumName = "" then .ok type
  else
    match env.enums.lookup type.enumName with
    | none => .error "Unknown enum type."
    | some underlying => .ok { type with
        base := underlying.type.base
        isUnsigned := underlying.type.isUnsigned
        enumName := "" }

def normalizeType (env : Env) (type : Ty) : Except String Ty := do
  let type ← resolveEnum env type
  rejectIf (type.isUnsigned = true ∧ type.base ≠ .byte ∧ type.base ≠ .word)
    "Unsigned is only valid with byte or word types."
  rejectIf (type.pointerLevel < 0) "Invalid negative pointer depth."
  if type.pointerLevel > 0 then do
    let type := normalizePointerLayers type
    rejectIf (true ∈ type.pointerReach ∧ supportsCapability env.target .farData = false)
      ("Target '" ++ targetName env.target ++ "' lacks capability 'far-data'.")
    match type.base, env.structs.lookup type.structName with
    | .struct, some symbol => pure { type with
        alignment := symbol.alignment, aggregateSize := symbol.totalSize }
    | _, _ => pure type
  else
    match type.base with
    | .byte | .bool => pure { type with sizeInBytes := 1 }
    | .word => pure { type with sizeInBytes := 2 }
    | .void => pure { type with sizeInBytes := 0 }
    | .struct =>
        match env.structs.lookup type.structName with
        | none => throw ("Unknown struct type 'struct " ++ type.structName ++ "'.")
        | some symbol => pure { type with
            sizeInBytes := symbol.totalSize
            aggregateSize := symbol.totalSize
            alignment := symbol.alignment }
    | .none => throw "Invalid incomplete type."

def sameType (left right : Ty) : Bool :=
  decide (left.base = right.base) && decide (left.structName = right.structName) &&
    decide (left.isUnsigned = right.isUnsigned) && decide (left.pointerLevel = right.pointerLevel) &&
    samePointerLayers left right && decide (left.arraySize = right.arraySize) &&
    (decide (left.pointerLevel = 0) || decide (left.space = right.space))

/-- Conversions between plain values that need no cast in the text. -/
def canImplicitlyConvert (source target : Ty) : Bool :=
  sameType source target ||
    (decide (source.pointerLevel = 0) && decide (target.pointerLevel = 0) &&
      decide (source.structName = target.structName) && decide (source.isFar = target.isFar) &&
      decide (source.arraySize = target.arraySize) &&
      ((decide (target.base = .bool) && decide (source.base = .byte ∨ source.base = .word)) ||
        (decide (source.base = .bool) && decide (target.base = .byte ∨ target.base = .word)) ||
        (decide (source.isUnsigned = target.isUnsigned) && decide (source.base = .byte) &&
          decide (target.base = .word))))

def coerceExpr (e : Expr) (target : PlainType) : Except String Expr :=
  if sameType e.resultType target.type = true then .ok e
  else if canImplicitlyConvert e.resultType target.type = false then
    .error ("Cannot implicitly convert '" ++ typeText e.resultType ++ "' to '" ++ typeText target.type ++ "'.")
  else .ok (.cast { resultType := target.type } target e)

def boolean : PlainType where
  type := { base := .bool
            sizeInBytes := 1 }
  level := rfl
  extent := rfl

/-- The type that operands are promoted to. -/
def promoted (isUnsigned : Bool) : PlainType where
  type := { base := .word
            sizeInBytes := 2
            isUnsigned := isUnsigned
            space := .ram }
  level := rfl
  extent := rfl

def byteType (isUnsigned : Bool) : Ty where
  base := .byte
  sizeInBytes := 1
  isUnsigned := isUnsigned

def wordType (isUnsigned : Bool) : Ty where
  base := .word
  sizeInBytes := 2
  isUnsigned := isUnsigned

def valueType (type : Ty) : Ty := { type with
  isConst := false
  isVolatile := false }

/-! ## Leaves -/

def literalType (value : Int) (context : Option PlainType) : Except String Ty :=
  match context with
  | some wanted => do
      rejectIf (wanted.type.base = .byte ∧ wanted.type.isUnsigned = true ∧ (value < 0 ∨ value > 255))
        ("Value '" ++ toString value ++ "' out of range for unsigned byte.")
      rejectIf (wanted.type.base = .byte ∧ wanted.type.isUnsigned = false ∧ (value < -128 ∨ value > 127))
        ("Value '" ++ toString value ++ "' out of range for signed byte.")
      rejectIf (wanted.type.base = .word ∧ wanted.type.isUnsigned = true ∧ (value < 0 ∨ value > 65535))
        ("Value '" ++ toString value ++ "' out of range for unsigned word.")
      rejectIf (wanted.type.base = .word ∧ wanted.type.isUnsigned = false ∧ (value < -32768 ∨ value > 32767))
        ("Value '" ++ toString value ++ "' out of range for signed word.")
      -- a literal where a `bool` is wanted is a signed word of any size
      pure (if wanted.type.base = .bool then wordType false else valueType wanted.type)
  | none =>
      if value ≥ -128 ∧ value ≤ 127 then .ok (byteType false)
      else if value ≥ 0 ∧ value ≤ 255 then .ok (byteType true)
      else if value ≥ -32768 ∧ value ≤ 32767 then .ok (wordType false)
      else if value ≥ 0 ∧ value ≤ 65535 then .ok (wordType true)
      else .error ("Literal '" ++ toString value ++ "' is too large for a 16-bit word.")

def parseIntegerLiteral (lexeme : Text) : Except String Int :=
  match DiscoNumeric.parse lexeme with
  | none => .error "Invalid integer literal for integer literal."
  | some (value, consumed) =>
      if consumed = lexeme.length then .ok value else .error "Invalid integer literal for integer literal."

def visitLiteral (kind : LiteralKind) (lexeme : Text) (context : Option PlainType) : Except String Ty :=
  match kind with
  | .keywordTrue | .keywordFalse => .ok boolean.type
  | _ => do
      let value ← parseIntegerLiteral lexeme
      literalType value context

/-- The greatest enumerator of a `byte` or a `word`. -/
def maximum (type : Ty) : Int :=
  if type.base = .byte then (if type.isUnsigned = true then 255 else 127)
  else if type.isUnsigned = true then 65535 else 32767

def minimum (type : Ty) : Int :=
  if type.isUnsigned = true then 0 else if type.base = .byte then -128 else -32768

def typeAlignment (env : Env) (type : Ty) : Except String Int :=
  if type.pointerLevel > 0 then .ok 2
  else if type.base = .struct then
    match env.structs.lookup type.structName with
    | some symbol => .ok symbol.alignment
    | none => .error "map::at"
  else .ok (if type.sizeInBytes = 1 then 1 else 2)

def layoutBytes (env : Env) (query : LayoutOperator) (type : Ty) (member : String) : Except String Int :=
  match query with
  | .offsetof =>
      if type.pointerLevel ≠ 0 ∨ type.base ≠ .struct then .error "offsetof requires a struct type."
      else
        match (env.structs.lookup type.structName).bind fun symbol => symbol.members.lookup member with
        | some offset => .ok offset
        | none => .error "Unknown offsetof member."
  | .alignof => typeAlignment env type
  | .sizeof => .ok (type.sizeInBytes * if type.arraySize > 0 then type.arraySize else 1)

def layoutValue (env : Env) (query : LayoutOperator) (type : Ty) (member : String) : Except String Int := do
  let type ← normalizeType env type
  let value ← layoutBytes env query type member
  rejectIf (value ≤ 0 ∧ query ≠ .offsetof) "Layout query requires a complete non-void type."
  rejectIf (value > 65535) "Layout query exceeds an unsigned word."
  pure value

/-! ## Operators -/

def constantIndex : Expr → Except String (Option Int)
  | e@(.unary _ operation right) => do
      match ← ConstantEvaluator.evaluate e with
      | some value => pure (some value)
      | none =>
          if operation = .minus then do
            match ← constantIndex right with
            | some value => pure (some (-value))
            | none => pure none
          else pure none
  | e@(.literal _ _ lexeme) => do
      match ← ConstantEvaluator.evaluate e with
      | some value => pure (some value)
      | none => pure ((DiscoNumeric.parse lexeme).map Prod.fst)
  | e => ConstantEvaluator.evaluate e

def isLiteral : Expr → Bool
  | .literal _ _ _ => true
  | _ => false

def isInteger (type : Ty) : Bool := decide (type.base = .byte ∨ type.base = .word ∨ type.base = .bool)

/-- Note the constant that a typed node is. -/
def finish (e : Expr) : Except String Expr :=
  if e.resultType.isVolatile = true then .ok e
  else do
    match ← ConstantEvaluator.evaluate e with
    | none => pure e
    | some value => pure (e.withNote { e.note with
        isConstant := true
        constantValue := value })

/-- Analyze a literal, also for a second time. -/
def analyzeLiteral (kind : LiteralKind) (lexeme : Text) (context : Option PlainType) : Except String Expr := do
  let type ← visitLiteral kind lexeme context
  finish (.literal { resultType := type } kind lexeme)

/-- Give a literal the promoted type of the other operand. -/
def adopt (e : Expr) (isUnsigned : Bool) : Except String Expr :=
  match e with
  | .literal _ kind lexeme => analyzeLiteral kind lexeme (some (promoted isUnsigned))
  | e => .ok e

def isComparison (operation : BinaryOperator) : Bool :=
  decide (operation = .equalEqual ∨ operation = .bangEqual ∨ operation = .less ∨ operation = .lessEqual ∨
    operation = .greater ∨ operation = .greaterEqual)

def visitShift (operation : BinaryOperator) (left right : Expr) : Except String Expr := do
  let count ← constantIndex right
  rejectIf (count.any (fun count => decide (count < 0 ∨ count > 15)) = true)
    "Shift count must be in 0..15 after integer promotion."
  let type := promoted left.resultType.isUnsigned
  let left ← coerceExpr left type
  let right ← coerceExpr right (promoted right.resultType.isUnsigned)
  pure (.binary { resultType := type.type } operation left right)

/-- The operands once a lone literal has adopted the type of the other one. -/
def adoptLiterals (left right : Expr) : Except String (Expr × Expr) :=
  if isLiteral right = true ∧ isLiteral left = false then do
    let right ← adopt right left.resultType.isUnsigned
    pure (left, right)
  else if isLiteral left = true ∧ isLiteral right = false then do
    let left ← adopt left right.resultType.isUnsigned
    pure (left, right)
  else .ok (left, right)

/-- The operand whose sign the promoted type takes. -/
def leading (left right : Expr) : Expr := if isLiteral left = true ∧ isLiteral right = false then right else left

def visitArithmetic (operation : BinaryOperator) (left right : Expr) : Except String Expr := do
  let type := promoted (leading left right).resultType.isUnsigned
  let adopted ← adoptLiterals left right
  rejectIf (adopted.1.resultType.isUnsigned ≠ adopted.2.resultType.isUnsigned ∧
      adopted.1.resultType.base ≠ .bool ∧ adopted.2.resultType.base ≠ .bool)
    "Mixed signed/unsigned operands require an explicit cast."
  let left ← coerceExpr adopted.1 type
  let right ← coerceExpr adopted.2 type
  pure (.binary { resultType := if isComparison operation = true then boolean.type else type.type }
    operation left right)

def constantDivisor (operation : BinaryOperator) (right : Expr) : Except String (Option Int) :=
  if operation = .slash ∨ operation = .percent then constantIndex right else .ok none

/-- `visit(BinaryExpr)` behind the analysis of its operands. -/
def visitBinary (operation : BinaryOperator) (left right : Expr) : Except String Expr :=
  if operation = .andAnd ∨ operation = .orOr then do
    let left ← coerceExpr left boolean
    let right ← coerceExpr right boolean
    pure (.binary { resultType := boolean.type } operation left right)
  else do
    let divisor ← constantDivisor operation right
    rejectIf (divisor = some 0) "Division by zero."
    rejectIf (isInteger left.resultType = false ∨ isInteger right.resultType = false ∨
        left.resultType.pointerLevel ≠ 0 ∨ right.resultType.pointerLevel ≠ 0)
      "Binary operators require integer operands."
    if operation = .shiftLeft ∨ operation = .shiftRight then visitShift operation left right
    else visitArithmetic operation left right

/-- The literal of a negative number, if a positive one is behind a minus sign. -/
def negativeLiteral (operation : UnaryOperator) (right : Expr) : Option Text :=
  match operation, right with
  | .minus, .literal _ .integer lexeme => some (45 :: lexeme)
  | _, _ => none

/-- `analyzeExpr` with the visits of all nodes. -/
def analyzeExpr (env : Env) : Expr → Option PlainType → Except String Expr
  | .literal _ kind lexeme, context => analyzeLiteral kind lexeme context
  | .named _ name _ _, _ =>
      match env.values.lookup name with
      | none => .error ("Use of undeclared symbol '" ++ name ++ "'.")
      | some symbol =>
          finish (.named
            { isConstant := symbol.constant.isSome
              constantValue := symbol.constant.getD 0
              resultType := symbol.type.type } name symbol.symbolId symbol.storage)
  | .layoutType _ query type member, _ => do
      let value ← layoutValue env query type member
      finish (.layoutType
        { isConstant := true
          constantValue := value
          resultType := wordType true } query type member)
  | .layoutObject _ query object, _ => do
      let object ← analyzeExpr env object none
      let value ← layoutValue env query object.resultType ""
      finish (.layoutObject
        { isConstant := true
          constantValue := value
          resultType := wordType true } query object)
  | .unary _ operation right, context =>
      if operation = .bang then do
        let right ← analyzeExpr env right none
        let right ← coerceExpr right boolean
        finish (.unary { resultType := boolean.type } operation right)
      else
        match negativeLiteral operation right with
        | some negative => do
            let type ← visitLiteral .integer negative context
            let right ← analyzeExpr env right none
            finish (.unary { resultType := type } operation right)
        | none => do
            let right ← analyzeExpr env right context
            rejectIf (right.resultType.pointerLevel > 0 ∨
                (right.resultType.base ≠ .byte ∧ right.resultType.base ≠ .word))
              "Unary arithmetic requires an integer operand, not a pointer."
            finish (.unary { resultType := right.resultType } operation right)
  | .binary _ operation left right, _ => do
      let left ← analyzeExpr env left none
      let right ← analyzeExpr env right none
      let typed ← visitBinary operation left right
      finish typed
  | .cast _ target expression, _ => do
      let type ← normalizeType env target.type
      let expression ← analyzeExpr env expression none
      rejectIf (expression.resultType.base = .struct ∨ type.base = .struct)
        "Struct casts by value are not supported; cast a pointer instead."
      rejectIf (expression.resultType.base = .void ∨ type.base = .void) "Cannot cast to or from a void type."
      finish (.cast { resultType := type } target expression)

/-- An expression where a value of a known type is wanted. -/
def analyzeAs (env : Env) (e : Expr) (type : PlainType) : Except String Expr := do
  let typed ← analyzeExpr env e (some type)
  coerceExpr typed type

end Analyzer

end Disco.Frontend
