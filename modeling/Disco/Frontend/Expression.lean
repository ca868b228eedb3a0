import Disco.Assembler.Text
import Disco.IR.ScalarFold

/-! # Scalar expressions and their constants

The syntax tree of expressions over `bool`, `byte` and `word`, with what the
analyzer notes at its nodes, and `ConstantEvaluator`. Pointers, arrays, calls and
assignments are left out, source positions too: they occur in diagnostics only.
-/

namespace Disco.Frontend

open IR Library

abbrev Text := Assembler.Text

/-! ## Literals -/

namespace DiscoNumeric

/-- Decimal, octal and hexadecimal numbers as `std::stoll` reads them, and binary
ones, which it does not know. -/
def parse (text : Text) : Option (Int × Nat) :=
  let sign := if text.head? = some 45 ∨ text.head? = some 43 then 1 else 0
  match text.drop sign with
  | 48 :: marker :: digits =>
      if marker = 98 ∨ marker = 66 then
        (Assembler.stoll (text.take sign ++ digits) 2).map fun result => (result.1, result.2 + 2)
      else Assembler.stoll text 0
  | _ => Assembler.stoll text 0

end DiscoNumeric

/-- The tokens that make a literal. -/
inductive LiteralKind where
  | keywordTrue
  | keywordFalse
  | integer
  | character
  deriving DecidableEq, Repr

/-- What a literal stands for, if its text is a number from end to end. -/
def literalValue (kind : LiteralKind) (lexeme : Text) : Option Int :=
  match kind with
  | .keywordTrue => some 1
  | .keywordFalse => some 0
  | _ =>
      match DiscoNumeric.parse lexeme with
      | none => none
      | some (value, consumed) => if consumed = lexeme.length then some value else none

/-! ## Trees -/

inductive UnaryOperator where
  | minus
  | bang
  | tilde
  deriving DecidableEq, Repr

namespace UnaryOperator

def lexeme : UnaryOperator → String
  | .minus => "-"
  | .bang => "!"
  | .tilde => "~"

end UnaryOperator

inductive BinaryOperator where
  | plus
  | minus
  | star
  | slash
  | percent
  | ampersand
  | pipe
  | caret
  | shiftLeft
  | shiftRight
  | equalEqual
  | bangEqual
  | less
  | lessEqual
  | greater
  | greaterEqual
  | andAnd
  | orOr
  deriving DecidableEq, Repr

namespace BinaryOperator

def lexeme : BinaryOperator → String
  | .plus => "+"
  | .minus => "-"
  | .star => "*"
  | .slash => "/"
  | .percent => "%"
  | .ampersand => "&"
  | .pipe => "|"
  | .caret => "^"
  | .shiftLeft => "<<"
  | .shiftRight => ">>"
  | .equalEqual => "=="
  | .bangEqual => "!="
  | .less => "<"
  | .lessEqual => "<="
  | .greater => ">"
  | .greaterEqual => ">="
  | .andAnd => "&&"
  | .orOr => "||"

end BinaryOperator

inductive LayoutOperator where
  | sizeof
  | alignof
  | offsetof
  deriving DecidableEq, Repr

/-- A type of plain values: neither a pointer nor an array. -/
structure PlainType where
  type : Ty
  level : type.pointerLevel = 0
  extent : type.arraySize = 0

/-- What the analyzer writes down at a node. -/
structure Note where
  isConstant : Bool := false
  constantValue : Int := 0
  resultType : Ty := {}

inductive Expr where
  | literal (note : Note) (kind : LiteralKind) (lexeme : Text)
  | named (note : Note) (name : String) (symbolId : Nat) (storage : AddressSpace)
  | layoutType (note : Note) (query : LayoutOperator) (type : Ty) (member : String)
  | layoutObject (note : Note) (query : LayoutOperator) (object : Expr)
  | unary (note : Note) (operation : UnaryOperator) (right : Expr)
  | binary (note : Note) (operation : BinaryOperator) (left right : Expr)
  | cast (note : Note) (target : PlainType) (expression : Expr)

namespace Expr

def note : Expr → Note
  | .literal note _ _ | .named note _ _ _ | .layoutType note _ _ _ | .layoutObject note _ _
  | .unary note _ _ | .binary note _ _ _ | .cast note _ _ => note

def withNote : Expr → Note → Expr
  | .literal _ kind lexeme, note => .literal note kind lexeme
  | .named _ name symbolId storage, note => .named note name symbolId storage
  | .layoutType _ query type member, note => .layoutType note query type member
  | .layoutObject _ query object, note => .layoutObject note query object
  | .unary _ operation right, note => .unary note operation right
  | .binary _ operation left right, note => .binary note operation left right
  | .cast _ target expression, note => .cast note target expression

def resultType (e : Expr) : Ty := e.note.resultType

@[simp] theorem note_withNote (e : Expr) (note : Note) : (e.withNote note).note = note := by
  cases e <;> rfl

end Expr

/-! ## Evaluation -/

namespace ConstantEvaluator

open ScalarFold

/-- A binary operation on two values, before its result is converted. -/
def operate (operation : BinaryOperator) (left right : Int) : Except String Int :=
  match operation with
  | .plus => .ok (left + right)
  | .minus => .ok (left - right)
  | .star => .ok (left * right)
  | .slash | .percent =>
      if right = 0 then .error "Division by zero in constant expression."
      else .ok (if operation = .slash then left.tdiv right else left.tmod right)
  | .ampersand => .ok (Int.ofNat ((unsigned left &&& unsigned right) &&& 0xffff))
  | .pipe => .ok (Int.ofNat ((unsigned left ||| unsigned right) &&& 0xffff))
  | .caret => .ok (Int.ofNat ((unsigned left ^^^ unsigned right) &&& 0xffff))
  | .shiftLeft | .shiftRight =>
      if right < 0 ∨ right > 15 then .error "Constant shift count must be in 0..15."
      else if operation = .shiftLeft then
        .ok (Int.ofNat ((unsigned left &&& 0xffff) <<< right.toNat))
      else if left ≥ 0 then .ok (left.tdiv (2 ^ right.toNat))
      else .ok (-((-left + 2 ^ right.toNat - 1).tdiv (2 ^ right.toNat)))
  | .equalEqual => .ok (truth (left = right))
  | .bangEqual => .ok (truth (left ≠ right))
  | .less => .ok (truth (left < right))
  | .lessEqual => .ok (truth (left ≤ right))
  | .greater => .ok (truth (left > right))
  | .greaterEqual => .ok (truth (left ≥ right))
  | .andAnd => .ok (truth (left ≠ 0 ∧ right ≠ 0))
  | .orOr => .ok (truth (left ≠ 0 ∨ right ≠ 0))

/-- The value of a unary operation before it is converted. -/
def negate (operation : UnaryOperator) (value : Int) : Int :=
  match operation with
  | .minus => -value
  | .bang => truth (value = 0)
  | .tilde => Int.ofNat ((2 ^ 64 - 1 - unsigned value) &&& 0xffff)

/-- A noted constant needs no evaluation. -/
def noted (note : Note) (fresh : Except String (Option Int)) : Except String (Option Int) :=
  if note.isConstant then .ok (some note.constantValue) else fresh

/-- The value of an expression; nothing when it has none before the program runs. -/
def evaluate : Expr → Except String (Option Int)
  | .literal note kind lexeme => noted note (.ok (literalValue kind lexeme))
  | .named note _ _ _ => noted note (.ok none)
  | .layoutType note _ _ _ => noted note (.ok none)
  | .layoutObject note _ _ => noted note (.ok none)
  | .cast note _ expression => noted note do
      match ← evaluate expression with
      | none => pure none
      | some value => pure (some (convert value note.resultType))
  | .unary note operation right => noted note do
      match ← evaluate right with
      | none => pure none
      | some value => pure (some (convert (negate operation value) note.resultType))
  | .binary note operation left right => noted note <|
      if note.resultType.pointerLevel > 0 then .ok none
      else do
        match ← evaluate left with
        | none => pure none
        | some a =>
            if operation = .andAnd ∧ a = 0 then pure (some 0)
            else if operation = .orOr ∧ a ≠ 0 then pure (some 1)
            else do
              match ← evaluate right with
              | none => pure none
              | some b => do
                  let value ← operate operation a b
                  pure (some (convert value note.resultType))

end ConstantEvaluator

end Disco.Frontend
