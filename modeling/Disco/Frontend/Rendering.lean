import Disco.Frontend.Consumed

/-! # Expressions as tokens

Trees of the operators of the language, written with the parentheses that the table of
operators requires and no others. The groups of the table are numbered from the one
that binds tightest: postfix operators are 0, prefix operators and casts 1, binary
operators 2 to 11 and assignments 12.
-/

namespace Disco.Frontend

open IR Library

namespace Parser

/-- The group of a binary operator. -/
def binaryLevel : TokenType → Nat
  | .star | .slash | .percent => 2
  | .plus | .minus => 3
  | .shiftLeft | .shiftRight => 4
  | .greater | .greaterEqual | .less | .lessEqual => 5
  | .bangEqual | .equalEqual => 6
  | .ampersand => 7
  | .caret => 8
  | .pipe => 9
  | .andAnd => 10
  | .orOr => 11
  | _ => 13

theorem binaryLevel_pos (type : TokenType) : 2 ≤ binaryLevel type := by
  cases type <;> decide

end Parser

open Parser

namespace Tree

/-- The group of the operator on top. -/
def level : Tree → Nat
  | assign _ _ => 12
  | update operation _ _ isPostfix => if isPostfix = true then 0 else if operation ∈ updates then 1 else 12
  | binary operation _ _ => binaryLevel operation
  | unary _ _ | addressOf _ | dereference _ | cast _ _ => 1
  | _ => 0

def isPostfixUpdate : Tree → Bool
  | update _ _ _ isPostfix => isPostfix
  | _ => false

mutual

/-- No postfix operator applies to an update that is a postfix operator itself. -/
def updatesLast : Tree → Bool
  | string _ | literal _ _ | null | identifier _ | plotCoordinate _ => true
  | readPixel coordinates => allUpdatesLast coordinates
  | layoutQuery _ _ none _ => true
  | layoutQuery _ _ (some object) _ => object.updatesLast
  | initializerList elements => allUpdatesLast elements
  | assign target value => target.updatesLast && value.updatesLast
  | update _ target value isPostfix => target.updatesLast && value.updatesLast && !(isPostfix && target.isPostfixUpdate)
  | binary _ left right => left.updatesLast && right.updatesLast
  | unary _ right | addressOf right | dereference right => right.updatesLast
  | subscript array index => array.updatesLast && index.updatesLast && !array.isPostfixUpdate
  | memberAccess object _ _ => object.updatesLast && !object.isPostfixUpdate
  | call callee arguments => callee.updatesLast && allUpdatesLast arguments && !callee.isPostfixUpdate
  | cast _ expression => expression.updatesLast

def allUpdatesLast : List Tree → Bool
  | [] => true
  | tree :: rest => tree.updatesLast && allUpdatesLast rest

end

/-- Parentheses where an operator of a tighter group takes an operand. -/
def parenthesize (own allowed : Nat) (tokens : List Token) : List Token :=
  if own ≤ allowed then tokens else ⟨.lparen, "("⟩ :: (tokens ++ [⟨.rparen, ")"⟩])

section Tokens

variable (spell : Ty → List Token)

mutual

/-- The tokens of a tree, with types spelled by `spell`. Primary expressions that are
no operands of the table's operators are not written. -/
def tokens : Tree → List Token
  | string lexeme => [⟨.literalString, lexeme⟩]
  | literal type lexeme => [⟨type, lexeme⟩]
  | null => [⟨.keywordNull, "null"⟩]
  | identifier name => [⟨.identifier, name⟩]
  | plotCoordinate isY => [⟨.keywordCursor, "cursor"⟩, ⟨.dot, "."⟩, ⟨.identifier, if isY = true then "y" else "x"⟩]
  | readPixel _ | layoutQuery _ _ _ _ | initializerList _ => []
  | assign target value => parenthesize target.level 11 target.tokens ++ ⟨.equal, "="⟩ :: parenthesize value.level 12 value.tokens
  | update operation target value isPostfix =>
      if isPostfix = true then parenthesize target.level 0 target.tokens ++ [⟨operation, ""⟩]
      else if operation ∈ updates then ⟨operation, ""⟩ :: parenthesize target.level 1 target.tokens
      else parenthesize target.level 11 target.tokens ++ ⟨operation, ""⟩ :: parenthesize value.level 12 value.tokens
  | binary operation left right =>
      parenthesize left.level (binaryLevel operation) left.tokens ++
        ⟨operation, ""⟩ :: parenthesize right.level (binaryLevel operation - 1) right.tokens
  | unary operation right => ⟨operation, ""⟩ :: parenthesize right.level 1 right.tokens
  | addressOf right => ⟨.ampersand, "&"⟩ :: parenthesize right.level 1 right.tokens
  | dereference right => ⟨.star, "*"⟩ :: parenthesize right.level 1 right.tokens
  | subscript array index =>
      parenthesize array.level 0 array.tokens ++
        ⟨.lbracket, "["⟩ :: (parenthesize index.level 12 index.tokens ++ [⟨.rbracket, "]"⟩])
  | memberAccess object member throughPointer =>
      parenthesize object.level 0 object.tokens ++
        [⟨if throughPointer = true then .arrow else .dot, ""⟩, ⟨.identifier, member⟩]
  | call callee [] => parenthesize callee.level 0 callee.tokens ++ [⟨.lparen, "("⟩, ⟨.rparen, ")"⟩]
  | call callee (first :: rest) =>
      parenthesize callee.level 0 callee.tokens ++
        ⟨.lparen, "("⟩ :: (parenthesize first.level 12 first.tokens ++ (moreTokens rest ++ [⟨.rparen, ")"⟩]))
  | cast type expression =>
      ⟨.lparen, "("⟩ :: (spell type ++ ⟨.rparen, ")"⟩ :: parenthesize expression.level 1 expression.tokens)

/-- The arguments behind the first one. -/
def moreTokens : List Tree → List Token
  | [] => []
  | tree :: rest => ⟨.comma, ","⟩ :: (parenthesize tree.level 12 tree.tokens ++ moreTokens rest)

end

/-- A tree as an operand that may be of the groups up to `allowed`. -/
def render (allowed : Nat) (tree : Tree) : List Token := parenthesize tree.level allowed (tree.tokens spell)

end Tokens

/-- Parentheses nest twice: an assignment in them, and its operand. -/
def enclose (own allowed nests : Nat) : Nat := if own ≤ allowed then nests else nests + 2

mutual

/-- How deep the tokens of a tree nest. -/
def nests : Tree → Nat
  | string _ | literal _ _ | null | identifier _ | plotCoordinate _ | readPixel _ | layoutQuery _ _ _ _
  | initializerList _ => 0
  | assign target value => max (enclose target.level 11 target.nests) (value.nests + 1)
  | update operation target value isPostfix =>
      if isPostfix = true then enclose target.level 0 target.nests
      else if operation ∈ updates then enclose target.level 1 target.nests + 1
      else max (enclose target.level 11 target.nests) (value.nests + 1)
  | binary operation left right =>
      max (enclose left.level (binaryLevel operation) left.nests) (enclose right.level (binaryLevel operation - 1) right.nests)
  | unary _ right | addressOf right | dereference right => enclose right.level 1 right.nests + 1
  | subscript array index => max (enclose array.level 0 array.nests) (index.nests + 2)
  | memberAccess object _ _ => enclose object.level 0 object.nests
  | call callee arguments => max (enclose callee.level 0 callee.nests) (allNests arguments)
  | cast _ expression => enclose expression.level 1 expression.nests + 1

def allNests : List Tree → Nat
  | [] => 0
  | tree :: rest => max (tree.nests + 2) (allNests rest)

end

end Tree

namespace Parser

/-- Tokens that are read as a type where a parenthesis closes. -/
def Spells (aliases : Aliases) (tokens : List Token) (type : Ty) : Prop :=
  ∀ (closing : Token) (rest : List Token), closing.type = .rparen →
    parseType aliases (tokens ++ closing :: rest) = .ok (type, closing :: rest)

/-- Trees over the operators of the language. A value is never named as a type alias is. -/
inductive Expressible (aliases : Aliases) (spell : Ty → List Token) : Tree → Prop where
  | string (lexeme : String) : Expressible aliases spell (.string lexeme)
  | literal (type : TokenType) (lexeme : String)
      (h : type ∈ [TokenType.literalCharacter, .literalInteger, .keywordTrue, .keywordFalse]) :
      Expressible aliases spell (.literal type lexeme)
  | null : Expressible aliases spell .null
  | identifier (name : String) (h : aliases.lookup name = none) : Expressible aliases spell (.identifier name)
  | plotCoordinate (isY : Bool) : Expressible aliases spell (.plotCoordinate isY)
  | assign {target value : Tree} (ht : Expressible aliases spell target) (hv : Expressible aliases spell value) :
      Expressible aliases spell (.assign target value)
  | compound {operation : TokenType} {target value : Tree} (h : operation ∈ updateOperators)
      (ht : Expressible aliases spell target) (hv : Expressible aliases spell value) :
      Expressible aliases spell (.update operation target value false)
  | update {operation : TokenType} {target : Tree} (isPostfix : Bool) (h : operation ∈ updates)
      (ht : Expressible aliases spell target) : Expressible aliases spell (.update operation target one isPostfix)
  | binary {operation : TokenType} {left right : Tree} (h : binaryLevel operation ≤ 11)
      (hl : Expressible aliases spell left) (hr : Expressible aliases spell right) :
      Expressible aliases spell (.binary operation left right)
  | unary {operation : TokenType} {right : Tree} (h : operation ∈ [TokenType.minus, .bang, .tilde])
      (hr : Expressible aliases spell right) : Expressible aliases spell (.unary operation right)
  | addressOf {right : Tree} (hr : Expressible aliases spell right) : Expressible aliases spell (.addressOf right)
  | dereference {right : Tree} (hr : Expressible aliases spell right) : Expressible aliases spell (.dereference right)
  | subscript {array index : Tree} (ha : Expressible aliases spell array) (hi : Expressible aliases spell index) :
      Expressible aliases spell (.subscript array index)
  | memberAccess {object : Tree} (member : String) (throughPointer : Bool) (ho : Expressible aliases spell object) :
      Expressible aliases spell (.memberAccess object member throughPointer)
  | call {callee : Tree} {arguments : List Tree} (hc : Expressible aliases spell callee)
      (ha : ∀ argument ∈ arguments, Expressible aliases spell argument) : Expressible aliases spell (.call callee arguments)
  | cast {type : Ty} {expression : Tree} (h : Spells aliases (spell type) type) (he : Expressible aliases spell expression) :
      Expressible aliases spell (.cast type expression)

end Parser

end Disco.Frontend
