import Disco.IR.Types
import Disco.Library.Loop

/-! # The expression parser

`Parser` from tokens to expression trees, one function for each level of the
grammar. Recursion is bounded by a nesting limit that the parser checks itself;
loops are bounded by the tokens that are left. Positions of tokens are left out.
-/

namespace Disco.Frontend

open IR Library

/-! ## Tokens -/

inductive TokenType where
  | keywordSwitch | keywordCase | keywordDefault | keywordBreak | keywordFar | keywordSet
  | keywordStruct | keywordConst | keywordVolatile | keywordRam | keywordBool | keywordTrue
  | keywordFalse | keywordInternal | keywordExport | keywordExtern | keywordRom | keywordDraw
  | keywordAt | keywordWith | keywordColor | keywordSetPlotOptions | keywordFlushPixels
  | keywordSetColor | keywordPlotBegin | keywordPlotEnd | keywordPlot | keywordCursor
  | keywordPixel | keywordOptions | keywordReadPixel | keywordFlush | keywordBitmap | keywordUse
  | keywordUnsigned | keywordFor | keywordWhile | keywordIf | keywordElse | keywordWord
  | keywordByte | keywordVoid | keywordReturn | keywordCache | atSign | keywordConstexpr
  | keywordEnum | keywordSizeof | keywordAlignof | keywordOffsetof | keywordStaticAssert
  | keywordNull | keywordContinue | keywordFallthrough | keywordModule | keywordImport | keywordType
  | arrow | plusPlus | minusMinus
  | plusEqual | minusEqual | starEqual | slashEqual | percentEqual
  | andEqual | orEqual | xorEqual | shiftLeftEqual | shiftRightEqual
  | lparen | rparen | lbrace | rbrace | semicolon | colon | equal | lbracket | rbracket
  | ampersand | comma | dot
  | plus | minus | star | slash | percent | pipe | caret | tilde | shiftLeft | shiftRight
  | andAnd | orOr | bang
  | greater | greaterEqual | less | lessEqual | equalEqual | bangEqual
  | literalInteger | literalString | literalCharacter | identifier
  | endOfFile | unknown
  deriving DecidableEq, Repr

structure Token where
  type : TokenType
  lexeme : String := ""
  deriving DecidableEq, Repr

/-! ## Trees -/

/-- `Expr` as the parser builds it; operators are named by their tokens. -/
inductive Tree where
  | string (lexeme : String)
  | literal (type : TokenType) (lexeme : String)
  | null
  | identifier (name : String)
  | plotCoordinate (isY : Bool)
  | readPixel (coordinates : List Tree)
  | layoutQuery (operation : TokenType) (type : Ty) (object : Option Tree) (member : String)
  | initializerList (elements : List Tree)
  | assign (target value : Tree)
  | update (operation : TokenType) (target value : Tree) (isPostfix : Bool)
  | binary (operation : TokenType) (left right : Tree)
  | unary (operation : TokenType) (right : Tree)
  | addressOf (right : Tree)
  | dereference (right : Tree)
  | subscript (array index : Tree)
  | memberAccess (object : Tree) (member : String) (throughPointer : Bool)
  | call (callee : Tree) (arguments : List Tree)
  | cast (type : Ty) (expression : Tree)

namespace Tree

mutual

/-- The height of a tree, as nodes count it. -/
def depth : Tree → Nat
  | string _ | literal _ _ | null | identifier _ | plotCoordinate _ => 1
  | readPixel coordinates => depths coordinates + 1
  | layoutQuery _ _ none _ => 1
  | layoutQuery _ _ (some object) _ => object.depth + 1
  | initializerList elements => depths elements + 1
  | assign target value => max target.depth value.depth + 1
  | update _ target value _ => max target.depth value.depth + 1
  | binary _ left right => max left.depth right.depth + 1
  | unary _ right | addressOf right | dereference right => right.depth + 1
  | subscript array index => max array.depth index.depth + 1
  | memberAccess object _ _ => object.depth + 1
  | call callee arguments => max callee.depth (depths arguments) + 1
  | cast _ expression => expression.depth + 1

def depths : List Tree → Nat
  | [] => 0
  | tree :: rest => max tree.depth (depths rest)

end

def maxDepth : Nat := 256

end Tree

/-! ## Parsing -/

inductive Failure where
  | diagnostic (message : String)
  /-- A loop that was cut off. -/
  | unfinished
  deriving DecidableEq, Repr

abbrev Parser (α : Type) := List Token → Except Failure (α × List Token)

namespace Parser

def peek : List Token → TokenType
  | [] => .endOfFile
  | token :: _ => token.type

/-- The next token, if it is one of these. -/
def accept (types : List TokenType) : List Token → Option (Token × List Token)
  | [] => none
  | token :: rest => if token.type ∈ types then some (token, rest) else none

def consume (type : TokenType) (message : String) : Parser Token := fun tokens =>
  match accept [type] tokens with
  | some result => .ok result
  | none => .error (.diagnostic message)

/-- A node that is not too deep. -/
def node (tree : Tree) : Except Failure Tree := do
  rejectIf (tree.depth > Tree.maxDepth) (Failure.diagnostic "Expression depth exceeds the supported limit of 256.")
  pure tree

/-- Repeat a step while tokens are left. -/
def repeated {σ : Type} (step : σ × List Token → Except Failure (Option (σ × List Token))) (s : σ) : Parser σ :=
  fun tokens => loop step .unfinished (tokens.length + 1) (s, tokens)

/-! ### Types -/

abbrev Aliases := List (String × Ty)

def startsDeclaration : List TokenType :=
  [.keywordEnum, .keywordRom, .keywordRam, .keywordConst, .keywordVolatile, .keywordBool, .keywordUnsigned,
    .keywordWord, .keywordByte, .keywordVoid, .keywordStruct, .keywordFar]

def isAtStartOfDeclaration (aliases : Aliases) : List Token → Bool
  | [] => false
  | token :: _ => (decide (token.type = .identifier) && (aliases.lookup token.lexeme).isSome) ||
      decide (token.type ∈ startsDeclaration)

structure TypeState where
  type : Ty := {}
  fromAlias : Bool := false
  requestedFar : Bool := false

/-- A type alias behind the words before it. -/
def resolveAlias (aliases : Aliases) (s : TypeState) (name : String) : Except Failure TypeState :=
  match aliases.lookup name with
  | none => .error (.diagnostic ("Unknown type alias '" ++ name ++ "'."))
  | some resolved => do
      rejectIf (s.type.isUnsigned = true)
        (Failure.diagnostic "Signedness is fixed by a type alias; select u8/u16 or use a cast.")
      rejectIf (s.type.space ≠ .none ∧ resolved.pointerLevel > 0 ∧ s.type.space ≠ resolved.space)
        (Failure.diagnostic "A pointer alias fixes its address space.")
      pure { s with
        fromAlias := true
        type := { resolved with
          space := if s.type.space ≠ .none then s.type.space else resolved.space
          isConst := resolved.isConst || s.type.isConst
          isVolatile := resolved.isVolatile || s.type.isVolatile } }

def withBase (s : TypeState) (base : BaseType) : Option TypeState :=
  if s.type.base ≠ .none then none else some { s with type := { s.type with base := base } }

def withSpace (s : TypeState) (space : AddressSpace) : Option TypeState :=
  if s.type.space ≠ .none then none else some { s with type := { s.type with space := space } }

/-- A keyword that changes a type, unless the type has been changed so before. -/
def typeKeyword (s : TypeState) : TokenType → Option TypeState
  | .keywordConst => if s.type.isConst = true then none else some { s with type := { s.type with isConst := true } }
  | .keywordVolatile => if s.type.isVolatile = true then none else some { s with type := { s.type with isVolatile := true } }
  | .keywordRam => withSpace s .ram
  | .keywordRom => withSpace s .rom
  | .keywordFar => if s.requestedFar = true then none else some { s with requestedFar := true }
  | .keywordWord => withBase s .word
  | .keywordBool => withBase s .bool
  | .keywordByte => withBase s .byte
  | .keywordVoid => withBase s .void
  | _ => none

/-- One word in front of a type; a word that does not fit any more ends the type. -/
def typeWord (aliases : Aliases) : TypeState × List Token → Except Failure (Option (TypeState × List Token))
  | (_, []) => .ok none
  | (s, token :: rest) =>
      match token.type with
      | .keywordEnum =>
          if s.type.base ≠ .none then .ok none
          else do
            let (name, rest) ← consume .identifier "Expect enum type name." rest
            pure (some ({ s with type := { s.type with base := .word, enumName := name.lexeme } }, rest))
      | .keywordStruct =>
          if s.type.base ≠ .none then .ok none
          else do
            let (name, rest) ← consume .identifier "Expect struct name after 'struct' keyword." rest
            pure (some ({ s with type := { s.type with base := .struct, structName := name.lexeme } }, rest))
      | .keywordUnsigned =>
          if s.type.isUnsigned = true then .ok none
          else do
            rejectIf (s.fromAlias = true)
              (Failure.diagnostic "Signedness is fixed by a type alias; select u8/u16 or use a cast.")
            pure (some ({ s with type := { s.type with isUnsigned := true } }, rest))
      | .identifier =>
          if s.type.base ≠ .none then .ok none
          else do
            let s ← resolveAlias aliases s token.lexeme
            pure (some (s, rest))
      | type => .ok ((typeKeyword s type).map fun s => (s, rest))

/-- A qualifier of a pointer, with the reach found so far. -/
def pointerQualifier : (Bool × Ty) × List Token → Except Failure (Option ((Bool × Ty) × List Token))
  | (_, []) => .ok none
  | ((reach, type), token :: rest) =>
      match token.type with
      | .keywordFar => .ok (if reach = true then none else some ((true, type), rest))
      | .keywordConst => .ok (if type.isConst = true then none else some ((reach, { type with isConst := true }), rest))
      | .keywordVolatile => .ok (if type.isVolatile = true then none else some ((reach, { type with isVolatile := true }), rest))
      | _ => .ok none

def pointerLayer : Ty × List Token → Except Failure (Option (Ty × List Token))
  | (type, tokens) =>
      match accept [.star] tokens with
      | none => .ok none
      | some (_, rest) => do
          rejectIf (type.pointerLevel = maxPointerDepth) (Failure.diagnostic "Pointer depth exceeds the supported limit of 32.")
          let pointee := { type with
            pointerLevel := type.pointerLevel + 1
            pointeeQualifiers := type.pointeeQualifiers ++ [⟨type.isConst, type.isVolatile⟩]
            isConst := false
            isVolatile := false }
          let (qualified, rest) ← repeated pointerQualifier (false, pointee) rest
          pure (some ({ qualified.2 with
            pointerReach := qualified.2.pointerReach ++ [qualified.1]
            pointerSpaces := if qualified.2.pointerSpaces.isEmpty then [] else qualified.2.pointerSpaces ++ [.ram] }, rest))

def parseType (aliases : Aliases) : Parser Ty := fun tokens => do
  let (s, rest) ← repeated (typeWord aliases) {} tokens
  rejectIf (s.type.base = .none)
    (Failure.diagnostic "Parse Error: Expected a base type specifier (word, byte, void, or type alias).")
  let type := { s.type with space := if s.type.space = .none then .ram else s.type.space }
  let (type, rest) ← repeated pointerLayer type rest
  rejectIf (s.requestedFar = true ∧ type.pointerLevel = 0)
    (Failure.diagnostic "Parse Error: The 'far' keyword can only be applied to pointer types.")
  let far := if s.requestedFar = true then { type with pointerReach := type.pointerReach.dropLast ++ [true] } else type
  pure (if type.pointerLevel > 0 then normalizePointerLayers far else type, rest)

/-! ### Expressions -/

/-- The parsers that one level of nesting calls. -/
structure Nested where
  assignment : Parser Tree
  unary : Parser Tree

section Levels

variable (aliases : Aliases) (nested : Nested)

def expression : Parser Tree := nested.assignment

/-- The rest of a list of arguments. -/
def moreArguments : List Tree × List Token → Except Failure (Option (List Tree × List Token))
  | (arguments, tokens) =>
      match accept [.comma] tokens with
      | none => .ok none
      | some (_, rest) => do
          let (argument, rest) ← expression nested rest
          pure (some (arguments ++ [argument], rest))

def parseArguments : Parser (List Tree) := fun tokens =>
  if peek tokens = .rparen then .ok ([], tokens)
  else do
    let (first, rest) ← expression nested tokens
    repeated (moreArguments nested) [first] rest

/-- The elements of an initializer list; a comma may follow the last one. -/
def moreElements : (List Tree × Bool) × List Token → Except Failure (Option ((List Tree × Bool) × List Token))
  | ((values, done), tokens) =>
      if done = true ∨ peek tokens = .rbrace ∨ peek tokens = .endOfFile then .ok none
      else do
        rejectIf (values.length ≥ 65536) (Failure.diagnostic "Initializer list exceeds one bank.")
        let (value, rest) ← expression nested tokens
        match accept [.comma] rest with
        | some (_, rest) => pure (some ((values ++ [value], false), rest))
        | none => pure (some ((values ++ [value], true), rest))

def layoutMember (operation : TokenType) : Parser String := fun tokens =>
  if operation = .keywordOffsetof then do
    let (_, rest) ← consume .comma "Expect ',' in offsetof." tokens
    let (member, rest) ← consume .identifier "Expect member name in offsetof." rest
    pure (member.lexeme, rest)
  else .ok ("", tokens)

def layoutOperand (operation : TokenType) : Parser (Ty × Option Tree) := fun tokens =>
  if isAtStartOfDeclaration aliases tokens = true then do
    let (type, rest) ← parseType aliases tokens
    pure ((type, none), rest)
  else do
    rejectIf (operation = .keywordOffsetof) (Failure.diagnostic "offsetof requires a type and member.")
    let (object, rest) ← expression nested tokens
    pure (({}, some object), rest)

def parseLayoutQuery (operation : TokenType) : Parser Tree := fun tokens => do
  let (_, rest) ← consume .lparen "Expect '(' after layout query." tokens
  let (operand, rest) ← layoutOperand aliases nested operation rest
  let (member, rest) ← layoutMember operation rest
  let (_, rest) ← consume .rparen "Expect ')' after layout query." rest
  let tree ← node (.layoutQuery operation operand.1 operand.2 member)
  pure (tree, rest)

def parseReadPixel : Parser Tree := fun tokens =>
  match accept [.keywordAt] tokens with
  | none => .ok (.readPixel [], tokens)
  | some (_, rest) => do
      let (_, rest) ← consume .lparen "Expect '(' after read_pixel at." rest
      let (x, rest) ← expression nested rest
      let (_, rest) ← consume .comma "Expect ',' between coordinates." rest
      let (y, rest) ← expression nested rest
      let (_, rest) ← consume .rparen "Expect ')' after coordinates." rest
      let tree ← node (.readPixel [x, y])
      pure (tree, rest)

def parseCursor : Parser Tree := fun tokens => do
  let (_, rest) ← consume .dot "Expect '.' in cursor coordinate access." tokens
  let (member, rest) ← consume .identifier "Expect 'x' or 'y' after 'cursor.'." rest
  rejectIf (member.lexeme ≠ "x" ∧ member.lexeme ≠ "y") (Failure.diagnostic "Plot context has only x and y coordinates.")
  pure (.plotCoordinate (member.lexeme == "y"), rest)

def parseInitializerList : Parser Tree := fun tokens => do
  let (values, rest) ← repeated (moreElements nested) ([], false) tokens
  let (_, rest) ← consume .rbrace "Expect '\x7d' after initializer list." rest
  let tree ← node (.initializerList values.1)
  pure (tree, rest)

/-- What is in parentheses: the type of a cast, or an expression. -/
def parseParenthesized : Parser Tree := fun tokens =>
  if isAtStartOfDeclaration aliases tokens = true then do
    let (type, rest) ← parseType aliases tokens
    let (_, rest) ← consume .rparen "Expect ')' after type in cast expression." rest
    let (right, rest) ← nested.unary rest
    let tree ← node (.cast type right)
    pure (tree, rest)
  else do
    let (inner, rest) ← expression nested tokens
    let (_, rest) ← consume .rparen "Expect ')' after expression." rest
    pure (inner, rest)

def primary : Parser Tree
  | [] => .error (.diagnostic "Expected primary expression.")
  | token :: rest =>
      match token.type with
      | .literalString => .ok (.string token.lexeme, rest)
      | .literalCharacter | .literalInteger | .keywordTrue | .keywordFalse => .ok (.literal token.type token.lexeme, rest)
      | .lbrace => parseInitializerList nested rest
      | .keywordNull => .ok (.null, rest)
      | .keywordSizeof | .keywordAlignof | .keywordOffsetof => parseLayoutQuery aliases nested token.type rest
      | .keywordReadPixel => parseReadPixel nested rest
      | .keywordPlot => .error (.diagnostic (if peek rest = .dot
          then "Use cursor.x/cursor.y inside plot \x7b ... \x7d; plot.x/plot.y were removed." else "Expected primary expression."))
      | .keywordCursor => parseCursor rest
      | .identifier => .ok (.identifier token.lexeme, rest)
      | .lparen => parseParenthesized aliases nested rest
      | _ => .error (.diagnostic "Expected primary expression.")

/-- The number that increments and decrements add. -/
def one : Tree := .literal .literalInteger "1"

/-- One postfix operator; an update is the last one. -/
def postfixStep : (Tree × Bool) × List Token → Except Failure (Option ((Tree × Bool) × List Token))
  | ((_, true), _) => .ok none
  | (_, []) => .ok none
  | ((tree, false), token :: rest) =>
      match token.type with
      | .lparen => do
          let (arguments, rest) ← parseArguments nested rest
          let (_, rest) ← consume .rparen "Expect ')' after arguments." rest
          let tree ← node (.call tree arguments)
          pure (some ((tree, false), rest))
      | .lbracket => do
          let (index, rest) ← expression nested rest
          let (_, rest) ← consume .rbracket "Expect ']' after subscript index." rest
          let tree ← node (.subscript tree index)
          pure (some ((tree, false), rest))
      | .dot | .arrow => do
          let (member, rest) ← consume .identifier "Expect member name after '.'." rest
          let tree ← node (.memberAccess tree member.lexeme (token.type == .arrow))
          pure (some ((tree, false), rest))
      | .plusPlus | .minusMinus => do
          let tree ← node (.update token.type tree one true)
          pure (some ((tree, true), rest))
      | _ => .ok none

def parsePostfix : Parser Tree := fun tokens => do
  let (tree, rest) ← primary aliases nested tokens
  let (s, rest) ← repeated (postfixStep nested) (tree, false) rest
  pure (s.1, rest)

/-- The node of a prefix operator. -/
def prefixNode (operation : TokenType) (right : Tree) : Tree :=
  match operation with
  | .ampersand => .addressOf right
  | .star => .dereference right
  | .plusPlus | .minusMinus => .update operation right one false
  | _ => .unary operation right

def prefixOperators : List TokenType := [.plusPlus, .minusMinus, .minus, .ampersand, .star, .bang, .tilde]

def unary : Parser Tree := fun tokens =>
  match accept prefixOperators tokens with
  | some (operation, rest) => do
      let (right, rest) ← nested.unary rest
      let tree ← node (prefixNode operation.type right)
      pure (tree, rest)
  | none => parsePostfix aliases nested tokens

end Levels

/-! ### Binary operators -/

def binaryStep (operand : Parser Tree) (operators : List TokenType) : Tree × List Token → Except Failure (Option (Tree × List Token))
  | (left, tokens) =>
      match accept operators tokens with
      | none => .ok none
      | some (operation, rest) => do
          let (right, rest) ← operand rest
          let tree ← node (.binary operation.type left right)
          pure (some (tree, rest))

def binaryLeft (operand : Parser Tree) (operators : List TokenType) : Parser Tree := fun tokens => do
  let (left, rest) ← operand tokens
  repeated (binaryStep operand operators) left rest

section Binary

variable (unary : Parser Tree)

def factor : Parser Tree := binaryLeft unary [.star, .slash, .percent]

def term : Parser Tree := binaryLeft (factor unary) [.plus, .minus]

def shift : Parser Tree := binaryLeft (term unary) [.shiftLeft, .shiftRight]

def comparison : Parser Tree := binaryLeft (shift unary) [.greater, .greaterEqual, .less, .lessEqual]

def equality : Parser Tree := binaryLeft (comparison unary) [.bangEqual, .equalEqual]

def bitwiseAnd : Parser Tree := binaryLeft (equality unary) [.ampersand]

def bitwiseXor : Parser Tree := binaryLeft (bitwiseAnd unary) [.caret]

def bitwiseOr : Parser Tree := binaryLeft (bitwiseXor unary) [.pipe]

def logicalAnd : Parser Tree := binaryLeft (bitwiseOr unary) [.andAnd]

def logicalOr : Parser Tree := binaryLeft (logicalAnd unary) [.orOr]

end Binary

/-! ### Assignments -/

def updateOperators : List TokenType :=
  [.plusEqual, .minusEqual, .starEqual, .slashEqual, .percentEqual, .andEqual, .orEqual, .xorEqual,
    .shiftLeftEqual, .shiftRightEqual]

/-- The node of an assignment or of a compound assignment. -/
def assignmentNode (operation : TokenType) (target value : Tree) : Tree :=
  if operation = .equal then .assign target value else .update operation target value false

def assignment (nested : Nested) : Parser Tree := fun tokens => do
  let (target, rest) ← logicalOr nested.unary tokens
  match accept (.equal :: updateOperators) rest with
  | none => pure (target, rest)
  | some (operation, rest) => do
      let (value, rest) ← nested.assignment rest
      let tree ← node (assignmentNode operation.type target value)
      pure (tree, rest)

/-! ### Nesting -/

def tooNested : Parser Tree := fun _ => .error (.diagnostic "Parser nesting exceeds the supported limit of 128.")

/-- The parsers that may still nest that deep. -/
def nesting (aliases : Aliases) : Nat → Nested
  | 0 => ⟨tooNested, tooNested⟩
  | remaining + 1 => ⟨assignment (nesting aliases remaining), unary aliases (nesting aliases remaining)⟩

def maxNesting : Nat := 128

/-- `Parser::expression` outside of any expression. -/
def parseExpression (aliases : Aliases) : Parser Tree := (nesting aliases maxNesting).assignment

end Parser

end Disco.Frontend
