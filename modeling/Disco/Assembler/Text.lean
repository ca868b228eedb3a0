import Disco.Library.Loop
import Disco.Linker.Options
import Disco.Object.File

/-! # Assembly text

The lexical helpers of the assembler, on byte strings: trimming, operand
lists, numbers and register names. Characters are the source's, in the C
locale.
-/

namespace Disco.Assembler

open Library Linker

/-- Text is a byte string, like every name the tools handle. -/
abbrev Text := Name

/-! ## Characters -/

def upperCase (byte : UInt8) : Bool := 65 ≤ byte.toNat ∧ byte.toNat ≤ 90

def isAlpha (byte : UInt8) : Bool := upperCase byte ∨ (97 ≤ byte.toNat ∧ byte.toNat ≤ 122)

def isAlnum (byte : UInt8) : Bool := isAlpha byte ∨ (48 ≤ byte.toNat ∧ byte.toNat ≤ 57)

/-- An underscore, a period or a dollar sign. -/
def isNamePunctuation (byte : UInt8) : Bool := byte = 95 ∨ byte = 46 ∨ byte = 36

/-- The blanks that `trim` removes. -/
def isBlank (byte : UInt8) : Bool := byte = 32 ∨ byte = 9 ∨ byte = 13 ∨ byte = 10

/-! ## Strings -/

def trim (value : Text) : Text := (value.dropWhile isBlank).rdropWhile isBlank

def lower (value : Text) : Text :=
  value.map fun byte => if upperCase byte then byte + 32 else byte

def isIdentifier : Text → Bool
  | [] => false
  | first :: rest =>
      (isAlpha first || isNamePunctuation first) &&
        rest.all fun byte => isAlnum byte || isNamePunctuation byte

/-- Cut at the commas outside quotes and parentheses. Every piece before a
comma counts, also an empty one; an empty last piece does not. -/
def splitOperandsFrom : Text → Text → Int → Bool → List Text
  | [], piece, _, _ => if trim piece = [] then [] else [trim piece]
  | byte :: rest, piece, parentheses, quoted =>
      let quoted := if byte = 34 then !quoted else quoted
      if quoted then splitOperandsFrom rest (piece ++ [byte]) parentheses quoted
      else
        let parentheses :=
          if byte = 40 then parentheses + 1 else if byte = 41 then parentheses - 1 else parentheses
        if byte = 44 ∧ parentheses = 0 then trim piece :: splitOperandsFrom rest [] parentheses quoted
        else splitOperandsFrom rest (piece ++ [byte]) parentheses quoted

def splitOperands (text : Text) : List Text := splitOperandsFrom text [] 0 false

/-- Drop one immediate marker. -/
def withoutHash (value : Text) : Text :=
  match trim value with
  | 35 :: rest => trim rest
  | value => value

/-! ## Numbers -/

/-- How `std::strtoll` reads a digit string in a given base: the base it uses,
the length of a base marker, and what follows it. -/
def radix (base : Nat) (digits : Text) : Nat × Nat × Text :=
  match digits with
  | 48 :: marker :: digit :: rest =>
      if (base = 0 ∨ base = 16) ∧ (marker = 120 ∨ marker = 88) ∧ (digitValue 16 digit).isSome then
        (16, 2, digit :: rest)
      else (if base = 0 then 8 else base, 0, digits)
  | 48 :: _ => (if base = 0 then 8 else base, 0, digits)
  | _ => (if base = 0 then 10 else base, 0, digits)

/-- `std::stoll`: the value and the number of characters it spans, or nothing
when it throws. -/
def stoll (text : Text) (base : Nat) : Option (Int × Nat) :=
  let body := text.dropWhile isSpace
  let negative := body.head? = some 45
  let signs := if body.head? = some 45 ∨ body.head? = some 43 then 1 else 0
  let (base, marker, digits) := radix base (body.drop signs)
  let (value, read) := scanDigits base digits 0 0
  if read = 0 ∨ value > (if negative then 2 ^ 63 else 2 ^ 63 - 1) then none
  else
    some (if negative then -(value : Int) else value,
      (text.takeWhile isSpace).length + signs + marker + read)

/-- A number with its own sign and base marker; a second sign must not make it
negative. -/
def parseNumber (text : Text) : Option Int :=
  let token := withoutHash text
  let negative := token.head? = some 45
  let token := if token.head? = some 45 ∨ token.head? = some 43 then token.drop 1 else token
  let base := if token.head? = some 36 then 16
    else if token.length > 1 ∧ token.head? = some 37 then 2 else 0
  let token := if base = 0 then token else token.drop 1
  if token = [] then none
  else
    match stoll token base with
    | none => none
    | some (parsed, consumed) =>
        if consumed ≠ token.length ∨ parsed < 0 then none
        else some (if negative then -parsed else parsed)

/-! ## Registers -/

def parseRegister (text : Text) : Option Nat :=
  let name := lower (trim text)
  if name = nameOf "sp" then some 10
  else if name = nameOf "pc" then some 15
  else if name.length < 2 ∨ name.head? ≠ some 114 then none
  else
    match parseNumber (name.drop 1) with
    | none => none
    | some value => if value < 0 ∨ value > 15 then none else some value.toNat

/-- A register in parentheses. -/
def parseMemoryRegister (text : Text) : Option Nat :=
  let value := trim text
  if value.length < 4 ∨ value.head? ≠ some 40 ∨ value.getLast? ≠ some 41 then none
  else parseRegister ((value.drop 1).dropLast)

theorem parseRegister_le {text : Text} {register : Nat} (h : parseRegister text = some register) :
    register ≤ 15 := by
  unfold parseRegister at h
  dsimp only at h
  split_ifs at h
  · cases h
    decide
  · cases h
    decide
  · split at h
    · cases h
    · split_ifs at h
      cases h
      omega

end Disco.Assembler
