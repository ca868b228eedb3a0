import Disco.Project.Paths
import Disco.Target.Config
import Disco.Library.Scan

/-! # The manifest reader

`Reader` of `ManifestParser.cpp`: the subset of TOML in which a project is described. The
source is a string of bytes. The reader checks it for UTF-8 and stray control characters
first and then passes over it once. Only reading is modelled; `Manifest::validate` is not.
-/

namespace Disco.Project

open Library

def maxManifestBytes : Nat := 64 * 1024

def maxProjectSources : Nat := 128

inductive Kind where
  | string
  | integer
  | boolean
  | strings
  deriving DecidableEq, Repr

structure Position where
  line : Nat := 1
  column : Nat := 1
  deriving DecidableEq, Repr

structure Value where
  kind : Kind := .string
  text : Name := []
  integer : Int64 := 0
  boolean : Bool := false
  strings : List Name := []
  position : Position := {}
  deriving DecidableEq, Repr

/-- The decoded values of a manifest, by their full names. -/
structure Manifest where
  path : Path
  values : List (Name × Value)

namespace Reader

/-! ## Bytes -/

def bare (c : UInt8) : Bool :=
  ('a'.toUInt8 ≤ c && c ≤ 'z'.toUInt8) || ('A'.toUInt8 ≤ c && c ≤ 'Z'.toUInt8) ||
    ('0'.toUInt8 ≤ c && c ≤ '9'.toUInt8) || c == '_'.toUInt8 || c == '-'.toUInt8

/-- The value of a digit in any radix up to sixteen, negative where there is none. -/
def digit (c : UInt8) : Int :=
  if '0'.toUInt8 ≤ c ∧ c ≤ '9'.toUInt8 then (c - '0'.toUInt8).toNat
  else if 'a'.toUInt8 ≤ c ∧ c ≤ 'f'.toUInt8 then (c - 'a'.toUInt8).toNat + 10
  else if 'A'.toUInt8 ≤ c ∧ c ≤ 'F'.toUInt8 then (c - 'A'.toUInt8).toNat + 10
  else -1

/-- A byte with the marking bits of its place in a sequence. -/
def marked (mark bits : UInt32) : UInt8 := (mark ||| bits).toUInt8

/-- What `appendUtf8` appends. -/
def utf8 (point : UInt32) : Name :=
  if point ≤ 0x7f then [point.toUInt8]
  else if point ≤ 0x7ff then [marked 0xc0 (point >>> 6), marked 0x80 (point &&& 63)]
  else if point ≤ 0xffff then [marked 0xe0 (point >>> 12), marked 0x80 ((point >>> 6) &&& 63), marked 0x80 (point &&& 63)]
  else
    [marked 0xf0 (point >>> 18), marked 0x80 ((point >>> 12) &&& 63), marked 0x80 ((point >>> 6) &&& 63),
      marked 0x80 (point &&& 63)]

/-! ## Where the reader stands -/

/-- The position behind a byte. -/
def after (position : Position) (c : UInt8) : Position :=
  if c = '\n'.toUInt8 then { line := position.line + 1, column := 1 }
  else { position with column := position.column + 1 }

inductive Failure where
  /-- A message with the position that it is reported at. -/
  | manifest (position : Position) (message : String)
  /-- A loop that was cut off. -/
  | unfinished
  deriving DecidableEq, Repr

/-- The text of the exception. -/
def Failure.what (path : Path) : Failure → String
  | .manifest position message =>
      String.ofList path ++ ":" ++ toString position.line ++ ":" ++ toString position.column ++ ": manifest error: " ++ message
  | .unfinished => ""

/-- What is left of the source, and the position reached. -/
structure Cursor where
  position : Position := {}
  rest : Name
  deriving DecidableEq

abbrev Reading := Scan Cursor Failure

variable {α β : Type}

def fail (message : String) : Reading α := fun s => .error (.manifest s.position message)

def refuseIf (bad : Prop) [Decidable bad] (message : String) : Reading Unit := if bad then fail message else pure ()

def atEnd : Reading Bool := fun s => .ok (s.rest.isEmpty, s)

/-- The next byte; zero at the end. -/
def peek : Reading UInt8 := fun s => .ok (s.rest.headD 0, s)

def position : Reading Position := fun s => .ok (s.position, s)

def advance : Reading UInt8 := fun s =>
  match s.rest with
  | [] => fail "Unexpected end of manifest." s
  | c :: rest => .ok (c, ⟨after s.position c, rest⟩)

/-- A loop of the reader. Each turn that goes on passes over a byte. -/
def loop (turn : α → Reading (α ⊕ β)) (a : α) : Reading β :=
  fun s => Scan.iterate turn .unfinished (s.rest.length + 1) a s

def passTurn (p : UInt8 → Bool) (passed : Name) : Reading (Name ⊕ Name) := do
  let ended ← atEnd
  let c ← peek
  if ended = false ∧ p c = true then do
    let c ← advance
    pure (.inl (passed ++ [c]))
  else pure (.inr passed)

/-- Pass over bytes while there are some that satisfy `p`. -/
def passWhile (p : UInt8 → Bool) : Reading Name := loop (passTurn p) []

/-! ## UTF-8 -/

def failAt (source : Name) (offset : Nat) (message : String) : Except Failure α :=
  .error (.manifest ((source.take offset).foldl after {}) message)

/-- How many bytes a character with this first byte takes; none for a byte that begins none. -/
def sequenceLength (first : UInt8) : Nat :=
  if 0xf0 ≤ first ∧ first ≤ 0xf4 then 4
  else if 0xe0 ≤ first ∧ first ≤ 0xef then 3
  else if 0xc2 ≤ first ∧ first ≤ 0xdf then 2
  else 0

/-- The loop over the continuation bytes, the first of them at `index`. -/
def continuations (source : Name) : Nat → Name → UInt32 → Except Failure UInt32
  | _, [], point => .ok point
  | index, continuation :: rest, point => do
      if continuation &&& 0xc0 ≠ 0x80 then failAt source index "Invalid UTF-8."
      else continuations source (index + 1) rest (point <<< 6 ||| (continuation &&& 63).toUInt32)

def unrepresentable (length : Nat) (point : UInt32) : Prop :=
  point > 0x10ffff ∨ (0xd800 ≤ point ∧ point ≤ 0xdfff) ∨
    point < (if length = 2 then 0x80 else if length = 3 then 0x800 else 0x10000)

instance (length : Nat) (point : UInt32) : Decidable (unrepresentable length point) :=
  inferInstanceAs (Decidable (_ ∨ _))

/-- One character that takes several bytes; `rest` is what follows the first one. -/
def validateSequence (source : Name) (index : Nat) (first : UInt8) (rest : Name) : Except Failure (Option Nat) :=
  let length := sequenceLength first
  if length = 0 ∨ rest.length < length - 1 then failAt source index "Invalid UTF-8."
  else do
    let point ← continuations source (index + 1) (rest.take (length - 1)) (first.toUInt32 &&& (0x7f >>> length.toUInt32))
    if unrepresentable length point then failAt source index "Invalid UTF-8." else pure (some (index + length))

/-- One turn of `validateUtf8`: where the next character starts. -/
def validateNext (source : Name) (index : Nat) : Except Failure (Option Nat) :=
  match source.drop index with
  | [] => .ok none
  | first :: rest =>
      if first < 0x80 then
        if (first < 32 ∧ first ≠ '\t'.toUInt8 ∧ first ≠ '\n'.toUInt8 ∧ first ≠ '\r'.toUInt8) ∨ first = 127 then
          failAt source index "Invalid control character."
        else if first = '\r'.toUInt8 ∧ (rest = [] ∨ rest.headD 0 ≠ '\n'.toUInt8) then
          failAt source index "Carriage return must be followed by a newline."
        else .ok (some (index + 1))
      else validateSequence source index first rest

def validateUtf8 (source : Name) : Except Failure Unit := do
  let _ ← Library.loop (validateNext source) .unfinished (source.length + 1) 0
  pure ()

/-! ## Lines -/

def horizontal : Reading Unit := do
  let _ ← passWhile fun c => c == ' '.toUInt8 || c == '\t'.toUInt8

def comment : Reading Unit := do
  let c ← peek
  if c = '#'.toUInt8 then
    let _ ← passWhile fun c => c != '\n'.toUInt8 && c != '\r'.toUInt8

def require (c : UInt8) (message : String) : Reading Unit := do
  horizontal
  let next ← peek
  let ended ← atEnd
  refuseIf (next ≠ c ∨ ended = true) message
  let _ ← advance

def newline : Reading Unit := do
  let c ← peek
  let _ ← (if c = '\r'.toUInt8 then advance else pure c)
  require '\n'.toUInt8 "Expected newline."

def skipLines : Reading Unit :=
  loop (fun _ => do
    horizontal
    comment
    let c ← peek
    if c ≠ '\n'.toUInt8 ∧ c ≠ '\r'.toUInt8 then pure (.inr ())
    else do
      newline
      pure (.inl ())) ()

def finishLine : Reading Unit := do
  horizontal
  comment
  let ended ← atEnd
  if ended = true then pure () else newline

/-! ## Names and strings -/

/-- One turn of `key`: a bare part, and the dot behind it if there is one. -/
def keyPart (result : Name) : Reading (Name ⊕ Name) := do
  let c ← peek
  refuseIf (bare c = false) "Expected bare key/table name."
  let part ← passWhile bare
  horizontal
  let c ← peek
  if c ≠ '.'.toUInt8 then pure (.inr (result ++ part))
  else do
    let dot ← advance
    horizontal
    pure (.inl (result ++ part ++ [dot]))

def key : Reading Name := do
  horizontal
  let result ← loop keyPart []
  refuseIf (result.length > 128) "Key/table name exceeds 128 bytes."
  pure result

/-- `count` hexadecimal digits behind `\u` or `\U`. -/
def hexadecimal : Nat → UInt32 → Reading UInt32
  | 0, point => pure point
  | count + 1, point => do
      let c ← advance
      refuseIf (digit c < 0) "Invalid Unicode escape."
      hexadecimal count ((point <<< 4) ||| UInt32.ofNat (digit c).toNat)

def unicode (count : Nat) : Reading Name := do
  let point ← hexadecimal count 0
  refuseIf (point > 0x10ffff ∨ (0xd800 ≤ point ∧ point ≤ 0xdfff)) "Invalid Unicode scalar."
  pure (utf8 point)

/-- What an escape stands for, read behind its backslash. -/
def escape : Reading Name := do
  let escaped ← advance
  if escaped = 'b'.toUInt8 then pure [8]
  else if escaped = 't'.toUInt8 then pure [9]
  else if escaped = 'n'.toUInt8 then pure [10]
  else if escaped = 'f'.toUInt8 then pure [12]
  else if escaped = 'r'.toUInt8 then pure [13]
  else if escaped = '\x22'.toUInt8 then pure ['\x22'.toUInt8]
  else if escaped = '\\'.toUInt8 then pure ['\\'.toUInt8]
  else if escaped = 'u'.toUInt8 then unicode 4
  else if escaped = 'U'.toUInt8 then unicode 8
  else fail "Invalid string escape."

def stringTurn (quote : UInt8) (result : Name) : Reading (Name ⊕ Name) := do
  let ended ← atEnd
  let c ← peek
  if ended = true ∨ c = quote then pure (.inr result)
  else do
    let c ← advance
    refuseIf (c = '\n'.toUInt8 ∨ c = '\r'.toUInt8) "Multiline strings are not supported in manifests."
    let decoded ← (if c ≠ '\\'.toUInt8 ∨ quote = '\x27'.toUInt8 then pure [c] else escape)
    refuseIf ((result ++ decoded).length > maxProjectPathBytes) "String exceeds 4096 bytes."
    pure (.inl (result ++ decoded))

def string : Reading Name := do
  let quote ← advance
  let result ← loop (stringTurn quote) []
  require quote "Unterminated string."
  pure result

/-! ## Integers -/

/-- The loop over the digits of a literal. -/
def digits (radix limit : UInt64) : Name → UInt64 → Bool → Reading UInt64
  | [], value, previousDigit => do
      refuseIf (previousDigit = false) "Expected integer digits."
      pure value
  | c :: rest, value, previousDigit =>
      if c = '_'.toUInt8 then do
        refuseIf (previousDigit = false ∨ rest = [] ∨ digit (rest.headD 0) < 0 ∨ (radix.toNat : Int) ≤ digit (rest.headD 0))
          "Invalid numeric underscore."
        digits radix limit rest value false
      else do
        let next := digit c
        refuseIf (next < 0 ∨ (radix.toNat : Int) ≤ next) "Expected a TOML integer or boolean (no floats/dates)."
        let next := UInt64.ofNat next.toNat
        refuseIf (value > (limit - next) / radix) "Integer exceeds signed 64-bit range."
        digits radix limit rest (value * radix + next) true

/-- The radix of a literal without its sign, and its digits. -/
def radixOf (signedToken : Bool) (text : Name) : Reading (UInt64 × Name) :=
  match text with
  | zero :: radix :: rest =>
      if zero = '0'.toUInt8 then
        if radix = 'x'.toUInt8 ∨ radix = 'o'.toUInt8 ∨ radix = 'b'.toUInt8 then do
          refuseIf (signedToken = true) "Non-decimal TOML integers cannot have a sign."
          pure (if radix = 'x'.toUInt8 then 16 else if radix = 'o'.toUInt8 then 8 else 2, rest)
        else fail "Leading zero in decimal integer."
      else pure (10, text)
  | _ => pure (10, text)

def integer (text : Name) : Reading Int64 := do
  refuseIf (text = []) "Expected integer or boolean."
  let signedToken : Bool := text.head? == some '+'.toUInt8 || text.head? == some '-'.toUInt8
  let negative : Bool := text.head? == some '-'.toUInt8
  let (radix, rest) ← radixOf signedToken (if signedToken then text.drop 1 else text)
  let limit : UInt64 := Int64.maxValue.toUInt64 + (if negative then 1 else 0)
  let value ← digits radix limit rest 0 false
  if negative = true ∧ value = limit then pure Int64.minValue
  else pure (if negative then -value.toInt64 else value.toInt64)

/-! ## Values -/

/-- One turn of the loop over the entries of an array. -/
def entry (strings : List Name) : Reading (List Name ⊕ List Name) := do
  let c ← peek
  if c = ']'.toUInt8 then pure (.inr strings)
  else do
    refuseIf (c ≠ '\x22'.toUInt8 ∧ c ≠ '\x27'.toUInt8) "Sources must be an array of quoted strings."
    refuseIf (strings.length = maxProjectSources) "Source count exceeds 128."
    let text ← string
    skipLines
    let c ← peek
    if c = ']'.toUInt8 then pure (.inr (strings ++ [text]))
    else do
      require ','.toUInt8 "Expected ',' between array entries."
      skipLines
      pure (.inl (strings ++ [text]))

/-- Where a bare value ends. -/
def plain (c : UInt8) : Bool :=
  c != ' '.toUInt8 && c != '\t'.toUInt8 && c != '\n'.toUInt8 && c != '\r'.toUInt8 && c != '#'.toUInt8

def readValue : Reading Value := do
  let position ← position
  let c ← peek
  if c = '\x22'.toUInt8 ∨ c = '\x27'.toUInt8 then do
    let text ← string
    pure { position := position, text := text }
  else if c = '['.toUInt8 then do
    let _ ← advance
    skipLines
    let strings ← loop entry []
    require ']'.toUInt8 "Unterminated array."
    pure { position := position, kind := .strings, strings := strings }
  else do
    let text ← passWhile plain
    if text = nameOf "true" ∨ text = nameOf "false" then
      pure { position := position, kind := .boolean, boolean := text == nameOf "true" }
    else do
      let integer ← integer text
      pure { position := position, kind := .integer, integer := integer }

/-! ## Tables -/

/-- What has been read: the current table, the tables seen and the values. -/
structure Tables where
  table : Name := []
  tables : List Name := []
  values : List (Name × Value)

/-- The header of a table. -/
def header (s : Tables) : Reading Tables := do
  let _ ← advance
  let c ← peek
  refuseIf (c = '['.toUInt8) "Array-of-table syntax is not supported by the manifest schema."
  let table ← key
  require ']'.toUInt8 "Expected ']' after table name."
  let table := if table = nameOf "target.superfx" then nameOf "target.gsu" else table
  refuseIf (table ≠ nameOf "project" ∧ table ≠ nameOf "compiler" ∧ table ≠ nameOf "runtime" ∧ table ≠ nameOf "output" ∧
      table ≠ nameOf "target.gsu" ∧ table ≠ nameOf "target.spc700") ("Unknown manifest table '" ++ nameText table ++ "'.")
  refuseIf (table ∈ s.tables) ("Duplicate table '" ++ nameText table ++ "'.")
  let tables := s.tables ++ [table]
  refuseIf (tables.length > 8) "Manifest table limit exceeded."
  finishLine
  pure { s with table := table, tables := tables }

/-- A key with its value. -/
def assignment (s : Tables) : Reading Tables := do
  let name ← key
  refuseIf ('.'.toUInt8 ∈ name) "Use table headers, not dotted assignment keys."
  require '='.toUInt8 "Expected '=' after key."
  horizontal
  let value ← readValue
  let fullName := if s.table = [] then name else s.table ++ '.'.toUInt8 :: name
  refuseIf (fullName ∈ s.values.map Prod.fst) ("Duplicate key '" ++ nameText fullName ++ "'.")
  let values := s.values ++ [(fullName, value)]
  refuseIf (values.length > 64) "Manifest key limit exceeded."
  finishLine
  pure { s with values := values }

def readTurn (s : Tables) : Reading (Tables ⊕ Tables) := do
  let ended ← atEnd
  if ended = true then pure (.inr s)
  else do
    let c ← peek
    let s ← (if c = '['.toUInt8 then header s else assignment s)
    skipLines
    pure (.inl s)

/-- What is read of a source that has been checked. -/
def readTables (values : List (Name × Value)) : Reading Tables := do
  skipLines
  loop readTurn { values := values }

/-- `Reader::read` with an initial manifest. -/
def read (source : Name) (initial : Manifest) : Except Failure Manifest := do
  rejectIf (source.length > maxManifestBytes) (Failure.manifest {} "Manifest exceeds 64 KiB.")
  validateUtf8 source
  let (tables, _) ← readTables initial.values { rest := source }
  pure { initial with values := tables.values }

end Reader

end Disco.Project
