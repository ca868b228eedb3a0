import Disco.IR.Syntax

/-! # Scalar folding

`ConstantEvaluator::convert` and the evaluation that every folding pass shares.
Converted scalar operands have at most sixteen bits, so none of the 64-bit
operations below overflows; unsigned views of a value are taken modulo `2 ^ 64`.
-/

namespace Disco.IR

/-- The residue of a value that fits the signed or the unsigned range. -/
def wrap (modulus : Int) (isUnsigned : Bool) (value : Int) : Int :=
  let bits := value % modulus
  if isUnsigned = false ∧ bits ≥ modulus / 2 then bits - modulus else bits

/-- Reduce a value to the range of a type. -/
def convert (value : Int) (type : Ty) : Int :=
  if type.pointerLevel > 0 then value
  else if type.base = .bool then (if value ≠ 0 then 1 else 0)
  else wrap (if type.base = .byte then 2 ^ 8 else 2 ^ 16) type.isUnsigned value

namespace ScalarFold

def scalar (type : Ty) : Bool :=
  decide (type.pointerLevel = 0) && decide (type.arraySize = 0) &&
    decide (type.base = .byte ∨ type.base = .word ∨ type.base = .bool)

/-- A constant operand and the type it was defined at. -/
structure Operand where
  type : Ty
  value : Int

/-- The bits of a 64-bit integer. -/
def unsigned (value : Int) : Nat := (value % 2 ^ 64).toNat

def truth (condition : Bool) : Int := if condition then 1 else 0

/-- The folded result of a binary operation before it is converted. -/
def evaluateBinary (operation : String) (a b : Int) : Option Int :=
  if operation = "+" then some (a + b)
  else if operation = "-" then some (a - b)
  else if operation = "*" then some (a * b)
  else if operation = "/" ∨ operation = "%" then
    -- Keep the run-time fail-stop of a zero divisor.
    if b = 0 then none else some (if operation = "/" then a.tdiv b else a.tmod b)
  else if operation = "&" then some (Int.ofNat ((unsigned a &&& unsigned b) &&& 0xffff))
  else if operation = "|" then some (Int.ofNat ((unsigned a ||| unsigned b) &&& 0xffff))
  else if operation = "^" then some (Int.ofNat ((unsigned a ^^^ unsigned b) &&& 0xffff))
  else if operation = "<<" ∨ operation = ">>" then
    if b < 0 ∨ b > 15 then none
    else
      let divisor : Int := 2 ^ b.toNat
      if operation = "<<" then some (Int.ofNat (unsigned a &&& 0xffff) * divisor)
      else some (if a ≥ 0 then a.tdiv divisor else -((-a + divisor - 1).tdiv divisor))
  else if operation = "==" then some (truth (a = b))
  else if operation = "!=" then some (truth (a ≠ b))
  else if operation = "<" then some (truth (a < b))
  else if operation = "<=" then some (truth (a ≤ b))
  else if operation = ">" then some (truth (a > b))
  else if operation = ">=" then some (truth (a ≥ b))
  else none

def evaluateUnary (operation : String) (a : Int) : Option Int :=
  if operation = "-" then some (-a)
  else if operation = "!" then some (truth (a = 0))
  else if operation = "~" then some (Int.ofNat ((2 ^ 64 - 1 - unsigned a) &&& 0xffff))
  else none

/-- The folded result before it is converted to the instruction's type. -/
def evaluateRaw (i : Instruction) (a b : Int) : Option Int :=
  match i.opcode with
  | .bitExtract =>
      if i.immediate < 0 ∨ i.immediate > 15 then none
      else some (Int.ofNat ((unsigned a >>> i.immediate.toNat) &&& 1))
  | .cast => some a
  | .unary => evaluateUnary i.operation a
  | .binary => evaluateBinary i.operation a b
  | _ => none

/-- Fold an instruction whose operands are the given constants. An absent
second operand counts as zero. -/
def evaluate (i : Instruction) (operands : List Operand) : Option Int :=
  if scalar i.type = false ∨ operands = [] ∨ operands.length > 2 ∨
      ∃ operand ∈ operands, scalar operand.type = false then none
  else
    let values := operands.map fun operand => convert operand.value operand.type
    (evaluateRaw i (values.getD 0 0) (values.getD 1 0)).map fun result => convert result i.type

end ScalarFold

/-! ## Ranges -/

theorem convert_of_sameValueType {left right : Ty} (h : sameValueType left right = true) (value : Int) :
    convert value left = convert value right := by
  obtain ⟨hb, hu, hp, -⟩ := sameValueType_fields h
  simp only [convert, hb, hu, hp]

/-- Wrapping depends on the residue only. -/
theorem wrap_congr {modulus : Int} {isUnsigned : Bool} {left right : Int}
    (h : left % modulus = right % modulus) :
    wrap modulus isUnsigned left = wrap modulus isUnsigned right := by
  simp only [wrap, h]

theorem wrap_emod (modulus : Int) (isUnsigned : Bool) (value : Int) :
    wrap modulus isUnsigned value % modulus = value % modulus := by
  unfold wrap
  simp only
  split
  · rw [Int.sub_emod_right, Int.emod_emod]
  · rw [Int.emod_emod]

/-- Converting twice to one type is converting once. -/
@[simp] theorem convert_convert (value : Int) (type : Ty) :
    convert (convert value type) type = convert value type := by
  unfold convert
  by_cases hp : type.pointerLevel > 0
  · simp [hp]
  · simp only [hp, if_false]
    by_cases hb : type.base = .bool
    · by_cases hv : value = 0 <;> simp [hb, hv]
    · simp only [hb, if_false]
      exact wrap_congr (wrap_emod _ _ _)

theorem wrap_bounds {modulus : Int} (hm : 0 < modulus) (isUnsigned : Bool) (value : Int) :
    -modulus ≤ 2 * wrap modulus isUnsigned value + 1 ∧ wrap modulus isUnsigned value < modulus := by
  have hlow := Int.emod_nonneg value (ne_of_gt hm)
  have hhigh := Int.emod_lt_of_pos value hm
  unfold wrap
  simp only
  split
  case isTrue h =>
      obtain ⟨-, h⟩ := h
      omega
  case isFalse h => omega

/-- A scalar value in range has at most sixteen bits and a sign. -/
theorem bounds_of_convert_eq {value : Int} {type : Ty} (hs : ScalarFold.scalar type = true)
    (h : convert value type = value) : -0x8000 ≤ value ∧ value < 0x10000 := by
  simp only [ScalarFold.scalar, Bool.and_eq_true, decide_eq_true_eq] at hs
  obtain ⟨⟨hp, -⟩, -⟩ := hs
  unfold convert at h
  rw [if_neg (by omega)] at h
  by_cases hb : type.base = .bool
  · rw [if_pos hb] at h
    split at h <;> omega
  · rw [if_neg hb] at h
    by_cases hy : type.base = .byte
    · rw [if_pos hy] at h
      have := wrap_bounds (show (0 : Int) < 2 ^ 8 by decide) type.isUnsigned value
      omega
    · rw [if_neg hy] at h
      have := wrap_bounds (show (0 : Int) < 2 ^ 16 by decide) type.isUnsigned value
      omega

end Disco.IR
