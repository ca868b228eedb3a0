import Disco.IR.Equations
import Mathlib.Tactic.IntervalCases
import Mathlib.Tactic.Linarith

/-! # Known bits and intervals

The facts of `simplifyFacts`: which bits of a scalar value are known, and between
which bounds it lies. Masks are 32-bit words, bounds are integers. Each rule is
followed by what it is for: it admits every value the instruction can have when
the facts of its operands admit the values they have.
-/

namespace Disco.IR

open ScalarFold

structure Fact where
  zero : BitVec 32 := 0
  one : BitVec 32 := 0
  low : Int := 0
  high : Int := 0
  deriving DecidableEq, Repr

namespace Fact

/-! ## The rules -/

def width (type : Ty) : Nat := if type.base = .word then 16 else 8

def mask (type : Ty) : BitVec 32 := if type.base = .word then 0xffff else 0xff

def signBit (type : Ty) : BitVec 32 := if type.base = .word then 0x8000 else 0x80

def unknown (type : Ty) : Fact :=
  if type.base = .bool then { zero := 254, one := 0, low := 0, high := 1 }
  else
    let sign : Int := 2 ^ (width type - 1)
    { zero := 0
      one := 0
      low := if type.isUnsigned then 0 else -sign
      high := if type.isUnsigned then sign * 2 - 1 else sign - 1 }

def literal (value : Int) (type : Ty) : Fact :=
  let value := convert value type
  let raw := BitVec.ofInt 32 value &&& mask type
  { zero := mask type ^^^ raw, one := raw, low := value, high := value }

/-- What the known bits say about the bounds. -/
def bitBounds (fact : Fact) (type : Ty) : Fact :=
  let zero := fact.zero &&& mask type
  let one := fact.one &&& mask type
  let least := one.toNat
  let greatest := (mask type &&& ~~~zero).toNat
  let modulus : Int := (mask type).toNat + 1
  let bounds : Int × Int :=
    if type.isUnsigned = false ∧ type.base ≠ .bool then
      if one &&& signBit type ≠ 0 then (least - modulus, greatest - modulus)
      else if zero &&& signBit type = 0 then
        ((one ||| signBit type).toNat - modulus,
          (mask type &&& ~~~zero &&& (signBit type - 1)).toNat)
      else (least, greatest)
    else (least, greatest)
  { zero := zero, one := one, low := max fact.low bounds.1, high := min fact.high bounds.2 }

def join (a b : Fact) : Fact where
  zero := a.zero &&& b.zero
  one := a.one &&& b.one
  low := min a.low b.low
  high := max a.high b.high

/-- Bounds that do not cross a wrap. -/
def within (fact : Fact) (low high : Int) : Fact :=
  if low ≥ fact.low ∧ high ≤ fact.high then { fact with low := low, high := high } else fact

def deriveCast (a : Fact) (source type : Ty) : Fact :=
  if type.base = .bool then
    if a.low > 0 ∨ a.high < 0 ∨ a.one ≠ 0 then literal 1 type
    else if a.low = 0 ∧ a.high = 0 then literal 0 type
    else bitBounds (unknown type) type
  else
    let extension := if width type > width source then mask type ^^^ mask source else 0
    let clear := source.isUnsigned = true ∨ source.base = .bool ∨ a.zero &&& signBit source ≠ 0
    let zero := a.zero &&& mask type ||| if clear then extension else 0
    let one := a.one &&& mask type |||
      if ¬ clear ∧ a.one &&& signBit source ≠ 0 then extension else 0
    bitBounds (within { unknown type with zero := zero, one := one } a.low a.high) type

def deriveBitExtract (a : Fact) (bit : Nat) (type : Ty) : Fact :=
  if a.zero.getLsbD bit then literal 0 type
  else if a.one.getLsbD bit then literal 1 type
  else bitBounds { zero := mask type ^^^ 1, one := 0, low := 0, high := 1 } type

def deriveArithmetic (operation : String) (a b : Fact) (type : Ty) : Fact :=
  if operation = "+" then within (unknown type) (a.low + b.low) (a.high + b.high)
  else if operation = "-" then within (unknown type) (a.low - b.high) (a.high - b.low)
  else within (unknown type)
    (min (min (a.low * b.low) (a.low * b.high)) (min (a.high * b.low) (a.high * b.high)))
    (max (max (a.low * b.low) (a.low * b.high)) (max (a.high * b.low) (a.high * b.high)))

def deriveShift (operation : String) (a : Fact) (count : Nat) (type : Ty) : Fact :=
  if operation = "<<" then
    { unknown type with
      zero := ((a.zero <<< count) ||| ((1#32 <<< count) - 1)) &&& mask type
      one := (a.one <<< count) &&& mask type }
  else
    let extension := mask type ^^^ (mask type >>> count)
    let clear := type.isUnsigned = true ∨ a.zero &&& 0x8000 ≠ 0
    { unknown type with
      zero := (a.zero >>> count) ||| if clear then extension else 0
      one := (a.one >>> count) ||| if ¬ clear ∧ a.one &&& 0x8000 ≠ 0 then extension else 0 }

/-- The result of a comparison, where the facts decide it. -/
def compare (operation : String) (a b : Fact) (identical : Bool) : Option Bool :=
  let unequal := decide (a.high < b.low ∨ b.high < a.low ∨ a.one &&& b.zero ≠ 0 ∨ b.one &&& a.zero ≠ 0)
  let equal := identical || decide (a.low = a.high ∧ b.low = b.high ∧ a.low = b.low)
  if operation = "==" ∨ operation = "!=" then
    if equal || unequal then some (if operation = "==" then equal else unequal) else none
  else if operation = "<" then
    if a.high < b.low then some true else if a.low ≥ b.high ∨ identical then some false else none
  else if operation = "<=" then
    if a.high ≤ b.low ∨ identical then some true else if a.low > b.high then some false else none
  else if operation = ">" then
    if a.low > b.high then some true else if a.high ≤ b.low ∨ identical then some false else none
  else if operation = ">=" then
    if a.low ≥ b.high ∨ identical then some true else if a.high < b.low then some false else none
  else none

def deriveBinary (operation : String) (a b : Fact) (identical : Bool) (type : Ty) : Fact :=
  if operation = "&" then
    bitBounds { unknown type with zero := a.zero ||| b.zero, one := a.one &&& b.one } type
  else if operation = "|" then
    bitBounds { unknown type with zero := a.zero &&& b.zero, one := a.one ||| b.one } type
  else if operation = "^" then
    bitBounds
      { unknown type with
        zero := (a.zero &&& b.zero) ||| (a.one &&& b.one)
        one := (a.zero &&& b.one) ||| (a.one &&& b.zero) } type
  else if operation = "+" ∨ operation = "-" ∨ operation = "*" then
    bitBounds (deriveArithmetic operation a b type) type
  else if (operation = "<<" ∨ operation = ">>") ∧ b.low = b.high ∧ 0 ≤ b.low ∧ b.low < 16 ∧
      type.base = .word then
    bitBounds (deriveShift operation a b.low.toNat type) type
  else
    match compare operation a b identical with
    | some answer => literal (if answer then 1 else 0) type
    | none => bitBounds (unknown type) type

end Fact

open Disco.IR.Fact in
/-- `derive`: the fact of an instruction from the facts of its operands. -/
def derive (f : Function) (facts : Nat → Fact) (i : Instruction) : Fact :=
  match i.opcode with
  | .constant => literal i.immediate i.type
  | .phi =>
      match i.operands.map facts with
      | [] => unknown i.type
      | first :: rest => rest.foldl join first
  | opcode =>
      if i.operands = [] ∨ ∃ v ∈ i.operands, scalar (f.typeOf v) = false then unknown i.type
      else
        let a := facts (i.operands.getD 0 0)
        let b := facts (i.operands.getD 1 0)
        if opcode = .cast then deriveCast a (f.typeOf (i.operands.getD 0 0)) i.type
        else if opcode = .bitExtract then deriveBitExtract a i.immediate.toNat i.type
        else if opcode = .unary ∧ i.operation = "~" then
          bitBounds { unknown i.type with zero := a.one, one := a.zero } i.type
        else if opcode = .binary then
          deriveBinary i.operation a b
            (decide (i.operands.getD 0 0 = i.operands.getD 1 0)) i.type
        else bitBounds (unknown i.type) i.type

/-! ## Bits of integers -/

/-- A bit of the two's complement of a value, without a last one. -/
def bit (value : Int) (n : Nat) : Bool := decide (value / 2 ^ n % 2 = 1)

theorem bit_congr {a b : Int} {w n : Nat} (h : a % 2 ^ w = b % 2 ^ w) (hn : n < w) :
    bit a n = bit b n := by
  obtain ⟨m, rfl⟩ := Nat.exists_eq_add_of_lt hn
  have hsplit : ∀ x : Int, x / 2 ^ n % 2 = x % 2 ^ (n + m + 1) / 2 ^ n % 2 := by
    intro x
    have hpow : (2 : Int) ^ (n + m + 1) = 2 ^ n * (2 * 2 ^ m) := by ring
    have hx := Int.emod_add_mul_ediv x (2 ^ (n + m + 1))
    have hpos : (2 : Int) ^ n ≠ 0 := by positivity
    conv_lhs => rw [← hx, hpow, mul_assoc, Int.add_mul_ediv_left _ _ hpos]
    rw [← hpow, mul_assoc, Int.add_mul_emod_self_left]
  unfold bit
  rw [hsplit a, hsplit b, h]

theorem bit_natCast (x n : Nat) : bit (x : Int) n = x.testBit n := by
  unfold bit
  rw [Nat.testBit_eq_decide_div_mod_eq]
  have hcast : (x : Int) / 2 ^ n % 2 = ((x / 2 ^ n % 2 : Nat) : Int) := by push_cast; rfl
  rw [hcast]
  exact decide_eq_decide.mpr (by omega)

theorem bit_pattern {value : Int} {n : Nat} (hn : n < 16) :
    (Arithmetic.pattern value).getLsbD n = bit value n := by
  rw [← BitVec.testBit_toNat, ← bit_natCast]
  refine bit_congr (w := 16) ?_ hn
  unfold Arithmetic.pattern
  rw [BitVec.toNat_ofInt]
  omega

theorem bit_div (value : Int) (c n : Nat) : bit (value / 2 ^ c) n = bit value (n + c) := by
  unfold bit
  rw [Int.ediv_ediv_of_nonneg (by positivity), ← pow_add, Nat.add_comm c n]

theorem bit_mul_low (value : Int) {c n : Nat} (hn : n < c) : bit (value * 2 ^ c) n = false := by
  obtain ⟨m, rfl⟩ := Nat.exists_eq_add_of_lt hn
  unfold bit
  have hpow : value * 2 ^ (n + m + 1) = 2 ^ n * (2 * (value * 2 ^ m)) := by ring
  rw [hpow, Int.mul_ediv_cancel_left _ (by positivity), Int.mul_emod_right]
  rfl

theorem bit_mul_high (value : Int) (c n : Nat) : bit (value * 2 ^ c) (n + c) = bit value n := by
  rw [← bit_div, Int.mul_ediv_cancel _ (by positivity)]

/-- Above its width a value repeats its sign. -/
theorem bit_sign {value : Int} {w n : Nat} (hn : w ≤ n) (hlow : -2 ^ w ≤ value) (hhigh : value < 2 ^ w) :
    bit value n = decide (value < 0) := by
  have hpow : (2 : Int) ^ w ≤ 2 ^ n := pow_le_pow_right₀ (by norm_num) hn
  unfold bit
  by_cases hneg : value < 0
  · have hdiv : value / 2 ^ n = -1 := by
      rw [Int.ediv_eq_iff_of_pos (by positivity)]
      constructor <;> linarith
    rw [hdiv, decide_eq_true hneg]
    rfl
  · rw [Int.ediv_eq_zero_of_lt (by omega) (by linarith), decide_eq_false hneg]
    rfl

/-- A value with every bit of another one is at least that. -/
theorem le_of_bits {x y : Nat} (h : ∀ n, x.testBit n = true → y.testBit n = true) : x ≤ y := by
  have heq : x &&& y = x := by
    apply Nat.eq_of_testBit_eq
    intro n
    rw [Nat.testBit_and]
    cases hx : x.testBit n with
    | false => rfl
    | true => rw [h n hx]; rfl
  calc x = x &&& y := heq.symm
    _ ≤ y := Nat.and_le_right

namespace Fact

variable {type : Ty} {value : Int} {fact : Fact}

theorem width_cases (type : Ty) : (type.base = .word ∧ width type = 16) ∨
    (type.base ≠ .word ∧ width type = 8) := by
  unfold width
  by_cases hbase : type.base = .word
  · exact .inl ⟨hbase, if_pos hbase⟩
  · exact .inr ⟨hbase, if_neg hbase⟩

theorem getLsbD_low {x : BitVec 32} {w : Nat} (hx : x.toNat = 2 ^ w - 1) (n : Nat) :
    x.getLsbD n = decide (n < w) := by
  rw [← BitVec.testBit_toNat, hx, Nat.testBit_two_pow_sub_one]

theorem mask_toNat (type : Ty) : (mask type).toNat = 2 ^ width type - 1 := by
  unfold mask width
  split <;> rfl

@[simp] theorem getLsbD_mask (type : Ty) (n : Nat) : (mask type).getLsbD n = decide (n < width type) :=
  getLsbD_low (mask_toNat type) n

@[simp] theorem getLsbD_signBit (type : Ty) (n : Nat) :
    (signBit type).getLsbD n = decide (n = width type - 1) := by
  have htoNat : (signBit type).toNat = 2 ^ (width type - 1) := by
    unfold signBit width
    split <;> rfl
  rw [← BitVec.testBit_toNat, htoNat, Nat.testBit_two_pow]
  exact decide_eq_decide.mpr eq_comm

@[simp] theorem getLsbD_signBit_sub_one (type : Ty) (n : Nat) :
    (signBit type - 1).getLsbD n = decide (n < width type - 1) := by
  refine getLsbD_low ?_ n
  unfold signBit width
  split <;> rfl

/-- Testing a single bit. -/
theorem and_ne_zero {x m : BitVec 32} {k : Nat} (hm : ∀ n, m.getLsbD n = decide (n = k)) :
    x &&& m ≠ 0 ↔ x.getLsbD k = true := by
  constructor
  · intro h
    by_contra hclear
    refine h (BitVec.eq_of_getLsbD_eq fun n _ => ?_)
    rw [BitVec.getLsbD_and, hm]
    by_cases hn : n = k
    · subst hn
      rw [Bool.not_eq_true _ |>.mp hclear]
      simp
    · simp [hn]
  · intro h hzero
    have hbit := congrArg (fun y => y.getLsbD k) hzero
    rw [BitVec.getLsbD_and, hm, h] at hbit
    simp at hbit

/-! ## Values of a type -/

theorem scalar_base (hs : scalar type = true) :
    type.pointerLevel = 0 ∧ (type.base = .byte ∨ type.base = .word ∨ type.base = .bool) := by
  simp only [scalar, Bool.and_eq_true, decide_eq_true_eq] at hs
  exact ⟨hs.1.1, hs.2⟩

theorem fits_iff (hs : scalar type = true) :
    Fits value type ↔ (unknown type).low ≤ value ∧ value ≤ (unknown type).high := by
  rcases scalar_base hs with ⟨hlevel, hbase⟩
  unfold Fits convert unknown wrap width
  rw [if_neg (by omega)]
  rcases hbase with hbase | hbase | hbase
  · rw [hbase]
    cases type.isUnsigned <;> simp <;> omega
  · rw [hbase]
    cases type.isUnsigned <;> simp <;> omega
  · rw [hbase]
    simp only [if_true]
    split <;> omega

theorem convert_emod (hs : scalar type = true) (hbool : type.base ≠ .bool) (value : Int) :
    convert value type % 2 ^ width type = value % 2 ^ width type := by
  rcases scalar_base hs with ⟨hlevel, hbase⟩
  unfold convert
  rw [if_neg (by omega), if_neg hbool]
  rcases width_cases type with ⟨hword, hwidth⟩ | ⟨hword, hwidth⟩
  · rw [hwidth, if_neg (by rw [hword]; decide), wrap_emod]
  · have hbyte : type.base = .byte := by
      rcases hbase with hbase | hbase | hbase
      · exact hbase
      · exact absurd hbase hword
      · exact absurd hbase hbool
    rw [hwidth, if_pos hbyte, wrap_emod]

/-- Values with the same low bits are converted to the same value. -/
theorem convert_of_residue (hs : scalar type = true) (hbool : type.base ≠ .bool) {left right : Int}
    (h : left % 2 ^ width type = right % 2 ^ width type) : convert left type = convert right type := by
  rcases scalar_base hs with ⟨hlevel, hbase⟩
  have hplain : ∀ x, convert x type =
      wrap (if type.base = .byte then 2 ^ 8 else 2 ^ 16) type.isUnsigned x := by
    intro x
    unfold convert
    rw [if_neg (by omega), if_neg hbool]
  rw [hplain, hplain]
  apply wrap_congr
  rcases width_cases type with ⟨hword, hwidth⟩ | ⟨hword, hwidth⟩
  · rw [hwidth] at h
    rw [if_neg (by rw [hword]; decide)]
    exact h
  · rw [hwidth] at h
    rw [if_pos ((hbase.resolve_right fun hother => hother.elim hword hbool))]
    exact h

/-- Converting a value keeps the bits its type has room for. -/
theorem bit_convert (hs : scalar type = true) (hbool : type.base ≠ .bool) {n : Nat}
    (hn : n < width type) : bit (convert value type) n = bit value n :=
  bit_congr (convert_emod hs hbool value) hn

/-- A value in range is not changed by conversion. -/
theorem convert_of_bounds (hs : scalar type = true) (hlow : (unknown type).low ≤ value)
    (hhigh : value ≤ (unknown type).high) : convert value type = value :=
  (fits_iff hs).mpr ⟨hlow, hhigh⟩

/-! ## What a fact admits -/

/-- The bounds of a fact, and its known bits as far as a type has room. -/
structure Covers (fact : Fact) (type : Ty) (value : Int) : Prop where
  low : fact.low ≤ value
  high : value ≤ fact.high
  zero : ∀ n < width type, fact.zero.getLsbD n = true → bit value n = false
  one : ∀ n < width type, fact.one.getLsbD n = true → bit value n = true

/-- A value between the bounds, with every bit of `one` set and every bit of
`zero` clear; the fact knows no bit beyond the width of the type. -/
structure Admits (fact : Fact) (type : Ty) (value : Int) : Prop where
  low : fact.low ≤ value
  high : value ≤ fact.high
  zero : ∀ n, fact.zero.getLsbD n = true → n < width type ∧ bit value n = false
  one : ∀ n, fact.one.getLsbD n = true → n < width type ∧ bit value n = true

theorem Admits.covers (h : Admits fact type value) : Covers fact type value :=
  ⟨h.low, h.high, fun n _ hn => (h.zero n hn).2, fun n _ hn => (h.one n hn).2⟩

theorem testBit_residue (value : Int) (w n : Nat) :
    (value % 2 ^ w).toNat.testBit n = (decide (n < w) && bit value n) := by
  have hpos : (0 : Int) < 2 ^ w := by positivity
  have hnonneg := Int.emod_nonneg value (ne_of_gt hpos)
  have hlt := Int.emod_lt_of_pos value hpos
  by_cases hn : n < w
  · rw [← bit_natCast, Int.toNat_of_nonneg hnonneg, bit_congr (Int.emod_emod_of_dvd _ dvd_rfl) hn,
      decide_eq_true hn, Bool.true_and]
  · rw [decide_eq_false hn, Bool.false_and]
    apply Nat.testBit_lt_two_pow
    have hle : 2 ^ w ≤ 2 ^ n := Nat.pow_le_pow_right (by norm_num) (by omega)
    have hcast : (value % 2 ^ w).toNat < 2 ^ w := by
      rw [← Int.ofNat_lt, Int.toNat_of_nonneg hnonneg]
      push_cast
      exact hlt
    omega

/-- The sign of a value in range, and its residue. -/
theorem residue_of_fits (hs : scalar type = true) (hf : Fits value type) :
    (type.isUnsigned = false ∧ type.base ≠ .bool →
      bit value (width type - 1) = decide (value < 0) ∧
      ((value % 2 ^ width type).toNat : Int) = if value < 0 then value + 2 ^ width type else value) ∧
    (¬ (type.isUnsigned = false ∧ type.base ≠ .bool) →
      ((value % 2 ^ width type).toNat : Int) = value) := by
  have hrange := (fits_iff hs).mp hf
  rcases scalar_base hs with ⟨-, hbase⟩
  unfold unknown at hrange
  constructor
  · rintro ⟨hsigned, hbool⟩
    rw [if_neg hbool, hsigned] at hrange
    dsimp only at hrange
    rw [if_neg (by decide), if_neg (by decide)] at hrange
    refine ⟨bit_sign le_rfl hrange.1 (by omega), ?_⟩
    rcases width_cases type with ⟨-, hwidth⟩ | ⟨-, hwidth⟩
    · rw [hwidth] at hrange ⊢
      split <;> omega
    · rw [hwidth] at hrange ⊢
      split <;> omega
  · intro hnot
    by_cases hbool : type.base = .bool
    · rw [if_pos hbool] at hrange
      have hwidth : width type = 8 := if_neg (by rw [hbool]; decide)
      rw [hwidth]
      dsimp only at hrange
      omega
    · have hunsigned : type.isUnsigned = true := by
        by_contra hsigned
        exact hnot ⟨by simpa using hsigned, hbool⟩
      rw [if_neg hbool, hunsigned] at hrange
      dsimp only at hrange
      rw [if_pos rfl, if_pos rfl] at hrange
      rcases width_cases type with ⟨-, hwidth⟩ | ⟨-, hwidth⟩
      · rw [hwidth] at hrange ⊢
        omega
      · rw [hwidth] at hrange ⊢
        omega

/-- Refining the bounds by the known bits. -/
theorem bitBounds_admits (hs : scalar type = true) (hf : Fits value type)
    (h : Covers fact type value) : Admits (bitBounds fact type) type value := by
  have hzero : ∀ n, (fact.zero &&& mask type).getLsbD n = true → n < width type ∧ bit value n = false := by
    intro n hn
    rw [BitVec.getLsbD_and, getLsbD_mask, Bool.and_eq_true, decide_eq_true_eq] at hn
    exact ⟨hn.2, h.zero n hn.2 hn.1⟩
  have hone : ∀ n, (fact.one &&& mask type).getLsbD n = true → n < width type ∧ bit value n = true := by
    intro n hn
    rw [BitVec.getLsbD_and, getLsbD_mask, Bool.and_eq_true, decide_eq_true_eq] at hn
    exact ⟨hn.2, h.one n hn.2 hn.1⟩
  -- the bits bound the unsigned residue from both sides
  have hleast : (fact.one &&& mask type).toNat ≤ (value % 2 ^ width type).toNat := by
    apply le_of_bits
    intro n hn
    rw [BitVec.testBit_toNat] at hn
    rw [testBit_residue, (hone n hn).2, decide_eq_true (hone n hn).1]
    rfl
  have hclear : ∀ n, n < width type → bit value n = true →
      (mask type &&& ~~~(fact.zero &&& mask type)).getLsbD n = true := by
    intro n hn hbit
    have hnot : (fact.zero &&& mask type).getLsbD n = false := by
      by_contra hset
      rw [(hzero n (by simpa using hset)).2] at hbit
      cases hbit
    have h32 : n < 32 := by
      rcases width_cases type with ⟨-, hwidth⟩ | ⟨-, hwidth⟩ <;> omega
    rw [BitVec.getLsbD_and, getLsbD_mask, BitVec.getLsbD_not, hnot, decide_eq_true hn,
      decide_eq_true h32]
    rfl
  have hgreatest : (value % 2 ^ width type).toNat ≤
      (mask type &&& ~~~(fact.zero &&& mask type)).toNat := by
    apply le_of_bits
    intro n hn
    rw [testBit_residue, Bool.and_eq_true, decide_eq_true_eq] at hn
    rw [BitVec.testBit_toNat]
    exact hclear n hn.1 hn.2
  have hmodulus : ((mask type).toNat : Int) + 1 = 2 ^ width type := by
    rw [mask_toNat]
    rcases width_cases type with ⟨-, hwidth⟩ | ⟨-, hwidth⟩ <;> (rw [hwidth]; rfl)
  rcases residue_of_fits hs hf with ⟨hsigned, hunsigned⟩
  refine ⟨max_le h.low ?_, le_min h.high ?_, hzero, hone⟩
  · by_cases hkind : type.isUnsigned = false ∧ type.base ≠ .bool
    · rw [if_pos hkind, hmodulus]
      rcases hsigned hkind with ⟨hsign, hresidue⟩
      split
      · rename_i hset
        have hbit := (hone _ ((and_ne_zero (getLsbD_signBit type)).mp hset)).2
        rw [hsign, decide_eq_true_eq] at hbit
        rw [if_pos hbit] at hresidue
        dsimp only
        omega
      · split
        · dsimp only
          have hor : ((fact.one &&& mask type) ||| signBit type).toNat ≤ 2 ^ width type - 1 := by
            rw [← mask_toNat]
            apply le_of_bits
            intro n hn
            rw [BitVec.testBit_toNat] at hn ⊢
            rw [BitVec.getLsbD_or, Bool.or_eq_true, getLsbD_signBit, decide_eq_true_eq] at hn
            rw [getLsbD_mask, decide_eq_true_eq]
            rcases hn with hn | hn
            · exact (hone n hn).1
            · rcases width_cases type with ⟨-, hwidth⟩ | ⟨-, hwidth⟩ <;> omega
          have hpos : 0 < 2 ^ width type := Nat.two_pow_pos _
          by_cases hneg : value < 0
          · rw [if_pos hneg] at hresidue
            have hle : ((fact.one &&& mask type) ||| signBit type).toNat ≤
                (value % 2 ^ width type).toNat := by
              apply le_of_bits
              intro n hn
              rw [BitVec.testBit_toNat, BitVec.getLsbD_or, Bool.or_eq_true, getLsbD_signBit,
                decide_eq_true_eq] at hn
              rw [testBit_residue, Bool.and_eq_true, decide_eq_true_eq]
              rcases hn with hn | rfl
              · exact hone n hn
              · refine ⟨?_, by rw [hsign]; exact decide_eq_true hneg⟩
                rcases width_cases type with ⟨-, hwidth⟩ | ⟨-, hwidth⟩ <;> omega
            omega
          · have hcast : ((2 ^ width type : Nat) : Int) = 2 ^ width type := by push_cast; rfl
            omega
        · rename_i hclear' hset
          have hbit := (hzero _ ((and_ne_zero (getLsbD_signBit type)).mp hset)).2
          rw [hsign, decide_eq_false_iff_not] at hbit
          rw [if_neg hbit] at hresidue
          dsimp only
          omega
    · rw [if_neg hkind]
      have hresidue := hunsigned hkind
      dsimp only
      omega
  · by_cases hkind : type.isUnsigned = false ∧ type.base ≠ .bool
    · rw [if_pos hkind, hmodulus]
      rcases hsigned hkind with ⟨hsign, hresidue⟩
      split
      · rename_i hset
        have hbit := (hone _ ((and_ne_zero (getLsbD_signBit type)).mp hset)).2
        rw [hsign, decide_eq_true_eq] at hbit
        rw [if_pos hbit] at hresidue
        dsimp only
        omega
      · split
        · dsimp only
          by_cases hneg : value < 0
          · omega
          · rw [if_neg hneg] at hresidue
            have hle : (value % 2 ^ width type).toNat ≤
                (mask type &&& ~~~(fact.zero &&& mask type) &&& (signBit type - 1)).toNat := by
              apply le_of_bits
              intro n hn
              rw [testBit_residue, Bool.and_eq_true, decide_eq_true_eq] at hn
              rw [BitVec.testBit_toNat, BitVec.getLsbD_and, hclear n hn.1 hn.2, getLsbD_signBit_sub_one,
                Bool.true_and, decide_eq_true_eq]
              have hne : n ≠ width type - 1 := by
                intro heq
                rw [heq, hsign, decide_eq_true_eq] at hn
                exact hneg hn.2
              omega
            omega
        · rename_i hclear' hset
          have hbit := (hzero _ ((and_ne_zero (getLsbD_signBit type)).mp hset)).2
          rw [hsign, decide_eq_false_iff_not] at hbit
          rw [if_neg hbit] at hresidue
          dsimp only
          omega
    · rw [if_neg hkind]
      have hresidue := hunsigned hkind
      dsimp only
      omega

/-! ## The rules admit what they stand for -/

theorem getLsbD_ofInt {w n : Nat} (value : Int) (hn : n < w) :
    (BitVec.ofInt w value).getLsbD n = bit value n := by
  rw [← BitVec.testBit_toNat, ← bit_natCast]
  refine bit_congr (w := w) ?_ hn
  rw [BitVec.toNat_ofInt]
  have hpos : (0 : Int) < 2 ^ w := by positivity
  have hnonneg := Int.emod_nonneg value (ne_of_gt hpos)
  push_cast
  rw [Int.toNat_of_nonneg hnonneg]
  exact Int.emod_emod_of_dvd _ dvd_rfl

theorem lt_width {type : Ty} {n : Nat} (hn : n < width type) : n < 16 := by
  rcases width_cases type with ⟨-, hwidth⟩ | ⟨-, hwidth⟩ <;> omega

theorem bit_zero (n : Nat) : bit 0 n = false := by
  unfold bit
  rw [Int.zero_ediv]
  rfl

theorem unknown_covers (hs : scalar type = true) (hf : Fits value type) :
    Covers (unknown type) type value := by
  have hrange := (fits_iff hs).mp hf
  refine ⟨hrange.1, hrange.2, ?_, ?_⟩
  · intro n hn hset
    by_cases hbool : type.base = .bool
    · have hunknown : unknown type = { zero := 254, one := 0, low := 0, high := 1 } := if_pos hbool
      rw [hunknown] at hrange hset
      have hn0 : 1 ≤ n := by
        by_contra hlt
        have hzero : n = 0 := by omega
        subst hzero
        exact absurd hset (by decide)
      rw [bit_sign (w := 1) hn0 (by dsimp only at hrange; omega) (by dsimp only at hrange; omega)]
      exact decide_eq_false (by dsimp only at hrange; omega)
    · have hunknown : (unknown type).zero = 0 := by
        unfold unknown
        rw [if_neg hbool]
      rw [hunknown] at hset
      simp at hset
  · intro n hn hset
    have hunknown : (unknown type).one = 0 := by
      unfold unknown
      split <;> rfl
    rw [hunknown] at hset
    simp at hset

theorem unknown_admits (hs : scalar type = true) (hf : Fits value type) :
    Admits (bitBounds (unknown type) type) type value :=
  bitBounds_admits hs hf (unknown_covers hs hf)

/-- Without the refinement, for a value nothing is known of. -/
theorem unknown_admits' (hs : scalar type = true) (hf : Fits value type) :
    Admits (unknown type) type value := by
  have hcovers := unknown_covers hs hf
  have hzero : ∀ n, (unknown type).zero.getLsbD n = true → n < width type := by
    intro n hn
    unfold unknown at hn
    split at hn
    · rename_i hbool
      have hwidth : width type = 8 := if_neg (by rw [hbool]; decide)
      rw [hwidth]
      by_contra hge
      have h32 : n < 32 := BitVec.lt_of_getLsbD hn
      interval_cases n <;> exact absurd hn (by decide)
    · simp at hn
  have hone : (unknown type).one = 0 := by
    unfold unknown
    split <;> rfl
  refine ⟨hcovers.low, hcovers.high, fun n hn => ⟨hzero n hn, hcovers.zero n (hzero n hn) hn⟩, ?_⟩
  intro n hn
  rw [hone] at hn
  simp at hn

theorem literal_admits (hs : scalar type = true) (value : Int) :
    Admits (literal value type) type (convert value type) := by
  have hbit : ∀ n, (BitVec.ofInt 32 (convert value type) &&& mask type).getLsbD n =
      (bit (convert value type) n && decide (n < width type)) := by
    intro n
    rw [BitVec.getLsbD_and, getLsbD_mask]
    by_cases hn : n < width type
    · rw [getLsbD_ofInt _ (by have := lt_width hn; omega)]
    · rw [decide_eq_false hn, Bool.and_false, Bool.and_false]
  refine ⟨le_rfl, le_rfl, ?_, ?_⟩
  · intro n hn
    have hzero : (mask type ^^^ (BitVec.ofInt 32 (convert value type) &&& mask type)).getLsbD n = true := hn
    rw [BitVec.getLsbD_xor, hbit, getLsbD_mask] at hzero
    by_cases hlt : n < width type
    · rw [decide_eq_true hlt] at hzero
      exact ⟨hlt, by simpa using hzero⟩
    · rw [decide_eq_false hlt] at hzero
      simp at hzero
  · intro n hn
    have hone : (BitVec.ofInt 32 (convert value type) &&& mask type).getLsbD n = true := hn
    rw [hbit, Bool.and_eq_true, decide_eq_true_eq] at hone
    exact ⟨hone.2, hone.1⟩

theorem join_admits_left {other : Fact} (h : Admits fact type value) :
    Admits (join fact other) type value := by
  refine ⟨(min_le_left _ _).trans h.low, h.high.trans (le_max_left _ _), ?_, ?_⟩
  · intro n hn
    have hboth : (fact.zero &&& other.zero).getLsbD n = true := hn
    rw [BitVec.getLsbD_and, Bool.and_eq_true] at hboth
    exact h.zero n hboth.1
  · intro n hn
    have hboth : (fact.one &&& other.one).getLsbD n = true := hn
    rw [BitVec.getLsbD_and, Bool.and_eq_true] at hboth
    exact h.one n hboth.1

theorem join_comm (a b : Fact) : join a b = join b a := by
  unfold join
  rw [BitVec.and_comm, BitVec.and_comm a.one, min_comm, max_comm]

/-- A join of facts admits what any of them admits. -/
theorem foldl_join_admits {facts : List Fact} {first : Fact}
    (h : Admits first type value ∨ ∃ other ∈ facts, Admits other type value) :
    Admits (facts.foldl join first) type value := by
  induction facts generalizing first with
  | nil =>
      rcases h with h | ⟨other, hmem, -⟩
      · exact h
      · cases hmem
  | cons next rest ih =>
      apply ih
      rcases h with h | ⟨other, hmem, h⟩
      · exact .inl (join_admits_left h)
      · rcases List.mem_cons.mp hmem with rfl | hmem
        · rw [join_comm]
          exact .inl (join_admits_left h)
        · exact .inr ⟨other, hmem, h⟩

/-- Exact results that stay in range are not wrapped. -/
theorem within_covers (hs : scalar type = true) {raw low high : Int} (hlow : low ≤ raw)
    (hhigh : raw ≤ high) (hfact : Covers fact type (convert raw type))
    (hbounds : fact.low = (unknown type).low ∧ fact.high = (unknown type).high) :
    Covers (within fact low high) type (convert raw type) := by
  unfold within
  split
  · rename_i hinside
    have hsame := convert_of_bounds hs (by omega : (unknown type).low ≤ raw)
      (by omega : raw ≤ (unknown type).high)
    rw [hsame] at hfact ⊢
    exact ⟨hlow, hhigh, hfact.zero, hfact.one⟩
  · exact hfact

theorem mul_bounds {a b l h : Int} (hl : l ≤ a) (hh : a ≤ h) :
    min (l * b) (h * b) ≤ a * b ∧ a * b ≤ max (l * b) (h * b) := by
  rcases le_total 0 b with hb | hb
  · exact ⟨(min_le_left _ _).trans (mul_le_mul_of_nonneg_right hl hb),
      (mul_le_mul_of_nonneg_right hh hb).trans (le_max_right _ _)⟩
  · exact ⟨(min_le_right _ _).trans (mul_le_mul_of_nonpos_right hh hb),
      (mul_le_mul_of_nonpos_right hl hb).trans (le_max_left _ _)⟩

section Binary

variable {source other : Ty} {a b : Int} {left right : Fact} {operation : String}

theorem deriveArithmetic_covers (hs : scalar type = true) {result : Int}
    (ha : Covers left source a) (hb : Covers right other b)
    (hop : operation = "+" ∨ operation = "-" ∨ operation = "*")
    (h : Arithmetic.binary operation a b = .ok result) :
    Covers (deriveArithmetic operation left right type) type (convert result type) := by
  have hunknown := unknown_covers hs (fits_convert result type)
  unfold deriveArithmetic
  rcases hop with rfl | rfl | rfl
  · rw [if_pos rfl]
    cases h
    have hlow := add_le_add ha.low hb.low
    have hhigh := add_le_add ha.high hb.high
    exact within_covers hs hlow hhigh hunknown ⟨rfl, rfl⟩
  · rw [if_neg (by decide), if_pos rfl]
    cases h
    have hlow := sub_le_sub ha.low hb.high
    have hhigh := sub_le_sub ha.high hb.low
    exact within_covers hs hlow hhigh hunknown ⟨rfl, rfl⟩
  · rw [if_neg (by decide), if_neg (by decide)]
    cases h
    rcases @mul_bounds a b _ _ ha.low ha.high with ⟨hlow, hhigh⟩
    have hleft := @mul_bounds b left.low _ _ hb.low hb.high
    have hright := @mul_bounds b left.high _ _ hb.low hb.high
    rw [mul_comm b, mul_comm right.low, mul_comm right.high] at hleft hright
    refine within_covers hs ?_ ?_ hunknown ⟨rfl, rfl⟩
    · exact (min_le_min hleft.1 hright.1).trans hlow
    · exact hhigh.trans (max_le_max hleft.2 hright.2)

/-- The bits of a bitwise result. -/
theorem bitwise_covers (hs : scalar type = true) (hbool : type.base ≠ .bool) {x : BitVec 16}
    {zero one : BitVec 32}
    (hzero : ∀ n < width type, zero.getLsbD n = true → x.getLsbD n = false)
    (hone : ∀ n < width type, one.getLsbD n = true → x.getLsbD n = true) :
    Covers { unknown type with zero := zero, one := one } type (convert x.toNat type) := by
  have hunknown := unknown_covers hs (fits_convert (x.toNat : Int) type)
  refine ⟨hunknown.low, hunknown.high, ?_, ?_⟩
  · intro n hn hset
    rw [bit_convert hs hbool hn, bit_natCast, BitVec.testBit_toNat]
    exact hzero n hn hset
  · intro n hn hset
    rw [bit_convert hs hbool hn, bit_natCast, BitVec.testBit_toNat]
    exact hone n hn hset

theorem pattern_zero (ha : Admits left source a) {n : Nat} (hn : left.zero.getLsbD n = true) :
    (Arithmetic.pattern a).getLsbD n = false := by
  rcases ha.zero n hn with ⟨hlt, hbit⟩
  rw [bit_pattern (lt_width hlt), hbit]

theorem pattern_one (ha : Admits left source a) {n : Nat} (hn : left.one.getLsbD n = true) :
    (Arithmetic.pattern a).getLsbD n = true := by
  rcases ha.one n hn with ⟨hlt, hbit⟩
  rw [bit_pattern (lt_width hlt), hbit]

theorem deriveShift_covers (hs : scalar type = true) (hword : type.base = .word)
    (hsource : scalar source = true) (hfits : Fits a source)
    (hsign : source.isUnsigned = type.isUnsigned) (hbase : source.base ≠ .bool) {result : Int}
    (ha : Admits left source a) {count : Nat} (hcount : count < 16)
    (hop : operation = "<<" ∨ operation = ">>")
    (h : Arithmetic.binary operation a count = .ok result) :
    Covers (deriveShift operation left count type) type (convert result type) := by
  have hbool : type.base ≠ .bool := by
    rw [hword]
    decide
  have hwidth : width type = 16 := if_pos hword
  have hrange : -0x8000 ≤ a ∧ a < 0x10000 := bounds_of_convert_eq hsource hfits
  have hunknown := unknown_covers hs (fits_convert result type)
  have hvalid : 0 ≤ (count : Int) ∧ (count : Int) ≤ 15 := by omega
  unfold deriveShift
  rcases hop with rfl | rfl
  · rw [if_pos rfl]
    have hresult : result = a * 2 ^ count := by
      have hshift : (if 0 ≤ (count : Int) ∧ (count : Int) ≤ 15 then
          Except.ok (a * 2 ^ (count : Int).toNat) else .error Trap.shift) = .ok result := h
      rw [if_pos hvalid, Int.toNat_natCast] at hshift
      exact (Except.ok.inj hshift).symm
    refine ⟨hunknown.low, hunknown.high, ?_, ?_⟩
    · intro n hn hset
      rw [bit_convert hs hbool hn, hresult]
      by_cases hlow : n < count
      · exact bit_mul_low a hlow
      · rw [BitVec.getLsbD_and, BitVec.getLsbD_or, BitVec.getLsbD_shiftLeft,
          @getLsbD_low (1#32 <<< count - 1) count (by interval_cases count <;> rfl),
          decide_eq_false hlow, Bool.or_false, Bool.and_eq_true, Bool.and_eq_true] at hset
        obtain ⟨m, rfl⟩ := Nat.exists_eq_add_of_le (Nat.le_of_not_lt hlow)
        rw [Nat.add_sub_cancel_left] at hset
        rw [Nat.add_comm count m, bit_mul_high]
        exact (ha.zero m hset.1.2).2
    · intro n hn hset
      rw [bit_convert hs hbool hn, hresult]
      rw [BitVec.getLsbD_and, BitVec.getLsbD_shiftLeft, Bool.and_eq_true, Bool.and_eq_true,
        Bool.and_eq_true] at hset
      have hlow : ¬ n < count := by simpa using hset.1.1.2
      obtain ⟨m, rfl⟩ := Nat.exists_eq_add_of_le (Nat.le_of_not_lt hlow)
      rw [Nat.add_sub_cancel_left] at hset
      rw [Nat.add_comm count m, bit_mul_high]
      exact (ha.one m hset.1.2).2
  · rw [if_neg (by decide)]
    have hresult : result = a / 2 ^ count := by
      have hshift : (if 0 ≤ (count : Int) ∧ (count : Int) ≤ 15 then
          Except.ok (a / 2 ^ (count : Int).toNat) else .error Trap.shift) = .ok result := h
      rw [if_pos hvalid, Int.toNat_natCast] at hshift
      exact (Except.ok.inj hshift).symm
    have hextension : ∀ n, (mask type ^^^ (mask type >>> count)).getLsbD n = true → 16 ≤ n + count := by
      intro n hn
      rw [BitVec.getLsbD_xor, BitVec.getLsbD_ushiftRight, getLsbD_mask, getLsbD_mask, hwidth] at hn
      by_contra hlt
      rw [decide_eq_true (by omega : n < 16), decide_eq_true (by omega : count + n < 16)] at hn
      cases hn
    -- the vacated bits repeat the sign of the value
    have hvacated : ∀ n, 16 ≤ n + count → bit (a / 2 ^ count) n = decide (a < 0) := by
      intro n hn
      rw [bit_div, bit_sign hn (by omega) (by omega)]
    have hkind := residue_of_fits hsource hfits
    have htop : (left.zero &&& 0x8000 ≠ 0 → ¬ a < 0) ∧
        (left.one &&& 0x8000 ≠ 0 → type.isUnsigned = false → a < 0) := by
      have htest : ∀ n, (0x8000 : BitVec 32).getLsbD n = decide (n = 15) := by
        intro n
        rw [← BitVec.testBit_toNat, show (0x8000 : BitVec 32).toNat = 2 ^ 15 from rfl,
          Nat.testBit_two_pow]
        exact decide_eq_decide.mpr eq_comm
      constructor
      · intro hset
        rcases ha.zero 15 ((and_ne_zero htest).mp hset) with ⟨hlt, hbit⟩
        rcases width_cases source with ⟨hw, hw16⟩ | ⟨-, hw8⟩
        · by_cases hsigned : source.isUnsigned = false
          · have hs' := (hkind.1 ⟨hsigned, hbase⟩).1
            rw [hw16, hbit] at hs'
            exact of_decide_eq_false hs'.symm
          · have hres := hkind.2 fun hboth => hsigned hboth.1
            omega
        · omega
      · intro hset hsigned
        rcases ha.one 15 ((and_ne_zero htest).mp hset) with ⟨hlt, hbit⟩
        rcases width_cases source with ⟨hw, hw16⟩ | ⟨-, hw8⟩
        · have hs' := (hkind.1 ⟨hsign.trans hsigned, hbase⟩).1
          rw [hw16, hbit] at hs'
          exact of_decide_eq_true hs'.symm
        · omega
    have hnonneg : type.isUnsigned = true → ¬ a < 0 := by
      intro hunsigned
      have hres := hkind.2 fun hboth => by
        rw [hsign, hunsigned] at hboth
        cases hboth.1
      omega
    refine ⟨hunknown.low, hunknown.high, ?_, ?_⟩
    · intro n hn hset
      rw [bit_convert hs hbool hn, hresult]
      rw [BitVec.getLsbD_or, Bool.or_eq_true, BitVec.getLsbD_ushiftRight] at hset
      rcases hset with hset | hset
      · rw [bit_div, Nat.add_comm]
        exact (ha.zero _ hset).2
      · split at hset
        · rename_i hclear
          rw [hvacated n (hextension n hset)]
          rcases hclear with hunsigned | htopbit
          · exact decide_eq_false (hnonneg hunsigned)
          · exact decide_eq_false (htop.1 htopbit)
        · simp at hset
    · intro n hn hset
      rw [bit_convert hs hbool hn, hresult]
      rw [BitVec.getLsbD_or, Bool.or_eq_true, BitVec.getLsbD_ushiftRight] at hset
      rcases hset with hset | hset
      · rw [bit_div, Nat.add_comm]
        exact (ha.one _ hset).2
      · split at hset
        · rename_i hfill
          rw [hvacated n (hextension n hset)]
          rw [not_or] at hfill
          exact decide_eq_true (htop.2 hfill.2 (by simpa using hfill.1.1))
        · simp at hset

/-- Facts with contradicting bits belong to different values. -/
theorem ne_of_bits (ha : Admits left source a) (hb : Admits right other b)
    (h : left.one &&& right.zero ≠ 0) : a ≠ b := by
  rintro rfl
  refine h (BitVec.eq_of_getLsbD_eq fun n _ => ?_)
  rw [BitVec.getLsbD_and]
  cases hone : left.one.getLsbD n with
  | false => simp
  | true =>
      cases hzero : right.zero.getLsbD n with
      | false => simp
      | true =>
          have hset := (ha.one n hone).2
          rw [(hb.zero n hzero).2] at hset
          cases hset

theorem compare_sound (ha : Admits left source a) (hb : Admits right other b) {identical answer : Bool}
    (hidentical : identical = true → a = b) (hcompare : compare operation left right identical = some answer) :
    Arithmetic.binary operation a b = .ok (if answer then 1 else 0) := by
  have hbounds := And.intro (And.intro ha.low ha.high) (And.intro hb.low hb.high)
  have hequal : (identical || decide (left.low = left.high ∧ right.low = right.high ∧ left.low = right.low)) =
      true → a = b := by
    intro h
    rw [Bool.or_eq_true, decide_eq_true_eq] at h
    rcases h with h | h
    · exact hidentical h
    · omega
  have hunequal : decide (left.high < right.low ∨ right.high < left.low ∨
      left.one &&& right.zero ≠ 0 ∨ right.one &&& left.zero ≠ 0) = true → a ≠ b := by
    intro h
    rw [decide_eq_true_eq] at h
    rcases h with h | h | h | h
    · omega
    · omega
    · exact ne_of_bits ha hb h
    · exact (ne_of_bits hb ha h).symm
  unfold compare at hcompare
  dsimp only at hcompare
  split at hcompare
  · rename_i hop
    split at hcompare
    · rename_i hknown
      rw [Bool.or_eq_true] at hknown
      cases hcompare
      rcases hop with rfl | rfl
      · rw [if_pos rfl]
        show Except.ok (if a = b then (1 : Int) else 0) = _
        rcases hknown with hknown | hknown
        · rw [if_pos (hequal hknown), hknown]
          rfl
        · have hne := hunequal hknown
          rw [if_neg hne, Bool.not_eq_true _ |>.mp fun h => hne (hequal h)]
          rfl
      · have hother : ("!=" : String) ≠ "==" := by decide
        rw [if_neg hother]
        show Except.ok (if a = b then (0 : Int) else 1) = _
        rcases hknown with hknown | hknown
        · rw [if_pos (hequal hknown), Bool.not_eq_true _ |>.mp fun h => hunequal h (hequal hknown)]
          rfl
        · rw [if_neg (hunequal hknown), hknown]
          rfl
    · cases hcompare
  · split at hcompare
    · rename_i hop
      subst hop
      show Except.ok (if a < b then (1 : Int) else 0) = _
      split at hcompare
      · cases hcompare
        rw [if_pos (by omega)]
        rfl
      · split at hcompare
        · rename_i hknown
          cases hcompare
          have hnot : ¬ a < b := by
            rcases hknown with hknown | hknown
            · omega
            · have heq := hidentical hknown
              omega
          rw [if_neg hnot]
          rfl
        · cases hcompare
    · split at hcompare
      · rename_i hop
        subst hop
        show Except.ok (if a ≤ b then (1 : Int) else 0) = _
        split at hcompare
        · rename_i hknown
          cases hcompare
          have hle : a ≤ b := by
            rcases hknown with hknown | hknown
            · omega
            · have heq := hidentical hknown
              omega
          rw [if_pos hle]
          rfl
        · split at hcompare
          · cases hcompare
            rw [if_neg (by omega)]
            rfl
          · cases hcompare
      · split at hcompare
        · rename_i hop
          subst hop
          show Except.ok (if b < a then (1 : Int) else 0) = _
          split at hcompare
          · cases hcompare
            rw [if_pos (by omega)]
            rfl
          · split at hcompare
            · rename_i hknown
              cases hcompare
              have hnot : ¬ b < a := by
                rcases hknown with hknown | hknown
                · omega
                · have heq := hidentical hknown
                  omega
              rw [if_neg hnot]
              rfl
            · cases hcompare
        · split at hcompare
          · rename_i hop
            subst hop
            show Except.ok (if b ≤ a then (1 : Int) else 0) = _
            split at hcompare
            · rename_i hknown
              cases hcompare
              have hle : b ≤ a := by
                rcases hknown with hknown | hknown
                · omega
                · have heq := hidentical hknown
                  omega
              rw [if_pos hle]
              rfl
            · split at hcompare
              · cases hcompare
                rw [if_neg (by omega)]
                rfl
              · cases hcompare
          · cases hcompare

/-- The operand types of a binary instruction and the type of its result. -/
structure BinaryTyped (operation : String) (source type : Ty) : Prop where
  result : operation ∈ ["==", "!=", "<", "<=", ">", ">="] ∨
    (type.base = .word ∧ sameValueType type source = true)

instance (operation : String) (source type : Ty) : Decidable (BinaryTyped operation source type) :=
  decidable_of_iff (operation ∈ ["==", "!=", "<", "<=", ">", ">="] ∨
    (type.base = .word ∧ sameValueType type source = true)) ⟨fun h => ⟨h⟩, fun h => h.result⟩

theorem deriveBinary_admits (hs : scalar type = true) (hsource : scalar source = true)
    (hfits : Fits a source) (htyped : BinaryTyped operation source type)
    (ha : Admits left source a) (hb : Admits right other b) {identical : Bool}
    (hidentical : identical = true → a = b) {result : Int} (h : Arithmetic.binary operation a b = .ok result) :
    Admits (deriveBinary operation left right identical type) type (convert result type) := by
  have hfit := fits_convert result type
  have hword : operation ∉ ["==", "!=", "<", "<=", ">", ">="] → type.base = .word ∧
      sameValueType type source = true := fun hnot => htyped.result.resolve_left hnot
  have hbool : type.base = .word → type.base ≠ .bool := by
    intro hbase
    rw [hbase]
    decide
  unfold deriveBinary
  split
  · rename_i hop
    subst hop
    have hkind := hbool (hword (by decide)).1
    cases h
    apply bitBounds_admits hs hfit
    apply bitwise_covers hs hkind
    · intro n _ hn
      rw [BitVec.getLsbD_or, Bool.or_eq_true] at hn
      rw [BitVec.getLsbD_and]
      rcases hn with hn | hn
      · rw [pattern_zero ha hn, Bool.false_and]
      · rw [pattern_zero hb hn, Bool.and_false]
    · intro n _ hn
      rw [BitVec.getLsbD_and, Bool.and_eq_true] at hn
      rw [BitVec.getLsbD_and, pattern_one ha hn.1, pattern_one hb hn.2]
      rfl
  split
  · rename_i hop
    subst hop
    have hkind := hbool (hword (by decide)).1
    cases h
    apply bitBounds_admits hs hfit
    apply bitwise_covers hs hkind
    · intro n _ hn
      rw [BitVec.getLsbD_and, Bool.and_eq_true] at hn
      rw [BitVec.getLsbD_or, pattern_zero ha hn.1, pattern_zero hb hn.2]
      rfl
    · intro n _ hn
      rw [BitVec.getLsbD_or, Bool.or_eq_true] at hn
      rw [BitVec.getLsbD_or]
      rcases hn with hn | hn
      · rw [pattern_one ha hn, Bool.true_or]
      · rw [pattern_one hb hn, Bool.or_true]
  split
  · rename_i hop
    subst hop
    have hkind := hbool (hword (by decide)).1
    cases h
    apply bitBounds_admits hs hfit
    apply bitwise_covers hs hkind
    · intro n _ hn
      rw [BitVec.getLsbD_or, Bool.or_eq_true, BitVec.getLsbD_and, BitVec.getLsbD_and, Bool.and_eq_true,
        Bool.and_eq_true] at hn
      rw [BitVec.getLsbD_xor]
      rcases hn with hn | hn
      · rw [pattern_zero ha hn.1, pattern_zero hb hn.2]
        rfl
      · rw [pattern_one ha hn.1, pattern_one hb hn.2]
        rfl
    · intro n _ hn
      rw [BitVec.getLsbD_or, Bool.or_eq_true, BitVec.getLsbD_and, BitVec.getLsbD_and, Bool.and_eq_true,
        Bool.and_eq_true] at hn
      rw [BitVec.getLsbD_xor]
      rcases hn with hn | hn
      · rw [pattern_zero ha hn.1, pattern_one hb hn.2]
        rfl
      · rw [pattern_one ha hn.1, pattern_zero hb hn.2]
        rfl
  split
  · rename_i hop
    exact bitBounds_admits hs hfit (deriveArithmetic_covers hs ha.covers hb.covers hop h)
  split
  · rename_i hop
    rcases hop with ⟨hop, hequal, hlow, hhigh, hbase⟩
    have hcount : b = (right.low.toNat : Int) := by
      have hl := hb.low
      have hh := hb.high
      omega
    have hsame' : sameValueType type source = true := by
      refine (hword ?_).2
      rcases hop with rfl | rfl <;> decide
    obtain ⟨hbases, hunsigned, -, -⟩ := sameValueType_fields hsame'
    rw [hcount] at h
    refine bitBounds_admits hs hfit (deriveShift_covers hs hbase hsource hfits hunsigned.symm ?_ ha
      (by omega) hop h)
    rw [← hbases]
    exact hbool hbase
  split
  · rename_i answer hcompare
    have hresult := compare_sound ha hb hidentical hcompare
    rw [h] at hresult
    rw [Except.ok.inj hresult]
    exact literal_admits hs _
  · exact unknown_admits hs hfit

end Binary

section Unary

variable {source : Ty} {a : Int} {operand : Fact}

/-- A fact with a set bit is not about zero. -/
theorem ne_zero_of_one (ha : Admits operand source a) (h : operand.one ≠ 0) : a ≠ 0 := by
  rintro rfl
  refine h (BitVec.eq_of_getLsbD_eq fun n _ => ?_)
  cases hone : operand.one.getLsbD n with
  | false => simp
  | true =>
      have hset := (ha.one n hone).2
      rw [bit_zero] at hset
      cases hset

theorem deriveCast_admits (hs : scalar type = true) (hsource : scalar source = true)
    (hfits : Fits a source) (ha : Admits operand source a) :
    Admits (deriveCast operand source type) type (convert a type) := by
  have hfit := fits_convert a type
  unfold deriveCast
  by_cases hbool : type.base = .bool
  · rw [if_pos hbool]
    have hlevel := (scalar_base hs).1
    have hconvert : ∀ x : Int, convert x type = if x ≠ 0 then 1 else 0 := by
      intro x
      unfold convert
      rw [if_neg (by omega), if_pos hbool]
    have hlow := ha.low
    have hhigh := ha.high
    split
    · rename_i hknown
      have hne : a ≠ 0 := by
        rcases hknown with hknown | hknown | hknown
        · omega
        · omega
        · exact ne_zero_of_one ha hknown
      have hsame : convert a type = convert 1 type := by
        rw [hconvert, hconvert, if_pos hne, if_pos (by decide)]
      rw [hsame]
      exact literal_admits hs 1
    · split
      · have hzero : a = 0 := by omega
        rw [hzero]
        exact literal_admits hs 0
      · exact unknown_admits hs hfit
  · rw [if_neg hbool]
    dsimp only
    have hunknown := unknown_covers hs hfit
    have hkind := residue_of_fits hsource hfits
    -- bits of the operand, and copies of its sign above them
    have hclear : (source.isUnsigned = true ∨ source.base = .bool ∨
        operand.zero &&& signBit source ≠ 0) → ¬ a < 0 := by
      rintro (hunsigned | hbase | hset)
      · have hres := hkind.2 fun hboth => by
          rw [hunsigned] at hboth
          cases hboth.1
        omega
      · have hres := hkind.2 fun hboth => hboth.2 hbase
        omega
      · have hbit := (ha.zero _ ((and_ne_zero (getLsbD_signBit source)).mp hset)).2
        by_cases hsigned : source.isUnsigned = false ∧ source.base ≠ .bool
        · rw [(hkind.1 hsigned).1] at hbit
          exact of_decide_eq_false hbit
        · have hres := hkind.2 hsigned
          omega
    have hfill : ¬ (source.isUnsigned = true ∨ source.base = .bool ∨
        operand.zero &&& signBit source ≠ 0) → operand.one &&& signBit source ≠ 0 → a < 0 := by
      intro hnot hset
      rw [not_or, not_or] at hnot
      have hbit := (ha.one _ ((and_ne_zero (getLsbD_signBit source)).mp hset)).2
      rw [(hkind.1 ⟨by simpa using hnot.1, hnot.2.1⟩).1] at hbit
      exact of_decide_eq_true hbit
    have hextension : ∀ n, (if width type > width source then mask type ^^^ mask source else 0).getLsbD n =
        true → width source ≤ n ∧ bit a n = decide (a < 0) := by
      intro n hn
      split at hn
      · rename_i hwider
        rw [BitVec.getLsbD_xor, getLsbD_mask, getLsbD_mask] at hn
        have hge : width source ≤ n := by
          by_contra hlt
          rw [decide_eq_true (by omega : n < width type), decide_eq_true (by omega : n < width source)] at hn
          cases hn
        have hrange := (fits_iff hsource).mp hfits
        have hwidth : width source = 8 := by
          rcases width_cases source with ⟨-, h16⟩ | ⟨-, h8⟩
          · rcases width_cases type with ⟨-, h16'⟩ | ⟨-, h8'⟩ <;> omega
          · exact h8
        have hbounds : -2 ^ 8 ≤ a ∧ a < 2 ^ 8 := by
          unfold unknown at hrange
          rw [hwidth] at hrange
          split at hrange
          · dsimp only at hrange
            omega
          · dsimp only at hrange
            split at hrange <;> omega
        rw [hwidth] at hge ⊢
        exact ⟨hge, bit_sign hge hbounds.1 hbounds.2⟩
      · simp at hn
    have hcovers : Covers
        { unknown type with
          zero := operand.zero &&& mask type |||
            if source.isUnsigned = true ∨ source.base = .bool ∨ operand.zero &&& signBit source ≠ 0 then
              if width type > width source then mask type ^^^ mask source else 0 else 0
          one := operand.one &&& mask type |||
            if ¬ (source.isUnsigned = true ∨ source.base = .bool ∨ operand.zero &&& signBit source ≠ 0) ∧
                operand.one &&& signBit source ≠ 0 then
              if width type > width source then mask type ^^^ mask source else 0 else 0 }
        type (convert a type) := by
      refine ⟨hunknown.low, hunknown.high, ?_, ?_⟩
      · intro n hn hset
        rw [bit_convert hs hbool hn]
        rw [BitVec.getLsbD_or, Bool.or_eq_true, BitVec.getLsbD_and, Bool.and_eq_true] at hset
        rcases hset with hset | hset
        · exact (ha.zero n hset.1).2
        · split at hset
          · rename_i hknown
            rw [(hextension n hset).2]
            exact decide_eq_false (hclear hknown)
          · simp at hset
      · intro n hn hset
        rw [bit_convert hs hbool hn]
        rw [BitVec.getLsbD_or, Bool.or_eq_true, BitVec.getLsbD_and, Bool.and_eq_true] at hset
        rcases hset with hset | hset
        · exact (ha.one n hset.1).2
        · split at hset
          · rename_i hknown
            rw [(hextension n hset).2]
            exact decide_eq_true (hfill hknown.1 hknown.2)
          · simp at hset
    exact bitBounds_admits hs hfit (within_covers hs ha.low ha.high hcovers ⟨rfl, rfl⟩)

theorem deriveBitExtract_admits (hs : scalar type = true) {n : Nat} (hn : n < 16)
    (hbool : type.base ≠ .bool) (ha : Admits operand source a) :
    Admits (deriveBitExtract operand n type) type
      (convert ((Arithmetic.pattern a).getLsbD n).toInt type) := by
  unfold deriveBitExtract
  split
  · rename_i hzero
    rw [pattern_zero ha hzero]
    exact literal_admits hs _
  split
  · rename_i hone
    rw [pattern_one ha hone]
    exact literal_admits hs _
  · have hfit := fits_convert ((Arithmetic.pattern a).getLsbD n).toInt type
    have hvalue : convert ((Arithmetic.pattern a).getLsbD n).toInt type =
        ((Arithmetic.pattern a).getLsbD n).toInt := by
      apply convert_of_bounds hs
      · unfold unknown
        rw [if_neg hbool]
        dsimp only
        cases (Arithmetic.pattern a).getLsbD n <;>
          rcases width_cases type with ⟨-, hwidth⟩ | ⟨-, hwidth⟩ <;> rw [hwidth] <;> split <;> decide
      · unfold unknown
        rw [if_neg hbool]
        dsimp only
        cases (Arithmetic.pattern a).getLsbD n <;>
          rcases width_cases type with ⟨-, hwidth⟩ | ⟨-, hwidth⟩ <;> rw [hwidth] <;> split <;> decide
    rw [hvalue] at hfit ⊢
    apply bitBounds_admits hs hfit
    have hsmall : ((Arithmetic.pattern a).getLsbD n).toInt = 0 ∨
        ((Arithmetic.pattern a).getLsbD n).toInt = 1 := by
      cases (Arithmetic.pattern a).getLsbD n
      · exact .inl rfl
      · exact .inr rfl
    refine ⟨by dsimp only; omega, by dsimp only; omega, ?_, ?_⟩
    · intro m hm hset
      have hpos : 1 ≤ m := by
        by_contra hlt
        have hzero : m = 0 := by omega
        subst hzero
        have hmask : (mask type ^^^ 1).getLsbD 0 = true := hset
        rw [BitVec.getLsbD_xor, getLsbD_mask, decide_eq_true hm] at hmask
        cases hmask
      rw [bit_sign (w := 1) hpos (by omega) (by omega)]
      exact decide_eq_false (by omega)
    · intro m _ hset
      simp at hset

theorem complement_admits (hs : scalar type = true) (hbool : type.base ≠ .bool)
    (ha : Admits operand source a) :
    Admits (bitBounds { unknown type with zero := operand.one, one := operand.zero } type) type
      (convert (~~~Arithmetic.pattern a).toNat type) := by
  apply bitBounds_admits hs (fits_convert _ _)
  apply bitwise_covers hs hbool
  · intro n _ hset
    rw [BitVec.getLsbD_not, pattern_one ha hset]
    simp
  · intro n hn hset
    rw [BitVec.getLsbD_not, pattern_zero ha hset, decide_eq_true (lt_width hn)]
    rfl

end Unary

end Fact

end Disco.IR
