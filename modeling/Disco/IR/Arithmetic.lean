import Disco.IR.ScalarFold

/-! # The arithmetic of scalar values

What a scalar instruction computes at run time, on the integers its operands
stand for: results are reduced to the instruction's type, quotients truncate
toward zero, the bitwise operations act on sixteen-bit patterns, a right shift
keeps the sign, and a zero divisor or a shift count outside `0 .. 15` stops the
program. The last section shows that folding agrees with it.
-/

namespace Disco.IR

/-- Why a scalar operation stops the program. -/
inductive Trap where
  | division
  | shift
  | operation
  deriving DecidableEq, Repr

namespace Arithmetic

/-- The sixteen-bit pattern of a value. -/
def pattern (value : Int) : BitVec 16 := BitVec.ofInt 16 value

def binary (operation : String) (a b : Int) : Except Trap Int :=
  match operation with
  | "+" => .ok (a + b)
  | "-" => .ok (a - b)
  | "*" => .ok (a * b)
  | "/" => if b = 0 then .error .division else .ok (a.tdiv b)
  | "%" => if b = 0 then .error .division else .ok (a.tmod b)
  | "&" => .ok (pattern a &&& pattern b).toNat
  | "|" => .ok (pattern a ||| pattern b).toNat
  | "^" => .ok (pattern a ^^^ pattern b).toNat
  | "<<" => if 0 ≤ b ∧ b ≤ 15 then .ok (a * 2 ^ b.toNat) else .error .shift
  | ">>" => if 0 ≤ b ∧ b ≤ 15 then .ok (a / 2 ^ b.toNat) else .error .shift
  | "==" => .ok (if a = b then 1 else 0)
  | "!=" => .ok (if a = b then 0 else 1)
  | "<" => .ok (if a < b then 1 else 0)
  | "<=" => .ok (if a ≤ b then 1 else 0)
  | ">" => .ok (if b < a then 1 else 0)
  | ">=" => .ok (if b ≤ a then 1 else 0)
  | _ => .error .operation

def unary (operation : String) (a : Int) : Except Trap Int :=
  match operation with
  | "-" => .ok (-a)
  | "!" => .ok (if a = 0 then 1 else 0)
  | "~" => .ok (~~~pattern a).toNat
  | _ => .error .operation

/-- The unreduced result of a scalar instruction. -/
def raw (effect : Effect) (a b : Int) : Except Trap Int :=
  match effect.opcode with
  | .binary => binary effect.operation a b
  | .unary => unary effect.operation a
  | .cast => .ok a
  | .bitExtract => .ok ((pattern a).getLsbD effect.immediate.toNat).toInt
  | _ => .error .operation

/-- The value of a scalar instruction. -/
def compute (effect : Effect) (a b : Int) : Except Trap Int :=
  (raw effect a b).map fun result => convert result effect.type

end Arithmetic

/-! ## Folding computes what the instruction computes -/

open ScalarFold Arithmetic

section Fold

/-- Two raw results that any scalar type reduces to the same value. -/
def SameReduced (left right : Int) : Prop :=
  left % 2 ^ 16 = right % 2 ^ 16 ∧ (left = 0 ↔ right = 0)

theorem convert_congr {left right : Int} {type : Ty} (hs : scalar type = true)
    (h : SameReduced left right) : convert left type = convert right type := by
  simp only [scalar, Bool.and_eq_true, decide_eq_true_eq] at hs
  have hp : ¬ type.pointerLevel > 0 := by omega
  unfold convert
  simp only [hp, if_false]
  by_cases hb : type.base = .bool
  · simp only [hb, if_true, ne_eq, h.2]
  · simp only [hb, if_false]
    apply wrap_congr
    have hmod := h.1
    by_cases hy : type.base = .byte
    · rw [if_pos hy]
      omega
    · rw [if_neg hy]
      exact hmod

theorem SameReduced.of_eq {left right : Int} (h : left = right) : SameReduced left right := by
  subst h
  exact ⟨rfl, Iff.rfl⟩

theorem pattern_toNat (value : Int) : (pattern value).toNat = unsigned value % 2 ^ 16 := by
  unfold pattern unsigned
  rw [BitVec.toNat_ofInt]
  omega

theorem and_mask (value : Nat) : value &&& 0xffff = value % 2 ^ 16 :=
  Nat.and_two_pow_sub_one_eq_mod value 16

/-- The sign-preserving shift, written with nonnegative quotients. -/
theorem shift_right_eq (a : Int) {d : Int} (hd : 0 < d) :
    (if a ≥ 0 then a.tdiv d else -((-a + d - 1).tdiv d)) = a / d := by
  split
  case isTrue h => exact Int.tdiv_eq_ediv_of_nonneg h
  case isFalse h =>
      rw [Int.tdiv_eq_ediv_of_nonneg (by omega)]
      have hlow := Int.emod_nonneg a (ne_of_gt hd)
      have hhigh := Int.emod_lt_of_pos a hd
      have hsplit := Int.emod_add_mul_ediv a d
      have hneg : -a + d - 1 = (d - 1 - a % d) + d * (-(a / d)) := by
        rw [mul_neg]
        omega
      rw [hneg, Int.add_mul_ediv_left _ _ (ne_of_gt hd),
        Int.ediv_eq_zero_of_lt (by omega) (by omega)]
      omega

/-- Shifting the low sixteen bits left is shifting the value, for a value of
sixteen bits. -/
theorem shift_left_sameReduced {a : Int} (hlow : -0x8000 ≤ a) (hhigh : a < 0x10000) (n : Nat) :
    SameReduced (Int.ofNat (unsigned a &&& 0xffff) * 2 ^ n) (a * 2 ^ n) := by
  have hmask : Int.ofNat (unsigned a &&& 0xffff) = a % 2 ^ 16 := by
    rw [and_mask]
    unfold unsigned
    simp only [Int.ofNat_eq_natCast]
    omega
  have hpow : (2 : Int) ^ n ≠ 0 := by positivity
  rw [hmask]
  constructor
  · rw [Int.mul_emod, Int.emod_emod, ← Int.mul_emod]
  · simp only [mul_eq_zero, hpow, or_false]
    omega

/-- The operations that folding knows. -/
theorem evaluateBinary_operation {operation : String} {a b x : Int}
    (h : evaluateBinary operation a b = some x) :
    operation = "+" ∨ operation = "-" ∨ operation = "*" ∨ operation = "/" ∨ operation = "%" ∨
      operation = "&" ∨ operation = "|" ∨ operation = "^" ∨ operation = "<<" ∨ operation = ">>" ∨
      operation = "==" ∨ operation = "!=" ∨ operation = "<" ∨ operation = "<=" ∨
      operation = ">" ∨ operation = ">=" := by
  by_contra hnone
  simp only [not_or] at hnone
  obtain ⟨h1, h2, h3, h4, h5, h6, h7, h8, h9, h10, h11, h12, h13, h14, h15, h16⟩ := hnone
  rw [evaluateBinary, if_neg h1, if_neg h2, if_neg h3, if_neg (not_or.mpr ⟨h4, h5⟩), if_neg h6,
    if_neg h7, if_neg h8, if_neg (not_or.mpr ⟨h9, h10⟩), if_neg h11, if_neg h12, if_neg h13,
    if_neg h14, if_neg h15, if_neg h16] at h
  cases h

theorem evaluateBinary_sound {operation : String} {a b x : Int}
    (ha : -0x8000 ≤ a ∧ a < 0x10000) (h : evaluateBinary operation a b = some x) :
    ∃ y, binary operation a b = .ok y ∧ SameReduced x y := by
  rcases evaluateBinary_operation h with
    rfl | rfl | rfl | rfl | rfl | rfl | rfl | rfl | rfl | rfl | rfl | rfl | rfl | rfl | rfl | rfl
  · cases h
    exact ⟨_, rfl, .of_eq rfl⟩
  · cases h
    exact ⟨_, rfl, .of_eq rfl⟩
  · cases h
    exact ⟨_, rfl, .of_eq rfl⟩
  -- division: folding leaves a zero divisor to the run-time check
  · change (if b = 0 then none else some (a.tdiv b)) = some x at h
    split at h
    case isTrue => cases h
    case isFalse hb =>
        cases h
        exact ⟨_, if_neg hb, .of_eq rfl⟩
  · change (if b = 0 then none else some (a.tmod b)) = some x at h
    split at h
    case isTrue => cases h
    case isFalse hb =>
        cases h
        exact ⟨_, if_neg hb, .of_eq rfl⟩
  -- bitwise operations: masking at the end or at the start is the same
  · cases h
    refine ⟨_, rfl, .of_eq ?_⟩
    rw [BitVec.toNat_and, pattern_toNat, pattern_toNat, and_mask, Nat.and_mod_two_pow]
    rfl
  · cases h
    refine ⟨_, rfl, .of_eq ?_⟩
    rw [BitVec.toNat_or, pattern_toNat, pattern_toNat, and_mask, Nat.or_mod_two_pow]
    rfl
  · cases h
    refine ⟨_, rfl, .of_eq ?_⟩
    rw [BitVec.toNat_xor, pattern_toNat, pattern_toNat, and_mask, Nat.xor_mod_two_pow]
    rfl
  -- shifts: the same counts are refused
  · change (if b < 0 ∨ b > 15 then none
      else some (Int.ofNat (unsigned a &&& 0xffff) * 2 ^ b.toNat)) = some x at h
    split at h
    case isTrue => cases h
    case isFalse hb =>
        cases h
        exact ⟨_, if_pos (by omega), shift_left_sameReduced ha.1 ha.2 b.toNat⟩
  · change (if b < 0 ∨ b > 15 then none
      else some (if a ≥ 0 then a.tdiv (2 ^ b.toNat)
        else -((-a + 2 ^ b.toNat - 1).tdiv (2 ^ b.toNat)))) = some x at h
    split at h
    case isTrue => cases h
    case isFalse hb =>
        cases h
        exact ⟨_, if_pos (by omega), .of_eq (shift_right_eq a (by positivity))⟩
  -- comparisons
  all_goals
    cases h
    refine ⟨_, rfl, .of_eq ?_⟩
    unfold truth
    simp only [decide_eq_true_eq, gt_iff_lt, ge_iff_le, ne_eq, decide_not, Bool.not_eq_true',
      decide_eq_false_iff_not, ite_not]

theorem evaluateUnary_sound {operation : String} {a x : Int}
    (h : evaluateUnary operation a = some x) :
    ∃ y, unary operation a = .ok y ∧ SameReduced x y := by
  unfold evaluateUnary at h
  split at h
  case isTrue ho =>
      subst ho
      cases h
      exact ⟨_, rfl, .of_eq rfl⟩
  split at h
  case isTrue ho =>
      subst ho
      cases h
      exact ⟨_, rfl, .of_eq (by simp [truth])⟩
  split at h
  case isTrue ho =>
      subst ho
      cases h
      refine ⟨_, rfl, .of_eq ?_⟩
      rw [BitVec.toNat_not, pattern_toNat, and_mask]
      have hlt : unsigned a < 2 ^ 64 := by
        unfold unsigned
        omega
      simp only [Int.ofNat_eq_natCast]
      omega
  cases h

/-- Bit `n` of a 64-bit integer, for a bit the sixteen-bit pattern has. -/
theorem bitExtract_eq (a : Int) {n : Nat} (hn : n < 16) :
    Int.ofNat ((unsigned a >>> n) &&& 1) = ((pattern a).getLsbD n).toInt := by
  have hbit : (pattern a).getLsbD n = (unsigned a).testBit n := by
    rw [BitVec.getLsbD, pattern_toNat, Nat.testBit_mod_two_pow]
    simp [hn]
  rw [hbit, Nat.testBit, Nat.and_comm]
  rcases Nat.mod_two_eq_zero_or_one (unsigned a >>> n) with h | h <;>
    simp [Nat.one_and_eq_mod_two, h]

theorem evaluateRaw_sound {i : Instruction} {a b x : Int}
    (ha : -0x8000 ≤ a ∧ a < 0x10000) (h : evaluateRaw i a b = some x) :
    ∃ y, raw i.effect a b = .ok y ∧ SameReduced x y := by
  unfold evaluateRaw at h
  unfold raw
  simp only [Instruction.effect]
  split at h
  case h_1 ho =>
      rw [ho]
      split at h
      case isTrue => cases h
      case isFalse hb =>
          cases h
          exact ⟨_, rfl, .of_eq (bitExtract_eq a (by omega))⟩
  case h_2 ho =>
      rw [ho]
      cases h
      exact ⟨_, rfl, .of_eq rfl⟩
  case h_3 ho =>
      rw [ho]
      exact evaluateUnary_sound h
  case h_4 ho =>
      rw [ho]
      exact evaluateBinary_sound ha h
  case h_5 => cases h

/-- Folding an instruction whose operands hold the given constants yields the
value the instruction has. -/
theorem evaluate_sound {i : Instruction} {operands : List Operand} {result : Int}
    (hrange : ∀ operand ∈ operands, convert operand.value operand.type = operand.value)
    (h : evaluate i operands = some result) :
    compute i.effect ((operands.map Operand.value).getD 0 0) ((operands.map Operand.value).getD 1 0) =
      .ok result := by
  unfold evaluate at h
  split at h
  case isTrue => cases h
  case isFalse hs =>
      simp only [not_or, not_exists, not_and, Bool.not_eq_false] at hs
      obtain ⟨hi, hne, -, hall⟩ := hs
      have hvalues : (operands.map fun operand => convert operand.value operand.type) =
          operands.map Operand.value := List.map_congr_left hrange
      rw [hvalues] at h
      simp only [Option.map_eq_some_iff] at h
      obtain ⟨x, hx, hr⟩ := h
      have hbounds : -0x8000 ≤ (operands.map Operand.value).getD 0 0 ∧
          (operands.map Operand.value).getD 0 0 < 0x10000 := by
        cases operands with
        | nil => exact absurd rfl hne
        | cons operand rest =>
            exact bounds_of_convert_eq (hall operand (by simp)) (hrange operand (by simp))
      obtain ⟨y, hy, hsame⟩ := evaluateRaw_sound hbounds hx
      rw [compute, hy, ← hr, convert_congr hi hsame]
      rfl

end Fold

end Disco.IR
