import Mathlib

/-! # UTF-8

A text is a list of scalar values; its encoding is the bytes of each in turn, as the core
library encodes them. Bytes encode a scalar exactly when the lead byte tells their number,
the others are continuation bytes, and the value that they carry is that of the scalar and
not too small for their number.
-/

namespace Disco.Library.Utf8

/-- The bytes of a text. -/
def encode (text : List Char) : List UInt8 := text.flatMap String.utf8EncodeChar

@[simp] theorem encode_nil : encode [] = [] := rfl

@[simp] theorem encode_cons (c : Char) (text : List Char) : encode (c :: text) = String.utf8EncodeChar c ++ encode text :=
  List.flatMap_cons

/-- A byte `10xxxxxx`. -/
def Continues (byte : UInt8) : Prop := byte.toNat / 64 = 2

/-- The value so far with the bits of more continuation bytes. -/
def gather (value : Nat) (bytes : List UInt8) : Nat := bytes.foldl (fun value byte => value * 64 + byte.toNat % 64) value

theorem gather_bounds (value : Nat) (bytes : List UInt8) :
    value * 64 ^ bytes.length ≤ gather value bytes ∧ gather value bytes < (value + 1) * 64 ^ bytes.length := by
  induction bytes generalizing value with
  | nil => simp [gather]
  | cons b bytes ih =>
      obtain ⟨hle, hlt⟩ := ih (value * 64 + b.toNat % 64)
      rw [List.length_cons, pow_succ', ← Nat.mul_assoc, ← Nat.mul_assoc]
      constructor
      · exact (Nat.mul_le_mul_right _ (by omega)).trans hle
      · exact hlt.trans_le (Nat.mul_le_mul_right _ (by omega))

variable {c : Char} {b₀ b₁ b₂ b₃ : UInt8}

theorem scalar_le (c : Char) : c.toNat ≤ 0x10ffff ∧ ¬ (0xd800 ≤ c.toNat ∧ c.toNat ≤ 0xdfff) := by
  have h := c.valid
  simp only [UInt32.isValidChar, Nat.isValidChar] at h
  have : c.val.toNat = c.toNat := rfl
  omega

/-- Every value outside the surrogates is a scalar. -/
theorem exists_scalar {n : Nat} (hle : n ≤ 0x10ffff) (hsurrogate : ¬ (0xd800 ≤ n ∧ n ≤ 0xdfff)) : ∃ c : Char, c.toNat = n := by
  refine ⟨Char.ofNat n, ?_⟩
  have : n.isValidChar := by
    unfold Nat.isValidChar
    omega
  rw [Char.toNat_ofNat, if_pos this]

theorem encode_one : String.utf8EncodeChar c = [b₀] ↔ c.toNat < 0x80 ∧ b₀.toNat = c.toNat := by
  have : c.val.toNat = c.toNat := rfl
  unfold String.utf8EncodeChar
  simp only [this]
  split_ifs <;> simp [← UInt8.toNat_inj] <;> omega

theorem encode_two : String.utf8EncodeChar c = [b₀, b₁] ↔
    b₀.toNat / 32 = 6 ∧ Continues b₁ ∧ 0x80 ≤ c.toNat ∧ c.toNat = b₀.toNat % 32 * 64 + b₁.toNat % 64 := by
  have : c.val.toNat = c.toNat := rfl
  unfold String.utf8EncodeChar Continues
  simp only [this]
  split_ifs <;> simp [← UInt8.toNat_inj] <;> omega

theorem encode_three : String.utf8EncodeChar c = [b₀, b₁, b₂] ↔
    b₀.toNat / 16 = 14 ∧ Continues b₁ ∧ Continues b₂ ∧ 0x800 ≤ c.toNat ∧
      c.toNat = (b₀.toNat % 16 * 64 + b₁.toNat % 64) * 64 + b₂.toNat % 64 := by
  have : c.val.toNat = c.toNat := rfl
  unfold String.utf8EncodeChar Continues
  simp only [this]
  split_ifs <;> simp [← UInt8.toNat_inj] <;> omega

theorem encode_four : String.utf8EncodeChar c = [b₀, b₁, b₂, b₃] ↔
    b₀.toNat / 8 = 30 ∧ Continues b₁ ∧ Continues b₂ ∧ Continues b₃ ∧ 0x10000 ≤ c.toNat ∧
      c.toNat = ((b₀.toNat % 8 * 64 + b₁.toNat % 64) * 64 + b₂.toNat % 64) * 64 + b₃.toNat % 64 := by
  have := scalar_le c
  have : c.val.toNat = c.toNat := rfl
  unfold String.utf8EncodeChar Continues
  simp only [this]
  split_ifs <;> simp [← UInt8.toNat_inj] <;> omega

/-- The least value that needs this number of continuation bytes. -/
def smallest (count : Nat) : Nat := if count = 1 then 0x80 else if count = 2 then 0x800 else 0x10000

@[simp] theorem smallest_one : smallest 1 = 0x80 := rfl

@[simp] theorem smallest_two : smallest 2 = 0x800 := rfl

@[simp] theorem smallest_three : smallest 3 = 0x10000 := rfl

/-- The sequences of several bytes, by the number of their continuation bytes. -/
theorem encode_sequence {first : UInt8} {tail : List UInt8} (hsome : tail ≠ []) (hle : tail.length ≤ 3) :
    String.utf8EncodeChar c = first :: tail ↔
      first.toNat / 2 ^ (6 - tail.length) = 2 ^ (tail.length + 2) - 2 ∧ (∀ b ∈ tail, Continues b) ∧
        smallest tail.length ≤ c.toNat ∧ c.toNat = gather (first.toNat % 2 ^ (6 - tail.length)) tail := by
  match tail, hsome with
  | [b₁], _ => simp [encode_two, gather, smallest]
  | [b₁, b₂], _ => simp [encode_three, gather, smallest, and_assoc]
  | [b₁, b₂, b₃], _ => simp [encode_four, gather, smallest, and_assoc]
  | _ :: _ :: _ :: _ :: _, _ => exact absurd hle (by simp)

theorem encode_length (c : Char) : 0 < (String.utf8EncodeChar c).length ∧ (String.utf8EncodeChar c).length ≤ 4 := by
  rw [String.length_utf8EncodeChar]
  exact ⟨c.utf8Size_pos, c.utf8Size_le_four⟩

/-- A byte below the continuation bytes is a whole character. -/
theorem encode_of_mem (h : b₀ ∈ String.utf8EncodeChar c) (hlt : b₀.toNat < 0x80) : b₀.toNat = c.toNat := by
  have hle := (encode_length c).2
  cases hc : String.utf8EncodeChar c with
  | nil => exact absurd hc String.utf8EncodeChar_ne_nil
  | cons first tail =>
      rw [hc] at h hle
      rw [List.length_cons] at hle
      by_cases hsome : tail = []
      · subst hsome
        obtain rfl := List.mem_singleton.mp h
        exact (encode_one.mp hc).2
      · obtain ⟨hfirst, htail, -⟩ := (encode_sequence hsome (by omega)).mp hc
        have hpos : 0 < tail.length := List.length_pos_iff.mpr hsome
        rcases List.mem_cons.mp h with rfl | h
        · obtain h | h | h : tail.length = 1 ∨ tail.length = 2 ∨ tail.length = 3 := by omega
          all_goals
            rw [h] at hfirst
            omega
        · have hcontinues : b₀.toNat / 64 = 2 := htail b₀ h
          omega

/-- Where bytes begin with a character, it is determined by them. -/
theorem encode_append_inj {c' : Char} {rest rest' : List UInt8}
    (h : String.utf8EncodeChar c ++ rest = String.utf8EncodeChar c' ++ rest') : c = c' ∧ rest = rest' := by
  have hdecode (c : Char) (rest : List UInt8) : (String.utf8EncodeChar c ++ rest).toByteArray.utf8DecodeChar? 0 = some c := by
    rw [List.toByteArray_append, ← List.utf8Encode_singleton]
    exact List.utf8DecodeChar?_utf8Encode_singleton_append
  have hsame := hdecode c rest
  rw [h, hdecode, Option.some.injEq] at hsame
  subst hsame
  exact ⟨rfl, List.append_cancel_left h⟩

/-- A text that begins with the bytes of a character begins with that character. -/
theorem encode_eq_append {rest : List UInt8} {text : List Char} (h : encode text = String.utf8EncodeChar c ++ rest) :
    ∃ text', text = c :: text' ∧ encode text' = rest := by
  cases text with
  | nil => simp at h
  | cons d text =>
      rw [encode_cons] at h
      obtain ⟨rfl, rfl⟩ := encode_append_inj h
      exact ⟨text, rfl, rfl⟩

theorem encode_injective {text text' : List Char} (h : encode text = encode text') : text = text' := by
  induction text generalizing text' with
  | nil =>
      cases text' with
      | nil => rfl
      | cons c text' => simp at h
  | cons c text ih =>
      obtain ⟨rest, rfl, hrest⟩ := encode_eq_append h.symm
      rw [ih hrest.symm]

end Disco.Library.Utf8
