import Disco.Library.Checked

/-! # Byte readers and their encodings

A reader consumes a prefix of a byte string or aborts. An encoding is matched
to a reader in both directions: reading an encoding back returns the value and
leaves the tail (`Reads`), and whatever a reader accepts starts with the
encoding of the value it returned (`Decodes`). The two rules compose along
`bind`, so a record is handled field by field.
-/

namespace Disco.Library

abbrev Bytes := List UInt8

abbrev Reader (α : Type) := StateT Bytes (Except String) α

variable {α β : Type}

namespace Reader

theorem bind_run (x : Reader α) (f : α → Reader β) (bytes : Bytes) :
    (x >>= f) bytes = x bytes >>= fun p => f p.1 p.2 := rfl

theorem bind_eq_ok {x : Reader α} {f : α → Reader β} {bytes rest : Bytes} {r : β} :
    (x >>= f) bytes = .ok (r, rest) ↔
      ∃ a middle, x bytes = .ok (a, middle) ∧ f a middle = .ok (r, rest) := by
  rw [bind_run, Library.bind_eq_ok]
  constructor
  · rintro ⟨⟨a, middle⟩, hx, hf⟩
    exact ⟨a, middle, hx, hf⟩
  · rintro ⟨a, middle, hx, hf⟩
    exact ⟨(a, middle), hx, hf⟩

theorem bind_of_ok {x : Reader α} {bytes middle : Bytes} {a : α} (h : x bytes = .ok (a, middle))
    (f : α → Reader β) : (x >>= f) bytes = f a middle := by
  rw [bind_run, h]
  rfl

@[simp] theorem pure_run (a : α) (bytes : Bytes) : (pure a : Reader α) bytes = .ok (a, bytes) := rfl

/-- Check a condition without consuming input. -/
def check (bad : Prop) [Decidable bad] (message : String) : Reader Unit :=
  fun bytes => rejectIf bad message >>= fun _ => .ok ((), bytes)

@[simp] theorem check_eq_ok {bad : Prop} [Decidable bad] {message : String} {bytes rest : Bytes}
    {u : Unit} : check bad message bytes = .ok (u, rest) ↔ ¬ bad ∧ bytes = rest := by
  unfold check
  rw [rejectIf_bind_eq_ok]
  simp

theorem check_bind {bad : Prop} [Decidable bad] {message : String} (h : ¬ bad)
    (f : Unit → Reader β) (bytes : Bytes) : (check bad message >>= f) bytes = f () bytes :=
  bind_of_ok (check_eq_ok.mpr ⟨h, rfl⟩) f

/-- Run a check that reads no input. -/
def validated (x : Except String Unit) : Reader Unit := fun bytes => x >>= fun _ => .ok ((), bytes)

@[simp] theorem validated_eq_ok {x : Except String Unit} {bytes rest : Bytes} {u : Unit} :
    validated x bytes = .ok (u, rest) ↔ x = .ok () ∧ bytes = rest := by
  unfold validated
  rw [Library.bind_eq_ok, exists_unit]
  simp

/-- The number of bytes not yet consumed. -/
def remaining : Reader Nat := fun bytes => .ok (bytes.length, bytes)

@[simp] theorem remaining_run (bytes : Bytes) : remaining bytes = .ok (bytes.length, bytes) := rfl

/-- One byte. -/
def u8 (truncated : String) : Reader UInt8
  | [] => .error truncated
  | b :: rest => .ok (b, rest)

@[simp] theorem u8_cons (truncated : String) (b : UInt8) (rest : Bytes) :
    u8 truncated (b :: rest) = .ok (b, rest) := rfl

theorem u8_eq_ok {truncated : String} {bytes rest : Bytes} {b : UInt8} :
    u8 truncated bytes = .ok (b, rest) ↔ bytes = b :: rest := by
  cases bytes with
  | nil => simp [u8]
  | cons c cs => simp [u8]

/-- Four little-endian bytes. -/
def u32 (truncated : String) : Reader UInt32
  | b₀ :: b₁ :: b₂ :: b₃ :: rest =>
      .ok (b₀.toUInt32 ||| (b₁.toUInt32 <<< 8) ||| (b₂.toUInt32 <<< 16) |||
        (b₃.toUInt32 <<< 24), rest)
  | _ => .error truncated

/-- Exactly `count` bytes. -/
def take (count : Nat) (truncated : String) : Reader Bytes := fun bytes =>
  if count ≤ bytes.length then .ok (bytes.take count, bytes.drop count) else .error truncated

theorem take_append (xs rest : Bytes) (truncated : String) :
    take xs.length truncated (xs ++ rest) = .ok (xs, rest) := by
  simp [take]

theorem take_eq_ok {count : Nat} {truncated : String} {bytes xs rest : Bytes} :
    take count truncated bytes = .ok (xs, rest) ↔ xs.length = count ∧ bytes = xs ++ rest := by
  unfold take
  constructor
  · intro h
    split at h
    · rename_i hle
      simp only [Except.ok.injEq, Prod.mk.injEq] at h
      obtain ⟨rfl, rfl⟩ := h
      exact ⟨List.length_take_of_le hle, (List.take_append_drop count bytes).symm⟩
    · cases h
  · rintro ⟨rfl, rfl⟩
    simp

/-- `count` items in sequence. -/
def many (item : Reader α) : Nat → Reader (List α)
  | 0 => pure []
  | count + 1 => do
      let value ← item
      let values ← many item count
      pure (value :: values)

theorem many_append {item : Reader α} {encode : α → Bytes} (values : List α)
    (h : ∀ value ∈ values, ∀ rest, item (encode value ++ rest) = .ok (value, rest)) (rest : Bytes) :
    many item values.length (values.flatMap encode ++ rest) = .ok (values, rest) := by
  induction values with
  | nil => rfl
  | cons value values ih =>
      have hv := h value (by simp) (values.flatMap encode ++ rest)
      have ht := ih (fun v hm => h v (by simp [hm]))
      rw [List.flatMap_cons, List.append_assoc, List.length_cons, many, bind_of_ok hv,
        bind_of_ok ht]
      rfl

/-- Items that decode soundly do so as a list, and each one satisfies what its
reader establishes. -/
theorem many_sound {item : Reader α} {encode : α → Bytes} {P : α → Prop}
    (h : ∀ bytes value rest, item bytes = .ok (value, rest) → bytes = encode value ++ rest ∧ P value)
    {count : Nat} {bytes rest : Bytes} {values : List α}
    (hm : many item count bytes = .ok (values, rest)) :
    values.length = count ∧ bytes = values.flatMap encode ++ rest ∧ ∀ value ∈ values, P value := by
  induction count generalizing bytes values with
  | zero =>
      simp only [many, pure_run, Except.ok.injEq, Prod.mk.injEq] at hm
      obtain ⟨rfl, rfl⟩ := hm
      simp
  | succ count ih =>
      rw [many, bind_eq_ok] at hm
      obtain ⟨value, middle, hv, hm⟩ := hm
      rw [bind_eq_ok] at hm
      obtain ⟨tail, last, ht, hm⟩ := hm
      simp only [pure_run, Except.ok.injEq, Prod.mk.injEq] at hm
      obtain ⟨rfl, rfl⟩ := hm
      obtain ⟨hb, hp⟩ := h bytes value middle hv
      obtain ⟨hl, hbs, hps⟩ := ih ht
      refine ⟨by simp [hl], ?_, ?_⟩
      · rw [hb, hbs, List.flatMap_cons, List.append_assoc]
      · intro v hv
        rcases List.mem_cons.mp hv with rfl | hv
        · exact hp
        · exact hps v hv

/-- Records of at least `width` bytes bound their own count. -/
theorem length_mul_le_flatMap {encode : α → Bytes} {width : Nat} (values : List α)
    (h : ∀ value ∈ values, width ≤ (encode value).length) :
    values.length * width ≤ (values.flatMap encode).length := by
  induction values with
  | nil => simp
  | cons value values ih =>
      have hv := h value (by simp)
      have ht := ih (fun v hm => h v (by simp [hm]))
      rw [List.flatMap_cons, List.length_append, List.length_cons, Nat.succ_mul]
      omega

end Reader

/-! ## Little-endian words -/

/-- The four little-endian bytes of a word. -/
def encodeU32 (value : UInt32) : Bytes :=
  [(value &&& 0xff).toUInt8, ((value >>> 8) &&& 0xff).toUInt8,
    ((value >>> 16) &&& 0xff).toUInt8, ((value >>> 24) &&& 0xff).toUInt8]

@[simp] theorem encodeU32_length (value : UInt32) : (encodeU32 value).length = 4 := rfl

private theorem or_shiftLeft (low high k : Nat) (h : low < 2 ^ k) :
    low ||| high <<< k = low + 2 ^ k * high := by
  rw [Nat.or_comm, ← Nat.shiftLeft_add_eq_or_of_lt h, Nat.shiftLeft_eq, Nat.mul_comm, Nat.add_comm]

private theorem or_bytes (a b c d : Nat) (ha : a < 256) (hb : b < 256) (hc : c < 256) :
    a ||| b <<< 8 ||| c <<< 16 ||| d <<< 24 = a + 256 * b + 65536 * c + 16777216 * d := by
  rw [or_shiftLeft a b 8 (by omega), or_shiftLeft _ c 16 (by omega),
    or_shiftLeft _ d 24 (by omega)]
  omega

/-- The value of four little-endian bytes. -/
theorem u32_toNat (b₀ b₁ b₂ b₃ : UInt8) :
    (b₀.toUInt32 ||| (b₁.toUInt32 <<< 8) ||| (b₂.toUInt32 <<< 16) ||| (b₃.toUInt32 <<< 24)).toNat =
      b₀.toNat + 256 * b₁.toNat + 65536 * b₂.toNat + 16777216 * b₃.toNat := by
  have h₀ := b₀.toNat_lt
  have h₁ := b₁.toNat_lt
  have h₂ := b₂.toNat_lt
  have h₃ := b₃.toNat_lt
  rw [← or_bytes _ _ _ _ h₀ h₁ h₂]
  simp only [UInt32.toNat_or, UInt32.toNat_shiftLeft, UInt8.toNat_toUInt32]
  have e₁ : b₁.toNat <<< 8 % 4294967296 = b₁.toNat <<< 8 := by
    rw [Nat.shiftLeft_eq]
    omega
  have e₂ : b₂.toNat <<< 16 % 4294967296 = b₂.toNat <<< 16 := by
    rw [Nat.shiftLeft_eq]
    omega
  have e₃ : b₃.toNat <<< 24 % 4294967296 = b₃.toNat <<< 24 := by
    rw [Nat.shiftLeft_eq]
    omega
  simp [e₁, e₂, e₃]

private theorem encodeU32_byte (value : UInt32) (k : Nat) (hk : k < 32) :
    ((value >>> UInt32.ofNat k) &&& 0xff).toUInt8.toNat = value.toNat / 2 ^ k % 256 := by
  have hk' : (UInt32.ofNat k).toNat % 32 = k := by
    rw [UInt32.toNat_ofNat']
    omega
  have hmask : (255 : UInt32).toNat = 2 ^ 8 - 1 := rfl
  rw [UInt32.toNat_toUInt8, UInt32.toNat_and, UInt32.toNat_shiftRight, hk', hmask,
    Nat.and_two_pow_sub_one_eq_mod, Nat.shiftRight_eq_div_pow]
  omega

theorem encodeU32_bytes (value : UInt32) :
    (encodeU32 value).map UInt8.toNat =
      [value.toNat % 256, value.toNat / 256 % 256, value.toNat / 65536 % 256,
        value.toNat / 16777216 % 256] := by
  have h₀ := encodeU32_byte value 0 (by decide)
  have h₁ := encodeU32_byte value 8 (by decide)
  have h₂ := encodeU32_byte value 16 (by decide)
  have h₃ := encodeU32_byte value 24 (by decide)
  simp only [encodeU32, List.map_cons, List.map_nil]
  simp at h₀ h₁ h₂ h₃ ⊢
  exact ⟨h₀, h₁, h₂, h₃⟩

theorem Reader.u32_append (truncated : String) (value : UInt32) (rest : Bytes) :
    Reader.u32 truncated (encodeU32 value ++ rest) = .ok (value, rest) := by
  have hb := encodeU32_bytes value
  simp only [encodeU32, List.map_cons, List.map_nil, List.cons.injEq] at hb
  simp only [encodeU32, List.cons_append, List.nil_append, Reader.u32, Except.ok.injEq,
    Prod.mk.injEq, and_true]
  apply UInt32.toNat.inj
  rw [u32_toNat, hb.1, hb.2.1, hb.2.2.1, hb.2.2.2.1]
  have := value.toNat_lt
  omega

theorem Reader.u32_sound {truncated : String} {bytes rest : Bytes} {value : UInt32}
    (h : Reader.u32 truncated bytes = .ok (value, rest)) : bytes = encodeU32 value ++ rest := by
  match bytes with
  | b₀ :: b₁ :: b₂ :: b₃ :: tail =>
      simp only [Reader.u32, Except.ok.injEq, Prod.mk.injEq] at h
      obtain ⟨hv, rfl⟩ := h
      have hn := congrArg UInt32.toNat hv
      rw [u32_toNat] at hn
      have hb := encodeU32_bytes value
      have h₀ := b₀.toNat_lt
      have h₁ := b₁.toNat_lt
      have h₂ := b₂.toNat_lt
      have h₃ := b₃.toNat_lt
      have he : (encodeU32 value).map UInt8.toNat = [b₀, b₁, b₂, b₃].map UInt8.toNat := by
        rw [hb]
        simp only [List.map_cons, List.map_nil, List.cons.injEq, and_true]
        omega
      have := List.map_injective_iff.mpr (fun _ _ => UInt8.toNat.inj) he
      rw [this]
      rfl
  | [] => cases h
  | [_] => cases h
  | [_, _] => cases h
  | [_, _, _] => cases h

/-! ## Peeling an accepted sequence

One rule per primitive: what the rest of a successful reader ran on. Used
together they unfold a record reader into equations about its input.
-/

namespace Reader

theorem u32_eq_ok {truncated : String} {bytes rest : Bytes} {value : UInt32} :
    u32 truncated bytes = .ok (value, rest) ↔ bytes = encodeU32 value ++ rest := by
  constructor
  · exact u32_sound
  · intro h
    rw [h, u32_append]

theorem u8_bind_eq_ok {truncated : String} {f : UInt8 → Reader β} {bytes rest : Bytes} {r : β} :
    (u8 truncated >>= f) bytes = .ok (r, rest) ↔
      ∃ byte tail, bytes = byte :: tail ∧ f byte tail = .ok (r, rest) := by
  simp only [bind_eq_ok, u8_eq_ok]

theorem u32_bind_eq_ok {truncated : String} {f : UInt32 → Reader β} {bytes rest : Bytes} {r : β} :
    (u32 truncated >>= f) bytes = .ok (r, rest) ↔
      ∃ value tail, bytes = encodeU32 value ++ tail ∧ f value tail = .ok (r, rest) := by
  simp only [bind_eq_ok, u32_eq_ok]

theorem check_bind_eq_ok {bad : Prop} [Decidable bad] {message : String} {f : Unit → Reader β}
    {bytes rest : Bytes} {r : β} :
    (check bad message >>= f) bytes = .ok (r, rest) ↔ ¬ bad ∧ f () bytes = .ok (r, rest) := by
  simp only [bind_eq_ok, check_eq_ok, exists_unit, and_assoc, exists_and_left, exists_eq_left']

theorem validated_bind_eq_ok {x : Except String Unit} {f : Unit → Reader β} {bytes rest : Bytes}
    {r : β} :
    (validated x >>= f) bytes = .ok (r, rest) ↔ x = .ok () ∧ f () bytes = .ok (r, rest) := by
  simp only [bind_eq_ok, validated_eq_ok, exists_unit, and_assoc, exists_and_left, exists_eq_left']

theorem remaining_bind_run (f : Nat → Reader β) (bytes : Bytes) :
    (remaining >>= f) bytes = f bytes.length bytes := rfl

theorem pure_eq_ok {a r : α} {bytes rest : Bytes} :
    (pure a : Reader α) bytes = .ok (r, rest) ↔ a = r ∧ bytes = rest := by
  rw [pure_run, Except.ok.injEq, Prod.mk.injEq]

end Reader

end Disco.Library
