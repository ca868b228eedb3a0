import Disco.Project.ManifestReader
import Disco.Library.Utf8

/-! # The text of a manifest

The reader ends on every source, and what it accepts is the UTF-8 encoding of a text
without stray control characters and bare carriage returns.
-/

namespace Disco.Project.Reader

open Library Utf8

variable {α β : Type}

/-! ## Passing over bytes -/

/-- The cursor behind a prefix of what is left. -/
def Cursor.skip (s : Cursor) (passed : Name) : Cursor := ⟨passed.foldl after s.position, s.rest.drop passed.length⟩

@[simp] theorem atEnd_run (s : Cursor) : atEnd s = .ok (s.rest.isEmpty, s) := rfl

@[simp] theorem peek_run (s : Cursor) : peek s = .ok (s.rest.headD 0, s) := rfl

@[simp] theorem position_run (s : Cursor) : position s = .ok (s.position, s) := rfl

@[simp] theorem advance_cons (at' : Position) (c : UInt8) (rest : Name) :
    advance ⟨at', c :: rest⟩ = .ok (c, ⟨after at' c, rest⟩) := rfl

theorem refuseIf_of_not {bad : Prop} [Decidable bad] (h : ¬ bad) (message : String) : refuseIf bad message = pure () := by
  rw [refuseIf, if_neg h]

theorem refuseIf_of {bad : Prop} [Decidable bad] (h : bad) (message : String) : refuseIf bad message = fail message := by
  rw [refuseIf, if_pos h]

theorem passTurn_pos {p : UInt8 → Bool} {c : UInt8} (hp : p c = true) (passed rest : Name) (at' : Position) :
    passTurn p passed ⟨at', c :: rest⟩ = .ok (.inl (passed ++ [c]), ⟨after at' c, rest⟩) := by
  simp only [passTurn, Scan.bind_run, atEnd_run, peek_run, ok_bind, List.isEmpty_cons, List.headD_cons, hp, and_self, if_true,
    advance_cons, Scan.pure_run]

theorem passTurn_neg {p : UInt8 → Bool} {s : Cursor} (hp : ∀ c ∈ s.rest.head?, p c = false) (passed : Name) :
    passTurn p passed s = .ok (.inr passed, s) := by
  obtain ⟨at', _ | ⟨c, rest⟩⟩ := s
  · simp [passTurn, Scan.bind_run]
  · have : p c = false := hp c rfl
    simp [passTurn, Scan.bind_run, this]

/-- The bytes passed over are the longest prefix that satisfies the condition. -/
theorem passWhile_run (p : UInt8 → Bool) (s : Cursor) :
    passWhile p s = .ok (s.rest.takeWhile p, s.skip (s.rest.takeWhile p)) := by
  obtain ⟨at', rest⟩ := s
  suffices hrun : ∀ (passed : Name) (at' : Position) (fuel : Nat), rest.length < fuel →
      Scan.iterate (passTurn p) Failure.unfinished fuel passed ⟨at', rest⟩ =
        .ok (passed ++ rest.takeWhile p, Cursor.skip ⟨at', rest⟩ (rest.takeWhile p)) from
    hrun [] at' _ (Nat.lt_succ_self _)
  intro passed at' fuel hfuel
  induction rest generalizing passed at' fuel with
  | nil =>
      obtain ⟨fuel, rfl⟩ := Nat.exists_eq_succ_of_ne_zero (show fuel ≠ 0 by omega)
      rw [Scan.iterate_of_inr (passTurn_neg (by simp) passed)]
      simp [Cursor.skip]
  | cons c rest ih =>
      obtain ⟨fuel, rfl⟩ := Nat.exists_eq_succ_of_ne_zero (show fuel ≠ 0 by omega)
      have hlt : rest.length < fuel := by simpa using hfuel
      cases hp : p c with
      | true =>
          rw [Scan.iterate_of_inl (passTurn_pos hp passed rest at'), ih _ _ _ hlt]
          simp [hp, Cursor.skip]
      | false =>
          rw [Scan.iterate_of_inr (passTurn_neg (by simp [hp]) passed)]
          simp [hp, Cursor.skip]

/-! ## The reader ends -/

/-- The scanner does not leave a loop unfinished and passes over at least `k` bytes. -/
abbrev Passes (k : α → Nat) (x : Reading α) : Prop := Scan.Spends (fun s : Cursor => s.rest.length) .unfinished k x

theorem fail_passes {k : α → Nat} (message : String) : Passes k (fail message) := by
  intro s
  simp [fail, Ends]

theorem refuseIf_passes (bad : Prop) [Decidable bad] (message : String) : Passes (fun _ => 0) (refuseIf bad message) :=
  Scan.Spends.ite (fun _ => fail_passes message) fun _ => Scan.Spends.pure rfl

theorem atEnd_passes : Passes (fun _ => 0) atEnd := fun s => Nat.le_refl _

theorem peek_passes : Passes (fun _ => 0) peek := fun s => Nat.le_refl _

theorem position_passes : Passes (fun _ => 0) position := fun s => Nat.le_refl _

theorem advance_passes : Passes (fun _ => 1) advance := by
  rintro ⟨at', _ | ⟨c, rest⟩⟩
  · exact fail_passes (k := fun _ : UInt8 => 1) _ _
  · simp [Ends]

theorem loop_passes {turn : α → Reading (α ⊕ β)} {k : β → Nat} (hturn : ∀ a, Passes (Sum.elim (fun _ => 1) k) (turn a)) (a : α) :
    Passes k (loop turn a) := fun _ => Scan.Spends.iterate hturn (Nat.lt_succ_self _)

theorem passWhile_passes (p : UInt8 → Bool) : Passes (fun _ => 0) (passWhile p) := by
  intro s
  rw [passWhile_run]
  simp [Ends, Cursor.skip]

theorem horizontal_passes : Passes (fun _ => 0) horizontal := (passWhile_passes _).bind fun _ => Scan.Spends.pure rfl

theorem comment_passes : Passes (fun _ => 0) comment := by
  refine peek_passes.bind fun c => Scan.Spends.ite (fun _ => ?_) fun _ => Scan.Spends.pure rfl
  exact (passWhile_passes _).bind fun _ => Scan.Spends.pure rfl

theorem require_passes (c : UInt8) (message : String) : Passes (fun _ => 1) (require c message) := by
  refine horizontal_passes.bind fun _ => peek_passes.bind fun next => atEnd_passes.bind fun ended => ?_
  refine (refuseIf_passes _ _).bind fun _ => ?_
  exact advance_passes.first (fun _ => Scan.Spends.pure rfl) fun _ => Nat.le_refl _

theorem newline_passes : Passes (fun _ => 1) newline := by
  refine peek_passes.bind fun c => ?_
  refine Scan.Spends.bind (Scan.Spends.ite (fun _ => advance_passes.mono fun _ => Nat.zero_le _) fun _ => Scan.Spends.pure rfl) fun _ => ?_
  exact require_passes _ _

theorem skipLines_passes : Passes (fun _ => 0) skipLines := by
  refine loop_passes (fun _ => ?_) ()
  refine horizontal_passes.bind fun _ => comment_passes.bind fun _ => peek_passes.bind fun c => ?_
  refine Scan.Spends.ite (fun _ => Scan.Spends.pure rfl) fun _ => ?_
  exact newline_passes.first (fun _ => Scan.Spends.pure rfl) (by rintro (_ | _) <;> simp)

theorem finishLine_passes : Passes (fun _ => 0) finishLine := by
  refine horizontal_passes.bind fun _ => comment_passes.bind fun _ => atEnd_passes.bind fun ended => ?_
  exact Scan.Spends.ite (fun _ => Scan.Spends.pure rfl) fun _ => newline_passes.mono fun _ => Nat.zero_le _

/-- A part of a key has a byte: the one that was looked at. -/
theorem keyPart_passes (result : Name) : Passes (fun _ => 1) (keyPart result) := by
  intro s
  obtain ⟨at', rest⟩ := s
  unfold keyPart
  rw [Scan.bind_of_ok (peek_run _)]
  by_cases hbare : bare (rest.headD 0) = false
  · rw [refuseIf_of hbare]
    exact (fail_passes (k := fun _ : Unit => 0) _).bind (m := fun _ : Name ⊕ Name => 1) (fun _ => fail_passes "") ⟨at', rest⟩
  · rw [refuseIf_of_not hbare, pure_bind, Scan.bind_of_ok (passWhile_run _ _)]
    cases rest with
    | nil => exact absurd rfl hbare
    | cons c rest =>
        simp only [List.headD_cons, Bool.not_eq_false] at hbare
        simp only [List.takeWhile_cons, hbare, if_true]
        set t : Cursor := Cursor.skip ⟨at', c :: rest⟩ (c :: rest.takeWhile bare) with ht
        have hlt : t.rest.length + 1 ≤ (c :: rest).length := by simp [ht, Cursor.skip]
        have hends : Passes (fun _ => 0) (do
            horizontal
            let c' ← peek
            if c' ≠ '.'.toUInt8 then pure (.inr (result ++ c :: rest.takeWhile bare))
            else do
              let dot ← advance
              horizontal
              pure (.inl (result ++ (c :: rest.takeWhile bare) ++ [dot])) : Reading (Name ⊕ Name)) := by
          refine horizontal_passes.bind fun _ => peek_passes.bind fun c => Scan.Spends.ite (fun _ => Scan.Spends.pure rfl) fun _ => ?_
          refine (advance_passes.mono fun _ => Nat.zero_le _).bind fun _ => horizontal_passes.bind fun _ => Scan.Spends.pure rfl
        refine (hends t).mono fun p hp => ?_
        simp only at hp hlt ⊢
        omega

theorem key_passes : Passes (fun _ => 1) key := by
  refine horizontal_passes.bind fun _ => ?_
  refine (loop_passes (k := fun _ => 1) (fun result => (keyPart_passes result).mono ?_) []).first (fun _ => ?_) fun _ => Nat.le_refl _
  · rintro (_ | _) <;> simp
  · exact (refuseIf_passes _ _).bind fun _ => Scan.Spends.pure rfl

theorem hexadecimal_passes (count : Nat) (point : UInt32) : Passes (fun _ => 0) (hexadecimal count point) := by
  induction count generalizing point with
  | zero => exact Scan.Spends.pure rfl
  | succ count ih =>
      refine (advance_passes.mono fun _ => Nat.zero_le _).bind fun c => (refuseIf_passes _ _).bind fun _ => ih _

theorem unicode_passes (count : Nat) : Passes (fun _ => 0) (unicode count) :=
  (hexadecimal_passes count 0).bind fun _ => (refuseIf_passes _ _).bind fun _ => Scan.Spends.pure rfl

theorem escape_passes : Passes (fun _ => 0) escape := by
  refine (advance_passes.mono fun _ => Nat.zero_le _).bind fun escaped => ?_
  iterate 7 refine Scan.Spends.ite (fun _ => Scan.Spends.pure rfl) fun _ => ?_
  exact Scan.Spends.ite (fun _ => unicode_passes 4) fun _ => Scan.Spends.ite (fun _ => unicode_passes 8) fun _ => fail_passes _

theorem stringTurn_passes (quote : UInt8) (result : Name) : Passes (Sum.elim (fun _ => 1) fun _ => 0) (stringTurn quote result) := by
  refine atEnd_passes.bind fun ended => peek_passes.bind fun c => Scan.Spends.ite (fun _ => Scan.Spends.pure rfl) fun _ => ?_
  refine advance_passes.first (fun c => ?_) (by rintro (_ | _) <;> simp)
  refine (refuseIf_passes _ _).bind fun _ => ?_
  refine Scan.Spends.bind (Scan.Spends.ite (fun _ => Scan.Spends.pure rfl) fun _ => escape_passes) fun decoded => ?_
  exact (refuseIf_passes _ _).bind fun _ => Scan.Spends.pure rfl

theorem string_passes : Passes (fun _ => 1) string := by
  refine advance_passes.first (fun quote => ?_) fun _ => Nat.le_refl _
  refine (loop_passes (stringTurn_passes quote) []).bind fun result => ?_
  exact (require_passes _ _).first (fun _ => Scan.Spends.pure rfl) fun _ => Nat.zero_le _

theorem digits_passes (radix limit : UInt64) (text : Name) (value : UInt64) (previousDigit : Bool) :
    Passes (fun _ => 0) (digits radix limit text value previousDigit) := by
  induction text generalizing value previousDigit with
  | nil => exact (refuseIf_passes _ _).bind fun _ => Scan.Spends.pure rfl
  | cons c rest ih =>
      refine Scan.Spends.ite (fun _ => ?_) fun _ => ?_
      · exact (refuseIf_passes _ _).bind fun _ => ih _ _
      · exact (refuseIf_passes _ _).bind fun _ => (refuseIf_passes _ _).bind fun _ => ih _ _

theorem radixOf_passes (signedToken : Bool) (text : Name) : Passes (fun _ => 0) (radixOf signedToken text) := by
  unfold radixOf
  split
  · refine Scan.Spends.ite (fun _ => Scan.Spends.ite (fun _ => ?_) fun _ => fail_passes _) fun _ => Scan.Spends.pure rfl
    exact (refuseIf_passes _ _).bind fun _ => Scan.Spends.pure rfl
  · exact Scan.Spends.pure rfl

theorem integer_passes (text : Name) : Passes (fun _ => 0) (integer text) := by
  refine (refuseIf_passes _ _).bind fun _ => (radixOf_passes _ _).bind fun p => (digits_passes _ _ _ _ _).bind fun value => ?_
  exact Scan.Spends.ite (fun _ => Scan.Spends.pure rfl) fun _ => Scan.Spends.pure rfl

theorem entry_passes (strings : List Name) : Passes (Sum.elim (fun _ => 1) fun _ => 0) (entry strings) := by
  refine peek_passes.bind fun c => Scan.Spends.ite (fun _ => Scan.Spends.pure rfl) fun _ => ?_
  refine (refuseIf_passes _ _).bind fun _ => (refuseIf_passes _ _).bind fun _ => ?_
  refine string_passes.first (fun text => ?_) (by rintro (_ | _) <;> simp)
  refine skipLines_passes.bind fun _ => peek_passes.bind fun c => Scan.Spends.ite (fun _ => Scan.Spends.pure rfl) fun _ => ?_
  exact (require_passes _ _).first (fun _ => skipLines_passes.bind fun _ => Scan.Spends.pure rfl) fun _ => Nat.zero_le _

theorem readValue_passes : Passes (fun _ => 0) readValue := by
  refine position_passes.bind fun position => peek_passes.bind fun c => Scan.Spends.ite (fun _ => ?_) fun _ => Scan.Spends.ite (fun _ => ?_) fun _ => ?_
  · exact string_passes.first (fun _ => Scan.Spends.pure rfl) fun _ => Nat.zero_le _
  · refine advance_passes.first (fun _ => ?_) fun _ => Nat.zero_le _
    refine skipLines_passes.bind fun _ => (loop_passes entry_passes []).bind fun strings => ?_
    exact (require_passes _ _).first (fun _ => Scan.Spends.pure rfl) fun _ => Nat.zero_le _
  · refine (passWhile_passes _).bind fun text => Scan.Spends.ite (fun _ => Scan.Spends.pure rfl) fun _ => ?_
    exact (integer_passes text).bind fun _ => Scan.Spends.pure rfl

theorem header_passes (s : Tables) : Passes (fun _ => 1) (header s) := by
  refine advance_passes.first (fun _ => ?_) fun _ => Nat.le_refl _
  refine peek_passes.bind fun c => (refuseIf_passes _ _).bind fun _ => ?_
  refine (key_passes.mono fun _ => Nat.zero_le _).bind fun table => ?_
  refine ((require_passes _ _).mono fun _ => Nat.zero_le _).bind fun _ => ?_
  refine (refuseIf_passes _ _).bind fun _ => (refuseIf_passes _ _).bind fun _ => (refuseIf_passes _ _).bind fun _ => ?_
  exact finishLine_passes.bind fun _ => Scan.Spends.pure rfl

theorem assignment_passes (s : Tables) : Passes (fun _ => 1) (assignment s) := by
  refine key_passes.first (fun name => ?_) fun _ => Nat.le_refl _
  refine (refuseIf_passes _ _).bind fun _ => ((require_passes _ _).mono fun _ => Nat.zero_le _).bind fun _ => ?_
  refine horizontal_passes.bind fun _ => readValue_passes.bind fun value => ?_
  refine (refuseIf_passes _ _).bind fun _ => (refuseIf_passes _ _).bind fun _ => ?_
  exact finishLine_passes.bind fun _ => Scan.Spends.pure rfl

theorem readTurn_passes (s : Tables) : Passes (Sum.elim (fun _ => 1) fun _ => 0) (readTurn s) := by
  refine atEnd_passes.bind fun ended => Scan.Spends.ite (fun _ => Scan.Spends.pure rfl) fun _ => peek_passes.bind fun c => ?_
  refine Scan.Spends.first (Scan.Spends.ite (fun _ => header_passes s) fun _ => assignment_passes s) (fun s => ?_)
    (by rintro (_ | _) <;> simp)
  exact skipLines_passes.bind fun _ => Scan.Spends.pure rfl

theorem readTables_passes (values : List (Name × Value)) : Passes (fun _ => 0) (readTables values) :=
  skipLines_passes.bind fun _ => loop_passes readTurn_passes _

/-! ## Sequences of bytes -/

theorem continues_iff (b : UInt8) : b &&& 0xc0 = 0x80 ↔ Continues b := by
  have h : ∀ n : Fin 256, UInt8.ofNat n &&& 0xc0 = 0x80 ↔ n.val / 64 = 2 := by decide +kernel
  simpa [Continues] using h ⟨b.toNat, b.toNat_lt⟩

/-- Six more bits behind a value that leaves room for them. -/
theorem toNat_shifted {point : UInt32} (b : UInt8) (hroom : point.toNat * 64 < 2 ^ 32) :
    (point <<< 6 ||| (b &&& 63).toUInt32).toNat = point.toNat * 64 + b.toNat % 64 := by
  have hmask : b.toNat &&& 63 = b.toNat % 64 := Nat.and_two_pow_sub_one_eq_mod _ 6
  have hlt : b.toNat % 64 < 2 ^ 6 := Nat.mod_lt _ (by norm_num)
  simp only [UInt32.toNat_or, UInt32.toNat_shiftLeft, UInt8.toNat_toUInt32, UInt8.toNat_and]
  rw [show (6 : UInt32).toNat % 32 = 6 from rfl, show (63 : UInt8).toNat = 63 from rfl, hmask, Nat.shiftLeft_eq,
    Nat.mod_eq_of_lt (by omega), Nat.mul_comm, ← Nat.two_pow_add_eq_or_of_lt hlt]

theorem toNat_lead (first : UInt8) {length : Nat} (h : length = 2 ∨ length = 3 ∨ length = 4) :
    (first.toUInt32 &&& (0x7f >>> length.toUInt32)).toNat = first.toNat % 2 ^ (7 - length) := by
  rcases h with rfl | rfl | rfl
  · exact Nat.and_two_pow_sub_one_eq_mod first.toNat 5
  · exact Nat.and_two_pow_sub_one_eq_mod first.toNat 4
  · exact Nat.and_two_pow_sub_one_eq_mod first.toNat 3

theorem sequenceLength_cases (first : UInt8) :
    sequenceLength first = 4 ∧ 0xf0 ≤ first.toNat ∧ first.toNat ≤ 0xf4 ∨
    sequenceLength first = 3 ∧ 0xe0 ≤ first.toNat ∧ first.toNat ≤ 0xef ∨
    sequenceLength first = 2 ∧ 0xc2 ≤ first.toNat ∧ first.toNat ≤ 0xdf ∨
    sequenceLength first = 0 ∧ (first.toNat < 0xc2 ∨ 0xf4 < first.toNat) := by
  unfold sequenceLength
  simp only [UInt8.le_iff_toNat_le, UInt8.reduceToNat]
  split_ifs <;> simp <;> omega

theorem unrepresentable_iff (length : Nat) (point : UInt32) : unrepresentable length point ↔
    0x10ffff < point.toNat ∨ (0xd800 ≤ point.toNat ∧ point.toNat ≤ 0xdfff) ∨
      point.toNat < (if length = 2 then 0x80 else if length = 3 then 0x800 else 0x10000) := by
  unfold unrepresentable
  split_ifs <;> simp [UInt32.lt_iff_toNat_lt, UInt32.le_iff_toNat_le]

/-- The loop over continuation bytes fails at one that is none. -/
theorem continuations_invalid (source : Name) {bytes : Name} (h : ¬ ∀ b ∈ bytes, Continues b) (index : Nat) (point : UInt32) :
    ∃ at', continuations source index bytes point = .error (.manifest at' "Invalid UTF-8.") := by
  induction bytes generalizing index point with
  | nil => exact absurd (by simp) h
  | cons b bytes ih =>
      unfold continuations
      by_cases hb : b &&& 0xc0 = 0x80
      · rw [if_neg (not_not.mpr hb)]
        refine ih (fun hbytes => h ?_) _ _
        simpa [(continues_iff b).mp hb] using hbytes
      · rw [if_pos hb]
        exact ⟨_, rfl⟩

theorem continuations_run (source : Name) {bytes : Name} (h : ∀ b ∈ bytes, Continues b) (index : Nat) (point : UInt32)
    (hroom : (point.toNat + 1) * 64 ^ bytes.length ≤ 2 ^ 32) :
    ∃ r, continuations source index bytes point = .ok r ∧ r.toNat = gather point.toNat bytes := by
  induction bytes generalizing index point with
  | nil => exact ⟨point, rfl, rfl⟩
  | cons b bytes ih =>
      have hb : b &&& 0xc0 = 0x80 := (continues_iff b).mpr (h b List.mem_cons_self)
      have hpos : 1 ≤ 64 ^ bytes.length := Nat.one_le_pow _ _ (by norm_num)
      rw [List.length_cons, pow_succ, Nat.mul_comm _ 64, ← Nat.mul_assoc] at hroom
      have hvalue := @toNat_shifted point b (by nlinarith)
      unfold continuations
      rw [if_neg (not_not.mpr hb)]
      obtain ⟨r, hr, hgather⟩ := ih (fun b' hb' => h b' (List.mem_cons_of_mem _ hb')) (index + 1) _ (by
        rw [hvalue]
        refine (Nat.mul_le_mul_right _ ?_).trans hroom
        omega)
      exact ⟨r, hr, by rw [hgather, hvalue]; rfl⟩

/-- The bytes behind a first byte complete a character exactly when the code point that they carry is representable. -/
theorem sequence_iff {first : UInt8} {tail : Name} {point : UInt32} (htail : ∀ b ∈ tail, Continues b) (hsome : tail ≠ [])
    (hlength : sequenceLength first = tail.length + 1) (hpoint : point.toNat = gather (first.toNat % 2 ^ (6 - tail.length)) tail) :
    ¬ unrepresentable (tail.length + 1) point ↔ ∃ c, String.utf8EncodeChar c = first :: tail := by
  have hpos : 0 < tail.length := List.length_pos_iff.mpr hsome
  have hcases := sequenceLength_cases first
  have hfirst : first.toNat / 2 ^ (6 - tail.length) = 2 ^ (tail.length + 2) - 2 := by
    obtain h | h | h : tail.length = 1 ∨ tail.length = 2 ∨ tail.length = 3 := by omega
    all_goals
      rw [h] at hlength ⊢
      omega
  have hsmallest : smallest tail.length =
      if tail.length + 1 = 2 then 0x80 else if tail.length + 1 = 3 then 0x800 else 0x10000 := by
    simp [smallest]
  rw [unrepresentable_iff, ← hsmallest]
  simp only [encode_sequence hsome (show tail.length ≤ 3 by omega)]
  constructor
  · intro hvalid
    obtain ⟨c, hc⟩ := exists_scalar (n := point.toNat) (by omega) (by omega)
    exact ⟨c, hfirst, htail, by omega, by omega⟩
  · rintro ⟨c, -, -, hle, hc⟩
    have := scalar_le c
    omega

theorem sequenceLength_of_encode {c : Char} {first : UInt8} {tail : Name} (h : String.utf8EncodeChar c = first :: tail)
    (hsome : tail ≠ []) : sequenceLength first = tail.length + 1 := by
  have hpos : 0 < tail.length := List.length_pos_iff.mpr hsome
  have hle := (encode_length c).2
  rw [h, List.length_cons] at hle
  obtain ⟨hfirst, hcontinues, hsmall, hvalue⟩ := (encode_sequence hsome (by omega)).mp h
  have hscalar := scalar_le c
  have hcases := sequenceLength_cases first
  have hbounds := gather_bounds (first.toNat % 2 ^ (6 - tail.length)) tail
  obtain h | h | h : tail.length = 1 ∨ tail.length = 2 ∨ tail.length = 3 := by omega
  all_goals
    simp only [h, smallest_one, smallest_two, smallest_three] at *
    omega

/-- A sequence of the length that its first byte tells is validated exactly when it is a character. -/
theorem validateSequence_run (source rest : Name) (index : Nat) {first : UInt8} {tail : Name} (hsome : tail ≠ [])
    (hlength : sequenceLength first = tail.length + 1) :
    ((∃ c, String.utf8EncodeChar c = first :: tail) →
      validateSequence source index first (tail ++ rest) = .ok (some (index + (tail.length + 1)))) ∧
    ((¬ ∃ c, String.utf8EncodeChar c = first :: tail) →
      ∃ at', validateSequence source index first (tail ++ rest) = .error (.manifest at' "Invalid UTF-8.")) := by
  have hpos : 0 < tail.length := List.length_pos_iff.mpr hsome
  have hcases := sequenceLength_cases first
  have hlead := toNat_lead first (show tail.length + 1 = 2 ∨ tail.length + 1 = 3 ∨ tail.length + 1 = 4 by omega)
  rw [show 7 - (tail.length + 1) = 6 - tail.length by omega] at hlead
  unfold validateSequence
  simp only [hlength, Nat.add_sub_cancel, List.length_append, List.take_left]
  rw [if_neg (by omega)]
  by_cases htail : ∀ b ∈ tail, Continues b
  · obtain ⟨point, hpoint, hvalue⟩ := continuations_run source htail (index + 1)
      (first.toUInt32 &&& (0x7f >>> (tail.length + 1).toUInt32)) (by
        rw [hlead]
        obtain h | h | h : tail.length = 1 ∨ tail.length = 2 ∨ tail.length = 3 := by omega
        all_goals
          rw [h]
          omega)
    rw [hlead] at hvalue
    rw [hpoint, ok_bind, ← sequence_iff htail hsome hlength hvalue]
    constructor
    · intro h
      rw [if_neg h]
      rfl
    · intro h
      rw [if_pos (not_not.mp h)]
      exact ⟨_, rfl⟩
  · obtain ⟨at', herror⟩ := continuations_invalid source htail (index + 1) (first.toUInt32 &&& (0x7f >>> (tail.length + 1).toUInt32))
    have hnone : ¬ ∃ c, String.utf8EncodeChar c = first :: tail := by
      rintro ⟨c, hc⟩
      exact htail ((encode_sequence hsome (by omega)).mp hc).2.1
    rw [herror]
    exact ⟨fun h => absurd h hnone, fun _ => ⟨at', rfl⟩⟩

/-- What is validated as a sequence is a character of several bytes; everything else is not UTF-8. -/
theorem validateSequence_cases (source : Name) (index : Nat) (first : UInt8) (rest : Name) :
    (∃ c tail rest', rest = tail ++ rest' ∧ tail ≠ [] ∧ String.utf8EncodeChar c = first :: tail ∧
      validateSequence source index first rest = .ok (some (index + (tail.length + 1)))) ∨
    ((¬ ∃ c tail rest', rest = tail ++ rest' ∧ tail ≠ [] ∧ String.utf8EncodeChar c = first :: tail) ∧
      ∃ at', validateSequence source index first rest = .error (.manifest at' "Invalid UTF-8.")) := by
  by_cases hshort : sequenceLength first = 0 ∨ rest.length < sequenceLength first - 1
  · refine .inr ⟨?_, _, if_pos hshort⟩
    rintro ⟨c, tail, rest', rfl, hsome, hc⟩
    rw [sequenceLength_of_encode hc hsome, List.length_append] at hshort
    omega
  · have hcases := sequenceLength_cases first
    set tail := rest.take (sequenceLength first - 1) with htail
    have hlength : sequenceLength first = tail.length + 1 := by
      rw [htail, List.length_take]
      omega
    have hsome : tail ≠ [] := List.length_pos_iff.mp (by omega)
    have hrest : rest = tail ++ rest.drop (sequenceLength first - 1) := (List.take_append_drop _ rest).symm
    obtain ⟨hvalid, hinvalid⟩ := validateSequence_run source (rest.drop (sequenceLength first - 1)) index hsome hlength
    rw [← hrest] at hvalid hinvalid
    by_cases hchar : ∃ c, String.utf8EncodeChar c = first :: tail
    · obtain ⟨c, hc⟩ := hchar
      exact .inl ⟨c, tail, _, hrest, hsome, hc, hvalid ⟨c, hc⟩⟩
    · refine .inr ⟨?_, hinvalid hchar⟩
      rintro ⟨c, tail', rest', htail', hsome', hc⟩
      refine hchar ⟨c, ?_⟩
      have hlength' : tail'.length = sequenceLength first - 1 := by
        rw [sequenceLength_of_encode hc hsome', Nat.add_sub_cancel]
      rw [hc, htail, htail', ← hlength', List.take_left]

/-! ## Accepted texts -/

/-- A control character other than tab, line feed and carriage return. -/
def Stray (c : Char) : Prop := (c.toNat < 32 ∧ c ≠ '\t' ∧ c ≠ '\n' ∧ c ≠ '\r') ∨ c.toNat = 127

/-- No stray control character, and a line feed behind every carriage return. -/
structure Clean (text : List Char) : Prop where
  control : ∀ c ∈ text, ¬ Stray c
  carriageReturn : ∀ before after, text = before ++ '\r' :: after → after.head? = some '\n'

@[simp] theorem clean_nil : Clean [] where
  control := by simp
  carriageReturn := by simp

theorem clean_cons {c : Char} {text : List Char} :
    Clean (c :: text) ↔ ¬ Stray c ∧ (c = '\r' → text.head? = some '\n') ∧ Clean text := by
  constructor
  · intro h
    refine ⟨h.control c List.mem_cons_self, ?_, fun d hd => h.control d (List.mem_cons_of_mem _ hd), ?_⟩
    · rintro rfl
      exact h.carriageReturn [] text rfl
    · intro before after htext
      exact h.carriageReturn (c :: before) after (by rw [htext, List.cons_append])
  · rintro ⟨hc, hreturn, htext⟩
    refine ⟨?_, ?_⟩
    · simpa [hc] using htext.control
    · intro before after hsplit
      cases before with
      | nil =>
          obtain ⟨rfl, rfl⟩ := List.cons_eq_cons.mp hsplit
          exact hreturn rfl
      | cons d before =>
          obtain ⟨rfl, rfl⟩ := List.cons_eq_cons.mp hsplit
          exact htext.carriageReturn before after rfl

/-- A line feed is the only character that begins with its byte. -/
theorem head_encode (text : List Char) : (encode text).head? = some '\n'.toUInt8 ↔ text.head? = some '\n' := by
  cases text with
  | nil => simp
  | cons c text =>
      rw [encode_cons, List.head?_append_of_ne_nil _ String.utf8EncodeChar_ne_nil, List.head?_cons, Option.some.injEq]
      constructor
      · intro h
        obtain ⟨tail, htail⟩ := List.head?_eq_some_iff.mp h
        have : String.utf8EncodeChar '\n' = ['\n'.toUInt8] := by decide
        have happend : String.utf8EncodeChar c ++ [] = String.utf8EncodeChar '\n' ++ tail := by
          rw [List.append_nil, htail, this]
          rfl
        exact (encode_append_inj happend).1
      · rintro rfl
        decide

/-- The messages about a character that is not allowed. -/
def strayMessages : List String := ["Invalid control character.", "Carriage return must be followed by a newline."]

/-- The three things that can come of the next character. -/
theorem validateNext_cases {source rest : Name} {index : Nat} {first : UInt8} (h : source.drop index = first :: rest) :
    (∃ c rest', first :: rest = String.utf8EncodeChar c ++ rest' ∧ ¬ Stray c ∧ (c = '\r' → rest'.head? = some '\n'.toUInt8) ∧
      validateNext source index = .ok (some (index + (String.utf8EncodeChar c).length))) ∨
    (∃ c rest', first :: rest = String.utf8EncodeChar c ++ rest' ∧ (Stray c ∨ c = '\r' ∧ rest'.head? ≠ some '\n'.toUInt8) ∧
      ∃ at' message, validateNext source index = .error (.manifest at' message) ∧ message ∈ strayMessages) ∨
    ((¬ ∃ c rest', first :: rest = String.utf8EncodeChar c ++ rest') ∧
      ∃ at', validateNext source index = .error (.manifest at' "Invalid UTF-8.")) := by
  unfold validateNext
  rw [h]
  simp only
  by_cases hascii : first < 0x80
  · rw [if_pos hascii]
    obtain ⟨c, hc⟩ := exists_scalar (n := first.toNat) (by have := first.toNat_lt; omega) (by have := first.toNat_lt; omega)
    have hencode : String.utf8EncodeChar c = [first] := encode_one.mpr ⟨by rw [hc]; exact UInt8.lt_iff_toNat_lt.mp hascii, hc.symm⟩
    have hsplit : first :: rest = String.utf8EncodeChar c ++ rest := by rw [hencode, List.singleton_append]
    have heq (d : Char) (hd : d.toNat < 0x80) : c = d ↔ first = d.toUInt8 := by
      rw [← UInt8.toNat_inj, ← hc, ← Char.toNat_inj]
      have : d.toUInt8.toNat = d.toNat % 256 := rfl
      omega
    have hstray : Stray c ↔
        (first < 32 ∧ first ≠ '\t'.toUInt8 ∧ first ≠ '\n'.toUInt8 ∧ first ≠ '\r'.toUInt8) ∨ first = 127 := by
      simp only [Stray, ne_eq, heq _ (show '\t'.toNat < 0x80 by decide), heq _ (show '\n'.toNat < 0x80 by decide),
        heq _ (show '\r'.toNat < 0x80 by decide), hc, UInt8.lt_iff_toNat_lt, ← UInt8.toNat_inj]
      rfl
    split
    · next hcontrol =>
        exact .inr (.inl ⟨c, rest, hsplit, .inl (hstray.mpr hcontrol), _, _, rfl, by simp [strayMessages]⟩)
    · next hcontrol =>
        have hclean : ¬ Stray c := fun hc => hcontrol (hstray.mp hc)
        split
        · next hreturn =>
            refine .inr (.inl ⟨c, rest, hsplit, .inr ⟨(heq _ (by decide)).mpr hreturn.1, ?_⟩, _, _, rfl, by simp [strayMessages]⟩)
            cases rest with
            | nil => simp
            | cons d rest => simpa using hreturn.2
        · next hreturn =>
            refine .inl ⟨c, rest, hsplit, hclean, ?_, by rw [hencode]; rfl⟩
            intro hc
            cases rest with
            | nil => exact absurd ⟨(heq _ (by decide)).mp hc, .inl rfl⟩ hreturn
            | cons d rest =>
                by_contra hd
                exact hreturn ⟨(heq _ (by decide)).mp hc, .inr (by simpa using hd)⟩
  · rw [if_neg hascii]
    have hle : 0x80 ≤ first.toNat := by simpa [UInt8.lt_iff_toNat_lt] using hascii
    obtain ⟨c, tail, rest', hrest, hsome, hc, hrun⟩ | ⟨hnone, at', hrun⟩ := validateSequence_cases source index first rest
    · have hlarge : 0x80 ≤ c.toNat := by
        have := (encode_length c).2
        rw [hc, List.length_cons] at this
        have hsmallest := ((encode_sequence hsome (by omega)).mp hc).2.2.1
        refine le_trans ?_ hsmallest
        unfold smallest
        split_ifs <;> omega
      refine .inl ⟨c, rest', by rw [hc, hrest, List.cons_append], ?_, ?_, by rw [hrun, hc, List.length_cons]⟩
      · rintro (⟨hlt, -⟩ | heq) <;> omega
      · rintro rfl
        exact absurd hlarge (by decide)
    · refine .inr (.inr ⟨?_, at', hrun⟩)
      rintro ⟨c, rest', hsplit⟩
      cases hc : String.utf8EncodeChar c with
      | nil => exact String.utf8EncodeChar_ne_nil hc
      | cons b tail =>
          rw [hc, List.cons_append, List.cons_eq_cons] at hsplit
          obtain ⟨rfl, htail⟩ := hsplit
          by_cases hsome : tail = []
          · subst hsome
            have := encode_one.mp hc
            omega
          · exact hnone ⟨c, tail, rest', htail, hsome, hc⟩

/-- What the loop says about what is left of the source. -/
theorem validate_cases (source : Name) {fuel index : Nat} (hfuel : source.length < index + fuel) (hindex : index ≤ source.length) :
    (∃ text r, source.drop index = encode text ∧ Clean text ∧
      Library.loop (validateNext source) .unfinished fuel index = .ok r) ∨
    (∃ at' message, Library.loop (validateNext source) .unfinished fuel index = .error (.manifest at' message) ∧
      message ∈ strayMessages ∧ ∀ text, source.drop index = encode text → ¬ Clean text) ∨
    (∃ at', Library.loop (validateNext source) .unfinished fuel index = .error (.manifest at' "Invalid UTF-8.") ∧
      ∀ text, source.drop index ≠ encode text) := by
  induction fuel generalizing index with
  | zero => omega
  | succ fuel ih =>
      unfold Library.loop
      cases hrest : source.drop index with
      | nil => exact .inl ⟨[], index, rfl, clean_nil, by simp [validateNext, hrest]⟩
      | cons first rest =>
          obtain ⟨c, rest', hsplit, hc, hreturn, hrun⟩ | ⟨c, rest', hsplit, hbad, at', message, hrun, hmessage⟩ | ⟨hnone, at', hrun⟩ :=
            validateNext_cases hrest
          · have hdrop : source.drop (index + (String.utf8EncodeChar c).length) = rest' := by
              rw [← List.drop_drop, hrest, hsplit, List.drop_left]
            have hpos := (encode_length c).1
            have hle : index + (String.utf8EncodeChar c).length ≤ source.length := by
              have := congrArg List.length (hrest.trans hsplit)
              rw [List.length_drop, List.length_append] at this
              omega
            rw [hrun]
            simp only
            rw [hsplit]
            have hcases := @ih (index + (String.utf8EncodeChar c).length) (by omega) hle
            rw [hdrop] at hcases
            obtain ⟨text, r, htext, hclean, hloop⟩ | ⟨at', message, hloop, hmessage, hunclean⟩ | ⟨at', hloop, hinvalid⟩ := hcases
            · refine .inl ⟨c :: text, r, by rw [encode_cons, htext], ?_, hloop⟩
              rw [clean_cons, ← head_encode, ← htext]
              exact ⟨hc, hreturn, hclean⟩
            · refine .inr (.inl ⟨at', message, hloop, hmessage, fun text htext hclean => ?_⟩)
              obtain ⟨text, rfl, hencode⟩ := encode_eq_append htext.symm
              exact hunclean text hencode.symm (clean_cons.mp hclean).2.2
            · refine .inr (.inr ⟨at', hloop, fun text htext => ?_⟩)
              obtain ⟨text, rfl, hencode⟩ := encode_eq_append htext.symm
              exact hinvalid text hencode.symm
          · refine .inr (.inl ⟨at', message, by rw [hrun], hmessage, fun text htext hclean => ?_⟩)
            obtain ⟨text, rfl, rfl⟩ := encode_eq_append (htext.symm.trans hsplit)
            rw [clean_cons, ← head_encode] at hclean
            rcases hbad with hstray | ⟨hr, hfeed⟩
            · exact hclean.1 hstray
            · exact hfeed (hclean.2.1 hr)
          · refine .inr (.inr ⟨at', by rw [hrun], fun text htext => ?_⟩)
            cases text with
            | nil => cases htext
            | cons c text => exact hnone ⟨c, encode text, by rw [htext, encode_cons]⟩

/-- What comes of the check of a source. -/
theorem validateUtf8_cases (source : Name) :
    (validateUtf8 source = .ok () ∧ ∃ text, source = encode text ∧ Clean text) ∨
    (∃ at' message, validateUtf8 source = .error (.manifest at' message) ∧ message ∈ strayMessages ∧
      ∀ text, source = encode text → ¬ Clean text) ∨
    (∃ at', validateUtf8 source = .error (.manifest at' "Invalid UTF-8.") ∧ ∀ text, source ≠ encode text) := by
  have hcases := @validate_cases source (source.length + 1) 0 (by omega) (Nat.zero_le _)
  rw [List.drop_zero] at hcases
  unfold validateUtf8
  obtain ⟨text, r, htext, hclean, hrun⟩ | ⟨at', message, hrun, hmessage, hunclean⟩ | ⟨at', hrun, hinvalid⟩ := hcases
  · rw [hrun]
    exact .inl ⟨rfl, text, htext, hclean⟩
  · rw [hrun]
    exact .inr (.inl ⟨at', message, rfl, hmessage, hunclean⟩)
  · rw [hrun]
    exact .inr (.inr ⟨at', rfl, hinvalid⟩)

/-- A source is accepted exactly when it is the encoding of a clean text. -/
theorem validateUtf8_iff (source : Name) : validateUtf8 source = .ok () ↔ ∃ text, source = encode text ∧ Clean text := by
  obtain ⟨hrun, hclean⟩ | ⟨at', message, hrun, -, hunclean⟩ | ⟨at', hrun, hinvalid⟩ := validateUtf8_cases source
  · simp [hrun, hclean]
  · simp only [hrun, reduceCtorEq, false_iff, not_exists, not_and]
    exact hunclean
  · simp [hrun, hinvalid]

theorem validateUtf8_ends (source : Name) : validateUtf8 source ≠ .error .unfinished := by
  obtain ⟨hrun, -⟩ | ⟨at', message, hrun, -⟩ | ⟨at', hrun, -⟩ := validateUtf8_cases source <;> simp [hrun]

/-- The reader ends on every source. -/
theorem read_ends (source : Name) (initial : Manifest) : read source initial ≠ .error .unfinished := by
  have hends : Ends (fun _ => True) (· ≠ Failure.unfinished) (read source initial) := by
    refine Ends.bind (P := fun _ => True) ?_ fun _ _ => Ends.bind (P := fun _ => True) ?_ fun _ _ => ?_
    · unfold rejectIf
      split <;> simp [Ends]
    · cases hrun : validateUtf8 source with
      | ok u => exact trivial
      | error e =>
          rintro rfl
          exact validateUtf8_ends source hrun
    · exact (readTables_passes initial.values { rest := source }).bind fun _ _ => trivial
  intro hrun
  rw [hrun] at hends
  exact hends rfl

/-- What has been read was checked. -/
theorem validated_of_read {source : Name} {initial result : Manifest} (h : read source initial = .ok result) :
    source.length ≤ maxManifestBytes ∧ validateUtf8 source = .ok () := by
  unfold read at h
  obtain ⟨hsize, h⟩ := rejectIf_bind_eq_ok.mp h
  obtain ⟨_, hvalid, -⟩ := bind_eq_ok.mp h
  exact ⟨Nat.not_lt.mp hsize, hvalid⟩

end Disco.Project.Reader
