import Disco.Project.ManifestText

/-! # What the manifest reader decodes

Every spelling of a text between double quotes is decoded to the UTF-8 encoding of that
text, and every spelling of an integer to that integer where it fits sixty-four bits.
-/

namespace Disco.Project.Reader

open Library Utf8

/-! ## Digits -/

/-- The byte is the digit of this value, in either case. -/
def Denotes (value : Nat) (c : UInt8) : Prop :=
  c = (Nat.digitChar value).toUInt8 ∨ c = (Nat.digitChar value).toUpper.toUInt8

/-- The digits of a number, the first one the most significant. -/
def Digits (radix : Nat) (values : List Nat) (text : Name) : Prop :=
  List.Forall₂ (fun value c => value < radix ∧ Denotes value c) values text

/-- A number with more digits behind it. -/
def followed (radix n : Nat) (values : List Nat) : Nat := values.foldl (fun n value => n * radix + value) n

theorem followed_eq (radix : Nat) (values : List Nat) : followed radix 0 values = Nat.ofDigits radix values.reverse := by
  rw [Nat.ofDigits_eq_foldr, List.foldr_reverse, followed]
  congr 1
  funext n value
  simp [Nat.mul_comm, Nat.add_comm]

theorem followed_bounds {radix : Nat} {values : List Nat} (h : ∀ value ∈ values, value < radix) (n : Nat) :
    n * radix ^ values.length ≤ followed radix n values ∧ followed radix n values < (n + 1) * radix ^ values.length := by
  induction values generalizing n with
  | nil => simp [followed]
  | cons value values ih =>
      obtain ⟨hle, hlt⟩ := ih (fun v hv => h v (List.mem_cons_of_mem _ hv)) (n * radix + value)
      have hvalue := h value List.mem_cons_self
      rw [List.length_cons, pow_succ', ← Nat.mul_assoc, ← Nat.mul_assoc]
      constructor
      · exact (Nat.mul_le_mul_right _ (Nat.le_add_right _ _)).trans hle
      · exact hlt.trans_le (Nat.mul_le_mul_right _ (by rw [Nat.add_mul]; omega))

theorem le_followed {radix : Nat} (hradix : 1 ≤ radix) (n : Nat) (values : List Nat) : n ≤ followed radix n values := by
  induction values generalizing n with
  | nil => exact Nat.le_refl _
  | cons value values ih => exact (Nat.le_trans (Nat.le_mul_of_pos_right n hradix) (Nat.le_add_right _ value)).trans (ih _)

theorem digit_iff {value : Nat} (hvalue : value < 16) (c : UInt8) : digit c = value ↔ Denotes value c := by
  have h : ∀ v : Fin 16, ∀ n : Fin 256, digit (UInt8.ofNat n) = v.val ↔
      UInt8.ofNat n = (Nat.digitChar v).toUInt8 ∨ UInt8.ofNat n = (Nat.digitChar v).toUpper.toUInt8 := by
    decide +kernel
  simpa [Denotes] using h ⟨value, hvalue⟩ ⟨c.toNat, c.toNat_lt⟩

theorem digit_bounds (c : UInt8) : -1 ≤ digit c ∧ digit c < 16 := by
  have h : ∀ n : Fin 256, -1 ≤ digit (UInt8.ofNat n) ∧ digit (UInt8.ofNat n) < 16 := by
    decide +kernel
  simpa using h ⟨c.toNat, c.toNat_lt⟩

theorem hexadecimal_run {values : List Nat} {text : Name} (h : Digits 16 values text) (point : UInt32)
    (hroom : (point.toNat + 1) * 16 ^ text.length ≤ 2 ^ 32) (at' : Position) (rest : Name) :
    ∃ r, hexadecimal text.length point ⟨at', text ++ rest⟩ = .ok (r, ⟨text.foldl after at', rest⟩) ∧
      r.toNat = followed 16 point.toNat values := by
  induction h generalizing point at' with
  | nil => exact ⟨point, rfl, rfl⟩
  | @cons value c values text hc htail ih =>
      obtain ⟨hlt, hdenotes⟩ := hc
      have hdigit := (digit_iff hlt c).mpr hdenotes
      rw [List.length_cons, pow_succ', ← Nat.mul_assoc] at hroom
      have hpos : 1 ≤ 16 ^ text.length := Nat.one_le_pow _ _ (by norm_num)
      have hvalue : ((point <<< 4) ||| UInt32.ofNat value).toNat = point.toNat * 16 + value := by
        have hsmall : point.toNat * 16 < 2 ^ 32 := by nlinarith
        have hlt' : value < 2 ^ 4 := hlt
        simp only [UInt32.toNat_or, UInt32.toNat_shiftLeft, UInt32.toNat_ofNat']
        rw [show (4 : UInt32).toNat % 32 = 4 from rfl, Nat.shiftLeft_eq, Nat.mod_eq_of_lt hsmall,
          Nat.mod_eq_of_lt (show value < 2 ^ 32 by omega), Nat.mul_comm, ← Nat.two_pow_add_eq_or_of_lt hlt']
      obtain ⟨r, hr, hfollowed⟩ := ih ((point <<< 4) ||| UInt32.ofNat value) (by
        rw [hvalue]
        exact (Nat.mul_le_mul_right _ (by omega)).trans hroom) (after at' c)
      refine ⟨r, ?_, by rw [hfollowed, hvalue]; rfl⟩
      rw [List.length_cons, hexadecimal, List.cons_append, Scan.bind_of_ok (advance_cons at' c _), hdigit,
        refuseIf_of_not (by omega), pure_bind, Int.toNat_natCast, hr]
      rfl

/-! ## Strings -/

/-- A byte that is neither a blank nor a tab. -/
def Solid (c : UInt8) : Prop := (c == ' '.toUInt8 || c == '\t'.toUInt8) = false

theorem horizontal_run {s : Cursor} (h : ∀ c ∈ s.rest.head?, Solid c) : horizontal s = .ok ((), s) := by
  have hnone : s.rest.takeWhile (fun c => c == ' '.toUInt8 || c == '\t'.toUInt8) = [] := by
    cases hrest : s.rest with
    | nil => rfl
    | cons c rest =>
        have hc : (c == ' '.toUInt8 || c == '\t'.toUInt8) = false := h c (by rw [hrest]; rfl)
        rw [List.takeWhile_cons, hc]
        rfl
  rw [horizontal, Scan.bind_of_ok (passWhile_run _ s), hnone]
  rfl

theorem require_run {c : UInt8} (h : Solid c) (message : String) (at' : Position) (rest : Name) :
    require c message ⟨at', c :: rest⟩ = .ok ((), ⟨after at' c, rest⟩) := by
  rw [require, Scan.bind_of_ok (horizontal_run (by simpa using h)), Scan.bind_of_ok (peek_run _), Scan.bind_of_ok (atEnd_run _),
    refuseIf_of_not (by simp), pure_bind, Scan.bind_of_ok (advance_cons _ _ _)]
  rfl

theorem marked_toNat {mark bits : UInt32} {i a : Nat} (hmark : mark.toNat = 2 ^ i * a) (hbits : bits.toNat < 2 ^ i)
    (hlt : 2 ^ i * a + bits.toNat < 256) : (marked mark bits).toNat = 2 ^ i * a + bits.toNat := by
  have hor : (mark ||| bits).toNat = 2 ^ i * a + bits.toNat := by
    rw [UInt32.toNat_or, hmark, ← Nat.two_pow_add_eq_or_of_lt hbits]
  rw [marked, UInt32.toNat_toUInt8, hor, Nat.mod_eq_of_lt hlt]

/-- A scalar is appended as its encoding. -/
theorem utf8_eq {c : Char} {point : UInt32} (h : point.toNat = c.toNat) : utf8 point = String.utf8EncodeChar c := by
  have hscalar := scalar_le c
  have hmask (x : UInt32) : (x &&& 63).toNat = x.toNat % 64 := Nat.and_two_pow_sub_one_eq_mod _ 6
  have hshift (x : UInt32) : (x >>> 6).toNat = x.toNat / 64 ∧ (x >>> 12).toNat = x.toNat / 4096 ∧ (x >>> 18).toNat = x.toNat / 262144 :=
    ⟨Nat.shiftRight_eq_div_pow _ 6, Nat.shiftRight_eq_div_pow _ 12, Nat.shiftRight_eq_div_pow _ 18⟩
  obtain ⟨h6, h12, h18⟩ := hshift point
  have hcontinue (x : UInt32) : (marked 0x80 (x &&& 63)).toNat = 0x80 + x.toNat % 64 := by
    rw [marked_toNat (i := 7) (a := 1) rfl (by rw [hmask]; omega) (by rw [hmask]; omega), hmask]
    rfl
  unfold utf8
  simp only [UInt32.le_iff_toNat_le, UInt32.reduceToNat, h]
  split
  · next hle =>
      refine (encode_one.mpr ⟨by omega, ?_⟩).symm
      rw [UInt32.toNat_toUInt8]
      omega
  · split
    · next hle =>
        have hlead : (marked 0xc0 (point >>> 6)).toNat = 0xc0 + point.toNat / 64 := by
          rw [marked_toNat (i := 6) (a := 3) rfl (by omega) (by rw [h6]; omega), h6]
          rfl
        refine (encode_two.mpr ⟨by omega, ?_, by omega, ?_⟩).symm
        · simp only [Continues, hcontinue]
          omega
        · rw [hlead, hcontinue]
          omega
    · split
      · next hle =>
          have hlead : (marked 0xe0 (point >>> 12)).toNat = 0xe0 + point.toNat / 4096 := by
            rw [marked_toNat (i := 5) (a := 7) rfl (by omega) (by rw [h12]; omega), h12]
            rfl
          refine (encode_three.mpr ⟨by omega, ?_, ?_, by omega, ?_⟩).symm
          · simp only [Continues, hcontinue]
            omega
          · simp only [Continues, hcontinue]
            omega
          · rw [hlead, hcontinue, hcontinue, h6]
            omega
      · next hle =>
          have hlead : (marked 0xf0 (point >>> 18)).toNat = 0xf0 + point.toNat / 262144 := by
            rw [marked_toNat (i := 4) (a := 15) rfl (by omega) (by rw [h18]; omega), h18]
            rfl
          refine (encode_four.mpr ⟨by omega, ?_, ?_, ?_, by omega, ?_⟩).symm
          · simp only [Continues, hcontinue]
            omega
          · simp only [Continues, hcontinue]
            omega
          · simp only [Continues, hcontinue]
            omega
          · rw [hlead, hcontinue, hcontinue, hcontinue, h6, h12]
            omega

/-- The characters with an escape of one letter. -/
def escapes : List (Char × Char) :=
  [('b', '\x08'), ('t', '\t'), ('n', '\n'), ('f', '\x0c'), ('r', '\r'), ('\x22', '\x22'), ('\\', '\\')]

/-- The ways to write a character between double quotes. -/
inductive Spelling : Char → Name → Prop where
  | literal {c : Char} (h : c ∉ ['\n', '\r', '\x22', '\\']) : Spelling c (String.utf8EncodeChar c)
  | letter {c letter : Char} (h : (letter, c) ∈ escapes) : Spelling c ['\\'.toUInt8, letter.toUInt8]
  | short {c : Char} {values : List Nat} {digits : Name} (h : Digits 16 values digits) (hlength : digits.length = 4)
      (hvalue : Nat.ofDigits 16 values.reverse = c.toNat) : Spelling c ('\\'.toUInt8 :: 'u'.toUInt8 :: digits)
  | long {c : Char} {values : List Nat} {digits : Name} (h : Digits 16 values digits) (hlength : digits.length = 8)
      (hvalue : Nat.ofDigits 16 values.reverse = c.toNat) : Spelling c ('\\'.toUInt8 :: 'U'.toUInt8 :: digits)

/-- A text written character by character. -/
def Spells (text : List Char) (spelling : Name) : Prop := ∃ pieces, List.Forall₂ Spelling text pieces ∧ spelling = pieces.flatten

theorem unicode_run {c : Char} {values : List Nat} {digits : Name} (h : Digits 16 values digits) (hlength : digits.length ≤ 8)
    (hvalue : Nat.ofDigits 16 values.reverse = c.toNat) (at' : Position) (rest : Name) :
    unicode digits.length ⟨at', digits ++ rest⟩ = .ok (String.utf8EncodeChar c, ⟨digits.foldl after at', rest⟩) := by
  have hpow : 16 ^ digits.length ≤ 2 ^ 32 := (Nat.pow_le_pow_right (by norm_num) hlength).trans (by norm_num)
  obtain ⟨point, hrun, hpoint⟩ := hexadecimal_run h 0 (by simpa using hpow) at' rest
  have hscalar := scalar_le c
  have heq : point.toNat = c.toNat := by
    rw [hpoint, ← hvalue, ← followed_eq]
    rfl
  have hvalid : ¬ (point > 0x10ffff ∨ (0xd800 ≤ point ∧ point ≤ 0xdfff)) := by
    simp only [gt_iff_lt, UInt32.lt_iff_toNat_lt, UInt32.le_iff_toNat_le, UInt32.reduceToNat, heq]
    omega
  rw [unicode, Scan.bind_of_ok hrun, refuseIf_of_not hvalid, pure_bind, utf8_eq heq]
  rfl

theorem escape_letter {letter c : Char} (h : (letter, c) ∈ escapes) (at' : Position) (rest : Name) :
    escape ⟨at', letter.toUInt8 :: rest⟩ = .ok (String.utf8EncodeChar c, ⟨after at' letter.toUInt8, rest⟩) := by
  simp only [escapes, List.mem_cons, Prod.mk.injEq, List.not_mem_nil, or_false] at h
  rcases h with ⟨rfl, rfl⟩ | ⟨rfl, rfl⟩ | ⟨rfl, rfl⟩ | ⟨rfl, rfl⟩ | ⟨rfl, rfl⟩ | ⟨rfl, rfl⟩ | ⟨rfl, rfl⟩ <;> rfl

/-- One more piece of a string, as far as it has room. -/
def appended (result decoded : Name) (t : Cursor) : Except Failure ((Name ⊕ Name) × Cursor) :=
  if (result ++ decoded).length > maxProjectPathBytes then .error (.manifest t.position "String exceeds 4096 bytes.")
  else .ok (.inl (result ++ decoded), t)

theorem refuseIf_bind_appended (result decoded : Name) (t : Cursor) :
    (refuseIf ((result ++ decoded).length > maxProjectPathBytes) "String exceeds 4096 bytes." >>= fun _ =>
      (pure (.inl (result ++ decoded)) : Reading (Name ⊕ Name))) t = appended result decoded t := by
  unfold refuseIf appended
  split <;> rfl

theorem stringTurn_literal {b : UInt8} (h : b ∉ nameOf "\n\r\"\\") (result rest : Name) (at' : Position) :
    stringTurn '\x22'.toUInt8 result ⟨at', b :: rest⟩ = appended result [b] ⟨after at' b, rest⟩ := by
  have hb : b ≠ '\n'.toUInt8 ∧ b ≠ '\r'.toUInt8 ∧ b ≠ '\x22'.toUInt8 ∧ b ≠ '\\'.toUInt8 := by
    simpa [nameOf] using h
  rw [stringTurn, Scan.bind_of_ok (atEnd_run _), Scan.bind_of_ok (peek_run _), if_neg (by simp [hb.2.2.1]),
    Scan.bind_of_ok (advance_cons at' b rest), refuseIf_of_not (by simp [hb.1, hb.2.1]), pure_bind, if_pos (.inl hb.2.2.2), pure_bind]
  exact refuseIf_bind_appended result [b] _

theorem stringTurn_escape {decoded piece rest : Name} {at' : Position} {t : Cursor}
    (h : escape ⟨after at' '\\'.toUInt8, piece ++ rest⟩ = .ok (decoded, t)) (result : Name) :
    stringTurn '\x22'.toUInt8 result ⟨at', '\\'.toUInt8 :: piece ++ rest⟩ = appended result decoded t := by
  rw [stringTurn, Scan.bind_of_ok (atEnd_run _), Scan.bind_of_ok (peek_run _), List.cons_append,
    if_neg (by simp; decide),
    Scan.bind_of_ok (advance_cons at' _ _), refuseIf_of_not (by decide), pure_bind, if_neg (by decide), Scan.bind_of_ok h]
  exact refuseIf_bind_appended result decoded t

/-- What becomes of a piece of the source that stands for some bytes: they are appended, or there are too many. -/
structure Appends (piece decoded : Name) : Prop where
  room : ∀ (result rest : Name) (at' : Position), (result ++ decoded).length ≤ maxProjectPathBytes → ∃ turns ≤ piece.length, ∀ fuel,
    Scan.iterate (stringTurn '\x22'.toUInt8) Failure.unfinished (fuel + turns) result ⟨at', piece ++ rest⟩ =
      Scan.iterate (stringTurn '\x22'.toUInt8) Failure.unfinished fuel (result ++ decoded) ⟨piece.foldl after at', rest⟩
  full : ∀ (result rest : Name) (at' : Position) (fuel : Nat), maxProjectPathBytes < (result ++ decoded).length →
    result.length ≤ maxProjectPathBytes → piece.length < fuel →
      ∃ at'', Scan.iterate (stringTurn '\x22'.toUInt8) Failure.unfinished fuel result ⟨at', piece ++ rest⟩ =
        .error (.manifest at'' "String exceeds 4096 bytes.")

theorem Appends.nil : Appends [] [] where
  room result rest at' _ := ⟨0, Nat.le_refl _, fun fuel => by simp⟩
  full result rest at' fuel hfull hle := by
    rw [List.append_nil] at hfull
    omega

theorem Appends.append {piece piece' decoded decoded' : Name} (h : Appends piece decoded) (h' : Appends piece' decoded') :
    Appends (piece ++ piece') (decoded ++ decoded') where
  room result rest at' hroom := by
    rw [← List.append_assoc] at hroom
    obtain ⟨turns, hle, hrun⟩ := h.room result (piece' ++ rest) at' (by rw [List.length_append] at hroom; omega)
    obtain ⟨turns', hle', hrun'⟩ := h'.room (result ++ decoded) rest (piece.foldl after at') hroom
    refine ⟨turns' + turns, by rw [List.length_append]; omega, fun fuel => ?_⟩
    rw [← Nat.add_assoc, List.append_assoc, hrun, hrun', List.append_assoc, List.foldl_append]
  full result rest at' fuel hfull hle hfuel := by
    rw [← List.append_assoc] at hfull
    rw [List.length_append] at hfuel
    by_cases hroom : (result ++ decoded).length ≤ maxProjectPathBytes
    · obtain ⟨turns, hturns, hrun⟩ := h.room result (piece' ++ rest) at' hroom
      obtain ⟨at'', herror⟩ := h'.full (result ++ decoded) rest (piece.foldl after at') (fuel - turns) hfull hroom (by omega)
      refine ⟨at'', ?_⟩
      rw [show fuel = fuel - turns + turns by omega, List.append_assoc, hrun, herror]
    · rw [List.append_assoc]
      exact h.full result (piece' ++ rest) at' fuel (by omega) hle (by omega)

/-- A piece that is read in one turn. -/
theorem Appends.of_turn {piece decoded : Name} (hsome : piece ≠ []) (h : ∀ (result rest : Name) (at' : Position),
      stringTurn '\x22'.toUInt8 result ⟨at', piece ++ rest⟩ = appended result decoded ⟨piece.foldl after at', rest⟩) :
    Appends piece decoded where
  room result rest at' hroom := by
    refine ⟨1, List.length_pos_iff.mpr hsome, fun fuel => Scan.iterate_of_inl ?_⟩
    rw [h, appended, if_neg (by omega)]
  full result rest at' fuel hfull hle hfuel := by
    obtain ⟨fuel, rfl⟩ := Nat.exists_eq_succ_of_ne_zero (show fuel ≠ 0 by omega)
    refine ⟨piece.foldl after at', Scan.iterate_of_error ?_⟩
    rw [h, appended, if_pos hfull]

/-- Bytes without a special meaning stand for themselves. -/
theorem Appends.literal {bytes : Name} (h : ∀ b ∈ bytes, b ∉ nameOf "\n\r\"\\") : Appends bytes bytes := by
  induction bytes with
  | nil => exact Appends.nil
  | cons b bytes ih =>
      have hb : Appends [b] [b] :=
        Appends.of_turn (List.cons_ne_nil b []) fun result rest at' => stringTurn_literal (h b List.mem_cons_self) result rest at'
      exact hb.append (ih fun b' hb' => h b' (List.mem_cons_of_mem _ hb'))

/-- A spelling of a character stands for its encoding. -/
theorem Spelling.appends {c : Char} {piece : Name} (h : Spelling c piece) : Appends piece (String.utf8EncodeChar c) := by
  cases h with
  | literal hc =>
      refine Appends.literal fun b hb hspecial => hc ?_
      obtain ⟨d, hd, rfl⟩ := List.mem_map.mp hspecial
      have hd' : d = '\n' ∨ d = '\r' ∨ d = '\x22' ∨ d = '\\' := by simpa using hd
      have hascii : d.toNat < 0x80 := by
        rcases hd' with rfl | rfl | rfl | rfl <;> decide
      have hbyte : d.toUInt8.toNat = d.toNat := Nat.mod_eq_of_lt (show d.toNat < 256 by omega)
      have heq := encode_of_mem hb (by omega)
      rw [hbyte, Char.toNat_inj] at heq
      exact heq ▸ hd
  | letter hletter =>
      refine Appends.of_turn (List.cons_ne_nil _ _) fun result rest at' => ?_
      exact stringTurn_escape (escape_letter hletter _ rest) result
  | short hdigits hlength hvalue =>
      refine Appends.of_turn (List.cons_ne_nil _ _) fun result rest at' => ?_
      have hrun := unicode_run hdigits (by omega) hvalue (after (after at' '\\'.toUInt8) 'u'.toUInt8) rest
      rw [hlength] at hrun
      exact @stringTurn_escape _ ('u'.toUInt8 :: _) _ _ _ (Scan.bind_of_ok (advance_cons _ _ _) _ |>.trans hrun) result
  | long hdigits hlength hvalue =>
      refine Appends.of_turn (List.cons_ne_nil _ _) fun result rest at' => ?_
      have hrun := unicode_run hdigits (by omega) hvalue (after (after at' '\\'.toUInt8) 'U'.toUInt8) rest
      rw [hlength] at hrun
      exact @stringTurn_escape _ ('U'.toUInt8 :: _) _ _ _ (Scan.bind_of_ok (advance_cons _ _ _) _ |>.trans hrun) result

theorem Spells.appends {text : List Char} {spelling : Name} (h : Spells text spelling) : Appends spelling (encode text) := by
  obtain ⟨pieces, hpieces, rfl⟩ := h
  induction hpieces with
  | nil => exact Appends.nil
  | cons hc htail ih => exact hc.appends.append ih

/-- A text between double quotes is decoded to its encoding, however it is spelled; only a
text that is too long is not. -/
theorem string_spelled {text : List Char} {spelling : Name} (h : Spells text spelling) (at' : Position) (rest : Name) :
    if (encode text).length ≤ maxProjectPathBytes then
      ∃ t, string ⟨at', '\x22'.toUInt8 :: spelling ++ '\x22'.toUInt8 :: rest⟩ = .ok (encode text, t) ∧ t.rest = rest
    else ∃ at'', string ⟨at', '\x22'.toUInt8 :: spelling ++ '\x22'.toUInt8 :: rest⟩ =
      .error (.manifest at'' "String exceeds 4096 bytes.") := by
  have hstart : string ⟨at', '\x22'.toUInt8 :: spelling ++ '\x22'.toUInt8 :: rest⟩ =
      (loop (stringTurn '\x22'.toUInt8) [] >>= fun result => require '\x22'.toUInt8 "Unterminated string." >>= fun _ => pure result)
        ⟨after at' '\x22'.toUInt8, spelling ++ '\x22'.toUInt8 :: rest⟩ := Scan.bind_of_ok (advance_cons _ _ _) _
  rw [hstart]
  split
  · next hroom =>
      obtain ⟨turns, hturns, hrun⟩ := h.appends.room [] ('\x22'.toUInt8 :: rest) (after at' '\x22'.toUInt8) hroom
      set end' := spelling.foldl after (after at' '\x22'.toUInt8)
      have hlast (fuel : Nat) : Scan.iterate (stringTurn '\x22'.toUInt8) Failure.unfinished (fuel + 1) (encode text)
          ⟨end', '\x22'.toUInt8 :: rest⟩ = .ok (encode text, ⟨end', '\x22'.toUInt8 :: rest⟩) := by
        refine Scan.iterate_of_inr ?_
        rw [stringTurn, Scan.bind_of_ok (atEnd_run _), Scan.bind_of_ok (peek_run _), if_pos (.inr rfl)]
        rfl
      have hloop : loop (stringTurn '\x22'.toUInt8) [] ⟨after at' '\x22'.toUInt8, spelling ++ '\x22'.toUInt8 :: rest⟩ =
          .ok (encode text, ⟨end', '\x22'.toUInt8 :: rest⟩) := by
        unfold loop
        simp only [List.length_append, List.length_cons]
        rw [show spelling.length + (rest.length + 1) + 1 = spelling.length + rest.length + 1 - turns + 1 + turns by omega, hrun]
        exact hlast _
      have hrequire := require_run (c := '\x22'.toUInt8) rfl "Unterminated string." end' rest
      exact ⟨_, (Scan.bind_of_ok hloop _).trans (Scan.bind_of_ok hrequire _), rfl⟩
  · next hfull =>
      obtain ⟨at'', herror⟩ := h.appends.full [] ('\x22'.toUInt8 :: rest) (after at' '\x22'.toUInt8)
        ((spelling ++ '\x22'.toUInt8 :: rest).length + 1) (by simpa using hfull) (Nat.zero_le _) (by simp)
      have hloop : loop (stringTurn '\x22'.toUInt8) [] ⟨after at' '\x22'.toUInt8, spelling ++ '\x22'.toUInt8 :: rest⟩ =
          .error (.manifest at'' "String exceeds 4096 bytes.") := herror
      exact ⟨at'', Scan.bind_of_error hloop _⟩

/-! ## Integers -/

/-- Groups of digits with single underscores between them, the first one after what is there already. -/
def Continued (radix : Nat) (started : Bool) (values : List Nat) (text : Name) : Prop :=
  ∃ (first : Name) (later : List Name), text = first ++ later.flatMap ('_'.toUInt8 :: ·) ∧ (started = true ∨ first ≠ []) ∧
    (∀ group ∈ later, group ≠ []) ∧ Digits radix values (first ++ later.flatten)

theorem digit_underscore : digit '_'.toUInt8 = -1 := rfl

theorem Denotes.ne_underscore {value : Nat} {c : UInt8} (hvalue : value < 16) (h : Denotes value c) : c ≠ '_'.toUInt8 := by
  rintro rfl
  have := (digit_iff hvalue _).mpr h
  rw [digit_underscore] at this
  omega

/-- One more digit fits exactly when the value with it does. -/
theorem overflow_iff {radix limit value : UInt64} {next : Nat} (hradix : 0 < radix.toNat) (hnext : next ≤ limit.toNat) :
    value > (limit - UInt64.ofNat next) / radix ↔ limit.toNat < value.toNat * radix.toNat + next := by
  have hlt : next < 2 ^ 64 := lt_of_le_of_lt hnext limit.toNat_lt
  have hofNat : (UInt64.ofNat next).toNat = next := by
    rw [UInt64.toNat_ofNat', Nat.mod_eq_of_lt hlt]
  have hsub : (limit - UInt64.ofNat next).toNat = limit.toNat - next := by
    rw [UInt64.toNat_sub_of_le _ _ (by rw [UInt64.le_iff_toNat_le, hofNat]; exact hnext), hofNat]
  rw [gt_iff_lt, UInt64.lt_iff_toNat_lt, UInt64.toNat_div, hsub, Nat.div_lt_iff_lt_mul hradix]
  omega

theorem toNat_step {radix limit value : UInt64} {next : Nat} (hfits : value.toNat * radix.toNat + next ≤ limit.toNat) :
    (value * radix + UInt64.ofNat next).toNat = value.toNat * radix.toNat + next := by
  have := limit.toNat_lt
  rw [UInt64.toNat_add, UInt64.toNat_mul, UInt64.toNat_ofNat']
  omega

theorem continued_nil {radix : Nat} {started : Bool} {values : List Nat} :
    Continued radix started values [] ↔ started = true ∧ values = [] := by
  constructor
  · rintro ⟨first, later, htext, hstarted, hlater, hdigits⟩
    obtain ⟨rfl, hflat⟩ := List.append_eq_nil_iff.mp htext.symm
    have : later = [] := by
      cases later with
      | nil => rfl
      | cons group later => simp at hflat
    subst this
    exact ⟨by simpa using hstarted, by simpa [Digits] using hdigits⟩
  · rintro ⟨rfl, rfl⟩
    exact ⟨[], [], rfl, .inl rfl, by simp, .nil⟩

/-- A further digit, or an underscore between two. -/
theorem continued_cons {radix : Nat} (hradix : radix ≤ 16) {started : Bool} {values : List Nat} {c : UInt8} {text : Name} :
    Continued radix started values (c :: text) ↔
      (∃ value rest, value < radix ∧ Denotes value c ∧ values = value :: rest ∧ Continued radix true rest text) ∨
      (started = true ∧ c = '_'.toUInt8 ∧ Continued radix false values text) := by
  constructor
  · rintro ⟨first, later, htext, hstarted, hlater, hdigits⟩
    cases first with
    | nil =>
        cases later with
        | nil => cases htext
        | cons group later =>
            simp only [List.nil_append, List.flatMap_cons, List.cons_append, List.cons.injEq] at htext
            refine .inr ⟨by simpa using hstarted, htext.1, group, later, htext.2, .inr (hlater group List.mem_cons_self), ?_, hdigits⟩
            exact fun g hg => hlater g (List.mem_cons_of_mem _ hg)
    | cons d first =>
        obtain ⟨rfl, rfl⟩ := List.cons_eq_cons.mp htext
        cases hdigits with
        | @cons value _ rest _ hc hrest =>
            exact .inl ⟨value, rest, hc.1, hc.2, rfl, first, later, rfl, .inl rfl, hlater, hrest⟩
  · rintro (⟨value, rest, hvalue, hc, rfl, first, later, rfl, -, hlater, hdigits⟩ |
      ⟨hstarted, rfl, first, later, rfl, hfirst, hlater, hdigits⟩)
    · exact ⟨c :: first, later, rfl, .inr (List.cons_ne_nil _ _), hlater, .cons ⟨hvalue, hc⟩ hdigits⟩
    · refine ⟨[], first :: later, rfl, .inl hstarted, ?_, hdigits⟩
      have hfirst : first ≠ [] := by simpa using hfirst
      simpa [hfirst] using hlater

theorem refuseIf_bind_eq_ok {α : Type} {bad : Prop} [Decidable bad] {message : String} {f : Unit → Reading α} {s t : Cursor} {a : α} :
    (refuseIf bad message >>= f) s = .ok (a, t) ↔ ¬ bad ∧ f () s = .ok (a, t) := by
  by_cases hbad : bad
  · rw [refuseIf_of hbad, Scan.bind_of_error (show fail message s = .error (.manifest s.position message) from rfl)]
    simp [hbad]
  · rw [refuseIf_of_not hbad, pure_bind]
    simp [hbad]

theorem refuseIf_bind_of {α : Type} {bad : Prop} [Decidable bad] (h : bad) (message : String) (f : Unit → Reading α) (s : Cursor) :
    (refuseIf bad message >>= f) s = .error (.manifest s.position message) := by
  rw [refuseIf_of h]
  rfl

section Digits

variable {radix limit : UInt64} (hpos : 0 < radix.toNat) (hradix : radix.toNat ≤ 16) (hlimit : 16 ≤ limit.toNat)

include hpos hradix hlimit

/-- Groups of digits are read as the number that they continue, where it does not exceed the limit. -/
theorem digits_run {started : Bool} {values : List Nat} {text : Name} (h : Continued radix.toNat started values text)
    {value : UInt64} (hvalue : value.toNat ≤ limit.toNat) (s : Cursor) :
    if followed radix.toNat value.toNat values ≤ limit.toNat then
      ∃ r, digits radix limit text value started s = .ok (r, s) ∧ r.toNat = followed radix.toNat value.toNat values
    else digits radix limit text value started s = .error (.manifest s.position "Integer exceeds signed 64-bit range.") := by
  induction text generalizing started values value with
  | nil =>
      obtain ⟨rfl, rfl⟩ := continued_nil.mp h
      rw [if_pos (show followed radix.toNat value.toNat [] ≤ limit.toNat from hvalue)]
      refine ⟨value, ?_, rfl⟩
      rw [digits, refuseIf_of_not (by simp), pure_bind]
      rfl
  | cons c text ih =>
      rcases (continued_cons hradix).mp h with ⟨next, rest, hnext, hc, rfl, hrest⟩ | ⟨rfl, rfl, hrest⟩
      · have hdigit : digit c = next := (digit_iff (by omega) c).mpr hc
        have hstep : digits radix limit (c :: text) value started = (do
            refuseIf (value > (limit - UInt64.ofNat next) / radix) "Integer exceeds signed 64-bit range."
            digits radix limit text (value * radix + UInt64.ofNat next) true) := by
          rw [digits, if_neg (hc.ne_underscore (by omega)), hdigit]
          simp only [Int.toNat_natCast]
          rw [refuseIf_of_not (by omega), pure_bind]
        rw [hstep]
        by_cases hover : value > (limit - UInt64.ofNat next) / radix
        · have hlarge := (overflow_iff hpos (by omega)).mp hover
          have hle := le_followed hpos (value.toNat * radix.toNat + next) rest
          have hnot : ¬ followed radix.toNat value.toNat (next :: rest) ≤ limit.toNat := Nat.not_le.mpr (hlarge.trans_le hle)
          rw [if_neg hnot]
          exact refuseIf_bind_of hover _ _ s
        · have hfits : value.toNat * radix.toNat + next ≤ limit.toNat :=
            Nat.not_lt.mp fun hlarge => hover ((overflow_iff hpos (by omega)).mpr hlarge)
          have hvalue' := toNat_step hfits
          have hrun := @ih _ _ hrest (value * radix + UInt64.ofNat next) (by omega)
          rw [hvalue'] at hrun
          rw [refuseIf_of_not hover, pure_bind]
          exact hrun
      · have hhead : ¬ (true = false ∨ text = [] ∨ digit (text.headD 0) < 0 ∨ (radix.toNat : Int) ≤ digit (text.headD 0)) := by
          cases text with
          | nil => simpa using continued_nil.mp hrest
          | cons d text =>
              rcases (continued_cons hradix).mp hrest with ⟨next, rest, hnext, hd, rfl, -⟩ | ⟨hstarted, -⟩
              · have hdigit : digit d = next := (digit_iff (by omega) d).mpr hd
                simp only [List.headD_cons, hdigit]
                simp
                omega
              · cases hstarted
        rw [digits, if_pos rfl, refuseIf_of_not hhead, pure_bind]
        exact ih hrest hvalue

/-- Only groups of digits are read as a number. -/
theorem digits_sound {started : Bool} {text : Name} {value r : UInt64} (hvalue : value.toNat ≤ limit.toNat) {s t : Cursor}
    (h : digits radix limit text value started s = .ok (r, t)) :
    t = s ∧ ∃ values, Continued radix.toNat started values text ∧ r.toNat = followed radix.toNat value.toNat values ∧
      r.toNat ≤ limit.toNat := by
  induction text generalizing started value with
  | nil =>
      rw [digits, refuseIf_bind_eq_ok, Scan.pure_run, Except.ok.injEq, Prod.mk.injEq] at h
      obtain ⟨hstarted, rfl, rfl⟩ := h
      exact ⟨rfl, [], continued_nil.mpr ⟨by simpa using hstarted, rfl⟩, rfl, hvalue⟩
  | cons c text ih =>
      rw [digits] at h
      split at h
      · next hc =>
          rw [refuseIf_bind_eq_ok] at h
          obtain ⟨hgood, h⟩ := h
          obtain ⟨ht, values, hcontinued, hr⟩ := ih hvalue h
          exact ⟨ht, values, (continued_cons hradix).mpr (.inr ⟨by simpa using fun h => hgood (.inl h), hc, hcontinued⟩), hr⟩
      · next hc =>
          simp only [refuseIf_bind_eq_ok] at h
          obtain ⟨hgood, hover, h⟩ := h
          obtain ⟨next, hnext⟩ := Int.eq_ofNat_of_zero_le (show 0 ≤ digit c by omega)
          rw [hnext, Int.toNat_natCast] at hover h
          rw [hnext] at hgood
          have hfits : value.toNat * radix.toNat + next ≤ limit.toNat :=
            Nat.not_lt.mp fun hlarge => hover ((overflow_iff hpos (by omega)).mpr hlarge)
          have hvalue' := toNat_step hfits
          obtain ⟨ht, values, hcontinued, hr⟩ := @ih _ (value * radix + UInt64.ofNat next) (by omega) h
          rw [hvalue'] at hr
          refine ⟨ht, next :: values, (continued_cons hradix).mpr (.inl ⟨next, values, by omega, ?_, rfl, hcontinued⟩), hr⟩
          exact (digit_iff (by omega) c).mp hnext

end Digits

theorem toInt64_eq (x : UInt64) : x.toInt64 = Int64.ofNat x.toNat := by
  rw [← Int64.toBitVec_inj]
  simp [Int64.ofNat]
  rfl

/-- The integer of a sign and digits. -/
def withSign (negative : Bool) (radix : Nat) (values : List Nat) : Int :=
  if negative then -((Nat.ofDigits radix values.reverse : Nat) : Int) else (Nat.ofDigits radix values.reverse : Nat)

/-- The range of a signed integer of sixty-four bits. -/
def Fits (n : Int) : Prop := -2 ^ 63 ≤ n ∧ n < 2 ^ 63

/-- The radix by the letter behind a zero. -/
def radices : List (Char × Nat) := [('x', 16), ('o', 8), ('b', 2)]

/-- The spellings of an integer: decimal without a leading zero and with or without a sign, or
in another radix without a sign. -/
inductive Numeral : Name → Int → Prop where
  | plain {values : List Nat} {text : Name} (h : Continued 10 false values text) (hzero : values.head? = some 0 → values = [0]) :
      Numeral text (withSign false 10 values)
  | positive {values : List Nat} {text : Name} (h : Continued 10 false values text) (hzero : values.head? = some 0 → values = [0]) :
      Numeral ('+'.toUInt8 :: text) (withSign false 10 values)
  | negative {values : List Nat} {text : Name} (h : Continued 10 false values text) (hzero : values.head? = some 0 → values = [0]) :
      Numeral ('-'.toUInt8 :: text) (withSign true 10 values)
  | based {letter : Char} {radix : Nat} {values : List Nat} {text : Name} (hradix : (letter, radix) ∈ radices)
      (h : Continued radix false values text) :
      Numeral ('0'.toUInt8 :: letter.toUInt8 :: text) (withSign false radix values)

/-- The last steps of `integer`: the digits behind the sign and the radix. -/
def signed (negative : Bool) (radix : UInt64) (rest : Name) : Reading Int64 := do
  let limit : UInt64 := Int64.maxValue.toUInt64 + (if negative then 1 else 0)
  let value ← digits radix limit rest 0 false
  if negative = true ∧ value = limit then pure Int64.minValue
  else pure (if negative then -value.toInt64 else value.toInt64)

theorem limit_toNat (negative : Bool) :
    (Int64.maxValue.toUInt64 + (if negative then 1 else 0)).toNat = if negative then 2 ^ 63 else 2 ^ 63 - 1 := by
  cases negative <;> rfl

/-- The value of a result of `signed`. -/
theorem signed_toInt {negative : Bool} {value : UInt64} (h : value.toNat ≤ if negative then 2 ^ 63 else 2 ^ 63 - 1) :
    (if negative = true ∧ value = Int64.maxValue.toUInt64 + (if negative then 1 else 0) then Int64.minValue
      else if negative then -value.toInt64 else value.toInt64).toInt = if negative then -(value.toNat : Int) else value.toNat := by
  rw [toInt64_eq]
  cases negative with
  | false =>
      simp only [Bool.false_eq_true, false_and, if_false] at h ⊢
      exact Int64.toInt_ofNat_of_lt (by omega)
  | true =>
      simp only [if_true, true_and] at h ⊢
      split
      · next heq =>
          rw [heq]
          rfl
      · exact Int64.toInt_neg_ofNat_of_le h

theorem signed_run (negative : Bool) {radix : Nat} {word : UInt64} (hword : word.toNat = radix) (hpos : 0 < radix) (hradix : radix ≤ 16)
    {values : List Nat} {rest : Name} (h : Continued radix false values rest) (s : Cursor) :
    (Fits (withSign negative radix values) → ∃ v, signed negative word rest s = .ok (v, s) ∧ v.toInt = withSign negative radix values) ∧
    (¬ Fits (withSign negative radix values) →
      signed negative word rest s = .error (.manifest s.position "Integer exceeds signed 64-bit range.")) := by
  subst hword
  have hlimit := limit_toNat negative
  have hrun := @digits_run word (Int64.maxValue.toUInt64 + (if negative then 1 else 0)) hpos hradix
    (by rw [hlimit]; cases negative <;> decide) _ _ _ h 0 (Nat.zero_le _) s
  rw [show (0 : UInt64).toNat = 0 from rfl, followed_eq, hlimit] at hrun
  have hrange : (Nat.ofDigits word.toNat values.reverse ≤ if negative then 2 ^ 63 else 2 ^ 63 - 1) ↔
      Fits (withSign negative word.toNat values) := by
    unfold withSign Fits
    cases negative <;> simp only [Bool.false_eq_true, if_false, if_true] <;> omega
  constructor
  · intro hin
    rw [if_pos (hrange.mpr hin)] at hrun
    obtain ⟨value, hvalue, htoNat⟩ := hrun
    have htoInt := @signed_toInt negative value (by rw [htoNat]; exact hrange.mpr hin)
    refine ⟨_, ?_, htoInt.trans ?_⟩
    · rw [signed, Scan.bind_of_ok hvalue, ← apply_ite pure]
      rfl
    · rw [htoNat, withSign]
  · intro hout
    rw [if_neg fun hle => hout (hrange.mp hle)] at hrun
    exact Scan.bind_of_error hrun _

theorem signed_sound {negative : Bool} {radix : Nat} {word : UInt64} (hword : word.toNat = radix) (hpos : 0 < radix) (hradix : radix ≤ 16)
    {rest : Name} {s t : Cursor} {v : Int64} (h : signed negative word rest s = .ok (v, t)) :
    t = s ∧ ∃ values, Continued radix false values rest ∧ v.toInt = withSign negative radix values := by
  subst hword
  have hlimit := limit_toNat negative
  unfold signed at h
  obtain ⟨value, u, hvalue, hresult⟩ := Scan.bind_eq_ok.mp h
  obtain ⟨rfl, values, hcontinued, htoNat, hle⟩ := digits_sound hpos hradix (by rw [hlimit]; cases negative <;> decide)
    (Nat.zero_le _) hvalue
  rw [show (0 : UInt64).toNat = 0 from rfl, followed_eq] at htoNat
  rw [hlimit] at hle
  rw [← apply_ite pure, Scan.pure_run, Except.ok.injEq, Prod.mk.injEq] at hresult
  obtain ⟨rfl, rfl⟩ := hresult
  exact ⟨rfl, values, hcontinued, by rw [withSign, ← htoNat]; exact signed_toInt hle⟩

theorem integer_cons (c : UInt8) (text : Name) : integer (c :: text) =
    (radixOf (c == '+'.toUInt8 || c == '-'.toUInt8) (if (c == '+'.toUInt8 || c == '-'.toUInt8) = true then text else c :: text) >>=
      fun p => signed (c == '-'.toUInt8) p.1 p.2) := by
  rw [integer, refuseIf_of_not (List.cons_ne_nil c text), pure_bind]
  rfl

theorem denotes_zero {c : UInt8} : Denotes 0 c ↔ c = '0'.toUInt8 := by
  unfold Denotes
  constructor
  · rintro (h | h) <;> exact h
  · exact .inl

/-- A literal that starts with a digit. -/
theorem Continued.head {values : List Nat} {text : Name} (h : Continued 10 false values text) :
    ∃ c rest value values', text = c :: rest ∧ values = value :: values' ∧ value < 10 ∧ Denotes value c ∧ Continued 10 true values' rest := by
  cases text with
  | nil => simpa using continued_nil.mp h
  | cons c rest =>
      rcases (continued_cons (by norm_num)).mp h with ⟨value, values', hvalue, hc, rfl, hrest⟩ | ⟨hstarted, -⟩
      · exact ⟨c, rest, value, values', rfl, rfl, hvalue, hc, hrest⟩
      · cases hstarted

theorem radixOf_decimal {values : List Nat} {text : Name} (h : Continued 10 false values text)
    (hzero : values.head? = some 0 → values = [0]) (signedToken : Bool) : radixOf signedToken text = pure (10, text) := by
  obtain ⟨c, rest, value, values', rfl, rfl, hvalue, hc, hrest⟩ := h.head
  cases rest with
  | nil => rfl
  | cons d rest =>
      have hne : c ≠ '0'.toUInt8 := by
        intro hc'
        obtain rfl : value = 0 := by
          have hdigit := (digit_iff (by omega) c).mpr hc
          rw [hc'] at hdigit
          have : digit '0'.toUInt8 = 0 := rfl
          omega
        obtain rfl : values' = [] := by simpa using hzero rfl
        rcases (continued_cons (by norm_num)).mp hrest with ⟨value, rest, -, -, hvalues, -⟩ | ⟨-, -, hcontinued⟩
        · cases hvalues
        · obtain ⟨_, _, _, _, -, hvalues, -⟩ := hcontinued.head
          cases hvalues
      simp only [radixOf, if_neg hne]

/-- A spelling of an integer is read as that integer where it fits, and is rejected otherwise. -/
theorem integer_spelled {text : Name} {n : Int} (h : Numeral text n) (s : Cursor) :
    (Fits n → ∃ v, integer text s = .ok (v, s) ∧ v.toInt = n) ∧
    (¬ Fits n → integer text s = .error (.manifest s.position "Integer exceeds signed 64-bit range.")) := by
  cases h with
  | plain h hzero =>
      obtain ⟨c, rest, value, values', rfl, rfl, hvalue, hc, hrest⟩ := h.head
      have hne : (c == '+'.toUInt8 || c == '-'.toUInt8) = false ∧ (c == '-'.toUInt8) = false := by
        have hplus : digit '+'.toUInt8 = -1 ∧ digit '-'.toUInt8 = -1 := by decide
        have hdigit := (digit_iff (by omega) c).mpr hc
        constructor
        · rw [Bool.or_eq_false_iff, beq_eq_false_iff_ne, beq_eq_false_iff_ne]
          constructor <;> rintro rfl <;> omega
        · rw [beq_eq_false_iff_ne]
          rintro rfl
          omega
      rw [integer_cons, hne.1, hne.2, if_neg (by decide), radixOf_decimal h hzero, pure_bind]
      exact signed_run false (show (10 : UInt64).toNat = 10 from rfl) (by decide) (by decide) h s
  | @positive values text h hzero =>
      have hrun : integer ('+'.toUInt8 :: text) = signed false 10 text := by
        rw [integer_cons]
        exact (congrArg (· >>= _) (radixOf_decimal h hzero true)).trans (pure_bind _ _)
      rw [hrun]
      exact signed_run false (show (10 : UInt64).toNat = 10 from rfl) (by decide) (by decide) h s
  | @negative values text h hzero =>
      have hrun : integer ('-'.toUInt8 :: text) = signed true 10 text := by
        rw [integer_cons]
        exact (congrArg (· >>= _) (radixOf_decimal h hzero true)).trans (pure_bind _ _)
      rw [hrun]
      exact signed_run true (show (10 : UInt64).toNat = 10 from rfl) (by decide) (by decide) h s
  | @based letter radix values text hradix h =>
      have hrun : ∃ word : UInt64, word.toNat = radix ∧ radix ≤ 16 ∧ 0 < radix ∧
          integer ('0'.toUInt8 :: letter.toUInt8 :: text) = signed false word text := by
        simp only [radices, List.mem_cons, Prod.mk.injEq, List.not_mem_nil, or_false] at hradix
        rcases hradix with ⟨rfl, rfl⟩ | ⟨rfl, rfl⟩ | ⟨rfl, rfl⟩
        · exact ⟨16, rfl, by decide, by decide, rfl⟩
        · exact ⟨8, rfl, by decide, by decide, rfl⟩
        · exact ⟨2, rfl, by decide, by decide, rfl⟩
      obtain ⟨word, hword, hle, hpos, hrun⟩ := hrun
      rw [hrun]
      exact signed_run false hword hpos hle h s

theorem radices_bounds {letter : Char} {radix : Nat} (h : (letter, radix) ∈ radices) : 0 < radix ∧ radix ≤ 16 := by
  simp only [radices, List.mem_cons, Prod.mk.injEq, List.not_mem_nil, or_false] at h
  omega

theorem radixOf_sound {signedToken : Bool} {text : Name} {p : UInt64 × Name} {s t : Cursor}
    (h : radixOf signedToken text s = .ok (p, t)) :
    t = s ∧ ((p = (10, text) ∧ ∀ c rest, text ≠ '0'.toUInt8 :: c :: rest) ∨
      (signedToken = false ∧ ∃ letter radix, (letter, radix) ∈ radices ∧ text = '0'.toUInt8 :: letter.toUInt8 :: p.2 ∧
        p.1.toNat = radix)) := by
  unfold radixOf at h
  split at h
  · next zero letter rest =>
      split at h
      · next hzero =>
          split at h
          · next hletter =>
              rw [refuseIf_bind_eq_ok, Scan.pure_run, Except.ok.injEq, Prod.mk.injEq] at h
              obtain ⟨hsign, rfl, rfl⟩ := h
              refine ⟨rfl, .inr ⟨by simpa using hsign, ?_⟩⟩
              subst hzero
              rcases hletter with rfl | rfl | rfl
              · exact ⟨'x', 16, by simp [radices], rfl, rfl⟩
              · exact ⟨'o', 8, by simp [radices], rfl, rfl⟩
              · exact ⟨'b', 2, by simp [radices], rfl, rfl⟩
          · cases h
      · next hzero =>
          rw [Scan.pure_run, Except.ok.injEq, Prod.mk.injEq] at h
          obtain ⟨rfl, rfl⟩ := h
          refine ⟨rfl, .inl ⟨rfl, fun c rest' heq => hzero ?_⟩⟩
          exact (List.cons_eq_cons.mp heq).1
  · next hshort =>
      rw [Scan.pure_run, Except.ok.injEq, Prod.mk.injEq] at h
      obtain ⟨rfl, rfl⟩ := h
      exact ⟨rfl, .inl ⟨rfl, fun c rest heq => hshort _ c rest heq⟩⟩

/-- Without a zero in front of other bytes there is no leading zero. -/
theorem Continued.no_leading_zero {values : List Nat} {text : Name} (h : Continued 10 false values text)
    (hne : ∀ c rest, text ≠ '0'.toUInt8 :: c :: rest) (hzero : values.head? = some 0) : values = [0] := by
  obtain ⟨c, rest, value, values', rfl, rfl, hvalue, hc, hrest⟩ := h.head
  obtain rfl : value = 0 := by simpa using hzero
  cases rest with
  | nil => rw [(continued_nil.mp hrest).2]
  | cons d rest => exact absurd rfl (denotes_zero.mp hc ▸ hne d rest)

/-- Nothing but a spelling of an integer is read as one. -/
theorem integer_sound {text : Name} {v : Int64} {s t : Cursor} (h : integer text s = .ok (v, t)) :
    t = s ∧ Numeral text v.toInt := by
  cases text with
  | nil =>
      rw [integer, refuseIf_bind_eq_ok] at h
      exact absurd rfl h.1
  | cons c text =>
      rw [integer_cons] at h
      obtain ⟨p, u, hp, hsigned⟩ := Scan.bind_eq_ok.mp h
      obtain ⟨rfl, ⟨rfl, hne⟩ | ⟨hsign, letter, radix, hradix, htext, hword⟩⟩ := radixOf_sound hp
      · obtain ⟨rfl, values, hcontinued, hv⟩ := signed_sound (show (10 : UInt64).toNat = 10 from rfl) (by decide) (by decide) hsigned
        refine ⟨rfl, ?_⟩
        rw [hv]
        have hzero := hcontinued.no_leading_zero hne
        by_cases hminus : c = '-'.toUInt8
        · subst hminus
          exact .negative hcontinued hzero
        · have hnegative : (c == '-'.toUInt8) = false := by simpa using hminus
          rw [hnegative] at hcontinued ⊢
          by_cases hplus : c = '+'.toUInt8
          · subst hplus
            exact .positive hcontinued hzero
          · have hnone : (c == '+'.toUInt8 || false) = false := by simpa using hplus
            rw [hnone, if_neg (by decide)] at hcontinued
            exact .plain hcontinued hzero
      · have hfalse : (c == '-'.toUInt8) = false := (Bool.or_eq_false_iff.mp hsign).2
        rw [hsign, if_neg (by decide)] at htext
        rw [hfalse] at hsigned
        obtain ⟨hpos, hle⟩ := radices_bounds hradix
        obtain ⟨rfl, values, hcontinued, hv⟩ := signed_sound hword hpos hle hsigned
        rw [htext, hv]
        exact ⟨rfl, .based hradix hcontinued⟩

/-! ## Values -/

/-- The bytes that a spelling of an integer consists of. -/
def numeric : Name := nameOf "0123456789abcdefABCDEFxo_+-"

theorem numeric_plain {c : UInt8} (h : c ∈ numeric) :
    plain c = true ∧ c ≠ '\x22'.toUInt8 ∧ c ≠ '\x27'.toUInt8 ∧ c ≠ '['.toUInt8 ∧ c ≠ 't'.toUInt8 ∧ c ≠ 'l'.toUInt8 := by
  have hall : ∀ n : Fin 256, UInt8.ofNat n ∈ numeric → plain (UInt8.ofNat n) = true ∧ UInt8.ofNat n ≠ '\x22'.toUInt8 ∧
      UInt8.ofNat n ≠ '\x27'.toUInt8 ∧ UInt8.ofNat n ≠ '['.toUInt8 ∧ UInt8.ofNat n ≠ 't'.toUInt8 ∧ UInt8.ofNat n ≠ 'l'.toUInt8 := by
    decide +kernel
  simpa using hall ⟨c.toNat, c.toNat_lt⟩ (by simpa using h)

theorem denotes_numeric {value : Nat} {c : UInt8} (hvalue : value < 16) (h : Denotes value c) : c ∈ numeric := by
  have hall : ∀ v : Fin 16, (Nat.digitChar v).toUInt8 ∈ numeric ∧ (Nat.digitChar v).toUpper.toUInt8 ∈ numeric := by
    decide +kernel
  rcases h with rfl | rfl
  · exact (hall ⟨value, hvalue⟩).1
  · exact (hall ⟨value, hvalue⟩).2

theorem Continued.numeric {radix : Nat} (hradix : radix ≤ 16) {started : Bool} {values : List Nat} {text : Name}
    (h : Continued radix started values text) : ∀ c ∈ text, c ∈ numeric := by
  induction text generalizing started values with
  | nil => simp
  | cons c text ih =>
      rcases (continued_cons hradix).mp h with ⟨value, rest, hvalue, hc, -, hrest⟩ | ⟨-, rfl, hrest⟩
      · exact List.forall_mem_cons.mpr ⟨denotes_numeric (by omega) hc, ih hrest⟩
      · exact List.forall_mem_cons.mpr ⟨by decide, ih hrest⟩

theorem Numeral.numeric {text : Name} {n : Int} (h : Numeral text n) : text ≠ [] ∧ ∀ c ∈ text, c ∈ numeric := by
  cases h with
  | plain h =>
      refine ⟨?_, h.numeric (by decide)⟩
      rintro rfl
      simpa using continued_nil.mp h
  | positive h => exact ⟨List.cons_ne_nil _ _, List.forall_mem_cons.mpr ⟨by decide, h.numeric (by decide)⟩⟩
  | negative h => exact ⟨List.cons_ne_nil _ _, List.forall_mem_cons.mpr ⟨by decide, h.numeric (by decide)⟩⟩
  | based hradix h =>
      have hletter : ∀ p ∈ radices, p.1.toUInt8 ∈ Reader.numeric := by decide
      refine ⟨List.cons_ne_nil _ _, List.forall_mem_cons.mpr ⟨by decide, List.forall_mem_cons.mpr ⟨hletter _ hradix, ?_⟩⟩⟩
      exact h.numeric (radices_bounds hradix).2

/-- A value between double quotes is the encoding of the text that is spelled, up to the size limit. -/
theorem readValue_string {text : List Char} {spelling : Name} (h : Spells text spelling) (at' : Position) (rest : Name) :
    ((encode text).length ≤ maxProjectPathBytes →
      ∃ t, readValue ⟨at', '\x22'.toUInt8 :: spelling ++ '\x22'.toUInt8 :: rest⟩ = .ok ({ position := at', text := encode text }, t) ∧
        t.rest = rest) ∧
    (maxProjectPathBytes < (encode text).length →
      ∃ at'', readValue ⟨at', '\x22'.toUInt8 :: spelling ++ '\x22'.toUInt8 :: rest⟩ =
        .error (.manifest at'' "String exceeds 4096 bytes.")) := by
  have hrun : readValue ⟨at', '\x22'.toUInt8 :: spelling ++ '\x22'.toUInt8 :: rest⟩ =
      (string >>= fun text => pure { position := at', text := text })
        ⟨at', '\x22'.toUInt8 :: spelling ++ '\x22'.toUInt8 :: rest⟩ := by
    rw [readValue, Scan.bind_of_ok (position_run _), Scan.bind_of_ok (peek_run _), if_pos (.inl rfl)]
  have hstring := string_spelled h at' rest
  rw [hrun]
  constructor
  · intro hle
    rw [if_pos hle] at hstring
    obtain ⟨t, hstring, hrest⟩ := hstring
    exact ⟨t, Scan.bind_of_ok hstring _, hrest⟩
  · intro hlt
    rw [if_neg (Nat.not_le.mpr hlt)] at hstring
    obtain ⟨at'', hstring⟩ := hstring
    exact ⟨at'', Scan.bind_of_error hstring _⟩

/-- A value that spells an integer is that integer where it fits. -/
theorem readValue_integer {text : Name} {n : Int} (h : Numeral text n) (at' : Position) {rest : Name}
    (hrest : ∀ c ∈ rest.head?, plain c = false) :
    (Fits n → ∃ v t, readValue ⟨at', text ++ rest⟩ = .ok ({ position := at', kind := .integer, integer := v }, t) ∧ v.toInt = n ∧
      t.rest = rest) ∧
    (¬ Fits n → ∃ at'', readValue ⟨at', text ++ rest⟩ = .error (.manifest at'' "Integer exceeds signed 64-bit range.")) := by
  obtain ⟨hsome, hnumeric⟩ := h.numeric
  have htake : (text ++ rest).takeWhile plain = text := by
    rw [List.takeWhile_append_of_pos fun c hc => (numeric_plain (hnumeric c hc)).1]
    cases rest with
    | nil => simp
    | cons c rest => simp [hrest c rfl]
  set t : Cursor := Cursor.skip ⟨at', text ++ rest⟩ text with ht
  have htrest : t.rest = rest := by simp [ht, Cursor.skip]
  have hrun : readValue ⟨at', text ++ rest⟩ =
      (integer text >>= fun v => pure { position := at', kind := .integer, integer := v }) t := by
    have hpass : passWhile plain ⟨at', text ++ rest⟩ = .ok (text, t) := by
      rw [passWhile_run]
      simp only [htake]
      rfl
    obtain ⟨c, tail, rfl⟩ := List.exists_cons_of_ne_nil hsome
    have hc := numeric_plain (hnumeric c List.mem_cons_self)
    have hword : ¬ (c :: tail = nameOf "true" ∨ c :: tail = nameOf "false") := by
      rintro (heq | heq)
      · exact (numeric_plain (hnumeric 't'.toUInt8 (by rw [heq]; decide))).2.2.2.2.1 rfl
      · exact (numeric_plain (hnumeric 'l'.toUInt8 (by rw [heq]; decide))).2.2.2.2.2 rfl
    rw [readValue, Scan.bind_of_ok (position_run _), Scan.bind_of_ok (peek_run _), if_neg (by simp [hc]), if_neg (by simp [hc]),
      Scan.bind_of_ok hpass, if_neg hword]
  obtain ⟨hfits, hlarge⟩ := integer_spelled h t
  rw [hrun]
  constructor
  · intro hn
    obtain ⟨v, hv, htoInt⟩ := hfits hn
    exact ⟨v, t, Scan.bind_of_ok hv _, htoInt, htrest⟩
  · intro hn
    exact ⟨_, Scan.bind_of_error (hlarge hn) _⟩

/-- A source of the size that is allowed is passed over exactly when it encodes a clean text. -/
theorem read_encode {text : List Char} (hsize : (encode text).length ≤ maxManifestBytes) (initial : Manifest) :
    (Clean text → read (encode text) initial =
      (readTables initial.values { rest := encode text }).map fun p => { initial with values := p.1.values }) ∧
    (¬ Clean text → ∃ at' message, read (encode text) initial = .error (.manifest at' message) ∧ message ∈ strayMessages) := by
  have hstart : read (encode text) initial = (validateUtf8 (encode text) >>= fun _ =>
      readTables initial.values { rest := encode text } >>= fun p => pure { initial with values := p.1.values }) := by
    rw [read, rejectIf, if_neg (Nat.not_lt.mpr hsize)]
    rfl
  rw [hstart]
  constructor
  · intro hclean
    rw [(validateUtf8_iff _).mpr ⟨text, rfl, hclean⟩, ok_bind]
    cases readTables initial.values { rest := encode text } <;> rfl
  · intro hunclean
    obtain ⟨-, text', htext, hclean⟩ | ⟨at', message, hrun, hmessage, -⟩ | ⟨at', -, hinvalid⟩ := validateUtf8_cases (encode text)
    · exact absurd (encode_injective htext ▸ hclean) hunclean
    · exact ⟨at', message, by rw [hrun]; rfl, hmessage⟩
    · exact absurd rfl (hinvalid text)

/-- The reader decodes exactly. It ends on every source, with a manifest or with a message. What
it accepts is the encoding of a clean text, and no encoding of a text is rejected for not being
one. Between double quotes every spelling of a text, up to the size limit, stands for the
encoding of that text. A spelling of an integer stands for that integer if it fits sixty-four
bits and is rejected if it does not, and nothing else is read as an integer. -/
theorem read_exact :
    (∀ source initial, (∃ result, read source initial = .ok result) ∨
      ∃ at' message, read source initial = .error (.manifest at' message)) ∧
    (∀ source initial result, read source initial = .ok result → ∃ text, source = encode text ∧ Clean text) ∧
    (∀ text initial, (encode text).length ≤ maxManifestBytes →
      (Clean text → read (encode text) initial =
        (readTables initial.values { rest := encode text }).map fun p => { initial with values := p.1.values }) ∧
      (¬ Clean text → ∃ at' message, read (encode text) initial = .error (.manifest at' message) ∧ message ∈ strayMessages)) ∧
    (∀ text spelling at' rest, Spells text spelling →
      ((encode text).length ≤ maxProjectPathBytes →
        ∃ t, readValue ⟨at', '\x22'.toUInt8 :: spelling ++ '\x22'.toUInt8 :: rest⟩ =
          .ok ({ position := at', text := encode text }, t) ∧ t.rest = rest) ∧
      (maxProjectPathBytes < (encode text).length →
        ∃ at'', readValue ⟨at', '\x22'.toUInt8 :: spelling ++ '\x22'.toUInt8 :: rest⟩ =
          .error (.manifest at'' "String exceeds 4096 bytes."))) ∧
    (∀ text n at' rest, Numeral text n → (∀ c ∈ rest.head?, plain c = false) →
      (Fits n → ∃ v t, readValue ⟨at', text ++ rest⟩ = .ok ({ position := at', kind := .integer, integer := v }, t) ∧
        v.toInt = n ∧ t.rest = rest) ∧
      (¬ Fits n → ∃ at'', readValue ⟨at', text ++ rest⟩ = .error (.manifest at'' "Integer exceeds signed 64-bit range."))) ∧
    (∀ text s v t, integer text s = .ok (v, t) → t = s ∧ Numeral text v.toInt) := by
  refine ⟨fun source initial => ?_, fun source initial result h => ?_, fun text initial hsize => read_encode hsize initial,
    fun text spelling at' rest h => readValue_string h at' rest, fun text n at' rest h hrest => readValue_integer h at' hrest,
    fun text s v t h => integer_sound h⟩
  · cases hrun : read source initial with
    | ok result => exact .inl ⟨result, rfl⟩
    | error e =>
        cases e with
        | manifest at' message => exact .inr ⟨at', message, rfl⟩
        | unfinished => exact absurd hrun (read_ends source initial)
  · exact (validateUtf8_iff source).mp (validated_of_read h).2

/-- An escape in capital digits, and a negative integer with an underscore. -/
theorem read_exact_accented :
    (∃ t, readValue ⟨{}, nameOf "\"x\\u00E9\"\n"⟩ = .ok ({ text := [0x78, 0xc3, 0xa9] }, t) ∧ t.rest = nameOf "\n") ∧
    ∃ v t, readValue ⟨{}, nameOf "-1_0\n"⟩ = .ok ({ kind := .integer, integer := v }, t) ∧ v.toInt = -10 ∧ t.rest = nameOf "\n" := by
  have hescape : Spells ['x', 'é'] (nameOf "x\\u00E9") := by
    refine ⟨[String.utf8EncodeChar 'x', nameOf "\\u00E9"], .cons (.literal (by decide)) (.cons ?_ .nil), by decide⟩
    refine @Spelling.short 'é' [0, 0, 14, 9] (nameOf "00E9") ?_ (by decide) (by decide)
    exact .cons ⟨by decide, .inl (by decide)⟩ (.cons ⟨by decide, .inl (by decide)⟩ (.cons ⟨by decide, .inr (by decide)⟩
      (.cons ⟨by decide, .inl (by decide)⟩ .nil)))
  have hnegative : Numeral (nameOf "-1_0") (-10) := by
    refine @Numeral.negative [1, 0] (nameOf "1_0") ⟨nameOf "1", [nameOf "0"], by decide, .inr (by decide), by decide, ?_⟩ (by decide)
    exact .cons ⟨by decide, .inl (by decide)⟩ (.cons ⟨by decide, .inl (by decide)⟩ .nil)
  refine ⟨?_, ?_⟩
  · exact (read_exact.2.2.2.1 ['x', 'é'] (nameOf "x\\u00E9") {} (nameOf "\n") hescape).1 (by
      rw [show (encode ['x', 'é']).length = 3 from rfl, maxProjectPathBytes]
      omega)
  · exact (read_exact.2.2.2.2.1 (nameOf "-1_0") (-10) {} (nameOf "\n") hnegative (by
      intro c hc
      cases hc
      rfl)).1 (by
      unfold Fits
      omega)

end Disco.Project.Reader
