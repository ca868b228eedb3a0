import Disco.Library.Codec

/-! # Aligned placement of byte sequences

Pieces are appended one after another, each at the next offset whose final
address satisfies the piece's alignment. The loops that do this, one byte of
padding at a time, are related to the number of padding bytes in closed form,
and the placed image is described position by position.
-/

namespace Disco.Library

/-- Bytes of padding before the next aligned address. -/
def gap (origin alignment offset : Nat) : Nat :=
  (alignment - (origin + offset) % alignment) % alignment

theorem gap_lt {origin alignment offset : Nat} (h : 0 < alignment) :
    gap origin alignment offset < alignment := Nat.mod_lt _ h

theorem gap_eq_zero {origin alignment offset : Nat} (h : (origin + offset) % alignment = 0) :
    gap origin alignment offset = 0 := by
  unfold gap
  rw [h, Nat.sub_zero, Nat.mod_self]

theorem gap_of_unaligned {origin alignment offset : Nat} (h : 0 < alignment)
    (hne : (origin + offset) % alignment ≠ 0) :
    gap origin alignment offset = alignment - (origin + offset) % alignment := by
  have hlt := Nat.mod_lt (origin + offset) h
  exact Nat.mod_eq_of_lt (by omega)

theorem gap_aligned {origin alignment offset : Nat} (h : 0 < alignment) :
    (origin + (offset + gap origin alignment offset)) % alignment = 0 := by
  have hlt := Nat.mod_lt (origin + offset) h
  have hdiv := Nat.div_add_mod (origin + offset) alignment
  by_cases hz : (origin + offset) % alignment = 0
  · rw [gap_eq_zero hz, Nat.add_zero, hz]
  · have hnext : origin + (offset + gap origin alignment offset) =
        alignment * ((origin + offset) / alignment + 1) := by
      rw [gap_of_unaligned h hz, Nat.mul_succ]
      omega
    rw [hnext]
    exact Nat.mul_mod_right _ _

theorem gap_succ {origin alignment offset : Nat} (h : 0 < alignment)
    (hne : (origin + offset) % alignment ≠ 0) :
    gap origin alignment offset = gap origin alignment (offset + 1) + 1 := by
  have hlt := Nat.mod_lt (origin + offset) h
  have hone : 1 < alignment := by
    by_contra hle
    have : alignment = 1 := by omega
    subst this
    exact hne (Nat.mod_one _)
  rw [gap_of_unaligned h hne]
  by_cases hlast : (origin + offset) % alignment = alignment - 1
  · have hnext : (origin + (offset + 1)) % alignment = 0 := by
      rw [← Nat.add_assoc, Nat.add_mod, hlast, Nat.mod_eq_of_lt hone,
        show alignment - 1 + 1 = alignment by omega, Nat.mod_self]
    rw [gap_eq_zero hnext]
    omega
  · have hnext : (origin + (offset + 1)) % alignment = (origin + offset) % alignment + 1 := by
      rw [← Nat.add_assoc, Nat.add_mod, Nat.mod_eq_of_lt hone, Nat.mod_eq_of_lt (by omega)]
    rw [gap_of_unaligned h (by omega), hnext]
    omega

/-! ## Padding loops -/

/-- Advance a counter while its address is unaligned. -/
def alignOffset (origin alignment : Nat) : Nat → Nat → Nat
  | 0, offset => offset
  | fuel + 1, offset =>
      if (origin + offset) % alignment ≠ 0 then alignOffset origin alignment fuel (offset + 1)
      else offset

/-- Append a fill byte and advance a counter while its address is unaligned. -/
def alignSection (fill : UInt8) (origin alignment : Nat) : Nat → Bytes × Nat → Bytes × Nat
  | 0, state => state
  | fuel + 1, (bytes, offset) =>
      if (origin + offset) % alignment ≠ 0 then
        alignSection fill origin alignment fuel (bytes ++ [fill], offset + 1)
      else (bytes, offset)

/-- `alignment` rounds are enough for the counter to reach an aligned address. -/
theorem alignOffset_eq {origin alignment fuel offset : Nat} (h : 0 < alignment)
    (hf : gap origin alignment offset ≤ fuel) :
    alignOffset origin alignment fuel offset = offset + gap origin alignment offset := by
  induction fuel generalizing offset with
  | zero =>
      rw [alignOffset]
      omega
  | succ fuel ih =>
      rw [alignOffset]
      by_cases hz : (origin + offset) % alignment = 0
      · rw [if_neg (by simp [hz]), gap_eq_zero hz, Nat.add_zero]
      · have hs := gap_succ h hz
        rw [if_pos hz, ih (by omega)]
        omega

theorem alignSection_eq {fill : UInt8} {origin alignment fuel offset : Nat} {bytes : Bytes}
    (h : 0 < alignment) (hf : gap origin alignment offset ≤ fuel) :
    alignSection fill origin alignment fuel (bytes, offset) =
      (bytes ++ List.replicate (gap origin alignment offset) fill,
        offset + gap origin alignment offset) := by
  induction fuel generalizing offset bytes with
  | zero =>
      have hz : gap origin alignment offset = 0 := by omega
      rw [alignSection, hz]
      simp
  | succ fuel ih =>
      rw [alignSection]
      by_cases hz : (origin + offset) % alignment = 0
      · rw [if_neg (by simp [hz]), gap_eq_zero hz]
        simp
      · have hs := gap_succ h hz
        rw [if_pos hz, ih (by omega), hs, List.replicate_succ, List.append_assoc, Nat.add_assoc,
          Nat.add_comm 1]
        rfl

/-! ## Placed images -/

/-- A piece with the alignment its address must satisfy. -/
structure Piece where
  alignment : Nat
  bytes : Bytes

/-- Append every piece at its next aligned offset. -/
def place (fill : UInt8) (origin : Nat) : List Piece → Bytes → Bytes
  | [], image => image
  | piece :: rest, image =>
      place fill origin rest
        (image ++ List.replicate (gap origin piece.alignment image.length) fill ++ piece.bytes)

/-- The offset each piece is placed at. -/
def placeBases (origin : Nat) : List Piece → Nat → List Nat
  | [], _ => []
  | piece :: rest, offset =>
      let base := offset + gap origin piece.alignment offset
      base :: placeBases origin rest (base + piece.bytes.length)

/-- The offset after the last piece. -/
def placeEnd (origin : Nat) : List Piece → Nat → Nat
  | [], offset => offset
  | piece :: rest, offset =>
      placeEnd origin rest (offset + gap origin piece.alignment offset + piece.bytes.length)

@[simp] theorem placeBases_length (origin : Nat) (pieces : List Piece) (offset : Nat) :
    (placeBases origin pieces offset).length = pieces.length := by
  induction pieces generalizing offset with
  | nil => rfl
  | cons piece rest ih => simp [placeBases, ih]

theorem place_length (fill : UInt8) (origin : Nat) (pieces : List Piece) (image : Bytes) :
    (place fill origin pieces image).length = placeEnd origin pieces image.length := by
  induction pieces generalizing image with
  | nil => rfl
  | cons piece rest ih =>
      rw [place, placeEnd, ih]
      simp [Nat.add_assoc]

theorem le_placeEnd (origin : Nat) (pieces : List Piece) (offset : Nat) :
    offset ≤ placeEnd origin pieces offset := by
  induction pieces generalizing offset with
  | nil => exact Nat.le_refl _
  | cons piece rest ih =>
      rw [placeEnd]
      exact Nat.le_trans (by omega) (ih _)

/-- What placement adds behind an image of the given length. -/
def placeTail (fill : UInt8) (origin : Nat) : List Piece → Nat → Bytes
  | [], _ => []
  | piece :: rest, offset =>
      List.replicate (gap origin piece.alignment offset) fill ++ piece.bytes ++
        placeTail fill origin rest
          (offset + gap origin piece.alignment offset + piece.bytes.length)

/-- Placement only appends, and what it appends depends on the image's length only. -/
theorem place_eq_append (fill : UInt8) (origin : Nat) (pieces : List Piece) (image : Bytes) :
    place fill origin pieces image = image ++ placeTail fill origin pieces image.length := by
  induction pieces generalizing image with
  | nil => simp [place, placeTail]
  | cons piece rest ih =>
      rw [place, placeTail, ih]
      simp [Nat.add_assoc]

/-- Where each piece lies: aligned, after what was there before, inside the
image, and clear of every later piece. -/
structure Placed (origin start finish : Nat) (pieces : List Piece) (bases : List Nat) : Prop where
  count : bases.length = pieces.length
  aligned : ∀ (i : Nat) (piece : Piece) (base : Nat), pieces[i]? = some piece → bases[i]? = some base →
    (origin + base) % piece.alignment = 0
  within : ∀ (i : Nat) (piece : Piece) (base : Nat), pieces[i]? = some piece → bases[i]? = some base →
    start ≤ base ∧ base + piece.bytes.length ≤ finish
  ordered : ∀ (i j : Nat) (piece : Piece) (base next : Nat), i < j → pieces[i]? = some piece →
    bases[i]? = some base → bases[j]? = some next → base + piece.bytes.length ≤ next

theorem placed_placeBases (origin : Nat) (pieces : List Piece) (offset : Nat)
    (h : ∀ piece ∈ pieces, 0 < piece.alignment) :
    Placed origin offset (placeEnd origin pieces offset) pieces (placeBases origin pieces offset) := by
  induction pieces generalizing offset with
  | nil => exact ⟨rfl, by simp, by simp, by simp⟩
  | cons piece rest ih =>
      have hpos := h piece (by simp)
      have hrest := ih (offset + gap origin piece.alignment offset + piece.bytes.length)
        (fun p hm => h p (by simp [hm]))
      have hend := le_placeEnd origin rest
        (offset + gap origin piece.alignment offset + piece.bytes.length)
      refine ⟨by simp, ?_, ?_, ?_⟩
      · intro i p base hp hb
        cases i with
        | zero =>
            simp only [placeBases, List.getElem?_cons_zero, Option.some.injEq] at hp hb
            subst hp hb
            exact gap_aligned hpos
        | succ i => exact hrest.aligned i p base hp hb
      · intro i p base hp hb
        cases i with
        | zero =>
            simp only [placeBases, List.getElem?_cons_zero, Option.some.injEq] at hp hb
            subst hp hb
            rw [placeEnd]
            omega
        | succ i =>
            have hw := hrest.within i p base hp hb
            rw [placeEnd]
            omega
      · intro i j p base next hlt hp hb hn
        cases j with
        | zero => omega
        | succ j =>
            cases i with
            | zero =>
                simp only [placeBases, List.getElem?_cons_zero, Option.some.injEq,
                  List.getElem?_cons_succ] at hp hb hn
                subst hp hb
                obtain ⟨q, hq⟩ : ∃ q, rest[j]? = some q := by
                  have hj := (List.getElem?_eq_some_iff.mp hn).1
                  rw [placeBases_length] at hj
                  exact ⟨_, List.getElem?_eq_getElem hj⟩
                exact (hrest.within j q next hq hn).1
            | succ i => exact hrest.ordered i j p base next (by omega) hp hb hn

/-- Every byte of a piece is found at the piece's base. -/
theorem place_getElem? (fill : UInt8) (origin : Nat) (pieces : List Piece) (image : Bytes)
    {i k base : Nat} {piece : Piece} (hp : pieces[i]? = some piece)
    (hb : (placeBases origin pieces image.length)[i]? = some base) (hk : k < piece.bytes.length) :
    (place fill origin pieces image)[base + k]? = piece.bytes[k]? := by
  induction pieces generalizing image i with
  | nil => simp at hp
  | cons first rest ih =>
      cases i with
      | zero =>
          simp only [placeBases, List.getElem?_cons_zero, Option.some.injEq] at hp hb
          subst hp hb
          rw [place, place_eq_append, List.getElem?_append_left (by simp; omega),
            List.getElem?_append_right (by simp)]
          simp
      | succ i =>
          rw [place]
          refine ih _ hp ?_
          simpa [placeBases, Nat.add_assoc] using hb

/-- Bytes of the image that belong to no piece are padding. -/
theorem place_fill (fill : UInt8) (origin : Nat) (pieces : List Piece) (image : Bytes) {p : Nat}
    (hle : image.length ≤ p) (hlt : p < (place fill origin pieces image).length)
    (hout : ∀ (i : Nat) (piece : Piece) (base : Nat), pieces[i]? = some piece →
      (placeBases origin pieces image.length)[i]? = some base →
        p < base ∨ base + piece.bytes.length ≤ p) :
    (place fill origin pieces image)[p]? = some fill := by
  induction pieces generalizing image with
  | nil => simp only [place] at hlt; omega
  | cons first rest ih =>
      rw [place] at hlt ⊢
      by_cases hp : p < image.length + gap origin first.alignment image.length
      · -- Padding of the first piece.
        rw [place_eq_append, List.getElem?_append_left (by simp; omega),
          List.getElem?_append_left (by simpa),
          List.getElem?_append_right hle, List.getElem?_replicate, if_pos (by omega)]
      · have hfirst := hout 0 first (image.length + gap origin first.alignment image.length)
          (by simp) (by simp [placeBases])
        refine ih _ (by simp; omega) hlt ?_
        intro i piece base hpiece hbase
        refine hout (i + 1) piece base (by simpa using hpiece) ?_
        simpa [placeBases, Nat.add_assoc] using hbase

end Disco.Library
