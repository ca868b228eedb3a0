import Disco.Library.Placement

/-! # Patching bytes in place

A patch is a list of writes. Positions that are not written keep their byte;
when no position is written twice, every write is found in the result and the
order of the writes does not matter. Patching placed pieces where they lie is
the same as placing the patched pieces.
-/

namespace Disco.Library

/-- A byte to store and where. -/
abbrev Write := Nat × UInt8

def applyWrites : List Write → Bytes → Bytes
  | [], bytes => bytes
  | (position, value) :: rest, bytes => applyWrites rest (bytes.set position value)

@[simp] theorem applyWrites_length (writes : List Write) (bytes : Bytes) :
    (applyWrites writes bytes).length = bytes.length := by
  induction writes generalizing bytes with
  | nil => rfl
  | cons write rest ih => rw [applyWrites, ih, List.length_set]

theorem applyWrites_append (first second : List Write) (bytes : Bytes) :
    applyWrites (first ++ second) bytes = applyWrites second (applyWrites first bytes) := by
  induction first generalizing bytes with
  | nil => rfl
  | cons write rest ih => rw [List.cons_append, applyWrites, applyWrites, ih]

theorem applyWrites_getElem?_of_notMem {writes : List Write} {bytes : Bytes} {p : Nat}
    (h : p ∉ writes.map Prod.fst) : (applyWrites writes bytes)[p]? = bytes[p]? := by
  induction writes generalizing bytes with
  | nil => rfl
  | cons write rest ih =>
      rw [List.map_cons, List.mem_cons, not_or] at h
      rw [applyWrites, ih h.2, List.getElem?_set_ne (Ne.symm h.1)]

theorem applyWrites_getElem?_of_mem {writes : List Write} {bytes : Bytes} {p : Nat} {value : UInt8}
    (hn : (writes.map Prod.fst).Nodup) (hm : (p, value) ∈ writes) (hp : p < bytes.length) :
    (applyWrites writes bytes)[p]? = some value := by
  induction writes generalizing bytes with
  | nil => cases hm
  | cons write rest ih =>
      rw [List.map_cons, List.nodup_cons] at hn
      rw [applyWrites]
      rcases List.mem_cons.mp hm with rfl | hm
      · rw [applyWrites_getElem?_of_notMem hn.1, List.getElem?_set_self hp]
      · exact ih hn.2 hm (by simpa using hp)

/-- Writes to distinct positions commute. -/
theorem applyWrites_perm {first second : List Write} (hperm : first.Perm second)
    (hn : (first.map Prod.fst).Nodup) (bytes : Bytes) :
    applyWrites first bytes = applyWrites second bytes := by
  have hn' : (second.map Prod.fst).Nodup := ((hperm.map Prod.fst).nodup_iff).mp hn
  apply List.ext_getElem?
  intro p
  by_cases hp : p ∈ first.map Prod.fst
  · obtain ⟨⟨q, value⟩, hm, rfl⟩ := List.mem_map.mp hp
    by_cases hlt : q < bytes.length
    · rw [applyWrites_getElem?_of_mem hn hm hlt,
        applyWrites_getElem?_of_mem hn' (hperm.mem_iff.mp hm) hlt]
    · rw [List.getElem?_eq_none (by simpa using hlt), List.getElem?_eq_none (by simpa using hlt)]
  · have hp' : p ∉ second.map Prod.fst := fun hm => hp ((hperm.map Prod.fst).mem_iff.mpr hm)
    rw [applyWrites_getElem?_of_notMem hp, applyWrites_getElem?_of_notMem hp']

/-! ## Patching placed pieces -/

/-- Writes relative to a base. -/
def shiftWrites (base : Nat) (writes : List Write) : List Write :=
  writes.map fun write => (base + write.1, write.2)

/-- Writes that stay inside the first part leave the second alone. -/
theorem applyWrites_append_left {writes : List Write} {front back : Bytes}
    (h : ∀ write ∈ writes, write.1 < front.length) :
    applyWrites writes (front ++ back) = applyWrites writes front ++ back := by
  induction writes generalizing front with
  | nil => rfl
  | cons write rest ih =>
      have hfirst := h write (by simp)
      rw [applyWrites, applyWrites, List.set_append_left _ _ hfirst, ih]
      intro w hm
      rw [List.length_set]
      exact h w (by simp [hm])

/-- Writes shifted behind the first part act on the second. -/
theorem applyWrites_shift_append (writes : List Write) (front back : Bytes) :
    applyWrites (shiftWrites front.length writes) (front ++ back) =
      front ++ applyWrites writes back := by
  induction writes generalizing back with
  | nil => rfl
  | cons write rest ih =>
      rw [shiftWrites, List.map_cons, applyWrites, applyWrites,
        List.set_append_right _ _ (Nat.le_add_right _ _), Nat.add_sub_cancel_left]
      exact ih _

/-- Patching the image that pieces are placed behind. -/
theorem applyWrites_place_image {writes : List Write} {fill : UInt8} {origin : Nat}
    {pieces : List Piece} {image : Bytes} (tail : Bytes)
    (h : ∀ write ∈ writes, write.1 < image.length) :
    applyWrites writes (place fill origin pieces image ++ tail) =
      place fill origin pieces (applyWrites writes image) ++ tail := by
  rw [place_eq_append, place_eq_append, List.append_assoc, applyWrites_append_left h,
    applyWrites_length, List.append_assoc]

def Piece.patched (piece : Piece) (writes : List Write) : Piece :=
  { piece with bytes := applyWrites writes piece.bytes }

@[simp] theorem Piece.patched_length (piece : Piece) (writes : List Write) :
    (piece.patched writes).bytes.length = piece.bytes.length := applyWrites_length _ _

variable {ι : Type}

/-- Patched pieces are placed where the pieces were. -/
theorem placeBases_patched (origin : Nat) (items : List ι) (piece : ι → Piece)
    (writes : ι → List Write) (offset : Nat) :
    placeBases origin (items.map fun item => (piece item).patched (writes item)) offset =
      placeBases origin (items.map piece) offset := by
  induction items generalizing offset with
  | nil => rfl
  | cons item rest ih =>
      simp only [List.map_cons, placeBases, Piece.patched_length, ih]
      rfl

theorem placeEnd_patched (origin : Nat) (items : List ι) (piece : ι → Piece)
    (writes : ι → List Write) (offset : Nat) :
    placeEnd origin (items.map fun item => (piece item).patched (writes item)) offset =
      placeEnd origin (items.map piece) offset := by
  induction items generalizing offset with
  | nil => rfl
  | cons item rest ih =>
      simp only [List.map_cons, placeEnd, Piece.patched_length, ih]
      rfl

/-- Patching every piece in place is placing the patched pieces; what follows
the pieces is untouched. -/
theorem applyWrites_place {fill : UInt8} {origin : Nat} {items : List ι} {piece : ι → Piece}
    {base : ι → Nat} {writes : ι → List Write} {image : Bytes} (tail : Bytes)
    (hbase : items.map base = placeBases origin (items.map piece) image.length)
    (hin : ∀ item ∈ items, ∀ write ∈ writes item, write.1 < (piece item).bytes.length) :
    applyWrites (items.flatMap fun item => shiftWrites (base item) (writes item))
        (place fill origin (items.map piece) image ++ tail) =
      place fill origin (items.map fun item => (piece item).patched (writes item)) image ++
        tail := by
  induction items generalizing image with
  | nil => rfl
  | cons item rest ih =>
      simp only [List.map_cons, placeBases, List.cons.injEq] at hbase
      have hlength : base item = (image ++ List.replicate
          (gap origin (piece item).alignment image.length) fill).length := by
        simp [hbase.1]
      have hfirst : ∀ write ∈ shiftWrites (base item) (writes item), write.1 <
          (image ++ List.replicate (gap origin (piece item).alignment image.length) fill ++
            (piece item).bytes).length := by
        intro write hm
        obtain ⟨w, hw, rfl⟩ := List.mem_map.mp hm
        have hlt := hin item (by simp) w hw
        rw [List.length_append, ← hlength]
        exact Nat.add_lt_add_left hlt _
      have hshift := applyWrites_shift_append (writes item) (image ++ List.replicate
        (gap origin (piece item).alignment image.length) fill) (piece item).bytes
      rw [← hlength] at hshift
      rw [List.flatMap_cons, applyWrites_append, List.map_cons, List.map_cons, place, place,
        applyWrites_place_image tail hfirst, hshift]
      apply ih
      · rw [hbase.2]
        simp [Nat.add_assoc]
      · intro other hm
        exact hin other (by simp [hm])

end Disco.Library
