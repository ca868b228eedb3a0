import Disco.Backend.AllocatedHomes
import Disco.Backend.LocalPlan

/-! # The frame of a function

Values without a register get a word of the frame below the locals, unless they
are never stored. Values of one spill slot share a word. The remainders of
divisions come last. Addresses whose proof the larger frame loses are stored
after all.
-/

namespace Disco.Backend.FramePlan

open IR Library LinearScan Verifier

section Frame

variable (f : Function) (locations : Locations) (isElided : Nat → Bool)

/-- The frame while it grows downwards. -/
structure Frame where
  bytes : Int
  spillOffsets : List (Nat × Int) := []
  shared : List (Int × Int) := []
  divmodOffsets : List (Nat × Int) := []
  deriving DecidableEq, Repr

def Frame.spillOffset (frame : Frame) (v : Nat) : Option Int := frame.spillOffsets.lookup v

def needsStorage (v : Nat) : Bool :=
  !isElided v && !decide (useCount f v = 0) &&
    !(locations v).any fun place => place.rematerializable || place.hasRegister

def width (v : Nat) : Int := if isFarPointer (f.typeOf v) then 4 else 2

def pointerFrameFull : String := "IR codegen: checked pointer frame exceeds one RAM bank."

def divmodFrameFull : String := "IR codegen: divmod frame exceeds one RAM bank."

/-- A word for one value, or the word its slot already has. -/
def placeValue (frame : Frame) (v : Nat) : Except String Frame :=
  if !needsStorage f locations isElided v then .ok frame
  else
    let slot := slotOf locations v
    match slot.bind fun slot => frame.shared.lookup slot with
    | some offset => .ok { frame with spillOffsets := (v, offset) :: frame.spillOffsets }
    | none => do
        rejectIf (frame.bytes > 65526 - width f v) pointerFrameFull
        let bytes := frame.bytes + width f v
        pure { frame with
          bytes := bytes
          spillOffsets := (v, -bytes) :: frame.spillOffsets
          shared := (slot.map fun slot => (slot, -bytes)).toList ++ frame.shared }

/-- A word for the remainder of a division. -/
def placeRemainder (frame : Frame) (i : Instruction) : Except String Frame :=
  if i.opcode ≠ .divMod then .ok frame
  else do
    rejectIf (frame.bytes > 65524) divmodFrameFull
    pure { frame with
      bytes := frame.bytes + 2
      divmodOffsets := (i.result, -(frame.bytes + 2)) :: frame.divmodOffsets }

/-- The word below the last value stays empty. -/
def separate (used : Bool) (frame : Frame) : Frame := if used then { frame with bytes := frame.bytes + 2 } else frame

def planFrameStorage : Except String Frame := do
  let frame ← foldAll (placeValue f locations isElided) { bytes := f.totalLocalAllocSize } (locatedValues f)
  let frame := separate (!frame.spillOffsets.isEmpty) frame
  let frame ← foldAll placeRemainder frame f.instructions
  pure (separate (!frame.divmodOffsets.isEmpty) frame)

end Frame

/-- Plan the values, then the frame; where the larger frame loses the proof of an
address, store all addresses after all. -/
def planFrame (f : Function) (locations : Locations) (proven : Int → Nat → Int → Bool) : Except String Frame := do
  let plan := planLocalValues f locations (proven f.totalLocalAllocSize)
  let frame ← planFrameStorage f locations (elided f plan)
  if plan.addressWidths.any fun address => !proven frame.bytes address.1 address.2 then
    let stored := { plan with ephemeral := plan.ephemeral.filter fun v => !(plan.addressWidths.map Prod.fst).contains v }
    planFrameStorage f locations (elided f stored)
  else pure frame

/-! ## Ranges of the frame -/

/-- Two ranges of bytes do not meet. -/
def Apart (offset size offset' size' : Int) : Prop := offset + size ≤ offset' ∨ offset' + size' ≤ offset

def SharesSlot (locations : Locations) (v w : Nat) : Prop :=
  ∃ slot, slotOf locations v = some slot ∧ slotOf locations w = some slot

section Layout

variable {f : Function} {locations : Locations} {isElided : Nat → Bool} {frame frame' : Frame} {seen : List Nat}

theorem width_pos (f : Function) (v : Nat) : 2 ≤ width f v := by
  unfold width
  split <;> omega

/-- The frame after some values: those that need a word have one, and words of
different slots are apart. -/
structure Laid (f : Function) (locations : Locations) (isElided : Nat → Bool) (seen : List Nat) (frame : Frame) : Prop where
  floor : f.totalLocalAllocSize ≤ frame.bytes
  size : (frame.bytes = f.totalLocalAllocSize ∧ frame.spillOffsets = []) ∨ frame.bytes ≤ 65526
  stored : ∀ v, (frame.spillOffset v).isSome ↔ v ∈ seen ∧ needsStorage f locations isElided v = true
  within : ∀ v o, frame.spillOffset v = some o → -frame.bytes ≤ o ∧ o + width f v ≤ -f.totalLocalAllocSize
  slots : ∀ v o slot, frame.spillOffset v = some o → slotOf locations v = some slot → frame.shared.lookup slot = some o
  owners : ∀ slot o, frame.shared.lookup slot = some o →
    ∃ v, frame.spillOffset v = some o ∧ slotOf locations v = some slot
  apart : ∀ v w o o', v ≠ w → frame.spillOffset v = some o → frame.spillOffset w = some o' →
    Apart o (width f v) o' (width f w) ∨ SharesSlot locations v w
  untouched : frame.divmodOffsets = []

theorem laid_start : Laid f locations isElided [] { bytes := f.totalLocalAllocSize } where
  floor := le_rfl
  size := .inl ⟨rfl, rfl⟩
  stored := by simp [Frame.spillOffset]
  within := by simp [Frame.spillOffset]
  slots := by simp [Frame.spillOffset]
  owners := by simp
  apart := by simp [Frame.spillOffset]
  untouched := rfl

@[simp] theorem spillOffset_cons (v w : Nat) (o bytes : Int) (offsets : List (Nat × Int)) (shared : List (Int × Int))
    (divmod : List (Nat × Int)) :
    Frame.spillOffset ⟨bytes, (v, o) :: offsets, shared, divmod⟩ w =
      if w = v then some o else offsets.lookup w := by
  unfold Frame.spillOffset
  by_cases h : w = v
  · simp [h]
  · have hbeq : (w == v) = false := by simpa using h
    simp [List.lookup_cons, hbeq, h]

/-- A value whose slot has a word takes it. -/
theorem laid_shared (hnear : ∀ v slot, slotOf locations v = some slot → width f v = 2)
    (h : Laid f locations isElided seen frame) {v : Nat} {slot offset : Int} (hnew : v ∉ seen)
    (hneeds : needsStorage f locations isElided v = true) (hslot : slotOf locations v = some slot)
    (hshared : frame.shared.lookup slot = some offset) :
    Laid f locations isElided (seen ++ [v]) { frame with spillOffsets := (v, offset) :: frame.spillOffsets } := by
  obtain ⟨owner, howner, hownerSlot⟩ := h.owners slot offset hshared
  have hwidth : width f owner = width f v := (hnear owner slot hownerSlot).trans (hnear v slot hslot).symm
  have hbound := h.within owner offset howner
  have hnone : frame.spillOffset v = none := by
    rw [← Option.not_isSome_iff_eq_none, h.stored]
    exact fun hseen => hnew hseen.1
  -- against another value the word is apart because the owner's is
  have hother : ∀ w o, w ≠ v → frame.spillOffset w = some o →
      Apart offset (width f v) o (width f w) ∨ SharesSlot locations v w := by
    intro w o hne hw
    by_cases hsame : w = owner
    · exact .inr ⟨slot, hslot, hsame ▸ hownerSlot⟩
    · cases h.apart owner w offset o (Ne.symm hsame) howner hw with
      | inl hapart => exact .inl (hwidth ▸ hapart)
      | inr hshares =>
          obtain ⟨slot', howner', hw'⟩ := hshares
          rw [hownerSlot] at howner'
          cases howner'
          exact .inr ⟨slot, hslot, hw'⟩
  have hsize : frame.bytes ≤ 65526 := by
    cases h.size with
    | inl hempty => simp [Frame.spillOffset, hempty.2] at howner
    | inr hsize => exact hsize
  refine ⟨h.floor, .inr hsize, ?_, ?_, ?_, ?_, ?_, h.untouched⟩
  · intro w
    rw [spillOffset_cons, List.mem_append, List.mem_singleton]
    split
    · next heq => simp [heq, hneeds]
    · next hne =>
        have hold := h.stored w
        unfold Frame.spillOffset at hold
        simp [hold, hne]
  · intro w o hw
    rw [spillOffset_cons] at hw
    split at hw
    · next heq =>
        cases hw
        rw [heq, ← hwidth]
        exact hbound
    · exact h.within w o hw
  · intro w o slot' hw hslot'
    rw [spillOffset_cons] at hw
    split at hw
    · next heq =>
        cases hw
        rw [heq, hslot] at hslot'
        cases hslot'
        exact hshared
    · exact h.slots w o slot' hw hslot'
  · intro slot' o hlookup
    obtain ⟨w, hw, hwslot⟩ := h.owners slot' o hlookup
    refine ⟨w, ?_, hwslot⟩
    have hne : w ≠ v := by
      intro heq
      rw [heq, hnone] at hw
      cases hw
    rw [spillOffset_cons, if_neg hne]
    exact hw
  · intro w x o o' hne hw hx
    rw [spillOffset_cons] at hw hx
    split at hw
    · next heq =>
        cases hw
        rw [heq] at hne ⊢
        rw [if_neg (Ne.symm hne)] at hx
        exact hother x o' (Ne.symm hne) hx
    · next hnev =>
        split at hx
        · next heq =>
            cases hx
            rw [heq]
            cases hother w o hnev hw with
            | inl hapart => exact .inl hapart.symm
            | inr hshares =>
                obtain ⟨slot', hv', hw'⟩ := hshares
                exact .inr ⟨slot', hw', hv'⟩
        · exact h.apart w x o o' hne hw hx

/-- A value gets a new word below everything else. -/
theorem laid_new (h : Laid f locations isElided seen frame) {v : Nat} (hnew : v ∉ seen)
    (hneeds : needsStorage f locations isElided v = true) (hsize : frame.bytes + width f v ≤ 65526)
    (hunshared : ∀ slot, slotOf locations v = some slot → frame.shared.lookup slot = none) :
    Laid f locations isElided (seen ++ [v])
      { frame with
        bytes := frame.bytes + width f v
        spillOffsets := (v, -(frame.bytes + width f v)) :: frame.spillOffsets
        shared := ((slotOf locations v).map fun slot => (slot, -(frame.bytes + width f v))).toList ++ frame.shared } := by
  have hwidth := width_pos f v
  have hfloor := h.floor
  have hnone : frame.spillOffset v = none := by
    rw [← Option.not_isSome_iff_eq_none, h.stored]
    exact fun hseen => hnew hseen.1
  have hlookup : ∀ slot, (((slotOf locations v).map fun slot => (slot, -(frame.bytes + width f v))).toList ++
      frame.shared).lookup slot =
      if slotOf locations v = some slot then some (-(frame.bytes + width f v)) else frame.shared.lookup slot := by
    intro slot
    cases hslot : slotOf locations v with
    | none => simp
    | some own =>
        by_cases heq : slot = own
        · simp [heq]
        · have hbeq : (slot == own) = false := by simpa using heq
          simp [List.lookup_cons, hbeq, Ne.symm heq]
  have hbelow : ∀ w o, frame.spillOffset w = some o → Apart (-(frame.bytes + width f v)) (width f v) o (width f w) := by
    intro w o hw
    have hbound := h.within w o hw
    exact .inl (by omega)
  refine ⟨?_, ?_, ?_, ?_, ?_, ?_, ?_, h.untouched⟩
  · dsimp only
    omega
  · exact .inr hsize
  · intro w
    rw [spillOffset_cons, List.mem_append, List.mem_singleton]
    split
    · next heq => simp [heq, hneeds]
    · next hne =>
        have hold := h.stored w
        unfold Frame.spillOffset at hold
        simp [hold, hne]
  · intro w o hw
    rw [spillOffset_cons] at hw
    dsimp only
    split at hw
    · next heq =>
        cases hw
        rw [heq]
        omega
    · have hbound := h.within w o hw
      omega
  · intro w o slot hw hslot
    rw [spillOffset_cons] at hw
    rw [hlookup]
    split at hw
    · next heq =>
        cases hw
        rw [heq] at hslot
        rw [if_pos hslot]
    · have hold := h.slots w o slot hw hslot
      split
      · next hown =>
          rw [hunshared slot hown] at hold
          cases hold
      · exact hold
  · intro slot o hshared
    rw [hlookup] at hshared
    split at hshared
    · next hown =>
        cases hshared
        exact ⟨v, by rw [spillOffset_cons, if_pos rfl], hown⟩
    · obtain ⟨w, hw, hwslot⟩ := h.owners slot o hshared
      refine ⟨w, ?_, hwslot⟩
      have hne : w ≠ v := by
        intro heq
        rw [heq, hnone] at hw
        cases hw
      rw [spillOffset_cons, if_neg hne]
      exact hw
  · intro w x o o' hne hw hx
    rw [spillOffset_cons] at hw hx
    split at hw
    · next heq =>
        cases hw
        rw [heq] at hne ⊢
        rw [if_neg (Ne.symm hne)] at hx
        exact .inl (hbelow x o' hx)
    · split at hx
      · next heq =>
          cases hx
          rw [heq]
          exact .inl (hbelow w o hw).symm
      · exact h.apart w x o o' hne hw hx

theorem placeValue_laid (hnear : ∀ v slot, slotOf locations v = some slot → width f v = 2) {v : Nat} (hnew : v ∉ seen)
    (h : Laid f locations isElided seen frame) (hplace : placeValue f locations isElided frame v = .ok frame') :
    Laid f locations isElided (seen ++ [v]) frame' := by
  unfold placeValue at hplace
  split at hplace
  · next hskip =>
      cases hplace
      rw [Bool.not_eq_true'] at hskip
      refine ⟨h.floor, h.size, ?_, h.within, h.slots, h.owners, h.apart, h.untouched⟩
      intro w
      rw [h.stored w, List.mem_append, List.mem_singleton]
      by_cases heq : w = v
      · simp [heq, hskip]
      · simp [heq]
  · next hneeds =>
      rw [Bool.not_eq_true', Bool.not_eq_false] at hneeds
      dsimp only at hplace
      split at hplace
      · next offset hshared =>
          cases hplace
          obtain ⟨slot, hslot, hlookup⟩ := Option.bind_eq_some_iff.mp hshared
          exact laid_shared hnear h hnew hneeds hslot hlookup
      · next hunshared =>
          obtain ⟨hsize, hplace⟩ := rejectIf_bind_eq_ok.mp hplace
          cases hplace
          apply laid_new h hnew hneeds (by omega)
          intro slot hslot
          rw [hslot] at hunshared
          exact hunshared

theorem laid_all (hnear : ∀ v slot, slotOf locations v = some slot → width f v = 2)
    (hplace : foldAll (placeValue f locations isElided) { bytes := f.totalLocalAllocSize } (locatedValues f) = .ok frame) :
    Laid f locations isElided (locatedValues f) frame := by
  have hnodup : (locatedValues f).Nodup := List.nodup_range.filter _
  have hall := foldAll_seen (I := fun seen frame => seen.Nodup → Laid f locations isElided seen frame)
    (fun seen frame v next h hnext hdistinct => by
      rw [List.nodup_append] at hdistinct
      have hnew : v ∉ seen := fun hmem => hdistinct.2.2 v hmem v (List.mem_singleton_self v) rfl
      exact placeValue_laid hnear hnew (h hdistinct.1) hnext) (fun _ => laid_start) hplace
  exact hall hnodup

/-- The remainders below a frame of values. -/
structure Divided (base : Frame) (seen : List Instruction) (frame : Frame) : Prop where
  floor : base.bytes ≤ frame.bytes
  size : (frame.bytes = base.bytes ∧ frame.divmodOffsets = []) ∨ frame.bytes ≤ 65526
  same : frame.spillOffsets = base.spillOffsets
  divided : ∀ i ∈ seen, i.opcode = .divMod → i.result ∈ frame.divmodOffsets.map Prod.fst
  within : ∀ entry ∈ frame.divmodOffsets, -frame.bytes ≤ entry.2 ∧ entry.2 + 2 ≤ -base.bytes
  apart : frame.divmodOffsets.Pairwise fun a b => a.2 + 2 ≤ b.2

theorem placeRemainder_divided {base : Frame} {seen : List Instruction} {i : Instruction} (h : Divided base seen frame)
    (hplace : placeRemainder frame i = .ok frame') : Divided base (seen ++ [i]) frame' := by
  unfold placeRemainder at hplace
  split at hplace
  · next hother =>
      cases hplace
      refine ⟨h.floor, h.size, h.same, ?_, h.within, h.apart⟩
      intro j hj hdivMod
      rw [List.mem_append, List.mem_singleton] at hj
      cases hj with
      | inl hseen => exact h.divided j hseen hdivMod
      | inr heq => exact absurd (heq ▸ hdivMod) hother
  · obtain ⟨hsize, hplace⟩ := rejectIf_bind_eq_ok.mp hplace
    cases hplace
    have hfloor := h.floor
    refine ⟨?_, ?_, h.same, ?_, ?_, ?_⟩
    · dsimp only
      omega
    · have hroom : frame.bytes + 2 ≤ 65526 := by omega
      exact .inr hroom
    · intro j hj hdivMod
      rw [List.mem_append, List.mem_singleton] at hj
      cases hj with
      | inl hseen => exact List.mem_cons_of_mem _ (h.divided j hseen hdivMod)
      | inr heq => exact heq ▸ List.mem_cons_self
    · intro entry hentry
      dsimp only
      cases List.mem_cons.mp hentry with
      | inl heq =>
          rw [heq]
          dsimp only
          omega
      | inr hold =>
          have hbound := h.within entry hold
          omega
    · apply List.Pairwise.cons
      · intro entry hentry
        have hbound := h.within entry hentry
        dsimp only
        omega
      · exact h.apart

/-- The whole frame. Its lowest word is empty. -/
structure FrameLayout (f : Function) (locations : Locations) (isElided : Nat → Bool) (frame : Frame) : Prop where
  size : frame.bytes ≤ max f.totalLocalAllocSize 65528
  stored : ∀ v, (frame.spillOffset v).isSome ↔ v ∈ locatedValues f ∧ needsStorage f locations isElided v = true
  within : ∀ v o, frame.spillOffset v = some o → -frame.bytes + 2 ≤ o ∧ o + width f v ≤ -f.totalLocalAllocSize
  apart : ∀ v w o o', v ≠ w → frame.spillOffset v = some o → frame.spillOffset w = some o' →
    Apart o (width f v) o' (width f w) ∨ SharesSlot locations v w
  divided : ∀ i ∈ f.instructions, i.opcode = .divMod → i.result ∈ frame.divmodOffsets.map Prod.fst
  remainders : ∀ entry ∈ frame.divmodOffsets, -frame.bytes + 2 ≤ entry.2 ∧ entry.2 + 2 ≤ -f.totalLocalAllocSize ∧
    ∀ v o, frame.spillOffset v = some o → entry.2 + 2 ≤ o
  remaindersApart : frame.divmodOffsets.Pairwise fun a b => a.2 + 2 ≤ b.2

theorem separate_bytes (used : Bool) (frame : Frame) :
    (separate used frame).bytes = frame.bytes + if used then 2 else 0 := by
  cases used <;> simp [separate]

@[simp] theorem separate_spillOffsets (used : Bool) (frame : Frame) :
    (separate used frame).spillOffsets = frame.spillOffsets := by
  cases used <;> rfl

@[simp] theorem separate_divmodOffsets (used : Bool) (frame : Frame) :
    (separate used frame).divmodOffsets = frame.divmodOffsets := by
  cases used <;> rfl

theorem planFrameStorage_layout (hnear : ∀ v slot, slotOf locations v = some slot → width f v = 2)
    (hplan : planFrameStorage f locations isElided = .ok frame) : FrameLayout f locations isElided frame := by
  unfold planFrameStorage at hplan
  obtain ⟨values, hvalues, hplan⟩ := bind_eq_ok.mp hplan
  obtain ⟨divided, hdivided, hplan⟩ := bind_eq_ok.mp hplan
  cases hplan
  have hlaid := laid_all hnear hvalues
  have hbase : Divided (separate (!values.spillOffsets.isEmpty) values) [] (separate (!values.spillOffsets.isEmpty) values) := by
    refine ⟨le_rfl, .inl ⟨rfl, by simp [hlaid.untouched]⟩, rfl, ?_, ?_, ?_⟩
    · simp
    · simp [hlaid.untouched]
    · simp [hlaid.untouched]
  have hdone := foldAll_seen (fun _ _ _ _ h hnext => placeRemainder_divided h hnext) hbase hdivided
  have hsame : ∀ v, (separate (!divided.divmodOffsets.isEmpty) divided).spillOffset v = values.spillOffset v := by
    intro v
    unfold Frame.spillOffset
    rw [separate_spillOffsets, hdone.same, separate_spillOffsets]
  -- a stored value has pushed the bottom of the frame down
  have hvalue : ∀ {v o}, values.spillOffset v = some o →
      (separate (!values.spillOffsets.isEmpty) values).bytes = values.bytes + 2 := by
    intro v o hv
    have hnonempty : values.spillOffsets.isEmpty = false := by
      cases hlist : values.spillOffsets with
      | nil => simp [Frame.spillOffset, hlist] at hv
      | cons entry rest => rfl
    rw [separate_bytes, hnonempty]
    rfl
  have hremainder : ∀ {entry}, entry ∈ divided.divmodOffsets →
      (separate (!divided.divmodOffsets.isEmpty) divided).bytes = divided.bytes + 2 := by
    intro entry hentry
    have hnonempty : divided.divmodOffsets.isEmpty = false := by
      cases hlist : divided.divmodOffsets with
      | nil => simp [hlist] at hentry
      | cons entry rest => rfl
    rw [separate_bytes, hnonempty]
    rfl
  have hfloor := hlaid.floor
  have hbelow := hdone.floor
  have hbaseBytes := separate_bytes (!values.spillOffsets.isEmpty) values
  have hbytes := separate_bytes (!divided.divmodOffsets.isEmpty) divided
  refine ⟨?_, ?_, ?_, ?_, ?_, ?_, ?_⟩
  · have hbase : (separate (!values.spillOffsets.isEmpty) values).bytes ≤ max f.totalLocalAllocSize 65528 := by
      cases hlaid.size with
      | inl hempty =>
          rw [hbaseBytes, hempty.1, hempty.2]
          simp
      | inr hsize =>
          apply le_max_of_le_right
          split at hbaseBytes <;> omega
    cases hdone.size with
    | inl hempty =>
        rw [hbytes, hempty.1, hempty.2]
        simpa using hbase
    | inr hsize =>
        apply le_max_of_le_right
        split at hbytes <;> omega
  · intro v
    rw [hsame]
    exact hlaid.stored v
  · intro v o hv
    rw [hsame] at hv
    have hbound := hlaid.within v o hv
    rw [hvalue hv] at hbelow
    split at hbytes <;> omega
  · intro v w o o' hne hv hw
    rw [hsame] at hv hw
    exact hlaid.apart v w o o' hne hv hw
  · rw [separate_divmodOffsets]
    exact hdone.divided
  · intro entry hentry
    rw [separate_divmodOffsets] at hentry
    have hbound := hdone.within entry hentry
    rw [hremainder hentry]
    refine ⟨by omega, by split at hbaseBytes <;> omega, ?_⟩
    intro v o hv
    rw [hsame] at hv
    have hvbound := hlaid.within v o hv
    rw [hvalue hv] at hbound
    omega
  · rw [separate_divmodOffsets]
    exact hdone.apart

/-! ## Storage of an allocated function -/

/-- The value is live where a block ends, or a PHI defines it and something reads it. -/
def Lasts (f : Function) (v : Nat) : Prop :=
  (∃ b, LiveAt f b (f.code b).length v) ∨ (Used f v ∧ ∃ b, ∃ i ∈ phis (f.code b), i.result = v)

theorem not_elided_of_lasts (hv : Verified f) {plan : LocalPlan} (hplan : plan.Sound f) {v : Nat} (hlasts : Lasts f v) :
    elided f plan v = false := by
  rw [← Bool.not_eq_true]
  intro helided
  obtain ⟨b, n, honce⟩ := elided_readOnce hv hplan helided
  cases hlasts with
  | inl hlive =>
      obtain ⟨b', hlive⟩ := hlive
      exact honce.not_live_at_end hv b' hlive
  | inr hphi =>
      obtain ⟨_, b', i, hi, hresult⟩ := hphi
      obtain ⟨site, hsite, _, hnot⟩ := honce.defined
      obtain ⟨hcode, hop⟩ := mem_code_of_mem_phis hi
      obtain ⟨m, hm⟩ := List.mem_iff_getElem?.mp hcode
      have hne := ne_zero_of_useCount hv honce.count
      have hdefined := hv.site_of_code hm (hresult ▸ hne)
      rw [hresult, hsite] at hdefined
      cases hdefined
      exact hnot hop

theorem Lasts.used {v : Nat} (h : Lasts f v) : Used f v := by
  cases h with
  | inl hlive => exact hlive.choose_spec.used
  | inr hphi => exact hphi.1

/-- Values needed at one time are kept apart, in registers and in the frame. -/
structure SeparateStorage (f : Function) (a : Allocator) (frame : Frame) : Prop where
  housed : ∀ v, Lasts f v → ¬ Rematerializable f v →
    (registerOf a.locations v).isSome ∨ (frame.spillOffset v).isSome
  exclusive : ∀ v reg, registerOf a.locations v = some reg → frame.spillOffset v = none
  remade : ∀ v, Rematerializable f v → frame.spillOffset v = none
  registers : ∀ v w, v ≠ w → Together f v w → ∀ reg, registerOf a.locations v = some reg →
    registerOf a.locations w ≠ some reg
  words : ∀ v w, v ≠ w → Together f v w → ∀ o o', frame.spillOffset v = some o → frame.spillOffset w = some o' →
    Apart o (width f v) o' (width f w)
  within : ∀ v o, frame.spillOffset v = some o → -frame.bytes + 2 ≤ o ∧ o + width f v ≤ -f.totalLocalAllocSize
  remainders : ∀ i ∈ f.instructions, i.opcode = .divMod → ∃ o, (i.result, o) ∈ frame.divmodOffsets
  remainderWords : ∀ entry ∈ frame.divmodOffsets, -frame.bytes + 2 ≤ entry.2 ∧ entry.2 + 2 ≤ -f.totalLocalAllocSize ∧
    ∀ v o, frame.spillOffset v = some o → entry.2 + 2 ≤ o
  remaindersApart : frame.divmodOffsets.Pairwise fun a b => a.2 + 2 ≤ b.2

theorem needsStorage_of_lasts (hv : Verified f) {a : Allocator} (hhousing : Housing f a) {plan : LocalPlan}
    (hplan : plan.Sound f) {v : Nat} (hlasts : Lasts f v) (hkeeps : ¬ Rematerializable f v)
    (hnone : registerOf a.locations v = none) :
    v ∈ locatedValues f ∧ needsStorage f a.locations (elided f plan) v = true := by
  have hused := hlasts.used
  obtain ⟨b, k, hlive⟩ := hv.liveAt_of_used hused
  have hne := hv.ne_zero_of_liveAt hlive
  obtain ⟨site, hsite, _, _⟩ := hv.defined_of_liveAt hlive
  obtain ⟨hmem, hresult⟩ := of_site_eq_some hsite
  have hdef := definition_of_site hsite
  have hkind := hhousing.kind v hne
  rw [hdef] at hkind
  obtain ⟨place, hplace, hremat⟩ := Option.map_eq_some_iff.mp hkind
  have hkept : place.rematerializable = false := by
    rw [hremat]
    by_contra hmade
    exact hkeeps ⟨_, hdef, by simpa using hmade⟩
  have hregister : place.hasRegister = false := by
    by_contra hhas
    simp [registerOf, hplace, hhas] at hnone
  have hcount := useCount_pos.mpr hused
  constructor
  · exact mem_locatedValues.mpr ⟨hne, _, mem_instructions.mpr ⟨_, List.mem_of_getElem? (mem_sites.mp hmem)⟩, hresult⟩
  · have hnot := not_elided_of_lasts hv hplan hlasts
    simp [needsStorage, hnot, hplace, hkept, hregister, show useCount f v ≠ 0 by omega]

theorem separate_of_layout (hv : Verified f) {a : Allocator} (hvalid : ValidAllocation f a) (hhousing : Housing f a)
    {plan : LocalPlan} (hplan : plan.Sound f) (hlayout : FrameLayout f a.locations (elided f plan) frame) :
    SeparateStorage f a frame := by
  refine ⟨?_, ?_, ?_, hvalid.registers, ?_, hlayout.within, ?_, hlayout.remainders, hlayout.remaindersApart⟩
  · intro v hlasts hkeeps
    cases hregister : registerOf a.locations v with
    | some reg => exact .inl rfl
    | none => exact .inr ((hlayout.stored v).mpr (needsStorage_of_lasts hv hhousing hplan hlasts hkeeps hregister))
  · intro v reg hregister
    obtain ⟨place, hplace, hhas, _⟩ := registerOf_eq_some.mp hregister
    rw [← Option.not_isSome_iff_eq_none, hlayout.stored]
    simp [needsStorage, hplace, hhas]
  · intro v hremade
    obtain ⟨i, hi, hremat⟩ := hremade
    rw [← Option.not_isSome_iff_eq_none, hlayout.stored]
    rintro ⟨hmem, hneeds⟩
    have hkind := hhousing.kind v (mem_locatedValues.mp hmem).1
    rw [hi] at hkind
    obtain ⟨place, hplace, hsame⟩ := Option.map_eq_some_iff.mp hkind
    simp [needsStorage, hplace, hsame, hremat] at hneeds
  · intro v w hne htogether o o' hv' hw
    cases hlayout.apart v w o o' hne hv' hw with
    | inl hapart => exact hapart
    | inr hshares =>
        obtain ⟨slot, hslot, hslot'⟩ := hshares
        exact absurd hslot' (hvalid.slots v w hne htogether slot hslot)
  · intro i hi hdivMod
    obtain ⟨entry, hentry, heq⟩ := List.mem_map.mp (hlayout.divided i hi hdivMod)
    exact ⟨entry.2, heq ▸ hentry⟩

theorem near_width {a : Allocator} (hhousing : Housing f a) {v : Nat} {slot : Int}
    (hslot : slotOf a.locations v = some slot) : width f v = 2 := by
  have hnear := (hhousing.near v (.inr (Option.isSome_iff_exists.mpr ⟨slot, hslot⟩))).near
  unfold CostModel.farValue at hnear
  simp [width, hnear]

end Layout

/-- Whatever proofs of addresses hold, the storage planned for an allocated
function keeps apart what is needed at one time. -/
theorem planFrame_separate {f : Function} {allocatable : List Nat} {policy : OptimizationLevel} {a : Allocator}
    {proven : Int → Nat → Int → Bool} {frame : Frame} (hverify : verifyFunction f = .ok ())
    (halloc : runGlobal f allocatable policy = .ok a) (hplan : planFrame f a.locations proven = .ok frame) :
    SeparateStorage f a frame := by
  have hv := verified_of_verifyFunction hverify
  have hvalid := runGlobal_valid hverify halloc
  have hhousing := runGlobal_housing hv halloc
  have hsound := planLocalValues_sound hv a.locations (proven f.totalLocalAllocSize)
  have hstorage : ∀ {plan : LocalPlan}, plan.Sound f → ∀ {frame : Frame},
      planFrameStorage f a.locations (elided f plan) = .ok frame → SeparateStorage f a frame := by
    intro plan hplan frame hframe
    exact separate_of_layout hv hvalid hhousing hplan
      (planFrameStorage_layout (fun v slot hslot => near_width hhousing hslot) hframe)
  unfold planFrame at hplan
  obtain ⟨first, hfirst, hplan⟩ := bind_eq_ok.mp hplan
  split at hplan
  · apply hstorage _ hplan
    refine ⟨hsound.cursors, ?_⟩
    intro v hmem
    exact hsound.ephemeral v (List.mem_filter.mp hmem).1
  · rw [pure_eq_ok] at hplan
    exact hplan ▸ hstorage hsound hfirst

/-- A loop that exchanges two values. -/
def exchange : Function :=
  let word : Ty := { base := .word, sizeInBytes := 2 }
  { name := "f"
    returnType := word
    entry := 0
    valueCount := 5
    blocks :=
      [{ id := 0
         instructions :=
          [{ opcode := .call, type := word, result := 1, symbol := "a" },
           { opcode := .call, type := word, result := 2, symbol := "b" },
           { opcode := .branch, targets := [1] }] },
       { id := 1
         instructions :=
          [{ opcode := .phi, type := word, result := 3, operands := [1, 4], targets := [0, 2] },
           { opcode := .phi, type := word, result := 4, operands := [2, 3], targets := [0, 2] },
           { opcode := .call, type := { base := .bool, sizeInBytes := 1 }, result := 5, symbol := "g" },
           { opcode := .condBranch, operands := [5], targets := [2, 3] }] },
       { id := 2, instructions := [{ opcode := .branch, targets := [1] }] },
       { id := 3, instructions := [{ opcode := .ret, operands := [3] }] }] }

theorem planFrame_separate_exchange : ∃ a frame, runGlobal exchange [5] .o2 = .ok a ∧
    planFrame exchange a.locations (fun _ _ _ => false) = .ok frame ∧ SeparateStorage exchange a frame := by
  have hok : (runGlobal exchange [5] .o2 >>= fun a => planFrame exchange a.locations fun _ _ _ => false).isOk = true := by
    decide +kernel
  cases halloc : runGlobal exchange [5] .o2 with
  | error message =>
      rw [halloc] at hok
      cases hok
  | ok a =>
      rw [halloc] at hok
      cases hplan : planFrame exchange a.locations (fun _ _ _ => false) with
      | error message =>
          simp only [bind, Except.bind, hplan] at hok
          cases hok
      | ok frame => exact ⟨a, frame, rfl, hplan, planFrame_separate (by decide +kernel) halloc hplan⟩

end Disco.Backend.FramePlan
