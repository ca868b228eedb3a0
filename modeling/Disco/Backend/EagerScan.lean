import Disco.Backend.Allocated
import Disco.Library.IntervalScan
import Disco.Library.Rounds

/-! # Eager register allocation

`LinearScanAllocator::runEager`: values that are used in their own block only get
registers by a scan over the physical order of the instructions. All other values
keep a home in the frame, or are made again at each use.
-/

namespace Disco.Backend

open IR Library ControlFlow

/-- What an instruction does to the machine apart from values and memory. A
register is a bit of a mask. -/
structure HardwareEffects where
  readsRegisters : Nat := 0
  writesRegisters : Nat := 0
  readsColor : Bool := false
  writesColor : Bool := false
  readsPor : Bool := false
  writesPor : Bool := false
  readsFramebuffer : Bool := false
  writesFramebuffer : Bool := false
  pixelCache : Bool := false
  romBuffer : Bool := false
  deriving DecidableEq, Repr

def hardwareEffects (i : Instruction) : HardwareEffects :=
  match i.opcode with
  | .plotCoordinateRead => { readsRegisters := 1 <<< if i.immediate ≠ 0 then 2 else 1 }
  | .plotCoordinateWrite => { writesRegisters := 1 <<< if i.immediate ≠ 0 then 2 else 1 }
  | .plot =>
      { readsRegisters := 6
        writesRegisters := 2
        readsColor := true
        readsPor := true
        writesFramebuffer := true
        pixelCache := true }
  | .rpix =>
      { readsRegisters := 6
        readsPor := true
        readsFramebuffer := true
        writesFramebuffer := true
        pixelCache := true }
  | .setColor =>
      { readsColor := true
        readsPor := true
        writesColor := true
        romBuffer := decide (i.operation = "rom.byte")
        writesRegisters := if i.operation = "rom.byte" then 1 <<< 14 else 0 }
  | .cMode => { writesPor := true }
  | .hardwareLoop | .hardwareLoopEnd | .hardwareLoopLeave =>
      { readsRegisters := 1 <<< 12 ||| 1 <<< 13
        writesRegisters := 1 <<< 12 ||| 1 <<< 13 }
  | _ => {}

namespace EagerScan

open LinearScan

/-- The position of an instruction in the whole function. -/
def sitePosition (f : Function) (site : Site) : Nat := blockStart f site.block + site.position

/-- What the passes over the function find out. -/
structure Survey where
  locations : Locations
  definingBlock : Nat → Option Nat
  crossBlock : Finset Nat
  hardwareLoop : Bool
  reserved : Nat

def definedPlace (f : Function) (site : Site) : Location where
  rematerializable := isRematerializable site.instruction
  start := sitePosition f site
  finish := sitePosition f site

def surveyDefinition (f : Function) (s : Survey) (site : Site) : Except String Survey :=
  let i := site.instruction
  let effects := hardwareEffects i
  let s := { s with
    reserved := s.reserved ||| (effects.readsRegisters ||| effects.writesRegisters)
    hardwareLoop := s.hardwareLoop || decide (i.opcode = .hardwareLoop) }
  if i.result ≠ 0 then do
    rejectIf ((s.definingBlock i.result).isSome = true) "Eager allocator: duplicate value definition."
    pure { s with
      definingBlock := Function.update s.definingBlock i.result (some site.block)
      -- far values keep the two words of their home
      crossBlock := if isFarPointer i.type then insert i.result s.crossBlock else s.crossBlock
      locations := Function.update s.locations i.result (some (definedPlace f site)) }
  else pure s

/-- Every operand with the instruction that reads it, in physical order. -/
def uses (f : Function) : List (Site × Nat) :=
  f.sites.flatMap fun site => site.instruction.operands.map fun v => (site, v)

def surveyUse (f : Function) (s : Survey) (use : Site × Nat) : Except String Survey :=
  match s.locations use.2 with
  | none => .error "Eager allocator: undefined operand."
  | some place => .ok { s with
      locations := Function.update s.locations use.2
        (some { place with finish := max place.finish (sitePosition f use.1) })
      crossBlock := if s.definingBlock use.2 ≠ some use.1.block then insert use.2 s.crossBlock
        else s.crossBlock }

def survey (f : Function) : Except String Survey := do
  let s ← foldAll (surveyDefinition f) ⟨fun _ => none, fun _ => none, ∅, false, 0⟩ f.sites
  foldAll (surveyUse f) s (uses f)

def allowedRegisters (reserved : Nat) (allocatable : List Nat) : List Nat :=
  sortedRegisters (allocatable.filter fun reg => reserved.testBit reg = false)

def startOf (locations : Locations) (v : Nat) : Nat := ((locations v).map Location.start).getD 0

def finishOf (locations : Locations) (v : Nat) : Nat := ((locations v).map Location.finish).getD 0

structure EagerState where
  locations : Locations
  registers : List Nat
  active : List (Occupant Nat)

/-- Registers whose intervals ended before a position are free again. -/
def expireActive (point : Nat) (s : EagerState) : EagerState where
  locations := s.locations
  registers := s.registers ++ (s.active.filter fun a => a.finish < point).map Occupant.colour
  active := s.active.filter fun a => ¬ a.finish < point

def assignEager (found : Survey) (s : EagerState) (v : Nat) : EagerState :=
  match s.locations v with
  | none => s
  | some place =>
      if found.hardwareLoop = true ∨ v ∈ found.crossBlock ∨ place.rematerializable = true ∨
          place.finish = place.start then s
      else
        let s := expireActive place.start s
        match s.registers.insertionSort (· ≤ ·) with
        -- a real spill: a definition that can be observed is never repeated
        | [] => s
        | reg :: rest =>
            { locations := LinearScan.modify s.locations v fun place =>
                { place with hasRegister := true, physicalRegister := reg }
              registers := rest
              active := s.active ++ [⟨v, place.finish, reg⟩] }

def runEager (f : Function) (allocatable : List Nat) : Except String Allocator := do
  let found ← survey f
  checkAll (fun reg => rejectIf (reg > 15) "Eager allocator: invalid physical register.") allocatable
  let ordered := (locatedValues f).insertionSort fun a b => startOf found.locations a ≤ startOf found.locations b
  let state := ordered.foldl (assignEager found)
    ⟨found.locations, allowedRegisters found.reserved allocatable, []⟩
  pure ⟨state.locations, fun _ => ∅, fun _ => []⟩

/-! ## The passes over the function -/

/-- The instruction reads or writes the register by itself. -/
def Reserves (i : Instruction) (reg : Nat) : Prop :=
  (hardwareEffects i).readsRegisters.testBit reg = true ∨ (hardwareEffects i).writesRegisters.testBit reg = true

/-- The survey behind the definitions at some sites. -/
structure Surveyed (f : Function) (seen : List Site) (s : Survey) : Prop where
  reserved : ∀ reg, s.reserved.testBit reg = true ↔ ∃ site ∈ seen, Reserves site.instruction reg
  loops : s.hardwareLoop = true ↔ ∃ site ∈ seen, site.instruction.opcode = .hardwareLoop
  block : ∀ v b, s.definingBlock v = some b ↔ ∃ site ∈ seen, Defines site.instruction v ∧ site.block = b
  cross : ∀ v, v ∈ s.crossBlock ↔
    ∃ site ∈ seen, Defines site.instruction v ∧ isFarPointer site.instruction.type = true
  place : ∀ v place, s.locations v = some place ↔
    ∃ site ∈ seen, Defines site.instruction v ∧ place = definedPlace f site

section Passes

variable {f : Function} {seen : List Site} {s : Survey}

theorem exists_mem_append_singleton {α : Type} {list : List α} {a : α} {P : α → Prop} :
    (∃ x ∈ list ++ [a], P x) ↔ (∃ x ∈ list, P x) ∨ P a := by
  simp only [List.mem_append, List.mem_singleton]
  constructor
  · intro h
    obtain ⟨x, hx | hx, hP⟩ := h
    · exact .inl ⟨x, hx, hP⟩
    · exact .inr (hx ▸ hP)
  · intro h
    rcases h with ⟨x, hx, hP⟩ | hP
    · exact ⟨x, .inl hx, hP⟩
    · exact ⟨a, .inr rfl, hP⟩

theorem Surveyed.start (f : Function) : Surveyed f [] ⟨fun _ => none, fun _ => none, ∅, false, 0⟩ := by
  constructor <;> simp

/-- One more definition of a value that is new. -/
theorem Surveyed.define (h : Surveyed f seen s) {site : Site}
    (hnew : site.instruction.result ≠ 0 → ∀ a ∈ seen, a.instruction.result ≠ site.instruction.result) :
    ∃ t, surveyDefinition f s site = .ok t ∧ Surveyed f (seen ++ [site]) t := by
  have hreserved : ∀ reg, (s.reserved ||| ((hardwareEffects site.instruction).readsRegisters |||
      (hardwareEffects site.instruction).writesRegisters)).testBit reg = true ↔
        ∃ a ∈ seen ++ [site], Reserves a.instruction reg := by
    intro reg
    rw [exists_mem_append_singleton, Nat.testBit_or, Nat.testBit_or, Bool.or_eq_true, Bool.or_eq_true,
      h.reserved]
    rfl
  have hloops : (s.hardwareLoop || decide (site.instruction.opcode = .hardwareLoop)) = true ↔
      ∃ a ∈ seen ++ [site], a.instruction.opcode = .hardwareLoop := by
    rw [exists_mem_append_singleton, Bool.or_eq_true, h.loops, decide_eq_true_eq]
  unfold surveyDefinition
  dsimp only
  by_cases hres : site.instruction.result = 0
  · have hdefines : ∀ v, ¬ Defines site.instruction v := fun v hv => hv.1 hres
    rw [if_neg (not_not.mpr hres)]
    refine ⟨_, rfl, hreserved, hloops, ?_, ?_, ?_⟩
    · intro v b
      rw [exists_mem_append_singleton, ← h.block]
      simp [hdefines]
    · intro v
      rw [exists_mem_append_singleton, ← h.cross]
      simp [hdefines]
    · intro v place
      rw [exists_mem_append_singleton, ← h.place]
      simp [hdefines]
  · have hunseen : ∀ (P : Site → Prop), ¬ ∃ a ∈ seen, Defines a.instruction site.instruction.result ∧ P a := by
      intro P hex
      obtain ⟨a, ha, hdef, -⟩ := hex
      exact hnew hres a ha hdef.2
    have hblock : s.definingBlock site.instruction.result = none := by
      rw [Option.eq_none_iff_forall_ne_some]
      intro b hb
      exact hunseen _ ((h.block _ b).mp hb)
    have hplace : ∀ place, s.locations site.instruction.result ≠ some place := by
      intro place hp
      exact hunseen _ ((h.place _ place).mp hp)
    have hself : ∀ v, Defines site.instruction v ↔ v = site.instruction.result := by
      intro v
      exact ⟨fun hv => hv.2.symm, fun hv => ⟨hres, hv.symm⟩⟩
    rw [if_pos hres]
    refine ⟨_, bind_eq_ok.mpr ⟨(), rejectIf_eq_ok.mpr (by simp [hblock]), rfl⟩, hreserved, hloops, ?_, ?_, ?_⟩
    · intro v b
      rw [exists_mem_append_singleton, hself]
      dsimp only
      by_cases hv : v = site.instruction.result
      · rw [hv, Function.update_self]
        simp [hunseen]
      · rw [Function.update_of_ne hv, h.block]
        simp [hv]
    · intro v
      rw [exists_mem_append_singleton, hself, ← h.cross]
      dsimp only
      by_cases hfar : isFarPointer site.instruction.type = true
      · rw [if_pos hfar, Finset.mem_insert]
        simp only [hfar, and_true]
        exact or_comm
      · rw [if_neg hfar]
        simp [hfar]
    · intro v place
      rw [exists_mem_append_singleton, hself]
      dsimp only
      by_cases hv : v = site.instruction.result
      · rw [hv, Function.update_self]
        simp [hunseen, eq_comm]
      · rw [Function.update_of_ne hv, h.place]
        simp [hv]

theorem surveyed_of_verified (hv : Verified f) :
    ∃ s, foldAll (surveyDefinition f) ⟨fun _ => none, fun _ => none, ∅, false, 0⟩ f.sites = .ok s ∧
      Surveyed f f.sites s := by
  apply foldAll_reaches _ (Surveyed.start f)
  intro seen site rest s heq h
  apply h.define
  intro hres a ha
  have hsingle := hv.single
  unfold SingleDefinitions at hsingle
  rw [heq, List.pairwise_append] at hsingle
  exact hsingle.2.2 a ha site List.mem_cons_self hres

end Passes

/-! ## The uses -/

/-- The last position that reads a value, from a given position on. -/
def lastUse (f : Function) (seen : List (Site × Nat)) (v start : Nat) : Nat :=
  seen.foldl (fun last use => if use.2 = v then max last (sitePosition f use.1) else last) start

section Uses

variable {f : Function} {seen : List (Site × Nat)} {v start : Nat}

theorem lastUse_append (use : Site × Nat) : lastUse f (seen ++ [use]) v start =
    if use.2 = v then max (lastUse f seen v start) (sitePosition f use.1) else lastUse f seen v start := by
  unfold lastUse
  rw [List.foldl_append]
  rfl

/-- It is the least bound of the start and the uses. -/
theorem lastUse_le {bound : Nat} : lastUse f seen v start ≤ bound ↔
    start ≤ bound ∧ ∀ use ∈ seen, use.2 = v → sitePosition f use.1 ≤ bound := by
  induction seen using List.reverseRecOn with
  | nil => simp [lastUse]
  | append_singleton rest use ih =>
      rw [lastUse_append]
      by_cases huse : use.2 = v
      · rw [if_pos huse, max_le_iff, ih]
        simp only [List.forall_mem_append, List.forall_mem_singleton, huse, forall_const, and_assoc]
      · rw [if_neg huse, ih]
        simp only [List.forall_mem_append, List.forall_mem_singleton, huse, false_implies, and_true]

theorem lastUse_attained : lastUse f seen v start = start ∨
    ∃ use ∈ seen, use.2 = v ∧ sitePosition f use.1 = lastUse f seen v start := by
  induction seen using List.reverseRecOn with
  | nil => exact .inl rfl
  | append_singleton rest use ih =>
      rw [lastUse_append, exists_mem_append_singleton]
      by_cases huse : use.2 = v
      · rw [if_pos huse]
        rcases Nat.le_total (lastUse f rest v start) (sitePosition f use.1) with hle | hle
        · rw [max_eq_right hle]
          exact .inr (.inr ⟨huse, rfl⟩)
        · rw [max_eq_left hle]
          exact ih.imp_right .inl
      · rw [if_neg huse]
        exact ih.imp_right .inl

end Uses

/-- The survey behind some uses. -/
structure Extended (f : Function) (base : Survey) (seen : List (Site × Nat)) (s : Survey) : Prop where
  reserved : s.reserved = base.reserved
  loops : s.hardwareLoop = base.hardwareLoop
  block : s.definingBlock = base.definingBlock
  cross : ∀ v, v ∈ s.crossBlock ↔
    v ∈ base.crossBlock ∨ ∃ use ∈ seen, use.2 = v ∧ base.definingBlock v ≠ some use.1.block
  place : ∀ v, s.locations v =
    (base.locations v).map fun place => { place with finish := lastUse f seen v place.finish }

section Extend

variable {f : Function} {base s : Survey} {seen : List (Site × Nat)}

theorem Extended.start (f : Function) (base : Survey) : Extended f base [] base where
  reserved := rfl
  loops := rfl
  block := rfl
  cross v := by simp
  place v := by
    unfold lastUse
    cases base.locations v <;> rfl

theorem Extended.use (h : Extended f base seen s) {use : Site × Nat}
    (hdefined : ∃ place, base.locations use.2 = some place) :
    ∃ t, surveyUse f s use = .ok t ∧ Extended f base (seen ++ [use]) t := by
  obtain ⟨place, hplace⟩ := hdefined
  have hhere := h.place use.2
  rw [hplace] at hhere
  unfold surveyUse
  rw [hhere]
  refine ⟨_, rfl, h.reserved, h.loops, h.block, ?_, ?_⟩
  · intro v
    rw [exists_mem_append_singleton, ← or_assoc, ← h.cross, h.block]
    dsimp only
    split
    · rename_i hblock
      rw [Finset.mem_insert]
      constructor
      · intro hv
        rcases hv with heq | hv
        · exact .inr ⟨heq.symm, heq ▸ hblock⟩
        · exact .inl hv
      · intro hv
        rcases hv with hv | ⟨heq, -⟩
        · exact .inr hv
        · exact .inl heq.symm
    · rename_i hblock
      constructor
      · exact .inl
      · intro hv
        rcases hv with hv | ⟨heq, hne⟩
        · exact hv
        · exact absurd (heq ▸ hne) hblock
  · intro v
    dsimp only
    by_cases hv : v = use.2
    · rw [hv, Function.update_self, hplace, Option.map_some, lastUse_append, if_pos rfl]
    · rw [Function.update_of_ne hv, h.place]
      congr 1
      funext place
      rw [lastUse_append, if_neg (Ne.symm hv)]

theorem survey_of_verified (hv : Verified f) :
    ∃ base s, survey f = .ok s ∧ Surveyed f f.sites base ∧ Extended f base (uses f) s := by
  obtain ⟨base, hbase, hsurveyed⟩ := surveyed_of_verified hv
  have huses : ∀ use ∈ uses f, ∃ place, base.locations use.2 = some place := by
    intro use huse
    obtain ⟨site, hsite, hmem⟩ := List.mem_flatMap.mp huse
    obtain ⟨v, hread, rfl⟩ := List.mem_map.mp hmem
    obtain ⟨_, -, hscanned⟩ := hv.scannedAt (mem_sites.mp hsite)
    have hoperand := hscanned.operands v hread
    obtain ⟨d, hd⟩ := hv.defined v hoperand.1 hoperand.2
    rcases of_site_eq_some hd with ⟨hdmem, hresult⟩
    exact ⟨definedPlace f d, (hsurveyed.place v _).mpr ⟨d, hdmem, ⟨hresult ▸ hoperand.1, hresult⟩, rfl⟩⟩
  have hreaches : ∃ s, foldAll (surveyUse f) base (uses f) = .ok s ∧ Extended f base (uses f) s := by
    apply foldAll_reaches _ (Extended.start f base)
    intro seen use rest s heq h
    exact h.use (huses use (by rw [heq]; simp))
  obtain ⟨s, hs, hextended⟩ := hreaches
  refine ⟨base, s, ?_, hsurveyed, hextended⟩
  unfold survey
  rw [hbase, ok_bind]
  exact hs

end Extend

/-! ## The scan -/

/-- Values that never get a register. -/
def Skips (found : Survey) (v : Nat) : Prop :=
  found.hardwareLoop = true ∨ v ∈ found.crossBlock ∨
    (found.locations v).any Location.rematerializable = true ∨
      finishOf found.locations v = startOf found.locations v

instance (found : Survey) : DecidablePred (Skips found) := fun _ => inferInstanceAs (Decidable (_ ∨ _))

/-- The scan over the locations is a scan over intervals. -/
structure Agrees (found : Survey) (s : EagerState) (l : IntervalScan Nat) : Prop where
  free : l.free = s.registers
  active : l.active = s.active
  colour : ∀ v, l.colour v = registerOf s.locations v
  kept : ∀ v, (s.locations v).map (fun place => (place.start, place.finish, place.rematerializable)) =
    (found.locations v).map fun place => (place.start, place.finish, place.rematerializable)

section Scan

variable {found : Survey} {s : EagerState} {l : IntervalScan Nat}

theorem Agrees.expire (h : Agrees found s l) (point : Nat) :
    Agrees found (expireActive point s) (l.expire point) where
  free := by
    unfold IntervalScan.expire expireActive
    rw [h.free, h.active]
  active := by
    unfold IntervalScan.expire expireActive
    rw [h.active]
  colour := h.colour
  kept := h.kept

theorem Agrees.assign (h : Agrees found s l) {v : Nat} (hlocated : (found.locations v).isSome = true) :
    Agrees found (assignEager found s v)
      (if Skips found v then l else l.serve (startOf found.locations) (finishOf found.locations) v) := by
  obtain ⟨place, hfound⟩ := Option.isSome_iff_exists.mp hlocated
  have hkept := h.kept v
  rw [hfound, Option.map_some] at hkept
  obtain ⟨here, hhere, hsame⟩ := Option.map_eq_some_iff.mp hkept
  simp only [Prod.mk.injEq] at hsame
  have hstart : startOf found.locations v = here.start := by
    unfold startOf
    rw [hfound]
    exact hsame.1.symm
  have hfinish : finishOf found.locations v = here.finish := by
    unfold finishOf
    rw [hfound]
    exact hsame.2.1.symm
  have hskips : Skips found v ↔ found.hardwareLoop = true ∨ v ∈ found.crossBlock ∨
      here.rematerializable = true ∨ here.finish = here.start := by
    unfold Skips
    rw [hstart, hfinish, hfound, Option.any_some, hsame.2.2]
  unfold assignEager
  rw [hhere]
  dsimp only
  by_cases hskip : Skips found v
  · rw [if_pos hskip, if_pos (hskips.mp hskip)]
    exact h
  · rw [if_neg hskip, if_neg fun hno => hskip (hskips.mpr hno)]
    have hexpire := h.expire here.start
    have hlocations : (expireActive here.start s).locations = s.locations := rfl
    unfold IntervalScan.serve
    rw [hstart, hfinish]
    dsimp only
    rw [hexpire.free]
    generalize expireActive here.start s = t at hexpire hlocations
    generalize l.expire here.start = m at hexpire
    cases t.registers.insertionSort (· ≤ ·) with
    | nil => exact hexpire
    | cons reg rest =>
      refine ⟨rfl, by rw [hexpire.active], ?_, ?_⟩
      · intro w
        unfold registerOf LinearScan.modify
        dsimp only
        by_cases hw : w = v
        · rw [hw, Function.update_self, Function.update_self, hlocations, hhere]
          rfl
        · rw [Function.update_of_ne hw, Function.update_of_ne hw]
          exact hexpire.colour w
      · intro w
        rw [← hexpire.kept w]
        unfold LinearScan.modify
        dsimp only
        by_cases hw : w = v
        · rw [hw, Function.update_self, hlocations, hhere]
          rfl
        · rw [Function.update_of_ne hw]

theorem Agrees.run {nodes : List Nat} (hlocated : ∀ v ∈ nodes, (found.locations v).isSome = true)
    (h : Agrees found s l) : Agrees found (nodes.foldl (assignEager found) s)
      (nodes.foldl (fun l v => if Skips found v then l
        else l.serve (startOf found.locations) (finishOf found.locations) v) l) := by
  induction nodes generalizing s l with
  | nil => exact h
  | cons v rest ih =>
      rw [List.foldl_cons, List.foldl_cons]
      exact ih (fun w hw => hlocated w (List.mem_cons_of_mem _ hw)) (h.assign (hlocated v List.mem_cons_self))

end Scan

/-! ## What the allocation guarantees -/

/-- The position is one from the definition of a value to a use of it. -/
def Spans (f : Function) (v p : Nat) : Prop :=
  (∃ d ∈ f.sites, Defines d.instruction v ∧ sitePosition f d ≤ p) ∧
    ∃ u ∈ f.sites, v ∈ u.instruction.operands ∧ p ≤ sitePosition f u

structure ValidEager (f : Function) (allocatable : List Nat) (a : Allocator) : Prop where
  located : ∀ v ∈ locatedValues f, (a.locations v).isSome = true
  apart : ∀ v w reg, registerOf a.locations v = some reg → registerOf a.locations w = some reg → v ≠ w →
    ∀ p, Spans f v p → ¬ Spans f w p
  live : ∀ v w reg, registerOf a.locations v = some reg → registerOf a.locations w = some reg → v ≠ w →
    ¬ Together f v w
  inBlock : ∀ v reg, registerOf a.locations v = some reg → ∀ u ∈ f.sites, v ∈ u.instruction.operands →
    ∃ d, f.site v = some d ∧ d.block = u.block
  near : ∀ v reg, registerOf a.locations v = some reg → CostModel.farValue f v = false
  keeps : ∀ v reg, registerOf a.locations v = some reg → ¬ Rematerializable f v
  unlooped : ∀ v reg, registerOf a.locations v = some reg → ∀ i ∈ f.instructions, i.opcode ≠ .hardwareLoop
  unreserved : ∀ v reg, registerOf a.locations v = some reg → ∀ i ∈ f.instructions, ¬ Reserves i reg
  allowed : ∀ v reg, registerOf a.locations v = some reg → reg ∈ allocatable
  homes : ∀ v ∈ locatedValues f, registerOf a.locations v = none →
    (∃! d, d ∈ f.sites ∧ d.instruction.result = v) ∧
      ∀ u ∈ f.sites, v ∈ u.instruction.operands → OperandVerified f u v

theorem mem_sortedRegisters {allocatable : List Nat} {reg : Nat} :
    reg ∈ sortedRegisters allocatable ↔ reg ∈ allocatable := by
  unfold sortedRegisters
  rw [List.mem_insertionSort, mem_foldl_add]
  simp

theorem nodup_foldl_add {values list : List Nat} (h : list.Nodup) : (values.foldl ControlFlow.add list).Nodup := by
  induction values generalizing list with
  | nil => exact h
  | cons a rest ih =>
      rw [List.foldl_cons]
      apply ih
      unfold ControlFlow.add
      split
      · exact h
      · rename_i hnew
        rw [List.nodup_append]
        refine ⟨h, List.nodup_singleton a, ?_⟩
        intro x hx y hy heq
        rw [List.mem_singleton] at hy
        exact hnew (hy ▸ heq ▸ hx)

theorem nodup_sortedRegisters (allocatable : List Nat) : (sortedRegisters allocatable).Nodup := by
  unfold sortedRegisters
  rw [(List.perm_insertionSort _ _).nodup_iff]
  exact nodup_foldl_add List.nodup_nil

section Valid

variable {f : Function}

theorem definition_of_located (hv : Verified f) {v : Nat} (h : v ∈ locatedValues f) :
    ∃ d, f.site v = some d ∧ d ∈ f.sites ∧ Defines d.instruction v := by
  obtain ⟨hne, i, hi, hres⟩ := mem_locatedValues.mp h
  obtain ⟨b, hb⟩ := mem_instructions.mp hi
  obtain ⟨d, hd, -, rfl⟩ := mem_sites_of_mem_code hb
  have hsite := site_eq_some hv.single hd (hres ▸ hne)
  rw [hres] at hsite
  exact ⟨d, hsite, hd, ⟨hres ▸ hne, hres⟩⟩

theorem located_of_operand (hv : Verified f) {u : Site} (hu : u ∈ f.sites) {v : Nat}
    (hmem : v ∈ u.instruction.operands) : v ∈ locatedValues f := by
  obtain ⟨_, -, hscanned⟩ := hv.scannedAt (mem_sites.mp hu)
  have hoperand := hscanned.operands v hmem
  obtain ⟨d, hd⟩ := hv.defined v hoperand.1 hoperand.2
  rcases of_site_eq_some hd with ⟨hdmem, hres⟩
  exact mem_locatedValues.mpr ⟨hoperand.1, d.instruction,
    mem_instructions.mpr ⟨d.block, List.mem_of_getElem? (mem_sites.mp hdmem)⟩, hres⟩

/-- Where a value is used in its own block only, it is live between its
definition and its last use. -/
theorem span_of_liveAt (hv : Verified f) (hphis : ∀ i ∈ f.instructions, i.opcode ≠ .phi) {v : Nat}
    (hlocal : ∀ u ∈ f.sites, v ∈ u.instruction.operands → ∃ d, f.site v = some d ∧ d.block = u.block)
    {b k : Nat} (h : LiveAt f b k v) : ∃ d u : Site, f.site v = some d ∧ d.block = b ∧ d.position < k ∧
      u ∈ f.sites ∧ u.block = b ∧ v ∈ u.instruction.operands ∧ k ≤ u.position := by
  induction h with
  | @use b k v i hi hphi hread =>
      have hmem : (⟨b, k, i⟩ : Site) ∈ f.sites := mem_sites.mpr hi
      obtain ⟨d, hd, hblock⟩ := hlocal _ hmem hread
      obtain ⟨d', hd', hbefore, -⟩ := hv.operand _ hmem hphi v hread
      rw [hd] at hd'
      cases hd'
      exact ⟨d, _, hd, hblock, hbefore hblock, hmem, rfl, hread, Nat.le_refl k⟩
  | @pass b k v i hi hkeep _ ih =>
      obtain ⟨d, u, hd, hblock, hbefore, hu, hub, hread, hle⟩ := ih hlocal
      refine ⟨d, u, hd, hblock, ?_, hu, hub, hread, by omega⟩
      rcases Nat.lt_succ_iff_lt_or_eq.mp hbefore with hlt | heq
      · exact hlt
      · -- the instruction passed over is not the definition
        rcases of_site_eq_some hd with ⟨hdmem, hres⟩
        have hat := mem_sites.mp hdmem
        rw [hblock, heq, hi] at hat
        exact absurd ((Option.some.inj hat) ▸ hres) hkeep
  | edge _ _ ih =>
      obtain ⟨d, _, _, _, hbefore, _⟩ := ih hlocal
      exact absurd hbefore (Nat.not_lt_zero _)
  | phi _ hreads =>
      obtain ⟨i, hi, -⟩ := hreads
      rcases mem_code_of_mem_phis hi with ⟨hcode, hphi⟩
      exact absurd hphi (hphis i (mem_instructions.mpr ⟨_, hcode⟩))

/-- A finished allocation with the survey and the scan behind it. -/
structure Ran (f : Function) (allocatable : List Nat) (found : Survey) (a : Allocator) : Prop where
  place : ∀ v d, f.site v = some d → d.instruction.result ≠ 0 → found.locations v =
    some { definedPlace f d with finish := lastUse f (uses f) v (sitePosition f d) }
  located : ∀ v, (a.locations v).isSome = true → v ∈ locatedValues f
  kept : ∀ v ∈ locatedValues f, (a.locations v).isSome = true
  crosses : ∀ v d, f.site v = some d → d.instruction.result ≠ 0 → v ∉ found.crossBlock →
    isFarPointer d.instruction.type = false ∧ ∀ u ∈ f.sites, v ∈ u.instruction.operands → d.block = u.block
  loops : found.hardwareLoop = false → ∀ i ∈ f.instructions, i.opcode ≠ .hardwareLoop
  reserved : ∀ reg, found.reserved.testBit reg = false → ∀ i ∈ f.instructions, ¬ Reserves i reg
  serves : ∀ v reg, registerOf a.locations v = some reg →
    reg ∈ allowedRegisters found.reserved allocatable ∧ ¬ Skips found v
  apart : ∀ v w reg, registerOf a.locations v = some reg → registerOf a.locations w = some reg → v ≠ w →
    finishOf found.locations v < startOf found.locations w ∨
      finishOf found.locations w < startOf found.locations v

theorem site_of_instruction {i : Instruction} (hi : i ∈ f.instructions) :
    ∃ site ∈ f.sites, site.instruction = i := by
  obtain ⟨b, hb⟩ := mem_instructions.mp hi
  obtain ⟨site, hsite, -, heq⟩ := mem_sites_of_mem_code hb
  exact ⟨site, hsite, heq⟩

theorem runEager_ran (hv : Verified f) {allocatable : List Nat} (hallowed : ∀ reg ∈ allocatable, reg ≤ 15) :
    ∃ found a, runEager f allocatable = .ok a ∧ Ran f allocatable found a := by
  obtain ⟨base, found, hfound, hsurveyed, hextended⟩ := survey_of_verified hv
  have hcheck : checkAll (fun reg => rejectIf (reg > 15) "Eager allocator: invalid physical register.")
      allocatable = .ok () :=
    checkAll_eq_ok.mpr fun reg hreg => rejectIf_eq_ok.mpr (by have := hallowed reg hreg; omega)
  have hplace : ∀ v d, f.site v = some d → d.instruction.result ≠ 0 → found.locations v =
      some { definedPlace f d with finish := lastUse f (uses f) v (sitePosition f d) } := by
    intro v d hd hne
    rcases of_site_eq_some hd with ⟨hmem, hres⟩
    rw [hextended.place, (hsurveyed.place v _).mpr ⟨d, hmem, ⟨hne, hres⟩, rfl⟩]
    rfl
  have hlocated : ∀ v ∈ locatedValues f, (found.locations v).isSome = true := by
    intro v hmem
    obtain ⟨d, hd, -, hdef⟩ := definition_of_located hv hmem
    rw [hplace v d hd hdef.1]
    rfl
  have hfresh : ∀ v, registerOf found.locations v = none := by
    intro v
    unfold registerOf
    rw [hextended.place]
    cases hbase : base.locations v with
    | none => rfl
    | some place =>
        obtain ⟨d, -, -, heq⟩ := (hsurveyed.place v place).mp hbase
        rw [heq]
        rfl
  have hagrees := @Agrees.run found ⟨found.locations, allowedRegisters found.reserved allocatable, []⟩
    ⟨fun _ => none, allowedRegisters found.reserved allocatable, []⟩
    ((locatedValues f).insertionSort fun a b => startOf found.locations a ≤ startOf found.locations b)
    (fun v hmem => hlocated v ((List.mem_insertionSort _).mp hmem))
    ⟨rfl, rfl, fun v => (hfresh v).symm, fun _ => rfl⟩
  have : IsTrans Nat fun a b => startOf found.locations a ≤ startOf found.locations b :=
    ⟨fun _ _ _ => Nat.le_trans⟩
  have : Std.Total fun a b => startOf found.locations a ≤ startOf found.locations b :=
    ⟨fun _ _ => Nat.le_total _ _⟩
  have hscanned := IntervalScan.Scanned.run (Skips found)
    (List.pairwise_insertionSort
      (fun a b => startOf found.locations a ≤ startOf found.locations b) (locatedValues f))
    (@IntervalScan.Scanned.init Nat _ (startOf found.locations) (finishOf found.locations)
      (allowedRegisters found.reserved allocatable) (fun v => ¬ Skips found v) _ (nodup_sortedRegisters _))
  unfold runEager
  rw [hfound, ok_bind, hcheck, ok_bind]
  refine ⟨found, _, rfl, hplace, ?_, ?_, ?_, ?_, ?_, ?_, ?_⟩
  · intro v hsome
    dsimp only at hsome
    have hkept := congrArg Option.isSome (hagrees.kept v)
    rw [Option.isSome_map, Option.isSome_map, hsome, hextended.place, Option.isSome_map] at hkept
    obtain ⟨place, hbase⟩ := Option.isSome_iff_exists.mp hkept.symm
    obtain ⟨d, hd, hdef, -⟩ := (hsurveyed.place v place).mp hbase
    exact mem_locatedValues.mpr ⟨hdef.2 ▸ hdef.1, d.instruction,
      mem_instructions.mpr ⟨d.block, List.mem_of_getElem? (mem_sites.mp hd)⟩, hdef.2⟩
  · intro v hmem
    have hkept := congrArg Option.isSome (hagrees.kept v)
    rw [Option.isSome_map, Option.isSome_map, hlocated v hmem] at hkept
    exact hkept
  · intro v d hd hne hcross
    rcases of_site_eq_some hd with ⟨hmem, hres⟩
    rw [hextended.cross, hsurveyed.cross] at hcross
    constructor
    · rw [Bool.eq_false_iff]
      exact fun hfar => hcross (.inl ⟨d, hmem, ⟨hne, hres⟩, hfar⟩)
    · intro u hu hread
      by_contra hother
      apply hcross
      refine .inr ⟨(u, v), List.mem_flatMap.mpr ⟨u, hu, List.mem_map.mpr ⟨v, hread, rfl⟩⟩, rfl, ?_⟩
      rw [(hsurveyed.block v d.block).mpr ⟨d, hmem, ⟨hne, hres⟩, rfl⟩]
      exact fun heq => hother (Option.some.inj heq)
  · intro hloop i hi hop
    obtain ⟨site, hsite, rfl⟩ := site_of_instruction hi
    rw [hextended.loops, Bool.eq_false_iff] at hloop
    exact hloop (hsurveyed.loops.mpr ⟨site, hsite, hop⟩)
  · intro reg hbit i hi hreserves
    obtain ⟨site, hsite, rfl⟩ := site_of_instruction hi
    rw [hextended.reserved, Bool.eq_false_iff] at hbit
    exact hbit ((hsurveyed.reserved reg).mpr ⟨site, hsite, hreserves⟩)
  · intro v reg hreg
    exact hscanned.serves v reg ((hagrees.colour v).trans hreg)
  · intro v w reg hreg hreg' hne
    exact hscanned.apart v w reg ((hagrees.colour v).trans hreg) ((hagrees.colour w).trans hreg') hne

end Valid

end EagerScan

open LinearScan EagerScan

/-- Eager allocation is valid for every accepted function without PHIs and every
list of registers of the machine. -/
theorem runEager_valid {f : Function} {allocatable : List Nat} (h : Verifier.verifyFunction f = .ok ())
    (hphis : ∀ i ∈ f.instructions, i.opcode ≠ .phi) (hallowed : ∀ reg ∈ allocatable, reg ≤ 15) :
    ∃ a, runEager f allocatable = .ok a ∧ ValidEager f allocatable a := by
  have hv := verified_of_verifyFunction h
  obtain ⟨found, a, hrun, hran⟩ := runEager_ran hv hallowed
  have hsite : ∀ v reg, registerOf a.locations v = some reg →
      ∃ d, f.site v = some d ∧ d ∈ f.sites ∧ Defines d.instruction v := by
    intro v reg hreg
    apply definition_of_located hv
    apply hran.located
    unfold registerOf at hreg
    cases hplace : a.locations v with
    | none =>
        rw [hplace] at hreg
        cases hreg
    | some place => rfl
  have hinBlock : ∀ v reg, registerOf a.locations v = some reg → ∀ u ∈ f.sites,
      v ∈ u.instruction.operands → ∃ d, f.site v = some d ∧ d.block = u.block := by
    intro v reg hreg u hu hread
    obtain ⟨d, hd, -, hdef⟩ := hsite v reg hreg
    have hskips := (hran.serves v reg hreg).2
    unfold Skips at hskips
    simp only [not_or] at hskips
    exact ⟨d, hd, (hran.crosses v d hd hdef.1 hskips.2.1).2 u hu hread⟩
  -- a span lies within the interval of the scan
  have hspan : ∀ v reg, registerOf a.locations v = some reg → ∀ p, Spans f v p →
      startOf found.locations v ≤ p ∧ p ≤ finishOf found.locations v := by
    intro v reg hreg p hp
    rcases hp with ⟨⟨d, hd, hdef, hle⟩, u, hu, hread, hle'⟩
    have hd' := site_eq_some hv.single hd hdef.1
    rw [hdef.2] at hd'
    unfold startOf finishOf
    rw [hran.place v d hd' hdef.1]
    refine ⟨hle, hle'.trans ?_⟩
    exact (lastUse_le.mp (Nat.le_refl _)).2 (u, v)
      (List.mem_flatMap.mpr ⟨u, hu, List.mem_map.mpr ⟨v, hread, rfl⟩⟩) rfl
  have hapart : ∀ v w reg, registerOf a.locations v = some reg → registerOf a.locations w = some reg →
      v ≠ w → ∀ p, Spans f v p → ¬ Spans f w p := by
    intro v w reg hreg hreg' hne p hp hp'
    have hbounds := hspan v reg hreg p hp
    have hbounds' := hspan w reg hreg' p hp'
    rcases hran.apart v w reg hreg hreg' hne with hlt | hlt <;> omega
  refine ⟨a, hrun, hran.kept, hapart, ?_, hinBlock, ?_, ?_, ?_, ?_, ?_, ?_⟩
  · intro v w reg hreg hreg' hne htogether
    rcases htogether with ⟨b, k, hlive, hlive'⟩ | hparallel
    · have hpoint : ∀ x, registerOf a.locations x = some reg → LiveAt f b k x →
          Spans f x (blockStart f b + k) := by
        intro x hx hxlive
        obtain ⟨d, u, hd, rfl, hbefore, hu, hub, hread, hle⟩ :=
          span_of_liveAt hv hphis (hinBlock x reg hx) hxlive
        obtain ⟨hdmem, hres⟩ := of_site_eq_some hd
        have hne' := hv.ne_zero_of_liveAt hxlive
        refine ⟨⟨d, hdmem, ⟨hres ▸ hne', hres⟩, ?_⟩, u, hu, hread, ?_⟩
        · unfold sitePosition
          omega
        · unfold sitePosition
          rw [hub]
          omega
      exact hapart v w reg hreg hreg' hne _ (hpoint v hreg hlive) (hpoint w hreg' hlive')
    · obtain ⟨b, ⟨i, hi, -⟩, -⟩ := hparallel
      rcases mem_code_of_mem_phis hi with ⟨hcode, hphi⟩
      exact hphis i (mem_instructions.mpr ⟨b, hcode⟩) hphi
  · intro v reg hreg
    obtain ⟨d, hd, -, hdef⟩ := hsite v reg hreg
    have hskips := (hran.serves v reg hreg).2
    unfold Skips at hskips
    simp only [not_or] at hskips
    unfold CostModel.farValue
    rw [typeOf_of_site hd]
    exact (hran.crosses v d hd hdef.1 hskips.2.1).1
  · intro v reg hreg hremat
    obtain ⟨d, hd, -, hdef⟩ := hsite v reg hreg
    have hskips := (hran.serves v reg hreg).2
    unfold Skips at hskips
    simp only [not_or] at hskips
    obtain ⟨i, hi, hyes⟩ := hremat
    unfold Function.definition at hi
    rw [hd] at hi
    cases hi
    rw [hran.place v d hd hdef.1] at hskips
    exact hskips.2.2.1 hyes
  · intro v reg hreg
    have hskips := (hran.serves v reg hreg).2
    unfold Skips at hskips
    simp only [not_or] at hskips
    exact hran.loops (Bool.eq_false_iff.mpr hskips.1)
  · intro v reg hreg
    have hmem := (hran.serves v reg hreg).1
    unfold allowedRegisters at hmem
    rw [mem_sortedRegisters, List.mem_filter, decide_eq_true_eq] at hmem
    exact hran.reserved reg hmem.2
  · intro v reg hreg
    have hmem := (hran.serves v reg hreg).1
    unfold allowedRegisters at hmem
    rw [mem_sortedRegisters] at hmem
    exact List.mem_of_mem_filter hmem
  · intro v hmem _
    obtain ⟨d, hd, hdmem, hdef⟩ := definition_of_located hv hmem
    refine ⟨⟨d, ⟨hdmem, hdef.2⟩, ?_⟩, ?_⟩
    · intro e he
      have he' := site_eq_some hv.single he.1 (by rw [he.2]; exact hdef.2 ▸ hdef.1)
      rw [he.2, hd] at he'
      exact (Option.some.inj he').symm
    · intro u hu hread
      refine hv.operand u hu ?_ v hread
      exact hphis _ (mem_instructions.mpr ⟨u.block, List.mem_of_getElem? (mem_sites.mp hu)⟩)

theorem runEager_returnsCall_valid :
    ∃ a, runEager returnsCall [8, 5, 7] = .ok a ∧ ValidEager returnsCall [8, 5, 7] a :=
  runEager_valid (by decide +kernel) (by decide +kernel) (by decide)

example : (runEager returnsCall [8, 5, 7]).map (fun a => registerOf a.locations 1) = .ok (some 5) := by
  decide +kernel

end Disco.Backend
