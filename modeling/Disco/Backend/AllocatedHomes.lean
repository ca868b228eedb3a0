import Disco.Backend.Allocated
import Disco.Backend.EagerScan

/-! # Registers and kinds of values

Colouring moves values between the registers it was given, and it never changes
which values are made again at each use. Only near scalars get homes.
-/

namespace Disco.Backend.LinearScan

open IR Library ControlFlow

/-- Registers come from the list, and values stay what they are. -/
structure Settled (registers : List Nat) (before now : Locations) : Prop where
  registers : ∀ v reg, registerOf now v = some reg → reg ∈ registers
  kind : ∀ v, (now v).map Location.rematerializable = (before v).map Location.rematerializable

section Settled

variable {f : Function} {g : Graph} {registers : List Nat} {before now : Locations}

theorem registerOf_eq_some {v reg : Nat} :
    registerOf now v = some reg ↔ ∃ place, now v = some place ∧ place.hasRegister = true ∧ place.physicalRegister = reg := by
  unfold registerOf
  rw [Option.bind_eq_some_iff]
  apply exists_congr
  intro place
  apply and_congr_right
  intro _
  cases place.hasRegister <;> simp

/-- A change of one location that keeps the register or takes one from the list. -/
theorem Settled.modify (h : Settled registers before now) {v : Nat} {change : Location → Location}
    (hregister : ∀ place, (change place).hasRegister = true → (change place).physicalRegister ∈ registers ∨
      (place.hasRegister = true ∧ (change place).physicalRegister = place.physicalRegister))
    (hkind : ∀ place, (change place).rematerializable = place.rematerializable) :
    Settled registers before (modify now v change) := by
  refine ⟨?_, ?_⟩
  · intro w reg hw
    obtain ⟨place, hplace, hhas, rfl⟩ := registerOf_eq_some.mp hw
    unfold LinearScan.modify at hplace
    by_cases hwv : w = v
    · rw [hwv, Function.update_self] at hplace
      obtain ⟨old, hold, rfl⟩ := Option.map_eq_some_iff.mp hplace
      cases hregister old hhas with
      | inl hmem => exact hmem
      | inr hsame =>
          rw [hsame.2]
          exact h.registers v _ (registerOf_eq_some.mpr ⟨old, hold, hsame.1, rfl⟩)
    · rw [Function.update_of_ne hwv] at hplace
      exact h.registers w _ (registerOf_eq_some.mpr ⟨place, hplace, hhas, rfl⟩)
  · intro w
    rw [← h.kind w]
    unfold LinearScan.modify
    by_cases hwv : w = v
    · rw [hwv, Function.update_self, Option.map_map]
      apply Option.map_congr
      intro place _
      exact hkind place
    · rw [Function.update_of_ne hwv]

theorem settled_setSlot (h : Settled registers before now) (v : Nat) (slot : Int) :
    Settled registers before (modify now v fun place => { place with spillSlot := slot }) :=
  h.modify (fun _ hhas => .inr ⟨hhas, rfl⟩) fun _ => rfl

theorem settled_assignRegister (h : Settled registers before now) (v : Nat) :
    Settled registers before (assignRegister f g registers now v) := by
  unfold assignRegister
  split
  · next reg hreg =>
      have hmem := List.mem_of_find?_eq_some hreg
      unfold choices at hmem
      rw [List.mem_insertionSort] at hmem
      exact h.modify (fun _ _ => .inl hmem) fun _ => rfl
  · exact h

theorem settled_assignSlot (h : Settled registers before now) (v : Nat) :
    Settled registers before (assignSlot f g now v) := by
  unfold assignSlot
  split
  · exact h
  · exact settled_setSlot h v _

theorem settled_foldl {step : Locations → Nat → Locations}
    (hstep : ∀ now v, Settled registers before now → Settled registers before (step now v)) {ordered : List Nat}
    (h : Settled registers before now) : Settled registers before (ordered.foldl step now) := by
  induction ordered generalizing now with
  | nil => exact h
  | cons v rest ih => exact ih (hstep now v h)

theorem settled_swapRegisters (h : Settled registers before now) {component : Finset Nat} {p q : Nat}
    (hp : p ∈ registers) (hq : q ∈ registers) : Settled registers before (swapRegisters component p q now) := by
  refine ⟨?_, ?_⟩
  · intro w reg hw
    obtain ⟨place, hplace, hhas, rfl⟩ := registerOf_eq_some.mp hw
    unfold swapRegisters at hplace
    split at hplace
    · obtain ⟨old, hold, rfl⟩ := Option.map_eq_some_iff.mp hplace
      dsimp only
      split
      · exact hq
      · exact hp
    · exact h.registers w _ (registerOf_eq_some.mpr ⟨place, hplace, hhas, rfl⟩)
  · intro w
    rw [← h.kind w]
    unfold swapRegisters
    split
    · rw [Option.map_map]
      rfl
    · rfl

/-- Every stop and every step of the rounds. -/
def RoundSettled (registers : List Nat) (before : Locations) : Except Locations Improvement → Prop :=
  Ends (fun state => Settled registers before state.locations) (Settled registers before)

theorem tryInterchange_settled {state : Improvement} {pair : Nat × Nat} (h : Settled registers before state.locations) :
    RoundSettled registers before (tryInterchange f g state pair) := by
  unfold tryInterchange
  split
  · next p q hp hq =>
      have hswap : ∀ component, Settled registers before (swapRegisters component p q state.locations) :=
        fun component => settled_swapRegisters h (h.registers _ _ hp) (h.registers _ _ hq)
      split
      · exact h
      · split
        · exact h
        · split
          · exact h
          · split
            · exact h
            · split
              · exact h
              · exact hswap _
  · exact h

theorem interchangeRounds_settled {state : Improvement} (h : Settled registers before state.locations) :
    RoundSettled registers before (interchangeRounds f g state) := by
  have hround : ∀ state : Improvement, Settled registers before state.locations →
      RoundSettled registers before (interchangeRound f g state) :=
    fun state hstate => foldAll_ends (fun _ _ _ => tryInterchange_settled) hstate
  unfold interchangeRounds
  apply (hround state h).bind
  intro state' hstate
  split
  · exact hround state' hstate
  · exact hstate

theorem improveSlot_settled {state : Improvement} {v : Nat} (h : Settled registers before state.locations) :
    RoundSettled registers before (improveSlot f g state v) := by
  unfold improveSlot
  split
  · dsimp only
    split
    · exact h
    · split
      · exact h
      · apply Ends.bind (P := fun search : SlotSearch => Settled registers before search.state.locations)
        · apply foldAll_ends
          · intro search slot _ hsearch
            unfold trySlot
            dsimp only
            split
            · exact hsearch
            · split
              · exact settled_setSlot hsearch v slot
              · exact hsearch
          · exact h
        · exact fun _ hsearch => hsearch
  · exact h

theorem improvePhiLocations_settled (h : Settled registers before now) :
    Settled registers before (improvePhiLocations f g now) := by
  have hdone : RoundSettled registers before (interchangeRounds f g ⟨now, 0, false⟩ >>= improveSlots f g) := by
    apply (interchangeRounds_settled h).bind
    intro state hstate
    exact foldAll_ends (fun _ _ _ => improveSlot_settled) hstate
  unfold improvePhiLocations
  dsimp only
  revert hdone
  generalize (interchangeRounds f g ⟨now, 0, false⟩ >>= improveSlots f g) = improved
  intro hdone
  cases improved with
  | error stopped => exact hdone
  | ok state => exact hdone

end Settled

/-- What homes global allocation gives, and to what. -/
structure Housing (f : Function) (a : Allocator) : Prop where
  registers : ∀ v reg, registerOf a.locations v = some reg → reg ∈ [2, 4, 5, 7, 8, 14]
  near : ∀ v, Assigned a.locations v → NearScalar f v
  kind : ∀ v, v ≠ 0 → (a.locations v).map Location.rematerializable = (f.definition v).map isRematerializable

section Housing

variable {f : Function} {allocatable : List Nat} {priority : Priority} {a : Allocator}

theorem Kept.kind {scan : Scan} (hkept : Kept (initialLocations f) scan.locations) {v : Nat} (hv : v ≠ 0) :
    (scan.locations v).map Location.rematerializable = (f.definition v).map isRematerializable := by
  rw [← initialLocations_rematerializable hv]
  have hsame := congrArg (Option.map fun kept : Bool × Bool × Int => kept.2.1) (hkept v)
  rw [Option.map_map, Option.map_map] at hsame
  exact hsame

theorem near_of_eligible {scan : Scan} (hkept : Kept (initialLocations f) scan.locations) {v : Nat}
    (heligible : eligible f scan v = true) : NearScalar f v := by
  unfold eligible at heligible
  simp only [Bool.and_eq_true, Bool.not_eq_true'] at heligible
  obtain ⟨⟨hany, hnear⟩, _⟩ := heligible
  refine ⟨hnear, ?_⟩
  rintro ⟨i, hi, hremat⟩
  have hne : v ≠ 0 := by
    intro hzero
    have hkind := hkept v
    rw [hzero] at hkind hany
    cases hplace : scan.locations 0 with
    | none => simp [hplace] at hany
    | some place => simp [hplace, initialLocations] at hkind
  have hkind := hkept.kind hne
  rw [hi] at hkind
  obtain ⟨place, hplace, hsame⟩ := Option.map_eq_some_iff.mp hkind
  simp [hplace, hsame, hremat] at hany

theorem housing_of_runGlobalImpl (hf : Verified f) (h : runGlobalImpl f allocatable priority = .ok a) :
    Housing f a := by
  unfold runGlobalImpl at h
  obtain ⟨cfg, _, h⟩ := bind_eq_ok.mp h
  obtain ⟨scan, hscan, h⟩ := bind_eq_ok.mp h
  obtain ⟨_, hcheck, h⟩ := bind_eq_ok.mp h
  obtain ⟨g, hgraph, h⟩ := bind_eq_ok.mp h
  cases h
  obtain ⟨hkept, _, _⟩ := scanBlocks_eq_ok hf hscan
  obtain ⟨hsimple, _⟩ := buildGraph_eq_ok hgraph
  have hstart : Settled (sortedRegisters allocatable) scan.locations scan.locations := by
    refine ⟨?_, fun _ => rfl⟩
    intro v reg hreg
    rw [(hkept.unhoused v).1] at hreg
    cases hreg
  have hregistered : Settled (sortedRegisters allocatable) scan.locations
      ((orderedValues f scan (inductions f cfg priority)).foldl (assignRegister f g (sortedRegisters allocatable))
        scan.locations) := settled_foldl (fun _ v h => settled_assignRegister h v) hstart
  have hslotted : Settled (sortedRegisters allocatable) scan.locations
      ((orderedValues f scan (inductions f cfg priority)).foldl (assignSlot f g) _) :=
    settled_foldl (fun _ v h => settled_assignSlot h v) hregistered
  have hsettled := improvePhiLocations_settled (f := f) (g := g) hslotted
  have himproved := improvePhiLocations_improved hsimple (spilled_coloured hkept hsimple allocatable
    fun v (hv : v ∈ orderedValues f scan (inductions f cfg priority)) => eligible_of_ordered hv).1
  refine ⟨?_, ?_, ?_⟩
  · intro v reg hreg
    have hmem := EagerScan.mem_sortedRegisters.mp (hsettled.registers v reg hreg)
    have hchecked := checkAll_eq_ok.mp hcheck reg hmem
    unfold checkRegister at hchecked
    by_contra hnot
    simp [rejectIf, hnot] at hchecked
  · intro v hv
    exact near_of_eligible hkept (himproved.coloured.only v hv)
  · intro v hne
    rw [← hkept.kind hne]
    exact hsettled.kind v

theorem runGlobal_housing {policy : OptimizationLevel} (hf : Verified f)
    (h : runGlobal f allocatable policy = .ok a) : Housing f a := by
  unfold runGlobal at h
  obtain ⟨original, horiginal, h⟩ := bind_eq_ok.mp h
  obtain ⟨chosen, hchosen, h⟩ := bind_eq_ok.mp h
  obtain ⟨cfg, _, h⟩ := bind_eq_ok.mp h
  cases h
  have hfirst := housing_of_runGlobalImpl hf horiginal
  have hhoused : Housing f chosen := by
    unfold chooseAllocation at hchosen
    split at hchosen
    · obtain ⟨cfg, _, hchosen⟩ := bind_eq_ok.mp hchosen
      obtain ⟨candidate, hcandidate, hchosen⟩ := bind_eq_ok.mp hchosen
      rw [pure_eq_ok] at hchosen
      split at hchosen
      · exact hchosen ▸ hfirst
      · exact hchosen ▸ housing_of_runGlobalImpl hf hcandidate
    · exact pure_eq_ok.mp hchosen ▸ hfirst
  exact ⟨hhoused.registers, hhoused.near, hhoused.kind⟩

end Housing

end Disco.Backend.LinearScan
