import Disco.Backend.Recolouring

/-! # Valid allocations

What code generation relies on after `runGlobal`: values that are needed at the
same time have different homes, every used value has one, calls keep what is
live across them, and spare registers hold nothing that is busy.
-/

namespace Disco.Backend.LinearScan

open IR Library ControlFlow Verifier

/-- Both values are live at one point, or PHIs of one block define both. -/
def Together (f : Function) (v w : Nat) : Prop :=
  (∃ b k, LiveAt f b k v ∧ LiveAt f b k w) ∨ ParallelPhis f v w

/-- The value is live around the instruction, read by it or written by it. -/
def BusyAt (f : Function) (b k : Nat) (i : Instruction) (v : Nat) : Prop :=
  LiveAt f b k v ∨ LiveAt f b (k + 1) v ∨ Reads i v ∨ Defines i v

structure ValidAllocation (f : Function) (a : Allocator) : Prop where
  registers : ∀ v w, v ≠ w → Together f v w → ∀ reg, registerOf a.locations v = some reg →
    registerOf a.locations w ≠ some reg
  slots : ∀ v w, v ≠ w → Together f v w → ∀ slot, slotOf a.locations v = some slot →
    slotOf a.locations w ≠ some slot
  homes : ∀ v, Used f v → NearScalar f v → Assigned a.locations v
  calls : ∀ b k i, (f.code b)[k]? = some i → i.opcode = .call → ∀ v,
    a.liveAcrossCall v (blockStart f b + k) ↔
      NearScalar f v ∧ LiveAt f b (k + 1) v ∧ v ≠ i.result
  spare : ∀ b k i, (f.code b)[k]? = some i → ∀ reg ∈ a.spareRegisters (blockStart f b + k),
    ∀ v, BusyAt f b k i v → registerOf a.locations v ≠ some reg

section Eligible

variable {f : Function} {scan : Scan}

theorem Kept.unhoused (h : Kept (initialLocations f) scan.locations) (v : Nat) :
    registerOf scan.locations v = none ∧ slotOf scan.locations v = none := by
  have hv := h v
  have hinit : ∀ place, initialLocations f v = some place →
      place.hasRegister = false ∧ place.spillSlot = -1 := by
    intro place hplace
    unfold initialLocations at hplace
    split at hplace
    · cases hplace
    · obtain ⟨entry, -, rfl⟩ := Option.map_eq_some_iff.mp hplace
      exact ⟨rfl, rfl⟩
  unfold registerOf slotOf
  cases hnow : scan.locations v with
  | none => exact ⟨rfl, rfl⟩
  | some place =>
      rw [hnow] at hv
      cases hplace : initialLocations f v with
      | none => rw [hplace] at hv; cases hv
      | some old =>
          obtain ⟨hreg, hslot⟩ := hinit old hplace
          rw [hplace] at hv
          simp only [Option.map_some, Option.some.injEq, Prod.mk.injEq] at hv
          simp [hv.1, hv.2.2, hreg, hslot]

theorem rematerializable_iff {v : Nat} (hv : v ≠ 0) :
    (initialLocations f v).any Location.rematerializable = true ↔ Rematerializable f v := by
  have hmap : (initialLocations f v).map Location.rematerializable = _ :=
    initialLocations_rematerializable hv
  unfold Rematerializable
  cases hdef : f.definition v with
  | none =>
      rw [hdef] at hmap
      simp only [Option.map_none, Option.map_eq_none_iff] at hmap
      simp [hmap]
  | some i =>
      rw [hdef] at hmap
      obtain ⟨place, hplace, hsame⟩ := Option.map_eq_some_iff.mp hmap
      simp [hplace, hsame]

/-- Eligible values are the near scalars with a weight. -/
theorem eligible_iff (hkept : Kept (initialLocations f) scan.locations) {v : Nat} {site : Site}
    (hsite : f.site v = some site) (hv : v ≠ 0) :
    eligible f scan v = true ↔ NearScalar f v ∧ (scan.weight v).isSome := by
  have hmap : (initialLocations f v).map Location.rematerializable = _ :=
    initialLocations_rematerializable hv
  have hdef : f.definition v = some site.instruction := by
    unfold Function.definition
    rw [hsite]
    rfl
  rw [hdef] at hmap
  obtain ⟨old, hold, hremat⟩ := Option.map_eq_some_iff.mp hmap
  have hnow := hkept v
  rw [hold] at hnow
  obtain ⟨place, hplace, hsame⟩ := Option.map_eq_some_iff.mp hnow
  simp only [Prod.mk.injEq] at hsame
  have hnear : NearScalar f v ↔
      CostModel.farValue f v = false ∧ isRematerializable site.instruction = false := by
    constructor
    · intro h
      refine ⟨h.near, ?_⟩
      by_contra hr
      exact h.keeps ⟨_, hdef, by simpa using hr⟩
    · rintro ⟨hfar, hr⟩
      refine ⟨hfar, ?_⟩
      rintro ⟨i, hi, hri⟩
      rw [hdef] at hi
      cases hi
      rw [hr] at hri
      cases hri
  rw [hnear]
  unfold eligible
  rw [hplace, ← hremat]
  simp only [Option.any_some, hsame.2.1, Bool.and_eq_true, Bool.not_eq_true']
  tauto

end Eligible

section Valid

variable {f : Function} {allocatable : List Nat} {priority : Priority} {a : Allocator}
  {cfg : ControlFlow}

/-- What one colouring guarantees. -/
structure Allocated (f : Function) (a : Allocator) : Prop where
  registers : ∀ v w, v ≠ w → Together f v w → ∀ reg, registerOf a.locations v = some reg →
    registerOf a.locations w ≠ some reg
  slots : ∀ v w, v ≠ w → Together f v w → ∀ slot, slotOf a.locations v = some slot →
    slotOf a.locations w ≠ some slot
  homes : ∀ v, Used f v → NearScalar f v → Assigned a.locations v
  calls : ∀ b k i, (f.code b)[k]? = some i → i.opcode = .call → ∀ v,
    a.liveAcrossCall v (blockStart f b + k) ↔
      NearScalar f v ∧ LiveAt f b (k + 1) v ∧ v ≠ i.result

/-- Values needed together that both have a home are joined by an edge. -/
theorem edge_of_together (hf : Verified f) (hcfg : controlFlow f = .ok cfg) {g : Graph}
    {isEligible : Nat → Bool} {size : Bool}
    (hgraph : buildGraph f cfg size isEligible = .ok g) {v w : Nat} (hne : v ≠ w)
    (hused : ∀ x, isEligible x = true → Used f x) (hv : isEligible v = true)
    (hw : isEligible w = true) (h : Together f v w) : w ∈ g.interference v := by
  obtain ⟨hsimple, hedges⟩ := buildGraph_eq_ok hgraph
  -- an eligible value live where another one is defined
  have hedge : ∀ x y, x ≠ y → isEligible x = true → isEligible y = true → ∀ site,
      f.site x = some site → LiveAt f site.block (site.position + 1) y → y ∈ g.interference x := by
    intro x y hxy hx hy site hsite hlive
    obtain ⟨hmem, hres⟩ := of_site_eq_some hsite
    have hi := mem_sites.mp hmem
    obtain ⟨b, k, hsome⟩ := hf.liveAt_of_used (hused x hx)
    have hx0 := hf.ne_zero_of_liveAt hsome
    obtain ⟨site', hsite', -, -⟩ := hf.defined_of_liveAt hlive
    obtain ⟨hmem', hres'⟩ := of_site_eq_some hsite'
    have hloc : y ∈ locatedValues f := mem_locatedValues.mpr ⟨hf.ne_zero_of_liveAt hlive, _,
      mem_instructions.mpr ⟨_, List.mem_of_getElem? (mem_sites.mp hmem')⟩, hres'⟩
    rw [← hres] at hx0 hx hxy ⊢
    exact hedges _ _ _ hi hx0 hx y ((mem_liveAfter hf hcfg hi).mpr hlive) hloc (Ne.symm hxy) hy
  have hinterferes : Interferes f v w := by
    rcases h with ⟨b, k, hlv, hlw⟩ | hphis
    · exact hf.interferes_of_liveAt hlv hlw hne
    · exact hf.interferes_of_parallelPhis hphis (hused v hv) (hused w hw) hne
  rcases hinterferes with ⟨site, hsite, hlive⟩ | ⟨site, hsite, hlive⟩
  · exact hedge v w hne hv hw site hsite hlive
  · exact hsimple.symm w v (hedge w v (Ne.symm hne) hw hv site hsite hlive)

theorem calls_of_scan (hf : Verified f) (hcfg : controlFlow f = .ok cfg) {scan : Scan}
    (hscan : scanBlocks f cfg priority = .ok scan) {b k : Nat} {i : Instruction}
    (hi : (f.code b)[k]? = some i) (hcall : i.opcode = .call) (v : Nat) :
    v ∈ scan.callLive (blockStart f b + k) ↔
      NearScalar f v ∧ LiveAt f b (k + 1) v ∧ v ≠ i.result := by
  obtain ⟨-, -, hlive⟩ := scanBlocks_eq_ok hf hscan
  have hacross : v ∈ across i (liveAfter f cfg b k) ↔ LiveAt f b (k + 1) v ∧ v ≠ i.result := by
    rw [← mem_liveAfter hf hcfg hi]
    unfold across
    split
    · next hzero =>
        rw [hzero, mem_liveAfter hf hcfg hi]
        exact ⟨fun h => ⟨h, hf.ne_zero_of_liveAt h⟩, fun h => h.1⟩
    · rw [Finset.mem_erase]
      exact And.comm
  rw [hlive]
  constructor
  · rintro ⟨c, -, l, j, hj, hp, -, hloc, hmem, hkeep⟩
    obtain ⟨rfl, rfl⟩ := position_injective hi hj hp
    rw [hi] at hj
    cases hj
    have hv := (mem_locatedValues.mp hloc).1
    simp only [Bool.or_eq_false_iff] at hkeep
    refine ⟨⟨hkeep.2, fun hr => ?_⟩, hacross.mp hmem⟩
    rw [(rematerializable_iff hv).mpr hr] at hkeep
    cases hkeep.1
  · rintro ⟨hnear, hafter⟩
    have hv := hf.ne_zero_of_liveAt hafter.1
    obtain ⟨site, hsite, -, -⟩ := hf.defined_of_liveAt hafter.1
    obtain ⟨hmem, hres⟩ := of_site_eq_some hsite
    refine ⟨b, lt_of_mem_code (List.mem_of_getElem? hi), k, i, hi, rfl, hcall,
      mem_locatedValues.mpr ⟨hv, _, mem_instructions.mpr
        ⟨_, List.mem_of_getElem? (mem_sites.mp hmem)⟩, hres⟩, hacross.mpr hafter, ?_⟩
    rw [Bool.or_eq_false_iff]
    refine ⟨?_, hnear.near⟩
    by_contra hr
    exact hnear.keeps ((rematerializable_iff hv).mp (by simpa using hr))

theorem eligible_of_ordered {scan : Scan} {v : Nat} (hv : v ∈ orderedValues f scan (inductions f cfg priority)) :
    eligible f scan v = true := by
  unfold orderedValues at hv
  rw [List.mem_insertionSort] at hv
  exact (List.mem_filter.mp hv).2

/-- Registers, then slots, for the values in order. -/
theorem spilled_coloured {scan : Scan} (hkept : Kept (initialLocations f) scan.locations) {g : Graph} (hsimple : g.Simple f)
    (allocatable : List Nat) {ordered : List Nat} (hordered : ∀ v ∈ ordered, eligible f scan v = true) :
    Coloured g (eligible f scan) (ordered.foldl (assignSlot f g)
        (ordered.foldl (assignRegister f g (sortedRegisters allocatable)) scan.locations)) ∧
      ∀ v ∈ ordered, Assigned (ordered.foldl (assignSlot f g)
        (ordered.foldl (assignRegister f g (sortedRegisters allocatable)) scan.locations)) v := by
  have hstart : Coloured g (eligible f scan) scan.locations := by
    refine ⟨?_, ?_, ?_, ?_⟩
    · intro x y _ c hc
      rw [(hkept.unhoused x).1] at hc
      cases hc
    · intro x y _ c hc
      rw [(hkept.unhoused x).2] at hc
      cases hc
    · intro v hv
      unfold Assigned at hv
      rw [(hkept.unhoused v).1, (hkept.unhoused v).2] at hv
      simp at hv
    · intro v hv
      unfold eligible at hv
      cases hplace : scan.locations v with
      | none => rw [hplace] at hv; simp at hv
      | some place => rfl
  obtain ⟨hcoloured, -, hhomes⟩ := foldl_assignSlot_coloured
    (foldl_assignRegister_coloured hstart hsimple (sortedRegisters allocatable) hordered) hsimple hordered
  exact ⟨hcoloured, hhomes⟩

theorem allocated_of_runGlobalImpl (hf : Verified f)
    (h : runGlobalImpl f allocatable priority = .ok a) : Allocated f a := by
  unfold runGlobalImpl at h
  obtain ⟨cfg, hcfg, h⟩ := bind_eq_ok.mp h
  obtain ⟨scan, hscan, h⟩ := bind_eq_ok.mp h
  obtain ⟨_, -, h⟩ := bind_eq_ok.mp h
  obtain ⟨g, hgraph, h⟩ := bind_eq_ok.mp h
  cases h
  obtain ⟨hkept, hweight, -⟩ := scanBlocks_eq_ok hf hscan
  obtain ⟨hsimple, -⟩ := buildGraph_eq_ok hgraph
  obtain ⟨hspilled, hhomes⟩ := spilled_coloured hkept hsimple allocatable
    fun v (hv : v ∈ orderedValues f scan (inductions f cfg priority)) => eligible_of_ordered hv
  have himproved := improvePhiLocations_improved hsimple hspilled
  have hused : ∀ x, eligible f scan x = true → Used f x := by
    intro x hx
    unfold eligible at hx
    simp only [Bool.and_eq_true] at hx
    exact weighted_of_scanBlocks hf hcfg hscan x hx.2
  have hedge : ∀ v w, v ≠ w → Together f v w →
      Assigned (improvePhiLocations f g ((orderedValues f scan (inductions f cfg priority)).foldl
        (assignSlot f g) _)) v → Assigned _ w → w ∈ g.interference v :=
    fun v w hne htogether hv hw => edge_of_together hf hcfg hgraph hne hused
      (himproved.coloured.only v hv) (himproved.coloured.only w hw) htogether
  refine ⟨?_, ?_, ?_, fun b k i hi hcall v => calls_of_scan hf hcfg hscan hi hcall v⟩
  · intro v w hne htogether reg hv hw
    exact himproved.coloured.registers v w
      (hedge v w hne htogether (.inl (by rw [hv]; rfl)) (.inl (by rw [hw]; rfl))) reg hv hw
  · intro v w hne htogether slot hv hw
    exact himproved.coloured.slots v w
      (hedge v w hne htogether (.inr (by rw [hv]; rfl)) (.inr (by rw [hw]; rfl))) slot hv hw
  · intro v huse hnear
    refine himproved.homes v (hhomes v ?_)
    obtain ⟨b, k, hlive⟩ := hf.liveAt_of_used huse
    have hv := hf.ne_zero_of_liveAt hlive
    obtain ⟨site, hsite, -, -⟩ := hf.defined_of_liveAt hlive
    obtain ⟨hmem, hres⟩ := of_site_eq_some hsite
    unfold orderedValues
    rw [List.mem_insertionSort, List.mem_filter]
    refine ⟨mem_locatedValues.mpr ⟨hv, _, mem_instructions.mpr
      ⟨_, List.mem_of_getElem? (mem_sites.mp hmem)⟩, hres⟩, ?_⟩
    exact (eligible_iff hkept hsite hv).mpr ⟨hnear, hweight v huse⟩

/-- Whichever colouring is kept. -/
theorem allocated_of_chooseAllocation (hf : Verified f) {size : Bool} {original : Allocator}
    (horiginal : Allocated f original)
    (h : chooseAllocation f allocatable size original = .ok a) : Allocated f a := by
  unfold chooseAllocation at h
  split at h
  · obtain ⟨cfg, -, h⟩ := bind_eq_ok.mp h
    obtain ⟨candidate, hcandidate, h⟩ := bind_eq_ok.mp h
    simp only [pure_eq_ok] at h
    split at h
    · exact h ▸ horiginal
    · exact h ▸ allocated_of_runGlobalImpl hf hcandidate
  · exact pure_eq_ok.mp h ▸ horiginal

theorem mem_busyValues_of_busyAt (hf : Verified f) (hcfg : controlFlow f = .ok cfg) {b k v : Nat}
    {i : Instruction} (hi : (f.code b)[k]? = some i) (h : BusyAt f b k i v) :
    v ∈ busyValues i (liveAfter f cfg b k) := by
  rw [mem_busyValues, mem_liveAfter hf hcfg hi]
  rcases h with hlive | hlive | hread | hdef
  · rcases hlive.next hi with hread | hlater
    · exact .inr (.inl hread)
    · exact .inl hlater
  · exact .inl hlive
  · exact .inr (.inl hread)
  · exact .inr (.inr hdef)

end Valid

/-- Global allocation is valid for every accepted function, every list of
registers and either policy. -/
theorem runGlobal_valid {f : Function} {allocatable : List Nat} {policy : OptimizationLevel}
    {a : Allocator} (hf : verifyFunction f = .ok ())
    (h : runGlobal f allocatable policy = .ok a) : ValidAllocation f a := by
  have hf := verified_of_verifyFunction hf
  unfold runGlobal at h
  obtain ⟨original, horiginal, h⟩ := bind_eq_ok.mp h
  obtain ⟨chosen, hchosen, h⟩ := bind_eq_ok.mp h
  obtain ⟨cfg, hcfg, h⟩ := bind_eq_ok.mp h
  cases h
  have hallocated := allocated_of_chooseAllocation hf (allocated_of_runGlobalImpl hf horiginal)
    hchosen
  refine ⟨hallocated.registers, hallocated.slots, hallocated.homes, hallocated.calls, ?_⟩
  intro b k i hi reg hreg v hbusy
  exact spareRegisters_ok hf b k i hi reg hreg v (mem_busyValues_of_busyAt hf hcfg hi hbusy)

/-- A function that returns the result of a call. -/
def returnsCall : Function where
  name := "g"
  returnType := { base := .word, sizeInBytes := 2 }
  entry := 0
  valueCount := 1
  blocks := [⟨0, "entry", [
    { opcode := .call, type := { base := .word, sizeInBytes := 2 }, result := 1, symbol := "f" },
    { opcode := .ret, operands := [1] }]⟩]

theorem runGlobal_returnsCall_valid :
    ∃ a, runGlobal returnsCall [5, 7, 8] .o2 = .ok a ∧ ValidAllocation returnsCall a := by
  have hok : (runGlobal returnsCall [5, 7, 8] .o2).isOk = true := by decide +kernel
  cases h : runGlobal returnsCall [5, 7, 8] .o2 with
  | error message =>
      rw [h] at hok
      cases hok
  | ok a => exact ⟨a, rfl, runGlobal_valid (by decide +kernel) h⟩

/-- The result of a call is live after it, but not kept across it. -/
theorem runGlobal_returnsCall_result :
    verifyFunction returnsCall = .ok () ∧ ∃ a, runGlobal returnsCall [5, 7, 8] .o2 = .ok a ∧
      ¬ ∀ b k i, (returnsCall.code b)[k]? = some i → i.opcode = .call → ∀ v,
        a.liveAcrossCall v (blockStart returnsCall b + k) ↔
          NearScalar returnsCall v ∧ LiveAt returnsCall b (k + 1) v := by
  refine ⟨by decide +kernel, ?_⟩
  have hrun : ((runGlobal returnsCall [5, 7, 8] .o2).map fun a => decide (a.liveAcrossCall 1 0)) =
      .ok false := by decide +kernel
  cases h : runGlobal returnsCall [5, 7, 8] .o2 with
  | error message =>
      rw [h] at hrun
      cases hrun
  | ok a =>
      refine ⟨a, rfl, fun hall => ?_⟩
      have hnot : ¬ a.liveAcrossCall 1 0 := by
        rw [h] at hrun
        simpa [Except.map] using hrun
      refine hnot ((hall 0 0 _ rfl rfl 1).mpr ⟨⟨by decide +kernel, ?_⟩, ?_⟩)
      · rintro ⟨i, hi, hremat⟩
        have hdef : returnsCall.definition 1 = some
            { opcode := .call, type := { base := .word, sizeInBytes := 2 }, result := 1,
              symbol := "f" } := by decide +kernel
        rw [hdef] at hi
        cases hi
        cases hremat
      · have hret : (returnsCall.code 0)[1]? = some { opcode := .ret, operands := [1] } := rfl
        exact .use hret (by decide) (by decide)

end Disco.Backend.LinearScan
