import Disco.Backend.Interference

/-! # Colouring and recolouring

Greedy colouring keeps interfering values apart, and so does every step of the
improvement rounds: a register interchange follows a whole Kempe chain, and a
slot is only taken when no neighbour has it. Both hold wherever the work limit
stops the rounds.
-/

namespace Disco.Backend.LinearScan

open IR Library ControlFlow

/-! ## Single changes -/

theorem registerOf_setRegister {locations : Locations} {v reg : Nat}
    (h : (locations v).isSome) :
    registerOf (modify locations v fun place =>
      { place with hasRegister := true, physicalRegister := reg }) =
      Function.update (registerOf locations) v (some reg) := by
  funext w
  obtain ⟨place, hplace⟩ := Option.isSome_iff_exists.mp h
  by_cases hw : w = v
  · subst hw
    simp [registerOf, modify, hplace]
  · simp [registerOf, modify, hw]

theorem slotOf_setRegister (locations : Locations) (v reg : Nat) :
    slotOf (modify locations v fun place =>
      { place with hasRegister := true, physicalRegister := reg }) = slotOf locations := by
  funext w
  by_cases hw : w = v
  · subst hw
    cases hplace : locations w <;> simp [slotOf, modify, hplace]
  · simp [slotOf, modify, hw]

theorem slotOf_setSlot {locations : Locations} {v : Nat} {slot : Int}
    (h : (locations v).isSome) (hslot : slot ≥ 0) :
    slotOf (modify locations v fun place => { place with spillSlot := slot }) =
      Function.update (slotOf locations) v (some slot) := by
  funext w
  obtain ⟨place, hplace⟩ := Option.isSome_iff_exists.mp h
  by_cases hw : w = v
  · subst hw
    simp [slotOf, modify, hplace, hslot]
  · simp [slotOf, modify, hw]

theorem registerOf_setSlot (locations : Locations) (v : Nat) (slot : Int) :
    registerOf (modify locations v fun place => { place with spillSlot := slot }) =
      registerOf locations := by
  funext w
  by_cases hw : w = v
  · subst hw
    cases hplace : locations w <;> simp [registerOf, modify, hplace]
  · simp [registerOf, modify, hw]

theorem isSome_modify {locations : Locations} {v w : Nat} {change : Location → Location} :
    (modify locations v change w).isSome = (locations w).isSome := by
  by_cases hw : w = v
  · subst hw
    simp [modify]
  · simp [modify, hw]

theorem slotOf_nonneg {locations : Locations} {v : Nat} {slot : Int}
    (h : slotOf locations v = some slot) : slot ≥ 0 := by
  unfold slotOf at h
  rw [Option.bind_eq_some_iff] at h
  obtain ⟨place, -, h⟩ := h
  split at h
  · next hpos =>
      cases h
      exact hpos
  · cases h

/-! ## The invariant -/

/-- The value has a home. -/
def Assigned (locations : Locations) (v : Nat) : Prop :=
  (registerOf locations v).isSome ∨ (slotOf locations v).isSome

/-- Interfering values are apart, and only eligible values have homes. -/
structure Coloured (g : Graph) (isEligible : Nat → Bool) (locations : Locations) : Prop where
  registers : Proper (fun a b => b ∈ g.interference a) (registerOf locations)
  slots : Proper (fun a b => b ∈ g.interference a) (slotOf locations)
  only : ∀ v, Assigned locations v → isEligible v = true
  located : ∀ v, isEligible v = true → (locations v).isSome

section Rules

variable {f : Function} {g : Graph} {isEligible : Nat → Bool} {locations : Locations}

theorem Coloured.setRegister (h : Coloured g isEligible locations) (hg : g.Simple f) {v reg : Nat}
    (hv : isEligible v = true) (hfree : ¬ occupied g locations v reg) :
    Coloured g isEligible (modify locations v fun place =>
      { place with hasRegister := true, physicalRegister := reg }) := by
  have hregister : registerOf (modify locations v fun place =>
      { place with hasRegister := true, physicalRegister := reg }) =
      Function.update (registerOf locations) v (some reg) :=
    registerOf_setRegister (h.located v hv)
  refine ⟨?_, ?_, ?_, ?_⟩
  · rw [hregister]
    refine h.registers.assign hg.symm hg.irrefl fun w hw hsame => ?_
    exact hfree ⟨w, hw, hsame⟩
  · rw [slotOf_setRegister]
    exact h.slots
  · intro w hw
    by_cases hwv : w = v
    · exact hwv ▸ hv
    · refine h.only w ?_
      unfold Assigned at hw ⊢
      rw [hregister, slotOf_setRegister, Function.update_of_ne hwv] at hw
      exact hw
  · intro w hw
    rw [isSome_modify]
    exact h.located w hw

theorem Coloured.setSlot (h : Coloured g isEligible locations) (hg : g.Simple f) {v : Nat}
    {slot : Int} (hv : isEligible v = true) (hslot : slot ≥ 0)
    (hfree : ∀ w ∈ g.interference v, slotOf locations w ≠ some slot) :
    Coloured g isEligible (modify locations v fun place => { place with spillSlot := slot }) := by
  have hslots := slotOf_setSlot (h.located v hv) hslot
  refine ⟨?_, ?_, ?_, ?_⟩
  · rw [registerOf_setSlot]
    exact h.registers
  · rw [hslots]
    exact h.slots.assign hg.symm hg.irrefl hfree
  · intro w hw
    by_cases hwv : w = v
    · exact hwv ▸ hv
    · refine h.only w ?_
      unfold Assigned at hw ⊢
      rw [hslots, registerOf_setSlot, Function.update_of_ne hwv] at hw
      exact hw
  · intro w hw
    rw [isSome_modify]
    exact h.located w hw

/-! ## Greedy colouring -/

theorem assignRegister_coloured (h : Coloured g isEligible locations) (hg : g.Simple f)
    {registers : List Nat} {v : Nat} (hv : isEligible v = true) :
    Coloured g isEligible (assignRegister f g registers locations v) := by
  unfold assignRegister
  split
  · next reg hreg =>
      have hfree := List.find?_some hreg
      exact h.setRegister hg hv (by simpa using hfree)
  · exact h

theorem mem_occupiedSlots (hg : g.Simple f) {v w : Nat} {slot : Int}
    (hw : w ∈ g.interference v) (hslot : slotOf locations w = some slot) :
    slot ∈ occupiedSlots f g locations v := by
  unfold occupiedSlots neighbors
  rw [List.mem_toFinset, List.mem_filterMap]
  exact ⟨w, List.mem_filter.mpr ⟨hg.located v w hw, by simpa using hw⟩, hslot⟩

/-- One of the first numbers is free: there are more of them than taken slots. -/
theorem firstFreeSlot_spec (taken : Finset Int) :
    firstFreeSlot taken ≥ 0 ∧ firstFreeSlot taken ∉ taken := by
  unfold firstFreeSlot
  cases hfind : (List.range (taken.card + 1)).find? fun n : Nat => (n : Int) ∉ taken with
  | some n =>
      have hfree := List.find?_some hfind
      exact ⟨Int.natCast_nonneg n, by simpa using hfree⟩
  | none =>
      exfalso
      have hall : ∀ n < taken.card + 1, (n : Int) ∈ taken := by
        intro n hn
        have := List.find?_eq_none.mp hfind n (List.mem_range.mpr hn)
        simpa using this
      have hsub : (Finset.range (taken.card + 1)).image (fun n : Nat => (n : Int)) ⊆ taken := by
        intro x hx
        obtain ⟨n, hn, rfl⟩ := Finset.mem_image.mp hx
        exact hall n (Finset.mem_range.mp hn)
      have hcard := Finset.card_le_card hsub
      rw [Finset.card_image_of_injective _ Nat.cast_injective, Finset.card_range] at hcard
      omega

theorem assignSlot_coloured (h : Coloured g isEligible locations) (hg : g.Simple f) {v : Nat}
    (hv : isEligible v = true) :
    Coloured g isEligible (assignSlot f g locations v) ∧ Assigned (assignSlot f g locations v) v ∧
      ∀ w, Assigned locations w → Assigned (assignSlot f g locations v) w := by
  unfold assignSlot
  split
  · next hreg => exact ⟨h, .inl hreg, fun w hw => hw⟩
  · dsimp only
    generalize hslot : (((neighbors f g.preferences v).filterMap (slotOf locations)).find?
      fun slot => slot ∉ occupiedSlots f g locations v).getD
        (firstFreeSlot (occupiedSlots f g locations v)) = slot
    have hspec : slot ≥ 0 ∧ slot ∉ occupiedSlots f g locations v := by
      rw [← hslot]
      cases hfind : ((neighbors f g.preferences v).filterMap (slotOf locations)).find?
          fun slot => slot ∉ occupiedSlots f g locations v with
      | none => exact firstFreeSlot_spec _
      | some chosen =>
          have hfree := List.find?_some hfind
          obtain ⟨w, -, hw⟩ := List.mem_filterMap.mp (List.mem_of_find?_eq_some hfind)
          exact ⟨slotOf_nonneg hw, by simpa using hfree⟩
    have hslots := slotOf_setSlot (h.located v hv) hspec.1
    refine ⟨h.setSlot hg hv hspec.1 fun w hw hsame => hspec.2 (mem_occupiedSlots hg hw hsame),
      .inr ?_, ?_⟩
    · rw [hslots, Function.update_self]
      rfl
    · intro w hw
      unfold Assigned at hw ⊢
      rw [hslots, registerOf_setSlot]
      by_cases hwv : w = v
      · subst hwv
        rw [Function.update_self]
        exact .inr rfl
      · rw [Function.update_of_ne hwv]
        exact hw

theorem foldl_assignRegister_coloured (h : Coloured g isEligible locations) (hg : g.Simple f)
    (registers : List Nat) {ordered : List Nat} (hordered : ∀ v ∈ ordered, isEligible v = true) :
    Coloured g isEligible (ordered.foldl (assignRegister f g registers) locations) := by
  induction ordered generalizing locations with
  | nil => exact h
  | cons v rest ih =>
      refine ih (assignRegister_coloured h hg (hordered v List.mem_cons_self)) ?_
      exact fun w hw => hordered w (List.mem_cons_of_mem _ hw)

theorem foldl_assignSlot_coloured (h : Coloured g isEligible locations) (hg : g.Simple f)
    {ordered : List Nat} (hordered : ∀ v ∈ ordered, isEligible v = true) :
    Coloured g isEligible (ordered.foldl (assignSlot f g) locations) ∧
      (∀ v, Assigned locations v → Assigned (ordered.foldl (assignSlot f g) locations) v) ∧
      ∀ v ∈ ordered, Assigned (ordered.foldl (assignSlot f g) locations) v := by
  induction ordered generalizing locations with
  | nil => exact ⟨h, fun _ hv => hv, by simp⟩
  | cons v rest ih =>
      obtain ⟨hstep, hhome, hkeep⟩ := assignSlot_coloured h hg (hordered v List.mem_cons_self)
      obtain ⟨hdone, hkeep', hall⟩ := ih hstep fun w hw => hordered w (List.mem_cons_of_mem _ hw)
      refine ⟨hdone, fun w hw => hkeep' w (hkeep w hw), ?_⟩
      intro w hw
      rcases List.mem_cons.mp hw with rfl | hw
      · exact hkeep' w hhome
      · exact hall w hw

/-! ## Kempe chains -/

def hasColour (locations : Locations) (p q v : Nat) : Prop :=
  registerOf locations v = some p ∨ registerOf locations v = some q

/-- A chain in progress: coloured members, and pending ones not yet looked at. -/
structure ChainOk (f : Function) (g : Graph) (locations : Locations) (p q : Nat) (chain : Chain) :
    Prop where
  coloured : ∀ v ∈ chain.component, hasColour locations p q v
  pending : ∀ v ∈ chain.pending, v ∈ chain.component
  closed : ∀ v ∈ chain.component, v ∈ chain.pending ∨
    ∀ w ∈ neighbors f g.interference v, hasColour locations p q w → w ∈ chain.component

theorem chainNeighbors_spec {p q : Nat} {chain chain' : Chain} {nodes : List Nat}
    (h : chainNeighbors locations p q chain nodes = some chain')
    (hcoloured : ∀ v ∈ chain.component, hasColour locations p q v)
    (hpending : ∀ v ∈ chain.pending, v ∈ chain.component) :
    (∀ v ∈ chain'.component, hasColour locations p q v) ∧
      (∀ v ∈ chain'.pending, v ∈ chain'.component) ∧
      chain.component ⊆ chain'.component ∧ (∀ v ∈ chain.pending, v ∈ chain'.pending) ∧
      (∀ v ∈ chain'.component, v ∈ chain.component ∨ v ∈ chain'.pending) ∧
      ∀ w ∈ nodes, hasColour locations p q w → w ∈ chain'.component := by
  induction nodes generalizing chain with
  | nil =>
      cases h
      exact ⟨hcoloured, hpending, Finset.Subset.refl _, fun _ hv => hv, fun _ hv => .inl hv, by simp⟩
  | cons next rest ih =>
      unfold chainNeighbors at h
      split at h
      · cases h
      · next c hc =>
          unfold chainNeighbor at hc
          split at hc
          · cases hc
          · split at hc
            · next hjoin =>
                cases hc
                obtain ⟨h1, h2, h3, h4, h5, h6⟩ := ih h
                  (by
                    intro v hv
                    rcases Finset.mem_insert.mp hv with rfl | hv
                    · exact hjoin.1
                    · exact hcoloured v hv)
                  (by
                    intro v hv
                    rcases List.mem_cons.mp hv with rfl | hv
                    · exact Finset.mem_insert_self _ _
                    · exact Finset.mem_insert_of_mem (hpending v hv))
                refine ⟨h1, h2, (Finset.subset_insert _ _).trans h3,
                  fun v hv => h4 v (List.mem_cons_of_mem _ hv), ?_, ?_⟩
                · intro v hv
                  rcases h5 v hv with hv | hv
                  · rcases Finset.mem_insert.mp hv with rfl | hv
                    · exact .inr (h4 v List.mem_cons_self)
                    · exact .inl hv
                  · exact .inr hv
                · intro w hw hcol
                  rcases List.mem_cons.mp hw with rfl | hw
                  · exact h3 (Finset.mem_insert_self _ _)
                  · exact h6 w hw hcol
            · next hskip =>
                cases hc
                obtain ⟨h1, h2, h3, h4, h5, h6⟩ := ih h hcoloured hpending
                refine ⟨h1, h2, h3, h4, h5, ?_⟩
                intro w hw hcol
                rcases List.mem_cons.mp hw with rfl | hw
                · by_contra hnot
                  exact hskip ⟨hcol, fun hin => hnot (h3 hin)⟩
                · exact h6 w hw hcol

theorem followChain_ok {p q : Nat} {chain chain' : Chain} (hok : ChainOk f g locations p q chain)
    (h : followChain f g locations p q chain = some chain') :
    ChainOk f g locations p q chain' ∧ chain'.pending = [] ∧
      chain.component ⊆ chain'.component := by
  induction chain using followChain.induct f g locations p q with
  | case1 chain hpending =>
      rw [followChain, hpending] at h
      cases h
      exact ⟨hok, hpending, Finset.Subset.refl _⟩
  | case2 chain value pending hpending hnone =>
      rw [followChain, hpending] at h
      simp only at h
      split at h
      · cases h
      · next c hc =>
          rw [hnone] at hc
          cases hc
  | case3 chain value pending hpending next hnext ih =>
      have h : followChain f g locations p q next = some chain' := by
        rw [followChain, hpending] at h
        simp only at h
        split at h
        · cases h
        · next c hc =>
            rw [hnext] at hc
            cases hc
            exact h
      have hmem : ∀ v ∈ pending, v ∈ chain.component := by
        intro v hv
        exact hok.pending v (by rw [hpending]; exact List.mem_cons_of_mem _ hv)
      obtain ⟨h1, h2, h3, h4, h5, h6⟩ := chainNeighbors_spec hnext hok.coloured hmem
      have hok' : ChainOk f g locations p q next := by
        refine ⟨h1, h2, ?_⟩
        intro v hv
        rcases h5 v hv with hv | hv
        · rcases hok.closed v hv with hpend | hall
          · rw [hpending] at hpend
            rcases List.mem_cons.mp hpend with rfl | hpend
            · exact .inr h6
            · exact .inl (h4 v hpend)
          · exact .inr fun w hw hcol => h3 (hall w hw hcol)
        · exact .inl hv
      obtain ⟨hdone, hempty, hsub⟩ := ih hok' h
      exact ⟨hdone, hempty, h3.trans hsub⟩

theorem registerOf_swapRegisters {component : Finset Nat} {p q : Nat}
    (hcoloured : ∀ v ∈ component, hasColour locations p q v) :
    registerOf (swapRegisters component p q locations) =
      interchange component p q (registerOf locations) := by
  funext v
  unfold interchange swapRegisters registerOf
  by_cases hv : v ∈ component
  · simp only [hv, if_true]
    cases hplace : locations v with
    | none => rfl
    | some place =>
        have hreg : place.hasRegister = true := by
          have := hcoloured v hv
          unfold hasColour registerOf at this
          rw [hplace] at this
          simp only [Option.bind_some] at this
          by_contra hnot
          simp [hnot] at this
        simp [hreg]
  · simp only [hv, if_false]

theorem slotOf_swapRegisters (component : Finset Nat) (p q : Nat) :
    slotOf (swapRegisters component p q locations) = slotOf locations := by
  funext v
  unfold swapRegisters slotOf
  by_cases hv : v ∈ component
  · simp only [hv, if_true]
    cases locations v <;> rfl
  · simp only [hv, if_false]

/-! ## Improvement rounds -/

/-- Still coloured, and every value that had a home has one. -/
structure Improved (g : Graph) (isEligible : Nat → Bool) (before after : Locations) : Prop where
  coloured : Coloured g isEligible after
  homes : ∀ v, Assigned before v → Assigned after v

theorem Improved.trans {a b c : Locations} (hab : Improved g isEligible a b)
    (hbc : Improved g isEligible b c) : Improved g isEligible a c :=
  ⟨hbc.coloured, fun v hv => hbc.homes v (hab.homes v hv)⟩

theorem improved_swap (h : Coloured g isEligible locations) (hg : g.Simple f) {chain : Chain}
    {p q : Nat} (hok : ChainOk f g locations p q chain) (hempty : chain.pending = []) :
    Improved g isEligible locations (swapRegisters chain.component p q locations) := by
  have hregisters := registerOf_swapRegisters hok.coloured
  have hslots : slotOf (swapRegisters chain.component p q locations) = slotOf locations :=
    slotOf_swapRegisters chain.component p q
  have hsome : ∀ v, (interchange chain.component p q (registerOf locations) v).isSome =
      (registerOf locations v).isSome := by
    intro v
    unfold interchange
    split
    · exact Option.isSome_map
    · rfl
  have hassigned : ∀ v, Assigned (swapRegisters chain.component p q locations) v ↔
      Assigned locations v := by
    intro v
    unfold Assigned
    rw [hregisters, hslots, hsome]
  refine ⟨⟨?_, ?_, ?_, ?_⟩, fun v hv => (hassigned v).mpr hv⟩
  · rw [hregisters]
    refine h.registers.interchange hg.symm hok.coloured ?_
    intro v hv w hw hcol
    rcases hok.closed v hv with hpend | hall
    · rw [hempty] at hpend
      cases hpend
    · exact hall w (List.mem_filter.mpr ⟨hg.located v w hw, by simpa using hw⟩) hcol
  · rw [hslots]
    exact h.slots
  · exact fun v hv => h.only v ((hassigned v).mp hv)
  · intro v hv
    unfold swapRegisters
    split
    · rw [Option.isSome_map]
      exact h.located v hv
    · exact h.located v hv

/-- What every stop and every step of the rounds leaves. -/
def RoundOk (g : Graph) (isEligible : Nat → Bool) (before : Locations) :
    Except Locations Improvement → Prop :=
  Ends (fun state => Improved g isEligible before state.locations)
    (Improved g isEligible before)

theorem tryInterchange_ok {before : Locations} {state : Improvement} {pair : Nat × Nat}
    (hg : g.Simple f) (h : Improved g isEligible before state.locations) :
    RoundOk g isEligible before (tryInterchange f g state pair) := by
  unfold tryInterchange
  split
  · next p q hp hq =>
      split
      · exact h
      · split
        · exact h
        · next chain hchain =>
            have hstart : ChainOk f g state.locations p q ⟨{pair.1}, [pair.1], state.work⟩ := by
              refine ⟨?_, ?_, ?_⟩
              · intro v hv
                rw [Finset.mem_singleton.mp hv]
                exact .inl hp
              · intro v hv
                exact Finset.mem_singleton.mpr (List.mem_singleton.mp hv)
              · intro v hv
                exact .inl (List.mem_singleton.mpr (Finset.mem_singleton.mp hv))
            obtain ⟨hok, hempty, -⟩ := followChain_ok hstart hchain
            split
            · exact h
            · split
              · exact h
              · split
                · exact h
                · exact h.trans (improved_swap h.coloured hg hok hempty)
  · exact h

theorem interchangeRound_ok {before : Locations} {state : Improvement} (hg : g.Simple f)
    (h : Improved g isEligible before state.locations) :
    RoundOk g isEligible before (interchangeRound f g state) := by
  unfold interchangeRound
  exact foldAll_ends (fun s pair _ hs => tryInterchange_ok hg hs) h

theorem interchangeRounds_ok {before : Locations} {state : Improvement} (hg : g.Simple f)
    (h : Improved g isEligible before state.locations) :
    RoundOk g isEligible before (interchangeRounds f g state) := by
  unfold interchangeRounds
  refine (interchangeRound_ok hg h).bind fun s hs => ?_
  split
  · exact interchangeRound_ok hg hs
  · exact hs

/-- A slot search: only the slot of `v` moves, among slots no neighbour has. -/
structure Searching (g : Graph) (isEligible : Nat → Bool) (before : Locations) (v : Nat)
    (now : Locations) : Prop where
  improved : Improved g isEligible before now
  others : ∀ w, w ≠ v → now w = before w

theorem trySlot_ok {before : Locations} {v : Nat} {search : SlotSearch} {slot : Int}
    (hg : g.Simple f) (hv : isEligible v = true) (hslot : slot ≥ 0)
    (hfree : ∀ w ∈ g.interference v, slotOf before w ≠ some slot)
    (h : Searching g isEligible before v search.state.locations) :
    Ends (fun s => Searching g isEligible before v s.state.locations)
      (Improved g isEligible before) (trySlot f g v search slot) := by
  unfold trySlot
  dsimp only
  split
  · exact h.improved
  · split
    · have hfree' : ∀ w ∈ g.interference v, slotOf search.state.locations w ≠ some slot := by
        intro w hw
        have hne : w ≠ v := by
          rintro rfl
          exact hg.irrefl w hw
        unfold slotOf
        rw [h.others w hne]
        exact hfree w hw
      have hcoloured := h.improved.coloured
      have hslots := slotOf_setSlot (hcoloured.located v hv) hslot
      refine ⟨⟨hcoloured.setSlot hg hv hslot hfree', ?_⟩, ?_⟩
      · intro w hw
        have hold := h.improved.homes w hw
        unfold Assigned at hold ⊢
        simp only
        rw [hslots, registerOf_setSlot]
        by_cases hwv : w = v
        · subst hwv
          rw [Function.update_self]
          exact .inr rfl
        · rw [Function.update_of_ne hwv]
          exact hold
      · intro w hw
        simp only [modify]
        rw [Function.update_of_ne hw]
        exact h.others w hw
    · exact h

theorem improveSlot_ok {before : Locations} {state : Improvement} {v : Nat} (hg : g.Simple f)
    (h : Improved g isEligible before state.locations) :
    RoundOk g isEligible before (improveSlot f g state v) := by
  unfold improveSlot
  split
  · next current hreg hcurrent =>
      dsimp only
      split
      · exact h
      · split
        · exact h
        · have hv : isEligible v = true := h.coloured.only v (.inr (by rw [hcurrent]; rfl))
          have hstart : Searching g isEligible state.locations v state.locations :=
            ⟨⟨h.coloured, fun _ hw => hw⟩, fun _ _ => rfl⟩
          have hsearch : Ends (fun s => Searching g isEligible state.locations v s.state.locations)
              (Improved g isEligible state.locations)
              (foldAll (trySlot f g v) ⟨{ state with work := state.work +
                ((neighbors f g.interference v).length + (neighbors f g.preferences v).length) +
                ((neighbors f g.preferences v).length + 1) },
                slotScore f g state.locations v current⟩
                (slotChoices f g state.locations v current)) := by
            refine foldAll_ends (fun s slot hslot hs => ?_) hstart
            have hmem : slot = current ∨ (slot ∈ (neighbors f g.preferences v).filterMap
                (slotOf state.locations) ∧ slot ∉ occupiedSlots f g state.locations v) := by
              unfold slotChoices at hslot
              rw [List.mem_insertionSort, List.mem_dedup, List.mem_cons] at hslot
              simpa using hslot
            rcases hmem with rfl | ⟨hmem, hfree⟩
            · exact trySlot_ok hg hv (slotOf_nonneg hcurrent)
                (fun w hw => h.coloured.slots v w hw _ hcurrent) hs
            · obtain ⟨w, -, hw⟩ := List.mem_filterMap.mp hmem
              exact trySlot_ok hg hv (slotOf_nonneg hw)
                (fun w hw hsame => hfree (mem_occupiedSlots hg hw hsame)) hs
          unfold RoundOk
          revert hsearch
          generalize foldAll (trySlot f g v) _ (slotChoices f g state.locations v current) = r
          intro hsearch
          cases r with
          | error stopped => exact h.trans hsearch
          | ok s => exact h.trans hsearch.improved
  · exact h

theorem improvePhiLocations_improved (hg : g.Simple f) (h : Coloured g isEligible locations) :
    Improved g isEligible locations (improvePhiLocations f g locations) := by
  have hstart : Improved g isEligible locations locations := ⟨h, fun _ hv => hv⟩
  have hdone : RoundOk g isEligible locations
      (interchangeRounds f g ⟨locations, 0, false⟩ >>= improveSlots f g) := by
    refine (interchangeRounds_ok hg hstart).bind fun s hs => ?_
    exact foldAll_ends (fun s v _ hs => improveSlot_ok hg hs) hs
  unfold improvePhiLocations
  dsimp only
  revert hdone
  generalize (interchangeRounds f g ⟨locations, 0, false⟩ >>= improveSlots f g) = r
  intro hdone
  cases r with
  | error stopped => exact hdone
  | ok state => exact hdone

end Rules

end Disco.Backend.LinearScan
