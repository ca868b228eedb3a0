import Disco.IR.Equations

/-! # Leaving out and replacing instructions

A function is thinned block by block: some instructions are left out, each of
the others is replaced by one instruction, and values get new ids. When every
instruction that is kept is answered by one that does the same, and every
instruction that is left out computes a value the rest already has (or needs no
more), the thinned function has the behaviour of the original.
-/

namespace Disco.IR

open Library Verifier

/-- The sites of a block. -/
def Function.codeSites (f : Function) (b : Nat) : List Site :=
  (f.code b).zipIdx.map fun entry => ⟨b, entry.2, entry.1⟩

/-- What stands for a site, if anything does, and where the value of an id is
found afterwards. -/
structure Thinning where
  emit : Site → Option Instruction
  rename : Nat → Nat

/-- What stands for the code behind a position. -/
def Thinning.behind (T : Thinning) (f : Function) (b k : Nat) : List Instruction :=
  ((f.codeSites b).drop k).filterMap T.emit

structure Thins (T : Thinning) (f g : Function) : Prop where
  entry : g.entry = f.entry
  code : ∀ b, g.code b = T.behind f b 0
  phi : ∀ d ∈ f.sites, ∀ i, T.emit d = some i → (i.opcode = .phi ↔ d.instruction.opcode = .phi)

section Code

variable {T : Thinning} {f g : Function} {b k : Nat}

theorem length_codeSites : (f.codeSites b).length = (f.code b).length := by
  unfold Function.codeSites
  rw [List.length_map, List.length_zipIdx]

theorem getElem?_codeSites : (f.codeSites b)[k]? = ((f.code b)[k]?).map fun i => ⟨b, k, i⟩ := by
  unfold Function.codeSites
  rw [List.getElem?_map, List.getElem?_zipIdx, Nat.zero_add, Option.map_map]
  rfl

theorem mem_codeSites {d : Site} : d ∈ f.codeSites b ↔ d ∈ f.sites ∧ d.block = b := by
  rw [List.mem_iff_getElem?, mem_sites]
  constructor
  · rintro ⟨n, hn⟩
    rw [getElem?_codeSites, Option.map_eq_some_iff] at hn
    obtain ⟨i, hi, rfl⟩ := hn
    exact ⟨hi, rfl⟩
  · rintro ⟨hget, rfl⟩
    refine ⟨d.position, ?_⟩
    rw [getElem?_codeSites, hget]
    rfl

theorem drop_codeSites {i : Instruction} (hi : (f.code b)[k]? = some i) :
    (f.codeSites b).drop k = ⟨b, k, i⟩ :: (f.codeSites b).drop (k + 1) := by
  have hget : (f.codeSites b)[k]? = some ⟨b, k, i⟩ := by
    rw [getElem?_codeSites, hi]
    rfl
  obtain ⟨hlt, hsite⟩ := List.getElem?_eq_some_iff.mp hget
  rw [← hsite, List.getElem_cons_drop]

theorem behind_some {i i' : Instruction} (hi : (f.code b)[k]? = some i)
    (hemit : T.emit ⟨b, k, i⟩ = some i') : T.behind f b k = i' :: T.behind f b (k + 1) := by
  unfold Thinning.behind
  rw [drop_codeSites hi, List.filterMap_cons_some hemit]

theorem behind_none {i : Instruction} (hi : (f.code b)[k]? = some i)
    (hemit : T.emit ⟨b, k, i⟩ = none) : T.behind f b k = T.behind f b (k + 1) := by
  unfold Thinning.behind
  rw [drop_codeSites hi, List.filterMap_cons_none hemit]

theorem phis_append {first second : List Instruction} (hfirst : ∀ i ∈ first, i.opcode = .phi)
    (hsecond : ∀ i ∈ second, i.opcode ≠ .phi) :
    phis (first ++ second) = first ∧ body (first ++ second) = second := by
  unfold phis body
  have hall : ∀ i ∈ first, (i.opcode == Opcode.phi) = true := fun i hi => by simpa using hfirst i hi
  have hnone : second.takeWhile (fun i => i.opcode == Opcode.phi) = [] ∧
      second.dropWhile (fun i => i.opcode == Opcode.phi) = second := by
    cases second with
    | nil => exact ⟨rfl, rfl⟩
    | cons i rest =>
        have hi : (i.opcode == Opcode.phi) = false := by simpa using hsecond i List.mem_cons_self
        rw [List.takeWhile_cons, List.dropWhile_cons, hi]
        exact ⟨rfl, rfl⟩
  rw [List.takeWhile_append_of_pos hall, List.dropWhile_append_of_pos hall, hnone.1, hnone.2,
    List.append_nil]
  exact ⟨rfl, rfl⟩

/-- PHIs stand for PHIs, the rest for the rest. -/
theorem Thins.split (h : Thins T f g) (hv : Verified f) (b : Nat) :
    phis (g.code b) = ((f.codeSites b).take (phis (f.code b)).length).filterMap T.emit ∧
      body (g.code b) = T.behind f b (phis (f.code b)).length := by
  have hsplit : g.code b =
      ((f.codeSites b).take (phis (f.code b)).length).filterMap T.emit ++
        T.behind f b (phis (f.code b)).length := by
    rw [h.code]
    unfold Thinning.behind
    rw [← List.filterMap_append, List.take_append_drop, List.drop_zero]
  rw [hsplit]
  apply phis_append
  · intro i hi
    obtain ⟨d, hd, hemit⟩ := List.mem_filterMap.mp hi
    obtain ⟨hmem, -⟩ := mem_codeSites.mp (List.mem_of_mem_take hd)
    rw [h.phi d hmem i hemit]
    obtain ⟨n, hn⟩ := List.mem_iff_getElem?.mp hd
    have hlt : n < (phis (f.code b)).length := by
      by_contra hge
      rw [List.getElem?_take_eq_none (by omega)] at hn
      cases hn
    rw [List.getElem?_take_of_lt hlt, getElem?_codeSites, Option.map_eq_some_iff] at hn
    obtain ⟨j, hj, rfl⟩ := hn
    rw [← phis_append_body (f.code b), List.getElem?_append_left hlt] at hj
    simpa using List.mem_takeWhile_imp (List.mem_of_getElem? hj)
  · intro i hi
    obtain ⟨d, hd, hemit⟩ := List.mem_filterMap.mp hi
    obtain ⟨hmem, -⟩ := mem_codeSites.mp (List.mem_of_mem_drop hd)
    rw [ne_eq, h.phi d hmem i hemit]
    obtain ⟨n, hn⟩ := List.mem_iff_getElem?.mp hd
    rw [List.getElem?_drop, getElem?_codeSites, Option.map_eq_some_iff] at hn
    obtain ⟨j, hj, rfl⟩ := hn
    rw [getElem?_body] at hj
    exact hv.not_phi_of_mem_body (List.mem_of_getElem? hj)

/-- A PHI that is kept is among the PHIs of its block. -/
theorem Thins.mem_phis (h : Thins T f g) (hv : Verified f) {phi : Site} (hphi : phi ∈ f.sites)
    (hop : phi.instruction.opcode = .phi) {i : Instruction} (hemit : T.emit phi = some i) :
    i ∈ phis (g.code phi.block) := by
  rw [(h.split hv phi.block).1, List.mem_filterMap]
  refine ⟨phi, ?_, hemit⟩
  have hget := mem_sites.mp hphi
  have hlt : phi.position < (phis (f.code phi.block)).length := by
    by_contra hge
    rw [← phis_append_body (f.code phi.block), List.getElem?_append_right (by omega)] at hget
    exact hv.not_phi_of_mem_body (List.mem_of_getElem? hget) hop
  rw [List.mem_iff_getElem?]
  refine ⟨phi.position, ?_⟩
  rw [List.getElem?_take_of_lt hlt, getElem?_codeSites, hget]
  rfl

theorem Thins.of_mem_phis (h : Thins T f g) (hv : Verified f) {i : Instruction}
    (hi : i ∈ phis (g.code b)) : ∃ phi ∈ f.sites, phi.block = b ∧ phi.instruction.opcode = .phi ∧
      T.emit phi = some i := by
  have hop : i.opcode = .phi := by simpa using List.mem_takeWhile_imp hi
  rw [(h.split hv b).1, List.mem_filterMap] at hi
  obtain ⟨d, hd, hemit⟩ := hi
  obtain ⟨hmem, hblock⟩ := mem_codeSites.mp (List.mem_of_mem_take hd)
  exact ⟨d, hmem, hblock, (h.phi d hmem i hemit).mp hop, hemit⟩

end Code

/-! ## Control -/

section Control

variable {W : Type} {perform : Perform W} {T : Thinning} {f g : Function} {s t : State W}
  {i i' : Instruction} {b k : Nat}

/-- Frames with the same count that resume at the same place. -/
structure FollowsFrame (T : Thinning) (f : Function) (a b : LoopFrame) : Prop where
  count : b.count = a.count
  resume : (a.resume = none ∧ b.resume = none) ∨ ∃ c k,
    a.resume = some (c, (f.code c).drop k) ∧ b.resume = some (c, T.behind f c k)

/-- States in one block with the same loops and the same machine around them. -/
structure Beside (T : Thinning) (f : Function) (s t : State W) : Prop where
  block : t.block = s.block
  world : t.world = s.world
  trace : t.trace = s.trace
  loops : List.Forall₂ (FollowsFrame T f) s.loops t.loops

/-- And at one place. -/
structure Follows (T : Thinning) (f : Function) (s t : State W) : Prop extends Beside T f s t where
  code : ∃ k, s.code = (f.code s.block).drop k ∧ t.code = T.behind f s.block k

/-- Instructions that take control the same way. -/
structure Steers (i i' : Instruction) (arguments arguments' : List Int) : Prop where
  opcode : i'.opcode = i.opcode
  targets : i'.targets = i.targets
  caseValues : i'.caseValues = i.caseValues
  arguments : arguments' = arguments

theorem alike_jump (h : Thins T f g) (hv : Verified f) (hbeside : Beside T f s t)
    (htargets : i'.targets = i.targets) (selected : Nat) :
    Alike (Follows T f) (jump f i selected s) (jump g i' selected t) := by
  unfold jump
  rw [htargets]
  cases i.targets[selected]? with
  | none => exact rfl
  | some target =>
      refine ⟨⟨rfl, hbeside.world, hbeside.trace, hbeside.loops⟩,
        (phis (f.code target)).length, ?_, ?_⟩
      · exact (drop_phis _).symm
      · exact (h.split hv target).2

theorem alike_leave {arguments arguments' : List Int} (h : Steers i i' arguments arguments') :
    i'.leave arguments' = i.leave arguments := by
  unfold Instruction.leave Instruction.selectedCase
  rw [h.opcode, h.targets, h.caseValues, h.arguments]

theorem alike_enterLoop (h : Thins T f g) (hv : Verified f) (hbeside : Beside T f s t)
    (htargets : i'.targets = i.targets) (count : Int) :
    Alike (Follows T f) (enterLoop f i ((f.code s.block).drop k) count s)
      (enterLoop g i' (T.behind f s.block k) count t) := by
  have hframe : ∀ resume resume', (resume = none ∧ resume' = none) ∨ (∃ c k,
      resume = some (c, (f.code c).drop k) ∧ resume' = some (c, T.behind f c k)) →
      Beside T f { s with loops := ⟨(count % 0x10000).toNat, resume⟩ :: s.loops }
        { t with loops := ⟨(count % 0x10000).toNat, resume'⟩ :: t.loops } :=
    fun resume resume' hresume =>
      ⟨hbeside.block, hbeside.world, hbeside.trace, .cons ⟨rfl, hresume⟩ hbeside.loops⟩
  unfold enterLoop
  dsimp only
  rw [htargets]
  split
  · refine ⟨⟨hbeside.block, hbeside.world, hbeside.trace, .cons ⟨rfl, ?_⟩ hbeside.loops⟩, k, rfl, rfl⟩
    exact .inr ⟨s.block, k, rfl, by rw [hbeside.block]⟩
  · exact alike_jump h hv (hframe none none (.inl ⟨rfl, rfl⟩)) htargets 0

theorem alike_repeatLoop (h : Thins T f g) (hv : Verified f) (hbeside : Beside T f s t)
    (htargets : i'.targets = i.targets) :
    Alike (Follows T f) (repeatLoop f i ((f.code s.block).drop k) s)
      (repeatLoop g i' (T.behind f s.block k) t) := by
  have hloops := hbeside.loops
  unfold repeatLoop
  cases hs : s.loops with
  | nil =>
      rw [hs] at hloops
      rw [List.forall₂_nil_left_iff.mp hloops]
      exact rfl
  | cons frame outer =>
      rw [hs] at hloops
      obtain ⟨frame', outer', hframe, houter, ht⟩ := List.forall₂_cons_left_iff.mp hloops
      rw [ht]
      dsimp only
      rw [htargets, hframe.count]
      generalize countDown frame.count = count
      have hcounted : Beside T f { s with loops := { frame with count := count } :: outer }
          { t with loops := { frame' with count := count } :: outer' } :=
        ⟨hbeside.block, hbeside.world, hbeside.trace, .cons ⟨rfl, hframe.resume⟩ houter⟩
      split
      · split
        · exact ⟨⟨hbeside.block, hbeside.world, hbeside.trace, houter⟩, k, rfl, rfl⟩
        · rcases hframe.resume with ⟨hnone, hnone'⟩ | ⟨c, l, hsome, hsome'⟩
          · rw [hnone, hnone']
            exact rfl
          · rw [hsome, hsome']
            refine ⟨⟨rfl, hbeside.world, hbeside.trace, .cons ⟨rfl, ?_⟩ houter⟩, l, rfl, rfl⟩
            exact .inr ⟨c, l, rfl, rfl⟩
      · exact alike_jump h hv hcounted htargets _

/-- Where control goes after an instruction and after what stands for it. -/
theorem alike_proceed (h : Thins T f g) (hv : Verified f) (hbeside : Beside T f s t)
    (hloops : isLoopOpcode i'.opcode = isLoopOpcode i.opcode) {count count' : Int}
    (hsteers : isLoopOpcode i.opcode = true →
      i'.opcode = i.opcode ∧ i'.targets = i.targets ∧ count' = count) :
    Alike (Follows T f) (proceed f i ((f.code s.block).drop k) count s)
      (proceed g i' (T.behind f s.block k) count' t) := by
  have hline : ∀ loops loops', List.Forall₂ (FollowsFrame T f) loops loops' →
      Follows T f { s with code := (f.code s.block).drop k, loops := loops }
        { t with code := T.behind f s.block k, loops := loops' } :=
    fun loops loops' hframes =>
      ⟨⟨hbeside.block, hbeside.world, hbeside.trace, hframes⟩, k, rfl, rfl⟩
  by_cases hloop : isLoopOpcode i.opcode = true
  · rcases hsteers hloop with ⟨hop, htargets, rfl⟩
    unfold isLoopOpcode at hloop
    unfold proceed
    rw [hop]
    rcases of_decide_eq_true hloop with hkind | hkind | hkind
    · rw [hkind]
      exact alike_enterLoop h hv hbeside htargets _
    · rw [hkind]
      exact alike_repeatLoop h hv hbeside htargets
    · rw [hkind]
      refine hline _ _ ?_
      have hframes := hbeside.loops
      generalize s.loops = loops at hframes ⊢
      generalize t.loops = loops' at hframes ⊢
      cases hframes with
      | nil => exact .nil
      | cons _ houter => exact houter
  · have hplain : ∀ j : Instruction, isLoopOpcode j.opcode ≠ true → ∀ (e : Function) (rest : List Instruction)
        (n : Int) (u : State W), proceed e j rest n u = .ok { u with code := rest } := by
      intro j hj e rest n u
      unfold proceed
      split
      · rename_i hop
        rw [hop] at hj
        exact absurd rfl hj
      · rename_i hop
        rw [hop] at hj
        exact absurd rfl hj
      · rename_i hop
        rw [hop] at hj
        exact absurd rfl hj
      · rfl
    rw [hplain i hloop, hplain i' (by rw [hloops]; exact hloop)]
    exact hline _ _ hbeside.loops

end Control

/-! ## Values -/

/-- The values of the two functions. -/
abbrev Values := (Nat → Slot) × (Nat → Slot)

/-- What is asserted of a definition, and how its value is related to what
stands for it. -/
def Related (T : Thinning) (A : Site → (Nat → Slot) → Prop) (R : Site → (Nat → Slot) → Slot → Prop)
    (d : Site) (e : Values) : Prop :=
  A d e.1 ∧ R d e.1 (e.2 (T.rename d.instruction.result))

section Faithful

variable {W : Type}

/-- What an instruction and its answer produce. -/
structure Produces (T : Thinning) (R : Site → (Nat → Slot) → Slot → Prop) (here : Site)
    (i' : Instruction) (env : Nat → Slot) (p p' : Produced W) : Prop where
  world : p'.world = p.world
  events : p'.events = p.events
  value : here.instruction.result ≠ 0 →
    R here (Function.update env here.instruction.result p.slot) p'.slot

/-- An instruction that does what the one it stands for does. -/
structure Answers (perform : Perform W) (T : Thinning) (R : Site → (Nat → Slot) → Slot → Prop)
    (here : Site) (i' : Instruction) (e : Values) : Prop where
  terminator : isTerminatorOpcode i'.opcode = isTerminatorOpcode here.instruction.opcode
  loops : isLoopOpcode i'.opcode = isLoopOpcode here.instruction.opcode
  silent : here.instruction.result = 0 → i'.result = 0
  result : here.instruction.result ≠ 0 →
    i'.result ≠ 0 ∧ i'.result = T.rename here.instruction.result
  steers : isTerminatorOpcode here.instruction.opcode = true ∨
    isLoopOpcode here.instruction.opcode = true →
    Steers here.instruction i' (here.instruction.operandWords e.1) (i'.operandWords e.2)
  produces : isTerminatorOpcode here.instruction.opcode = false → ∀ world,
    Alike (Produces T R here i' e.1)
      (produce perform here.instruction.effect (here.instruction.operandWords e.1)
        (here.instruction.operandOther e.1) world)
      (produce perform i'.effect (i'.operandWords e.2) (i'.operandOther e.2) world)

/-- What makes a thinning keep the behaviour of a function, given what holds of
the values of the function anyway. -/
structure Faithful (perform : Perform W) (T : Thinning) (f g : Function)
    (A : Site → (Nat → Slot) → Prop) (R : Site → (Nat → Slot) → Slot → Prop) : Prop where
  thins : Thins T f g
  asserts : Preserved f A (Computes perform) (Chooses f)
  localized : ∀ slot, Local f fun d env => R d env slot
  apart : ∀ here ∈ f.sites, ∀ d ∈ f.sites, here.instruction.result ≠ 0 → d.instruction.result ≠ 0 →
    Reached (flow f) f.entry here.block → Reached (flow f) f.entry d.block →
    T.emit here ≠ none → ¬ Settles f here d →
    T.rename d.instruction.result ≠ T.rename here.instruction.result
  distinct : ∀ c ∈ f.sites, ∀ d ∈ f.sites, c.instruction.result ≠ 0 → d.instruction.result ≠ 0 →
    T.emit c ≠ none → T.emit d ≠ none →
    T.rename c.instruction.result = T.rename d.instruction.result → c = d
  keeps : ∀ here ∈ f.sites, here.instruction.opcode ≠ .phi → Reached (flow f) f.entry here.block →
    ∀ i', T.emit here = some i' → ∀ e, Asserted f (Related T A R) e here.block here.position →
    Answers perform T R here i' e
  drops : ∀ here ∈ f.sites, here.instruction.opcode ≠ .phi → Reached (flow f) f.entry here.block →
    T.emit here = none → isTerminatorOpcode here.instruction.opcode = false ∧
      isLoopOpcode here.instruction.opcode = false ∧ here.instruction.result ≠ 0 ∧
      ∀ e, Asserted f (Related T A R) e here.block here.position → ∀ world, ∃ slot,
        produce perform here.instruction.effect (here.instruction.operandWords e.1)
          (here.instruction.operandOther e.1) world = .ok ⟨slot, world, []⟩ ∧
        R here (Function.update e.1 here.instruction.result slot)
          (e.2 (T.rename here.instruction.result))
  results : ∀ phi ∈ f.sites, phi.instruction.opcode = .phi → ∀ i', T.emit phi = some i' →
    i'.result = T.rename phi.instruction.result
  selects : ∀ (a : Nat), ∀ phi ∈ f.sites, phi.instruction.opcode = .phi →
    Reached (flow f) f.entry a → flow f a phi.block → ∀ i', T.emit phi = some i' →
    ∀ e, Asserted f (Related T A R) e a (f.code a).length →
      R phi (selectPhis (phis (f.code phi.block)) a e.1) { word := (e.2 (i'.incoming a)).word }
  forgets : ∀ phi ∈ f.sites, phi.instruction.opcode = .phi → T.emit phi = none →
    ∀ env slot, R phi env slot

variable {perform : Perform W} {T : Thinning} {f g : Function} {A : Site → (Nat → Slot) → Prop}
  {R : Site → (Nat → Slot) → Slot → Prop}

/-- What an instruction does to the values of both functions. -/
structure Writes (perform : Perform W) (T : Thinning) (f : Function)
    (R : Site → (Nat → Slot) → Slot → Prop) (here : Site) (e e' : Values) : Prop where
  reached : Reached (flow f) f.entry here.block
  computes : Computes perform here e.1 e'.1
  other : ∀ w, (T.emit here = none ∨ here.instruction.result = 0 ∨
    w ≠ T.rename here.instruction.result) → e'.2 w = e.2 w
  value : here.instruction.result ≠ 0 → R here e'.1 (e'.2 (T.rename here.instruction.result))

/-- What an edge does to them. -/
structure Selects (f g : Function) (a target : Nat) (e e' : Values) : Prop where
  reached : Reached (flow f) f.entry target
  left : Chooses f a target e.1 e'.1
  right : Chooses g a target e.2 e'.2

theorem phi_result_ne_zero (hv : Verified f) {phi : Site} (hphi : phi ∈ f.sites)
    (hop : phi.instruction.opcode = .phi) : phi.instruction.result ≠ 0 := by
  obtain ⟨_, -, hscanned⟩ := hv.scanned hphi
  apply hscanned.produces.mp
  unfold Instruction.producesValue
  rw [hop]
  rfl

/-- The relation between the values is kept. -/
theorem Faithful.preserved (h : Faithful perform T f g A R) (hv : Verified f) :
    Preserved f (Related T A R) (Writes perform T f R) (Selects f g) where
  frame := by
    intro here d e e' hhere hd hresult hr hsettles hwrites hrelated
    have hother : ∀ v, v ≠ here.instruction.result → e'.1 v = e.1 v :=
      fun v hne => computes_other hwrites.computes hne
    refine ⟨h.asserts.frame hhere hd hresult hr hsettles hwrites.computes hrelated.1, ?_⟩
    have hslot : e'.2 (T.rename d.instruction.result) = e.2 (T.rename d.instruction.result) := by
      apply hwrites.other
      by_cases hemit : T.emit here = none
      · exact .inl hemit
      by_cases hzero : here.instruction.result = 0
      · exact .inr (.inl hzero)
      · exact .inr (.inr (h.apart here hhere d hd hzero hresult hwrites.reached hr hemit hsettles))
    rw [hslot]
    exact (h.localized _).frame hv hhere hd hresult hr hsettles hother hrelated.2
  define := by
    intro here e e' hhere hphi hresult hr hasserted hwrites
    exact ⟨h.asserts.define hhere hphi hresult hr
      (fun d hd hne havailable => (hasserted d hd hne havailable).1) hwrites.computes,
      hwrites.value hresult⟩
  frameEdge := by
    intro a target d e e' hd hresult hr hsettles hselects hrelated
    have hleft : e'.1 = selectPhis (phis (f.code target)) a e.1 := hselects.left
    refine ⟨?_, ?_⟩
    · exact h.asserts.frameEdge hd hresult hr hsettles hselects.left hrelated.1
    · have hslot : e'.2 (T.rename d.instruction.result) = e.2 (T.rename d.instruction.result) := by
        rw [show e'.2 = selectPhis (phis (g.code target)) a e.2 from hselects.right]
        apply selectPhis_other
        intro i hi
        obtain ⟨phi, hphi, hblock, hop, hemit⟩ := h.thins.of_mem_phis hv hi
        rw [h.results phi hphi hop i hemit]
        refine Ne.symm (h.apart phi hphi d hd (phi_result_ne_zero hv hphi hop) hresult ?_ hr ?_
          (hsettles phi hphi hblock hop))
        · rw [hblock]
          exact hselects.reached
        · rw [hemit]
          exact Option.some_ne_none i
      rw [hslot, hleft]
      exact (h.localized _).frameEdge hv hd hresult hr hsettles hrelated.2
  select := by
    intro a phi e e' hphi hop hr hedge hasserted hselects
    refine ⟨h.asserts.select hphi hop hr hedge
      (fun d hd hne havailable => (hasserted d hd hne havailable).1) hselects.left, ?_⟩
    cases hemit : T.emit phi with
    | none => exact h.forgets phi hphi hop hemit _ _
    | some i' =>
        have hvalue := h.selects a phi hphi hop hr hedge i' hemit e hasserted
        rw [show e'.1 = selectPhis (phis (f.code phi.block)) a e.1 from hselects.left,
          show e'.2 = selectPhis (phis (g.code phi.block)) a e.2 from hselects.right]
        have hfound : selectPhis (phis (g.code phi.block)) a e.2
            (T.rename phi.instruction.result) = { word := (e.2 (i'.incoming a)).word } := by
          have hmem := h.thins.mem_phis hv hphi hop hemit
          have hresult := h.results phi hphi hop i' hemit
          unfold selectPhis
          cases hfind : (phis (g.code phi.block)).find?
              fun i => i.result == T.rename phi.instruction.result with
          | none =>
              have hnone := List.find?_eq_none.mp hfind i' hmem
              rw [hresult] at hnone
              exact absurd (beq_self_eq_true _) hnone
          | some i =>
              have heq : i.result = T.rename phi.instruction.result := by
                simpa using List.find?_some hfind
              obtain ⟨other, hother, -, hop', hemit'⟩ :=
                h.thins.of_mem_phis hv (List.mem_of_find?_eq_some hfind)
              rw [h.results other hother hop' i hemit'] at heq
              have hsame := h.distinct other hother phi hphi (phi_result_ne_zero hv hother hop')
                (phi_result_ne_zero hv hphi hop) (by rw [hemit']; exact Option.some_ne_none i)
                (by rw [hemit]; exact Option.some_ne_none i') heq
              rw [hsame, hemit] at hemit'
              rw [← Option.some.inj hemit']
        rw [hfound]
        exact hvalue

/-! ## Simulation -/

/-- A state of the thinned function stands for a state of the original. -/
structure Matches (perform : Perform W) (T : Thinning) (f : Function)
    (A : Site → (Nat → Slot) → Prop) (R : Site → (Nat → Slot) → Slot → Prop) (world : W) (s t : State W) : Prop where
  follows : Follows T f s t
  holding : ∃ history, Execution perform f world s history ∧
    Holding f (Related T A R) s history (s.env, t.env)

variable {scopes : Nat → List Nat} {world : W} {s t : State W} {i i' : Instruction}
  {rest : List Instruction} {k : Nat}

theorem Follows.behind (h : Follows T f s t) (hat : At f s.block k s.code) :
    t.code = T.behind f s.block k := by
  obtain ⟨l, hs, ht⟩ := h.code
  have hlength := congrArg List.length (hat.code.symm.trans hs)
  rw [List.length_drop, List.length_drop] at hlength
  have hinside := hat.inside
  have hl : l = k := by omega
  rw [ht, hl]

theorem Answers.isTerminator {e : Values} {here : Site} (h : Answers perform T R here i' e) :
    i'.isTerminator = here.instruction.isTerminator := by
  unfold Instruction.isTerminator
  rw [h.terminator]
  by_cases hloop : isLoopOpcode here.instruction.opcode = true
  · rw [(h.steers (.inr hloop)).opcode, (h.steers (.inr hloop)).targets]
  · have hnone : ∀ j : Instruction, isLoopOpcode j.opcode ≠ true →
        decide (j.opcode = .hardwareLoop ∨ j.opcode = .hardwareLoopEnd) = false := by
      intro j hj
      apply decide_eq_false
      rintro (hop | hop) <;> (rw [hop] at hj; exact hj rfl)
    rw [hnone _ hloop, hnone i' (by rw [h.loops]; exact hloop), Bool.false_and, Bool.false_and]

/-- Executing an instruction and its answer. -/
theorem alike_execute {here : Site} (h : Answers perform T R here i' (s.env, t.env))
    (hplain : isTerminatorOpcode here.instruction.opcode = false) (hbeside : Beside T f s t) :
    Alike (fun u v => Beside T f u v ∧ u.block = s.block ∧ (here.instruction.result ≠ 0 →
        R here u.env (v.env (T.rename here.instruction.result))))
      (execute perform here.instruction s) (execute perform i' t) := by
  unfold execute
  have hproduces := h.produces hplain s.world
  rw [← hbeside.world] at hproduces
  rw [← hbeside.world]
  refine hproduces.bind fun p p' hp => ?_
  have htrace : (t.record i'.result p').trace = (s.record here.instruction.result p).trace := by
    show t.trace ++ p'.events = s.trace ++ p.events
    rw [hbeside.trace, hp.events]
  refine ⟨⟨hbeside.block, hp.world, htrace, hbeside.loops⟩, rfl, ?_⟩
  intro hresult
  rcases h.result hresult with ⟨hne, hrename⟩
  have hslot : (t.record i'.result p').env (T.rename here.instruction.result) = p'.slot := by
    rw [← hrename]
    exact record_result t p' hne
  have henv : (s.record here.instruction.result p).env =
      Function.update s.env here.instruction.result p.slot := if_neg hresult
  rw [hslot, henv]
  exact hp.value hresult

/-- An instruction that is kept is answered by one step. -/
theorem Faithful.alike_step (h : Faithful perform T f g A R) (hv : Verified f)
    (hm : Follows T f s t) (hat : At f s.block k s.code) (hcode : s.code = i :: rest)
    (hemit : T.emit ⟨s.block, k, i⟩ = some i')
    (hanswers : Answers perform T R ⟨s.block, k, i⟩ i' (s.env, t.env)) :
    Alike (Follows T f) (step perform f s) (step perform g t) := by
  rcases hat.instruction hcode with ⟨hi, hrest⟩
  have htcode : t.code = i' :: T.behind f s.block (k + 1) :=
    (hm.behind hat).trans (behind_some hi hemit)
  unfold step
  rw [hcode, htcode]
  dsimp only
  rw [hanswers.terminator]
  dsimp only
  by_cases hterm : isTerminatorOpcode i.opcode = true
  · have hsteers := hanswers.steers (.inl hterm)
    rw [if_pos hterm, if_pos hterm,
      show i'.leave (t.arguments i') = i.leave (s.arguments i) from alike_leave hsteers]
    cases i.leave (s.arguments i) with
    | error halt => exact rfl
    | ok selected => exact alike_jump h.thins hv hm.toBeside hsteers.targets selected
  · rw [if_neg hterm, if_neg hterm]
    refine (alike_execute hanswers (by simpa using hterm) hm.toBeside).bind fun u v huv => ?_
    rcases huv with ⟨hbeside, hblock, -⟩
    rw [hrest, ← hblock]
    refine alike_proceed h.thins hv hbeside hanswers.loops fun hloop => ?_
    have hsteers := hanswers.steers (.inr hloop)
    refine ⟨hsteers.opcode, hsteers.targets, ?_⟩
    rw [show t.arguments i' = s.arguments i from hsteers.arguments]

theorem Faithful.kept (h : Faithful perform T f g A R) (hv : Verified f) (hl : LoopsMatched f)
    (hs : Scoped f scopes) (hm : Matches perform T f A R world s t) (hat : At f s.block k s.code)
    (hcode : s.code = i :: rest) (hemit : T.emit ⟨s.block, k, i⟩ = some i') :
    Alike (Matches perform T f A R world) (step perform f s) (step perform g t) := by
  obtain ⟨history, hexecution, hholding⟩ := hm.holding
  rcases hat.instruction hcode with ⟨hi, -⟩
  have hsite : (⟨s.block, k, i⟩ : Site) ∈ f.sites := mem_sites.mpr hi
  have hphi := hv.not_phi_of_mem_body (hat.mem_body hcode)
  have hanswers := h.keeps _ hsite hphi hat.reached i' hemit _ (hholding.here k hat)
  have htcode : t.code = i' :: T.behind f s.block (k + 1) :=
    (hm.follows.behind hat).trans (behind_some hi hemit)
  have halike := h.alike_step hv hm.follows hat hcode hemit hanswers
  cases hstep : step perform f s with
  | error halt =>
      rw [hstep] at halike
      cases hstep' : step perform g t with
      | error halt' =>
          rw [hstep'] at halike
          exact halike
      | ok t' =>
          rw [hstep'] at halike
          exact halike.elim
  | ok s' =>
      rw [hstep] at halike
      cases hstep' : step perform g t with
      | error halt' =>
          rw [hstep'] at halike
          exact halike.elim
      | ok t' =>
          rw [hstep'] at halike
          have hfollows : Follows T f s' t' := halike
          have hinvariant := hexecution.invariant hv hl hs
          have hmove := step_moves hcode hstep
          have hnext := hinvariant.move hv hl hs hcode hmove
          obtain ⟨_, hat', -, -⟩ := hnext.position
          refine ⟨hfollows, _, .next hexecution hcode hstep,
            hholding.step (h.preserved hv) hv hl hs hinvariant hnext hcode
              (hinvariant.passage hv hl hs hcode hmove) ?_ ?_⟩
          · intro hplain l hat''
            rw [hat''.unique hat]
            obtain ⟨u, hu, henv⟩ := step_env_line hcode hstep hplain
            obtain ⟨v, hv', henv'⟩ :=
              step_env_line htcode hstep' (hanswers.isTerminator.trans hplain)
            have hterm : isTerminatorOpcode i.opcode = false := by
              unfold Instruction.isTerminator at hplain
              rw [Bool.or_eq_false_iff] at hplain
              exact hplain.1
            have hexecute := alike_execute hanswers hterm hm.follows.toBeside
            rw [hu, hv'] at hexecute
            obtain ⟨-, -, hvalue⟩ := hexecute
            refine ⟨hat.reached, ⟨s, u, rfl, henv.symm, hu⟩, ?_, ?_⟩
            · intro w hw
              show t'.env w = t.env w
              rw [henv']
              rcases hw with hnone | hzero | hne
              · rw [hemit] at hnone
                cases hnone
              · rw [execute_env hv' (hanswers.silent hzero)]
              · by_cases hzero : i.result = 0
                · rw [execute_env hv' (hanswers.silent hzero)]
                · exact execute_other hv' (by rw [(hanswers.result hzero).2]; exact hne)
            · intro hresult
              show R _ s'.env (t'.env _)
              rw [henv, henv']
              exact hvalue hresult
          · intro hterm
            obtain ⟨block, -, hscanned⟩ := hv.scannedAt hi
            have hresult := terminator_result hscanned hterm
            refine ⟨hat'.reached, step_env_edge hcode hstep hterm hresult, ?_⟩
            have hright := step_env_edge htcode hstep' (hanswers.isTerminator.trans hterm)
              (hanswers.silent hresult)
            rw [hfollows.block, hm.follows.block] at hright
            exact hright

/-- An instruction that is left out changes nothing that is seen. -/
theorem Faithful.dropped (h : Faithful perform T f g A R) (hv : Verified f) (hl : LoopsMatched f)
    (hs : Scoped f scopes) (hm : Matches perform T f A R world s t) (hat : At f s.block k s.code)
    (hcode : s.code = i :: rest) (hemit : T.emit ⟨s.block, k, i⟩ = none) :
    ∃ s', step perform f s = .ok s' ∧ Matches perform T f A R world s' t ∧ s'.code = rest := by
  obtain ⟨history, hexecution, hholding⟩ := hm.holding
  rcases hat.instruction hcode with ⟨hi, hrest⟩
  have hsite : (⟨s.block, k, i⟩ : Site) ∈ f.sites := mem_sites.mpr hi
  have hphi := hv.not_phi_of_mem_body (hat.mem_body hcode)
  obtain ⟨hterm, hloop, hresult, hproduce⟩ := h.drops _ hsite hphi hat.reached hemit
  obtain ⟨slot, hslot, hvalue⟩ := hproduce _ (hholding.here k hat) s.world
  dsimp only at hterm hloop hresult hvalue
  have hu : execute perform i s = .ok (s.record i.result ⟨slot, s.world, []⟩) := by
    unfold execute
    rw [show produce perform i.effect (s.arguments i) (s.env (i.operands.getD 0 0)).other s.world =
      .ok ⟨slot, s.world, []⟩ from hslot]
    rfl
  have hproceed : proceed f i rest ((s.arguments i).getD 0 0) (s.record i.result ⟨slot, s.world, []⟩) =
      .ok { s.record i.result ⟨slot, s.world, []⟩ with code := rest } := by
    unfold proceed
    split
    · rename_i hop
      rw [hop] at hloop
      cases hloop
    · rename_i hop
      rw [hop] at hloop
      cases hloop
    · rename_i hop
      rw [hop] at hloop
      cases hloop
    · rfl
  have hstep : step perform f s = .ok { s.record i.result ⟨slot, s.world, []⟩ with code := rest } := by
    unfold step
    rw [hcode]
    dsimp only
    rw [if_neg (by rw [hterm]; decide), hu, ok_bind, hproceed]
  have henv : (s.record i.result ⟨slot, s.world, []⟩).env = Function.update s.env i.result slot :=
    if_neg hresult
  refine ⟨_, hstep, ⟨⟨⟨hm.follows.block, hm.follows.world, ?_, hm.follows.loops⟩, k + 1, hrest, ?_⟩,
    ?_⟩, rfl⟩
  · show t.trace = s.trace ++ []
    rw [List.append_nil, hm.follows.trace]
  · rw [hm.follows.behind hat, behind_none hi hemit]
    rfl
  · have hinvariant := hexecution.invariant hv hl hs
    have hmove := step_moves hcode hstep
    have hnext := hinvariant.move hv hl hs hcode hmove
    have hplain : i.isTerminator = false := by
      unfold Instruction.isTerminator
      rw [hterm, Bool.false_or]
      unfold isLoopOpcode at hloop
      rw [decide_eq_false fun hop => of_decide_eq_false hloop (hop.imp_right .inl), Bool.false_and]
    refine ⟨_, .next hexecution hcode hstep, hholding.step (h.preserved hv) hv hl hs hinvariant hnext
      hcode (hinvariant.passage hv hl hs hcode hmove) ?_ ?_⟩
    · intro _ l hat'
      rw [hat'.unique hat]
      refine ⟨hat.reached, ⟨s, _, rfl, rfl, hu⟩, fun _ _ => rfl, ?_⟩
      intro _
      show R _ (s.record i.result ⟨slot, s.world, []⟩).env _
      rw [henv]
      exact hvalue
    · intro hterm'
      rw [hplain] at hterm'
      cases hterm'

/-- What is left out is passed over up to an instruction that is kept. -/
theorem Faithful.skip (h : Faithful perform T f g A R) (hv : Verified f) (hl : LoopsMatched f)
    (hs : Scoped f scopes) (n : Nat) : ∀ s, s.code.length = n → Matches perform T f A R world s t →
    ∃ m s' k i rest i', Machine.Runs (machine perform f) m s s' ∧ Matches perform T f A R world s' t ∧
      At f s'.block k s'.code ∧ s'.code = i :: rest ∧ T.emit ⟨s'.block, k, i⟩ = some i' := by
  induction n with
  | zero =>
      intro s hlength hm
      obtain ⟨history, hexecution, -⟩ := hm.holding
      obtain ⟨k, hat, -, -⟩ := (hexecution.invariant hv hl hs).position
      have hinside := hat.inside
      rw [hat.code, List.length_drop] at hlength
      omega
  | succ n ih =>
      intro s hlength hm
      obtain ⟨history, hexecution, -⟩ := hm.holding
      obtain ⟨k, hat, -, -⟩ := (hexecution.invariant hv hl hs).position
      cases hcode : s.code with
      | nil =>
          rw [hcode] at hlength
          cases hlength
      | cons i rest =>
          cases hemit : T.emit ⟨s.block, k, i⟩ with
          | some i' =>
              have hruns := @Machine.Runs.refl _ _ _ (machine perform f) s
              exact ⟨0, s, k, i, rest, i', hruns, hm, hat, hcode, hemit⟩
          | none =>
              obtain ⟨s', hstep, hm', hrest⟩ := h.dropped hv hl hs hm hat hcode hemit
              rw [hcode, List.length_cons] at hlength
              obtain ⟨m, s'', l, j, rest', j', hruns, hlast⟩ := ih s' (by rw [hrest]; omega) hm'
              exact ⟨m + 1, s'', l, j, rest', j', .head hstep hruns, hlast⟩

theorem Faithful.simulation (h : Faithful perform T f g A R) (hv : Verified f) (hl : LoopsMatched f)
    (hs : Scoped f scopes) (world : W) : Machine.Simulation (machine perform g) (machine perform f)
      fun t s => Matches perform T f A R world s t where
  trace t s hm := hm.follows.trace
  step := by
    intro t s t' hm hstep
    obtain ⟨m, s₁, k, i, rest, i', hruns, hm₁, hat, hcode, hemit⟩ := h.skip hv hl hs _ s rfl hm
    have halike := h.kept hv hl hs hm₁ hat hcode hemit
    rw [show step perform g t = .ok t' from hstep] at halike
    cases hstep' : step perform f s₁ with
    | error halt =>
        rw [hstep'] at halike
        exact halike.elim
    | ok s' =>
        rw [hstep'] at halike
        exact ⟨m, s', hruns.append (.single hstep'), halike⟩
  halt := by
    intro t s halt hm hstep
    obtain ⟨m, s₁, k, i, rest, i', hruns, hm₁, hat, hcode, hemit⟩ := h.skip hv hl hs _ s rfl hm
    have halike := h.kept hv hl hs hm₁ hat hcode hemit
    rw [show step perform g t = .error halt from hstep] at halike
    cases hstep' : step perform f s₁ with
    | error halt' =>
        rw [hstep'] at halike
        refine ⟨m, s₁, hruns, hstep'.trans (congrArg _ halike), ?_, hm₁.follows.trace⟩
        show (t.trace, t.world) = (s₁.trace, s₁.world)
        rw [hm₁.follows.trace, hm₁.follows.world]
    | ok s' =>
        rw [hstep'] at halike
        exact halike.elim

/-- A faithful thinning has the behaviour of the function. -/
theorem Faithful.sameBehavior (h : Faithful perform T f g A R) (hv : Verified f) (hl : LoopsMatched f)
    (hs : Scoped f scopes) (world : W) : Machine.SameBehavior (machine perform g) (machine perform f)
      (start g world) (start f world) := by
  refine (h.simulation hv hl hs world).sameBehavior ⟨⟨⟨?_, rfl, rfl, .nil⟩, ?_⟩, {}, .start,
    holding_start hv world _⟩
  · exact h.thins.entry
  · refine ⟨(phis (f.code f.entry)).length, (drop_phis _).symm, ?_⟩
    show body (g.code g.entry) = _
    rw [h.thins.entry, (h.thins.split hv f.entry).2]
    rfl

end Faithful

end Disco.IR
