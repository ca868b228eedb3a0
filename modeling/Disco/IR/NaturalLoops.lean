import Disco.IR.FlowAnalysis
import Disco.Library.NaturalLoop

/-! # The loops of the control flow analysis

The analysis goes over the back edges of the graph and floods backwards from
each latch. What it collects are the natural loops: one for each header, with
exactly the latches and the blocks that the graph gives it.
-/

namespace Disco.IR

open Library Verifier

namespace ControlFlow

/-- One header's entry, after some of the edges have been visited. -/
structure Collects (f : Function) (visited : List (Nat × Nat)) (h : Nat) (around : NaturalLoop) : Prop where
  header : around.header = h
  latches : ∀ l, l ∈ around.latches ↔ (l, h) ∈ visited ∧ Backedge (flow f) f.entry l h
  headed : h ∈ around.blocks
  latched : ∀ l ∈ around.latches, l ∈ around.blocks
  closed : ∀ b ∈ around.blocks, b ≠ h → ∀ a, flow f a b → Reached (flow f) f.entry a → a ∈ around.blocks
  inside : ∀ b ∈ around.blocks, InLoop (flow f) f.entry h b

/-- The loops known after some of the edges. -/
structure Collected (f : Function) (visited : List (Nat × Nat)) (natural : Nat → Option NaturalLoop) : Prop where
  missing : ∀ h, natural h = none → ∀ l, (l, h) ∈ visited → ¬ Backedge (flow f) f.entry l h
  found : ∀ h around, natural h = some around → Collects f visited h around

/-- The edges between reachable blocks, in the order of the visits. -/
def reachableEdges (f : Function) (reachable : Finset Nat) : List (Nat × Nat) :=
  ((List.range f.blocks.length).filter (· ∈ reachable)).flatMap fun b =>
    (successors f b).map fun h => (b, h)

section Loops

variable {f : Function} {reachable : Finset Nat} {sets : Nat → Finset Nat} {visited : List (Nat × Nat)}
  {natural next : Nat → Option NaturalLoop} {around : NaturalLoop} {h l : Nat}

theorem Collected.start : Collected f [] fun _ => none where
  missing _ _ _ hmem := absurd hmem List.not_mem_nil
  found _ _ hsome := by cases hsome

theorem Collects.mono (hc : Collects f visited h around) {edge : Nat × Nat}
    (hother : edge.2 = h → ¬ Backedge (flow f) f.entry edge.1 h) : Collects f (visited ++ [edge]) h around where
  header := hc.header
  latches l := by
    rw [hc.latches]
    constructor
    · intro hl
      exact ⟨List.mem_append_left _ hl.1, hl.2⟩
    · intro hl
      refine ⟨?_, hl.2⟩
      cases List.mem_append.mp hl.1 with
      | inl hold => exact hold
      | inr hnew =>
          have hedge := List.mem_singleton.mp hnew
          subst hedge
          exact absurd hl.2 (hother rfl)
  headed := hc.headed
  latched := hc.latched
  closed := hc.closed
  inside := hc.inside

/-- A header's first entry, before its latch is added. -/
theorem Collected.current (hn : Collected f visited natural) (back : Backedge (flow f) f.entry l h) :
    Collects f visited h ((natural h).getD ⟨h, {h}, ∅⟩) := by
  cases hsome : natural h with
  | some around => exact hn.found h around hsome
  | none =>
      refine ⟨rfl, ?_, Finset.mem_singleton_self h, ?_, ?_, ?_⟩
      · intro a
        constructor
        · intro ha
          exact absurd ha (Finset.notMem_empty a)
        · intro ha
          exact absurd ha.2 (hn.missing h hsome a ha.1)
      · intro a ha
        exact absurd ha (Finset.notMem_empty a)
      · intro b hb hne
        exact absurd (Finset.mem_singleton.mp hb) hne
      · intro b hb
        rw [Finset.mem_singleton.mp hb]
        exact .header back

/-- A visit of a back edge: the flood stays in the loop and fills it up. -/
theorem Collects.flood (hreach : ∀ b, b ∈ reachable ↔ Reached (flow f) f.entry b)
    (hc : Collects f visited h around) (back : Backedge (flow f) f.entry l h) {blocks : Finset Nat}
    (hflood : flood (fun b => (predecessors f b).filter (· ∈ reachable)) limit f.blocks.length [l] around.blocks =
      .ok blocks) :
    Collects f (visited ++ [(l, h)]) h { around with blocks := blocks, latches := insert l around.latches } := by
  have hspread := flood_eq_ok hflood
  rcases hspread with ⟨hkeeps, hwork, hclosed, -⟩
  have hpredecessor : ∀ {a b}, a ∈ (predecessors f b).filter (· ∈ reachable) ↔
      flow f a b ∧ Reached (flow f) f.entry a := by
    intro a b
    rw [List.mem_filter, mem_predecessors, decide_eq_true_eq, hreach]
  have hl : l ∈ blocks := hwork l (List.mem_singleton_self l)
  refine ⟨hc.header, ?_, hkeeps hc.headed, ?_, ?_, ?_⟩
  · intro a
    dsimp only
    rw [Finset.mem_insert, hc.latches, List.mem_append, List.mem_singleton, Prod.mk.injEq]
    constructor
    · intro ha
      cases ha with
      | inl heq => exact ⟨.inr ⟨heq, rfl⟩, heq ▸ back⟩
      | inr hold => exact ⟨.inl hold.1, hold.2⟩
    · intro ha
      cases ha.1 with
      | inl hold => exact .inr ⟨hold, ha.2⟩
      | inr heq => exact .inl heq.1
  · intro a ha
    cases Finset.mem_insert.mp ha with
    | inl heq => exact heq ▸ hl
    | inr hold => exact hkeeps (hc.latched a hold)
  · intro b hb hne a hflow ha
    cases hclosed b hb with
    | inl hold => exact hkeeps (hc.closed b hold hne a hflow ha)
    | inr hall => exact hall a (hpredecessor.mpr ⟨hflow, ha⟩)
  · refine flood_induction hc.inside ?_ ?_ hflood
    · intro b hb
      rw [List.mem_singleton.mp hb]
      exact .latch back
    · intro b hb houtside a ha
      have hedge := hpredecessor.mp ha
      have hne : b ≠ h := fun heq => houtside (heq ▸ hc.headed)
      exact .before hb hne hedge.2 hedge.1

theorem Collected.visit (hd : DominatorSets reachable sets f.blocks.length f.entry (flow f))
    (hn : Collected f visited natural) {edge : Nat × Nat} (hmem : edge ∈ reachableEdges f reachable)
    (hvisit : addBackedge f reachable sets natural edge = .ok next) : Collected f (visited ++ [edge]) next := by
  unfold reachableEdges at hmem
  obtain ⟨b, hb, hmem⟩ := List.mem_flatMap.mp hmem
  obtain ⟨h, hh, rfl⟩ := List.mem_map.mp hmem
  have hreached : Reached (flow f) f.entry b := by
    have hin := (List.mem_filter.mp hb).2
    exact (hd.reach b).mp (of_decide_eq_true hin)
  have hflow : flow f b h := mem_successors_iff.mp hh
  unfold addBackedge at hvisit
  dsimp only at hvisit
  by_cases hdom : h ∈ sets b
  · rw [if_pos hdom] at hvisit
    have back : Backedge (flow f) f.entry b h := ⟨hreached, hflow, (hd.mem b hreached h).mp hdom⟩
    obtain ⟨blocks, hflood, hvisit⟩ := bind_eq_ok.mp hvisit
    cases hvisit
    constructor
    · intro k hnone l hl
      by_cases hsame : k = h
      · subst hsame
        rw [Function.update_self] at hnone
        cases hnone
      · rw [Function.update_of_ne hsame] at hnone
        cases List.mem_append.mp hl with
        | inl hold => exact hn.missing k hnone l hold
        | inr hnew =>
            have hedge := List.mem_singleton.mp hnew
            exact absurd (Prod.mk.inj hedge).2 hsame
    · intro k around hsome
      by_cases hsame : k = h
      · subst hsame
        rw [Function.update_self] at hsome
        cases hsome
        exact (hn.current back).flood hd.reach back hflood
      · rw [Function.update_of_ne hsame] at hsome
        exact (hn.found k around hsome).mono fun heq => absurd heq.symm hsame
  · rw [if_neg hdom] at hvisit
    cases hvisit
    have hno : ¬ Backedge (flow f) f.entry b h := fun back => hdom ((hd.mem b hreached h).mpr back.dominates)
    constructor
    · intro k hnone l hl
      cases List.mem_append.mp hl with
      | inl hold => exact hn.missing k hnone l hold
      | inr hnew =>
          have hedge := Prod.mk.inj (List.mem_singleton.mp hnew)
          rw [hedge.1, hedge.2]
          exact hno
    · intro k around hsome
      exact (hn.found k around hsome).mono fun heq => heq ▸ hno

theorem Collected.visits (hd : DominatorSets reachable sets f.blocks.length f.entry (flow f))
    (edges : List (Nat × Nat)) (hsub : ∀ edge ∈ edges, edge ∈ reachableEdges f reachable)
    (hn : Collected f visited natural) (hfold : foldAll (addBackedge f reachable sets) natural edges = .ok next) :
    Collected f (visited ++ edges) next := by
  induction edges generalizing visited natural with
  | nil =>
      cases hfold
      rw [List.append_nil]
      exact hn
  | cons edge rest ih =>
      obtain ⟨middle, hvisit, hfold⟩ := bind_eq_ok.mp hfold
      have hmiddle := hn.visit hd (hsub edge List.mem_cons_self) hvisit
      have hrest := ih (fun e he => hsub e (List.mem_cons_of_mem _ he)) hmiddle hfold
      rw [List.append_assoc, List.singleton_append] at hrest
      exact hrest

theorem mem_reachableEdges (hd : DominatorSets reachable sets f.blocks.length f.entry (flow f)) {edge : Nat × Nat} :
    edge ∈ reachableEdges f reachable ↔ flow f edge.1 edge.2 ∧ Reached (flow f) f.entry edge.1 := by
  unfold reachableEdges
  simp only [List.mem_flatMap, List.mem_filter, List.mem_range, decide_eq_true_eq, List.mem_map]
  constructor
  · intro hedge
    obtain ⟨b, hb, h, hh, rfl⟩ := hedge
    exact ⟨mem_successors_iff.mp hh, (hd.reach b).mp hb.2⟩
  · intro hedge
    exact ⟨edge.1, ⟨hd.bounded _ hedge.2, (hd.reach _).mpr hedge.2⟩, edge.2, mem_successors_iff.mpr hedge.1, rfl⟩

/-- Once every edge has been visited, the blocks are the whole loop. -/
theorem Collects.complete (hd : DominatorSets reachable sets f.blocks.length f.entry (flow f))
    (hc : Collects f (reachableEdges f reachable) h around) {b : Nat} (hb : InLoop (flow f) f.entry h b) :
    b ∈ around.blocks := by
  induction hb with
  | header => exact hc.headed
  | @latch l back =>
      have hedge : (l, h) ∈ reachableEdges f reachable := (mem_reachableEdges hd).mpr ⟨back.step, back.reached⟩
      exact hc.latched l ((hc.latches l).mpr ⟨hedge, back⟩)
  | before _ ne reached step ih => exact hc.closed _ ih ne _ step reached

end Loops

/-- What the analysis says about a loop, in terms of the graph. -/
structure LoopOf (f : Function) (around : NaturalLoop) : Prop where
  latches : ∀ l, l ∈ around.latches ↔ Backedge (flow f) f.entry l around.header
  blocks : ∀ b, b ∈ around.blocks ↔ InLoop (flow f) f.entry around.header b

/-- The loops are those of the graph: each is listed once, by ascending headers. -/
structure NaturalLoops (f : Function) (loops : List NaturalLoop) : Prop where
  sound : ∀ around ∈ loops, LoopOf f around
  ascending : (loops.map NaturalLoop.header).Pairwise (· < ·)
  mem_header : ∀ h, h ∈ loops.map NaturalLoop.header ↔ ∃ l, Backedge (flow f) f.entry l h

theorem map_header_filterMap {natural : Nat → Option NaturalLoop}
    (hheader : ∀ h around, natural h = some around → around.header = h) (headers : List Nat) :
    (headers.filterMap natural).map NaturalLoop.header = headers.filter fun h => (natural h).isSome := by
  induction headers with
  | nil => rfl
  | cons h rest ih =>
      cases hsome : natural h with
      | none => simp [hsome, ih]
      | some around => simp [hsome, ih, hheader h around hsome]

theorem naturalLoops_exact {f : Function} {reachable : Finset Nat} {sets : Nat → Finset Nat}
    (hd : DominatorSets reachable sets f.blocks.length f.entry (flow f)) {loops : List NaturalLoop}
    (h : naturalLoops f reachable sets = .ok loops) : NaturalLoops f loops := by
  unfold naturalLoops at h
  obtain ⟨natural, hfold, h⟩ := bind_eq_ok.mp h
  cases h
  have hall := Collected.visits hd (reachableEdges f reachable) (fun _ he => he) Collected.start hfold
  rw [List.nil_append] at hall
  have hedge : ∀ {l h}, Backedge (flow f) f.entry l h → (l, h) ∈ reachableEdges f reachable :=
    fun back => (mem_reachableEdges hd).mpr ⟨back.step, back.reached⟩
  have hheaders := map_header_filterMap (fun h around hsome => (hall.found h around hsome).header)
    (List.range f.blocks.length)
  refine ⟨?_, ?_, ?_⟩
  · intro around hmem
    obtain ⟨h, -, hnatural⟩ := List.mem_filterMap.mp hmem
    have hc := hall.found h around hnatural
    have hheader := hc.header
    subst hheader
    refine ⟨?_, ?_⟩
    · intro l
      rw [hc.latches]
      exact ⟨fun hl => hl.2, fun back => ⟨hedge back, back⟩⟩
    · intro b
      exact ⟨hc.inside b, hc.complete hd⟩
  · rw [hheaders]
    exact List.pairwise_lt_range.filter _
  · intro h
    rw [hheaders, List.mem_filter, List.mem_range, Option.isSome_iff_exists]
    constructor
    · intro hmem
      obtain ⟨around, hnatural⟩ := hmem.2
      have hc := hall.found h around hnatural
      exact (hc.inside h hc.headed).backedge
    · intro hmem
      obtain ⟨l, back⟩ := hmem
      refine ⟨hd.bounded h (.next back.reached back.step), ?_⟩
      by_contra hnone
      rw [← Option.isSome_iff_exists, Bool.not_eq_true, Option.isSome_eq_false_iff, Option.isNone_iff_eq_none]
        at hnone
      exact hall.missing h hnone l (hedge back) back

/-- Two loops of the analysis are disjoint, or one is part of the other. -/
theorem NaturalLoops.nested {f : Function} {loops : List NaturalLoop} (h : NaturalLoops f loops) {a b : NaturalLoop}
    (ha : a ∈ loops) (hb : b ∈ loops) : Disjoint a.blocks b.blocks ∨ a.blocks ⊆ b.blocks ∨ b.blocks ⊆ a.blocks := by
  have hla := h.sound a ha
  have hlb := h.sound b hb
  by_cases hcommon : ∃ c, c ∈ a.blocks ∧ c ∈ b.blocks
  · obtain ⟨c, hc, hc'⟩ := hcommon
    right
    cases ((hla.blocks c).mp hc).nested ((hlb.blocks c).mp hc') with
    | inl hsub => exact .inr fun x hx => (hla.blocks x).mpr (hsub x ((hlb.blocks x).mp hx))
    | inr hsub => exact .inl fun x hx => (hlb.blocks x).mpr (hsub x ((hla.blocks x).mp hx))
  · left
    rw [Finset.disjoint_left]
    exact fun c hc hc' => hcommon ⟨c, hc, hc'⟩

end ControlFlow

open ControlFlow

theorem naturalLoops_of_controlFlow {f : Function} (hv : Verified f) {cfg : ControlFlow}
    (h : controlFlow f = .ok cfg) : NaturalLoops f cfg.loops := by
  unfold controlFlow at h
  simp only [rejectIf_bind_eq_ok] at h
  obtain ⟨_, -, h⟩ := bind_eq_ok.mp h.2
  obtain ⟨reachable, hreach, h⟩ := bind_eq_ok.mp h
  obtain ⟨sets, hsets, h⟩ := bind_eq_ok.mp h
  obtain ⟨loops, hloops, h⟩ := bind_eq_ok.mp h
  obtain ⟨live, -, h⟩ := bind_eq_ok.mp h
  cases h
  obtain ⟨exact_sets, hsets', hexact⟩ := dominatorSets_exact hv hreach
  rw [hsets] at hsets'
  cases hsets'
  exact naturalLoops_exact hexact hloops

/-- The analysis of an accepted function finds exactly the loops of its graph;
they are nested, and their headers dominate them. -/
theorem controlFlow_loops {m : Module} {f : Function} (h : verify m = .ok ()) (hf : f ∈ m.functions)
    {cfg : ControlFlow} (hcfg : controlFlow f = .ok cfg) :
    NaturalLoops f cfg.loops ∧
      (∀ around ∈ cfg.loops, ∀ b ∈ around.blocks, Dominates (flow f) f.entry around.header b) ∧
      ∀ a ∈ cfg.loops, ∀ b ∈ cfg.loops, Disjoint a.blocks b.blocks ∨ a.blocks ⊆ b.blocks ∨ b.blocks ⊆ a.blocks := by
  have hloops := naturalLoops_of_controlFlow (verified_of_verifyFunction (verifyFunction_of_verify h hf)) hcfg
  refine ⟨hloops, ?_, fun a ha b hb => hloops.nested ha hb⟩
  intro around hmem b hb
  exact (((hloops.sound around hmem).blocks b).mp hb).dominated

/-- Two loops, one in the other, with one exit between their blocks. -/
def nestedLoops : Function where
  name := "f"
  returnType := { base := .void }
  entry := 0
  valueCount := 2
  blocks :=
    [{ id := 0
       instructions :=
        [{ opcode := .branch
           targets := [1] }] },
      { id := 1
        instructions :=
        [{ opcode := .call
           type := { base := .bool
                     sizeInBytes := 1 }
           result := 1
           symbol := "g" },
          { opcode := .condBranch
            operands := [1]
            targets := [3, 2] }] },
      { id := 2
        instructions :=
        [{ opcode := .returnVoid }] },
      { id := 3
        instructions :=
        [{ opcode := .call
           type := { base := .bool
                     sizeInBytes := 1 }
           result := 2
           symbol := "g" },
          { opcode := .condBranch
            operands := [2]
            targets := [4, 1] }] },
      { id := 4
        instructions :=
        [{ opcode := .branch
           targets := [3] }] }]

theorem nestedLoops_verified : verify { functions := [nestedLoops] } = .ok () := by decide +kernel

theorem nestedLoops_analysed :
    (controlFlow nestedLoops).map (fun cfg => cfg.loops.map NaturalLoop.header) = .ok [1, 3] := by
  decide +kernel

theorem controlFlow_loops_nestedLoops :
    ∃ cfg, controlFlow nestedLoops = .ok cfg ∧ NaturalLoops nestedLoops cfg.loops ∧
      (∀ around ∈ cfg.loops, ∀ b ∈ around.blocks, Dominates (flow nestedLoops) nestedLoops.entry around.header b) ∧
      ∀ a ∈ cfg.loops, ∀ b ∈ cfg.loops, Disjoint a.blocks b.blocks ∨ a.blocks ⊆ b.blocks ∨ b.blocks ⊆ a.blocks := by
  cases hcfg : controlFlow nestedLoops with
  | error e =>
      have hok := nestedLoops_analysed
      rw [hcfg] at hok
      cases hok
  | ok cfg => exact ⟨cfg, rfl, controlFlow_loops nestedLoops_verified List.mem_cons_self hcfg⟩

end Disco.IR
