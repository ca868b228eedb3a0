import Disco.IR.ControlFlow
import Disco.Library.DominatorTree
import Disco.Library.TreeWalk
import Mathlib.Data.Set.Card

/-! # The whole control flow analysis

The constructor of `IRControlFlow` with the dominator tree and the dominance
frontiers it builds between the dominator sets and the loops. Its two iterations
are bounded by the number of blocks; neither bound is ever what stops it.
-/

namespace Disco.IR

open Library Verifier

structure FlowAnalysis extends ControlFlow where
  dominators : Nat → Finset Nat
  immediateDominator : Nat → Option Nat
  children : Nat → List Nat
  frontier : Nat → List Nat

/-- `dominates`. -/
def FlowAnalysis.dominates (cfg : FlowAnalysis) (d b : Nat) : Bool :=
  decide (b ∈ cfg.reachable) && decide (d ∈ cfg.dominators b)

namespace ControlFlow

/-- The nodes whose frontier gets a join, in the order they get it. A runner has
fewer dominators with every step, so the bound is never reached. -/
def frontierEntries (f : Function) (reachable : Finset Nat) (idom : Nat → Option Nat) :
    List (Nat × Nat) :=
  ((List.range f.blocks.length).filter fun b =>
      b ∈ reachable ∧ (predecessors f b).length > 1).flatMap fun b =>
    ((predecessors f b).filter (· ∈ reachable)).flatMap fun p =>
      (climb idom (idom b) f.blocks.length (some p)).map fun runner => (runner, b)

def frontiers (f : Function) (reachable : Finset Nat) (idom : Nat → Option Nat) : Nat → List Nat :=
  (frontierEntries f reachable idom).foldl
    (fun frontier entry => Function.update frontier entry.1 (add (frontier entry.1) entry.2)) fun _ => []

end ControlFlow

open ControlFlow in
/-- `IRControlFlow::IRControlFlow`. -/
def flowAnalysis (f : Function) : Except String FlowAnalysis := do
  rejectIf (f.blocks.length = 0 ∨ f.blocks.length > 8192 ∨ f.valueCount > 100000) limit
  checkAll (checkEdges f) f.instructions
  let reachable ← reachableBlocks f
  let sets ← dominatorSets f reachable
  let idom := immediateDominator reachable sets f.blocks.length f.entry
  let loops ← naturalLoops f reachable sets
  let live ← liveSets f reachable
  pure
    { reachable := reachable
      loops := loops
      liveIn := live.liveIn
      liveOut := live.liveOut
      dominators := sets
      immediateDominator := idom
      children := dominatorChildren reachable sets f.blocks.length f.entry
      frontier := frontiers f reachable idom }

open ControlFlow in
/-- The part of the analysis that needs no dominator tree. -/
theorem controlFlow_eq (f : Function) :
    controlFlow f = (flowAnalysis f).map FlowAnalysis.toControlFlow := by
  unfold controlFlow flowAnalysis
  cases rejectIf (f.blocks.length = 0 ∨ f.blocks.length > 8192 ∨ f.valueCount > 100000) limit with
  | error e => rfl
  | ok _ =>
      rw [ok_bind, ok_bind]
      cases checkAll (checkEdges f) f.instructions with
      | error e => rfl
      | ok _ =>
          rw [ok_bind, ok_bind]
          cases reachableBlocks f with
          | error e => rfl
          | ok reachable =>
              rw [ok_bind, ok_bind]
              cases dominatorSets f reachable with
              | error e => rfl
              | ok sets =>
                  rw [ok_bind, ok_bind]
                  dsimp only
                  cases naturalLoops f reachable sets with
                  | error e => rfl
                  | ok loops =>
                      rw [ok_bind, ok_bind]
                      cases liveSets f reachable with
                      | error e => rfl
                      | ok live => rfl

namespace ControlFlow

section Graph

variable {f : Function} {reachable : Finset Nat}

theorem mem_predecessors {a b : Nat} : a ∈ predecessors f b ↔ flow f a b := by
  unfold predecessors
  rw [List.mem_filter, List.mem_range, decide_eq_true_eq, mem_successors_iff]
  refine ⟨fun h => h.2, fun h => ⟨?_, h⟩⟩
  obtain ⟨i, hi, -⟩ := mem_successors.mp h
  exact lt_of_mem_code hi

theorem length_predecessors_eq_one {b : Nat} :
    (predecessors f b).length = 1 ↔ ∃! p, flow f p b := by
  rw [List.length_eq_one_iff]
  constructor
  · intro h
    obtain ⟨p, hp⟩ := h
    refine ⟨p, mem_predecessors.mp (by rw [hp]; exact List.mem_singleton_self p), ?_⟩
    intro q hq
    rw [← mem_predecessors, hp, List.mem_singleton] at hq
    exact hq
  · intro h
    obtain ⟨p, hp, hunique⟩ := h
    have hnodup : (predecessors f b).Nodup := List.Nodup.filter _ List.nodup_range
    refine ⟨p, List.perm_singleton.mp ?_⟩
    rw [List.perm_ext_iff_of_nodup hnodup (List.nodup_singleton p)]
    intro q
    rw [mem_predecessors, List.mem_singleton]
    constructor
    · intro hq
      exact hunique q hq
    · intro hq
      rw [hq]
      exact hp

/-- The blocks of an accepted function as a flow graph. -/
theorem flowGraph (hv : Verified f) (h : reachableBlocks f = .ok reachable) :
    FlowGraph (flow f) (predecessors f) reachable f.entry f.blocks.length where
  reach _ := mem_reachableBlocks h
  pred _ _ := mem_predecessors
  bounded _ hr := hv.lt_of_reached hr

/-- The round limit never stops the search for dominators. -/
theorem dominatorSets_exact (hv : Verified f) (h : reachableBlocks f = .ok reachable) :
    ∃ sets, dominatorSets f reachable = .ok sets ∧
      DominatorSets reachable sets f.blocks.length f.entry (flow f) :=
  (flowGraph hv h).dominators (Nat.le_succ _)

/-! ## Frontiers -/

theorem mem_foldl_frontier {entries : List (Nat × Nat)} {frontier : Nat → List Nat} {x y : Nat} :
    y ∈ entries.foldl
        (fun frontier entry => Function.update frontier entry.1 (add (frontier entry.1) entry.2)) frontier x ↔
      y ∈ frontier x ∨ (x, y) ∈ entries := by
  induction entries generalizing frontier with
  | nil => simp
  | cons entry rest ih =>
      rw [List.foldl_cons, ih, List.mem_cons, Prod.ext_iff]
      by_cases hx : x = entry.1
      · subst hx
        rw [Function.update_self]
        have hadd : y ∈ add (frontier entry.1) entry.2 ↔ y ∈ frontier entry.1 ∨ y = entry.2 := by
          have hfold : y ∈ [entry.2].foldl add (frontier entry.1) ↔ _ := mem_foldl_add
          rw [List.mem_singleton] at hfold
          exact hfold
        rw [hadd]
        simp only [true_and, or_assoc]
      · rw [Function.update_of_ne hx]
        simp only [hx, false_and, false_or]

/-- A join is in the frontiers that its name says, unless it is the entry with
one predecessor, which the analysis does not take for a join. -/
theorem mem_frontiers (hv : Verified f) {sets : Nat → Finset Nat} (hreach : reachableBlocks f = .ok reachable)
    (hsets : DominatorSets reachable sets f.blocks.length f.entry (flow f)) {x y : Nat} :
    y ∈ frontiers f reachable (immediateDominator reachable sets f.blocks.length f.entry) x ↔
      InFrontier (flow f) f.entry x y ∧ (y = f.entry → (predecessors f y).length ≠ 1) := by
  have hreached : ∀ p, flow f p y → Reached (flow f) f.entry p := by
    intro p hp
    obtain ⟨i, hi, hphi, htarget⟩ := mem_successors.mp hp
    apply hv.reached_of_mem hi
    intro hop
    obtain ⟨k, hk⟩ := List.mem_iff_getElem?.mp hi
    rw [(hv.operands_of_unreachable hk hop).2] at htarget
    cases htarget
  have hmem : y ∈ frontiers f reachable (immediateDominator reachable sets f.blocks.length f.entry) x ↔
      y ∈ reachable ∧ (predecessors f y).length > 1 ∧ InFrontier (flow f) f.entry x y := by
    unfold frontiers frontierEntries InFrontier
    rw [mem_foldl_frontier]
    simp only [List.not_mem_nil, false_or, List.mem_flatMap, List.mem_filter, List.mem_range, List.mem_map,
      Prod.mk.injEq, decide_eq_true_eq]
    constructor
    · intro h
      obtain ⟨b, ⟨-, hb, hjoin⟩, p, ⟨hp, hpr⟩, runner, hclimb, rfl, rfl⟩ := h
      have hbr := (hsets.reach b).mp hb
      have hpr' := (hsets.reach p).mp hpr
      rw [hsets.mem_climb hbr _ p hpr' ?_ (hsets.card_le hpr')] at hclimb
      · exact ⟨hb, hjoin, ⟨p, (mem_predecessors).mp hp, hclimb.1⟩, hclimb.2⟩
      · intro s hs
        have himmediate := (hsets.idom_eq.mp hs).2
        exact himmediate.strict.1.predecessor ((mem_predecessors).mp hp) (Ne.symm himmediate.strict.2)
    · intro h
      rcases h with ⟨hy, hjoin, ⟨p, hp, hdom⟩, hstrict⟩
      have hyr := (hsets.reach y).mp hy
      have hpr := hreached p hp
      refine ⟨y, ⟨hv.lt_of_reached hyr, hy, hjoin⟩, p, ⟨(mem_predecessors).mpr hp,
        (hsets.reach p).mpr hpr⟩, x, ?_, rfl, rfl⟩
      rw [hsets.mem_climb hyr _ p hpr ?_ (hsets.card_le hpr)]
      · exact ⟨hdom, hstrict⟩
      · intro s hs
        have himmediate := (hsets.idom_eq.mp hs).2
        exact himmediate.strict.1.predecessor hp (Ne.symm himmediate.strict.2)
  rw [hmem]
  constructor
  · intro h
    exact ⟨h.2.2, fun _ hone => by omega⟩
  · intro h
    rcases h with ⟨⟨⟨p, hp, hdom⟩, hstrict⟩, hentry⟩
    have hyr : Reached (flow f) f.entry y := .next (hreached p hp) hp
    refine ⟨(hsets.reach y).mpr hyr, ?_, ⟨p, hp, hdom⟩, hstrict⟩
    have hpmem := (mem_predecessors).mpr hp
    have hpos : 0 < (predecessors f y).length := List.length_pos_of_mem hpmem
    by_contra hle
    have hone : (predecessors f y).length = 1 := by omega
    have hne : y ≠ f.entry := fun heq => hentry heq hone
    obtain ⟨q, hq⟩ := List.length_eq_one_iff.mp hone
    refine hstrict (strictlyDominates_of_single hdom ?_ hne hyr)
    intro a ha
    have ha' := (mem_predecessors).mpr ha
    rw [hq, List.mem_singleton] at ha' hpmem
    rw [ha', hpmem]

end Graph

/-! ## The rounds of the live sets -/

section Rounds

variable {f : Function} {reachable : Finset Nat} {live : LiveSets} {v b s k : Nat}

/-- A value that a block reads, or a PHI behind it, without having defined it. -/
def LiveBase (f : Function) (v b : Nat) : Prop :=
  Reached (flow f) f.entry b ∧ (v ∈ blockUses ∅ (f.code b) ∨
    (v ∉ blockDefs (f.code b) ∧ ∃ s, flow f b s ∧ edgeOperand f b s v))

/-- From a block to one before it, neither of which defines the value. -/
def LiveStep (f : Function) (v s b : Nat) : Prop :=
  Reached (flow f) f.entry b ∧ flow f b s ∧ v ∉ phiDefs (f.code s) ∧ v ∉ blockDefs (f.code b)

abbrev LiveWithin (f : Function) (v : Nat) : Nat → Nat → Prop := Within (LiveBase f v) (LiveStep f v)

theorem LiveWithin.reached (h : LiveWithin f v k b) : Reached (flow f) f.entry b := by
  cases h with
  | start mem => exact mem.1
  | next _ step => exact step.1

theorem mem_inAt {out : Finset Nat} : v ∈ inAt f out b ↔
    v ∈ blockUses ∅ (f.code b) ∨ (v ∈ out ∧ v ∉ blockDefs (f.code b)) := by
  unfold inAt
  rw [Finset.mem_union, Finset.mem_sdiff]

/-- What a block has live at its start, by one more step. -/
theorem mem_inAt_outAt : v ∈ inAt f (outAt f live b) b ↔
    v ∈ blockUses ∅ (f.code b) ∨ (v ∉ blockDefs (f.code b) ∧ ∃ s, flow f b s ∧
      ((v ∈ live.liveIn s ∧ v ∉ phiDefs (f.code s)) ∨ edgeOperand f b s v)) := by
  rw [mem_inAt, mem_outAt, and_comm]

/-- The sets only grow, towards what their equations ask for. -/
structure Ascending (f : Function) (live : LiveSets) : Prop where
  into : ∀ b, live.liveIn b ⊆ inAt f (outAt f live b) b
  out : ∀ b, live.liveOut b ⊆ outAt f live b
  derived : ∀ b, ∀ v ∈ live.liveIn b, ∃ k, LiveWithin f v k b

def AccountsLive (f : Function) (k b : Nat) (live : LiveSets) : Prop :=
  ∀ v, LiveWithin f v k b → v ∈ live.liveIn b

theorem inAt_mono {out out' : Finset Nat} (h : out ⊆ out') : inAt f out b ⊆ inAt f out' b :=
  Finset.union_subset_union (Finset.Subset.refl _) (Finset.sdiff_subset_sdiff h (Finset.Subset.refl _))

theorem outAt_mono {live' : LiveSets} (h : ∀ s, live.liveIn s ⊆ live'.liveIn s) :
    outAt f live b ⊆ outAt f live' b := by
  intro v hv
  rw [mem_outAt] at hv ⊢
  obtain ⟨s, hs, hlive | hedge⟩ := hv
  · exact ⟨s, hs, .inl ⟨h s hlive.1, hlive.2⟩⟩
  · exact ⟨s, hs, .inr hedge⟩

/-- The sets behind a visit. -/
def visited (f : Function) (live : LiveSets) (b : Nat) : LiveSets :=
  ⟨Function.update live.liveIn b (inAt f (outAt f live b) b),
    Function.update live.liveOut b (outAt f live b)⟩

/-- A visit stores what the equations ask for. -/
theorem sweepBlock_live {sweep sweep' : Sweep} (h : sweepBlock f reachable sweep b = .ok sweep') :
    (b ∈ reachable ∧ sweep'.live = visited f sweep.live b) ∨ (b ∉ reachable ∧ sweep'.live = sweep.live) := by
  unfold sweepBlock at h
  split at h
  · rename_i hb
    simp only [rejectIf_bind_eq_ok, pure_eq_ok] at h
    rcases h with ⟨-, rfl⟩
    refine .inl ⟨hb, ?_⟩
    split
    · rfl
    · rename_i hsame
      simp only [decide_eq_true_eq, not_or, not_not] at hsame
      unfold visited
      rw [hsame.1, hsame.2, Function.update_eq_self, Function.update_eq_self]
  · rename_i hb
    cases h
    exact .inr ⟨hb, rfl⟩

theorem Ascending.grow (h : Ascending f live) (b s : Nat) :
    live.liveIn s ⊆ (visited f live b).liveIn s := by
  unfold visited
  dsimp only
  by_cases heq : s = b
  · rw [heq, Function.update_self]
    exact h.into b
  · rw [Function.update_of_ne heq]

theorem Ascending.visited (h : Ascending f live) (hb : Reached (flow f) f.entry b) :
    Ascending f (visited f live b) := by
  have hgrow := fun c => @outAt_mono f live c (ControlFlow.visited f live b) (h.grow b)
  refine ⟨?_, ?_, ?_⟩
  · intro c
    unfold ControlFlow.visited
    dsimp only
    by_cases heq : c = b
    · rw [heq, Function.update_self]
      exact inAt_mono (hgrow b)
    · rw [Function.update_of_ne heq]
      exact (h.into c).trans (inAt_mono (hgrow c))
  · intro c
    by_cases heq : c = b
    · rw [heq]
      refine Finset.Subset.trans (le_of_eq ?_) (hgrow b)
      unfold ControlFlow.visited
      dsimp only
      rw [Function.update_self]
    · refine Finset.Subset.trans (le_of_eq ?_) ((h.out c).trans (hgrow c))
      unfold ControlFlow.visited
      dsimp only
      rw [Function.update_of_ne heq]
  · intro c v hv
    unfold ControlFlow.visited at hv
    dsimp only at hv
    by_cases heq : c = b
    · rw [heq, Function.update_self, mem_inAt_outAt] at hv
      rw [heq]
      rcases hv with huse | ⟨hkeep, s, hs, ⟨hlive, hphi⟩ | hedge⟩
      · exact ⟨0, .start ⟨hb, .inl huse⟩⟩
      · obtain ⟨k, hk⟩ := h.derived s v hlive
        exact ⟨k + 1, .next hk ⟨hb, hs, hphi, hkeep⟩⟩
      · exact ⟨0, .start ⟨hb, .inr ⟨hkeep, s, hs, hedge⟩⟩⟩
    · rw [Function.update_of_ne heq] at hv
      exact h.derived c v hv

/-- A visit accounts for one step more than the sets around it. -/
theorem visited_accounts (h : ∀ j < k, ∀ c, AccountsLive f j c live) :
    AccountsLive f k b (visited f live b) := by
  intro v hv
  unfold visited
  dsimp only
  rw [Function.update_self, mem_inAt_outAt]
  cases hv with
  | start mem =>
      rcases mem.2 with huse | ⟨hkeep, s, hs, hedge⟩
      · exact .inl huse
      · exact .inr ⟨hkeep, s, hs, .inr hedge⟩
  | @next j s _ before step =>
      rcases step with ⟨-, hs, hphi, hkeep⟩
      exact .inr ⟨hkeep, s, hs, .inl ⟨h j (Nat.lt_succ_self j) s v before, hphi⟩⟩

/-- All steps that any value takes. -/
theorem AccountsLive.complete (hv : Verified f) (h : AccountsLive f (f.blocks.length - 1) b live) :
    AccountsLive f k b live := by
  intro v hlive
  exact h v (hlive.bound fun _ x hx => hv.lt_of_reached (LiveWithin.reached hx))

/-- Once every step is accounted for, a visit changes no set of live values at
the start of a block. -/
theorem visited_liveIn (hv : Verified f) (ha : Ascending f live)
    (h : ∀ c, AccountsLive f (f.blocks.length - 1) c live) (hb : Reached (flow f) f.entry b) :
    (visited f live b).liveIn = live.liveIn := by
  unfold visited
  dsimp only
  rw [Function.update_eq_self_iff]
  apply Finset.Subset.antisymm
  · intro v hmem
    obtain ⟨k, hk⟩ := (ha.visited hb).derived b v (by
      unfold ControlFlow.visited
      dsimp only
      rw [Function.update_self]
      exact hmem)
    exact (h b).complete hv v hk
  · exact ha.into b

end Rounds

/-! ## The limits of the live sets -/

/-- How many values are live at the start of a block and how many at its end. -/
noncomputable def liveSize (f : Function) (b : Nat) : Nat :=
  Set.ncard {v | LiveAt f b 0 v} + Set.ncard {v | LiveAt f b (f.code b).length v}

noncomputable def liveEntries (f : Function) : Nat :=
  ((List.range f.blocks.length).map (liveSize f)).sum

theorem finite_liveAt (f : Function) (b k : Nat) : Set.Finite {v | LiveAt f b k v} := by
  apply Set.Finite.subset (f.instructions.flatMap Instruction.operands).toFinset.finite_toSet
  intro v hv
  obtain ⟨i, hi, hmem⟩ := LiveAt.used hv
  simp only [Finset.mem_coe, List.mem_toFinset, List.mem_flatMap]
  exact ⟨i, hi, hmem⟩

theorem card_le_liveAt {f : Function} {b k : Nat} {values : Finset Nat}
    (h : ∀ v ∈ values, LiveAt f b k v) : values.card ≤ Set.ncard {v | LiveAt f b k v} := by
  rw [← Set.ncard_coe_finset]
  exact Set.ncard_le_ncard h (finite_liveAt f b k)

section Limits

variable {f : Function} {reachable : Finset Nat} {live : LiveSets} {b k : Nat}

/-- A visit counts no more than is live around the block. -/
theorem sweepBlock_total (hv : Verified f) {sweep : Sweep} (hsound : Sound f sweep.live)
    (hsize : sweep.entries + liveSize f b ≤ 1000000) :
    ∃ sweep', sweepBlock f reachable sweep b = .ok sweep' ∧
      sweep'.entries ≤ sweep.entries + liveSize f b := by
  unfold sweepBlock
  split
  · have hout := card_le_liveAt (hsound.outAt (b := b))
    have hinto := card_le_liveAt (Sound.inAt hv (hsound.outAt (b := b)))
    unfold liveSize at hsize ⊢
    dsimp only
    refine ⟨_, bind_eq_ok.mpr ⟨(), rejectIf_eq_ok.mpr (by omega), rfl⟩, ?_⟩
    split <;> dsimp only <;> omega
  · exact ⟨sweep, rfl, Nat.le_add_right _ _⟩

theorem foldAll_sweepBlock_total (hv : Verified f) {blocks : List Nat} {sweep : Sweep}
    (hsound : Sound f sweep.live) (hsize : sweep.entries + (blocks.map (liveSize f)).sum ≤ 1000000) :
    ∃ sweep', foldAll (sweepBlock f reachable) sweep blocks = .ok sweep' := by
  induction blocks generalizing sweep with
  | nil => exact ⟨sweep, rfl⟩
  | cons b rest ih =>
      rw [List.map_cons, List.sum_cons] at hsize
      obtain ⟨next, hnext, hentries⟩ := @sweepBlock_total f reachable b hv sweep hsound (by omega)
      obtain ⟨r, hr⟩ := ih (sweepBlock_sound hv hsound hnext) (by omega)
      exact ⟨r, bind_eq_ok.mpr ⟨next, hnext, hr⟩⟩

theorem sweepBlocks_total (hv : Verified f) (hsound : Sound f live) (hsize : liveEntries f ≤ 1000000) :
    ∃ r, sweepBlocks f reachable live = .ok r := by
  obtain ⟨swept, hswept⟩ := @foldAll_sweepBlock_total f reachable hv (List.range f.blocks.length).reverse
    ⟨live, false, 0⟩ hsound (by
      rw [List.map_reverse, List.sum_reverse, Nat.zero_add]
      exact hsize)
  exact ⟨_, bind_eq_ok.mpr ⟨swept, hswept, rfl⟩⟩

/-- A pass over sets that satisfy their equations changes nothing. -/
theorem sweepBlock_solved {sweep sweep' : Sweep} (hsolved : b ∈ reachable → Solved f sweep.live b)
    (h : sweepBlock f reachable sweep b = .ok sweep') :
    sweep'.live = sweep.live ∧ sweep'.changed = sweep.changed := by
  unfold sweepBlock at h
  split at h
  · rename_i hb
    simp only [rejectIf_bind_eq_ok, pure_eq_ok] at h
    rcases h with ⟨-, rfl⟩
    rw [if_neg]
    · exact ⟨rfl, rfl⟩
    · rw [decide_eq_true_eq]
      intro hfresh
      rcases hfresh with hinto | hout
      · exact hinto (hsolved hb).2.symm
      · exact hout (hsolved hb).1.symm
  · cases h
    exact ⟨rfl, rfl⟩

theorem sweepBlocks_of_solved (hv : Verified f) (hsound : Sound f live) (hsize : liveEntries f ≤ 1000000)
    (hsolved : ∀ b ∈ reachable, Solved f live b) : sweepBlocks f reachable live = .ok none := by
  obtain ⟨r, hr⟩ := @sweepBlocks_total f reachable live hv hsound hsize
  unfold sweepBlocks at hr ⊢
  obtain ⟨swept, hfold, -⟩ := bind_eq_ok.mp hr
  have hsame : swept.live = live ∧ swept.changed = false := by
    refine foldAll_preserves (I := fun s => s.live = live ∧ s.changed = false) ?_ ⟨rfl, rfl⟩ hfold
    intro s b t hI ht
    have hstay := sweepBlock_solved (fun hb => hI.1 ▸ hsolved b hb) ht
    exact ⟨hstay.1.trans hI.1, hstay.2.trans hI.2⟩
  rw [hfold, ok_bind, hsame.2]
  rfl

/-! ## The round limit of the live sets -/

/-- The state of the iteration behind a number of rounds: facts have spread over
fewer edges than that, and behind one round more than there are blocks the sets
at the ends of the blocks have followed. -/
structure Rounded (f : Function) (k : Nat) (live : LiveSets) : Prop where
  ascending : Ascending f live
  sound : Sound f live
  accounts : ∀ j < k, ∀ c, AccountsLive f j c live
  followed : f.blocks.length < k → ∀ b, Reached (flow f) f.entry b → live.liveOut b = outAt f live b

theorem Rounded.start (f : Function) : Rounded f 0 ⟨fun _ => ∅, fun _ => ∅⟩ where
  ascending := ⟨fun _ => Finset.empty_subset _, fun _ => Finset.empty_subset _, fun _ _ hv => absurd hv (by simp)⟩
  sound := ⟨by simp, by simp⟩
  accounts j hj := absurd hj (Nat.not_lt_zero j)
  followed hlt := absurd hlt (Nat.not_lt_zero _)

theorem Rounded.spread (hv : Verified f) (h : Rounded f k live) (hk : f.blocks.length ≤ k) (c : Nat) :
    AccountsLive f (f.blocks.length - 1) c live := by
  have hpos := hv.lt_of_reached .start
  exact h.accounts _ (by omega) c

theorem Rounded.solved (hv : Verified f) (h : Rounded f k live) (hk : f.blocks.length < k)
    (hb : Reached (flow f) f.entry b) : Solved f live b := by
  refine ⟨h.followed hk b hb, ?_⟩
  have hstay := congrFun (visited_liveIn hv h.ascending (h.spread hv hk.le) hb) b
  unfold visited at hstay
  dsimp only at hstay
  rw [Function.update_self] at hstay
  exact hstay.symm

/-- A pass takes every fact over one more edge. -/
theorem Rounded.round (hv : Verified f) (hreach : reachableBlocks f = .ok reachable) (h : Rounded f k live)
    {live' : LiveSets} (hs : sweepBlocks f reachable live = .ok (some live')) : Rounded f (k + 1) live' := by
  have hsound := sweepBlocks_sound hv h.sound hs
  unfold sweepBlocks at hs
  obtain ⟨swept, hfold, hs⟩ := bind_eq_ok.mp hs
  have hlive : swept.live = live' := by
    simp only [pure_eq_ok] at hs
    split at hs
    · exact Option.some.inj hs
    · cases hs
  subst hlive
  have hcases : ∀ s b t, sweepBlock f reachable s b = .ok t →
      (Reached (flow f) f.entry b ∧ t.live = visited f s.live b) ∨
        (¬ Reached (flow f) f.entry b ∧ t.live = s.live) := by
    intro s b t ht
    rw [← mem_reachableBlocks hreach]
    exact sweepBlock_live ht
  have hascending : ∀ s, ∀ b ∈ (List.range f.blocks.length).reverse, ∀ t, Ascending f s.live →
      sweepBlock f reachable s b = .ok t → Ascending f t.live := by
    intro s b _ t hI ht
    rcases hcases s b t ht with ⟨hb, heq⟩ | ⟨-, heq⟩ <;> rw [heq]
    · exact hI.visited hb
    · exact hI
  have hkeep : ∀ j s, ∀ b ∈ (List.range f.blocks.length).reverse, ∀ t, Ascending f s.live →
      sweepBlock f reachable s b = .ok t → ∀ c, AccountsLive f j c s.live → AccountsLive f j c t.live := by
    intro j s b _ t hI ht c hc
    rcases hcases s b t ht with ⟨hb, heq⟩ | ⟨-, heq⟩ <;> rw [heq]
    · exact fun v hlive => hI.grow b c (hc v hlive)
    · exact hc
  have hspread := foldAll_advances (fun s => Ascending f s.live)
    (fun c s => ∀ j < k, AccountsLive f j c s.live) (fun c s => AccountsLive f k c s.live) hascending
    (fun s b hb t hI ht c hc j hj => hkeep j s b hb t hI ht c (hc j hj))
    (fun s b hb t hI ht c hc => hkeep k s b hb t hI ht c hc)
    (fun s b _ t hI hall ht => by
      rcases hcases s b t ht with ⟨hb, heq⟩ | ⟨hb, heq⟩ <;> rw [heq]
      · exact visited_accounts fun j hj c => hall c j hj
      · exact fun v hlive => absurd hlive.reached hb)
    h.ascending (fun c j hj => h.accounts j hj c) hfold
  have hall : ∀ c, AccountsLive f k c swept.live := by
    intro c v hlive
    exact hspread.2 c (List.mem_reverse.mpr (List.mem_range.mpr (hv.lt_of_reached hlive.reached))) v hlive
  refine ⟨hspread.1, hsound, ?_, ?_⟩
  · intro j hj c
    rcases Nat.lt_succ_iff_lt_or_eq.mp hj with hlt | heq
    · intro v hlive
      exact hall c v (hlive.mono hlt.le)
    · rw [heq]
      exact hall c
  · intro hlt b hb
    -- the sets at the starts are complete, so each visit stores the final set
    have hstay := h.spread hv (Nat.lt_succ_iff.mp hlt)
    have hfollow := foldAll_advances
      (fun s => Ascending f s.live ∧ s.live.liveIn = live.liveIn)
      (fun _ _ => True)
      (fun c s => Reached (flow f) f.entry c → s.live.liveOut c = outAt f live c)
      (fun s c hc t hI ht => by
        refine ⟨hascending s c hc t hI.1 ht, ?_⟩
        rcases hcases s c t ht with ⟨hr, heq⟩ | ⟨-, heq⟩ <;> rw [heq]
        · rw [visited_liveIn hv hI.1 ?_ hr]
          · exact hI.2
          · intro d v hlive
            rw [hI.2]
            exact hstay d v hlive
        · exact hI.2)
      (fun _ _ _ _ _ _ _ _ => trivial)
      (fun s c _ t hI ht d hd hr => by
        rcases hcases s c t ht with ⟨-, heq⟩ | ⟨-, heq⟩ <;> rw [heq]
        · unfold visited
          dsimp only
          by_cases hsame : d = c
          · rw [hsame, Function.update_self]
            unfold outAt
            rw [hI.2]
          · rw [Function.update_of_ne hsame]
            exact hd hr
        · exact hd hr)
      (fun s c _ t hI _ ht hr => by
        rcases hcases s c t ht with ⟨-, heq⟩ | ⟨hno, -⟩
        · rw [heq]
          unfold visited
          dsimp only
          rw [Function.update_self]
          unfold outAt
          rw [hI.2]
        · exact absurd hr hno)
      ⟨h.ascending, rfl⟩ (fun _ => trivial) hfold
    have hout := hfollow.2 b (List.mem_reverse.mpr (List.mem_range.mpr (hv.lt_of_reached hb))) hb
    rw [hout]
    unfold outAt
    rw [hfollow.1.2]

/-- The round limit never stops the search for live values. -/
theorem liveSets_total (hv : Verified f) (hreach : reachableBlocks f = .ok reachable)
    (hsize : liveEntries f ≤ 1000000) : ∃ live, liveSets f reachable = .ok live :=
  loop_within (P := Rounded f) (fun _ _ hP => sweepBlocks_total hv hP.sound hsize)
    (fun _ _ _ hP hs => hP.round hv hreach hs)
    (fun _ hP => sweepBlocks_of_solved hv hP.sound hsize fun _ hb =>
      hP.solved hv (Nat.lt_succ_self _) ((mem_reachableBlocks hreach).mp hb))
    (Rounded.start f)

end Limits

end ControlFlow

open ControlFlow

/-! ## The relations of the analysis -/

/-- The sizes up to which the analysis is meant to work. -/
structure WithinLimits (f : Function) : Prop where
  blocks : f.blocks.length ≤ 8192
  values : f.valueCount ≤ 100000
  live : liveEntries f ≤ 1000000

/-- Every hardware loop says where it goes back to. -/
def ExposedLoops (f : Function) : Prop :=
  ∀ i ∈ f.instructions, i.opcode = .hardwareLoop ∨ i.opcode = .hardwareLoopEnd → i.targets ≠ []

instance (f : Function) : Decidable (ExposedLoops f) := inferInstanceAs (Decidable (∀ i ∈ f.instructions, _))

/-- What the analysis says about a function, in terms of its walks. -/
structure Textbook (f : Function) (cfg : FlowAnalysis) : Prop where
  dominates : ∀ d b, cfg.dominates d b = true ↔
    Reached (flow f) f.entry b ∧ Dominates (flow f) f.entry d b
  parent : ∀ b p, cfg.immediateDominator b = some p ↔
    Reached (flow f) f.entry b ∧ ImmediatelyDominates (flow f) f.entry p b
  children : ∀ b p, b ∈ cfg.children p ↔ cfg.immediateDominator b = some p
  tree : ∀ d b, Reached (flow f) f.entry b →
    (Dominates (flow f) f.entry d b ↔ Relation.ReflTransGen (fun p c => c ∈ cfg.children p) d b)
  frontier : ∀ x y, (y = f.entry → ¬ ∃! p, flow f p f.entry) →
    (y ∈ cfg.frontier x ↔ InFrontier (flow f) f.entry x y)
  liveIn : ∀ b v, v ∈ cfg.liveIn b ↔ LiveAt f b 0 v
  liveOut : ∀ b v, v ∈ cfg.liveOut b ↔ LiveAt f b (f.code b).length v

theorem checkEdges_ok {f : Function} (hv : Verified f) (hl : WithinLimits f) {i : Instruction}
    (hi : i ∈ f.instructions) : checkEdges f i = .ok () ↔
      (i.opcode = .hardwareLoop ∨ i.opcode = .hardwareLoopEnd → i.targets ≠ []) := by
  unfold checkEdges
  simp only [rejectIf_bind_eq_ok, rejectIf_eq_ok, not_and, not_exists, ne_eq]
  constructor
  · intro h
    exact h.1
  · intro h
    refine ⟨h, ?_⟩
    intro _ target htarget hbad
    obtain ⟨b, hb⟩ := mem_instructions.mp hi
    obtain ⟨k, hk⟩ := List.mem_iff_getElem?.mp hb
    obtain ⟨_, -, hscanned⟩ := hv.scannedAt hk
    have hlt := hscanned.targets target htarget
    have hblocks := hl.blocks
    unfold badTarget invalidBlock at hbad
    omega

section Textbook

variable {f : Function} {cfg : FlowAnalysis}

theorem mem_liveIn_iff (hv : Verified f) {reachable : Finset Nat} (hreach : reachableBlocks f = .ok reachable)
    {live : LiveSets} (hlive : liveSets f reachable = .ok live) (b v : Nat) :
    v ∈ live.liveIn b ↔ LiveAt f b 0 v := by
  obtain ⟨hsound, hstop⟩ := loop_eq_ok (I := Sound f)
    (fun a c ha hn => sweepBlocks_sound hv ha hn) ⟨by simp, by simp⟩ hlive
  have hsolved : ∀ c, Reached (flow f) f.entry c → Solved f live c := fun c hc =>
    sweepBlocks_solved hstop (hv.lt_of_reached hc) ((mem_reachableBlocks hreach).mpr hc)
  constructor
  · exact hsound.into b v
  · intro h
    have hb := hsolved b (hv.reached_of_liveAt h)
    have hbefore := mem_liveBefore_of_liveAt hv hsolved h
    rw [hb.2, ← hb.1, inAt_eq]
    exact hbefore

theorem textbook_of_flowAnalysis (hv : Verified f) (h : flowAnalysis f = .ok cfg) : Textbook f cfg := by
  have hcontrol : controlFlow f = .ok cfg.toControlFlow := by
    rw [controlFlow_eq, h]
    rfl
  unfold flowAnalysis at h
  simp only [rejectIf_bind_eq_ok] at h
  rcases h with ⟨-, h⟩
  obtain ⟨_, -, h⟩ := bind_eq_ok.mp h
  obtain ⟨reachable, hreach, h⟩ := bind_eq_ok.mp h
  obtain ⟨sets, hsets, h⟩ := bind_eq_ok.mp h
  obtain ⟨loops, -, h⟩ := bind_eq_ok.mp h
  obtain ⟨live, hlive, h⟩ := bind_eq_ok.mp h
  cases h
  obtain ⟨exact_sets, hsets', hexact⟩ := dominatorSets_exact hv hreach
  rw [hsets] at hsets'
  cases hsets'
  refine ⟨?_, ?_, ?_, ?_, ?_, ?_, ?_⟩
  · intro d b
    unfold FlowAnalysis.dominates
    rw [Bool.and_eq_true, decide_eq_true_eq, decide_eq_true_eq]
    dsimp only
    rw [hexact.reach]
    constructor
    · intro hboth
      exact ⟨hboth.1, (hexact.mem b hboth.1 d).mp hboth.2⟩
    · intro hboth
      exact ⟨hboth.1, (hexact.mem b hboth.1 d).mpr hboth.2⟩
  · exact fun b p => hexact.idom_eq
  · exact fun b p => hexact.mem_children.trans hexact.idom_eq.symm
  · exact fun d b hb => hexact.ancestors hb
  · intro x y hentry
    dsimp only
    rw [mem_frontiers hv hreach hexact]
    constructor
    · intro hboth
      exact hboth.1
    · intro hfrontier
      refine ⟨hfrontier, fun heq hone => hentry heq ?_⟩
      rw [heq, length_predecessors_eq_one] at hone
      exact hone
  · exact fun b v => mem_liveIn_iff hv hreach hlive b v
  · intro b v
    have hout := mem_liveBefore_iff hv hcontrol (Nat.le_refl (f.code b).length) (v := v)
    rw [List.drop_length] at hout
    exact hout

/-- The dominator tree is a tree. -/
theorem nodeTree (hv : Verified f) (h : flowAnalysis f = .ok cfg) :
    NodeTree cfg.children f.entry f.blocks.length := by
  have ht := textbook_of_flowAnalysis hv h
  have hparent : ∀ {p c}, c ∈ cfg.children p → cfg.immediateDominator c = some p := fun hc => (ht.children _ _).mp hc
  have hreached : ∀ {p c}, c ∈ cfg.children p → Reached (flow f) f.entry c := fun hc => ((ht.parent _ _).mp (hparent hc)).1
  refine ⟨?_, ?_, ?_, ?_, ?_⟩
  · intro p
    unfold flowAnalysis at h
    simp only [rejectIf_bind_eq_ok] at h
    obtain ⟨_, -, h⟩ := bind_eq_ok.mp h.2
    obtain ⟨reachable, -, h⟩ := bind_eq_ok.mp h
    obtain ⟨sets, -, h⟩ := bind_eq_ok.mp h
    obtain ⟨loops, -, h⟩ := bind_eq_ok.mp h
    obtain ⟨live, -, h⟩ := bind_eq_ok.mp h
    cases h
    exact List.nodup_range.filter _
  · intro p q c hp hq
    exact Option.some.inj ((hparent hp).symm.trans (hparent hq))
  · exact hv.entry_lt
  · intro p c hc
    exact hv.lt_of_reached (hreached hc)
  · intro p hroot
    have hstrict := ((ht.parent _ _).mp (hparent hroot)).2.strict
    exact hstrict.1 (.start hstrict.2.symm)

/-- Within the limits only a hidden hardware loop stops the analysis. -/
theorem flowAnalysis_ok_iff (hv : Verified f) (hl : WithinLimits f) :
    (∃ cfg, flowAnalysis f = .ok cfg) ↔ ExposedLoops f := by
  unfold flowAnalysis ExposedLoops
  have hpos := hv.lt_of_reached .start
  have hblocks := hl.blocks
  have hvalues := hl.values
  constructor
  · intro h
    obtain ⟨cfg, h⟩ := h
    simp only [rejectIf_bind_eq_ok] at h
    obtain ⟨_, hcheck, -⟩ := bind_eq_ok.mp h.2
    intro i hi
    exact (checkEdges_ok hv hl hi).mp (checkAll_eq_ok.mp hcheck i hi)
  · intro h
    have hcheck : checkAll (checkEdges f) f.instructions = .ok () :=
      checkAll_eq_ok.mpr fun i hi => (checkEdges_ok hv hl hi).mpr (h i hi)
    obtain ⟨reachable, hreach⟩ := reachableBlocks_total hv
    obtain ⟨sets, hsets, -⟩ := dominatorSets_exact hv hreach
    obtain ⟨loops, hloops⟩ := naturalLoops_total f reachable sets
    obtain ⟨live, hlive⟩ := liveSets_total hv hreach hl.live
    simp only [rejectIf_bind_eq_ok]
    exact ⟨_, by omega, bind_eq_ok.mpr ⟨(), hcheck, bind_eq_ok.mpr ⟨reachable, hreach,
      bind_eq_ok.mpr ⟨sets, hsets, bind_eq_ok.mpr ⟨loops, hloops,
        bind_eq_ok.mpr ⟨live, hlive, rfl⟩⟩⟩⟩⟩⟩

end Textbook

/-- Within its limits the analysis of an accepted function fails for a hidden
hardware loop and nothing else, and what it computes are the relations of the
textbook. -/
theorem flowAnalysis_textbook {m : Module} {f : Function} (h : verify m = .ok ()) (hf : f ∈ m.functions)
    (hl : WithinLimits f) :
    ((∃ cfg, flowAnalysis f = .ok cfg) ↔ ExposedLoops f) ∧
      ∀ cfg, flowAnalysis f = .ok cfg → Textbook f cfg := by
  have hv := verified_of_verifyFunction (verifyFunction_of_verify h hf)
  exact ⟨flowAnalysis_ok_iff hv hl, fun cfg hcfg => textbook_of_flowAnalysis hv hcfg⟩

/-- An upper bound that can be computed. -/
theorem liveEntries_le (f : Function) :
    liveEntries f ≤ f.blocks.length * (2 * (f.instructions.flatMap Instruction.operands).toFinset.card) := by
  have hcard : ∀ b k, Set.ncard {v | LiveAt f b k v} ≤
      (f.instructions.flatMap Instruction.operands).toFinset.card := by
    intro b k
    rw [← Set.ncard_coe_finset]
    apply Set.ncard_le_ncard _ (Finset.finite_toSet _)
    intro v hv
    obtain ⟨i, hi, hmem⟩ := LiveAt.used hv
    simp only [Finset.mem_coe, List.mem_toFinset, List.mem_flatMap]
    exact ⟨i, hi, hmem⟩
  unfold liveEntries
  have hsum := List.sum_le_card_nsmul ((List.range f.blocks.length).map (liveSize f))
    (2 * (f.instructions.flatMap Instruction.operands).toFinset.card) (by
      intro n hn
      obtain ⟨b, -, rfl⟩ := List.mem_map.mp hn
      unfold liveSize
      have hstart := hcard b 0
      have hend := hcard b (f.code b).length
      omega)
  rw [List.length_map, List.length_range, smul_eq_mul] at hsum
  exact hsum

theorem withinLimits_of_operands {f : Function} (hblocks : f.blocks.length ≤ 8192) (hvalues : f.valueCount ≤ 100000)
    (hlive : f.blocks.length * (2 * (f.instructions.flatMap Instruction.operands).toFinset.card) ≤ 1000000) :
    WithinLimits f :=
  ⟨hblocks, hvalues, (liveEntries_le f).trans hlive⟩

/-- A loop back to the entry from one block. -/
def entryBackedge : Function where
  name := "f"
  returnType := { base := .void }
  entry := 0
  valueCount := 1
  blocks :=
    [{ id := 0
       instructions :=
        [{ opcode := .branch
           targets := [1] }] },
      { id := 1
        instructions :=
        [{ opcode := .call
           type := { base := .bool
                     sizeInBytes := 1 }
           result := 1
           symbol := "g" },
          { opcode := .condBranch
            operands := [1]
            targets := [0, 2] }] },
      { id := 2
        instructions :=
        [{ opcode := .returnVoid }] }]

/-- A loop whose end follows its setup in one block. -/
def hiddenLoop : Function where
  name := "f"
  returnType := { base := .void }
  entry := 0
  valueCount := 1
  blocks :=
    [{ id := 0
       instructions :=
        [{ opcode := .constant
           type := { base := .word
                     sizeInBytes := 2 }
           result := 1
           immediate := 3 },
          { opcode := .hardwareLoop
            operands := [1]
            loopId := 1 },
          { opcode := .hardwareLoopEnd
            loopId := 1 },
          { opcode := .returnVoid }] }]

/-- The analysis of a hidden loop fails, and the entry is missing in its own
frontier. -/
theorem flowAnalysis_entryBackedge :
    (verify { functions := [hiddenLoop] } = .ok () ∧ WithinLimits hiddenLoop ∧
      ∀ cfg, flowAnalysis hiddenLoop ≠ .ok cfg) ∧
    verify { functions := [entryBackedge] } = .ok () ∧ WithinLimits entryBackedge ∧
      ∃ cfg, flowAnalysis entryBackedge = .ok cfg ∧
        InFrontier (flow entryBackedge) entryBackedge.entry 0 0 ∧ 0 ∉ cfg.frontier 0 := by
  have hhidden : verify { functions := [hiddenLoop] } = .ok () := by decide +kernel
  have hbackedge : verify { functions := [entryBackedge] } = .ok () := by decide +kernel
  have hlimits : WithinLimits hiddenLoop :=
    withinLimits_of_operands (by decide +kernel) (by decide +kernel) (by decide +kernel)
  have hlimits' : WithinLimits entryBackedge :=
    withinLimits_of_operands (by decide +kernel) (by decide +kernel) (by decide +kernel)
  refine ⟨⟨hhidden, hlimits, ?_⟩, hbackedge, hlimits', ?_⟩
  · intro cfg hcfg
    have hv := verified_of_verifyFunction (verifyFunction_of_verify hhidden List.mem_cons_self)
    exact absurd ((flowAnalysis_ok_iff hv hlimits).mp ⟨cfg, hcfg⟩) (by decide +kernel)
  · have hv := verified_of_verifyFunction (verifyFunction_of_verify hbackedge List.mem_cons_self)
    obtain ⟨cfg, hcfg⟩ := (flowAnalysis_ok_iff hv hlimits').mpr (by decide +kernel)
    have hfrontier : (flowAnalysis entryBackedge).map (fun cfg => cfg.frontier 0) = .ok [] := by
      decide +kernel
    have hback : flow entryBackedge 1 0 := mem_predecessors.mp (by decide +kernel)
    refine ⟨cfg, hcfg, ⟨⟨1, hback, entry_dominates 1⟩, ?_⟩, ?_⟩
    · exact fun hstrict => hstrict.2 rfl
    · rw [hcfg] at hfrontier
      have hnone : cfg.frontier 0 = [] := Except.ok.inj hfrontier
      rw [hnone]
      exact List.not_mem_nil

theorem flowAnalysis_textbook_entryBackedge :
    ((∃ cfg, flowAnalysis entryBackedge = .ok cfg) ↔ ExposedLoops entryBackedge) ∧
      ∀ cfg, flowAnalysis entryBackedge = .ok cfg → Textbook entryBackedge cfg :=
  flowAnalysis_textbook (m := { functions := [entryBackedge] }) (by decide +kernel) List.mem_cons_self
    (withinLimits_of_operands (by decide +kernel) (by decide +kernel) (by decide +kernel))

end Disco.IR
