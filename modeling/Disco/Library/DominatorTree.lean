import Disco.Library.Flow
import Disco.Library.Rounds

/-! # Dominator trees and dominance frontiers

From dominator sets: the immediate dominator of a node is its strict dominator
with the most dominators itself, the frontier of a node is found by climbing
immediate dominators from the predecessors of the joins. Each definition is
followed by what it means for walks.
-/

namespace Disco.Library

section Relation

variable {edge : Nat → Nat → Prop} {entry : Nat}

def StrictlyDominates (edge : Nat → Nat → Prop) (entry d b : Nat) : Prop :=
  Dominates edge entry d b ∧ d ≠ b

/-- The strict dominator that every other one dominates. -/
structure ImmediatelyDominates (edge : Nat → Nat → Prop) (entry d b : Nat) : Prop where
  strict : StrictlyDominates edge entry d b
  nearest : ∀ c, StrictlyDominates edge entry c b → Dominates edge entry c d

/-- Where dominance ends: a predecessor is dominated, the node not strictly. -/
def InFrontier (edge : Nat → Nat → Prop) (entry x y : Nat) : Prop :=
  (∃ p, edge p y ∧ Dominates edge entry x p) ∧ ¬ StrictlyDominates edge entry x y

/-- What dominates the only predecessor of a node strictly dominates the node. -/
theorem strictlyDominates_of_single {x p y : Nat} (h : Dominates edge entry x p)
    (hsingle : ∀ a, edge a y → a = p) (hne : y ≠ entry) (hr : Reached edge entry y) :
    StrictlyDominates edge entry x y := by
  refine ⟨?_, ?_⟩
  · intro havoids
    cases havoids with
    | start => exact hne rfl
    | next before step =>
        rw [hsingle _ step] at before
        exact h before
  · intro heq
    rw [heq] at h
    rcases reached_first hr y with havoids | hentry | ⟨a, havoids, hstep⟩
    · exact Dominates.refl y havoids
    · exact hne hentry
    · rw [hsingle a hstep] at havoids
      exact h havoids

end Relation

/-! ## The tree -/

section Tree

variable (reachable : Finset Nat) (dom : Nat → Finset Nat) (count entry : Nat)

/-- The strict dominator with the most dominators, the entry to begin with. -/
def nearestDominator (b : Nat) : Nat :=
  (List.range count).foldl (fun parent d =>
    if d ≠ b ∧ d ∈ dom b ∧ (dom d).card > (dom parent).card then d else parent) entry

def immediateDominator (b : Nat) : Option Nat :=
  if b ∈ reachable ∧ b ≠ entry then some (nearestDominator dom count entry b) else none

def dominatorChildren (p : Nat) : List Nat :=
  (List.range count).filter fun b => immediateDominator reachable dom count entry b = some p

/-- The nodes from a runner up to, and without, the place to stop at. -/
def climb (idom : Nat → Option Nat) (stop : Option Nat) : Nat → Option Nat → List Nat
  | 0, _ => []
  | _ + 1, none => []
  | fuel + 1, some runner =>
      if some runner = stop then [] else runner :: climb idom stop fuel (idom runner)

/-- What `dom` and `reachable` are about. -/
structure DominatorSets (edge : Nat → Nat → Prop) : Prop where
  reach : ∀ b, b ∈ reachable ↔ Reached edge entry b
  mem : ∀ b, Reached edge entry b → ∀ d, d ∈ dom b ↔ Dominates edge entry d b
  bounded : ∀ b, Reached edge entry b → b < count

variable {reachable dom count entry} {edge : Nat → Nat → Prop}

/-- Strict dominators have fewer dominators. -/
theorem DominatorSets.card_lt (h : DominatorSets reachable dom count entry edge) {a b : Nat}
    (hstrict : StrictlyDominates edge entry a b) (hr : Reached edge entry b) :
    (dom a).card < (dom b).card := by
  have hra := hstrict.1.reached hr
  apply Finset.card_lt_card
  rw [Finset.ssubset_iff_of_subset]
  · refine ⟨b, (h.mem b hr b).mpr (.refl b), ?_⟩
    rw [h.mem a hra]
    exact fun hba => hstrict.2 (hstrict.1.antisymm hba hra)
  · intro d hd
    rw [h.mem a hra] at hd
    exact (h.mem b hr d).mpr (hd.trans hstrict.1)

theorem DominatorSets.card_le (h : DominatorSets reachable dom count entry edge) {b : Nat}
    (hr : Reached edge entry b) : (dom b).card ≤ count := by
  have hsub : dom b ⊆ Finset.range count := by
    intro d hd
    exact Finset.mem_range.mpr (h.bounded d (((h.mem b hr d).mp hd).reached hr))
  have hcard := Finset.card_le_card hsub
  rw [Finset.card_range] at hcard
  exact hcard

theorem nearestDominator_spec {b : Nat} {nodes : List Nat} {start : Nat} (hstart : start ≠ b ∧ start ∈ dom b) :
    let found := nodes.foldl (fun parent d =>
      if d ≠ b ∧ d ∈ dom b ∧ (dom d).card > (dom parent).card then d else parent) start
    (found ≠ b ∧ found ∈ dom b) ∧ (dom start).card ≤ (dom found).card ∧
      ∀ d ∈ nodes, d ≠ b → d ∈ dom b → (dom d).card ≤ (dom found).card := by
  induction nodes generalizing start with
  | nil => exact ⟨hstart, le_rfl, fun _ hd => absurd hd List.not_mem_nil⟩
  | cons d rest ih =>
      rw [List.foldl_cons]
      split
      · rename_i hbetter
        rcases ih ⟨hbetter.1, hbetter.2.1⟩ with ⟨hfound, hle, hall⟩
        refine ⟨hfound, by omega, ?_⟩
        intro c hc hne hmem
        rcases List.mem_cons.mp hc with rfl | hc
        · exact hle
        · exact hall c hc hne hmem
      · rename_i hworse
        rcases ih hstart with ⟨hfound, hle, hall⟩
        refine ⟨hfound, hle, ?_⟩
        intro c hc hne hmem
        rcases List.mem_cons.mp hc with rfl | hc
        · have hcard : (dom c).card ≤ (dom start).card := by
            by_contra hmore
            exact hworse ⟨hne, hmem, by omega⟩
          omega
        · exact hall c hc hne hmem

/-- The immediate dominator is what its name says. -/
theorem DominatorSets.immediate (h : DominatorSets reachable dom count entry edge) {b : Nat}
    (hr : Reached edge entry b) (hne : b ≠ entry) :
    ImmediatelyDominates edge entry (nearestDominator dom count entry b) b := by
  have hstart : entry ≠ b ∧ entry ∈ dom b :=
    ⟨Ne.symm hne, (h.mem b hr entry).mpr (entry_dominates b)⟩
  have hspec := @nearestDominator_spec dom b (List.range count) entry hstart
  dsimp only at hspec
  rcases hspec with ⟨⟨hfound, hmem⟩, -, hall⟩
  have hdom := (h.mem b hr _).mp hmem
  refine ⟨⟨hdom, hfound⟩, ?_⟩
  intro c hc
  have hcr := hc.1.reached hr
  rcases hc.1.total hdom hr with hgood | hbad
  · exact hgood
  · -- a strict dominator below the one that was found would have more dominators
    by_cases heq : nearestDominator dom count entry b = c
    · rw [heq]
      exact .refl c
    · have hlt := h.card_lt ⟨hbad, heq⟩ hcr
      have hle := hall c (List.mem_range.mpr (h.bounded c hcr)) hc.2 ((h.mem b hr c).mpr hc.1)
      omega

theorem DominatorSets.idom_eq (h : DominatorSets reachable dom count entry edge) {b p : Nat} :
    immediateDominator reachable dom count entry b = some p ↔
      Reached edge entry b ∧ ImmediatelyDominates edge entry p b := by
  unfold immediateDominator
  constructor
  · intro hsome
    split at hsome
    · rename_i hcondition
      have hr := (h.reach b).mp hcondition.1
      have himmediate := h.immediate hr hcondition.2
      rw [Option.some.inj hsome] at himmediate
      exact ⟨hr, himmediate⟩
    · cases hsome
  · intro hspec
    rcases hspec with ⟨hr, himmediate⟩
    have hne : b ≠ entry := by
      intro heq
      rw [heq] at himmediate
      exact himmediate.strict.2 himmediate.strict.1.of_entry
    rw [if_pos ⟨(h.reach b).mpr hr, hne⟩]
    have hfound := h.immediate hr hne
    have hleft := hfound.nearest p himmediate.strict
    have hright := himmediate.nearest _ hfound.strict
    exact congrArg some (hright.antisymm hleft (hfound.strict.1.reached hr))

theorem DominatorSets.idom_none (h : DominatorSets reachable dom count entry edge) {b : Nat}
    (hr : Reached edge entry b) :
    immediateDominator reachable dom count entry b = none ↔ b = entry := by
  unfold immediateDominator
  constructor
  · intro hnone
    by_contra hne
    rw [if_pos ⟨(h.reach b).mpr hr, hne⟩] at hnone
    cases hnone
  · intro heq
    exact if_neg fun hcondition => hcondition.2 heq

theorem DominatorSets.mem_children (h : DominatorSets reachable dom count entry edge) {b p : Nat} :
    b ∈ dominatorChildren reachable dom count entry p ↔
      Reached edge entry b ∧ ImmediatelyDominates edge entry p b := by
  unfold dominatorChildren
  rw [List.mem_filter, List.mem_range, decide_eq_true_eq, h.idom_eq]
  exact ⟨fun hboth => hboth.2, fun hboth => ⟨h.bounded b hboth.1, hboth⟩⟩

/-- Dominators are the ancestors in the tree. -/
theorem DominatorSets.ancestors (h : DominatorSets reachable dom count entry edge) {d b : Nat}
    (hr : Reached edge entry b) : Dominates edge entry d b ↔
      Relation.ReflTransGen
        (fun p c => c ∈ dominatorChildren reachable dom count entry p) d b := by
  constructor
  · intro hdom
    induction hcard : (dom b).card using Nat.strong_induction_on generalizing b with
    | _ n ih =>
        by_cases heq : d = b
        · rw [heq]
        · have hne : b ≠ entry := by
            intro hentry
            rw [hentry] at hdom heq
            exact heq hdom.of_entry
          have himmediate := h.immediate hr hne
          have hparent := himmediate.strict.1.reached hr
          have hlt := h.card_lt himmediate.strict hr
          refine .tail (ih _ (by omega) hparent (himmediate.nearest d ⟨hdom, heq⟩) rfl) ?_
          exact h.mem_children.mpr ⟨hr, himmediate⟩
  · intro hchain
    induction hchain with
    | refl => exact .refl d
    | tail _ step ih =>
        rcases h.mem_children.mp step with ⟨_, himmediate⟩
        exact (ih (himmediate.strict.1.reached hr)).trans himmediate.strict.1

/-! ## Frontiers -/

/-- What climbing from a predecessor of `b` up to its immediate dominator visits. -/
theorem DominatorSets.mem_climb (h : DominatorSets reachable dom count entry edge) {b : Nat}
    (hb : Reached edge entry b) {x : Nat} (fuel : Nat) : ∀ r, Reached edge entry r →
      (∀ s, immediateDominator reachable dom count entry b = some s → Dominates edge entry s r) →
      (dom r).card ≤ fuel →
      (x ∈ climb (immediateDominator reachable dom count entry)
          (immediateDominator reachable dom count entry b) fuel (some r) ↔
        Dominates edge entry x r ∧ ¬ StrictlyDominates edge entry x b) := by
  induction fuel with
  | zero =>
      intro r hr _ hcard
      have hmem := (h.mem r hr r).mpr (.refl r)
      have hpos := Finset.card_pos.mpr ⟨r, hmem⟩
      omega
  | succ fuel ih =>
      intro r hr hstop hcard
      unfold climb
      split
      · rename_i hsame
        -- the immediate dominator of `b`: whatever dominates it strictly dominates `b`
        have himmediate := (h.idom_eq.mp hsame.symm).2
        simp only [List.not_mem_nil, false_iff, not_and, not_not]
        intro hx
        refine ⟨hx.trans himmediate.strict.1, ?_⟩
        intro heq
        rw [heq] at hx
        exact himmediate.strict.2 (himmediate.strict.1.antisymm hx hr)
      · rename_i hdiff
        have hnot : ¬ StrictlyDominates edge entry r b := by
          intro hstrict
          have hne : b ≠ entry := by
            intro heq
            rw [heq] at hstrict
            exact hstrict.2 hstrict.1.of_entry
          have himmediate := h.immediate hb hne
          have hsome := h.idom_eq.mpr ⟨hb, himmediate⟩
          have heq := (himmediate.nearest r hstrict).antisymm (hstop _ hsome) hr
          exact hdiff (by rw [hsome, heq])
        rw [List.mem_cons]
        cases hidom : immediateDominator reachable dom count entry r with
        | none =>
            have hentry := (h.idom_none hr).mp hidom
            have hnil : x ∉ climb (immediateDominator reachable dom count entry)
                (immediateDominator reachable dom count entry b) fuel none := by
              cases fuel <;> exact List.not_mem_nil
            constructor
            · intro hx
              have heq := hx.resolve_right hnil
              rw [heq]
              exact ⟨.refl r, hnot⟩
            · intro hx
              rw [hentry] at hx ⊢
              exact .inl hx.1.of_entry
        | some q =>
            rcases h.idom_eq.mp hidom with ⟨_, himmediate⟩
            have hq := himmediate.strict.1.reached hr
            have hlt := h.card_lt himmediate.strict hr
            rw [ih q hq ?_ (by omega)]
            · constructor
              · intro hx
                rcases hx with heq | hx
                · rw [heq]
                  exact ⟨.refl r, hnot⟩
                · exact ⟨hx.1.trans himmediate.strict.1, hx.2⟩
              · intro hx
                by_cases heq : x = r
                · exact .inl heq
                · exact .inr ⟨himmediate.nearest x ⟨hx.1, heq⟩, hx.2⟩
            · intro s hs
              refine himmediate.nearest s ⟨hstop s hs, ?_⟩
              intro heq
              exact hdiff (by rw [hs, heq])

end Tree

/-! ## The rounds of the iteration

A round carries every walk that avoids a node over one more edge. Walks need at
most `count - 1` edges, so a round later nothing changes.
-/

section Iteration

variable {ε : Type} {edge : Nat → Nat → Prop} {predecessors : Nat → List Nat} {reachable : Finset Nat}
  {entry count : Nat} {sets : Nat → Finset Nat}

/-- What the iteration is given. -/
structure FlowGraph (edge : Nat → Nat → Prop) (predecessors : Nat → List Nat)
    (reachable : Finset Nat) (entry count : Nat) : Prop where
  reach : ∀ b, b ∈ reachable ↔ Reached edge entry b
  pred : ∀ a b, a ∈ predecessors b ↔ edge a b
  bounded : ∀ b, Reached edge entry b → b < count

/-- Walks that avoid a node, by their length. -/
abbrev AvoidsWithin (edge : Nat → Nat → Prop) (entry d : Nat) : Nat → Nat → Prop :=
  Within (fun x => x = entry ∧ entry ≠ d) fun a b => edge a b ∧ b ≠ d

theorem AvoidsWithin.avoids {d k b : Nat} (h : AvoidsWithin edge entry d k b) : Avoids edge entry d b := by
  induction h with
  | start mem =>
      rw [mem.1]
      exact .start mem.2
  | next _ step ih => exact .next ih step.1 step.2

theorem Avoids.within {d b : Nat} (h : Avoids edge entry d b) : ∃ k, AvoidsWithin edge entry d k b := by
  induction h with
  | start ne => exact ⟨0, .start ⟨rfl, ne⟩⟩
  | next _ step ne ih =>
      obtain ⟨k, hk⟩ := ih
      exact ⟨k + 1, .next hk ⟨step, ne⟩⟩

/-- No set holds a node that a short walk avoids. -/
def AccountsFor (edge : Nat → Nat → Prop) (entry k : Nat) (b : Nat) (sets : Nat → Finset Nat) : Prop :=
  ∀ d, AvoidsWithin edge entry d k b → d ∉ sets b

/-- No set has lost a dominator. -/
def KeepsDominators (edge : Nat → Nat → Prop) (entry : Nat) (sets : Nat → Finset Nat) : Prop :=
  ∀ b, Reached edge entry b → ∀ d, Dominates edge entry d b → d ∈ sets b

theorem mem_common {nodes : List Nat} {d : Nat} (hsome : nodes ≠ []) (h : ∀ p ∈ nodes, d ∈ sets p) :
    d ∈ common sets nodes := by
  induction nodes with
  | nil => exact absurd rfl hsome
  | cons p rest ih =>
      cases rest with
      | nil => exact h p List.mem_cons_self
      | cons q others =>
          exact Finset.mem_inter.mpr ⟨h p List.mem_cons_self,
            ih (List.cons_ne_nil _ _) fun r hr => h r (List.mem_cons_of_mem _ hr)⟩

/-- A dominator is the node, or dominates the predecessors. -/
theorem FlowGraph.mem_dominatorsAt (hg : FlowGraph edge predecessors reachable entry count)
    (hkeep : KeepsDominators edge entry sets) {b d : Nat} (hb : Reached edge entry b) (hne : b ≠ entry)
    (hdom : Dominates edge entry d b) : d ∈ dominatorsAt predecessors reachable sets b := by
  unfold dominatorsAt
  rw [Finset.mem_insert]
  by_cases heq : d = b
  · exact .inl heq
  · right
    apply mem_common
    · obtain ⟨a, ha, hstep⟩ : ∃ a, Reached edge entry a ∧ edge a b := by
        cases hb with
        | start => exact absurd rfl hne
        | next before step => exact ⟨_, before, step⟩
      intro hnil
      have hmem : a ∈ (predecessors b).filter (· ∈ reachable) :=
        List.mem_filter.mpr ⟨(hg.pred a b).mpr hstep, by simpa using (hg.reach a).mpr ha⟩
      rw [hnil] at hmem
      cases hmem
    · intro p hp
      rw [List.mem_filter, hg.pred, decide_eq_true_eq, hg.reach] at hp
      exact hkeep p hp.2 d (hdom.predecessor hp.1 (Ne.symm heq))

/-- One node of a pass. -/
def visitDominators (predecessors : Nat → List Nat) (reachable : Finset Nat) (entry : Nat)
    (sets : Nat → Finset Nat) (b : Nat) : Nat → Finset Nat :=
  if b ∈ reachable ∧ b ≠ entry ∧ dominatorsAt predecessors reachable sets b ≠ sets b then
    Function.update sets b (dominatorsAt predecessors reachable sets b)
  else sets

theorem foldAll_visitDominators {nodes : List Nat} {changed : Bool} :
    foldAll (fun sets b => (.ok (visitDominators predecessors reachable entry sets b) : Except ε _)) sets
      nodes = .ok (dominatorSweep predecessors reachable entry nodes (sets, changed)).1 := by
  induction nodes generalizing sets changed with
  | nil => rfl
  | cons b rest ih =>
      unfold foldAll dominatorSweep visitDominators
      dsimp only
      rw [ok_bind]
      split
      · exact ih
      · exact ih

theorem visitDominators_sub (hdesc : Descending predecessors reachable entry sets) (b c : Nat) :
    visitDominators predecessors reachable entry sets b c ⊆ sets c := by
  unfold visitDominators
  split
  · rename_i hcondition
    by_cases heq : c = b
    · rw [heq, Function.update_self]
      exact hdesc.above b hcondition.1 hcondition.2.1
    · rw [Function.update_of_ne heq]
  · exact Finset.Subset.refl _

theorem visitDominators_descending (hdesc : Descending predecessors reachable entry sets) (b : Nat) :
    Descending predecessors reachable entry (visitDominators predecessors reachable entry sets b) := by
  unfold visitDominators
  split
  · rename_i hcondition
    exact hdesc.update hcondition.1 hcondition.2.1
  · exact hdesc

theorem FlowGraph.visit_keeps (hg : FlowGraph edge predecessors reachable entry count)
    (hkeep : KeepsDominators edge entry sets) (b : Nat) :
    KeepsDominators edge entry (visitDominators predecessors reachable entry sets b) := by
  intro c hc d hdom
  unfold visitDominators
  split
  · rename_i hcondition
    by_cases heq : c = b
    · rw [heq, Function.update_self]
      rw [heq] at hc hdom
      exact hg.mem_dominatorsAt hkeep hc hcondition.2.1 hdom
    · rw [Function.update_of_ne heq]
      exact hkeep c hc d hdom
  · exact hkeep c hc d hdom

/-- What a visit accounts for. -/
theorem FlowGraph.visit_accounts (hg : FlowGraph edge predecessors reachable entry count)
    (hdesc : Descending predecessors reachable entry sets) {k : Nat}
    (h : ∀ c, AccountsFor edge entry k c sets) (b : Nat) :
    AccountsFor edge entry (k + 1) b (visitDominators predecessors reachable entry sets b) := by
  intro d hd hmem
  have hvisited := visitDominators_descending hdesc b
  have hreach := (hg.reach b).mpr hd.avoids.reached
  have hentry : d ≠ b := by
    cases hd with
    | start mem =>
        rw [mem.1]
        exact mem.2.symm
    | next _ step => exact step.2.symm
  by_cases heq : b = entry
  · subst heq
    rw [hvisited.entry_eq hreach, Finset.mem_singleton] at hmem
    exact hentry hmem
  · have hequation : visitDominators predecessors reachable entry sets b b =
        dominatorsAt predecessors reachable sets b := by
      unfold visitDominators
      split
      · rw [Function.update_self]
      · rename_i hcondition
        by_contra hdiff
        exact hcondition ⟨hreach, heq, fun hsame => hdiff hsame.symm⟩
    rw [hequation] at hmem
    rcases Finset.mem_insert.mp hmem with hsame | hcommon
    · exact hentry hsame
    · cases hd with
      | start mem => exact heq mem.1
      | @next _ a _ before step =>
          refine h a d before (mem_common_of_mem hcommon (List.mem_filter.mpr ⟨?_, ?_⟩))
          · exact (hg.pred a b).mpr step.1
          · simpa using (hg.reach a).mpr (AvoidsWithin.avoids before).reached

/-- The state of the iteration behind a number of rounds. -/
structure Iterated (edge : Nat → Nat → Prop) (predecessors : Nat → List Nat) (reachable : Finset Nat)
    (entry k : Nat) (sets : Nat → Finset Nat) : Prop where
  descending : Descending predecessors reachable entry sets
  keeps : KeepsDominators edge entry sets
  accounts : ∀ b, AccountsFor edge entry k b sets

/-- The pass over all nodes of the iteration. -/
def dominatorPass (predecessors : Nat → List Nat) (reachable : Finset Nat) (entry count : Nat)
    (sets : Nat → Finset Nat) : Except ε (Option (Nat → Finset Nat)) :=
  let swept := dominatorSweep predecessors reachable entry (List.range count) (sets, false)
  .ok (if swept.2 then some swept.1 else none)

theorem FlowGraph.iterate (hg : FlowGraph edge predecessors reachable entry count) {k : Nat}
    (h : Iterated edge predecessors reachable entry k sets) :
    Iterated edge predecessors reachable entry (k + 1)
      (dominatorSweep predecessors reachable entry (List.range count) (sets, false)).1 := by
  have hrun := @foldAll_visitDominators Unit predecessors reachable entry sets (List.range count) false
  have hadvance := foldAll_advances
    (fun sets => Descending predecessors reachable entry sets ∧ KeepsDominators edge entry sets)
    (AccountsFor edge entry k) (AccountsFor edge entry (k + 1))
    (fun s b _ t hI ht => by
      cases ht
      exact ⟨visitDominators_descending hI.1 b, hg.visit_keeps hI.2 b⟩)
    (fun s b _ t hI ht c hc => by
      cases ht
      exact fun d hd hmem => hc d hd (visitDominators_sub hI.1 b c hmem))
    (fun s b _ t hI ht c hc => by
      cases ht
      exact fun d hd hmem => hc d hd (visitDominators_sub hI.1 b c hmem))
    (fun s b _ t hI hall ht => by
      cases ht
      exact hg.visit_accounts hI.1 hall b)
    ⟨h.descending, h.keeps⟩ h.accounts hrun
  rcases hadvance with ⟨⟨hdesc, hkeeps⟩, hall⟩
  refine ⟨hdesc, hkeeps, ?_⟩
  intro b d hd
  exact hall b (List.mem_range.mpr (hg.bounded b hd.avoids.reached)) d hd

theorem FlowGraph.iterated_start (hg : FlowGraph edge predecessors reachable entry count) :
    Iterated edge predecessors reachable entry 0
      (fun b => if b ∉ reachable then ∅ else if b = entry then {entry} else reachable) := by
  have hentry : entry ∈ reachable := (hg.reach entry).mpr .start
  refine ⟨Descending.start, ?_, ?_⟩
  · intro b hb d hdom
    dsimp only
    rw [if_neg (not_not.mpr ((hg.reach b).mpr hb))]
    split
    · rename_i heq
      rw [heq] at hdom
      exact Finset.mem_singleton.mpr hdom.of_entry
    · exact (hg.reach d).mpr (hdom.reached hb)
  · intro b d hd
    cases hd with
    | start mem =>
        rw [mem.1]
        dsimp only
        rw [if_neg (not_not.mpr hentry), if_pos rfl, Finset.mem_singleton]
        exact mem.2.symm

/-- Behind `count - 1` rounds the sets are exact. -/
theorem FlowGraph.exact (hg : FlowGraph edge predecessors reachable entry count)
    (h : Iterated edge predecessors reachable entry (count - 1) sets) :
    DominatorSets reachable sets count entry edge := by
  refine ⟨hg.reach, ?_, hg.bounded⟩
  intro b hb d
  constructor
  · intro hmem havoids
    obtain ⟨k, hk⟩ := havoids.within
    exact h.accounts b d (hk.bound fun l x hx => hg.bounded x (AvoidsWithin.avoids hx).reached) hmem
  · exact h.keeps b hb d

theorem dominatorSweep_of_fixed {nodes : List Nat} (h : ∀ b ∈ nodes, b ∈ reachable → b ≠ entry →
    dominatorsAt predecessors reachable sets b = sets b) :
    dominatorSweep predecessors reachable entry nodes (sets, false) = (sets, false) := by
  induction nodes with
  | nil => rfl
  | cons b rest ih =>
      unfold dominatorSweep
      dsimp only
      rw [if_neg fun hcondition => hcondition.2.2 (h b List.mem_cons_self hcondition.1 hcondition.2.1)]
      exact ih fun c hc => h c (List.mem_cons_of_mem _ hc)

/-- The iteration ends within as many rounds as there are nodes, with the
dominators. -/
theorem FlowGraph.dominators (hg : FlowGraph edge predecessors reachable entry count) {fuel : Nat}
    (hfuel : count ≤ fuel) {exhausted : ε} :
    ∃ sets, loop (dominatorPass predecessors reachable entry count) exhausted fuel
        (fun b => if b ∉ reachable then ∅ else if b = entry then {entry} else reachable) = .ok sets ∧
      DominatorSets reachable sets count entry edge := by
  have hpos := hg.bounded entry .start
  have hend : ∀ sets, Iterated edge predecessors reachable entry (count - 1) sets →
      (dominatorPass predecessors reachable entry count sets : Except ε _) = .ok none := by
    intro sets h
    have hsets := hg.exact h
    unfold dominatorPass
    rw [dominatorSweep_of_fixed]
    · rfl
    · intro b _ hb hne
      have hr := (hg.reach b).mp hb
      apply Finset.Subset.antisymm (h.descending.above b hb hne)
      intro d hd
      exact hg.mem_dominatorsAt h.keeps hr hne ((hsets.mem b hr d).mp hd)
  have hstep : ∀ k sets next, Iterated edge predecessors reachable entry k sets →
      (dominatorPass predecessors reachable entry count sets : Except ε _) = .ok (some next) →
      Iterated edge predecessors reachable entry (k + 1) next := by
    intro k sets next h hnext
    unfold dominatorPass at hnext
    dsimp only at hnext
    split at hnext
    · cases hnext
      exact hg.iterate h
    · cases hnext
  obtain ⟨sets, hloop⟩ := @loop_within ε _ (dominatorPass predecessors reachable entry count) exhausted
    (Iterated edge predecessors reachable entry) (count - 1) (fun _ _ _ => ⟨_, rfl⟩) hstep hend
    _ hg.iterated_start
  refine ⟨sets, loop_mono (by omega) hloop, ?_⟩
  have hkept : ∀ s t, KeepsDominators edge entry s →
      (dominatorPass predecessors reachable entry count s : Except ε _) = .ok (some t) →
      KeepsDominators edge entry t := by
    intro s t hs ht
    unfold dominatorPass at ht
    dsimp only at ht
    split at ht
    · cases ht
      have hrun := @foldAll_visitDominators Unit predecessors reachable entry s (List.range count) false
      refine foldAll_preserves (I := KeepsDominators edge entry) ?_ hs hrun
      intro _ b _ hI hn
      cases hn
      exact hg.visit_keeps hI b
    · cases ht
  obtain ⟨hkeeps, -⟩ := loop_eq_ok hkept hg.iterated_start.keeps hloop
  rcases loop_dominators_eq_ok hloop with ⟨hdesc, hfix⟩
  refine ⟨hg.reach, ?_, hg.bounded⟩
  intro b hb d
  refine ⟨fun hmem => ?_, hkeeps b hb d⟩
  exact hdesc.dominates hfix ((hg.reach entry).mpr .start)
    (fun a c ha hac => (hg.reach c).mpr (.next ((hg.reach a).mp ha) hac))
    (fun a c hac => (hg.pred a c).mpr hac) (fun c hc => hg.bounded c ((hg.reach c).mp hc)) hmem

end Iteration

end Disco.Library
