import Disco.IR.Verified

/-! # Scopes of hardware loops

What the verifier's walk over the open hardware loops establishes: every block
that is reached has one stack of open loops at its start, its operations match
that stack, and every edge of the graph hands on what they leave of it.
-/

namespace Disco.IR

open Library Verifier

/-! ## Loop operations -/

/-- No two operations of one kind on one loop. -/
def SingleLoops (sites : List Site) : Prop :=
  sites.Pairwise fun a b => isLoopOpcode b.instruction.opcode = true →
    ¬ (a.instruction.opcode = b.instruction.opcode ∧ a.instruction.loopId = b.instruction.loopId)

theorem checkShape_fresh {seen : List Site} {i : Instruction} (h : checkShape seen i = .ok ())
    (hloop : isLoopOpcode i.opcode = true) : ¬ repeatsLoop seen i := by
  unfold isLoopOpcode at hloop
  unfold checkShape at h
  rcases of_decide_eq_true hloop with hop | hop | hop
  · rw [hop] at h
    exact rejectIf_eq_ok.mp (rejectIf_bind_eq_ok.mp h).2
  · rw [hop] at h
    exact rejectIf_eq_ok.mp (rejectIf_bind_eq_ok.mp h).2
  · rw [hop] at h
    exact rejectIf_eq_ok.mp (rejectIf_bind_eq_ok.mp h).2

theorem scanInstruction_loops {f : Function} {block : BasicBlock} {seen result : List Site}
    {site : Site} (hseen : SingleLoops seen)
    (h : scanInstruction f block seen site = .ok result) : SingleLoops result := by
  obtain ⟨-, -, -, -, -, -, -, -, -, hshape, -, rfl⟩ := scanInstruction_eq_ok.mp h
  refine List.pairwise_append.mpr ⟨hseen, List.pairwise_singleton _ _, ?_⟩
  intro a ha b hb hloop hsame
  rw [List.mem_singleton.mp hb] at hloop hsame
  exact checkShape_fresh hshape hloop ⟨a, ha, hsame⟩

theorem scanBlock_loops {f : Function} {seen result : List Site} {entry : BasicBlock × Nat}
    (hseen : SingleLoops seen) (h : scanBlock f seen entry = .ok result) : SingleLoops result := by
  unfold scanBlock at h
  rw [rejectIf_bind_eq_ok, rejectIf_bind_eq_ok] at h
  obtain ⟨scanned, hscan, h⟩ := bind_eq_ok.mp h.2.2
  rw [rejectIf_bind_eq_ok, pure_eq_ok] at h
  rw [← h.2]
  exact foldAll_preserves (fun seen site next hseen => scanInstruction_loops hseen) hseen hscan

/-- The operation of a kind on a loop is the one that is found. -/
theorem loopSite_eq_some {sites : List Site} (hsingle : SingleLoops sites) {site : Site}
    (hmem : site ∈ sites) (hloop : isLoopOpcode site.instruction.opcode = true) :
    loopSite sites site.instruction.opcode site.instruction.loopId = some site := by
  unfold loopSite
  induction sites with
  | nil => cases hmem
  | cons first rest ih =>
      rw [List.find?_cons]
      rcases List.mem_cons.mp hmem with rfl | hmem
      · simp
      · have hdiff := (List.pairwise_cons.mp hsingle).1 site hmem hloop
        have hfalse : (decide (first.instruction.opcode = site.instruction.opcode) &&
            decide (first.instruction.loopId = site.instruction.loopId)) = false := by
          by_contra hboth
          rw [Bool.not_eq_false, Bool.and_eq_true, decide_eq_true_eq, decide_eq_true_eq] at hboth
          exact hdiff hboth
        rw [hfalse]
        exact ih (List.pairwise_cons.mp hsingle).2 hmem

theorem mem_loopIds {sites : List Site} {site : Site} (hmem : site ∈ sites)
    (hloop : isLoopOpcode site.instruction.opcode = true) :
    site.instruction.loopId ∈ loopIds sites := by
  unfold loopIds
  rw [List.mem_mergeSort, List.mem_dedup]
  exact List.mem_map.mpr ⟨site, List.mem_filter.mpr ⟨hmem, hloop⟩, rfl⟩

/-! ## The walk -/

/-- A block whose loops have been handed to all its successors. -/
def HandsOn (f : Function) (assigned : Nat → Option (List Nat)) (b : Nat) (scope : List Nat) : Prop :=
  ∃ active, foldAll activeLoops scope (f.code b) = .ok active ∧
    (∀ s ∈ successors f b, assigned s = some active) ∧ (successors f b = [] → active = [])

/-- What the walk still owes: blocks are pending or have been handed on. -/
structure Walking (f : Function) (walk : ScopeWalk) : Prop where
  entry : walk.assigned f.entry = some []
  pending : ∀ b ∈ walk.pending, walk.assigned b ≠ none
  owed : ∀ b scope, walk.assigned b = some scope → b ∈ walk.pending ∨ HandsOn f walk.assigned b scope

section Walk

variable {f : Function} {active : List Nat} {walk after : ScopeWalk}

/-- Assignments stay, and new ones are pending. -/
structure Grows (walk after : ScopeWalk) : Prop where
  stays : ∀ b scope, walk.assigned b = some scope → after.assigned b = some scope
  pending : ∀ b ∈ walk.pending, b ∈ after.pending
  fresh : ∀ b scope, after.assigned b = some scope → walk.assigned b = some scope ∨ b ∈ after.pending
  queued : ∀ b ∈ after.pending, b ∈ walk.pending ∨ after.assigned b ≠ none

theorem Grows.refl (walk : ScopeWalk) : Grows walk walk :=
  ⟨fun _ _ h => h, fun _ h => h, fun _ _ h => .inl h, fun _ h => .inl h⟩

theorem Grows.trans {last : ScopeWalk} (h : Grows walk after) (k : Grows after last) :
    Grows walk last := by
  refine ⟨fun b scope hb => k.stays b scope (h.stays b scope hb),
    fun b hb => k.pending b (h.pending b hb), ?_, ?_⟩
  · intro b scope hb
    rcases k.fresh b scope hb with hb | hb
    · rcases h.fresh b scope hb with hb | hb
      · exact .inl hb
      · exact .inr (k.pending b hb)
    · exact .inr hb
  · intro b hb
    rcases k.queued b hb with hb | hb
    · rcases h.queued b hb with hb | hb
      · exact .inl hb
      · cases hassigned : after.assigned b with
        | none => exact absurd hassigned hb
        | some scope =>
            rw [k.stays b scope hassigned]
            exact .inr (by simp)
    · exact .inr hb

theorem assignScope_grows {s : Nat} (h : assignScope active walk s = .ok after) :
    Grows walk after ∧ after.assigned s = some active := by
  unfold assignScope at h
  cases hs : walk.assigned s with
  | some known =>
      rw [hs] at h
      dsimp only at h
      rw [rejectIf_bind_eq_ok, not_not, pure_eq_ok] at h
      rcases h with ⟨rfl, rfl⟩
      exact ⟨.refl walk, hs⟩
  | none =>
      rw [hs] at h
      dsimp only at h
      rw [rejectIf_bind_eq_ok, pure_eq_ok] at h
      rcases h with ⟨-, rfl⟩
      have hother : ∀ b, b ≠ s → Function.update walk.assigned s (some active) b = walk.assigned b :=
        fun b hb => Function.update_of_ne hb _ _
      refine ⟨⟨?_, ?_, ?_, ?_⟩, Function.update_self _ _ _⟩
      · intro b scope hb
        have hne : b ≠ s := by
          intro heq
          rw [heq, hs] at hb
          cases hb
        exact (hother b hne).trans hb
      · intro b hb
        exact List.mem_append_left _ hb
      · intro b scope hb
        by_cases heq : b = s
        · subst heq
          exact .inr (List.mem_append_right _ (List.mem_singleton_self b))
        · exact .inl ((hother b heq).symm.trans hb)
      · intro b hb
        rcases List.mem_append.mp hb with hb | hb
        · exact .inl hb
        · rw [List.mem_singleton.mp hb]
          refine .inr ?_
          show Function.update walk.assigned s (some active) s ≠ none
          rw [Function.update_self]
          simp

/-- All successors get the loops of the block. -/
theorem assignScopes_grows {nodes : List Nat} (h : foldAll (assignScope active) walk nodes = .ok after) :
    Grows walk after ∧ ∀ s ∈ nodes, after.assigned s = some active := by
  induction nodes generalizing walk with
  | nil =>
      cases h
      exact ⟨.refl _, fun s hs => absurd hs List.not_mem_nil⟩
  | cons node rest ih =>
      obtain ⟨between, hnode, h⟩ := bind_eq_ok.mp h
      rcases assignScope_grows hnode with ⟨hfirst, hassigned⟩
      rcases ih h with ⟨hrest, hall⟩
      refine ⟨hfirst.trans hrest, ?_⟩
      intro s hs
      rcases List.mem_cons.mp hs with rfl | hs
      · exact hrest.stays s active hassigned
      · exact hall s hs

theorem HandsOn.grows {assigned later : Nat → Option (List Nat)} {b : Nat} {scope : List Nat}
    (h : HandsOn f assigned b scope)
    (hstays : ∀ b scope, assigned b = some scope → later b = some scope) : HandsOn f later b scope := by
  rcases h with ⟨active, hfold, hsuccessors, hends⟩
  exact ⟨active, hfold, fun s hs => hstays s active (hsuccessors s hs), hends⟩

theorem Walking.next (h : Walking f walk) (hnext : walkScopes f walk = .ok (some after)) :
    Walking f after := by
  unfold walkScopes at hnext
  cases hpending : walk.pending with
  | nil =>
      rw [hpending] at hnext
      cases hnext
  | cons b pending =>
      rw [hpending] at hnext
      obtain ⟨active, hactive, hnext⟩ := bind_eq_ok.mp hnext
      rw [rejectIf_bind_eq_ok] at hnext
      rcases hnext with ⟨hends, hnext⟩
      obtain ⟨last, hlast, hdone⟩ := bind_eq_ok.mp hnext
      cases hdone
      rcases assignScopes_grows hlast with ⟨hgrows, hall⟩
      have hmem : b ∈ walk.pending := by
        rw [hpending]
        exact List.mem_cons_self
      obtain ⟨scope, hscope⟩ := Option.ne_none_iff_exists'.mp (h.pending b hmem)
      rw [hscope] at hactive
      have hdone : HandsOn f after.assigned b scope := by
        refine ⟨active, hactive, hall, ?_⟩
        intro hnone
        by_contra hne
        exact hends ⟨hnone, hne⟩
      have hrest : ∀ c ∈ pending, c ∈ walk.pending := by
        intro c hc
        rw [hpending]
        exact List.mem_cons_of_mem b hc
      refine ⟨hgrows.stays _ _ h.entry, ?_, ?_⟩
      · intro c hc
        rcases hgrows.queued c hc with hc | hc
        · obtain ⟨known, hknown⟩ := Option.ne_none_iff_exists'.mp (h.pending c (hrest c hc))
          rw [hgrows.stays c known hknown]
          simp
        · exact hc
      · intro c known hc
        rcases hgrows.fresh c known hc with hold | hnew
        · rcases h.owed c known hold with hqueue | hhands
          · rw [hpending] at hqueue
            rcases List.mem_cons.mp hqueue with rfl | hqueue
            · rw [hscope] at hold
              cases hold
              exact .inr hdone
            · exact .inl (hgrows.pending c hqueue)
          · exact .inr (hhands.grows hgrows.stays)
        · exact .inl hnew

end Walk

/-! ## Accepted functions -/

/-- One stack of open loops at the start of every block that is reached. -/
structure Scoped (f : Function) (scopes : Nat → List Nat) : Prop where
  entry : scopes f.entry = []
  ends : ∀ b, Reached (flow f) f.entry b → ∃ active,
    foldAll activeLoops (scopes b) (f.code b) = .ok active ∧
      (∀ s, flow f b s → scopes s = active) ∧ (successors f b = [] → active = [])

/-- Setups and ends of a loop are both hidden or both exposed. -/
structure LoopsMatched (f : Function) : Prop where
  single : SingleLoops f.sites
  matched : ∀ setup ∈ f.sites, ∀ finish ∈ f.sites, setup.instruction.opcode = .hardwareLoop →
    finish.instruction.opcode = .hardwareLoopEnd →
    setup.instruction.loopId = finish.instruction.loopId →
    (setup.instruction.targets = [] ↔ finish.instruction.targets = [])

theorem activeLoops_other {i : Instruction} (h : isLoopOpcode i.opcode = false) (active : List Nat) :
    activeLoops active i = .ok active := by
  unfold activeLoops
  unfold isLoopOpcode at h
  have hnot := of_decide_eq_false h
  split
  · rename_i hop
    exact absurd (.inl hop) hnot
  · rename_i hop
    exact absurd (.inr (.inl hop)) hnot
  · rename_i hop
    exact absurd (.inr (.inr hop)) hnot
  · rfl

theorem foldAll_activeLoops_other {code : List Instruction}
    (h : ∀ i ∈ code, isLoopOpcode i.opcode = false) (active : List Nat) :
    foldAll activeLoops active code = .ok active := by
  induction code with
  | nil => rfl
  | cons i rest ih =>
      unfold foldAll
      rw [activeLoops_other (h i List.mem_cons_self), ok_bind]
      exact ih fun i hi => h i (List.mem_cons_of_mem _ hi)

theorem scoped_of_checkScopes {f : Function} {sets : Nat → Finset Nat}
    (h : checkScopes f sets = .ok ()) : ∃ scopes, Scoped f scopes := by
  obtain ⟨_, -, h⟩ := bind_eq_ok.mp h
  by_cases hids : loopIds f.sites = []
  · -- without loop operations every stack is empty
    refine ⟨fun _ => [], rfl, ?_⟩
    intro b _
    refine ⟨[], foldAll_activeLoops_other ?_ [], fun _ _ => rfl, fun _ => rfl⟩
    intro i hi
    obtain ⟨site, hsite, -, rfl⟩ := mem_sites_of_mem_code hi
    by_contra hloop
    have hmem := mem_loopIds hsite (by simpa using hloop)
    rw [hids] at hmem
    cases hmem
  · rw [if_neg hids] at h
    obtain ⟨walk, hwalk, -⟩ := bind_eq_ok.mp h
    have hstart : Walking f { pending := [f.entry]
                              assigned := Function.update (fun _ => none) f.entry (some []) } := by
      have hentry : Function.update (fun _ => none) f.entry (some []) f.entry = some ([] : List Nat) :=
        Function.update_self _ _ _
      refine ⟨hentry, ?_, ?_⟩
      · intro b hb
        rw [List.mem_singleton.mp hb]
        dsimp only
        rw [hentry]
        simp
      · intro b scope hb
        by_cases heq : b = f.entry
        · exact .inl (List.mem_singleton.mpr heq)
        · dsimp only at hb
          rw [Function.update_of_ne heq] at hb
          cases hb
    obtain ⟨hdone, hstop⟩ := loop_eq_ok (I := Walking f) (fun _ _ ha hn => ha.next hn) hstart hwalk
    have hpending : walk.pending = [] := by
      unfold walkScopes at hstop
      cases hlist : walk.pending with
      | nil => rfl
      | cons b pending =>
          rw [hlist] at hstop
          obtain ⟨active, -, hstop⟩ := bind_eq_ok.mp hstop
          rw [rejectIf_bind_eq_ok] at hstop
          obtain ⟨last, -, hdone⟩ := bind_eq_ok.mp hstop.2
          cases hdone
    have hhands : ∀ b scope, walk.assigned b = some scope → HandsOn f walk.assigned b scope := by
      intro b scope hb
      rcases hdone.owed b scope hb with hqueue | hhands
      · rw [hpending] at hqueue
        cases hqueue
      · exact hhands
    have hassigned : ∀ b, Reached (flow f) f.entry b → ∃ scope, walk.assigned b = some scope := by
      intro b hb
      induction hb with
      | start => exact ⟨[], hdone.entry⟩
      | next _ hstep ih =>
          obtain ⟨scope, hscope⟩ := ih
          obtain ⟨active, -, hsuccessors, -⟩ := hhands _ scope hscope
          exact ⟨active, hsuccessors _ hstep⟩
    refine ⟨fun b => (walk.assigned b).getD [], by rw [hdone.entry]; rfl, ?_⟩
    intro b hb
    obtain ⟨scope, hscope⟩ := hassigned b hb
    obtain ⟨active, hfold, hsuccessors, hends⟩ := hhands b scope hscope
    refine ⟨active, by rw [hscope]; exact hfold, ?_, hends⟩
    intro s hs
    rw [hsuccessors s hs]
    rfl

theorem matched_of_checkScopes {f : Function} {sets : Nat → Finset Nat}
    (hsingle : SingleLoops f.sites) (h : checkScopes f sets = .ok ()) : LoopsMatched f := by
  obtain ⟨_, hscopes, -⟩ := bind_eq_ok.mp h
  rw [checkAll_eq_ok] at hscopes
  refine ⟨hsingle, ?_⟩
  intro setup hsetup finish hfinish hopen hend hsame
  have hsetupLoop : isLoopOpcode setup.instruction.opcode = true := by
    rw [hopen]
    rfl
  have hfinishLoop : isLoopOpcode finish.instruction.opcode = true := by
    rw [hend]
    rfl
  have hcheck := hscopes setup.instruction.loopId (mem_loopIds hsetup hsetupLoop)
  have hfirst := loopSite_eq_some hsingle hsetup hsetupLoop
  have hsecond := loopSite_eq_some hsingle hfinish hfinishLoop
  rw [hopen] at hfirst
  rw [hend, ← hsame] at hsecond
  unfold checkScope hardwareScope at hcheck
  dsimp only at hcheck
  rw [hfirst, hsecond] at hcheck
  rw [rejectIf_bind_eq_ok, not_or] at hcheck
  have heq := not_not.mp hcheck.1.1
  rw [← List.isEmpty_iff, ← List.isEmpty_iff, heq]

/-- The scopes of an accepted function. -/
theorem scoped_of_verifyFunction {f : Function} (h : verifyFunction f = .ok ()) :
    LoopsMatched f ∧ ∃ scopes, Scoped f scopes := by
  unfold verifyFunction at h
  simp only [rejectIf_bind_eq_ok] at h
  obtain ⟨-, -, -, -, h⟩ := h
  obtain ⟨-, -, h⟩ := bind_eq_ok.mp h
  obtain ⟨-, -, h⟩ := bind_eq_ok.mp h
  obtain ⟨-, -, h⟩ := bind_eq_ok.mp h
  obtain ⟨scanned, hscan, h⟩ := bind_eq_ok.mp h
  simp only [rejectIf_bind_eq_ok] at h
  obtain ⟨-, -, h⟩ := h
  obtain ⟨reachable, -, h⟩ := bind_eq_ok.mp h
  obtain ⟨_, -, h⟩ := bind_eq_ok.mp h
  obtain ⟨sets, -, h⟩ := bind_eq_ok.mp h
  obtain ⟨_, hscopes, -⟩ := bind_eq_ok.mp h
  have hloops : SingleLoops scanned :=
    foldAll_preserves (fun seen entry next hseen => scanBlock_loops hseen) List.Pairwise.nil hscan
  have hsites : scanned = f.sites := (scanBlocks_eq_ok List.Pairwise.nil hscan).1
  rw [hsites] at hloops
  exact ⟨matched_of_checkScopes hloops hscopes, scoped_of_checkScopes hscopes⟩

end Disco.IR
