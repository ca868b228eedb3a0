import Disco.Library.Flow

/-! # Natural loops

A back edge leads to a dominator of its source, the header. The loop of a header
are the nodes from which a walk comes to a back edge without passing the header
before. The header dominates its loop, and two loops are disjoint or one is part
of the other.
-/

namespace Disco.Library

/-- A reachable jump back to a dominator. -/
structure Backedge (edge : Nat → Nat → Prop) (entry latch header : Nat) : Prop where
  reached : Reached edge entry latch
  step : edge latch header
  dominates : Dominates edge entry header latch

inductive InLoop (edge : Nat → Nat → Prop) (entry header : Nat) : Nat → Prop where
  | header {latch : Nat} (back : Backedge edge entry latch header) : InLoop edge entry header header
  | latch {latch : Nat} (back : Backedge edge entry latch header) : InLoop edge entry header latch
  | before {a b : Nat} (inside : InLoop edge entry header b) (ne : b ≠ header)
      (reached : Reached edge entry a) (step : edge a b) : InLoop edge entry header a

section Loop

variable {edge : Nat → Nat → Prop} {entry h k a b : Nat}

theorem InLoop.dominated (hb : InLoop edge entry h b) : Dominates edge entry h b := by
  induction hb with
  | header => exact .refl h
  | latch back => exact back.dominates
  | before _ ne _ step ih => exact ih.predecessor step ne

theorem InLoop.reached (hb : InLoop edge entry h b) : Reached edge entry b := by
  cases hb with
  | header back => exact back.dominates.reached back.reached
  | latch back => exact back.reached
  | before _ _ reached _ => exact reached

theorem InLoop.backedge (hb : InLoop edge entry h b) : ∃ latch, Backedge edge entry latch h := by
  induction hb with
  | header back => exact ⟨_, back⟩
  | latch back => exact ⟨_, back⟩
  | before _ _ _ _ ih => exact ih

/-- The entry is in a loop only as its header. -/
theorem InLoop.of_entry (hb : InLoop edge entry h entry) : h = entry := hb.dominated.of_entry

/-- Two headers in each other's loops are the same. -/
theorem InLoop.header_unique (hh : InLoop edge entry k h) (hk : InLoop edge entry h k) : h = k :=
  hk.dominated.antisymm hh.dominated hh.reached

/-- A node of a loop that another header dominates brings that header into the loop. -/
theorem InLoop.header_inside (hne : h ≠ k) (hdom : Dominates edge entry h k) (hb : Reached edge entry b)
    (hin : InLoop edge entry h b) (hkb : Dominates edge entry k b) : InLoop edge entry h k := by
  -- backwards along a walk to `b` until it visits `k`
  induction hb with
  | start =>
      rw [hkb.of_entry]
      exact hin
  | @next a b before step ih =>
      by_cases hsame : b = k
      · rw [← hsame]
        exact hin
      · have hheader : b ≠ h := by
          intro heq
          subst heq
          exact hne (hdom.antisymm hkb (.next before step))
        exact ih (.before hin hheader before step) (hkb.predecessor step hsame)

/-- A loop whose header is in another loop is part of it. -/
theorem InLoop.of_header (hne : h ≠ k) (hk : InLoop edge entry h k) (ha : InLoop edge entry k a) :
    InLoop edge entry h a := by
  induction ha with
  | header => exact hk
  | latch back => exact .before hk hne.symm back.reached back.step
  | @before a b inside _ reached step ih =>
      have hheader : b ≠ h := by
        intro heq
        subst heq
        exact hne (inside.header_unique hk)
      exact .before ih hheader reached step

/-- Loops with a common node are nested. -/
theorem InLoop.nested (hb : InLoop edge entry h b) (kb : InLoop edge entry k b) :
    (∀ x, InLoop edge entry k x → InLoop edge entry h x) ∨ ∀ x, InLoop edge entry h x → InLoop edge entry k x := by
  by_cases hne : h = k
  · subst hne
    exact .inl fun _ hx => hx
  · cases hb.dominated.total kb.dominated hb.reached with
    | inl hdom =>
        have hk := hb.header_inside hne hdom hb.reached kb.dominated
        exact .inl fun _ hx => .of_header hne hk hx
    | inr hdom =>
        have hh := kb.header_inside (Ne.symm hne) hdom kb.reached hb.dominated
        exact .inr fun _ hx => .of_header (Ne.symm hne) hh hx

end Loop

/-- What a flood starts from and hands on outside the nodes marked before holds
wherever it comes. -/
theorem flood_induction {ε : Type} {successors : Nat → List Nat} {exhausted : ε} {count : Nat} {work : List Nat}
    {seen result : Finset Nat} {P : Nat → Prop} (hseen : ∀ x ∈ seen, P x) (hwork : ∀ x ∈ work, P x)
    (hstep : ∀ x, P x → x ∉ seen → ∀ y ∈ successors x, P y)
    (h : flood successors exhausted count work seen = .ok result) : ∀ x ∈ result, P x := by
  unfold flood at h
  generalize hl : loop (Exploration.visit successors) exhausted _ ⟨work, seen⟩ = r at h
  cases r with
  | error e => cases h
  | ok e =>
      cases h
      have hinv := loop_eq_ok
        (I := fun e : Exploration => seen ⊆ e.seen ∧ (∀ x ∈ e.seen, P x) ∧ ∀ x ∈ e.work, P x) ?_
        ⟨Finset.Subset.refl _, hseen, hwork⟩ hl
      · exact hinv.1.2.1
      · intro a b ha hvisit
        rcases ha with ⟨hkeeps, hmarked, hwaiting⟩
        unfold Exploration.visit at hvisit
        split at hvisit
        · cases hvisit
        · next x rest hw =>
            have hx : P x := hwaiting x (by rw [hw]; exact List.mem_cons_self)
            have hrest : ∀ y ∈ rest, P y := fun y hy => hwaiting y (by rw [hw]; exact List.mem_cons_of_mem _ hy)
            cases hvisit
            split
            · exact ⟨hkeeps, hmarked, hrest⟩
            · next hnew =>
                refine ⟨hkeeps.trans (Finset.subset_insert _ _), ?_, ?_⟩
                · intro y hy
                  cases Finset.mem_insert.mp hy with
                  | inl heq => exact heq ▸ hx
                  | inr hold => exact hmarked y hold
                · intro y hy
                  cases List.mem_append.mp hy with
                  | inl hsucc => exact hstep x hx (fun hold => hnew (hkeeps hold)) y (List.mem_reverse.mp hsucc)
                  | inr hold => exact hrest y hold

end Disco.Library
