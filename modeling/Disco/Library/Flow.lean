import Disco.Library.Loop

/-! # Flow graphs: reachability and dominance

Nodes are numbers, edges a relation. A node `d` dominates `b` when no walk from
the entry reaches `b` without visiting `d`. The algorithms are the usual ones:
a worklist that marks what it reaches, and the descending iteration of
dominator sets; each comes with the fact that its result is what its name says.
-/

namespace Disco.Library

section Relation

variable {edge edge' : Nat → Nat → Prop} {entry : Nat}

/-- Reachable from the entry. -/
inductive Reached (edge : Nat → Nat → Prop) (entry : Nat) : Nat → Prop where
  | start : Reached edge entry entry
  | next {a b : Nat} (before : Reached edge entry a) (step : edge a b) : Reached edge entry b

/-- Reachable from the entry by a walk that never visits `d`. -/
inductive Avoids (edge : Nat → Nat → Prop) (entry d : Nat) : Nat → Prop where
  | start (ne : entry ≠ d) : Avoids edge entry d entry
  | next {a b : Nat} (before : Avoids edge entry d a) (step : edge a b) (ne : b ≠ d) :
      Avoids edge entry d b

/-- Every walk from the entry to `b` visits `d`. -/
def Dominates (edge : Nat → Nat → Prop) (entry d b : Nat) : Prop := ¬ Avoids edge entry d b

theorem Avoids.reached {d b : Nat} (h : Avoids edge entry d b) : Reached edge entry b := by
  induction h with
  | start => exact .start
  | next _ step _ ih => exact .next ih step

theorem Avoids.mono (hsub : ∀ a b, edge' a b → edge a b) {d b : Nat}
    (h : Avoids edge' entry d b) : Avoids edge entry d b := by
  induction h with
  | start ne => exact .start ne
  | next _ step ne ih => exact .next ih (hsub _ _ step) ne

theorem Reached.mono (hsub : ∀ a b, edge' a b → edge a b) {b : Nat}
    (h : Reached edge' entry b) : Reached edge entry b := by
  induction h with
  | start => exact .start
  | next _ step ih => exact .next ih (hsub _ _ step)

/-- Removing edges keeps dominance. -/
theorem Dominates.mono (hsub : ∀ a b, edge' a b → edge a b) {d b : Nat}
    (h : Dominates edge entry d b) : Dominates edge' entry d b :=
  fun avoids => h (avoids.mono hsub)

theorem Dominates.refl (b : Nat) : Dominates edge entry b b := by
  intro h
  cases h with
  | start ne => exact ne rfl
  | next _ _ ne => exact ne rfl

/-- A dominator of a node other than itself dominates its predecessors. -/
theorem Dominates.predecessor {d a b : Nat} (h : Dominates edge entry d b) (hab : edge a b)
    (hne : b ≠ d) : Dominates edge entry d a :=
  fun avoids => h (.next avoids hab hne)

theorem Dominates.trans {a b c : Nat} (hab : Dominates edge entry a b)
    (hbc : Dominates edge entry b c) : Dominates edge entry a c := by
  intro hc
  -- a walk that avoids `a` also avoids `b`, or it shows how to reach `b`
  have key : ∀ x, Avoids edge entry a x → Avoids edge entry b x ∨ Avoids edge entry a b := by
    intro x hx
    induction hx with
    | start ne =>
        by_cases h : entry = b
        · exact .inr (h ▸ .start ne)
        · exact .inl (.start h)
    | @next u v before step ne ih =>
        rcases ih with ih | ih
        · by_cases h : v = b
          · exact .inr (h ▸ .next before step ne)
          · exact .inl (.next ih step h)
        · exact .inr ih
  rcases key c hc with h | h
  · exact hbc h
  · exact hab h

/-- Two reachable nodes that dominate each other are the same. -/
theorem Dominates.antisymm {a b : Nat} (hab : Dominates edge entry a b)
    (hba : Dominates edge entry b a) (hr : Reached edge entry a) : a = b := by
  by_contra hne
  have key : ∀ x, Reached edge entry x →
      (Avoids edge entry a x ∧ Avoids edge entry b x) ∨ Avoids edge entry a b ∨
        Avoids edge entry b a := by
    intro x hx
    induction hx with
    | start =>
        by_cases ha : entry = a
        · exact .inr (.inr (ha ▸ .start (fun h => hne (ha.symm.trans h))))
        · by_cases hb : entry = b
          · exact .inr (.inl (hb ▸ .start ha))
          · exact .inl ⟨.start ha, .start hb⟩
    | @next u v _ step ih =>
        rcases ih with ⟨ha, hb⟩ | ih
        · by_cases hva : v = a
          · subst hva
            exact .inr (.inr (.next hb step hne))
          · by_cases hvb : v = b
            · subst hvb
              exact .inr (.inl (.next ha step hva))
            · exact .inl ⟨.next ha step hva, .next hb step hvb⟩
        · exact .inr ih
  rcases key a hr with ⟨h, -⟩ | h | h
  · exact Dominates.refl a h
  · exact hab h
  · exact hba h

/-- What dominates a reachable node is reachable. -/
theorem Dominates.reached {d b : Nat} (h : Dominates edge entry d b)
    (hr : Reached edge entry b) : Reached edge entry d := by
  have key : ∀ x, Reached edge entry x → Avoids edge entry d x ∨ Reached edge entry d := by
    intro x hx
    induction hx with
    | start =>
        by_cases he : entry = d
        · exact .inr (he ▸ .start)
        · exact .inl (.start he)
    | @next u v before step ih =>
        rcases ih with ih | ih
        · by_cases hv : v = d
          · exact .inr (hv ▸ .next before step)
          · exact .inl (.next ih step hv)
        · exact .inr ih
  rcases key b hr with h' | h'
  · exact absurd h' h
  · exact h'

/-- The first arrival at a node comes from a walk that has not been there. -/
theorem reached_first {x : Nat} (h : Reached edge entry x) :
    ∀ y, Avoids edge entry y x ∨ y = entry ∨ ∃ a, Avoids edge entry y a ∧ edge a y := by
  intro y
  induction h with
  | start =>
      by_cases heq : entry = y
      · exact .inr (.inl heq.symm)
      · exact .inl (.start heq)
  | @next a c before hstep ih =>
      rcases ih with havoids | hrest
      · by_cases heq : c = y
        · subst heq
          exact .inr (.inr ⟨a, havoids, hstep⟩)
        · exact .inl (.next havoids hstep heq)
      · exact .inr hrest

/-- The dominators of a reachable node form a chain. -/
theorem Dominates.total {a b c : Nat} (hab : Dominates edge entry a b) (hcb : Dominates edge entry c b)
    (hr : Reached edge entry b) : Dominates edge entry a c ∨ Dominates edge entry c a := by
  by_contra hnot
  unfold Dominates at hnot
  rw [not_or, not_not, not_not] at hnot
  rcases hnot with ⟨hc, ha⟩
  have hne : a ≠ c := by
    intro heq
    rw [heq] at hc
    exact Dominates.refl c hc
  -- from the last of the two that a walk visits on, it avoids the other
  have key : ∀ x, Reached edge entry x → Avoids edge entry a x ∨ Avoids edge entry c x := by
    intro x hx
    induction hx with
    | start =>
        by_cases h : entry = a
        · exact .inr (.start (by rw [h]; exact hne))
        · exact .inl (.start h)
    | @next u v _ step ih =>
        rcases ih with hu | hu
        · by_cases h : v = a
          · exact .inr (by rw [h]; exact ha)
          · exact .inl (.next hu step h)
        · by_cases h : v = c
          · exact .inl (by rw [h]; exact hc)
          · exact .inr (.next hu step h)
  rcases key b hr with h | h
  · exact hab h
  · exact hcb h

theorem entry_dominates (b : Nat) : Dominates edge entry entry b := by
  intro h
  induction h with
  | start ne => exact ne rfl
  | next _ _ _ ih => exact ih

/-- Only the entry dominates itself. -/
theorem Dominates.of_entry {d : Nat} (h : Dominates edge entry d entry) : d = entry := by
  by_contra hne
  exact h (.start (Ne.symm hne))

end Relation

/-! ## Exploring a graph -/

section Explore

variable {ε : Type}

/-- The worklist and the marked nodes. -/
structure Exploration where
  work : List Nat
  seen : Finset Nat

namespace Exploration

/-- Mark the unmarked nodes of a list and queue them. -/
def mark (e : Exploration) : List Nat → Exploration
  | [] => e
  | s :: rest =>
      if s ∈ e.seen then e.mark rest else mark ⟨e.work ++ [s], insert s e.seen⟩ rest

/-- Take a node from the worklist and mark its successors. -/
def next (successors : Nat → List Nat) (e : Exploration) : Except ε (Option Exploration) :=
  match e.work with
  | [] => .ok none
  | b :: work => .ok (some (mark ⟨work, e.seen⟩ (successors b)))

theorem mark_seen (e : Exploration) (nodes : List Nat) (x : Nat) :
    x ∈ (e.mark nodes).seen ↔ x ∈ e.seen ∨ x ∈ nodes := by
  induction nodes generalizing e with
  | nil => simp [mark]
  | cons s rest ih =>
      unfold mark
      split
      · next h =>
          rw [ih]
          simp only [List.mem_cons]
          constructor
          · rintro (h' | h')
            · exact .inl h'
            · exact .inr (.inr h')
          · rintro (h' | rfl | h')
            · exact .inl h'
            · exact .inl h
            · exact .inr h'
      · rw [ih]
        simp only [Finset.mem_insert, List.mem_cons]
        tauto

theorem mem_mark_work (e : Exploration) (nodes : List Nat) (x : Nat) :
    x ∈ (e.mark nodes).work ↔ x ∈ e.work ∨ (x ∈ nodes ∧ x ∉ e.seen) := by
  induction nodes generalizing e with
  | nil => simp [mark]
  | cons s rest ih =>
      unfold mark
      split
      · next h =>
          rw [ih]
          by_cases hx : x = s
          · subst hx; simp [h]
          · simp [hx]
      · next h =>
          rw [ih]
          by_cases hx : x = s
          · subst hx; simp [h]
          · simp [hx]

/-- Marking moves nodes from the unmarked to the worklist. -/
theorem mark_measure {count : Nat} (e : Exploration) (nodes : List Nat)
    (hseen : e.seen ⊆ Finset.range count) (hnodes : ∀ s ∈ nodes, s < count) :
    (e.mark nodes).seen ⊆ Finset.range count ∧
      (e.mark nodes).work.length + (count - (e.mark nodes).seen.card) =
        e.work.length + (count - e.seen.card) := by
  induction nodes generalizing e with
  | nil => exact ⟨hseen, rfl⟩
  | cons s rest ih =>
      unfold mark
      split
      · exact ih e hseen fun t ht => hnodes t (List.mem_cons_of_mem _ ht)
      · next h =>
          have hs := hnodes s List.mem_cons_self
          have hins : insert s e.seen ⊆ Finset.range count := by
            intro x hx
            rcases Finset.mem_insert.mp hx with rfl | hx
            · exact Finset.mem_range.mpr hs
            · exact hseen hx
          have hcard := Finset.card_le_card hins
          rw [Finset.card_range, Finset.card_insert_of_notMem h] at hcard
          have := ih ⟨e.work ++ [s], insert s e.seen⟩ hins fun t ht =>
            hnodes t (List.mem_cons_of_mem _ ht)
          refine ⟨this.1, this.2.trans ?_⟩
          simp only [List.length_append, List.length_singleton, Finset.card_insert_of_notMem h]
          omega

/-- What the worklist still owes: marked nodes are queued or have their
successors marked. -/
structure Invariant (successors : Nat → List Nat) (entry : Nat) (e : Exploration) : Prop where
  entry_mem : entry ∈ e.seen
  queued : ∀ x ∈ e.work, x ∈ e.seen
  closed : ∀ x ∈ e.seen, x ∈ e.work ∨ ∀ y ∈ successors x, y ∈ e.seen
  reached : ∀ x ∈ e.seen, Reached (fun a b => b ∈ successors a) entry x

theorem Invariant.next {successors : Nat → List Nat} {entry : Nat} {e e' : Exploration}
    (h : e.Invariant successors entry) (hn : (e.next successors : Except ε _) = .ok (some e')) :
    e'.Invariant successors entry := by
  unfold Exploration.next at hn
  split at hn
  · cases hn
  · next b work hw =>
      cases hn
      have hb : b ∈ e.seen := h.queued b (by rw [hw]; exact List.mem_cons_self)
      constructor
      · rw [mark_seen]
        exact .inl h.entry_mem
      · intro x hx
        rw [mem_mark_work] at hx
        rw [mark_seen]
        rcases hx with hx | ⟨hx, -⟩
        · exact .inl (h.queued x (by rw [hw]; exact List.mem_cons_of_mem _ hx))
        · exact .inr hx
      · intro x hx
        rw [mark_seen] at hx
        simp only [mem_mark_work, mark_seen]
        by_cases hxb : x = b
        · subst hxb
          exact .inr fun y hy => .inr hy
        · by_cases hxs : x ∈ e.seen
          · rcases h.closed x hxs with hq | hc
            · rw [hw] at hq
              rcases List.mem_cons.mp hq with hq | hq
              · exact absurd hq hxb
              · exact .inl (.inl hq)
            · exact .inr fun y hy => .inl (hc y hy)
          · rcases hx with hx | hx
            · exact absurd hx hxs
            · exact .inl (.inr ⟨hx, hxs⟩)
      · intro x hx
        rw [mark_seen] at hx
        rcases hx with hx | hx
        · exact h.reached x hx
        · exact .next (h.reached b hb) hx

end Exploration

/-- The nodes reachable from `entry` in a graph of `count` nodes. -/
def explore (successors : Nat → List Nat) (exhausted : ε) (count entry : Nat) :
    Except ε (Finset Nat) :=
  (loop (Exploration.next successors) exhausted (count + 1) ⟨[entry], {entry}⟩).map
    Exploration.seen

variable {successors : Nat → List Nat} {exhausted : ε} {count entry : Nat}

theorem explore_eq_ok {seen : Finset Nat} (h : explore successors exhausted count entry = .ok seen) :
    entry ∈ seen ∧ (∀ x ∈ seen, ∀ y ∈ successors x, y ∈ seen) ∧
      ∀ x ∈ seen, Reached (fun a b => b ∈ successors a) entry x := by
  unfold explore at h
  cases hl : loop (Exploration.next successors) exhausted (count + 1) ⟨[entry], {entry}⟩ with
  | error e => rw [hl] at h; cases h
  | ok e =>
      rw [hl] at h
      cases h
      have hstart : Exploration.Invariant successors entry ⟨[entry], {entry}⟩ := by
        constructor
        · exact Finset.mem_singleton_self entry
        · intro x hx
          simpa using hx
        · intro x hx
          exact .inl (by simpa using hx)
        · intro x hx
          rw [Finset.mem_singleton.mp hx]
          exact .start
      obtain ⟨hinv, hstop⟩ := loop_eq_ok (I := Exploration.Invariant successors entry)
        (fun a b ha hn => ha.next hn) hstart hl
      have hwork : e.work = [] := by
        unfold Exploration.next at hstop
        split at hstop
        · assumption
        · cases hstop
      refine ⟨hinv.entry_mem, fun x hx y hy => ?_, hinv.reached⟩
      rcases hinv.closed x hx with hq | hc
      · rw [hwork] at hq
        cases hq
      · exact hc y hy

/-- Exploring a graph of `count` nodes visits each at most once. -/
theorem explore_total (hentry : entry < count) (hedges : ∀ x y, y ∈ successors x → y < count) :
    ∃ seen, explore successors exhausted count entry = .ok seen := by
  have hstep : ∀ a b : Exploration, a.seen ⊆ Finset.range count →
      (Exploration.next successors a : Except ε _) = .ok (some b) →
      b.seen ⊆ Finset.range count ∧
        b.work.length + (count - b.seen.card) < a.work.length + (count - a.seen.card) := by
    intro a b ha hn
    unfold Exploration.next at hn
    split at hn
    · cases hn
    · next x work hw =>
        cases hn
        have := Exploration.mark_measure ⟨work, a.seen⟩ (successors x) ha (hedges x)
        refine ⟨this.1, ?_⟩
        rw [this.2, hw]
        simp
  have htotal : ∀ a : Exploration, a.seen ⊆ Finset.range count →
      ∃ r, (Exploration.next successors a : Except ε _) = .ok r := by
    intro a _
    unfold Exploration.next
    split <;> exact ⟨_, rfl⟩
  have hstart : (⟨[entry], {entry}⟩ : Exploration).seen ⊆ Finset.range count := by
    simpa using hentry
  obtain ⟨r, hr⟩ : ∃ r, loop (Exploration.next successors) exhausted (count + 1)
      ⟨[entry], {entry}⟩ = .ok r :=
    loop_terminates _ htotal hstep hstart (by simp; omega)
  exact ⟨r.seen, by rw [explore, hr]; rfl⟩

end Explore

/-! ## Flooding

The depth-first form: a node is marked when it is taken from the stack, and its
successors are pushed then. Nodes marked beforehand are not entered.
-/

section Flood

variable {ε : Type}

namespace Exploration

/-- Take the top of the stack; mark it and push its successors if it is new. -/
def visit (successors : Nat → List Nat) (e : Exploration) : Except ε (Option Exploration) :=
  match e.work with
  | [] => .ok none
  | b :: work =>
      .ok (some (if b ∈ e.seen then ⟨work, e.seen⟩
        else ⟨(successors b).reverse ++ work, insert b e.seen⟩))

/-- What the stack still owes, from what was pushed and marked at the start. -/
structure Flooding (successors : Nat → List Nat) (work : List Nat) (seen : Finset Nat)
    (e : Exploration) : Prop where
  keeps : seen ⊆ e.seen
  pushed : ∀ x ∈ work, x ∈ e.seen ∨ x ∈ e.work
  closed : ∀ x ∈ e.seen, x ∈ seen ∨ ∀ y ∈ successors x, y ∈ e.seen ∨ y ∈ e.work
  sound : ∀ x, x ∈ e.seen ∨ x ∈ e.work →
    x ∈ seen ∨ ∃ w ∈ work, Reached (fun a b => b ∈ successors a) w x

variable {successors : Nat → List Nat} {work : List Nat} {seen : Finset Nat}

theorem Flooding.start : Flooding successors work seen ⟨work, seen⟩ := by
  refine ⟨Finset.Subset.refl _, fun x hx => .inr hx, fun x hx => .inl hx, ?_⟩
  rintro x (hx | hx)
  · exact .inl hx
  · exact .inr ⟨x, hx, .start⟩

theorem Flooding.visit {e e' : Exploration} (h : e.Flooding successors work seen)
    (hv : (e.visit successors : Except ε _) = .ok (some e')) :
    e'.Flooding successors work seen := by
  unfold Exploration.visit at hv
  split at hv
  · cases hv
  · next b rest hw =>
      cases hv
      have htop : b ∈ e.work := by
        rw [hw]
        exact List.mem_cons_self
      have hsplit : ∀ x, x ∈ e.work → x = b ∨ x ∈ rest := by
        intro x hx
        rw [hw] at hx
        exact List.mem_cons.mp hx
      have hrest : ∀ x ∈ rest, x ∈ e.work := by
        intro x hx
        rw [hw]
        exact List.mem_cons_of_mem _ hx
      by_cases hb : b ∈ e.seen
      · simp only [hb, if_true]
        have hdrop : ∀ x, x ∈ e.seen ∨ x ∈ e.work → x ∈ e.seen ∨ x ∈ rest := by
          rintro x (hx | hx)
          · exact .inl hx
          · rcases hsplit x hx with rfl | hx
            · exact .inl hb
            · exact .inr hx
        refine ⟨h.keeps, fun x hx => hdrop x (h.pushed x hx), ?_, ?_⟩
        · intro x hx
          rcases h.closed x hx with hold | hall
          · exact .inl hold
          · exact .inr fun y hy => hdrop y (hall y hy)
        · rintro x (hx | hx)
          · exact h.sound x (.inl hx)
          · exact h.sound x (.inr (hrest x hx))
      · simp only [hb, if_false]
        have hkeep : ∀ x, x ∈ e.seen ∨ x ∈ e.work →
            x ∈ insert b e.seen ∨ x ∈ (successors b).reverse ++ rest := by
          rintro x (hx | hx)
          · exact .inl (Finset.mem_insert_of_mem hx)
          · rcases hsplit x hx with rfl | hx
            · exact .inl (Finset.mem_insert_self _ _)
            · exact .inr (List.mem_append_right _ hx)
        refine ⟨h.keeps.trans (Finset.subset_insert _ _), fun x hx => hkeep x (h.pushed x hx),
          ?_, ?_⟩
        · intro x hx
          rcases Finset.mem_insert.mp hx with rfl | hx
          · exact .inr fun y hy => .inr (List.mem_append_left _ (List.mem_reverse.mpr hy))
          · rcases h.closed x hx with hold | hall
            · exact .inl hold
            · exact .inr fun y hy => hkeep y (hall y hy)
        · intro x hx
          have hcases : (x ∈ e.seen ∨ x ∈ e.work) ∨ x ∈ successors b := by
            rcases hx with hx | hx
            · rcases Finset.mem_insert.mp hx with rfl | hx
              · exact .inl (.inr htop)
              · exact .inl (.inl hx)
            · rcases List.mem_append.mp hx with hx | hx
              · exact .inr (List.mem_reverse.mp hx)
              · exact .inl (.inr (hrest x hx))
          rcases hcases with hx | hx
          · exact h.sound x hx
          · rcases h.sound b (.inr htop) with hold | ⟨w, hwork, hreach⟩
            · exact absurd (h.keeps hold) hb
            · exact .inr ⟨w, hwork, .next hreach hx⟩

end Exploration

variable (successors : Nat → List Nat) (exhausted : ε) (count : Nat)

/-- Mark everything reachable from a stack of nodes around the marked ones. -/
def flood (work : List Nat) (seen : Finset Nat) : Except ε (Finset Nat) :=
  (loop (Exploration.visit successors) exhausted
    (work.length + ((List.range count).map fun b => (successors b).length).sum + 1)
    ⟨work, seen⟩).map Exploration.seen

variable {successors exhausted count} {work : List Nat} {seen : Finset Nat}

theorem flood_eq_ok {result : Finset Nat}
    (h : flood successors exhausted count work seen = .ok result) :
    seen ⊆ result ∧ (∀ x ∈ work, x ∈ result) ∧
      (∀ x ∈ result, x ∈ seen ∨ ∀ y ∈ successors x, y ∈ result) ∧
      ∀ x ∈ result, x ∈ seen ∨ ∃ w ∈ work, Reached (fun a b => b ∈ successors a) w x := by
  unfold flood at h
  generalize hl : loop (Exploration.visit successors) exhausted _ ⟨work, seen⟩ = r at h
  cases r with
  | error e => cases h
  | ok e =>
      cases h
      obtain ⟨hinv, hstop⟩ := loop_eq_ok (I := Exploration.Flooding successors work seen)
        (fun a b ha hv => ha.visit hv) Exploration.Flooding.start hl
      have hwork : e.work = [] := by
        unfold Exploration.visit at hstop
        split at hstop
        · assumption
        · cases hstop
      have hempty : ∀ x, x ∈ e.seen ∨ x ∈ e.work → x ∈ e.seen := by
        intro x hx
        rw [hwork] at hx
        simpa using hx
      refine ⟨hinv.keeps, fun x hx => hempty x (hinv.pushed x hx), ?_, fun x hx =>
        hinv.sound x (.inl hx)⟩
      intro x hx
      rcases hinv.closed x hx with hold | hall
      · exact .inl hold
      · exact .inr fun y hy => hempty y (hall y hy)

/-- What the unmarked nodes may still push. -/
def owed (successors : Nat → List Nat) (count : Nat) (seen : Finset Nat) : Nat :=
  ((List.range count).map fun b => if b ∈ seen then 0 else (successors b).length).sum

theorem owed_insert {seen : Finset Nat} {b : Nat} (hb : b < count) (hnew : b ∉ seen) :
    owed successors count (insert b seen) + (successors b).length =
      owed successors count seen := by
  unfold owed
  induction count with
  | zero => omega
  | succ count ih =>
      simp only [List.range_succ, List.map_append, List.map_singleton, List.sum_append,
        List.sum_singleton]
      by_cases hlast : b = count
      · subst hlast
        have hsame : ∀ x ∈ List.range b, (if x ∈ insert b seen then 0 else (successors x).length) =
            if x ∈ seen then 0 else (successors x).length := by
          intro x hx
          have hne : x ≠ b := (List.mem_range.mp hx).ne
          simp [Finset.mem_insert, hne]
        rw [List.map_congr_left hsame]
        simp [hnew]
      · have hlt := ih (by omega)
        have hne : count ≠ b := fun h => hlast h.symm
        simp only [Finset.mem_insert, hne, false_or] at hlt ⊢
        omega

/-- Flooding a graph of `count` nodes comes to an end. -/
theorem flood_total (hwork : ∀ x ∈ work, x < count) (hnext : ∀ x y, y ∈ successors x → y < count) :
    ∃ result, flood successors exhausted count work seen = .ok result := by
  have hstep : ∀ a b : Exploration, (∀ x ∈ a.work, x < count) →
      (Exploration.visit successors a : Except ε _) = .ok (some b) →
      (∀ x ∈ b.work, x < count) ∧
        b.work.length + owed successors count b.seen <
          a.work.length + owed successors count a.seen := by
    intro a b ha hv
    unfold Exploration.visit at hv
    split at hv
    · cases hv
    · next x rest hw =>
        cases hv
        have hx : x < count := ha x (by rw [hw]; exact List.mem_cons_self)
        have hrest : ∀ y ∈ rest, y < count := fun y hy =>
          ha y (by rw [hw]; exact List.mem_cons_of_mem _ hy)
        rw [hw]
        by_cases hseen : x ∈ a.seen
        · simp only [hseen, if_true]
          refine ⟨hrest, ?_⟩
          simp
        · simp only [hseen, if_false]
          refine ⟨fun y hy => ?_, ?_⟩
          · rcases List.mem_append.mp hy with hy | hy
            · exact hnext x y (List.mem_reverse.mp hy)
            · exact hrest y hy
          · have hless : owed successors count (insert x a.seen) + (successors x).length =
                owed successors count a.seen := owed_insert hx hseen
            simp only [List.length_append, List.length_reverse, List.length_cons]
            omega
  have htotal : ∀ a : Exploration, (∀ x ∈ a.work, x < count) →
      ∃ r, (Exploration.visit successors a : Except ε _) = .ok r := by
    intro a _
    unfold Exploration.visit
    split <;> exact ⟨_, rfl⟩
  have howed : owed successors count seen ≤
      ((List.range count).map fun b => (successors b).length).sum := by
    unfold owed
    apply List.sum_le_sum
    intro x _
    split <;> omega
  have hstart : ∀ x ∈ (⟨work, seen⟩ : Exploration).work, x < count := hwork
  have hend : ∃ r, loop (Exploration.visit successors) exhausted
      (work.length + ((List.range count).map fun b => (successors b).length).sum + 1)
      ⟨work, seen⟩ = .ok r :=
    loop_terminates _ htotal hstep hstart (by simp only; omega)
  obtain ⟨r, hr⟩ := hend
  exact ⟨r.seen, by rw [flood, hr]; rfl⟩

end Flood

/-! ## Dominator sets -/

section Dominators

variable {ε : Type}

/-- The common members of the sets of some nodes; none for no nodes. -/
def common (sets : Nat → Finset Nat) : List Nat → Finset Nat
  | [] => ∅
  | [p] => sets p
  | p :: q :: rest => sets p ∩ common sets (q :: rest)

theorem mem_common_of_mem {sets : Nat → Finset Nat} {nodes : List Nat} {d p : Nat}
    (h : d ∈ common sets nodes) (hp : p ∈ nodes) : d ∈ sets p := by
  induction nodes with
  | nil => cases hp
  | cons q rest ih =>
      cases rest with
      | nil =>
          rw [List.mem_singleton.mp hp]
          exact h
      | cons r rest =>
          obtain ⟨hq, hr⟩ := Finset.mem_inter.mp h
          rcases List.mem_cons.mp hp with rfl | hp
          · exact hq
          · exact ih hr hp

theorem common_mono {sets sets' : Nat → Finset Nat} (hsub : ∀ p, sets' p ⊆ sets p)
    (nodes : List Nat) : common sets' nodes ⊆ common sets nodes := by
  induction nodes with
  | nil => exact Finset.Subset.refl _
  | cons p rest ih =>
      cases rest with
      | nil => exact hsub p
      | cons q rest => exact Finset.inter_subset_inter (hsub p) ih

theorem common_subset {sets : Nat → Finset Nat} {bound : Finset Nat} {nodes : List Nat}
    (hsub : ∀ p ∈ nodes, sets p ⊆ bound) : common sets nodes ⊆ bound := by
  cases nodes with
  | nil => exact Finset.empty_subset _
  | cons p rest =>
      intro d hd
      exact hsub p List.mem_cons_self (mem_common_of_mem hd List.mem_cons_self)

/-- A node and what its reachable predecessors have in common. -/
def dominatorsAt (predecessors : Nat → List Nat) (reachable : Finset Nat)
    (sets : Nat → Finset Nat) (b : Nat) : Finset Nat :=
  insert b (common sets ((predecessors b).filter (· ∈ reachable)))

variable (predecessors : Nat → List Nat) (reachable : Finset Nat) (entry : Nat)

/-- One pass over the nodes, in place; says whether anything changed. -/
def dominatorSweep : List Nat → (Nat → Finset Nat) × Bool → (Nat → Finset Nat) × Bool
  | [], state => state
  | b :: rest, state =>
      let updated := dominatorsAt predecessors reachable state.1 b
      if b ∈ reachable ∧ b ≠ entry ∧ updated ≠ state.1 b then
        dominatorSweep rest (Function.update state.1 b updated, true)
      else dominatorSweep rest state

/-- Sweep until a pass changes nothing. -/
def dominators (exhausted : ε) (count : Nat) : Except ε (Nat → Finset Nat) :=
  loop (fun sets =>
      let swept := dominatorSweep predecessors reachable entry (List.range count) (sets, false)
      .ok (if swept.2 then some swept.1 else none))
    exhausted (count * count + 1)
    (fun b => if b ∉ reachable then ∅ else if b = entry then {entry} else reachable)

variable {predecessors reachable entry}

theorem dominatorSweep_changed {nodes : List Nat} {sets : Nat → Finset Nat} :
    (dominatorSweep predecessors reachable entry nodes (sets, true)).2 = true := by
  induction nodes generalizing sets with
  | nil => rfl
  | cons b rest ih =>
      unfold dominatorSweep
      simp only
      split
      · exact ih
      · exact ih

/-- A pass that changes nothing found every equation satisfied. -/
theorem dominatorSweep_unchanged {nodes : List Nat} {sets : Nat → Finset Nat}
    (h : (dominatorSweep predecessors reachable entry nodes (sets, false)).2 = false) :
    ∀ b ∈ nodes, b ∈ reachable → b ≠ entry →
      dominatorsAt predecessors reachable sets b = sets b := by
  induction nodes with
  | nil => simp
  | cons c rest ih =>
      unfold dominatorSweep at h
      simp only at h
      split at h
      · rw [dominatorSweep_changed] at h
        cases h
      · next hc =>
          intro b hb hr hne
          rcases List.mem_cons.mp hb with rfl | hb
          · by_contra hdiff
            exact hc ⟨hr, hne, hdiff⟩
          · exact ih h b hb hr hne

/-- The sets only shrink, and each set keeps what its equation asks for. -/
structure Descending (predecessors : Nat → List Nat) (reachable : Finset Nat) (entry : Nat)
    (sets : Nat → Finset Nat) : Prop where
  entry_eq : entry ∈ reachable → sets entry = {entry}
  unreachable : ∀ b, b ∉ reachable → sets b = ∅
  bounded : ∀ b, sets b ⊆ reachable
  above : ∀ b ∈ reachable, b ≠ entry → dominatorsAt predecessors reachable sets b ⊆ sets b

theorem Descending.update {sets : Nat → Finset Nat}
    (h : Descending predecessors reachable entry sets) {b : Nat} (hb : b ∈ reachable)
    (hne : b ≠ entry) :
    Descending predecessors reachable entry
      (Function.update sets b (dominatorsAt predecessors reachable sets b)) := by
  have hsub : ∀ p, Function.update sets b (dominatorsAt predecessors reachable sets b) p ⊆
      sets p := by
    intro p
    by_cases hp : p = b
    · subst hp
      rw [Function.update_self]
      exact h.above p hb hne
    · rw [Function.update_of_ne hp]
  constructor
  · intro he
    rw [Function.update_of_ne (Ne.symm hne)]
    exact h.entry_eq he
  · intro p hp
    have hpb : p ≠ b := by
      intro heq
      exact hp (heq ▸ hb)
    rw [Function.update_of_ne hpb]
    exact h.unreachable p hp
  · intro p
    exact (hsub p).trans (h.bounded p)
  · intro p hp hpe
    have hmono : dominatorsAt predecessors reachable
        (Function.update sets b (dominatorsAt predecessors reachable sets b)) p ⊆
        dominatorsAt predecessors reachable sets p :=
      Finset.insert_subset_insert p (common_mono hsub _)
    by_cases hpb : p = b
    · subst hpb
      rw [Function.update_self]
      exact hmono
    · rw [Function.update_of_ne hpb]
      exact hmono.trans (h.above p hp hpe)

theorem Descending.sweep {nodes : List Nat} {sets : Nat → Finset Nat} {changed : Bool}
    (h : Descending predecessors reachable entry sets) :
    Descending predecessors reachable entry
      (dominatorSweep predecessors reachable entry nodes (sets, changed)).1 := by
  induction nodes generalizing sets changed with
  | nil => exact h
  | cons b rest ih =>
      unfold dominatorSweep
      simp only
      split
      · next hc => exact ih (h.update hc.1 hc.2.1)
      · exact ih h

/-- A pass that changes something loses members. -/
theorem Descending.sweep_measure {nodes : List Nat} {sets : Nat → Finset Nat} {changed : Bool}
    {count : Nat} (h : Descending predecessors reachable entry sets)
    (hnodes : ∀ b ∈ nodes, b < count) :
    ∑ b ∈ Finset.range count,
        ((dominatorSweep predecessors reachable entry nodes (sets, changed)).1 b).card ≤
      ∑ b ∈ Finset.range count, (sets b).card ∧
    (changed = false →
      (dominatorSweep predecessors reachable entry nodes (sets, changed)).2 = true →
      ∑ b ∈ Finset.range count,
        ((dominatorSweep predecessors reachable entry nodes (sets, changed)).1 b).card <
      ∑ b ∈ Finset.range count, (sets b).card) := by
  induction nodes generalizing sets changed with
  | nil =>
      refine ⟨le_rfl, ?_⟩
      intro hc ht
      simp [dominatorSweep, hc] at ht
  | cons b rest ih =>
      unfold dominatorSweep
      simp only
      have hrest : ∀ c ∈ rest, c < count := fun c hc => hnodes c (List.mem_cons_of_mem _ hc)
      split
      · next hc =>
          have hlt : ∑ p ∈ Finset.range count, (Function.update sets b
                (dominatorsAt predecessors reachable sets b) p).card <
              ∑ p ∈ Finset.range count, (sets p).card := by
            have hstrict : dominatorsAt predecessors reachable sets b ⊂ sets b :=
              (h.above b hc.1 hc.2.1).ssubset_of_ne hc.2.2
            refine Finset.sum_lt_sum ?_ ⟨b, Finset.mem_range.mpr (hnodes b List.mem_cons_self), ?_⟩
            · intro p _
              by_cases hp : p = b
              · subst hp
                rw [Function.update_self]
                exact Finset.card_le_card hstrict.subset
              · rw [Function.update_of_ne hp]
            · rw [Function.update_self]
              exact Finset.card_lt_card hstrict
          have hle := (@ih _ true (h.update hc.1 hc.2.1) hrest).1
          exact ⟨hle.trans hlt.le, fun _ _ => hle.trans_lt hlt⟩
      · exact ih h hrest

theorem Descending.start :
    Descending predecessors reachable entry
      (fun b => if b ∉ reachable then ∅ else if b = entry then {entry} else reachable) := by
  constructor
  · intro he
    simp [he]
  · intro b hb
    simp [hb]
  · intro b
    split
    · exact Finset.empty_subset _
    · next hb =>
        split
        · next he =>
            subst he
            simpa using hb
        · exact Finset.Subset.refl _
  · intro b hb hne
    simp only [hb, not_true, if_false, hne]
    refine Finset.insert_subset hb (common_subset ?_)
    intro p _
    split
    · exact Finset.empty_subset _
    · next hp =>
        split
        · next he =>
            subst he
            simpa using hp
        · exact Finset.Subset.refl _

variable {exhausted : ε} {count : Nat}

/-- Sweeping until nothing changes, under any bound. -/
theorem loop_dominators_eq_ok {fuel : Nat} {sets : Nat → Finset Nat}
    (h : loop (fun sets =>
        let swept := dominatorSweep predecessors reachable entry (List.range count) (sets, false)
        .ok (if swept.2 then some swept.1 else none))
      exhausted fuel (fun b => if b ∉ reachable then ∅ else if b = entry then {entry} else reachable) =
        .ok sets) :
    Descending predecessors reachable entry sets ∧
      ∀ b < count, b ∈ reachable → b ≠ entry →
        dominatorsAt predecessors reachable sets b = sets b := by
  obtain ⟨hinv, hstop⟩ := loop_eq_ok (I := Descending predecessors reachable entry)
    (by
      intro a b ha hn
      simp only [Except.ok.injEq] at hn
      split at hn
      · cases hn
        exact ha.sweep
      · cases hn) Descending.start h
  refine ⟨hinv, fun b hb => ?_⟩
  apply dominatorSweep_unchanged ?_ b (List.mem_range.mpr hb)
  simp only [Except.ok.injEq] at hstop
  split at hstop
  · cases hstop
  · next hc => simpa using hc

theorem dominators_eq_ok {sets : Nat → Finset Nat}
    (h : dominators predecessors reachable entry exhausted count = .ok sets) :
    Descending predecessors reachable entry sets ∧
      ∀ b < count, b ∈ reachable → b ≠ entry →
        dominatorsAt predecessors reachable sets b = sets b :=
  loop_dominators_eq_ok h

/-- The iteration stops: every pass but the last loses a member. -/
theorem dominators_total (hreach : reachable ⊆ Finset.range count) :
    ∃ sets, dominators predecessors reachable entry exhausted count = .ok sets := by
  unfold dominators
  refine loop_terminates (I := Descending predecessors reachable entry)
    (fun sets => ∑ b ∈ Finset.range count, (sets b).card) (fun _ _ => ⟨_, rfl⟩) ?_
    Descending.start ?_
  · intro a b ha hn
    simp only [Except.ok.injEq] at hn
    split at hn
    · next hc =>
        cases hn
        have hnodes : ∀ b ∈ List.range count, b < count := fun b hb => List.mem_range.mp hb
        exact ⟨ha.sweep, (ha.sweep_measure hnodes).2 rfl hc⟩
    · cases hn
  · have hle : ∑ b ∈ Finset.range count, ((fun b => if b ∉ reachable then ∅ else
        if b = entry then {entry} else reachable) b : Finset Nat).card ≤
        ∑ _b ∈ Finset.range count, count := by
      apply Finset.sum_le_sum
      intro b _
      have hstart : Descending predecessors reachable entry _ := Descending.start
      have hsub := hstart.bounded b
      have := Finset.card_le_card (hsub.trans hreach)
      rwa [Finset.card_range] at this
    rw [Finset.sum_const, Finset.card_range, smul_eq_mul] at hle
    exact Nat.lt_succ_of_le hle

/-- Sets that satisfy their equations hold dominators only. -/
theorem Descending.dominates {edge : Nat → Nat → Prop} {sets : Nat → Finset Nat}
    (hdesc : Descending predecessors reachable entry sets)
    (hfix : ∀ b < count, b ∈ reachable → b ≠ entry →
      dominatorsAt predecessors reachable sets b = sets b)
    (hentry : entry ∈ reachable) (hclosed : ∀ a b, a ∈ reachable → edge a b → b ∈ reachable)
    (hpred : ∀ a b, edge a b → a ∈ predecessors b) (hcount : ∀ b ∈ reachable, b < count)
    {d b : Nat} (hd : d ∈ sets b) : Dominates edge entry d b := by
  intro havoids
  have key : ∀ x, Avoids edge entry d x → x ∈ reachable ∧ d ∉ sets x := by
    intro x hx
    induction hx with
    | start ne =>
        refine ⟨hentry, ?_⟩
        rw [hdesc.entry_eq hentry, Finset.mem_singleton]
        exact ne.symm
    | @next u v _ step ne ih =>
        have hv := hclosed u v ih.1 step
        refine ⟨hv, fun hmem => ?_⟩
        by_cases hve : v = entry
        · subst hve
          rw [hdesc.entry_eq hentry, Finset.mem_singleton] at hmem
          exact ne hmem.symm
        · rw [← hfix v (hcount v hv) hv hve] at hmem
          rcases Finset.mem_insert.mp hmem with hdv | hmem
          · exact ne hdv.symm
          · exact ih.2 (mem_common_of_mem hmem
              (List.mem_filter.mpr ⟨hpred u v step, by simpa using ih.1⟩))
  exact (key b havoids).2 hd

/-- Members of the computed sets dominate. -/
theorem dominates_of_mem {edge : Nat → Nat → Prop} {sets : Nat → Finset Nat}
    (h : dominators predecessors reachable entry exhausted count = .ok sets)
    (hentry : entry ∈ reachable) (hclosed : ∀ a b, a ∈ reachable → edge a b → b ∈ reachable)
    (hpred : ∀ a b, edge a b → a ∈ predecessors b) (hcount : ∀ b ∈ reachable, b < count)
    {d b : Nat} (hd : d ∈ sets b) : Dominates edge entry d b := by
  rcases dominators_eq_ok h with ⟨hdesc, hfix⟩
  exact hdesc.dominates hfix hentry hclosed hpred hcount hd

end Dominators

end Disco.Library
