import Disco.Library.Loop
import Mathlib.Data.List.Nodup
import Mathlib.Data.List.Range
import Mathlib.Data.Finset.Card

/-! # Walking a tree with a stack

A tree is given by the children of its nodes. A stack that starts with the root
and replaces its top by the children of the top visits every node at most once,
parents before their children; the number of nodes bounds the walk.
-/

namespace Disco.Library

/-- The nodes in the order in which a stack visits them. -/
def preorder (children : Nat → List Nat) : Nat → List Nat → List Nat
  | 0, _ => []
  | _ + 1, [] => []
  | fuel + 1, b :: rest => b :: preorder children fuel (children b ++ rest)

/-- Every node below `count` is a child of at most one node, the root of none. -/
structure NodeTree (children : Nat → List Nat) (root count : Nat) : Prop where
  nodup : ∀ p, (children p).Nodup
  unique : ∀ {p q c}, c ∈ children p → c ∈ children q → p = q
  root_lt : root < count
  lt : ∀ {p c}, c ∈ children p → c < count
  orphan : ∀ p, root ∉ children p

/-- What has been visited and what waits on the stack. -/
structure Walked (children : Nat → List Nat) (root : Nat) (visited waiting : List Nat) : Prop where
  nodup : (visited ++ waiting).Nodup
  origin : ∀ c ∈ visited ++ waiting, c = root ∨ ∃ p ∈ visited, c ∈ children p
  closed : ∀ p ∈ visited, ∀ c ∈ children p, c ∈ visited ++ waiting

section Walk

variable {children : Nat → List Nat} {root count b fuel : Nat} {visited waiting rest : List Nat}

theorem Walked.start : Walked children root [] [root] where
  nodup := List.nodup_singleton root
  origin _ hc := .inl (List.mem_singleton.mp hc)
  closed _ hp := absurd hp List.not_mem_nil

theorem Walked.fresh (h : Walked children root visited (b :: rest)) : b ∉ visited := by
  have hdisjoint := List.disjoint_of_nodup_append h.nodup
  exact fun hb => hdisjoint hb List.mem_cons_self

/-- Taking the top of the stack. -/
theorem Walked.next (ht : NodeTree children root count) (h : Walked children root visited (b :: rest)) :
    Walked children root (visited ++ [b]) (children b ++ rest) := by
  have hsplit : (visited ++ b :: rest).Nodup := h.nodup
  have hseen : ∀ c ∈ children b, c ∉ visited ++ b :: rest := by
    intro c hc hmem
    cases h.origin c hmem with
    | inl hroot => exact ht.orphan b (hroot ▸ hc)
    | inr hparent =>
        obtain ⟨p, hp, hcp⟩ := hparent
        exact h.fresh (ht.unique hc hcp ▸ hp)
  have hperm : (visited ++ [b] ++ (children b ++ rest)).Perm (children b ++ (visited ++ b :: rest)) := by
    have hmove := (List.perm_append_comm_assoc (visited ++ [b]) (children b) rest)
    simpa [List.append_assoc] using hmove
  refine ⟨?_, ?_, ?_⟩
  · rw [hperm.nodup_iff, List.nodup_append']
    exact ⟨ht.nodup b, hsplit, fun c hc hmem => hseen c hc hmem⟩
  · intro c hc
    cases List.mem_append.mp (hperm.mem_iff.mp hc) with
    | inl hchild => exact .inr ⟨b, by simp, hchild⟩
    | inr hold =>
        cases h.origin c hold with
        | inl hroot => exact .inl hroot
        | inr hparent =>
            obtain ⟨p, hp, hcp⟩ := hparent
            exact .inr ⟨p, List.mem_append_left _ hp, hcp⟩
  · intro p hp c hc
    apply hperm.mem_iff.mpr
    cases List.mem_append.mp hp with
    | inl hp => exact List.mem_append_right _ (h.closed p hp c hc)
    | inr hp =>
        rw [List.mem_singleton.mp hp] at hc
        exact List.mem_append_left _ hc

theorem Walked.lt (ht : NodeTree children root count) (h : Walked children root visited waiting) :
    ∀ c ∈ visited ++ waiting, c < count := by
  intro c hc
  cases h.origin c hc with
  | inl hroot => exact hroot ▸ ht.root_lt
  | inr hparent =>
      obtain ⟨p, -, hcp⟩ := hparent
      exact ht.lt hcp

/-- There are never more nodes than the tree has. -/
theorem Walked.length_le (ht : NodeTree children root count) (h : Walked children root visited waiting) :
    visited.length + waiting.length ≤ count := by
  have hsub : (visited ++ waiting) ⊆ List.range count := fun c hc => List.mem_range.mpr (h.lt ht c hc)
  have hle := (List.subperm_of_subset h.nodup hsub).length_le
  simpa using hle

theorem preorder_nodup_from (ht : NodeTree children root count) (h : Walked children root visited waiting) :
    (visited ++ preorder children fuel waiting).Nodup := by
  induction fuel generalizing visited waiting with
  | zero =>
      rw [preorder, List.append_nil]
      exact (List.nodup_append'.mp h.nodup).1
  | succ fuel ih =>
      cases waiting with
      | nil =>
          rw [preorder, List.append_nil]
          exact (List.nodup_append'.mp h.nodup).1
      | cons b rest =>
          have hrest := ih (h.next ht)
          rwa [List.append_assoc, List.singleton_append] at hrest

/-- No node is visited twice. -/
theorem preorder_nodup (ht : NodeTree children root count) : (preorder children fuel [root]).Nodup := by
  have h : ([] ++ preorder children fuel [root]).Nodup := preorder_nodup_from ht .start
  simpa using h

theorem preorder_bound_from (ht : NodeTree children root count) (h : Walked children root visited waiting)
    (hfuel : count ≤ visited.length + fuel) (more : Nat) :
    preorder children (fuel + more) waiting = preorder children fuel waiting := by
  induction fuel generalizing visited waiting with
  | zero =>
      have hle := h.length_le ht
      cases waiting with
      | nil => cases more <;> rfl
      | cons b rest =>
          rw [List.length_cons] at hle
          omega
  | succ fuel ih =>
      rw [Nat.succ_add]
      cases waiting with
      | nil => rfl
      | cons b rest =>
          rw [preorder, preorder, ih (h.next ht) (by simp; omega)]

/-- The bound has no influence. -/
theorem preorder_bound (ht : NodeTree children root count) (more : Nat) :
    preorder children (count + more) [root] = preorder children count [root] :=
  preorder_bound_from ht .start (by simp) more

end Walk

/-! ## Work on the way -/

section Fold

variable {ε α β : Type} {Q : ε → Prop}

/-- Work on the numbers below a bound, in order. -/
theorem foldAll_range_ends {next : β → Nat → Except ε β} {I : Nat → β → Prop} {count : Nat} {b : β}
    (hstep : ∀ n, n < count → ∀ b, I n b → Ends (I (n + 1)) Q (next b n)) (hb : I 0 b) :
    Ends (I count) Q (foldAll next b (List.range count)) := by
  induction count with
  | zero => exact hb
  | succ count ih =>
      rw [List.range_succ, foldAll_append]
      have hbefore := ih fun n hn => hstep n (Nat.lt_succ_of_lt hn)
      refine hbefore.bind fun c hc => ?_
      have hlast := hstep count (Nat.lt_succ_self count) c hc
      rw [foldAll]
      exact hlast.bind fun d hd => hd

/-- Work on the elements of a list that never stops, with their positions. -/
theorem foldl_positions {step : β → α → β} {I : Nat → β → Prop} {list : List α} {b : β}
    (hstep : ∀ n a b, list[n]? = some a → I n b → I (n + 1) (step b a)) (hb : I 0 b) :
    I list.length (list.foldl step b) := by
  induction list generalizing I b with
  | nil => exact hb
  | cons a rest ih =>
      have hfirst := hstep 0 a b rfl hb
      exact ih (I := fun n => I (n + 1)) (fun n c d hc => hstep (n + 1) c d hc) hfirst

/-- Work on elements none of which has been seen before. -/
theorem foldAll_ends_fresh {next : β → α → Except ε β} {I : List α → β → Prop} {list : List α} {b : β}
    (hlist : list.Nodup) (hstep : ∀ seen b, ∀ a ∈ list, a ∉ seen → I seen b → Ends (I (seen ++ [a])) Q (next b a))
    (hb : I [] b) : Ends (I list) Q (foldAll next b list) := by
  have hgeneral : ∀ (rest seen : List α) (b : β), (∀ a ∈ rest, a ∈ list) → rest.Nodup → rest.Disjoint seen →
      I seen b → Ends (I (seen ++ rest)) Q (foldAll next b rest) := by
    intro rest
    induction rest with
    | nil =>
        intro seen b _ _ _ hb
        simpa [foldAll, Ends] using hb
    | cons a rest ih =>
        intro seen b hsub hnodup hdisjoint hb
        have hcons := List.nodup_cons.mp hnodup
        have hfresh : a ∉ seen := fun ha => hdisjoint List.mem_cons_self ha
        refine (hstep seen b a (hsub a List.mem_cons_self) hfresh hb).bind fun c hc => ?_
        have hapart : rest.Disjoint (seen ++ [a]) := by
          intro x hx hseen
          cases List.mem_append.mp hseen with
          | inl hold => exact hdisjoint (List.mem_cons_of_mem _ hx) hold
          | inr hnew => exact hcons.1 (List.mem_singleton.mp hnew ▸ hx)
        have hrest := ih (seen ++ [a]) c (fun x hx => hsub x (List.mem_cons_of_mem _ hx)) hcons.2 hapart hc
        rwa [List.append_assoc, List.singleton_append] at hrest
  have hall := hgeneral list [] b (fun _ ha => ha) hlist (List.disjoint_nil_right list) hb
  rwa [List.nil_append] at hall

end Fold

end Disco.Library
