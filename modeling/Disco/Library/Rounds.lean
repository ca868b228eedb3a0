import Disco.Library.Loop
import Mathlib.Data.Finset.Card
import Mathlib.Data.Finset.Max
import Mathlib.Order.Interval.Finset.Nat

/-! # How many rounds a propagation takes

Facts spread from some nodes along edges. In a graph of `count` nodes what
spreads at all has spread after `count - 1` edges, and a pass over all nodes
carries every fact over one more edge, whatever the order of the nodes. A loop of
such passes therefore ends within a bound that the graph alone determines.
-/

namespace Disco.Library

/-- Reached from the base over at most a number of edges. -/
inductive Within (base : Nat → Prop) (edge : Nat → Nat → Prop) : Nat → Nat → Prop where
  | start {k x : Nat} (mem : base x) : Within base edge k x
  | next {k x y : Nat} (before : Within base edge k x) (step : edge x y) : Within base edge (k + 1) y

section Within

variable {base : Nat → Prop} {edge : Nat → Nat → Prop} {count : Nat}

theorem Within.succ {k x : Nat} (h : Within base edge k x) : Within base edge (k + 1) x := by
  induction h with
  | start mem => exact .start mem
  | next _ step ih => exact .next ih step

theorem Within.mono {k l x : Nat} (h : Within base edge k x) (hle : k ≤ l) : Within base edge l x := by
  induction l, hle using Nat.le_induction with
  | base => exact h
  | succ l _ ih => exact ih.succ

/-- What spreads over one more edge only if it was there already has spread. -/
theorem Within.closed {k : Nat} (hclosed : ∀ x, Within base edge (k + 1) x → Within base edge k x)
    {m x : Nat} (h : Within base edge m x) : Within base edge k x := by
  induction h with
  | start mem => exact .start mem
  | next _ step ih => exact hclosed _ (.next ih step)

open Classical in
/-- The nodes of a graph that are reached over a number of edges. -/
noncomputable def withinNodes (base : Nat → Prop) (edge : Nat → Nat → Prop) (count k : Nat) :
    Finset Nat := (Finset.range count).filter fun x => Within base edge k x

theorem mem_withinNodes {k x : Nat} :
    x ∈ withinNodes base edge count k ↔ x < count ∧ Within base edge k x := by
  unfold withinNodes
  simp only [Finset.mem_filter, Finset.mem_range]

theorem withinNodes_grow (hcount : ∀ k x, Within base edge k x → x < count) (k : Nat) :
    (∀ m x, Within base edge m x → Within base edge k x) ∨
      k + 1 ≤ (withinNodes base edge count k).card := by
  induction k with
  | zero =>
      by_cases hempty : ∃ x, base x
      · right
        obtain ⟨x, hx⟩ := hempty
        rw [Nat.zero_add, Nat.one_le_iff_ne_zero, ← Nat.pos_iff_ne_zero, Finset.card_pos]
        exact ⟨x, mem_withinNodes.mpr ⟨hcount 0 x (.start hx), .start hx⟩⟩
      · left
        intro m x h
        induction h with
        | start mem => exact absurd ⟨_, mem⟩ hempty
        | next _ _ ih =>
            cases ih with
            | start mem => exact absurd ⟨_, mem⟩ hempty
  | succ k ih =>
      rcases ih with hclosed | hcard
      · exact .inl fun m x h => (hclosed m x h).succ
      · by_cases hnew : ∀ x, Within base edge (k + 1) x → Within base edge k x
        · exact .inl fun m x h => (Within.closed hnew h).succ
        · right
          simp only [not_forall, exists_prop] at hnew
          obtain ⟨x, hx, hnot⟩ := hnew
          have hlt : (withinNodes base edge count k).card < (withinNodes base edge count (k + 1)).card := by
            apply Finset.card_lt_card
            rw [Finset.ssubset_iff_of_subset]
            · refine ⟨x, mem_withinNodes.mpr ⟨hcount _ x hx, hx⟩, ?_⟩
              rw [mem_withinNodes]
              exact fun h => hnot h.2
            · intro y hy
              rw [mem_withinNodes] at hy ⊢
              exact ⟨hy.1, hy.2.succ⟩
          omega

/-- In a graph of `count` nodes `count - 1` edges are enough. -/
theorem Within.bound (hcount : ∀ k x, Within base edge k x → x < count) {m x : Nat}
    (h : Within base edge m x) : Within base edge (count - 1) x := by
  have hpos := hcount m x h
  rcases withinNodes_grow hcount (count - 1) with hclosed | hcard
  · exact hclosed m x h
  · have hsub : withinNodes base edge count (count - 1) ⊆ Finset.range count := by
      intro y hy
      exact Finset.mem_range.mpr (mem_withinNodes.mp hy).1
    have hall : withinNodes base edge count (count - 1) = Finset.range count := by
      apply Finset.eq_of_subset_of_card_le hsub
      rw [Finset.card_range]
      omega
    have hmem : x ∈ withinNodes base edge count (count - 1) := by
      rw [hall]
      exact Finset.mem_range.mpr hpos
    exact (mem_withinNodes.mp hmem).2

end Within

section Rounds

variable {ε σ : Type}

/-- A pass over some nodes makes progress at each of them. -/
theorem foldAll_advances {visit : σ → Nat → Except ε σ} (I : σ → Prop) (old new : Nat → σ → Prop)
    {nodes : List Nat}
    (hinvariant : ∀ s, ∀ b ∈ nodes, ∀ t, I s → visit s b = .ok t → I t)
    (hold : ∀ s, ∀ b ∈ nodes, ∀ t, I s → visit s b = .ok t → ∀ c, old c s → old c t)
    (hkeep : ∀ s, ∀ b ∈ nodes, ∀ t, I s → visit s b = .ok t → ∀ c, new c s → new c t)
    (hvisit : ∀ s, ∀ b ∈ nodes, ∀ t, I s → (∀ c, old c s) → visit s b = .ok t → new b t)
    {s t : σ} (hs : I s) (hstart : ∀ c, old c s) (h : foldAll visit s nodes = .ok t) :
    I t ∧ ∀ b ∈ nodes, new b t := by
  induction nodes generalizing s with
  | nil =>
      cases h
      exact ⟨hs, fun _ hb => absurd hb List.not_mem_nil⟩
  | cons b rest ih =>
      obtain ⟨u, hu, hrest⟩ := bind_eq_ok.mp h
      have hI := hinvariant s b List.mem_cons_self u hs hu
      have hmem : ∀ {c}, c ∈ rest → c ∈ b :: rest := fun hc => List.mem_cons_of_mem _ hc
      have holdu := fun c => hold s b List.mem_cons_self u hs hu c (hstart c)
      have hnewu := hvisit s b List.mem_cons_self u hs hstart hu
      rcases ih (fun s c hc => hinvariant s c (hmem hc)) (fun s c hc => hold s c (hmem hc))
        (fun s c hc => hkeep s c (hmem hc)) (fun s c hc => hvisit s c (hmem hc)) hI holdu hrest with
        ⟨hIt, hall⟩
      refine ⟨hIt, ?_⟩
      intro c hc
      rcases List.mem_cons.mp hc with rfl | hc
      · -- the rest of the pass keeps what the visit achieved
        have hfold : ∀ (nodes : List Nat) (v : σ), (∀ d ∈ nodes, d ∈ c :: rest) → I v → new c v →
            foldAll visit v nodes = .ok t → new c t := by
          intro nodes
          induction nodes with
          | nil =>
              intro v _ _ hnew hv
              cases hv
              exact hnew
          | cons d others ih' =>
              intro v hsub hv hnew hrun
              obtain ⟨w, hw, hrun⟩ := bind_eq_ok.mp hrun
              have hd := hsub d List.mem_cons_self
              exact ih' w (fun e he => hsub e (List.mem_cons_of_mem _ he)) (hinvariant v d hd w hv hw)
                (hkeep v d hd w hv hw c hnew) hrun
        exact hfold rest u (fun d hd => List.mem_cons_of_mem _ hd) hI hnewu hrest
      · exact hall c hc

/-- Steps that do not fail where an invariant of the elements seen so far holds. -/
theorem foldAll_reaches {α : Type} {next : σ → α → Except ε σ} {I : List α → σ → Prop} {list : List α}
    (hstep : ∀ seen a rest s, list = seen ++ a :: rest → I seen s →
      ∃ t, next s a = .ok t ∧ I (seen ++ [a]) t) {s : σ} (hs : I [] s) :
    ∃ t, foldAll next s list = .ok t ∧ I list t := by
  have hgo : ∀ rest seen s, list = seen ++ rest → I seen s →
      ∃ t, foldAll next s rest = .ok t ∧ I list t := by
    intro rest
    induction rest with
    | nil =>
        intro seen s heq hI
        rw [List.append_nil] at heq
        exact ⟨s, rfl, heq ▸ hI⟩
    | cons a rest ih =>
        intro seen s heq hI
        obtain ⟨t, ht, hIt⟩ := hstep seen a rest s heq hI
        obtain ⟨r, hr, hIr⟩ := ih (seen ++ [a]) t (by rw [heq, List.append_assoc]; rfl) hIt
        exact ⟨r, bind_eq_ok.mpr ⟨t, ht, hr⟩, hIr⟩
  exact hgo list [] s rfl hs

variable {next : σ → Except ε (Option σ)} {exhausted : ε}

/-- More fuel does not change where a loop stops. -/
theorem loop_mono {fuel more : Nat} (hle : fuel ≤ more) {s r : σ}
    (h : loop next exhausted fuel s = .ok r) : loop next exhausted more s = .ok r := by
  induction fuel generalizing s more with
  | zero => cases h
  | succ fuel ih =>
      obtain ⟨more, rfl⟩ := Nat.exists_eq_add_of_le' hle
      rw [show more + (fuel + 1) = more + fuel + 1 from rfl]
      unfold loop at h ⊢
      split at h
      · cases h
      · exact h
      · exact ih (Nat.le_add_left _ _) h

/-- A loop whose state after `m` rounds makes it stop. -/
theorem loop_within {P : Nat → σ → Prop} {m : Nat} (htotal : ∀ k s, P k s → ∃ r, next s = .ok r)
    (hstep : ∀ k s t, P k s → next s = .ok (some t) → P (k + 1) t)
    (hend : ∀ s, P m s → next s = .ok none) {s : σ} (hs : P 0 s) :
    ∃ r, loop next exhausted (m + 1) s = .ok r := by
  have hgo : ∀ n k s, k + n = m → P k s → ∃ r, loop next exhausted (n + 1) s = .ok r := by
    intro n
    induction n with
    | zero =>
        intro k s hk hP
        have hm : k = m := by omega
        subst hm
        exact ⟨s, by rw [loop, hend s hP]⟩
    | succ n ih =>
        intro k s hk hP
        obtain ⟨r, hr⟩ := htotal k s hP
        cases r with
        | none => exact ⟨s, by rw [loop, hr]⟩
        | some t =>
            obtain ⟨r, hloop⟩ := ih (k + 1) t (by omega) (hstep k s t hP hr)
            exact ⟨r, by rw [loop, hr]; exact hloop⟩
  exact hgo m 0 s (Nat.zero_add m) hs

end Rounds

end Disco.Library
