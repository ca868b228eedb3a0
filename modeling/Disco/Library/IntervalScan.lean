import Mathlib.Data.List.Sort
import Mathlib.Data.List.Perm.Lattice

/-! # Colouring intervals by a scan

Intervals are visited in the order of their starts. Each takes the least free
colour, if there is one, and colours of intervals that ended before its start are
free again. Two intervals with one colour are disjoint, ends included.
-/

namespace Disco.Library

/-- An interval that still holds its colour. -/
structure Occupant (α : Type) where
  value : α
  finish : Nat
  colour : Nat
  deriving DecidableEq, Repr

structure IntervalScan (α : Type) where
  colour : α → Option Nat
  free : List Nat
  active : List (Occupant α)

namespace IntervalScan

variable {α : Type} [DecidableEq α] (start finish : α → Nat)

/-- The colours of the intervals that ended before a point are free again. -/
def expire (point : Nat) (s : IntervalScan α) : IntervalScan α where
  colour := s.colour
  free := s.free ++ (s.active.filter fun a => a.finish < point).map Occupant.colour
  active := s.active.filter fun a => ¬ a.finish < point

def serve (s : IntervalScan α) (v : α) : IntervalScan α :=
  let s := s.expire (start v)
  match s.free.insertionSort (· ≤ ·) with
  | [] => s
  | c :: rest => ⟨Function.update s.colour v (some c), rest, s.active ++ [⟨v, finish v, c⟩]⟩

/-- What holds before the intervals of `todo` are visited. -/
structure Scanned (pool : List Nat) (served : α → Prop) (todo : List α) (s : IntervalScan α) : Prop where
  nodup : (s.free ++ s.active.map Occupant.colour).Nodup
  pooled : ∀ c ∈ s.free ++ s.active.map Occupant.colour, c ∈ pool
  serves : ∀ v c, s.colour v = some c → c ∈ pool ∧ served v
  holds : ∀ v c, s.colour v = some c → ⟨v, finish v, c⟩ ∈ s.active ∨ ∀ w ∈ todo, finish v < start w
  apart : ∀ v w c, s.colour v = some c → s.colour w = some c → v ≠ w →
    finish v < start w ∨ finish w < start v

variable {start finish} {pool : List Nat} {served : α → Prop} {todo : List α} {s : IntervalScan α} {v : α}

theorem Scanned.init (hpool : pool.Nodup) : Scanned start finish pool served todo ⟨fun _ => none, pool, []⟩ where
  nodup := by
    simpa using hpool
  pooled := by simp
  serves _ _ hc := by cases hc
  holds _ _ hc := by cases hc
  apart _ _ _ hc := by cases hc

theorem Scanned.skip (h : Scanned start finish pool served (v :: todo) s) :
    Scanned start finish pool served todo s where
  nodup := h.nodup
  pooled := h.pooled
  serves := h.serves
  holds u c hc := (h.holds u c hc).imp_right fun hall w hw => hall w (List.mem_cons_of_mem _ hw)
  apart := h.apart

theorem perm_expire (point : Nat) (s : IntervalScan α) :
    ((s.expire point).free ++ (s.expire point).active.map Occupant.colour).Perm
      (s.free ++ s.active.map Occupant.colour) := by
  unfold expire
  dsimp only
  rw [List.append_assoc, ← List.map_append]
  apply List.Perm.append_left
  apply List.Perm.map
  have hperm := List.filter_append_perm (fun a : Occupant α => decide (a.finish < point)) s.active
  simpa only [decide_not] using hperm

/-- What has ended before a point ended before everything that starts later. -/
theorem Scanned.expire (h : Scanned start finish pool served todo s) {point : Nat}
    (hpoint : ∀ w ∈ todo, point ≤ start w) : Scanned start finish pool served todo (s.expire point) where
  nodup := (perm_expire point s).nodup_iff.mpr h.nodup
  pooled c hc := h.pooled c ((perm_expire point s).mem_iff.mp hc)
  serves := h.serves
  holds u c hc := by
    rcases h.holds u c hc with hactive | hended
    · by_cases hlt : finish u < point
      · right
        intro w hw
        exact hlt.trans_le (hpoint w hw)
      · left
        exact List.mem_filter.mpr ⟨hactive, by simpa using hlt⟩
    · exact .inr hended
  apart := h.apart

/-- A visit keeps intervals with one colour apart. -/
theorem Scanned.serve (h : Scanned start finish pool served (v :: todo) s) (hserved : served v)
    (hsorted : ∀ w ∈ todo, start v ≤ start w) :
    Scanned start finish pool served todo (s.serve start finish v) := by
  have hexpire : Scanned start finish pool served (v :: todo) (s.expire (start v)) := by
    apply h.expire
    intro w hw
    rcases List.mem_cons.mp hw with heq | hw
    · exact heq ▸ Nat.le_refl _
    · exact hsorted w hw
  unfold IntervalScan.serve
  dsimp only
  generalize s.expire (start v) = s at hexpire
  have hsort := List.perm_insertionSort (fun a b : Nat => a ≤ b) s.free
  split
  · exact hexpire.skip
  · rename_i c rest heq
    rw [heq] at hsort
    have hperm : (rest ++ (s.active ++ [(⟨v, finish v, c⟩ : Occupant α)]).map Occupant.colour).Perm
        (s.free ++ s.active.map Occupant.colour) := by
      rw [List.map_append, List.map_singleton, ← List.append_assoc]
      exact (List.perm_append_singleton c _).trans (hsort.append_right (s.active.map Occupant.colour))
    have hcfree : c ∈ s.free := hsort.mem_iff.mp List.mem_cons_self
    -- the colour is free, so what had it has ended
    have hended : ∀ u, s.colour u = some c → ∀ w ∈ v :: todo, finish u < start w := by
      intro u hu
      rcases hexpire.holds u c hu with hactive | hended
      · have hdisjoint := List.disjoint_of_nodup_append hexpire.nodup
        exact absurd (List.mem_map_of_mem hactive) (hdisjoint hcfree)
      · exact hended
    refine ⟨hperm.nodup_iff.mpr hexpire.nodup, fun d hd => hexpire.pooled d (hperm.mem_iff.mp hd), ?_, ?_, ?_⟩
    · intro u d hd
      dsimp only at hd
      by_cases hu : u = v
      · rw [hu, Function.update_self] at hd
        cases hd
        exact ⟨hexpire.pooled c (List.mem_append_left _ hcfree), hu ▸ hserved⟩
      · rw [Function.update_of_ne hu] at hd
        exact hexpire.serves u d hd
    · intro u d hd
      dsimp only at hd ⊢
      by_cases hu : u = v
      · rw [hu, Function.update_self] at hd
        cases hd
        exact .inl (List.mem_append_right _ (hu ▸ List.mem_singleton_self _))
      · rw [Function.update_of_ne hu] at hd
        rcases hexpire.holds u d hd with hactive | hended
        · exact .inl (List.mem_append_left _ hactive)
        · exact .inr fun w hw => hended w (List.mem_cons_of_mem _ hw)
    · intro u w d hu hw hne
      dsimp only at hu hw
      by_cases huv : u = v
      · have hwv : w ≠ v := fun heq => hne (huv.trans heq.symm)
        rw [huv, Function.update_self] at hu
        cases hu
        rw [Function.update_of_ne hwv] at hw
        exact .inr (huv ▸ hended w hw v List.mem_cons_self)
      · rw [Function.update_of_ne huv] at hu
        by_cases hwv : w = v
        · rw [hwv, Function.update_self] at hw
          cases hw
          exact .inl (hwv ▸ hended u hu v List.mem_cons_self)
        · rw [Function.update_of_ne hwv] at hw
          exact hexpire.apart u w d hu hw hne

/-- The visits of a whole scan, some of which are left out. -/
theorem Scanned.run (skips : α → Prop) [DecidablePred skips] {nodes : List α}
    (hsorted : nodes.Pairwise fun a b => start a ≤ start b)
    (h : Scanned start finish pool (fun v => ¬ skips v) nodes s) :
    Scanned start finish pool (fun v => ¬ skips v) []
      (nodes.foldl (fun s v => if skips v then s else s.serve start finish v) s) := by
  induction nodes generalizing s with
  | nil => exact h
  | cons v rest ih =>
      rw [List.pairwise_cons] at hsorted
      rw [List.foldl_cons]
      by_cases hskip : skips v
      · rw [if_pos hskip]
        exact ih hsorted.2 h.skip
      · rw [if_neg hskip]
        exact ih hsorted.2 (h.serve hskip hsorted.1)

end IntervalScan

end Disco.Library
