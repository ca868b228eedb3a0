import Mathlib

/-! # Dependency orders

A list in which everything stands behind what it depends on. Such a list is closed under
dependencies, and nothing on it depends on itself, however many steps it takes.
-/

namespace Disco.Library

open Relation

variable {α : Type}

structure DependencyOrder (depends : α → α → Prop) (order : List α) : Prop where
  nodup : order.Nodup
  behind : ∀ before a after, order = before ++ a :: after → ∀ b, depends a b → b ∈ before

namespace DependencyOrder

variable {depends : α → α → Prop} {order : List α} {a b : α}

theorem nil : DependencyOrder depends [] where
  nodup := List.nodup_nil
  behind := by
    intro before a after h
    simp at h

/-- What all dependencies are before comes next. -/
theorem snoc (h : DependencyOrder depends order) (ha : a ∉ order) (hdeps : ∀ b, depends a b → b ∈ order) :
    DependencyOrder depends (order ++ [a]) where
  nodup := by
    rw [List.nodup_append]
    refine ⟨h.nodup, List.nodup_singleton a, ?_⟩
    rintro c hc d hd rfl
    rw [List.mem_singleton] at hd
    subst hd
    exact ha hc
  behind := by
    intro before c after horder b hb
    rcases List.eq_nil_or_concat after with rfl | ⟨after, last, rfl⟩
    · obtain ⟨rfl, hac⟩ := List.append_inj' horder rfl
      obtain rfl : a = c := by simpa using hac
      exact hdeps b hb
    · have horder : order ++ [a] = (before ++ c :: after) ++ [last] := by simpa using horder
      obtain ⟨horder, -⟩ := List.append_inj' horder rfl
      exact h.behind before c after horder b hb

theorem congr {depends' : α → α → Prop} (h : DependencyOrder depends order)
    (hsame : ∀ a ∈ order, ∀ b, depends' a b → depends a b) : DependencyOrder depends' order where
  nodup := h.nodup
  behind := by
    intro before a after horder b hb
    exact h.behind before a after horder b (hsame a (by rw [horder]; simp) b hb)

theorem left {before after : List α} (h : DependencyOrder depends (before ++ after)) : DependencyOrder depends before where
  nodup := (List.nodup_append.mp h.nodup).1
  behind := by
    intro first a rest horder b hb
    exact h.behind first a (rest ++ after) (by rw [horder]; simp) b hb

theorem mem (h : DependencyOrder depends order) (ha : a ∈ order) (hb : depends a b) : b ∈ order := by
  obtain ⟨before, after, rfl⟩ := List.append_of_mem ha
  exact List.mem_append_left _ (h.behind before a after rfl b hb)

theorem mem_of_reach (h : DependencyOrder depends order) (ha : a ∈ order) (hb : ReflTransGen depends a b) : b ∈ order := by
  induction hb with
  | refl => exact ha
  | tail _ hstep ih => exact h.mem ih hstep

/-- A dependency stands earlier. -/
theorem idxOf_lt [DecidableEq α] (h : DependencyOrder depends order) (ha : a ∈ order) (hb : depends a b) :
    order.idxOf b < order.idxOf a := by
  obtain ⟨before, after, rfl⟩ := List.append_of_mem ha
  have hmem := h.behind before a after rfl b hb
  have hnot : a ∉ before := fun hmem => (List.nodup_append.mp h.nodup).2.2 a hmem a List.mem_cons_self rfl
  rw [List.idxOf_append_of_mem hmem, List.idxOf_append_of_notMem hnot]
  exact Nat.lt_add_right _ (List.idxOf_lt_length_of_mem hmem)

theorem acyclic (h : DependencyOrder depends order) (ha : a ∈ order) : ¬ TransGen depends a a := by
  classical
  have hlt : ∀ b, TransGen depends a b → order.idxOf b < order.idxOf a := by
    intro b hb
    induction hb with
    | single hstep => exact h.idxOf_lt ha hstep
    | tail hreach hstep ih => exact (h.idxOf_lt (h.mem_of_reach ha hreach.to_reflTransGen) hstep).trans ih
  exact fun hcycle => Nat.lt_irrefl _ (hlt a hcycle)

end DependencyOrder

end Disco.Library
