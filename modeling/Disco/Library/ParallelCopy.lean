import Mathlib.Data.Finset.Card
import Mathlib.Data.List.Nodup

/-! # Moves that wait for each other

Moves are carried out one at a time, each as soon as nothing that is still
pending reads what it overwrites. When none of them can go on, they form cycles:
none has been set aside yet, and each is read by exactly one other.
-/

namespace Disco.Library

section Blocked

variable {α : Type} [DecidableEq α] {moves : List α} {reads : α → α → Prop} {pending : α → Prop}

/-- Blocked moves read each other in a permutation. -/
theorem blocked_surjective (hunique : ∀ m ∈ moves, ∀ m' ∈ moves, ∀ o, reads o m → reads o m' → m = m')
    (hblocked : ∀ m ∈ moves, ∃ o ∈ moves, pending o ∧ reads o m) :
    ∃ reader : α → α, (∀ m ∈ moves, pending (reader m) ∧ reads (reader m) m) ∧
      ∀ o ∈ moves, ∃ m ∈ moves, reader m = o := by
  choose! reader hreader using hblocked
  refine ⟨reader, fun m hm => (hreader m hm).2, ?_⟩
  have hmaps : Set.MapsTo reader (moves.toFinset : Set α) moves.toFinset := by
    intro m hm
    rw [Finset.mem_coe, List.mem_toFinset] at hm ⊢
    exact (hreader m hm).1
  have hinjective : Set.InjOn reader (moves.toFinset : Set α) := by
    intro m hm m' hm' heq
    rw [Finset.mem_coe, List.mem_toFinset] at hm hm'
    have hread' := (hreader m' hm').2.2
    rw [← heq] at hread'
    exact hunique m hm m' hm' _ (hreader m hm).2.2 hread'
  have hsurjective := Finset.surjOn_of_injOn_of_card_le reader hmaps hinjective le_rfl
  intro o ho
  obtain ⟨m, hm, heq⟩ := hsurjective (Finset.mem_coe.mpr (List.mem_toFinset.mpr ho))
  exact ⟨m, List.mem_toFinset.mp (Finset.mem_coe.mp hm), heq⟩

theorem blocked_pending (hunique : ∀ m ∈ moves, ∀ m' ∈ moves, ∀ o, reads o m → reads o m' → m = m')
    (hblocked : ∀ m ∈ moves, ∃ o ∈ moves, pending o ∧ reads o m) : ∀ o ∈ moves, pending o := by
  obtain ⟨reader, hreader, hsurjective⟩ := blocked_surjective hunique hblocked
  intro o ho
  obtain ⟨m, hm, heq⟩ := hsurjective o ho
  rw [← heq]
  exact (hreader m hm).1

/-- Each blocked move is read once. -/
theorem blocked_reader_unique (hunique : ∀ m ∈ moves, ∀ m' ∈ moves, ∀ o, reads o m → reads o m' → m = m')
    (hblocked : ∀ m ∈ moves, ∃ o ∈ moves, pending o ∧ reads o m) {m o o' : α} (hm : m ∈ moves) (ho : o ∈ moves)
    (ho' : o' ∈ moves) (hread : reads o m) (hread' : reads o' m) : o = o' := by
  obtain ⟨reader, hreader, hsurjective⟩ := blocked_surjective hunique hblocked
  have hsame : ∀ {x}, x ∈ moves → reads x m → x = reader m := by
    intro x hx hxm
    obtain ⟨n, hn, heq⟩ := hsurjective x hx
    have hxn := (hreader n hn).2
    rw [heq] at hxn
    rw [← heq, hunique n hn m hm x hxn hxm]
  rw [hsame ho hread, hsame ho' hread']

end Blocked

end Disco.Library
