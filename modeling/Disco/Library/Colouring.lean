import Mathlib

/-! # Partial colourings of a graph

A colouring gives some vertices a colour. It is proper when no edge joins two
vertices of one colour. Two changes keep a proper colouring proper: giving a
vertex a colour that none of its neighbours has, and interchanging two colours
on a set of vertices that no edge of these colours leaves (a Kempe chain).
-/

namespace Disco.Library

variable {α κ : Type}

/-- No edge joins two vertices of one colour. -/
def Proper (edge : α → α → Prop) (colour : α → Option κ) : Prop :=
  ∀ a b, edge a b → ∀ c, colour a = some c → colour b ≠ some c

theorem proper_none (edge : α → α → Prop) : Proper edge (fun _ => (none : Option κ)) := by
  intro a b _ c hc
  cases hc

/-- A vertex takes a colour that none of its neighbours has. -/
theorem Proper.assign [DecidableEq α] {edge : α → α → Prop} {colour : α → Option κ}
    (h : Proper edge colour) (hsymm : ∀ a b, edge a b → edge b a) (hirrefl : ∀ a, ¬ edge a a)
    {v : α} {c : κ} (hfree : ∀ w, edge v w → colour w ≠ some c) :
    Proper edge (Function.update colour v (some c)) := by
  intro a b hab d hd
  by_cases ha : a = v
  · subst ha
    have hb : b ≠ a := by
      intro hb
      exact hirrefl a (hb ▸ hab)
    rw [Function.update_self] at hd
    cases hd
    rw [Function.update_of_ne hb]
    exact hfree b hab
  · rw [Function.update_of_ne ha] at hd
    by_cases hb : b = v
    · subst hb
      rw [Function.update_self]
      intro heq
      cases heq
      exact hfree a (hsymm a b hab) hd
    · rw [Function.update_of_ne hb]
      exact h a b hab d hd

section Interchange

variable [DecidableEq α] [DecidableEq κ]

/-- Interchange two colours on a set of vertices. -/
def interchange (chain : Finset α) (p q : κ) (colour : α → Option κ) (v : α) : Option κ :=
  if v ∈ chain then (colour v).map fun c => if c = p then q else p else colour v

theorem interchange_of_mem {chain : Finset α} {p q c : κ} {colour : α → Option κ} {v : α}
    (hv : v ∈ chain) (hcolour : colour v = some p ∨ colour v = some q)
    (h : interchange chain p q colour v = some c) :
    (colour v = some p ∧ c = q) ∨ (p ≠ q ∧ colour v = some q ∧ c = p) := by
  simp only [interchange, hv, if_true] at h
  by_cases hp : colour v = some p
  · simp only [hp, Option.map_some, if_true, Option.some.injEq] at h
    exact .inl ⟨hp, h.symm⟩
  · have hq : colour v = some q := hcolour.resolve_left hp
    have hne : q ≠ p := by
      intro heq
      exact hp (heq ▸ hq)
    simp only [hq, Option.map_some, if_neg hne, Option.some.injEq] at h
    exact .inr ⟨hne.symm, hq, h.symm⟩

/-- Interchanging two colours on a Kempe chain keeps a colouring proper. -/
theorem Proper.interchange {edge : α → α → Prop} {colour : α → Option κ} {chain : Finset α}
    {p q : κ} (h : Proper edge colour) (hsymm : ∀ a b, edge a b → edge b a)
    (hmem : ∀ v ∈ chain, colour v = some p ∨ colour v = some q)
    (hclosed : ∀ v ∈ chain, ∀ w, edge v w → colour w = some p ∨ colour w = some q → w ∈ chain) :
    Proper edge (interchange chain p q colour) := by
  -- an edge with one end in the chain meets a vertex of neither colour outside
  have hleave : ∀ a b c, edge a b → a ∈ chain → b ∉ chain →
      Library.interchange chain p q colour a = some c →
      Library.interchange chain p q colour b ≠ some c := by
    intro a b c hab ha hb hc
    have hout : ¬ (colour b = some p ∨ colour b = some q) := fun hpq => hb (hclosed a ha b hab hpq)
    simp only [Library.interchange, hb, if_false]
    rcases interchange_of_mem ha (hmem a ha) hc with ⟨-, rfl⟩ | ⟨-, -, rfl⟩
    · exact fun hq => hout (.inr hq)
    · exact fun hp => hout (.inl hp)
  intro a b hab c hc
  by_cases ha : a ∈ chain
  · by_cases hb : b ∈ chain
    · intro hc'
      rcases interchange_of_mem ha (hmem a ha) hc with ⟨hap, hcq⟩ | ⟨hpq, haq, hcp⟩
      · rcases interchange_of_mem hb (hmem b hb) hc' with ⟨hbp, -⟩ | ⟨hpq, -, hcp⟩
        · exact h a b hab p hap hbp
        · exact hpq (hcp.symm.trans hcq)
      · rcases interchange_of_mem hb (hmem b hb) hc' with ⟨-, hcq⟩ | ⟨-, hbq, -⟩
        · exact hpq (hcp.symm.trans hcq)
        · exact h a b hab q haq hbq
    · exact hleave a b c hab ha hb hc
  · by_cases hb : b ∈ chain
    · intro hc'
      exact hleave b a c (hsymm a b hab) hb ha hc' hc
    · simp only [Library.interchange, ha, if_false] at hc
      simp only [Library.interchange, hb, if_false]
      exact h a b hab c hc

end Interchange

end Disco.Library
