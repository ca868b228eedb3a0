import Mathlib.Data.List.Perm.Basic
import Mathlib.Data.List.Nodup

/-! # Gathering members of an order

The members of a set are brought together where the first of them stands, one
of them in front; everything else keeps its place. Gathering is a permutation,
and it keeps together what another gathering has brought together before, if
that set is disjoint from this one or contains it.
-/

namespace Disco.Library

section Gather

variable {α : Type} (inside : α → Bool)

/-- Walk through an order: put the region at its first member, leave out the others. -/
def gatherInto (region : List α) : Bool → List α → List α
  | _, [] => []
  | inserted, b :: rest =>
      if inside b then if inserted then gatherInto region true rest else region ++ gatherInto region true rest
      else b :: gatherInto region inserted rest

/-- The members stand next to each other, the header in front. -/
def Together (header : α) (order : List α) : Prop :=
  ∃ before rest after, order = before ++ header :: rest ++ after ∧ inside header = true ∧
    (∀ b ∈ rest, inside b = true) ∧ (∀ b ∈ before, inside b = false) ∧ ∀ b ∈ after, inside b = false

variable {inside} {region front order : List α} {header first : α}

theorem gatherInto_inserted : gatherInto inside region true order = order.filter fun b => !inside b := by
  induction order with
  | nil => rfl
  | cons b rest ih => cases hb : inside b <;> simp [gatherInto, hb, ih]

theorem gatherInto_first (hfirst : inside first = true) :
    gatherInto inside region false (first :: order) = region ++ order.filter fun b => !inside b := by
  simp [gatherInto, hfirst, gatherInto_inserted]

theorem gatherInto_outside (hfront : ∀ b ∈ front, inside b = false) :
    gatherInto inside region false (front ++ order) = front ++ gatherInto inside region false order := by
  induction front with
  | nil => rfl
  | cons b rest ih =>
      have hb := hfront b List.mem_cons_self
      have hrest := ih fun c hc => hfront c (List.mem_cons_of_mem _ hc)
      simp [gatherInto, hb, hrest]

/-- An order with a member, cut at the first one. -/
theorem exists_first (hmem : header ∈ order) (hheader : inside header = true) :
    ∃ front first rest, order = front ++ first :: rest ∧ inside first = true ∧ ∀ b ∈ front, inside b = false := by
  induction order with
  | nil => cases hmem
  | cons b rest ih =>
      cases hb : inside b with
      | true => exact ⟨[], b, rest, rfl, hb, fun _ hc => absurd hc List.not_mem_nil⟩
      | false =>
          have htail : header ∈ rest := by
            cases List.mem_cons.mp hmem with
            | inl heq =>
                rw [← heq, hheader] at hb
                cases hb
            | inr htail => exact htail
          obtain ⟨front, first, behind, heq, hfirst, hfront⟩ := ih htail
          refine ⟨b :: front, first, behind, by rw [heq]; rfl, hfirst, ?_⟩
          intro c hc
          cases List.mem_cons.mp hc with
          | inl h => rw [h]; exact hb
          | inr h => exact hfront c h

theorem filter_of_outside (hfront : ∀ b ∈ front, inside b = false) :
    (front.filter fun b => !inside b) = front :=
  List.filter_eq_self.mpr fun b hb => by rw [hfront b hb]; rfl

variable [DecidableEq α]

variable (inside) in
/-- The header, then the other members in their order. -/
def gatherRegion (header : α) (order : List α) : List α :=
  header :: order.filter fun b => inside b && decide (b ≠ header)

variable (inside) in
def gathered (header : α) (order : List α) : List α := gatherInto inside (gatherRegion inside header order) false order

variable {other : α → Bool}

theorem gathered_eq {rest : List α} (hfirst : inside first = true) (hfront : ∀ b ∈ front, inside b = false) :
    gathered inside header (front ++ first :: rest) =
      front ++ (gatherRegion inside header (front ++ first :: rest) ++ rest.filter fun b => !inside b) := by
  unfold gathered
  rw [gatherInto_outside hfront, gatherInto_first hfirst]

theorem mem_gatherRegion {b : α} (hheader : inside header = true) (hb : b ∈ gatherRegion inside header order) :
    inside b = true := by
  cases List.mem_cons.mp hb with
  | inl heq => rw [heq]; exact hheader
  | inr hmem =>
      have hboth := (List.mem_filter.mp hmem).2
      rw [Bool.and_eq_true] at hboth
      exact hboth.1

theorem gatherRegion_perm (hnodup : order.Nodup) (hmem : header ∈ order) (hheader : inside header = true) :
    (gatherRegion inside header order).Perm (order.filter inside) := by
  unfold gatherRegion
  have hfilter : (order.filter fun b => inside b && decide (b ≠ header)) = (order.filter inside).erase header := by
    rw [(hnodup.filter inside).erase_eq_filter, List.filter_filter]
    apply List.filter_congr
    intro b _
    rw [Bool.and_comm]
    simp [bne, beq_eq_decide]
  rw [hfilter]
  exact (List.perm_cons_erase (List.mem_filter.mpr ⟨hmem, hheader⟩)).symm

/-- Gathering is a permutation. -/
theorem gathered_perm (hnodup : order.Nodup) (hmem : header ∈ order) (hheader : inside header = true) :
    (gathered inside header order).Perm order := by
  obtain ⟨front, first, rest, heq, hfirst, hfront⟩ := exists_first hmem hheader
  have hregion := gatherRegion_perm hnodup hmem hheader
  subst heq
  rw [gathered_eq hfirst hfront]
  apply List.Perm.append_left
  have hfiltered : (front ++ first :: rest).filter inside = (first :: rest).filter inside := by
    have hnone : front.filter inside = [] := List.filter_eq_nil_iff.mpr fun b hb => by simp [hfront b hb]
    rw [List.filter_append, hnone, List.nil_append]
  rw [hfiltered] at hregion
  have hout : (rest.filter fun b => !inside b) = (first :: rest).filter fun b => !inside b := by
    simp [hfirst]
  rw [hout]
  exact (hregion.append_right _).trans (List.filter_append_perm inside (first :: rest))

/-- What has been gathered stands together. -/
theorem together_gathered (hmem : header ∈ order) (hheader : inside header = true) :
    Together inside header (gathered inside header order) := by
  obtain ⟨front, first, rest, heq, hfirst, hfront⟩ := exists_first hmem hheader
  refine ⟨front, order.filter fun b => inside b && decide (b ≠ header), rest.filter fun b => !inside b, ?_,
    hheader, ?_, hfront, ?_⟩
  · subst heq
    rw [gathered_eq hfirst hfront, List.append_assoc]
    rfl
  · intro b hb
    exact mem_gatherRegion hheader (List.mem_cons_of_mem _ hb)
  · intro b hb
    simpa using (List.mem_filter.mp hb).2

/-- Gathering a disjoint set keeps together what stands together. -/
theorem Together.of_disjoint {around : α} (h : Together other around order) (hmem : header ∈ order)
    (hheader : inside header = true) (hdisjoint : ∀ b, inside b = true → other b = false) :
    Together other around (gathered inside header order) := by
  obtain ⟨before, rest, after, heq, haround, hrest, hbefore, hafter⟩ := h
  have houtside : ∀ b, other b = true → inside b = false := by
    intro b hb
    cases hin : inside b with
    | false => rfl
    | true =>
        rw [hdisjoint b hin] at hb
        cases hb
  have hregion : ∀ b ∈ gatherRegion inside header order, other b = false :=
    fun b hb => hdisjoint b (mem_gatherRegion hheader hb)
  have hmiddle : ∀ b ∈ around :: rest, inside b = false := by
    intro b hb
    cases List.mem_cons.mp hb with
    | inl hsame => rw [hsame]; exact houtside _ haround
    | inr hin => exact houtside b (hrest b hin)
  by_cases hfront : ∀ b ∈ before, inside b = false
  · -- the members are all behind
    refine ⟨before, rest, gatherInto inside (gatherRegion inside header order) false after, ?_, haround, hrest,
      hbefore, ?_⟩
    · have hclear : ∀ b ∈ before ++ around :: rest, inside b = false := by
        intro b hb
        cases List.mem_append.mp hb with
        | inl hin => exact hfront b hin
        | inr hin => exact hmiddle b hin
      unfold gathered
      conv => lhs; rw [heq]
      rw [gatherInto_outside hclear, ← heq]
    · have htail : header ∈ after := by
        rw [heq, List.mem_append, List.mem_append] at hmem
        cases hmem with
        | inl hin =>
            cases hin with
            | inl hin => rw [hfront _ hin] at hheader; cases hheader
            | inr hin => rw [hmiddle _ hin] at hheader; cases hheader
        | inr hin => exact hin
      obtain ⟨front, first, behind, hsplit, hfirst, hclear⟩ := exists_first htail hheader
      intro b hb
      have hb' : b ∈ front ++ (gatherRegion inside header order ++ behind.filter fun c => !inside c) := by
        rw [hsplit, gatherInto_outside hclear, gatherInto_first hfirst] at hb
        exact hb
      rcases List.mem_append.mp hb' with hin | hin
      · exact hafter b (by rw [hsplit]; exact List.mem_append_left _ hin)
      · rcases List.mem_append.mp hin with hin | hin
        · exact hregion b hin
        · refine hafter b ?_
          rw [hsplit]
          exact List.mem_append_right _ (List.mem_cons_of_mem _ (List.mem_of_mem_filter hin))
  · -- the first member is in front
    simp only [not_forall, Bool.not_eq_false] at hfront
    obtain ⟨b, hb, hin⟩ := hfront
    obtain ⟨front, first, behind, hsplit, hfirst, hclear⟩ := exists_first hb hin
    refine ⟨front ++ (gatherRegion inside header order ++ behind.filter fun c => !inside c), rest,
      after.filter fun c => !inside c, ?_, haround, hrest, ?_, ?_⟩
    · have hwhole : order = front ++ first :: (behind ++ (around :: rest) ++ after) := by
        rw [heq, hsplit]
        simp
      conv => lhs; rw [hwhole]
      rw [gathered_eq hfirst hclear, ← hwhole, List.filter_append, List.filter_append, filter_of_outside hmiddle]
      simp
    · intro c hc
      rcases List.mem_append.mp hc with hc | hc
      · exact hbefore c (by rw [hsplit]; exact List.mem_append_left _ hc)
      · rcases List.mem_append.mp hc with hc | hc
        · exact hregion c hc
        · refine hbefore c ?_
          rw [hsplit]
          exact List.mem_append_right _ (List.mem_cons_of_mem _ (List.mem_of_mem_filter hc))
    · intro c hc
      exact hafter c (List.mem_of_mem_filter hc)

/-- Gathering a part without the header keeps together what stands together. -/
theorem Together.of_subset {around : α} (h : Together other around order) (hmem : header ∈ order)
    (hheader : inside header = true) (hsub : ∀ b, inside b = true → other b = true) (hout : inside around = false) :
    Together other around (gathered inside header order) := by
  obtain ⟨before, rest, after, heq, haround, hrest, hbefore, hafter⟩ := h
  have houtside : ∀ b, other b = false → inside b = false := by
    intro b hb
    cases hin : inside b with
    | false => rfl
    | true =>
        rw [hsub b hin] at hb
        cases hb
  have hclear : ∀ b ∈ before ++ [around], inside b = false := by
    intro b hb
    cases List.mem_append.mp hb with
    | inl hin => exact houtside b (hbefore b hin)
    | inr hin => rw [List.mem_singleton.mp hin]; exact hout
  have hbehind : ∀ b ∈ after, inside b = false := fun b hb => houtside b (hafter b hb)
  have hinside : header ∈ rest := by
    rw [heq, List.mem_append, List.mem_append, List.mem_cons] at hmem
    rcases hmem with (hin | hin | hin) | hin
    · rw [houtside _ (hbefore _ hin)] at hheader; cases hheader
    · rw [hin, hout] at hheader; cases hheader
    · exact hin
    · rw [hbehind _ hin] at hheader; cases hheader
  obtain ⟨front, first, behind, hsplit, hfirst, hfront⟩ := exists_first hinside hheader
  refine ⟨before, front ++ (gatherRegion inside header order ++ behind.filter fun c => !inside c), after, ?_,
    haround, ?_, hbefore, hafter⟩
  · have hwhole : order = (before ++ [around] ++ front) ++ first :: (behind ++ after) := by
      rw [heq, hsplit]
      simp
    conv => lhs; rw [hwhole]
    rw [gathered_eq hfirst, ← hwhole, List.filter_append, filter_of_outside hbehind]
    · simp
    · intro b hb
      cases List.mem_append.mp hb with
      | inl hin => exact hclear b hin
      | inr hin => exact hfront b hin
  · intro b hb
    rcases List.mem_append.mp hb with hin | hin
    · exact hrest b (by rw [hsplit]; exact List.mem_append_left _ hin)
    · rcases List.mem_append.mp hin with hin | hin
      · exact hsub b (mem_gatherRegion hheader hin)
      · refine hrest b ?_
        rw [hsplit]
        exact List.mem_append_right _ (List.mem_cons_of_mem _ (List.mem_of_mem_filter hin))

end Gather

end Disco.Library
