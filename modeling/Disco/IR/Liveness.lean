import Disco.IR.Verified

/-! # Live values

A value is live at a point when some way to go on from there reads it before
anything defines it again. Points stand between the instructions of a block:
point `k` comes before instruction `k`, the last point before the edges that
leave the block. The operands of a PHI are read on the edges into its block.

In an accepted function the definition of a live value dominates the point, so
of two values live together one is live where the other is defined. This is
what makes interference at definitions enough for a register allocator.
-/

namespace Disco.IR

open Library Verifier

/-- The values a PHI of block `s` reads on the edge from block `b`. -/
def edgeOperand (f : Function) (b s v : Nat) : Prop :=
  ∃ i ∈ phis (f.code s), (v, b) ∈ i.operands.zip i.targets

/-- Value `v` is live at point `k` of block `b`. -/
inductive LiveAt (f : Function) : Nat → Nat → Nat → Prop where
  | use {b k v : Nat} {i : Instruction} (at_k : (f.code b)[k]? = some i)
      (not_phi : i.opcode ≠ .phi) (reads : v ∈ i.operands) : LiveAt f b k v
  | pass {b k v : Nat} {i : Instruction} (at_k : (f.code b)[k]? = some i)
      (keeps : i.result ≠ v) (later : LiveAt f b (k + 1) v) : LiveAt f b k v
  | edge {b s v : Nat} (step : flow f b s) (later : LiveAt f s 0 v) :
      LiveAt f b (f.code b).length v
  | phi {b s v : Nat} (step : flow f b s) (reads : edgeOperand f b s v) :
      LiveAt f b (f.code b).length v

/-- Some instruction reads the value. -/
def Used (f : Function) (v : Nat) : Prop := ∃ i ∈ f.instructions, v ∈ i.operands

/-- Both values are results of PHIs of one block. -/
def ParallelPhis (f : Function) (v w : Nat) : Prop :=
  ∃ b, (∃ i ∈ phis (f.code b), i.result = v) ∧ ∃ j ∈ phis (f.code b), j.result = w

/-- One of the values is live where the other has just been defined. -/
def Interferes (f : Function) (v w : Nat) : Prop :=
  (∃ site, f.site v = some site ∧ LiveAt f site.block (site.position + 1) w) ∨
    ∃ site, f.site w = some site ∧ LiveAt f site.block (site.position + 1) v

theorem Interferes.symm {f : Function} {v w : Nat} (h : Interferes f v w) : Interferes f w v :=
  Or.symm h

theorem mem_code_of_mem_phis {f : Function} {b : Nat} {i : Instruction}
    (h : i ∈ phis (f.code b)) : i ∈ f.code b ∧ i.opcode = .phi := by
  refine ⟨(List.takeWhile_subset _) h, ?_⟩
  simpa using List.mem_takeWhile_imp h

theorem mem_instructions {f : Function} {i : Instruction} :
    i ∈ f.instructions ↔ ∃ b, i ∈ f.code b := by
  unfold Function.instructions Function.code
  rw [List.mem_flatMap]
  constructor
  · rintro ⟨block, hblock, hi⟩
    obtain ⟨b, hb⟩ := List.mem_iff_getElem?.mp hblock
    exact ⟨b, by rw [hb]; exact hi⟩
  · rintro ⟨b, hi⟩
    cases hb : f.blocks[b]? with
    | none => rw [hb] at hi; simp at hi
    | some block =>
        rw [hb] at hi
        exact ⟨block, List.mem_of_getElem? hb, hi⟩

theorem LiveAt.position_le_length {f : Function} {b k v : Nat} (h : LiveAt f b k v) : k ≤ (f.code b).length := by
  cases h with
  | use hi _ _ => exact (List.getElem?_eq_some_iff.mp hi).1.le
  | pass hi _ _ => exact (List.getElem?_eq_some_iff.mp hi).1.le
  | edge _ _ => exact le_rfl
  | phi _ _ => exact le_rfl

/-- What is live before an instruction is read by it or live after it. -/
theorem LiveAt.next {f : Function} {b k v : Nat} {i : Instruction} (h : LiveAt f b k v)
    (hi : (f.code b)[k]? = some i) : (i.opcode ≠ .phi ∧ v ∈ i.operands) ∨ LiveAt f b (k + 1) v := by
  have hlt := (List.getElem?_eq_some_iff.mp hi).1
  generalize hpoint : k = p at h hi
  cases h with
  | use hi' hphi hv =>
      rw [hi] at hi'
      cases hi'
      exact .inl ⟨hphi, hv⟩
  | pass _ _ later => exact .inr later
  | edge _ _ => omega
  | phi _ _ => omega

theorem LiveAt.used {f : Function} {b k v : Nat} (h : LiveAt f b k v) : Used f v := by
  induction h with
  | use hi _ hv => exact ⟨_, mem_instructions.mpr ⟨_, List.mem_of_getElem? hi⟩, hv⟩
  | pass _ _ _ ih => exact ih
  | edge _ _ ih => exact ih
  | phi _ hreads =>
      obtain ⟨i, hi, hedge⟩ := hreads
      exact ⟨i, mem_instructions.mpr ⟨_, (mem_code_of_mem_phis hi).1⟩, (List.of_mem_zip hedge).1⟩

/-- Later PHIs of a block do not end the life of an earlier one. -/
theorem LiveAt.later_phi {f : Function} {b k k' v : Nat} (h : LiveAt f b k v) (hle : k ≤ k')
    (hphis : k' ≤ (phis (f.code b)).length) : LiveAt f b k' v := by
  induction k', hle using Nat.le_induction with
  | base => exact h
  | succ k' hk ih =>
      have hlt : k' < (phis (f.code b)).length := by omega
      have hmem : (phis (f.code b))[k'] ∈ phis (f.code b) := List.getElem_mem hlt
      have hlen : (phis (f.code b)).length ≤ (f.code b).length :=
        (List.takeWhile_sublist _).length_le
      have hat : (f.code b)[k']? = some (phis (f.code b))[k'] := by
        have hsplit := phis_append_body (f.code b)
        calc (f.code b)[k']? = (phis (f.code b) ++ body (f.code b))[k']? := by rw [hsplit]
          _ = (phis (f.code b))[k']? := List.getElem?_append_left hlt
          _ = some (phis (f.code b))[k'] := List.getElem?_eq_getElem hlt
      have hlive := ih (by omega)
      generalize hpoint : k' = p at hlive
      cases hlive with
      | use hi hnot _ =>
          subst hpoint
          rw [hat] at hi
          cases hi
          exact absurd (mem_code_of_mem_phis hmem).2 hnot
      | pass _ _ later => exact hpoint ▸ later
      | edge _ _ => omega
      | phi _ _ => omega

namespace Verified

variable {f : Function} (hf : Verified f)

include hf

theorem site_of_code {b k : Nat} {i : Instruction} (hi : (f.code b)[k]? = some i)
    (hne : i.result ≠ 0) : f.site i.result = some ⟨b, k, i⟩ := by
  have hmem : (⟨b, k, i⟩ : Site) ∈ f.sites := mem_sites.mpr hi
  exact site_eq_some hf.single hmem hne

theorem phi_of_mem {b : Nat} {i : Instruction} (h : i ∈ phis (f.code b)) : PhiVerified f b i := by
  obtain ⟨hi, hphi⟩ := mem_code_of_mem_phis h
  obtain ⟨site, hsite, rfl, rfl⟩ := mem_sites_of_mem_code hi
  exact hf.phi site hsite hphi

/-- A PHI stands among the PHIs of its block. -/
theorem mem_phis {b : Nat} {i : Instruction} (hi : i ∈ f.code b) (hphi : i.opcode = .phi) :
    i ∈ phis (f.code b) := by
  rw [← phis_append_body (f.code b)] at hi
  rcases List.mem_append.mp hi with h | h
  · exact h
  · exact absurd hphi (hf.not_phi_of_mem_body h)

/-- Blocks that are not reached read nothing and lead nowhere. -/
theorem reached_of_mem {b : Nat} {i : Instruction} (hi : i ∈ f.code b)
    (h : i.opcode ≠ .unreachable) : Reached (flow f) f.entry b := by
  by_contra hnot
  obtain ⟨j, hcode, hop⟩ := hf.unreached b (lt_of_mem_code hi) hnot
  rw [hcode, List.mem_singleton] at hi
  exact h (hi ▸ hop)

theorem operands_of_unreachable {b k : Nat} {i : Instruction} (hi : (f.code b)[k]? = some i)
    (hop : i.opcode = .unreachable) : i.operands = [] ∧ i.targets = [] := by
  obtain ⟨block, -, hs⟩ := hf.scannedAt hi
  obtain ⟨seen, hshape⟩ := hs.shape
  simpa [checkShape, hop, not_or] using hshape

theorem reached_of_flow {b s : Nat} (h : flow f b s) : Reached (flow f) f.entry b := by
  obtain ⟨i, hi, -, ht⟩ := mem_successors.mp h
  apply hf.reached_of_mem hi
  intro hop
  obtain ⟨k, hk⟩ := List.mem_iff_getElem?.mp hi
  rw [(hf.operands_of_unreachable hk hop).2] at ht
  cases ht

theorem reached_of_operand {b : Nat} {i : Instruction} {v : Nat} (hi : i ∈ f.code b)
    (hv : v ∈ i.operands) : Reached (flow f) f.entry b := by
  apply hf.reached_of_mem hi
  intro hop
  obtain ⟨k, hk⟩ := List.mem_iff_getElem?.mp hi
  rw [(hf.operands_of_unreachable hk hop).1] at hv
  cases hv

theorem lt_of_reached {b : Nat} (h : Reached (flow f) f.entry b) : b < f.blocks.length := by
  cases h with
  | start => exact hf.entry_lt
  | next _ step =>
      obtain ⟨i, hi, -, ht⟩ := mem_successors.mp step
      obtain ⟨k, hk⟩ := List.mem_iff_getElem?.mp hi
      obtain ⟨_, -, hs⟩ := hf.scannedAt hk
      exact hs.targets b ht

theorem reached_of_liveAt {b k v : Nat} (h : LiveAt f b k v) : Reached (flow f) f.entry b := by
  induction h with
  | use hi _ hv => exact hf.reached_of_operand (List.mem_of_getElem? hi) hv
  | pass _ _ _ ih => exact ih
  | edge step _ _ => exact hf.reached_of_flow step
  | phi step _ => exact hf.reached_of_flow step

/-- The definition of a live value comes before the point in its block, or in
another block that dominates this one. -/
theorem defined_of_liveAt {b k v : Nat} (h : LiveAt f b k v) :
    ∃ site, f.site v = some site ∧ (site.block = b → site.position < k) ∧
      (site.block ≠ b → Dominates (flow f) f.entry site.block b) := by
  induction h with
  | @use b k v i hi hphi hv =>
      have hmem : (⟨b, k, i⟩ : Site) ∈ f.sites := mem_sites.mpr hi
      obtain ⟨site, hsite, hsame, hdom⟩ := hf.operand _ hmem hphi v hv
      exact ⟨site, hsite, hsame, fun hne =>
        hdom hne (hf.reached_of_operand (List.mem_of_getElem? hi) hv)⟩
  | @pass b k v i hi hne _ ih =>
      obtain ⟨site, hsite, hsame, hdom⟩ := ih
      refine ⟨site, hsite, fun hb => ?_, hdom⟩
      have hlt := hsame hb
      -- the instruction passed over is not the definition
      have hpos : site.position ≠ k := by
        intro hk
        obtain ⟨hmem, hres⟩ := of_site_eq_some hsite
        have hcode := mem_sites.mp hmem
        rw [hb, hk, hi] at hcode
        cases hcode
        exact hne hres
      omega
  | @edge b s v step _ ih =>
      obtain ⟨site, hsite, hsame, hdom⟩ := ih
      have hs : site.block ≠ s := by
        intro hs
        exact absurd (hsame hs) (Nat.not_lt_zero _)
      refine ⟨site, hsite, fun hb => ?_, fun _ => (hdom hs).predecessor step (Ne.symm hs)⟩
      obtain ⟨hmem, -⟩ := of_site_eq_some hsite
      rw [← hb]
      exact (List.getElem?_eq_some_iff.mp (mem_sites.mp hmem)).1
  | @phi b s v step hreads =>
      obtain ⟨i, hi, hedge⟩ := hreads
      obtain ⟨-, -, site, hsite, hdom, -⟩ := (hf.phi_of_mem hi).edges _ hedge
      refine ⟨site, hsite, fun hb => ?_, fun _ => hdom⟩
      obtain ⟨hmem, -⟩ := of_site_eq_some hsite
      rw [← hb]
      exact (List.getElem?_eq_some_iff.mp (mem_sites.mp hmem)).1

theorem operand_ne_zero {b : Nat} {i : Instruction} {v : Nat} (hi : i ∈ f.code b)
    (hv : v ∈ i.operands) : v ≠ 0 := by
  obtain ⟨k, hk⟩ := List.mem_iff_getElem?.mp hi
  obtain ⟨_, -, hs⟩ := hf.scannedAt hk
  exact (hs.operands v hv).1

theorem ne_zero_of_liveAt {b k v : Nat} (h : LiveAt f b k v) : v ≠ 0 := by
  induction h with
  | use hi _ hv => exact hf.operand_ne_zero (List.mem_of_getElem? hi) hv
  | pass _ _ _ ih => exact ih
  | edge _ _ ih => exact ih
  | phi _ hreads =>
      obtain ⟨i, hi, hedge⟩ := hreads
      exact hf.operand_ne_zero (mem_code_of_mem_phis hi).1 (List.of_mem_zip hedge).1

/-- A live value stays live up to its definition, going back in a block. -/
theorem liveAt_back {b k k' v : Nat} (h : LiveAt f b k v) (hle : k' ≤ k)
    (hlen : k ≤ (f.code b).length) {site : Site} (hsite : f.site v = some site)
    (hdef : site.block = b → site.position < k') : LiveAt f b k' v := by
  induction k, hle using Nat.le_induction with
  | base => exact h
  | succ k hk ih =>
      have hi : (f.code b)[k]? = some (f.code b)[k] := List.getElem?_eq_getElem (by omega)
      refine ih (.pass hi ?_ h) (by omega)
      intro hres
      have hdefined := hf.site_of_code hi (hres ▸ hf.ne_zero_of_liveAt h)
      rw [hres, hsite] at hdefined
      cases hdefined
      have := hdef rfl
      simp only at this
      omega

/-- A value live in another block than its own is live at the start of it. -/
theorem liveAt_start {b k v : Nat} (h : LiveAt f b k v) {site : Site}
    (hsite : f.site v = some site) (hne : site.block ≠ b) : LiveAt f b 0 v :=
  hf.liveAt_back h (Nat.zero_le _) h.position_le_length hsite fun hb => absurd hb hne

/-- A value live in its own block is live from its definition on. -/
theorem liveAt_definition {b k v : Nat} (h : LiveAt f b k v) {site : Site}
    (hsite : f.site v = some site) (hb : site.block = b) :
    LiveAt f b (site.position + 1) v := by
  obtain ⟨site', hsite', hsame, -⟩ := hf.defined_of_liveAt h
  rw [hsite] at hsite'
  cases hsite'
  exact hf.liveAt_back h (hsame hb) h.position_le_length hsite fun _ => Nat.lt_succ_self _

/-- No value is live at the start of the function. -/
theorem not_liveAt_entry {v : Nat} : ¬ LiveAt f f.entry 0 v := by
  intro h
  obtain ⟨site, -, hsame, hdom⟩ := hf.defined_of_liveAt h
  by_cases hb : site.block = f.entry
  · exact absurd (hsame hb) (Nat.not_lt_zero _)
  · exact hdom hb (.start (Ne.symm hb))

/-- A live value is live right after its definition. -/
theorem liveAt_after_definition {b k v : Nat} (h : LiveAt f b k v) :
    ∃ site, f.site v = some site ∧ LiveAt f site.block (site.position + 1) v := by
  obtain ⟨site, hsite, -, -⟩ := hf.defined_of_liveAt h
  refine ⟨site, hsite, ?_⟩
  -- back along a walk from the entry, until the block of the definition
  have key : ∀ a, Reached (flow f) f.entry a → LiveAt f a 0 v →
      LiveAt f site.block (site.position + 1) v := by
    intro a ha
    induction ha with
    | start => exact fun hlive => absurd hlive hf.not_liveAt_entry
    | @next a b _ step ih =>
        intro hlive
        have hend : LiveAt f a (f.code a).length v := .edge step hlive
        by_cases hb : site.block = a
        · subst hb
          exact hf.liveAt_definition hend hsite rfl
        · exact ih (hf.liveAt_start hend hsite hb)
  by_cases hb : site.block = b
  · subst hb
    exact hf.liveAt_definition h hsite rfl
  · exact key b (hf.reached_of_liveAt h) (hf.liveAt_start h hsite hb)

/-- Two values live at a point of a block that defines one of them. -/
theorem interferes_of_block {b k v w : Nat} (hv : LiveAt f b k v) (hw : LiveAt f b k w)
    (hne : v ≠ w) {site : Site} (hsite : f.site v = some site) (hb : site.block = b) :
    Interferes f v w := by
  obtain ⟨site', hsite', hsame', -⟩ := hf.defined_of_liveAt hw
  obtain ⟨_, h, hsame, -⟩ := hf.defined_of_liveAt hv
  rw [hsite] at h
  cases h
  have hpos := hsame hb
  have hlen := hw.position_le_length
  by_cases hb' : site'.block = b
  · -- both are defined here: the earlier one is live at the later definition
    have hpos' := hsame' hb'
    rcases Nat.lt_trichotomy site.position site'.position with hlt | heq | hlt
    · refine .inr ⟨site', hsite', ?_⟩
      rw [hb']
      exact hf.liveAt_back hv hpos' hlen hsite fun _ => Nat.lt_succ_of_lt hlt
    · obtain ⟨hmem, hres⟩ := of_site_eq_some hsite
      obtain ⟨hmem', hres'⟩ := of_site_eq_some hsite'
      have hcode := mem_sites.mp hmem
      have hcode' := mem_sites.mp hmem'
      rw [hb, heq] at hcode
      rw [hb', hcode, Option.some.injEq] at hcode'
      rw [hcode', hres'] at hres
      exact absurd hres.symm hne
    · refine .inl ⟨site, hsite, ?_⟩
      rw [hb]
      exact hf.liveAt_back hw hpos hlen hsite' fun _ => Nat.lt_succ_of_lt hlt
  · refine .inl ⟨site, hsite, ?_⟩
    rw [hb]
    exact hf.liveAt_back hw hpos hlen hsite' fun h => absurd h hb'

/-- Of two values live at one point, one is live where the other is defined. -/
theorem interferes_of_liveAt {b k v w : Nat} (hv : LiveAt f b k v) (hw : LiveAt f b k w)
    (hne : v ≠ w) : Interferes f v w := by
  obtain ⟨sv, hsv, -, -⟩ := hf.defined_of_liveAt hv
  obtain ⟨sw, hsw, -, -⟩ := hf.defined_of_liveAt hw
  have key : ∀ a, Reached (flow f) f.entry a → LiveAt f a 0 v → LiveAt f a 0 w →
      Interferes f v w := by
    intro a ha
    induction ha with
    | start => exact fun hlive _ => absurd hlive hf.not_liveAt_entry
    | @next a b _ step ih =>
        intro hlv hlw
        have hev : LiveAt f a (f.code a).length v := .edge step hlv
        have hew : LiveAt f a (f.code a).length w := .edge step hlw
        by_cases hbv : sv.block = a
        · exact hf.interferes_of_block hev hew hne hsv hbv
        · by_cases hbw : sw.block = a
          · exact (hf.interferes_of_block hew hev (Ne.symm hne) hsw hbw).symm
          · exact ih (hf.liveAt_start hev hsv hbv) (hf.liveAt_start hew hsw hbw)
  by_cases hbv : sv.block = b
  · exact hf.interferes_of_block hv hw hne hsv hbv
  · by_cases hbw : sw.block = b
    · exact (hf.interferes_of_block hw hv (Ne.symm hne) hsw hbw).symm
    · exact key b (hf.reached_of_liveAt hv) (hf.liveAt_start hv hsv hbv)
        (hf.liveAt_start hw hsw hbw)

/-- A value that is read is live somewhere. -/
theorem liveAt_of_used {v : Nat} (h : Used f v) : ∃ b k, LiveAt f b k v := by
  obtain ⟨i, hi, hv⟩ := h
  obtain ⟨b, hi⟩ := mem_instructions.mp hi
  by_cases hphi : i.opcode = .phi
  · have hmem := hf.mem_phis hi hphi
    have hverified := hf.phi_of_mem hmem
    obtain ⟨n, hn⟩ := List.mem_iff_getElem?.mp hv
    have hlt : n < i.targets.length := by
      rw [← hverified.lengths]
      exact (List.getElem?_eq_some_iff.mp hn).1
    have hedge : (v, i.targets[n]) ∈ i.operands.zip i.targets := by
      apply List.mem_of_getElem? (i := n)
      rw [List.getElem?_zip_eq_some]
      exact ⟨hn, List.getElem?_eq_getElem hlt⟩
    exact ⟨_, _, .phi (hverified.edges _ hedge).1 ⟨i, hmem, hedge⟩⟩
  · obtain ⟨k, hk⟩ := List.mem_iff_getElem?.mp hi
    exact ⟨b, k, .use hk hphi hv⟩

/-- Two PHIs of one block whose values are read interfere. -/
theorem interferes_of_parallelPhis {v w : Nat} (h : ParallelPhis f v w) (hv : Used f v)
    (hw : Used f w) (hne : v ≠ w) : Interferes f v w := by
  obtain ⟨b, ⟨i, hi, rfl⟩, j, hj, rfl⟩ := h
  obtain ⟨m, hm⟩ := List.mem_iff_getElem?.mp hi
  obtain ⟨n, hn⟩ := List.mem_iff_getElem?.mp hj
  have hcode : ∀ {k : Nat} {x : Instruction}, (phis (f.code b))[k]? = some x →
      (f.code b)[k]? = some x := by
    intro k x hk
    have hlt := (List.getElem?_eq_some_iff.mp hk).1
    rw [← phis_append_body (f.code b), List.getElem?_append_left hlt]
    exact hk
  obtain ⟨bv, kv, hlv⟩ := hf.liveAt_of_used hv
  obtain ⟨bw, kw, hlw⟩ := hf.liveAt_of_used hw
  have hsv := hf.site_of_code (hcode hm) (hf.ne_zero_of_liveAt hlv)
  have hsw := hf.site_of_code (hcode hn) (hf.ne_zero_of_liveAt hlw)
  have hmlt := (List.getElem?_eq_some_iff.mp hm).1
  have hnlt := (List.getElem?_eq_some_iff.mp hn).1
  obtain ⟨s, hs, hav⟩ := hf.liveAt_after_definition hlv
  rw [hsv] at hs
  cases hs
  obtain ⟨s, hs, haw⟩ := hf.liveAt_after_definition hlw
  rw [hsw] at hs
  cases hs
  rcases Nat.le_total m n with hmn | hnm
  · exact .inr ⟨_, hsw, hav.later_phi (Nat.succ_le_succ hmn) hnlt⟩
  · exact .inl ⟨_, hsv, haw.later_phi (Nat.succ_le_succ hnm) hmlt⟩

end Verified

end Disco.IR
