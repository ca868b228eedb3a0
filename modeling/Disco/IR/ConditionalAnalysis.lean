import Disco.IR.ConditionalOptimizer
import Disco.IR.Verified

/-! # The fixed point of the conditional analysis

Every instruction of a reachable block is queued or agrees with the current
facts. The queue is empty at the end, so the final facts satisfy all their
equations at once; nothing here depends on the order of the queue.
-/

namespace Disco.IR.ConditionalOptimizer

open Library

namespace Fact

@[simp] theorem meet_unknown (a : Fact) : a.meet .unknown = a := by cases a <;> rfl

@[simp] theorem unknown_meet (a : Fact) : Fact.unknown.meet a = a := rfl

@[simp] theorem varying_meet (a : Fact) : Fact.varying.meet a = .varying := by cases a <;> rfl

@[simp] theorem meet_varying (a : Fact) : a.meet .varying = .varying := by cases a <;> rfl

@[simp] theorem meet_meet_self (a b : Fact) : (a.meet b).meet b = a.meet b := by
  cases a with
  | unknown => cases b <;> simp [meet]
  | constant x =>
      cases b with
      | unknown => rfl
      | constant y => by_cases h : x = y <;> simp [meet, h]
      | varying => rfl
  | varying => cases b <;> rfl

/-- A constant meet comes from constants. -/
theorem meet_eq_constant {a b : Fact} {value : Int} (h : a.meet b = .constant value) :
    a = .constant value ∨ b = .constant value := by
  cases a with
  | unknown => exact .inr (by simpa using h)
  | constant x =>
      cases b with
      | unknown => exact .inl h
      | constant y =>
          by_cases hxy : x = y
          · subst hxy
            exact .inl (by simpa [meet] using h)
          · simp [meet, hxy] at h
      | varying => cases h
  | varying => simp at h

/-- Nothing below a meet is less than its parts. -/
theorem of_meet_eq_left {a b : Fact} (h : a.meet b = a) {value : Int} (ha : a = .constant value)
    (hb : b ≠ .unknown) : b = .constant value := by
  subst ha
  cases b with
  | unknown => exact absurd rfl hb
  | constant y =>
      by_cases hxy : value = y
      · rw [hxy]
      · simp [meet, hxy] at h
  | varying => cases h

end Fact

variable {f : Function}

/-! ## The queue -/

/-- Queueing changes nothing but the queue, and loses nothing from it. -/
structure Queued (a a' : Analysis) (nodes : List Node) : Prop where
  facts : a'.facts = a.facts
  reachable : a'.reachable = a.reachable
  executable : a'.executable = a.executable
  keeps : ∀ n ∈ a.pending, n ∈ a'.pending
  adds : ∀ n ∈ nodes, n ∈ a'.pending

theorem queued_of_foldAll {nodes : List Node} {a a' : Analysis}
    (h : foldAll enqueue a nodes = .ok a') : Queued a a' nodes := by
  induction nodes generalizing a with
  | nil =>
      cases h
      exact ⟨rfl, rfl, rfl, fun _ h => h, by simp⟩
  | cons n rest ih =>
      obtain ⟨b, hb, h⟩ := bind_eq_ok.mp h
      obtain ⟨work, -, hb⟩ := bind_eq_ok.mp hb
      cases hb
      have hrest := ih h
      refine ⟨hrest.facts, hrest.reachable, hrest.executable, ?_, ?_⟩
      · intro m hm
        apply hrest.keeps
        simp only
        split
        · exact hm
        · exact List.mem_append_left _ hm
      · intro m hm
        rcases List.mem_cons.mp hm with rfl | hm
        · apply hrest.keeps
          simp only
          split
          · assumption
          · exact List.mem_append_right _ List.mem_cons_self
        · exact hrest.adds m hm

theorem mem_users {v b k : Nat} {i : Instruction} (hi : (f.code b)[k]? = some i)
    (hv : v ∈ i.operands) : (b, k) ∈ users f v := by
  unfold users
  refine List.mem_flatMap.mpr ⟨⟨b, k, i⟩, mem_sites.mpr hi, ?_⟩
  exact List.mem_map.mpr ⟨v, List.mem_filter.mpr ⟨hv, by simp⟩, rfl⟩

theorem mem_blockNodes {b k : Nat} {i : Instruction} (hi : (f.code b)[k]? = some i) :
    (b, k) ∈ blockNodes f b :=
  List.mem_map.mpr ⟨k, List.mem_range.mpr (List.getElem?_eq_some_iff.mp hi).1, rfl⟩

/-- In an accepted function the PHIs are the initial ones. -/
theorem mem_phiNodes (hf : Verified f) {b k : Nat} {i : Instruction}
    (hi : (f.code b)[k]? = some i) (hphi : i.opcode = .phi) : (b, k) ∈ phiNodes f b := by
  refine List.mem_map.mpr ⟨k, List.mem_range.mpr ?_, rfl⟩
  by_contra hge
  have hbody : (body (f.code b))[k - (phis (f.code b)).length]? = some i := by
    rw [← getElem?_body, Nat.add_sub_cancel' (by omega)]
    exact hi
  exact hf.not_phi_of_mem_body (List.mem_of_getElem? hbody) hphi

/-- Lowering a fact queues the uses it reaches. -/
structure Updated (f : Function) (v : Nat) (next : Fact) (a a' : Analysis) : Prop where
  facts : a'.facts = Function.update a.facts v ((a.facts v).meet next)
  reachable : a'.reachable = a.reachable
  executable : a'.executable = a.executable
  keeps : ∀ n ∈ a.pending, n ∈ a'.pending
  users : (a.facts v).meet next ≠ a.facts v →
    ∀ use ∈ users f v, use.1 ∈ a.reachable → use ∈ a'.pending

theorem updated_of_update {v : Nat} {next : Fact} {a a' : Analysis}
    (h : update f v next a = .ok a') : Updated f v next a a' := by
  unfold update at h
  simp only at h
  split at h
  · next heq =>
      cases h
      refine ⟨?_, rfl, rfl, fun _ h => h, fun hne => absurd heq hne⟩
      rw [heq, Function.update_eq_self]
  · next hne =>
      have hq := queued_of_foldAll h
      refine ⟨hq.facts, hq.reachable, hq.executable, hq.keeps, ?_⟩
      intro _ use huse hr
      exact hq.adds use (List.mem_filter.mpr ⟨huse, by simpa using hr⟩)

/-! ## Settled instructions -/

/-- An instruction that agrees with the facts: its own fact is at least what it
evaluates to, and the edges it leaves open are executable. -/
structure Settled (f : Function) (a : Analysis) (b : Nat) (i : Instruction) : Prop where
  value : i.result ≠ 0 →
    (a.facts i.result).meet (evaluate f a.facts a.executable i b) = a.facts i.result
  edges : i.isTerminator = true → ∀ t ∈ openTargets a.facts i, (b, t) ∈ a.executable

theorem foldFact_congr {facts facts' : Nat → Fact} {i : Instruction}
    (h : ∀ v ∈ i.operands, facts' v = facts v) : foldFact f facts' i = foldFact f facts i := by
  unfold foldFact
  have hex : ∀ fact, (∃ v ∈ i.operands, facts' v = fact) ↔ ∃ v ∈ i.operands, facts v = fact := by
    intro fact
    constructor
    · rintro ⟨v, hv, hfact⟩
      exact ⟨v, hv, by rw [← h v hv]; exact hfact⟩
    · rintro ⟨v, hv, hfact⟩
      exact ⟨v, hv, by rw [h v hv]; exact hfact⟩
  have hmap : (i.operands.map fun v => (⟨f.typeOf v, (facts' v).value⟩ : ScalarFold.Operand)) =
      i.operands.map fun v => ⟨f.typeOf v, (facts v).value⟩ :=
    List.map_congr_left fun v hv => by rw [h v hv]
  simp only [hex, hmap]

theorem foldl_congr_mem {α β : Type} {g h : β → α → β} {list : List α}
    (heq : ∀ a ∈ list, ∀ b, g b a = h b a) (b : β) : list.foldl g b = list.foldl h b := by
  induction list generalizing b with
  | nil => rfl
  | cons a rest ih =>
      simp only [List.foldl_cons]
      rw [heq a List.mem_cons_self b]
      exact ih (fun a ha => heq a (List.mem_cons_of_mem _ ha)) _

theorem evaluate_congr {facts facts' : Nat → Fact} {executable executable' : Finset (Nat × Nat)}
    {i : Instruction} {b : Nat} (hfacts : ∀ v ∈ i.operands, facts' v = facts v)
    (hedges : i.opcode = .phi → ∀ t, (t, b) ∈ executable' ↔ (t, b) ∈ executable) :
    evaluate f facts' executable' i b = evaluate f facts executable i b := by
  unfold evaluate
  rw [foldFact_congr hfacts]
  split
  · rfl
  · split
    · rfl
    · next hphi =>
        apply foldl_congr_mem
        intro edge hedge result
        rw [hfacts edge.1 (List.of_mem_zip hedge).1]
        simp only [hedges hphi]
    all_goals rfl

theorem openTargets_congr {facts facts' : Nat → Fact} {i : Instruction}
    (h : facts' (i.operands.headD 0) = facts (i.operands.headD 0)) :
    openTargets facts' i = openTargets facts i := by
  simp only [openTargets, h]

theorem headD_ne {operands : List Nat} {v : Nat} (hv : v ≠ 0) (h : v ∉ operands) :
    operands.headD 0 ≠ v := by
  cases operands with
  | nil => exact fun heq => hv heq.symm
  | cons w rest =>
      rintro rfl
      exact h List.mem_cons_self

/-! ## The invariant -/

/-- Constants lie in the range of the type their value is defined at. -/
def Canonical (f : Function) (facts : Nat → Fact) : Prop :=
  ∀ v value, facts v = .constant value → convert value (f.typeOf v) = value

/-- The state of the analysis between two visits. `skip` is an instruction that
has been taken from the queue and not finished. -/
structure Consistent (f : Function) (a : Analysis) (skip : Node → Prop) : Prop where
  entry : f.entry ∈ a.reachable
  targets : ∀ e ∈ a.executable, e.2 ∈ a.reachable
  canonical : Canonical f a.facts
  nodes : ∀ b k i, b ∈ a.reachable → (f.code b)[k]? = some i →
    skip (b, k) ∨ (b, k) ∈ a.pending ∨ Settled f a b i

theorem typeOf_result (hf : Verified f) {b k : Nat} {i : Instruction}
    (hi : (f.code b)[k]? = some i) (hne : i.result ≠ 0) : f.typeOf i.result = i.type := by
  have hmem : (⟨b, k, i⟩ : Site) ∈ f.sites := mem_sites.mpr hi
  exact typeOf_of_site (site_eq_some hf.single hmem hne)

/-- An instruction is the only one to define its result. -/
theorem eq_of_result_eq (hf : Verified f) {b k b' k' : Nat} {i i' : Instruction}
    (hi : (f.code b)[k]? = some i) (hi' : (f.code b')[k']? = some i')
    (hne : i.result ≠ 0) (heq : i'.result = i.result) : b' = b ∧ k' = k ∧ i' = i := by
  have hmem : (⟨b, k, i⟩ : Site) ∈ f.sites := mem_sites.mpr hi
  have hmem' : (⟨b', k', i'⟩ : Site) ∈ f.sites := mem_sites.mpr hi'
  have hne' : i'.result ≠ 0 := by rw [heq]; exact hne
  have hs : f.site i.result = some ⟨b, k, i⟩ := site_eq_some hf.single hmem hne
  have hs' : f.site i'.result = some ⟨b', k', i'⟩ := site_eq_some hf.single hmem' hne'
  rw [heq, hs] at hs'
  cases hs'
  exact ⟨rfl, rfl, rfl⟩

theorem canonical_update {facts : Nat → Fact} {v : Nat} {next : Fact} (h : Canonical f facts)
    (hnext : ∀ value, next = .constant value → convert value (f.typeOf v) = value) :
    Canonical f (Function.update facts v ((facts v).meet next)) := by
  intro w value hw
  by_cases hwv : w = v
  · subst hwv
    rw [Function.update_self] at hw
    rcases Fact.meet_eq_constant hw with hw | hw
    · exact h w value hw
    · exact hnext value hw
  · rw [Function.update_of_ne hwv] at hw
    exact h w value hw

/-- A settled instruction stays settled when a fact it neither uses nor defines
changes. -/
theorem Settled.of_updated {a a' : Analysis} {v b : Nat} {next : Fact} {i : Instruction}
    (hs : Settled f a b i) (hu : Updated f v next a a') (hv : v ≠ 0) (huse : v ∉ i.operands)
    (hdef : i.result ≠ v) : Settled f a' b i := by
  have hother : ∀ w, w ≠ v → a'.facts w = a.facts w := by
    intro w hw
    rw [hu.facts, Function.update_of_ne hw]
  have hops : ∀ w ∈ i.operands, a'.facts w = a.facts w :=
    fun w hw => hother w fun heq => huse (heq ▸ hw)
  constructor
  · intro hne
    rw [hother _ hdef, hu.executable, evaluate_congr hops fun _ _ => Iff.rfl]
    exact hs.value hne
  · intro hterm t ht
    rw [hu.executable]
    rw [openTargets_congr (hother _ (headD_ne hv huse))] at ht
    exact hs.edges hterm t ht

/-- Lowering the fact of a defined value keeps the invariant: its users are
queued, and its definition must be settled by the caller. -/
theorem Consistent.update {a a' : Analysis} {skip : Node → Prop} {v : Nat} {next : Fact}
    (h : Consistent f a skip) (hu : Updated f v next a a') (hv : v ≠ 0)
    (hnext : ∀ value, next = .constant value → convert value (f.typeOf v) = value)
    (hdef : ∀ b k i, b ∈ a.reachable → (f.code b)[k]? = some i → i.result = v →
      skip (b, k) ∨ (b, k) ∈ a'.pending ∨ Settled f a' b i) : Consistent f a' skip := by
  refine ⟨hu.reachable ▸ h.entry, ?_, hu.facts ▸ canonical_update h.canonical hnext, ?_⟩
  · rw [hu.executable, hu.reachable]
    exact h.targets
  · intro b k i hb hi
    rw [hu.reachable] at hb
    by_cases hres : i.result = v
    · exact hdef b k i hb hi hres
    · rcases h.nodes b k i hb hi with hskip | hpend | hs
      · exact .inl hskip
      · exact .inr (.inl (hu.keeps _ hpend))
      · by_cases huse : v ∈ i.operands
        · by_cases hsame : (a.facts v).meet next = a.facts v
          · -- nothing changed
            have hfacts : a'.facts = a.facts := by
              rw [hu.facts, hsame, Function.update_eq_self]
            refine .inr (.inr ⟨?_, ?_⟩)
            · rw [hfacts, hu.executable]
              exact hs.value
            · rw [hfacts, hu.executable]
              exact hs.edges
          · exact .inr (.inl (hu.users hsame _ (mem_users hi huse) hb))
        · exact .inr (.inr (hs.of_updated hu hv huse hres))

/-! ## Evaluation yields values in range -/

theorem foldl_meet_eq_constant {edges : List (Nat × Nat)} {facts : Nat → Fact}
    {executable : Finset (Nat × Nat)} {b : Nat} {start : Fact} {value : Int}
    (h : edges.foldl (fun result edge =>
      if (edge.2, b) ∈ executable then result.meet (facts edge.1) else result) start =
        .constant value) :
    start = .constant value ∨ ∃ edge ∈ edges, facts edge.1 = .constant value := by
  induction edges generalizing start with
  | nil => exact .inl h
  | cons edge rest ih =>
      rw [List.foldl_cons] at h
      rcases ih h with hstart | ⟨e, he, hfact⟩
      · split at hstart
        · rcases Fact.meet_eq_constant hstart with hstart | hfact
          · exact .inl hstart
          · exact .inr ⟨edge, List.mem_cons_self, hfact⟩
        · exact .inl hstart
      · exact .inr ⟨e, List.mem_cons_of_mem _ he, hfact⟩

theorem convert_of_foldFact {facts : Nat → Fact} {i : Instruction} {value : Int}
    (h : foldFact f facts i = .constant value) : convert value i.type = value := by
  unfold foldFact at h
  split at h
  · cases h
  · split at h
    · cases h
    · split at h
      · next result heval =>
          cases h
          unfold ScalarFold.evaluate at heval
          split at heval
          · cases heval
          · simp only [Option.map_eq_some_iff] at heval
            obtain ⟨raw, -, rfl⟩ := heval
            exact convert_convert raw i.type
      · cases h

theorem evaluate_canonical (hf : Verified f) {facts : Nat → Fact} (hc : Canonical f facts)
    {executable : Finset (Nat × Nat)} {b k : Nat} {i : Instruction}
    (hi : (f.code b)[k]? = some i) {value : Int}
    (h : evaluate f facts executable i b = .constant value) : convert value i.type = value := by
  unfold evaluate at h
  split at h
  · cases h
  · split at h
    · cases h
      exact convert_convert _ _
    · next hphi =>
        rcases foldl_meet_eq_constant h with h | ⟨edge, hedge, hfact⟩
        · cases h
        · have hmem : (⟨b, k, i⟩ : Site) ∈ f.sites := mem_sites.mpr hi
          obtain ⟨-, -, definition, hdef, -, htype⟩ := (hf.phi _ hmem hphi).edges edge hedge
          have := hc edge.1 value hfact
          rw [typeOf_of_site hdef] at this
          rw [convert_of_sameValueType htype]
          exact this
    · exact convert_of_foldFact h
    · exact convert_of_foldFact h
    · exact convert_of_foldFact h
    · exact convert_of_foldFact h
    · cases h

/-! ## One visit -/

theorem Consistent.edge (hf : Verified f) {a a' : Analysis} {skip : Node → Prop}
    {source target : Nat} (h : Consistent f a skip) (he : edge f source a target = .ok a') :
    Consistent f a' skip ∧ a'.facts = a.facts ∧ (source, target) ∈ a'.executable ∧
      a.executable ⊆ a'.executable ∧ a.reachable ⊆ a'.reachable := by
  unfold ConditionalOptimizer.edge at he
  obtain ⟨work, -, he⟩ := bind_eq_ok.mp he
  split at he
  · next hmem =>
      cases he
      refine ⟨⟨h.entry, h.targets, h.canonical, ?_⟩, rfl, hmem, Finset.Subset.refl _,
        Finset.Subset.refl _⟩
      intro b k i hb hi
      rcases h.nodes b k i hb hi with hk | hk | hk
      · exact .inl hk
      · exact .inr (.inl hk)
      · exact .inr (.inr ⟨hk.value, hk.edges⟩)
  · have hq := queued_of_foldAll he
    have hmem : (source, target) ∈ a'.executable := by
      rw [hq.executable]
      exact Finset.mem_insert_self _ _
    have hsub : a.executable ⊆ a'.executable := by
      rw [hq.executable]
      exact Finset.subset_insert _ _
    refine ⟨⟨?_, ?_, hq.facts ▸ h.canonical, ?_⟩, hq.facts, hmem, hsub, ?_⟩
    · rw [hq.reachable]
      exact Finset.mem_insert_of_mem h.entry
    · intro e hmem
      rw [hq.executable] at hmem
      rw [hq.reachable]
      rcases Finset.mem_insert.mp hmem with rfl | hmem
      · exact Finset.mem_insert_self _ _
      · exact Finset.mem_insert_of_mem (h.targets e hmem)
    · intro b k i hb hi
      rw [hq.reachable] at hb
      by_cases hold : b ∈ a.reachable
      · rcases h.nodes b k i hold hi with hk | hk | hs
        · exact .inl hk
        · exact .inr (.inl (hq.keeps _ hk))
        · by_cases htarget : b = target ∧ i.opcode = .phi
          · obtain ⟨rfl, hphi⟩ := htarget
            refine .inr (.inl (hq.adds _ ?_))
            rw [if_pos hold]
            exact mem_phiNodes hf hi hphi
          · refine .inr (.inr ⟨?_, ?_⟩)
            · rw [hq.facts, hq.executable]
              intro hne
              have hsame : evaluate f a.facts (insert (source, target) a.executable) i b =
                  evaluate f a.facts a.executable i b := by
                refine evaluate_congr (fun _ _ => rfl) fun hphi t => ?_
                have hbt : b ≠ target := fun hbt => htarget ⟨hbt, hphi⟩
                rw [Finset.mem_insert, Prod.mk.injEq]
                simp [hbt]
              rw [hsame]
              exact hs.value hne
            · intro hterm t ht
              rw [hq.facts] at ht
              exact hsub (hs.edges hterm t ht)
      · rcases Finset.mem_insert.mp hb with rfl | hb
        · refine .inr (.inl (hq.adds _ ?_))
          rw [if_neg hold]
          exact mem_blockNodes hi
        · exact absurd hb hold
    · rw [hq.reachable]
      exact Finset.subset_insert _ _

theorem Consistent.edges (hf : Verified f) {a a' : Analysis} {skip : Node → Prop} {source : Nat}
    {targets : List Nat} (h : Consistent f a skip)
    (he : foldAll (ConditionalOptimizer.edge f source) a targets = .ok a') :
    Consistent f a' skip ∧ a'.facts = a.facts ∧ a.executable ⊆ a'.executable ∧
      ∀ t ∈ targets, (source, t) ∈ a'.executable := by
  induction targets generalizing a with
  | nil =>
      cases he
      exact ⟨h, rfl, Finset.Subset.refl _, by simp⟩
  | cons t rest ih =>
      obtain ⟨c, hc, he⟩ := bind_eq_ok.mp he
      obtain ⟨hcons, hfacts, hmem, hsub, -⟩ := h.edge hf hc
      obtain ⟨hcons', hfacts', hsub', hall⟩ := ih hcons he
      refine ⟨hcons', hfacts'.trans hfacts, hsub.trans hsub', ?_⟩
      intro u hu
      rcases List.mem_cons.mp hu with rfl | hu
      · exact hsub' hmem
      · exact hall u hu

/-- A terminator produces no value. -/
theorem result_eq_zero_of_isTerminator (hf : Verified f) {b k : Nat} {i : Instruction}
    (hi : (f.code b)[k]? = some i) (hterm : i.isTerminator = true) : i.result = 0 := by
  obtain ⟨block, -, hs⟩ := hf.scannedAt hi
  by_contra hne
  have hprod := hs.produces.mpr hne
  simp only [Instruction.isTerminator, Bool.or_eq_true, Bool.and_eq_true, decide_eq_true_eq] at hterm
  simp only [Instruction.producesValue, Bool.and_eq_true] at hprod
  rcases hterm with hterm | ⟨hterm, -⟩
  · cases hop : i.opcode <;> simp [hop, isTerminatorOpcode, isValueOpcode] at hterm hprod
  · rcases hterm with hterm | hterm <;> simp [hterm, isValueOpcode] at hprod

/-- The analysis between visits, with nothing taken from the queue. -/
abbrev Stable (f : Function) (a : Analysis) : Prop := Consistent f a fun _ => False

theorem Consistent.weaken {a : Analysis} {skip : Node → Prop} {n : Node}
    (h : Consistent f a skip) (hskip : ∀ m, skip m → m = n)
    (hn : ∀ i, n.1 ∈ a.reachable → (f.code n.1)[n.2]? = some i → n ∈ a.pending ∨ Settled f a n.1 i) :
    Stable f a := by
  refine ⟨h.entry, h.targets, h.canonical, ?_⟩
  intro b k i hb hi
  rcases h.nodes b k i hb hi with hk | hk
  · have heq := hskip _ hk
    subst heq
    exact .inr (hn i hb hi)
  · exact .inr hk

theorem visitResult_stable (hf : Verified f) {a a' : Analysis} {n : Node} {i : Instruction}
    (hi : (f.code n.1)[n.2]? = some i) (hterm : i.isTerminator = false)
    (h : Consistent f a (· = n)) (hv : visitResult f i n.1 a = .ok a') : Stable f a' := by
  unfold visitResult at hv
  split at hv
  · next hzero =>
      cases hv
      refine h.weaken (fun m hm => hm) fun j _ hj => .inr ?_
      rw [hi] at hj
      cases hj
      refine ⟨fun hne => absurd hzero hne, fun ht => ?_⟩
      rw [hterm] at ht
      cases ht
  · next hne =>
      obtain ⟨work, -, hv⟩ := bind_eq_ok.mp hv
      have hu := updated_of_update hv
      have h' : Consistent f { a with work := work } (· = n) :=
        ⟨h.entry, h.targets, h.canonical, fun b k j hb hj => by
          rcases h.nodes b k j hb hj with hk | hk | hk
          · exact .inl hk
          · exact .inr (.inl hk)
          · exact .inr (.inr ⟨hk.value, hk.edges⟩)⟩
      have hcons : Consistent f a' (· = n) := by
        refine h'.update hu hne ?_ ?_
        · intro value heval
          rw [typeOf_result hf hi hne]
          exact evaluate_canonical hf h.canonical hi heval
        · intro b k j _ hj hres
          obtain ⟨hb, hk, -⟩ := eq_of_result_eq hf hi hj hne hres
          exact .inl (by rw [hb, hk])
      refine hcons.weaken (fun m hm => hm) fun j hr hj => ?_
      rw [hi] at hj
      cases hj
      have hself : a'.facts i.result =
          (a.facts i.result).meet (evaluate f a.facts a.executable i n.1) := by
        rw [hu.facts, Function.update_self]
      have hedges : i.isTerminator = true →
          ∀ t ∈ openTargets a'.facts i, (n.1, t) ∈ a'.executable := by
        intro ht
        rw [hterm] at ht
        cases ht
      by_cases hchanged : a'.facts = a.facts
      · refine .inr ⟨fun _ => ?_, hedges⟩
        have hexec : a'.executable = a.executable := hu.executable
        rw [hself, hchanged, hexec, Fact.meet_meet_self]
      · by_cases huse : i.result ∈ i.operands
        · left
          refine hu.users ?_ _ (mem_users hi huse) (hu.reachable ▸ hr)
          intro hsame
          apply hchanged
          rw [hu.facts, hsame, Function.update_eq_self]
        · refine .inr ⟨fun _ => ?_, hedges⟩
          have hops : ∀ w ∈ i.operands, a'.facts w = a.facts w := by
            intro w hw
            have hwi : w ≠ i.result := fun heq => huse (heq ▸ hw)
            rw [hu.facts, Function.update_of_ne hwi]
          have hexec : a'.executable = a.executable := hu.executable
          rw [hself, hexec, evaluate_congr hops fun _ _ => Iff.rfl, Fact.meet_meet_self]

theorem visit_stable (hf : Verified f) {a a' : Analysis} (h : Stable f a)
    (hv : visit f a = .ok (some a')) : Stable f a' := by
  unfold visit at hv
  split at hv
  · cases hv
  · next n pending hpend =>
      obtain ⟨work, -, hv⟩ := bind_eq_ok.mp hv
      split at hv
      · cases hv
      · next i hi =>
          obtain ⟨c, hresult, hv⟩ := bind_eq_ok.mp hv
          obtain ⟨d, hterminal, hv⟩ := bind_eq_ok.mp hv
          cases hv
          -- taking `n` from the queue leaves it as the only unfinished instruction
          have hskip : Consistent f { a with work := work, pending := pending } (· = n) := by
            refine ⟨h.entry, h.targets, h.canonical, ?_⟩
            intro b k j hb hj
            rcases h.nodes b k j hb hj with hk | hk | hk
            · exact hk.elim
            · rw [hpend] at hk
              rcases List.mem_cons.mp hk with hk | hk
              · exact .inl hk
              · exact .inr (.inl hk)
            · exact .inr (.inr ⟨hk.value, hk.edges⟩)
          unfold visitTerminator at hterminal
          split at hterminal
          · next hterm =>
              cases hterminal
              exact visitResult_stable hf hi hterm hskip hresult
          · next hterm =>
              have hzero := result_eq_zero_of_isTerminator hf hi (by simpa using hterm)
              unfold visitResult at hresult
              rw [if_pos hzero] at hresult
              cases hresult
              obtain ⟨work', -, hterminal⟩ := bind_eq_ok.mp hterminal
              have hskip' : Consistent f { a with work := work', pending := pending } (· = n) :=
                ⟨hskip.entry, hskip.targets, hskip.canonical, fun b k j hb hj => by
                  rcases hskip.nodes b k j hb hj with hk | hk | hk
                  · exact .inl hk
                  · exact .inr (.inl hk)
                  · exact .inr (.inr ⟨hk.value, hk.edges⟩)⟩
              obtain ⟨hcons, hfacts, -, hall⟩ := hskip'.edges hf hterminal
              refine hcons.weaken (fun m hm => hm) fun j _ hj => .inr ?_
              rw [hi] at hj
              cases hj
              refine ⟨fun hne => absurd hzero hne, fun _ t ht => ?_⟩
              rw [hfacts] at ht
              exact hall t ht

end Disco.IR.ConditionalOptimizer
