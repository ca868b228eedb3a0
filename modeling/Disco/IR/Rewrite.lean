import Disco.IR.Liveness
import Disco.IR.Thinning

/-! # Replacing values by others

`rewrite` erases the definitions that have an alias, lets every use of such a
value refer to the end of its alias chain, and numbers the values that are left
in block order. The source shortens the chains while it follows them, which
leaves their ends as they are.
-/

namespace Disco.IR

open Library Verifier

/-- The end of an alias chain. -/
def resolve (aliases : Nat → Nat) : Nat → Nat → Option Nat
  | 0, _ => none
  | fuel + 1, v => if aliases v = 0 then some v else resolve aliases fuel (aliases v)

/-- Whether an instruction is left out. -/
def Instruction.isErased (aliases : Nat → Nat) (i : Instruction) : Bool :=
  decide (i.result ≠ 0 ∧ aliases i.result ≠ 0)

/-- The next id for the result of an instruction. -/
def renumber (entry : (Nat → Nat) × Nat) (i : Instruction) : (Nat → Nat) × Nat :=
  if i.result = 0 then entry else (Function.update entry.1 i.result (entry.2 + 1), entry.2 + 1)

def renumbered (code : List Instruction) : (Nat → Nat) × Nat :=
  code.foldl renumber (fun _ => 0, 0)

/-- An instruction over new ids. -/
def Instruction.renamed (ids rename : Nat → Nat) (i : Instruction) : Instruction :=
  { i with
    operands := i.operands.map rename
    result := if i.result = 0 then 0 else ids i.result }

def Function.erased (f : Function) (aliases : Nat → Nat) : Function :=
  { f with blocks := f.blocks.map fun b =>
      { b with instructions := b.instructions.filter fun i => !i.isErased aliases } }

/-- The id of a value behind `rewrite`. -/
def Function.renaming (f : Function) (aliases : Nat → Nat) (v : Nat) : Nat :=
  (renumbered (f.erased aliases).instructions).1 ((resolve aliases (f.valueCount + 1) v).getD 0)

/-- `rewrite`; nothing for a cycle of aliases, which the source follows forever. -/
def rewrite (f : Function) (aliases : Nat → Nat) : Option Function :=
  let kept := f.erased aliases
  let numbered := renumbered kept.instructions
  if ∀ i ∈ kept.instructions, ∀ v ∈ i.operands, (resolve aliases (f.valueCount + 1) v).isSome then
    some { kept with
      blocks := kept.blocks.map fun b =>
        { b with instructions := b.instructions.map fun i =>
            i.renamed numbered.1 (f.renaming aliases) }
      valueCount := numbered.2 }
  else none

/-! ## New ids -/

section Numbers

variable {code : List Instruction} {ids : Nat → Nat} {next : Nat} {i j : Instruction}

theorem renumber_silent (h : i.result = 0) : renumber (ids, next) i = (ids, next) := if_pos h

theorem renumber_value (h : i.result ≠ 0) :
    renumber (ids, next) i = (Function.update ids i.result (next + 1), next + 1) := if_neg h

theorem foldl_renumber_keeps {v : Nat} (h : ∀ i ∈ code, i.result ≠ 0 → i.result ≠ v) :
    (code.foldl renumber (ids, next)).1 v = ids v := by
  induction code generalizing ids next with
  | nil => rfl
  | cons i rest ih =>
      rw [List.foldl_cons]
      have hrest := fun j hj => h j (List.mem_cons_of_mem _ hj)
      by_cases hresult : i.result = 0
      · rw [renumber_silent hresult]
        exact ih hrest
      · rw [renumber_value hresult, ih hrest, Function.update_of_ne (h i List.mem_cons_self hresult).symm]

theorem foldl_renumber_le : next ≤ (code.foldl renumber (ids, next)).2 := by
  induction code generalizing ids next with
  | nil => exact le_rfl
  | cons i rest ih =>
      rw [List.foldl_cons]
      by_cases hresult : i.result = 0
      · rw [renumber_silent hresult]
        exact ih
      · rw [renumber_value hresult]
        exact (Nat.le_succ next).trans ih

/-- Later values get larger ids. -/
theorem foldl_renumber_bounds
    (hdistinct : code.Pairwise fun i j => i.result ≠ 0 → i.result ≠ j.result)
    (hi : i ∈ code) (hresult : i.result ≠ 0) :
    next < (code.foldl renumber (ids, next)).1 i.result ∧
      (code.foldl renumber (ids, next)).1 i.result ≤ (code.foldl renumber (ids, next)).2 := by
  induction code generalizing ids next with
  | nil => cases hi
  | cons j rest ih =>
      rw [List.pairwise_cons] at hdistinct
      rw [List.foldl_cons]
      rcases List.mem_cons.mp hi with heq | hmem
      · subst heq
        have hkeep : ∀ k ∈ rest, k.result ≠ 0 → k.result ≠ i.result :=
          fun k hk _ => (hdistinct.1 k hk hresult).symm
        rw [renumber_value hresult, foldl_renumber_keeps hkeep, Function.update_self]
        exact ⟨Nat.lt_succ_self next, foldl_renumber_le⟩
      · by_cases hzero : j.result = 0
        · rw [renumber_silent hzero]
          exact ih hdistinct.2 hmem
        · rw [renumber_value hzero]
          have hbounds := @ih (Function.update ids j.result (next + 1)) (next + 1) hdistinct.2 hmem
          exact ⟨(Nat.lt_succ_self next).trans hbounds.1, hbounds.2⟩

theorem foldl_renumber_injective
    (hdistinct : code.Pairwise fun i j => i.result ≠ 0 → i.result ≠ j.result)
    (hi : i ∈ code) (hj : j ∈ code) (hiresult : i.result ≠ 0) (hjresult : j.result ≠ 0)
    (h : (code.foldl renumber (ids, next)).1 i.result = (code.foldl renumber (ids, next)).1 j.result) :
    i.result = j.result := by
  induction code generalizing ids next with
  | nil => cases hi
  | cons k rest ih =>
      rw [List.pairwise_cons] at hdistinct
      rw [List.foldl_cons] at h
      -- the value of the head keeps the id it got, the others get larger ones
      have hhead : k.result ≠ 0 →
          (rest.foldl renumber (renumber (ids, next) k)).1 k.result = next + 1 := by
        intro hk
        rw [renumber_value hk, foldl_renumber_keeps fun l hl _ => (hdistinct.1 l hl hk).symm,
          Function.update_self]
      have htail : ∀ l ∈ rest, l.result ≠ 0 → k.result ≠ 0 →
          next + 1 < (rest.foldl renumber (renumber (ids, next) k)).1 l.result := by
        intro l hl hlresult hk
        rw [renumber_value hk]
        exact (foldl_renumber_bounds hdistinct.2 hl hlresult).1
      rcases List.mem_cons.mp hi with hik | hirest
      · rcases List.mem_cons.mp hj with hjk | hjrest
        · rw [hik, hjk]
        · subst hik
          have hlarger := htail j hjrest hjresult hiresult
          rw [← h, hhead hiresult] at hlarger
          exact absurd hlarger (lt_irrefl _)
      · rcases List.mem_cons.mp hj with hjk | hjrest
        · subst hjk
          have hlarger := htail i hirest hiresult hjresult
          rw [h, hhead hjresult] at hlarger
          exact absurd hlarger (lt_irrefl _)
        · exact ih hdistinct.2 hirest hjrest h

end Numbers

/-! ## Alias chains -/

section Chains

variable {f : Function} {aliases : Nat → Nat} {c d : Site}

/-- An alias is defined where the value is. -/
def Aliased (f : Function) (aliases : Nat → Nat) : Prop :=
  ∀ d ∈ f.sites, aliases d.instruction.result ≠ 0 → Reached (flow f) f.entry d.block →
    ∃ c ∈ f.sites, c.instruction.result = aliases d.instruction.result ∧
      Available f c d.block d.position

open Classical in
/-- The values that are available at a site. -/
noncomputable def availableValues (f : Function) (d : Site) : Finset Nat :=
  (Finset.Ico 1 (f.valueCount + 1)).filter fun v =>
    ∃ c ∈ f.sites, c.instruction.result = v ∧ Available f c d.block d.position

theorem mem_availableValues {v : Nat} : v ∈ availableValues f d ↔ (1 ≤ v ∧ v < f.valueCount + 1) ∧
    ∃ c ∈ f.sites, c.instruction.result = v ∧ Available f c d.block d.position := by
  unfold availableValues
  simp only [Finset.mem_filter, Finset.mem_Ico]

theorem card_availableValues_le (d : Site) : (availableValues f d).card ≤ f.valueCount := by
  have hsub : availableValues f d ⊆ Finset.Ico 1 (f.valueCount + 1) := by
    intro v hmem
    exact Finset.mem_Ico.mpr (mem_availableValues.mp hmem).1
  have hcard := Finset.card_le_card hsub
  rw [Nat.card_Ico, Nat.add_sub_cancel] at hcard
  exact hcard

/-- Fewer values are available at an available definition. -/
theorem card_availableValues_lt (hv : Verified f) (hc : c ∈ f.sites)
    (hresult : c.instruction.result ≠ 0) (h : Available f c d.block d.position)
    (hr : Reached (flow f) f.entry d.block) :
    (availableValues f c).card < (availableValues f d).card := by
  obtain ⟨_, -, hscanned⟩ := hv.scanned hc
  have hle := hscanned.result_le
  apply Finset.card_lt_card
  rw [Finset.ssubset_iff_of_subset]
  · refine ⟨c.instruction.result, ?_, ?_⟩
    · rw [mem_availableValues]
      exact ⟨⟨by omega, by omega⟩, c, hc, rfl, h⟩
    · rw [mem_availableValues]
      rintro ⟨-, b, hb, hsame, hself⟩
      rw [site_unique hv hb hc hresult hsame] at hself
      exact not_available_self c hself
  · intro v hmem
    rw [mem_availableValues] at hmem ⊢
    obtain ⟨hrange, b, hb, hsame, hbefore⟩ := hmem
    exact ⟨hrange, b, hb, hsame, hbefore.trans h hr⟩

theorem resolve_succ {n v r : Nat} (h : resolve aliases n v = some r) :
    resolve aliases (n + 1) v = some r := by
  induction n generalizing v with
  | zero => cases h
  | succ n ih =>
      rw [resolve] at h ⊢
      split at h
      · rename_i hlast
        rw [if_pos hlast]
        exact h
      · rename_i hlast
        rw [if_neg hlast]
        exact ih h

theorem resolve_mono {n m v r : Nat} (hle : n ≤ m) (h : resolve aliases n v = some r) :
    resolve aliases m v = some r := by
  induction m, hle using Nat.le_induction with
  | base => exact h
  | succ m _ ih => exact resolve_succ ih

theorem resolve_fuel {n m v r r' : Nat} (h : resolve aliases n v = some r)
    (h' : resolve aliases m v = some r') : r = r' := by
  have hleft := resolve_mono (Nat.le_max_left n m) h
  have hright := resolve_mono (Nat.le_max_right n m) h'
  exact Option.some.inj (hleft.symm.trans hright)

/-- The root of a value: a definition without alias, which is the definition of
the value or available there. -/
structure Root (f : Function) (aliases : Nat → Nat) (d c : Site) : Prop where
  mem : c ∈ f.sites
  result : c.instruction.result ≠ 0
  last : aliases c.instruction.result = 0
  resolved : resolve aliases (f.valueCount + 1) d.instruction.result = some c.instruction.result
  before : c = d ∨ Available f c d.block d.position

theorem exists_root (hv : Verified f) (ha : Aliased f aliases) (n : Nat) :
    ∀ d ∈ f.sites, d.instruction.result ≠ 0 → Reached (flow f) f.entry d.block →
      (availableValues f d).card ≤ n → ∃ c ∈ f.sites, c.instruction.result ≠ 0 ∧
        aliases c.instruction.result = 0 ∧
        resolve aliases (n + 1) d.instruction.result = some c.instruction.result ∧
        (c = d ∨ Available f c d.block d.position) := by
  induction n with
  | zero =>
      intro d hd hresult hr hcard
      by_cases hlast : aliases d.instruction.result = 0
      · exact ⟨d, hd, hresult, hlast, if_pos hlast, .inl rfl⟩
      · obtain ⟨c, hc, hsame, hbefore⟩ := ha d hd hlast hr
        have hless := card_availableValues_lt hv hc (by rw [hsame]; exact hlast) hbefore hr
        omega
  | succ n ih =>
      intro d hd hresult hr hcard
      by_cases hlast : aliases d.instruction.result = 0
      · exact ⟨d, hd, hresult, hlast, if_pos hlast, .inl rfl⟩
      · obtain ⟨c, hc, hsame, hbefore⟩ := ha d hd hlast hr
        have hne : c.instruction.result ≠ 0 := by rw [hsame]; exact hlast
        have hless := card_availableValues_lt hv hc hne hbefore hr
        obtain ⟨root, hroot, hrootResult, hrootLast, hresolve, hrootBefore⟩ :=
          ih c hc hne (hbefore.dominates.reached hr) (by omega)
        refine ⟨root, hroot, hrootResult, hrootLast, ?_, .inr ?_⟩
        · rw [resolve, if_neg hlast, ← hsame]
          exact hresolve
        · rcases hrootBefore with rfl | hrootBefore
          · exact hbefore
          · exact hrootBefore.trans hbefore hr

theorem Aliased.root (ha : Aliased f aliases) (hv : Verified f) (hd : d ∈ f.sites)
    (hresult : d.instruction.result ≠ 0) (hr : Reached (flow f) f.entry d.block) :
    ∃ c, Root f aliases d c := by
  obtain ⟨c, hc, hresult', hlast, hresolve, hbefore⟩ :=
    exists_root hv ha _ d hd hresult hr (card_availableValues_le d)
  exact ⟨c, hc, hresult', hlast, hresolve, hbefore⟩

/-- A value and its alias have one root. -/
theorem Aliased.resolve_alias (ha : Aliased f aliases) (hv : Verified f) (hd : d ∈ f.sites)
    (hresult : d.instruction.result ≠ 0) (hr : Reached (flow f) f.entry d.block)
    (halias : aliases d.instruction.result ≠ 0) :
    resolve aliases (f.valueCount + 1) d.instruction.result =
      resolve aliases (f.valueCount + 1) (aliases d.instruction.result) := by
  obtain ⟨c, hroot⟩ := ha.root hv hd hresult hr
  have hresolved := hroot.resolved
  rw [resolve, if_neg halias] at hresolved
  rw [hroot.resolved, resolve_succ hresolved]

/-- Values are defined in blocks that are reached. -/
theorem reached_of_result (hv : Verified f) (hd : d ∈ f.sites) (hresult : d.instruction.result ≠ 0) :
    Reached (flow f) f.entry d.block := by
  by_contra hnot
  have hget := mem_sites.mp hd
  obtain ⟨i, hcode, hop⟩ := hv.unreached d.block (lt_of_mem_code (List.mem_of_getElem? hget)) hnot
  rw [hcode] at hget
  have hsame : d.instruction = i := by simpa using List.mem_of_getElem? hget
  obtain ⟨_, -, hscanned⟩ := hv.scanned hd
  have hproduces := hscanned.produces.mpr hresult
  rw [hsame] at hproduces
  unfold Instruction.producesValue isValueOpcode at hproduces
  rw [hop] at hproduces
  cases hproduces

end Chains

/-! ## Substitutions -/

/-- The function after its instructions were changed in place. -/
def Function.changed (f : Function) (change : Instruction → Instruction) : Function :=
  { f with blocks := f.blocks.map fun b => { b with instructions := b.instructions.map change } }

/-- An instruction that takes no control and has one value. -/
def Instruction.isPlain (i : Instruction) : Bool :=
  !isTerminatorOpcode i.opcode && !isLoopOpcode i.opcode &&
    decide (i.opcode ≠ .phi ∧ i.opcode ≠ .divMod)

/-- Aliases with the value of what they stand for, and changes to constant code
with the value of the instruction, given what holds of the values anyway. -/
structure Substitution {W : Type} (perform : Perform W) (f : Function)
    (A : Site → (Nat → Slot) → Prop) (aliases : Nat → Nat) (change : Instruction → Instruction) :
    Prop where
  asserts : Preserved f A (Computes perform) (Chooses f)
  aliased : Aliased f aliases
  result : ∀ i, (change i).result = i.result
  plain : ∀ d ∈ f.sites, (aliases d.instruction.result ≠ 0 ∨ change d.instruction ≠ d.instruction) →
    d.instruction.result ≠ 0 ∧ d.instruction.isPlain = true
  equal : ∀ d ∈ f.sites, aliases d.instruction.result ≠ 0 →
    ∀ env, Asserted f A env d.block d.position → ∀ world, ∃ slot,
      produce perform d.instruction.effect (d.instruction.operandWords env)
        (d.instruction.operandOther env) world = .ok ⟨slot, world, []⟩ ∧
      slot.word = (env (aliases d.instruction.result)).word
  constant : ∀ d ∈ f.sites, change d.instruction ≠ d.instruction →
    (change d.instruction).isPlain = true ∧ (change d.instruction).operands = [] ∧
    ∀ env, Asserted f A env d.block d.position → ∀ world other, ∃ slot slot',
      produce perform d.instruction.effect (d.instruction.operandWords env)
        (d.instruction.operandOther env) world = .ok ⟨slot, world, []⟩ ∧
      produce perform (change d.instruction).effect [] other world = .ok ⟨slot', world, []⟩ ∧
      slot'.word = slot.word

section Code

variable {f : Function} {aliases : Nat → Nat} {change : Instruction → Instruction} {b : Nat}

/-- The ids of the values that are kept. -/
def newIds (f : Function) (aliases : Nat → Nat) (change : Instruction → Instruction) : Nat → Nat :=
  (renumbered ((f.changed change).erased aliases).instructions).1

/-- What stands for the sites behind a change in place and `rewrite`. -/
def rewriting (f : Function) (aliases : Nat → Nat) (change : Instruction → Instruction) :
    Thinning where
  emit d :=
    if (change d.instruction).isErased aliases then none
    else some ((change d.instruction).renamed
      (newIds f aliases change)
      ((f.changed change).renaming aliases))
  rename := (f.changed change).renaming aliases

theorem code_changed : (f.changed change).code b = (f.code b).map change := by
  unfold Function.code Function.changed
  rw [List.getElem?_map, Option.map_map]
  cases f.blocks[b]? <;> rfl

theorem code_erased {h : Function} :
    (h.erased aliases).code b = (h.code b).filter fun i => !i.isErased aliases := by
  unfold Function.code Function.erased
  rw [List.getElem?_map, Option.map_map]
  cases h.blocks[b]? <;> rfl

/-- What `rewrite` keeps. -/
theorem mem_kept {i : Instruction} : i ∈ ((f.changed change).erased aliases).instructions ↔
    ∃ d ∈ f.sites, change d.instruction = i ∧ i.isErased aliases = false := by
  rw [mem_instructions]
  constructor
  · intro hmem
    rcases hmem with ⟨b, hi⟩
    rw [code_erased, code_changed, List.mem_filter, List.mem_map] at hi
    rcases hi with ⟨⟨j, hj, rfl⟩, hkept⟩
    obtain ⟨d, hd, -, hsame⟩ := mem_sites_of_mem_code hj
    exact ⟨d, hd, by rw [hsame], by simpa using hkept⟩
  · intro hmem
    rcases hmem with ⟨d, hd, rfl, hkept⟩
    refine ⟨d.block, ?_⟩
    rw [code_erased, code_changed, List.mem_filter, List.mem_map]
    exact ⟨⟨d.instruction, List.mem_of_getElem? (mem_sites.mp hd), rfl⟩, by rw [hkept]; rfl⟩

theorem filterMap_codeSites {h : Function} (e : Instruction → Option Instruction) :
    (h.codeSites b).filterMap (fun d => e d.instruction) = (h.code b).filterMap e := by
  unfold Function.codeSites
  rw [List.filterMap_map]
  generalize h.code b = code
  suffices hall : ∀ n, (code.zipIdx n).filterMap ((fun d : Site => e d.instruction) ∘
      fun entry => ⟨b, entry.2, entry.1⟩) = code.filterMap e from hall 0
  induction code with
  | nil => intro n; rfl
  | cons i rest ih =>
      intro n
      rw [List.zipIdx_cons, List.filterMap_cons, List.filterMap_cons, ih]
      rfl

theorem instructions_eq_sites {h : Function} : h.instructions = h.sites.map Site.instruction := by
  unfold Function.instructions Function.sites
  rw [List.map_flatMap]
  suffices hall : ∀ n, h.blocks.flatMap BasicBlock.instructions =
      (h.blocks.zipIdx n).flatMap fun entry => (Function.blockSites entry.1 entry.2).map Site.instruction
    from hall 0
  induction h.blocks with
  | nil => intro n; rfl
  | cons block rest ih =>
      intro n
      rw [List.zipIdx_cons, List.flatMap_cons, List.flatMap_cons, ← ih]
      congr 1
      unfold Function.blockSites
      rw [List.map_map]
      exact (List.zipIdx_map_fst 0 block.instructions).symm

/-- The values that are kept are defined once. -/
theorem kept_distinct (hv : Verified f) (hresult : ∀ i, (change i).result = i.result) :
    ((f.changed change).erased aliases).instructions.Pairwise fun i j =>
      i.result ≠ 0 → i.result ≠ j.result := by
  have hsame : ((f.changed change).erased aliases).instructions =
      (f.instructions.map change).filter fun i => !i.isErased aliases := by
    unfold Function.instructions Function.erased Function.changed
    rw [List.map_map, List.flatMap_map, List.map_flatMap, List.filter_flatMap]
    rfl
  rw [hsame]
  apply List.Pairwise.filter
  rw [List.pairwise_map, instructions_eq_sites, List.pairwise_map]
  refine hv.single.imp ?_
  intro a c hdistinct hne heq
  rw [hresult, hresult] at heq
  rw [hresult] at hne
  exact hdistinct (by rw [← heq]; exact hne) heq

theorem changed_valueCount : (f.changed change).valueCount = f.valueCount := rfl

theorem isErased_changed {d : Site} (hresult : ∀ i, (change i).result = i.result) :
    (change d.instruction).isErased aliases = d.instruction.isErased aliases := by
  unfold Instruction.isErased
  rw [hresult]

theorem isErased_eq_false {i : Instruction} :
    i.isErased aliases = false ↔ (i.result = 0 ∨ aliases i.result = 0) := by
  unfold Instruction.isErased
  rw [decide_eq_false_iff_not, not_and_or, not_not, not_not]

variable {c d : Site} {g : Function}

/-- The id of a kept value. -/
theorem ids_ne_zero (hv : Verified f) (hresult : ∀ i, (change i).result = i.result) (hc : c ∈ f.sites)
    (hne : c.instruction.result ≠ 0) (hlast : aliases c.instruction.result = 0) :
    (newIds f aliases change) c.instruction.result ≠ 0 := by
  have hmem := mem_kept.mpr ⟨c, hc, rfl,
    ((isErased_changed hresult).trans (isErased_eq_false.mpr (.inr hlast)))⟩
  have hbounds := @foldl_renumber_bounds _ (fun _ => 0) 0 _ (kept_distinct hv hresult) hmem
    (by rw [hresult]; exact hne)
  rw [hresult] at hbounds
  exact Nat.ne_of_gt hbounds.1

theorem ids_injective (hv : Verified f) (hresult : ∀ i, (change i).result = i.result)
    (hc : c ∈ f.sites) (hd : d ∈ f.sites) (hcne : c.instruction.result ≠ 0)
    (hdne : d.instruction.result ≠ 0) (hclast : aliases c.instruction.result = 0)
    (hdlast : aliases d.instruction.result = 0)
    (h : (newIds f aliases change) c.instruction.result =
      (newIds f aliases change) d.instruction.result) : c = d := by
  have hcmem := mem_kept.mpr ⟨c, hc, rfl,
    ((isErased_changed hresult).trans (isErased_eq_false.mpr (.inr hclast)))⟩
  have hdmem := mem_kept.mpr ⟨d, hd, rfl,
    ((isErased_changed hresult).trans (isErased_eq_false.mpr (.inr hdlast)))⟩
  have hsame := @foldl_renumber_injective _ (fun _ => 0) 0 _ _ (kept_distinct hv hresult) hcmem hdmem
    (by rw [hresult]; exact hcne) (by rw [hresult]; exact hdne) (by rw [hresult, hresult]; exact h)
  rw [hresult, hresult] at hsame
  exact site_unique hv hc hd hdne hsame

theorem Root.rename (h : Root f aliases d c) : (rewriting f aliases change).rename d.instruction.result =
    newIds f aliases change c.instruction.result := by
  unfold rewriting Function.renaming
  dsimp only
  rw [changed_valueCount, h.resolved]
  rfl

/-- The root of a kept value is the value. -/
theorem root_of_kept (hv : Verified f) (hd : d ∈ f.sites) (hne : d.instruction.result ≠ 0)
    (hlast : aliases d.instruction.result = 0) : Root f aliases d d :=
  ⟨hd, hne, hlast, by rw [resolve, if_pos hlast], .inl rfl⟩

theorem emit_eq_none (hresult : ∀ i, (change i).result = i.result) :
    (rewriting f aliases change).emit d = none ↔
      d.instruction.result ≠ 0 ∧ aliases d.instruction.result ≠ 0 := by
  unfold rewriting
  dsimp only
  rw [isErased_changed hresult]
  cases herased : d.instruction.isErased aliases with
  | false =>
      rw [isErased_eq_false] at herased
      simp only [Bool.false_eq_true, if_false, reduceCtorEq, false_iff, not_and, not_not]
      exact fun hne => herased.resolve_left hne
  | true =>
      unfold Instruction.isErased at herased
      rw [decide_eq_true_eq] at herased
      exact ⟨fun _ => herased, fun _ => if_pos rfl⟩

theorem emit_eq_some (hresult : ∀ i, (change i).result = i.result) {i : Instruction}
    (h : (rewriting f aliases change).emit d = some i) :
    (d.instruction.result = 0 ∨ aliases d.instruction.result = 0) ∧
      i = (change d.instruction).renamed
        (newIds f aliases change)
        ((f.changed change).renaming aliases) := by
  unfold rewriting at h
  dsimp only at h
  split at h
  · cases h
  · rename_i hkept
    rw [Bool.not_eq_true, isErased_changed hresult, isErased_eq_false] at hkept
    exact ⟨hkept, (Option.some.inj h).symm⟩

/-- Every chain has an end, so `rewrite` returns. -/
theorem rewrite_eq_some {W : Type} {perform : Perform W} {A : Site → (Nat → Slot) → Prop}
    (h : Substitution perform f A aliases change) (hv : Verified f) :
    ∃ g, rewrite (f.changed change) aliases = some g := by
  unfold rewrite
  dsimp only
  rw [if_pos ?_]
  · exact ⟨_, rfl⟩
  · intro i hi v hmem
    obtain ⟨d, hd, rfl, -⟩ := mem_kept.mp hi
    have hoperand : v ∈ d.instruction.operands := by
      by_cases hsame : change d.instruction = d.instruction
      · rw [← hsame]
        exact hmem
      · rw [(h.constant d hd hsame).2.1] at hmem
        cases hmem
    obtain ⟨_, -, hscanned⟩ := hv.scanned hd
    rcases hscanned.operands v hoperand with ⟨hne, hle⟩
    obtain ⟨c, hfound⟩ := hv.defined v hne hle
    rcases of_site_eq_some hfound with ⟨hc, rfl⟩
    obtain ⟨root, hroot⟩ := h.aliased.root hv hc hne (reached_of_result hv hc hne)
    rw [changed_valueCount, hroot.resolved]
    rfl

theorem thins_of_rewrite (hresult : ∀ i, (change i).result = i.result)
    (hphi : ∀ d ∈ f.sites, change d.instruction ≠ d.instruction →
      d.instruction.isPlain = true ∧ (change d.instruction).isPlain = true)
    (hg : rewrite (f.changed change) aliases = some g) : Thins (rewriting f aliases change) f g := by
  unfold rewrite at hg
  dsimp only at hg
  split at hg
  · cases hg
    refine ⟨rfl, ?_, ?_⟩
    · intro b
      have hcode : ∀ (h : Function) (ren : Instruction → Instruction) (n : Nat),
          Function.code { h with
            blocks := h.blocks.map fun b => { b with instructions := b.instructions.map ren }
            valueCount := n } b = (h.code b).map ren := by
        intro h ren n
        unfold Function.code
        rw [List.getElem?_map, Option.map_map]
        cases h.blocks[b]? <;> rfl
      rw [hcode, code_erased, code_changed]
      unfold Thinning.behind rewriting
      rw [List.drop_zero, filterMap_codeSites (fun i => if (change i).isErased aliases then none else
        some ((change i).renamed (newIds f aliases change)
          ((f.changed change).renaming aliases)))]
      induction f.code b with
      | nil => rfl
      | cons i rest ih =>
          rw [List.map_cons, List.filterMap_cons, List.filter_cons]
          cases (change i).isErased aliases with
          | true => exact ih
          | false =>
              rw [Bool.not_false, if_pos rfl, List.map_cons, ih]
              rfl
    · intro d hd i hemit
      rcases emit_eq_some hresult hemit with ⟨-, rfl⟩
      show (change d.instruction).opcode = .phi ↔ _
      by_cases hsame : change d.instruction = d.instruction
      · rw [hsame]
      · rcases hphi d hd hsame with ⟨hplain, hplain'⟩
        simp only [Instruction.isPlain, Bool.and_eq_true, decide_eq_true_eq] at hplain hplain'
        exact ⟨fun hop => absurd hop hplain'.2.1, fun hop => absurd hop hplain.2.1⟩
  · cases hg

end Code

/-! ## They keep the behavior -/

section Behavior

variable {W : Type} {perform : Perform W} {f g : Function} {A : Site → (Nat → Slot) → Prop}
  {aliases : Nat → Nat} {change : Instruction → Instruction} {c d : Site}

/-- A value has the same word under its new id, a pair also the same second
component. -/
def SameValue (d : Site) (env : Nat → Slot) (slot : Slot) : Prop :=
  slot.word = (env d.instruction.result).word ∧
    (d.instruction.opcode = .divMod → slot.other = (env d.instruction.result).other)

/-- The words of values that are available are found under their new ids. -/
theorem related_words {b k : Nat} (hv : Verified f) (T : Thinning) {e : Values}
    (h : Asserted f (Related T A SameValue) e b k) (hd : d ∈ f.sites)
    (hresult : d.instruction.result ≠ 0) (havailable : Available f d b k) :
    (e.2 (T.rename d.instruction.result)).word = (e.1 d.instruction.result).word :=
  (h d hd hresult havailable).2.1

theorem Substitution.operandWords (hv : Verified f) (T : Thinning) {e : Values} (hd : d ∈ f.sites)
    (hphi : d.instruction.opcode ≠ .phi) (hr : Reached (flow f) f.entry d.block)
    (h : Asserted f (Related T A SameValue) e d.block d.position) :
    (d.instruction.operands.map T.rename).map (fun v => (e.2 v).word) =
      d.instruction.operandWords e.1 := by
  unfold Instruction.operandWords
  rw [List.map_map]
  apply List.map_congr_left
  intro v hmem
  obtain ⟨c, -, hc, hcresult, hne, havailable⟩ := available_operand hv hd hphi hr hmem
  have hword := related_words hv T h hc (by rw [hcresult]; exact hne) havailable
  rw [hcresult] at hword
  exact hword

theorem produce_renamed {ids rename : Nat → Nat} (i : Instruction) :
    (i.renamed ids rename).effect = i.effect := rfl

/-- Only the second component of a pair depends on the pair. -/
theorem produce_other {effect : Effect} {arguments : List Int} {other other' : Int} {world : W}
    (h : effect.opcode = .divModResult → other = other') :
    produce perform effect arguments other world = produce perform effect arguments other' world := by
  unfold produce
  split
  · rfl
  · split
    · rfl
    · rfl
    · rfl
    · rename_i hop
      rw [h hop]
    · rfl

theorem isPlain_iff {i : Instruction} : i.isPlain = true ↔ isTerminatorOpcode i.opcode = false ∧
    isLoopOpcode i.opcode = false ∧ i.opcode ≠ .phi ∧ i.opcode ≠ .divMod := by
  unfold Instruction.isPlain
  simp only [Bool.and_eq_true, Bool.not_eq_true', decide_eq_true_eq]
  exact ⟨fun h => ⟨h.1.1, h.1.2, h.2⟩, fun h => ⟨⟨h.1, h.2.1⟩, h.2.2⟩⟩

theorem asserted_left {T : Thinning} {R : Site → (Nat → Slot) → Slot → Prop} {e : Values} {b k : Nat}
    (h : Asserted f (Related T A R) e b k) : Asserted f A e.1 b k :=
  fun d hd hresult havailable => (h d hd hresult havailable).1

/-- An instruction that stays answers itself. -/
theorem Substitution.answers (h : Substitution perform f A aliases change) (hv : Verified f)
    (hd : d ∈ f.sites) (hphi : d.instruction.opcode ≠ .phi) (hr : Reached (flow f) f.entry d.block)
    {i : Instruction} (hemit : (rewriting f aliases change).emit d = some i) {e : Values}
    (hasserted : Asserted f (Related (rewriting f aliases change) A SameValue) e d.block d.position) :
    Answers perform (rewriting f aliases change) SameValue d i e := by
  rcases emit_eq_some h.result hemit with ⟨hkept, rfl⟩
  have hresult : d.instruction.result ≠ 0 →
      (newIds f aliases change) d.instruction.result ≠ 0 ∧
      (newIds f aliases change) d.instruction.result =
        (rewriting f aliases change).rename d.instruction.result := by
    intro hne
    have hlast := hkept.resolve_left hne
    exact ⟨ids_ne_zero hv h.result hd hne hlast, (root_of_kept hv hd hne hlast).rename.symm⟩
  have hrenamed : ((change d.instruction).renamed
      (newIds f aliases change)
      ((f.changed change).renaming aliases)).result = if d.instruction.result = 0 then 0 else
        (newIds f aliases change) d.instruction.result := by
    unfold Instruction.renamed
    dsimp only
    rw [h.result]
  by_cases hsame : change d.instruction = d.instruction
  · have hwords := Substitution.operandWords hv (rewriting f aliases change) hd hphi hr hasserted
    refine ⟨?_, ?_, ?_, ?_, ?_, ?_⟩
    · show isTerminatorOpcode (change d.instruction).opcode = _
      rw [hsame]
    · show isLoopOpcode (change d.instruction).opcode = _
      rw [hsame]
    · intro hzero
      rw [hrenamed, if_pos hzero]
    · intro hne
      rw [hrenamed, if_neg hne]
      exact hresult hne
    · intro _
      rw [hsame]
      exact ⟨rfl, rfl, rfl, hwords⟩
    · intro _ world
      have hwords' : (d.instruction.renamed (newIds f aliases change)
          ((f.changed change).renaming aliases)).operandWords e.2 = d.instruction.operandWords e.1 :=
        hwords
      rw [produce_renamed, hsame, hwords']
      have hother : d.instruction.effect.opcode = .divModResult →
          (d.instruction.renamed (newIds f aliases change)
            ((f.changed change).renaming aliases)).operandOther e.2 =
            d.instruction.operandOther e.1 := by
        intro hop
        obtain ⟨v, pair, hshape, hpair, rfl, hpop, -⟩ := divModResult_shape hv hd hop
        have hoperand : pair.instruction.result ∈ d.instruction.operands := by
          rw [hshape]
          exact List.mem_singleton_self _
        obtain ⟨c, -, hc, hcresult, hne, havailable⟩ := available_operand hv hd hphi hr hoperand
        rw [site_unique hv hc hpair hne hcresult] at havailable
        have hsecond := (hasserted pair hpair hne havailable).2.2 hpop
        unfold Instruction.operandOther Instruction.renamed
        dsimp only
        rw [hshape]
        exact hsecond
      rw [produce_other hother]
      cases produce perform d.instruction.effect (d.instruction.operandWords e.1)
          (d.instruction.operandOther e.1) world with
      | error halt => exact rfl
      | ok p =>
          refine ⟨rfl, rfl, ?_⟩
          intro _
          unfold SameValue
          rw [Function.update_self]
          exact ⟨rfl, fun _ => rfl⟩
  · rcases h.plain d hd (.inr hsame) with ⟨hne, hplain⟩
    rcases isPlain_iff.mp hplain with ⟨hterm, hloop, -, hdiv⟩
    rcases h.constant d hd hsame with ⟨hplain', hoperands, hproduce⟩
    rcases isPlain_iff.mp hplain' with ⟨hterm', hloop', -, -⟩
    refine ⟨hterm'.trans hterm.symm, hloop'.trans hloop.symm, fun hzero => absurd hzero hne, ?_, ?_, ?_⟩
    · intro _
      rw [hrenamed, if_neg hne]
      exact hresult hne
    · intro hcontrol
      rw [hterm, hloop] at hcontrol
      rcases hcontrol with hcontrol | hcontrol <;> cases hcontrol
    · intro _ world
      rw [produce_renamed]
      have hnone : ((change d.instruction).renamed
          (newIds f aliases change)
          ((f.changed change).renaming aliases)).operandWords e.2 = [] := by
        unfold Instruction.operandWords Instruction.renamed
        rw [hoperands]
        rfl
      obtain ⟨slot, slot', hslot, hslot', hword⟩ := hproduce e.1 (asserted_left hasserted) world
        (((change d.instruction).renamed
          (newIds f aliases change)
          ((f.changed change).renaming aliases)).operandOther e.2)
      rw [hnone, hslot, hslot']
      refine ⟨rfl, rfl, ?_⟩
      intro _
      unfold SameValue
      rw [Function.update_self]
      exact ⟨hword, fun hop => absurd hop hdiv⟩

theorem sameValue_local (slot : Slot) : Local f fun d env => SameValue d env slot := by
  intro d hd hresult _ env env' hsame h
  have hself := hsame _ (Settled.self hd hresult)
  unfold SameValue
  rw [← hself]
  exact h

/-- Along an edge a PHI takes what it took. -/
theorem incoming_renamed {ids rename : Nat → Nat} (i : Instruction) {source : Nat}
    (hlength : i.operands.length = i.targets.length) (hmem : source ∈ i.targets) :
    (i.renamed ids rename).incoming source = rename (i.incoming source) := by
  unfold Instruction.incoming Instruction.renamed
  dsimp only
  rw [List.zip_map_right, List.find?_map, Option.map_map]
  have hedge : ∃ edge ∈ i.targets.zip i.operands, (edge.1 == source) = true := by
    obtain ⟨n, hn⟩ := List.mem_iff_getElem?.mp hmem
    have hlt := (List.getElem?_eq_some_iff.mp hn).1
    refine ⟨(source, i.operands[n]), ?_, by simp⟩
    rw [List.mem_iff_getElem?]
    exact ⟨n, by rw [List.getElem?_zip_eq_some]; exact ⟨hn, List.getElem?_eq_getElem (by omega)⟩⟩
  have hfound : (i.targets.zip i.operands).find? ((fun edge => edge.1 == source) ∘ Prod.map id rename) =
      (i.targets.zip i.operands).find? fun edge => edge.1 == source := rfl
  rw [hfound]
  cases hfind : (i.targets.zip i.operands).find? fun edge => edge.1 == source with
  | none =>
      obtain ⟨edge, hin, htrue⟩ := hedge
      exact absurd htrue (List.find?_eq_none.mp hfind edge hin)
  | some edge => rfl

theorem Substitution.phi_kept (h : Substitution perform f A aliases change) (hd : d ∈ f.sites)
    (hop : d.instruction.opcode = .phi) :
    aliases d.instruction.result = 0 ∧ change d.instruction = d.instruction := by
  constructor
  · by_contra halias
    exact (isPlain_iff.mp (h.plain d hd (.inl halias)).2).2.2.1 hop
  · by_contra hchange
    exact (isPlain_iff.mp (h.plain d hd (.inr hchange)).2).2.2.1 hop

/-- A substitution is faithful. -/
theorem Substitution.faithful (h : Substitution perform f A aliases change) (hv : Verified f)
    (hg : rewrite (f.changed change) aliases = some g) :
    Faithful perform (rewriting f aliases change) f g A SameValue where
  thins := thins_of_rewrite h.result (fun d hd hne => ⟨(h.plain d hd (.inr hne)).2,
    (h.constant d hd hne).1⟩) hg
  asserts := h.asserts
  localized := sameValue_local
  apart := by
    intro here hhere d hd hresult hdresult _ hr hemit hsettles heq
    have hlast : aliases here.instruction.result = 0 := by
      by_contra halias
      exact hemit ((emit_eq_none h.result).mpr ⟨hresult, halias⟩)
    obtain ⟨c, hroot⟩ := h.aliased.root hv hd hdresult hr
    rw [hroot.rename, (root_of_kept hv hhere hresult hlast).rename] at heq
    have hsame := ids_injective hv h.result hroot.mem hhere hroot.result hresult hroot.last hlast heq
    subst hsame
    rcases hroot.before with hself | hbefore
    · exact hsettles (.inl hself)
    · exact hsettles (.inr (.inl hbefore))
  distinct := by
    intro c hc d hd hcresult hdresult hcemit hdemit heq
    have hlast : ∀ d : Site, d.instruction.result ≠ 0 →
        (rewriting f aliases change).emit d ≠ none → aliases d.instruction.result = 0 := by
      intro d hdresult hdemit
      by_contra halias
      exact hdemit ((emit_eq_none h.result).mpr ⟨hdresult, halias⟩)
    have hclast := hlast c hcresult hcemit
    have hdlast := hlast d hdresult hdemit
    rw [(root_of_kept hv hc hcresult hclast).rename, (root_of_kept hv hd hdresult hdlast).rename] at heq
    exact ids_injective hv h.result hc hd hcresult hdresult hclast hdlast heq
  keeps := by
    intro here hhere hphi hr i hemit e hasserted
    exact h.answers hv hhere hphi hr hemit hasserted
  drops := by
    intro here hhere hphi hr hemit
    rcases (emit_eq_none h.result).mp hemit with ⟨hresult, halias⟩
    rcases isPlain_iff.mp (h.plain here hhere (.inl halias)).2 with ⟨hterm, hloop, -, hdiv⟩
    refine ⟨hterm, hloop, hresult, ?_⟩
    intro e hasserted world
    obtain ⟨slot, hslot, hword⟩ := h.equal here hhere halias e.1 (asserted_left hasserted) world
    refine ⟨slot, hslot, ?_, fun hop => absurd hop hdiv⟩
    obtain ⟨c, hc, hcresult, hbefore⟩ := h.aliased here hhere halias hr
    have hne : c.instruction.result ≠ 0 := by
      rw [hcresult]
      exact halias
    have hrename : (rewriting f aliases change).rename here.instruction.result =
        (rewriting f aliases change).rename c.instruction.result := by
      unfold rewriting Function.renaming
      dsimp only
      rw [changed_valueCount, h.aliased.resolve_alias hv hhere hresult hr halias, hcresult]
    rw [hrename, related_words hv _ hasserted hc hne hbefore, hcresult, Function.update_self, hword]
  results := by
    intro phi hphi hop i hemit
    rcases emit_eq_some h.result hemit with ⟨-, rfl⟩
    rcases h.phi_kept hphi hop with ⟨hlast, hsame⟩
    have hresult := phi_result_ne_zero hv hphi hop
    rw [(root_of_kept hv hphi hresult hlast).rename, hsame]
    unfold Instruction.renamed
    dsimp only
    rw [if_neg hresult]
  selects := by
    intro a phi hphi hop hr hedge i hemit e hasserted
    rcases emit_eq_some h.result hemit with ⟨-, rfl⟩
    rcases h.phi_kept hphi hop with ⟨-, hsame⟩
    have hverified := hv.phi phi hphi hop
    obtain ⟨c, -, hc, hcresult, hne, havailable, -⟩ := available_incoming hv hphi hop hedge
    have hword := related_words hv _ hasserted hc (by rw [hcresult]; exact hne) havailable
    rw [hcresult] at hword
    have hself := selectPhis_self hv hphi hop (phi_result_ne_zero hv hphi hop) a e.1
    refine ⟨?_, fun hdiv => by rw [hop] at hdiv; cases hdiv⟩
    rw [hself, hsame, incoming_renamed _ hverified.lengths (hverified.covers a hedge)]
    exact hword
  forgets := by
    intro phi hphi hop hemit
    rcases (emit_eq_none h.result).mp hemit with ⟨-, halias⟩
    exact absurd (h.phi_kept hphi hop).1 halias

/-- Replacing values by others keeps the behavior of the function. -/
theorem Substitution.sameBehavior (h : Substitution perform f A aliases change) (hv : Verified f)
    (hl : LoopsMatched f) {scopes : Nat → List Nat} (hs : Scoped f scopes)
    (hg : rewrite (f.changed change) aliases = some g) (world : W) :
    Machine.SameBehavior (machine perform g) (machine perform f) (start g world) (start f world) :=
  (h.faithful hv hg).sameBehavior hv hl hs world

end Behavior

end Disco.IR
