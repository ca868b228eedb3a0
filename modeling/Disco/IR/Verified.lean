import Disco.IR.Verifier

/-! # What verification gives

The verifier's checks, read back as facts about an accepted function: the shape
of blocks, single definitions, operands in range, and dominance of uses by
definitions over every walk from the entry.
-/

namespace Disco.IR

open Library Verifier

/-! ## The first pass -/

theorem scanInstruction_eq_ok {f : Function} {block : BasicBlock} {seen result : List Site}
    {site : Site} :
    scanInstruction f block seen site = .ok result ↔
      checkMetadata f site.instruction = .ok () ∧ checkPhiShape block site = .ok () ∧
      ¬ (site.instruction.memoryVolatile = true ∧ site.instruction.opcode ≠ .loadIndirect ∧
        site.instruction.opcode ≠ .storeIndirect) ∧
      ¬ (site.instruction.operation = "null" ∧ site.instruction.opcode = .constant ∧
        (site.instruction.immediate ≠ 0 ∨ site.instruction.type.pointerLevel = 0 ∨
          site.instruction.operands ≠ [])) ∧
      verifyPointerType site.instruction.type
        (if site.instruction.opcode = .address then maxAddressPointerDepth else maxPointerDepth) =
          .ok () ∧
      checkPointerConstant site.instruction = .ok () ∧
      ¬ (site.instruction.isTerminator = true ∧ site.position + 1 ≠ block.instructions.length) ∧
      checkResult f seen site.instruction = .ok () ∧
      ¬ (∃ operand ∈ site.instruction.operands, operand = 0 ∨ operand > f.valueCount) ∧
      checkShape seen site.instruction = .ok () ∧
      (∀ target ∈ site.instruction.targets, verifyTarget f target = .ok ()) ∧
      seen ++ [site] = result := by
  simp only [scanInstruction, bind_eq_ok, exists_unit, rejectIf_eq_ok, checkAll_eq_ok, pure_eq_ok]

/-- What the first pass established about one instruction. -/
structure Scanned (f : Function) (block : BasicBlock) (site : Site) : Prop where
  metadata : checkMetadata f site.instruction = .ok ()
  phi : checkPhiShape block site = .ok ()
  terminator : site.instruction.isTerminator = true → site.position + 1 = block.instructions.length
  produces : site.instruction.producesValue = true ↔ site.instruction.result ≠ 0
  result_le : site.instruction.result ≤ f.valueCount
  operands : ∀ v ∈ site.instruction.operands, v ≠ 0 ∧ v ≤ f.valueCount
  shape : ∃ seen, checkShape seen site.instruction = .ok ()
  targets : ∀ target ∈ site.instruction.targets, target < f.blocks.length

theorem checkResult_eq_ok {f : Function} {seen : List Site} {i : Instruction}
    (h : checkResult f seen i = .ok ()) :
    (i.producesValue = true ↔ i.result ≠ 0) ∧ i.result ≤ f.valueCount ∧
      (i.result ≠ 0 → ∀ site ∈ seen, site.instruction.result ≠ i.result) := by
  unfold checkResult at h
  split at h
  · next hp =>
      simp only [rejectIf_bind_eq_ok, rejectIf_eq_ok, not_or, not_exists, not_and] at h
      obtain ⟨⟨hne, hle⟩, hfresh⟩ := h
      exact ⟨⟨fun _ => hne, fun _ => hp⟩, by omega, fun _ => hfresh⟩
  · next hp =>
      simp only [rejectIf_eq_ok, not_not] at h
      refine ⟨⟨fun hp' => absurd hp' hp, fun hne => absurd h hne⟩, by omega, ?_⟩
      intro hne
      exact absurd h hne

theorem scanned_of_scan {f : Function} {block : BasicBlock} {seen result : List Site} {site : Site}
    (h : scanInstruction f block seen site = .ok result) : Scanned f block site := by
  obtain ⟨hmeta, hphi, -, -, -, -, hterm, hresult, hops, hshape, htargets, -⟩ :=
    scanInstruction_eq_ok.mp h
  obtain ⟨hprod, hle, -⟩ := checkResult_eq_ok hresult
  refine ⟨hmeta, hphi, ?_, hprod, hle, ?_, ⟨seen, hshape⟩, ?_⟩
  · intro ht
    by_contra hne
    exact hterm ⟨ht, hne⟩
  · intro v hv
    by_contra hbad
    exact hops ⟨v, hv, by omega⟩
  · intro target htarget
    have hgood : ¬ badTarget f target := rejectIf_eq_ok.mp (htargets target htarget)
    by_contra hbad
    exact hgood (.inr (by omega))

/-- No two instructions define the same value. -/
def SingleDefinitions (sites : List Site) : Prop :=
  sites.Pairwise fun a b => b.instruction.result ≠ 0 → a.instruction.result ≠ b.instruction.result

theorem scanInstructions_eq_ok {f : Function} {block : BasicBlock} {seen list result : List Site}
    (hseen : SingleDefinitions seen) (h : foldAll (scanInstruction f block) seen list = .ok result) :
    result = seen ++ list ∧ SingleDefinitions result ∧ ∀ site ∈ list, Scanned f block site := by
  induction list generalizing seen with
  | nil =>
      cases h
      exact ⟨by simp, hseen, by simp⟩
  | cons site rest ih =>
      obtain ⟨next, hnext, h⟩ := bind_eq_ok.mp h
      have hscan := scanned_of_scan hnext
      obtain ⟨-, -, -, -, -, -, -, hresult, -, -, -, hsame⟩ := scanInstruction_eq_ok.mp hnext
      obtain ⟨-, -, hfresh⟩ := checkResult_eq_ok hresult
      subst hsame
      have hsingle : SingleDefinitions (seen ++ [site]) := by
        refine List.pairwise_append.mpr ⟨hseen, List.pairwise_singleton _ _, ?_⟩
        intro a ha b hb hne
        rw [List.mem_singleton.mp hb] at hne ⊢
        exact hfresh hne a ha
      obtain ⟨heq, hpair, hall⟩ := ih hsingle h
      refine ⟨by simpa using heq, hpair, ?_⟩
      intro s hs
      rcases List.mem_cons.mp hs with rfl | hs
      · exact hscan
      · exact hall s hs

/-- What the first pass established about one block. -/
structure BlockScanned (f : Function) (block : BasicBlock) (index : Nat) : Prop where
  id_eq : block.id = index
  nonempty : block.instructions ≠ []
  ends : ∃ last, block.instructions.getLast? = some last ∧ last.isTerminator = true
  sites : ∀ site ∈ Function.blockSites block index, Scanned f block site

theorem scanBlock_eq_ok {f : Function} {seen result : List Site} {entry : BasicBlock × Nat}
    (hseen : SingleDefinitions seen) (h : scanBlock f seen entry = .ok result) :
    result = seen ++ Function.blockSites entry.1 entry.2 ∧ SingleDefinitions result ∧
      BlockScanned f entry.1 entry.2 := by
  unfold scanBlock at h
  simp only [rejectIf_bind_eq_ok, not_or, not_not] at h
  obtain ⟨⟨-, hid⟩, hne, h⟩ := h
  obtain ⟨scanned, hscan, h⟩ := bind_eq_ok.mp h
  simp only [rejectIf_bind_eq_ok, pure_eq_ok] at h
  obtain ⟨hlast, rfl⟩ := h
  obtain ⟨heq, hsingle, hall⟩ := scanInstructions_eq_ok hseen hscan
  refine ⟨heq, hsingle, hid, hne, ?_, hall⟩
  cases hl : entry.1.instructions.getLast? with
  | none => exact absurd (List.getLast?_eq_none_iff.mp hl) hne
  | some last =>
      rw [hl] at hlast
      exact ⟨last, rfl, by simpa using hlast⟩

theorem scanBlocks_eq_ok {f : Function} {seen result : List Site}
    {blocks : List (BasicBlock × Nat)} (hseen : SingleDefinitions seen)
    (h : foldAll (scanBlock f) seen blocks = .ok result) :
    result = seen ++ blocks.flatMap (fun entry => Function.blockSites entry.1 entry.2) ∧
      SingleDefinitions result ∧ ∀ entry ∈ blocks, BlockScanned f entry.1 entry.2 := by
  induction blocks generalizing seen with
  | nil =>
      cases h
      exact ⟨by simp, hseen, by simp⟩
  | cons entry rest ih =>
      obtain ⟨next, hnext, h⟩ := bind_eq_ok.mp h
      obtain ⟨heq, hsingle, hblock⟩ := scanBlock_eq_ok hseen hnext
      obtain ⟨heq', hsingle', hall⟩ := ih hsingle h
      refine ⟨by rw [heq', heq]; simp, hsingle', ?_⟩
      intro e he
      rcases List.mem_cons.mp he with rfl | he
      · exact hblock
      · exact hall e he

/-! ## Sites -/

theorem mem_blockSites {block : BasicBlock} {index : Nat} {site : Site} :
    site ∈ Function.blockSites block index ↔
      site.block = index ∧ block.instructions[site.position]? = some site.instruction := by
  unfold Function.blockSites
  simp only [List.mem_map, Prod.exists, List.mem_zipIdx_iff_getElem?]
  constructor
  · rintro ⟨i, position, hi, rfl⟩
    exact ⟨rfl, hi⟩
  · rintro ⟨rfl, hi⟩
    exact ⟨site.instruction, site.position, hi, rfl⟩

/-- Sites are the instructions at their positions. -/
theorem mem_sites {f : Function} {site : Site} :
    site ∈ f.sites ↔ (f.code site.block)[site.position]? = some site.instruction := by
  unfold Function.sites Function.code
  simp only [List.mem_flatMap, Prod.exists, List.mem_zipIdx_iff_getElem?, mem_blockSites]
  constructor
  · rintro ⟨block, index, hb, rfl, hi⟩
    rw [hb]
    exact hi
  · intro h
    cases hb : f.blocks[site.block]? with
    | none => rw [hb] at h; simp at h
    | some block =>
        rw [hb] at h
        exact ⟨block, site.block, hb, rfl, h⟩

/-- The definition of a value is where it is found. -/
theorem site_eq_some {f : Function} (hsingle : SingleDefinitions f.sites) {site : Site}
    (hmem : site ∈ f.sites) (hne : site.instruction.result ≠ 0) :
    f.site site.instruction.result = some site := by
  unfold Function.site
  generalize f.sites = sites at hmem hsingle
  induction sites with
  | nil => cases hmem
  | cons first rest ih =>
      rw [List.find?_cons]
      rcases List.mem_cons.mp hmem with rfl | hmem
      · simp
      · have hdiff : first.instruction.result ≠ site.instruction.result :=
          (List.pairwise_cons.mp hsingle).1 site hmem hne
        rw [show (first.instruction.result == site.instruction.result) = false by simpa using hdiff]
        exact ih hmem (List.pairwise_cons.mp hsingle).2

theorem of_site_eq_some {f : Function} {v : Nat} {site : Site} (h : f.site v = some site) :
    site ∈ f.sites ∧ site.instruction.result = v :=
  ⟨List.mem_of_find?_eq_some h, by simpa using List.find?_some h⟩

theorem typeOf_of_site {f : Function} {v : Nat} {site : Site} (h : f.site v = some site) :
    f.typeOf v = site.instruction.type := by
  simp [Function.typeOf, Function.definition, h]

theorem definition_of_site {f : Function} {v : Nat} {site : Site} (h : f.site v = some site) :
    f.definition v = some site.instruction := by
  simp [Function.definition, h]

/-! ## Accepted functions -/

/-- The edges of the verifier's flow graph. -/
def flow (f : Function) (a b : Nat) : Prop := b ∈ successors f a

theorem mem_successors {f : Function} {a b : Nat} :
    b ∈ successors f a ↔ ∃ i ∈ f.code a, i.opcode ≠ .phi ∧ b ∈ i.targets := by
  unfold successors
  simp only [List.mem_flatMap]
  constructor
  · rintro ⟨i, hi, hb⟩
    split at hb
    · cases hb
    · next hphi => exact ⟨i, hi, hphi, hb⟩
  · rintro ⟨i, hi, hphi, hb⟩
    exact ⟨i, hi, by rw [if_neg hphi]; exact hb⟩

/-- One incoming edge for each predecessor, each from a block that the
definition of its value dominates. -/
structure PhiVerified (f : Function) (b : Nat) (i : Instruction) : Prop where
  not_entry : b ≠ f.entry
  nodup : i.targets.Nodup
  covers : ∀ a, flow f a b → a ∈ i.targets
  lengths : i.operands.length = i.targets.length
  edges : ∀ edge ∈ i.operands.zip i.targets, flow f edge.2 b ∧ Reached (flow f) f.entry edge.2 ∧
    ∃ definition, f.site edge.1 = some definition ∧
      Dominates (flow f) f.entry definition.block edge.2 ∧
      sameValueType i.type definition.instruction.type = true

/-- A use that its definition precedes or dominates. -/
def OperandVerified (f : Function) (use : Site) (v : Nat) : Prop :=
  ∃ definition, f.site v = some definition ∧
    (definition.block = use.block → definition.position < use.position) ∧
    (definition.block ≠ use.block → Reached (flow f) f.entry use.block →
      Dominates (flow f) f.entry definition.block use.block)

structure Verified (f : Function) : Prop where
  entry_eq : f.entry = 0
  entry_lt : f.entry < f.blocks.length
  ids : ∀ b block, f.blocks[b]? = some block → BlockScanned f block b
  single : SingleDefinitions f.sites
  defined : ∀ v, v ≠ 0 → v ≤ f.valueCount → ∃ site, f.site v = some site
  unreached : ∀ b < f.blocks.length, ¬ Reached (flow f) f.entry b →
    ∃ i, f.code b = [i] ∧ i.opcode = .unreachable
  phi : ∀ site ∈ f.sites, site.instruction.opcode = .phi → PhiVerified f site.block site.instruction
  operand : ∀ site ∈ f.sites, site.instruction.opcode ≠ .phi →
    ∀ v ∈ site.instruction.operands, OperandVerified f site v
  opcode : ∀ site ∈ f.sites, checkOpcode f site.instruction = .ok ()

theorem code_eq_of_getElem? {f : Function} {b : Nat} {block : BasicBlock}
    (h : f.blocks[b]? = some block) : f.code b = block.instructions := by
  simp [Function.code, h]

theorem lt_of_mem_code {f : Function} {b : Nat} {i : Instruction} (h : i ∈ f.code b) :
    b < f.blocks.length := by
  unfold Function.code at h
  cases hb : f.blocks[b]? with
  | none => rw [hb] at h; simp at h
  | some block => exact (List.getElem?_eq_some_iff.mp hb).1

theorem getElem?_blocks {f : Function} {b : Nat} (h : b < f.blocks.length) :
    ∃ block, f.blocks[b]? = some block := ⟨f.blocks[b], List.getElem?_eq_getElem h⟩

theorem mem_sites_of_mem_code {f : Function} {b : Nat} {i : Instruction} (h : i ∈ f.code b) :
    ∃ site ∈ f.sites, site.block = b ∧ site.instruction = i := by
  obtain ⟨position, hp⟩ := List.mem_iff_getElem?.mp h
  exact ⟨⟨b, position, i⟩, mem_sites.mpr hp, rfl, rfl⟩

theorem checkPhi_eq_ok {f : Function} {reachable : Finset Nat} {sets : Nat → Finset Nat} {b : Nat}
    {i : Instruction} (hlen : i.operands.length = i.targets.length)
    (hreach : ∀ a ∈ reachable, Reached (flow f) f.entry a)
    (hdom : ∀ d a, d ∈ sets a → Dominates (flow f) f.entry d a)
    (hdefined : ∀ v ∈ i.operands, ∃ site, f.site v = some site)
    (h : checkPhi f reachable sets b i = .ok ()) : PhiVerified f b i := by
  simp only [checkPhi, rejectIf_bind_eq_ok, rejectIf_eq_ok, not_or, not_not, not_exists, not_and]
    at h
  obtain ⟨⟨hnodup, hedges⟩, hcovers, hentry⟩ := h
  refine ⟨hentry, hnodup, ?_, hlen, ?_⟩
  · intro a ha
    have hlt : a < f.blocks.length := by
      obtain ⟨i, hi, -, -⟩ := mem_successors.mp ha
      exact lt_of_mem_code hi
    exact hcovers a (List.mem_filter.mpr ⟨List.mem_range.mpr hlt, decide_eq_true ha⟩)
  · intro edge hedge
    obtain ⟨hpred, hin, hsite, htype, -⟩ := hedges edge hedge
    obtain ⟨definition, hdef⟩ := hdefined edge.1 (List.of_mem_zip hedge).1
    rw [hdef] at hsite
    rw [typeOf_of_site hdef] at htype
    have hflow : edge.2 ∈ predecessors f b → flow f edge.2 b := fun hmem =>
      of_decide_eq_true (p := b ∈ successors f edge.2) (List.mem_filter.mp hmem).2
    refine ⟨hflow hpred, hreach _ hin, definition, hdef, hdom _ _ ?_, ?_⟩
    · by_contra hnot
      simp [hnot] at hsite
    · simpa using htype

theorem checkOperand_eq_ok {f : Function} {reachable : Finset Nat} {sets : Nat → Finset Nat}
    {use : Site} {v : Nat} (hreach : ∀ a, Reached (flow f) f.entry a → a ∈ reachable)
    (hdom : ∀ d a, d ∈ sets a → Dominates (flow f) f.entry d a)
    (h : checkOperand f reachable sets use v = .ok ()) : OperandVerified f use v := by
  unfold checkOperand at h
  split at h
  · cases h
  · next definition hdef =>
      refine ⟨definition, hdef, ?_, ?_⟩
      · intro hsame
        rw [if_pos hsame, rejectIf_eq_ok] at h
        omega
      · intro hdiff hr
        rw [if_neg hdiff, rejectIf_eq_ok] at h
        by_contra hnot
        exact h ⟨hreach _ hr, .inr fun hmem => hnot (hdom _ _ hmem)⟩

theorem checkUnreachable_eq_ok {reachable : Finset Nat} {entry : BasicBlock × Nat}
    (h : checkUnreachable reachable entry = .ok ()) (hnot : entry.2 ∉ reachable) :
    ∃ i, entry.1.instructions = [i] ∧ i.opcode = .unreachable := by
  simp only [checkUnreachable, rejectIf_eq_ok, not_and, not_or, not_not] at h
  obtain ⟨hlen, hhead⟩ := h hnot
  obtain ⟨i, hi⟩ := List.length_eq_one_iff.mp hlen
  refine ⟨i, hi, ?_⟩
  rw [hi] at hhead
  simpa using hhead

theorem checkPhiShape_eq_ok {block : BasicBlock} {site : Site} (h : checkPhiShape block site = .ok ())
    (hphi : site.instruction.opcode = .phi) :
    site.instruction.operands.length = site.instruction.targets.length ∧
      (site.position ≠ 0 → ∀ before, block.instructions[site.position - 1]? = some before →
        before.opcode = .phi) := by
  simp only [checkPhiShape, rejectIf_bind_eq_ok, rejectIf_eq_ok, not_and, not_or, not_not, hphi,
    true_implies] at h
  obtain ⟨hbefore, -, hlen, -⟩ := h
  refine ⟨hlen, fun hpos before hb => ?_⟩
  have := hbefore hpos
  rw [hb] at this
  simpa using this

theorem verifyFunction_of_verify {m : Module} {f : Function} (h : verify m = .ok ())
    (hf : f ∈ m.functions) : verifyFunction f = .ok () := by
  unfold verify at h
  have hall : ∀ function ∈ m.functions, verifyInModule m.target function = .ok () := by
    cases hbitmap : m.bitmap.validate with
    | error message =>
        rw [hbitmap] at h
        cases h
    | ok _ =>
        rw [hbitmap] at h
        exact checkAll_eq_ok.mp (rejectIf_bind_eq_ok.mp h).2
  have hfunction := hall f hf
  unfold verifyInModule at hfunction
  rw [rejectIf_bind_eq_ok] at hfunction
  obtain ⟨_, -, hfunction⟩ := bind_eq_ok.mp hfunction.2
  obtain ⟨_, -, hfunction⟩ := bind_eq_ok.mp hfunction
  rw [rejectIf_bind_eq_ok] at hfunction
  obtain ⟨_, -, hfunction⟩ := bind_eq_ok.mp hfunction.2
  exact hfunction

/-- An accepted function has all the verified properties. -/
theorem verified_of_verifyFunction {f : Function} (h : verifyFunction f = .ok ()) : Verified f := by
  unfold verifyFunction at h
  simp only [rejectIf_bind_eq_ok, not_or, not_not, not_le] at h
  obtain ⟨-, hblocks, ⟨-, hentry⟩, hzero, h⟩ := h
  obtain ⟨-, -, h⟩ := bind_eq_ok.mp h
  obtain ⟨-, -, h⟩ := bind_eq_ok.mp h
  obtain ⟨-, -, h⟩ := bind_eq_ok.mp h
  obtain ⟨scanned, hscan, h⟩ := bind_eq_ok.mp h
  simp only [rejectIf_bind_eq_ok, not_not, not_exists, not_and] at h
  obtain ⟨-, hdefined, h⟩ := h
  obtain ⟨reachable, hexplore, h⟩ := bind_eq_ok.mp h
  obtain ⟨_, hunreachable, h⟩ := bind_eq_ok.mp h
  obtain ⟨sets, hsets, h⟩ := bind_eq_ok.mp h
  obtain ⟨-, -, h⟩ := bind_eq_ok.mp h
  obtain ⟨_, hsites, -⟩ := bind_eq_ok.mp h
  rw [checkAll_eq_ok] at hunreachable hsites
  obtain ⟨hscanned, hsingle, hall⟩ := scanBlocks_eq_ok List.Pairwise.nil hscan
  have hscanned : scanned = f.sites := hscanned
  subst hscanned
  have hids : ∀ b block, f.blocks[b]? = some block → BlockScanned f block b := by
    intro b block hb
    exact hall (block, b) (List.mem_zipIdx_iff_getElem?.mpr hb)
  have hscan : ∀ site ∈ f.sites, ∃ block, f.blocks[site.block]? = some block ∧
      Scanned f block site := by
    intro site hsite
    have hcode := mem_sites.mp hsite
    obtain ⟨block, hb⟩ := getElem?_blocks (lt_of_mem_code (List.mem_of_getElem? hcode))
    rw [code_eq_of_getElem? hb] at hcode
    exact ⟨block, hb, (hids _ _ hb).sites site (mem_blockSites.mpr ⟨rfl, hcode⟩)⟩
  have hdef : ∀ v, v ≠ 0 → v ≤ f.valueCount → ∃ site, f.site v = some site := by
    intro v hv hle
    have hex := hdefined (v - 1) (List.mem_range.mpr (by omega))
    simp only [not_forall, not_not] at hex
    obtain ⟨site, hsite, hres⟩ := hex
    rw [Nat.sub_add_cancel (by omega)] at hres
    have := site_eq_some hsingle (List.mem_filter.mp hsite).1 (by omega)
    exact ⟨site, hres ▸ this⟩
  obtain ⟨hstart, hclosed, hreached⟩ := explore_eq_ok hexplore
  have hcount : ∀ b ∈ reachable, b < f.blocks.length := by
    intro b hb
    cases hreached b hb with
    | start => exact hentry
    | @next a _ _ step =>
        obtain ⟨i, hi, -, htarget⟩ := mem_successors.mp step
        obtain ⟨site, hsite, -, rfl⟩ := mem_sites_of_mem_code hi
        obtain ⟨block, -, hs⟩ := hscan site hsite
        exact hs.targets b htarget
  have hreach : ∀ a, Reached (flow f) f.entry a → a ∈ reachable := by
    intro a ha
    induction ha with
    | start => exact hstart
    | next _ step ih => exact hclosed _ ih _ step
  have hdom : ∀ d a, d ∈ sets a → Dominates (flow f) f.entry d a := by
    intro d a hd
    refine dominates_of_mem hsets hstart (fun a b ha hab => hclosed a ha b hab) ?_ hcount hd
    intro a b hab
    obtain ⟨i, hi, -, -⟩ := mem_successors.mp hab
    exact List.mem_filter.mpr ⟨List.mem_range.mpr (lt_of_mem_code hi), decide_eq_true hab⟩
  refine ⟨hzero, hentry, hids, hsingle, hdef, ?_, ?_, ?_, ?_⟩
  · intro b hb hnot
    obtain ⟨block, hblock⟩ := getElem?_blocks hb
    have := hunreachable (block, b) (List.mem_zipIdx_iff_getElem?.mpr hblock)
    rw [code_eq_of_getElem? hblock]
    exact checkUnreachable_eq_ok this fun hin => hnot (hreached b hin)
  all_goals
    intro site hsite
    obtain ⟨block, hblock, hs⟩ := hscan site hsite
    have hcheck := hsites site hsite
    unfold checkSite at hcheck
    obtain ⟨_, huses, hcheck⟩ := bind_eq_ok.mp hcheck
    unfold checkUses at huses
  · intro hphi
    rw [if_pos hphi] at huses
    refine checkPhi_eq_ok (checkPhiShape_eq_ok hs.phi hphi).1 hreached hdom ?_ huses
    intro v hv
    obtain ⟨hne, hle⟩ := hs.operands v hv
    exact hdef v hne hle
  · intro hphi v hv
    rw [if_neg hphi] at huses
    exact checkOperand_eq_ok hreach hdom (checkAll_eq_ok.mp huses v hv)
  · exact (rejectIf_bind_eq_ok.mp hcheck).2

namespace Verified

variable {f : Function}

theorem scanned (h : Verified f) {site : Site} (hsite : site ∈ f.sites) :
    ∃ block, f.blocks[site.block]? = some block ∧ Scanned f block site := by
  have hcode := mem_sites.mp hsite
  obtain ⟨block, hb⟩ := getElem?_blocks (lt_of_mem_code (List.mem_of_getElem? hcode))
  rw [code_eq_of_getElem? hb] at hcode
  exact ⟨block, hb, (h.ids _ _ hb).sites site (mem_blockSites.mpr ⟨rfl, hcode⟩)⟩

theorem scannedAt (h : Verified f) {b k : Nat} {i : Instruction} (hi : (f.code b)[k]? = some i) :
    ∃ block, f.blocks[b]? = some block ∧ Scanned f block ⟨b, k, i⟩ := by
  have hmem : (⟨b, k, i⟩ : Site) ∈ f.sites := mem_sites.mpr hi
  exact h.scanned hmem

/-- PHIs stand before everything else. -/
theorem not_phi_of_mem_body (h : Verified f) {b : Nat} {i : Instruction}
    (hi : i ∈ body (f.code b)) : i.opcode ≠ .phi := by
  obtain ⟨k, hk⟩ := List.mem_iff_getElem?.mp hi
  -- a PHI after the first other instruction would follow a PHI, and so on back
  induction k generalizing i with
  | zero =>
      have := List.head?_dropWhile_not (fun i : Instruction => i.opcode == .phi) (f.code b)
      rw [show (f.code b).dropWhile _ = body (f.code b) from rfl, List.head?_eq_getElem?, hk] at this
      simpa using this
  | succ k ih =>
      intro hphi
      have hcode : (f.code b)[(phis (f.code b)).length + (k + 1)]? = some i :=
        (getElem?_body _ _).trans hk
      obtain ⟨block, hb, hs⟩ := h.scannedAt hcode
      have hbefore := (checkPhiShape_eq_ok hs.phi hphi).2 (by simp)
      cases hprev : (body (f.code b))[k]? with
      | none =>
          rw [List.getElem?_eq_none_iff] at hprev
          have := (List.getElem?_eq_some_iff.mp hk).1
          omega
      | some before =>
          refine ih (List.mem_of_getElem? hprev) hprev (hbefore before ?_)
          rw [← code_eq_of_getElem? hb]
          exact (getElem?_body _ _).trans hprev

/-- A block ends in its only terminator. -/
theorem terminated (h : Verified f) {b : Nat} (hb : b < f.blocks.length) :
    ∃ init last, f.code b = init ++ [last] ∧ last.isTerminator = true ∧
      ∀ i ∈ init, i.isTerminator = false := by
  obtain ⟨block, hblock⟩ := getElem?_blocks hb
  obtain ⟨last, hlast, hterm⟩ := (h.ids b block hblock).ends
  obtain ⟨init, hinit⟩ := List.getLast?_eq_some_iff.mp hlast
  have hcode := code_eq_of_getElem? hblock
  refine ⟨init, last, by rw [hcode, hinit], hterm, ?_⟩
  intro i hi
  obtain ⟨k, hk⟩ := List.mem_iff_getElem?.mp hi
  have hlt := (List.getElem?_eq_some_iff.mp hk).1
  have hsite : (f.code b)[k]? = some i := by
    rw [hcode, hinit, List.getElem?_append_left hlt]
    exact hk
  obtain ⟨block', hblock', hs⟩ := h.scannedAt hsite
  rw [show f.blocks[b]? = some block' from hblock'] at hblock
  cases hblock
  by_contra hne
  have := hs.terminator (by simpa using hne)
  rw [hinit] at this
  simp at this
  omega

end Verified

end Disco.IR
