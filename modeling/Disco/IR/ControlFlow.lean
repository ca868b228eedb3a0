import Disco.IR.Liveness

/-! # Control flow analysis

`IRControlFlow`: successors and predecessors without repetitions, the reachable
blocks, dominator sets, natural loops and live values. The immediate
dominators and dominance frontiers that the same constructor computes are not
used by what is modelled here.
-/

namespace Disco.IR

open Library Verifier

/-- A loop header, the blocks around it and the blocks that jump back to it. -/
structure NaturalLoop where
  header : Nat
  blocks : Finset Nat
  latches : Finset Nat
  deriving DecidableEq

structure ControlFlow where
  reachable : Finset Nat
  loops : List NaturalLoop
  liveIn : Nat → Finset Nat
  liveOut : Nat → Finset Nat

namespace ControlFlow

def limit : String := "O2 analysis resource limit exceeded (CFG/liveness)."

/-- Append a value that is not there yet. -/
def add (values : List Nat) (value : Nat) : List Nat :=
  if value ∈ values then values else values ++ [value]

def successors (f : Function) (b : Nat) : List Nat := (Verifier.successors f b).foldl add []

def predecessors (f : Function) (b : Nat) : List Nat :=
  (List.range f.blocks.length).filter fun a => b ∈ successors f a

def checkEdges (f : Function) (i : Instruction) : Except String Unit := do
  rejectIf ((i.opcode = .hardwareLoop ∨ i.opcode = .hardwareLoopEnd) ∧ i.targets = [])
    "O2 CFG requires exposed hardware-loop backedges."
  rejectIf (i.opcode ≠ .phi ∧ ∃ target ∈ i.targets, badTarget f target) "O2 CFG: invalid edge."

def reachableBlocks (f : Function) : Except String (Finset Nat) :=
  flood (successors f) limit f.blocks.length [f.entry] ∅

/-- Dominator sets by the verifier's passes, under a limit on their number. -/
def dominatorSets (f : Function) (reachable : Finset Nat) : Except String (Nat → Finset Nat) :=
  loop (fun sets =>
      let swept := dominatorSweep (predecessors f) reachable f.entry
        (List.range f.blocks.length) (sets, false)
      .ok (if swept.2 then some swept.1 else none))
    limit (f.blocks.length + 1)
    (fun b => if b ∉ reachable then ∅ else if b = f.entry then {f.entry} else reachable)

/-! ## Natural loops -/

/-- Take the edge from `b` to `h` into account: a back edge when `h` dominates `b`. -/
def addBackedge (f : Function) (reachable : Finset Nat) (sets : Nat → Finset Nat)
    (natural : Nat → Option NaturalLoop) (edge : Nat × Nat) :
    Except String (Nat → Option NaturalLoop) :=
  if edge.2 ∈ sets edge.1 then do
    let around := (natural edge.2).getD ⟨edge.2, {edge.2}, ∅⟩
    let blocks ← flood (fun b => (predecessors f b).filter (· ∈ reachable)) limit f.blocks.length
      [edge.1] around.blocks
    pure (Function.update natural edge.2
      (some { around with blocks := blocks, latches := insert edge.1 around.latches }))
  else pure natural

def naturalLoops (f : Function) (reachable : Finset Nat) (sets : Nat → Finset Nat) :
    Except String (List NaturalLoop) := do
  let edges := ((List.range f.blocks.length).filter (· ∈ reachable)).flatMap fun b =>
    (successors f b).map fun h => (b, h)
  let natural ← foldAll (addBackedge f reachable sets) (fun _ => none) edges
  pure ((List.range f.blocks.length).filterMap natural)

/-- How many loops a block is in. -/
def loopDepth (cfg : ControlFlow) (b : Nat) : Nat := cfg.loops.countP fun around => b ∈ around.blocks

/-! ## Live values -/

/-- The values a block reads before it defines them. -/
def blockUses : Finset Nat → List Instruction → Finset Nat
  | _, [] => ∅
  | defs, i :: rest =>
      (if i.opcode = .phi then ∅ else i.operands.toFinset \ defs) ∪
        blockUses (if i.result = 0 then defs else insert i.result defs) rest

def blockDefs (code : List Instruction) : Finset Nat :=
  ((code.map Instruction.result).filter (· ≠ 0)).toFinset

def phiDefs (code : List Instruction) : Finset Nat :=
  blockDefs (code.filter fun i => i.opcode = .phi)

/-- What the PHIs of `s` read on the edge from `b`. -/
def edgeOperands (f : Function) (b s : Nat) : Finset Nat :=
  ((phis (f.code s)).flatMap fun i =>
    ((i.operands.zip i.targets).filter fun edge => edge.2 = b).map Prod.fst).toFinset

structure LiveSets where
  liveIn : Nat → Finset Nat
  liveOut : Nat → Finset Nat

def outAt (f : Function) (live : LiveSets) (b : Nat) : Finset Nat :=
  (successors f b).toFinset.biUnion fun s =>
    (live.liveIn s \ phiDefs (f.code s)) ∪ edgeOperands f b s

def inAt (f : Function) (out : Finset Nat) (b : Nat) : Finset Nat :=
  blockUses ∅ (f.code b) ∪ (out \ blockDefs (f.code b))

/-- A pass in progress: whether it changed anything, and the sizes it counts. -/
structure Sweep where
  live : LiveSets
  changed : Bool
  entries : Nat

def sweepBlock (f : Function) (reachable : Finset Nat) (sweep : Sweep) (b : Nat) :
    Except String Sweep :=
  if b ∈ reachable then do
    let out := outAt f sweep.live b
    let into := inAt f out b
    let fresh := decide (into ≠ sweep.live.liveIn b ∨ out ≠ sweep.live.liveOut b)
    let entries := sweep.entries + into.card + out.card
    rejectIf (entries > 1000000) limit
    pure (if fresh then
      ⟨⟨Function.update sweep.live.liveIn b into, Function.update sweep.live.liveOut b out⟩, true,
        entries⟩
    else ⟨sweep.live, sweep.changed, entries⟩)
  else pure sweep

/-- One pass over the blocks, last block first. -/
def sweepBlocks (f : Function) (reachable : Finset Nat) (live : LiveSets) :
    Except String (Option LiveSets) := do
  let swept ← foldAll (sweepBlock f reachable) ⟨live, false, 0⟩
    (List.range f.blocks.length).reverse
  pure (if swept.changed then some swept.live else none)

def liveSets (f : Function) (reachable : Finset Nat) : Except String LiveSets :=
  loop (sweepBlocks f reachable) limit (f.blocks.length + 2) ⟨fun _ => ∅, fun _ => ∅⟩

end ControlFlow

open ControlFlow in
def controlFlow (f : Function) : Except String ControlFlow := do
  rejectIf (f.blocks.length = 0 ∨ f.blocks.length > 8192 ∨ f.valueCount > 100000) limit
  checkAll (checkEdges f) f.instructions
  let reachable ← reachableBlocks f
  let sets ← dominatorSets f reachable
  let loops ← naturalLoops f reachable sets
  let live ← liveSets f reachable
  pure ⟨reachable, loops, live.liveIn, live.liveOut⟩

/-! ## What the live sets say -/

namespace ControlFlow

/-- The values live before an instruction, from those live after it. -/
def transfer (i : Instruction) (live : Finset Nat) : Finset Nat :=
  (if i.result = 0 then live else live.erase i.result) ∪
    if i.opcode = .phi then ∅ else i.operands.toFinset

/-- The values live before a stretch of code. -/
def liveBefore (code : List Instruction) (out : Finset Nat) : Finset Nat := code.foldr transfer out

def Defines (i : Instruction) (v : Nat) : Prop := i.result ≠ 0 ∧ i.result = v

def Reads (i : Instruction) (v : Nat) : Prop := i.opcode ≠ .phi ∧ v ∈ i.operands

theorem mem_transfer {i : Instruction} {live : Finset Nat} {v : Nat} :
    v ∈ transfer i live ↔ (v ∈ live ∧ ¬ Defines i v) ∨ Reads i v := by
  unfold transfer Defines Reads
  by_cases hres : i.result = 0
  · by_cases hphi : i.opcode = .phi <;> simp [hres, hphi]
  · by_cases hphi : i.opcode = .phi <;> simp [hres, hphi, and_comm, eq_comm]

theorem mem_blockDefs {code : List Instruction} {v : Nat} :
    v ∈ blockDefs code ↔ ∃ i ∈ code, Defines i v := by
  simp only [blockDefs, List.mem_toFinset, List.mem_filter, List.mem_map, decide_eq_true_eq, Defines]
  constructor
  · rintro ⟨⟨i, hi, rfl⟩, hne⟩
    exact ⟨i, hi, hne, rfl⟩
  · rintro ⟨i, hi, hne, rfl⟩
    exact ⟨⟨i, hi, rfl⟩, hne⟩

theorem mem_blockUses_cons {i : Instruction} {rest : List Instruction} {defs : Finset Nat}
    {v : Nat} : v ∈ blockUses defs (i :: rest) ↔ (Reads i v ∧ v ∉ defs) ∨
      v ∈ blockUses (if i.result = 0 then defs else insert i.result defs) rest := by
  rw [show blockUses defs (i :: rest) = (if i.opcode = .phi then ∅ else i.operands.toFinset \ defs) ∪
    blockUses (if i.result = 0 then defs else insert i.result defs) rest from rfl]
  unfold Reads
  by_cases hphi : i.opcode = .phi <;> simp [hphi]

/-- A block's uses and definitions describe its instructions together. -/
theorem mem_liveBefore_sdiff {code : List Instruction} {out defs : Finset Nat} {v : Nat} :
    v ∈ liveBefore code out ∧ v ∉ defs ↔
      v ∈ blockUses defs code ∨ (v ∈ out ∧ v ∉ defs ∧ ¬ ∃ i ∈ code, Defines i v) := by
  induction code generalizing defs with
  | nil => simp [liveBefore, blockUses]
  | cons i rest ih =>
      have hdefs : v ∈ (if i.result = 0 then defs else insert i.result defs) ↔
          Defines i v ∨ v ∈ defs := by
        unfold Defines
        split <;> simp_all [eq_comm]
      have hrest := @ih (if i.result = 0 then defs else insert i.result defs)
      rw [hdefs] at hrest
      rw [mem_blockUses_cons, show liveBefore (i :: rest) out = transfer i (liveBefore rest out)
        from rfl, mem_transfer]
      simp only [List.mem_cons, exists_eq_or_imp]
      by_cases hdef : Defines i v
      · simp only [hdef, true_or, not_true, and_false, false_and, false_or, or_false, false_iff]
          at hrest ⊢
        simp only [hrest, or_false]
      · simp only [hdef, false_or, not_false_eq_true, and_true] at hrest ⊢
        rw [or_and_right, hrest]
        tauto

theorem inAt_eq (f : Function) (out : Finset Nat) (b : Nat) :
    inAt f out b = liveBefore (f.code b) out := by
  ext v
  have hv : v ∈ liveBefore (f.code b) out ∧ v ∉ ∅ ↔ _ := mem_liveBefore_sdiff
  simp only [Finset.notMem_empty, not_false_eq_true, and_true, true_and] at hv
  rw [hv, inAt, Finset.mem_union, Finset.mem_sdiff, mem_blockDefs]

theorem mem_foldl_add {values list : List Nat} {v : Nat} :
    v ∈ list.foldl add values ↔ v ∈ values ∨ v ∈ list := by
  induction list generalizing values with
  | nil => simp
  | cons a rest ih =>
      rw [List.foldl_cons, ih]
      unfold add
      split
      · next ha =>
          rw [List.mem_cons]
          constructor
          · rintro (h | h)
            · exact .inl h
            · exact .inr (.inr h)
          · rintro (h | rfl | h)
            · exact .inl h
            · exact .inl ha
            · exact .inr h
      · simp [or_assoc]

theorem mem_successors_iff {f : Function} {b s : Nat} : s ∈ successors f b ↔ flow f b s := by
  unfold successors flow
  rw [mem_foldl_add]
  simp

theorem mem_edgeOperands {f : Function} {b s v : Nat} :
    v ∈ edgeOperands f b s ↔ edgeOperand f b s v := by
  unfold edgeOperands edgeOperand
  simp only [List.mem_toFinset, List.mem_flatMap, List.mem_map, List.mem_filter, decide_eq_true_eq,
    Prod.exists, exists_and_right, exists_eq_right]

theorem mem_outAt {f : Function} {live : LiveSets} {b v : Nat} :
    v ∈ outAt f live b ↔ ∃ s, flow f b s ∧
      ((v ∈ live.liveIn s ∧ v ∉ phiDefs (f.code s)) ∨ edgeOperand f b s v) := by
  unfold outAt
  simp only [Finset.mem_biUnion, List.mem_toFinset, mem_successors_iff, Finset.mem_union,
    Finset.mem_sdiff, mem_edgeOperands]

theorem mem_reachableBlocks {f : Function} {reachable : Finset Nat}
    (h : reachableBlocks f = .ok reachable) {b : Nat} :
    b ∈ reachable ↔ Reached (flow f) f.entry b := by
  obtain ⟨-, hwork, hclosed, hsound⟩ := flood_eq_ok h
  have hedge : ∀ x y, y ∈ successors f x ↔ flow f x y := fun x y => mem_successors_iff
  constructor
  · intro hb
    rcases hsound b hb with hb | ⟨w, hw, hreach⟩
    · simp at hb
    · rw [List.mem_singleton.mp hw] at hreach
      exact hreach.mono fun x y hxy => (hedge x y).mp hxy
  · intro hb
    induction hb with
    | start => exact hwork _ (List.mem_singleton_self _)
    | @next x y _ step ih =>
        rcases hclosed x ih with hx | hall
        · simp at hx
        · exact hall y ((hedge x y).mpr step)

/-! The graph searches of an accepted function always come to an end: only the
limits of the source can stop the analysis. -/

theorem lt_of_mem_successors {f : Function} (hf : Verified f) {b s : Nat}
    (h : s ∈ successors f b) : s < f.blocks.length := by
  obtain ⟨i, hi, -, ht⟩ := mem_successors.mp (mem_successors_iff.mp h)
  obtain ⟨k, hk⟩ := List.mem_iff_getElem?.mp hi
  obtain ⟨_, -, hs⟩ := hf.scannedAt hk
  exact hs.targets s ht

theorem reachableBlocks_total {f : Function} (hf : Verified f) :
    ∃ reachable, reachableBlocks f = .ok reachable := by
  refine flood_total ?_ fun b s hs => lt_of_mem_successors hf hs
  intro b hb
  rw [List.mem_singleton.mp hb]
  exact hf.entry_lt

theorem naturalLoops_total (f : Function) (reachable : Finset Nat) (sets : Nat → Finset Nat) :
    ∃ loops, naturalLoops f reachable sets = .ok loops := by
  have hfold : ∀ natural, ∃ r, foldAll (addBackedge f reachable sets) natural
      (((List.range f.blocks.length).filter (· ∈ reachable)).flatMap fun b =>
        (successors f b).map fun h => (b, h)) = .ok r := by
    refine foldAll_total fun natural edge hedge => ?_
    obtain ⟨b, hb, hedge⟩ := List.mem_flatMap.mp hedge
    obtain ⟨h, -, rfl⟩ := List.mem_map.mp hedge
    unfold addBackedge
    split
    · obtain ⟨blocks, hblocks⟩ : ∃ blocks, flood
          (fun b => (predecessors f b).filter (· ∈ reachable)) limit f.blocks.length [b]
          ((natural h).getD ⟨h, {h}, ∅⟩).blocks = .ok blocks := by
        refine flood_total ?_ ?_
        · intro x hx
          rw [List.mem_singleton.mp hx]
          exact List.mem_range.mp (List.mem_of_mem_filter hb)
        · intro x y hy
          exact List.mem_range.mp (List.mem_of_mem_filter (List.mem_of_mem_filter hy))
      exact ⟨_, bind_eq_ok.mpr ⟨blocks, hblocks, rfl⟩⟩
    · exact ⟨natural, rfl⟩
  obtain ⟨natural, hnatural⟩ := hfold fun _ => none
  exact ⟨_, bind_eq_ok.mpr ⟨natural, hnatural, rfl⟩⟩

/-! ### Only live values are in the sets -/

/-- Every member is live. -/
structure Sound (f : Function) (live : LiveSets) : Prop where
  into : ∀ b, ∀ v ∈ live.liveIn b, LiveAt f b 0 v
  out : ∀ b, ∀ v ∈ live.liveOut b, LiveAt f b (f.code b).length v

theorem liveAt_of_mem_liveBefore {f : Function} (hf : Verified f) {b : Nat} {out : Finset Nat}
    (hout : ∀ v ∈ out, LiveAt f b (f.code b).length v) {k v : Nat} (hk : k ≤ (f.code b).length)
    (hv : v ∈ liveBefore ((f.code b).drop k) out) : LiveAt f b k v := by
  -- from the end of the block back to point `k`
  induction hn : (f.code b).length - k generalizing k v with
  | zero =>
      have hend : k = (f.code b).length := by omega
      subst hend
      rw [List.drop_length] at hv
      exact hout v hv
  | succ n ih =>
      have hlt : k < (f.code b).length := by omega
      rw [List.drop_eq_getElem_cons hlt] at hv
      have hi : (f.code b)[k]? = some (f.code b)[k] := List.getElem?_eq_getElem hlt
      have hlater : ∀ w ∈ liveBefore ((f.code b).drop (k + 1)) out, LiveAt f b (k + 1) w :=
        fun w hw => ih (by omega) hw (by omega)
      change v ∈ transfer _ (liveBefore _ out) at hv
      rcases mem_transfer.mp hv with ⟨hlive, hkeep⟩ | ⟨hphi, hops⟩
      · refine .pass hi ?_ (hlater v hlive)
        intro hres
        exact hkeep ⟨hres ▸ hf.ne_zero_of_liveAt (hlater v hlive), hres⟩
      · exact .use hi hphi hops

theorem Sound.outAt {f : Function} {live : LiveSets} (h : Sound f live) {b : Nat} :
    ∀ v ∈ ControlFlow.outAt f live b, LiveAt f b (f.code b).length v := by
  intro v hv
  rcases mem_outAt.mp hv with ⟨s, hflow, ⟨hlive, -⟩ | hedge⟩
  · exact .edge hflow (h.into s v hlive)
  · exact .phi hflow hedge

theorem Sound.inAt {f : Function} (hf : Verified f) {b : Nat} {out : Finset Nat}
    (hout : ∀ v ∈ out, LiveAt f b (f.code b).length v) :
    ∀ v ∈ ControlFlow.inAt f out b, LiveAt f b 0 v := by
  intro v hv
  rw [inAt_eq] at hv
  exact liveAt_of_mem_liveBefore hf hout (Nat.zero_le _) (by simpa using hv)

theorem sweepBlock_sound {f : Function} (hf : Verified f) {reachable : Finset Nat}
    {sweep sweep' : Sweep} {b : Nat} (h : Sound f sweep.live)
    (hs : sweepBlock f reachable sweep b = .ok sweep') : Sound f sweep'.live := by
  unfold sweepBlock at hs
  split at hs
  · simp only [rejectIf_bind_eq_ok, pure_eq_ok] at hs
    obtain ⟨-, rfl⟩ := hs
    split
    · have hout : ∀ v ∈ outAt f sweep.live b, LiveAt f b (f.code b).length v := h.outAt
      constructor
      · intro c v hv
        simp only at hv
        by_cases hc : c = b
        · subst hc
          rw [Function.update_self] at hv
          exact Sound.inAt hf hout v hv
        · rw [Function.update_of_ne hc] at hv
          exact h.into c v hv
      · intro c v hv
        simp only at hv
        by_cases hc : c = b
        · subst hc
          rw [Function.update_self] at hv
          exact hout v hv
        · rw [Function.update_of_ne hc] at hv
          exact h.out c v hv
    · exact h
  · cases hs
    exact h

/-! ### Every live value is in the sets -/

/-- The sets satisfy their equations at a block. -/
def Solved (f : Function) (live : LiveSets) (b : Nat) : Prop :=
  live.liveOut b = outAt f live b ∧ live.liveIn b = inAt f (outAt f live b) b

theorem sweepBlock_unchanged {f : Function} {reachable : Finset Nat} {sweep sweep' : Sweep}
    {b : Nat} (hs : sweepBlock f reachable sweep b = .ok sweep') (hc : sweep'.changed = false) :
    sweep.changed = false ∧ sweep'.live = sweep.live ∧ (b ∈ reachable → Solved f sweep.live b) := by
  unfold sweepBlock at hs
  split at hs
  · simp only [rejectIf_bind_eq_ok, pure_eq_ok] at hs
    obtain ⟨-, rfl⟩ := hs
    split at hc
    · cases hc
    · next hfresh =>
        simp only [decide_eq_true_eq, not_or, not_not] at hfresh
        refine ⟨hc, ?_, fun _ => ⟨hfresh.2.symm, hfresh.1.symm⟩⟩
        rw [if_neg]
        simpa [not_or] using hfresh
  · next hb =>
      cases hs
      exact ⟨hc, rfl, fun h => absurd h hb⟩

theorem sweepBlocks_sound {f : Function} (hf : Verified f) {reachable : Finset Nat}
    {live live' : LiveSets} (h : Sound f live)
    (hs : sweepBlocks f reachable live = .ok (some live')) : Sound f live' := by
  unfold sweepBlocks at hs
  obtain ⟨swept, hfold, hs⟩ := bind_eq_ok.mp hs
  have hswept : Sound f swept.live :=
    foldAll_preserves (I := fun s => Sound f s.live)
      (fun _ _ _ hI hn => sweepBlock_sound hf hI hn) h hfold
  simp only [pure_eq_ok] at hs
  split at hs
  · cases hs
    exact hswept
  · cases hs

theorem sweepBlocks_solved {f : Function} {reachable : Finset Nat} {live : LiveSets}
    (hs : sweepBlocks f reachable live = .ok none) {b : Nat} (hb : b < f.blocks.length)
    (hr : b ∈ reachable) : Solved f live b := by
  unfold sweepBlocks at hs
  obtain ⟨swept, hfold, hs⟩ := bind_eq_ok.mp hs
  have hall : swept.changed = false →
      swept.live = live ∧ ∀ b ∈ (List.range f.blocks.length).reverse, b ∈ reachable →
        Solved f live b := by
    refine foldAll_seen (I := fun seen s => s.changed = false →
        s.live = live ∧ ∀ b ∈ seen, b ∈ reachable → Solved f live b) ?_
      (fun _ => ⟨rfl, by simp⟩) hfold
    intro seen s b s' hI hn hc
    obtain ⟨hc', hlive, hsolved⟩ := sweepBlock_unchanged hn hc
    obtain ⟨hsame, hseen⟩ := hI hc'
    refine ⟨hlive.trans hsame, ?_⟩
    intro x hx hxr
    rcases List.mem_append.mp hx with hx | hx
    · exact hseen x hx hxr
    · rw [List.mem_singleton.mp hx] at hxr ⊢
      exact hsame ▸ hsolved hxr
  simp only [pure_eq_ok] at hs
  split at hs
  · cases hs
  · next hc =>
      exact (hall (by simpa using hc)).2 b (List.mem_reverse.mpr (List.mem_range.mpr hb)) hr

theorem mem_liveBefore_of_liveAt {f : Function} (hf : Verified f) {live : LiveSets}
    (hsolved : ∀ b, Reached (flow f) f.entry b → Solved f live b) {b k v : Nat}
    (h : LiveAt f b k v) : v ∈ liveBefore ((f.code b).drop k) (live.liveOut b) := by
  have hne := hf.ne_zero_of_liveAt h
  have hreach := hf.reached_of_liveAt h
  induction h with
  | @use b k v i hi hphi hv =>
      obtain ⟨hlt, heq⟩ := List.getElem?_eq_some_iff.mp hi
      rw [List.drop_eq_getElem_cons hlt]
      change v ∈ transfer _ (liveBefore _ _)
      rw [mem_transfer, heq]
      exact .inr ⟨hphi, hv⟩
  | @pass b k v i hi hkeep _ ih =>
      obtain ⟨hlt, heq⟩ := List.getElem?_eq_some_iff.mp hi
      rw [List.drop_eq_getElem_cons hlt]
      change v ∈ transfer _ (liveBefore _ _)
      rw [mem_transfer, heq]
      exact .inl ⟨ih hne hreach, fun hdef => hkeep hdef.2⟩
  | @edge b s v step later ih =>
      rw [List.drop_length]
      change v ∈ live.liveOut b
      rw [(hsolved b hreach).1, mem_outAt]
      refine ⟨s, step, .inl ⟨?_, ?_⟩⟩
      · have hs := hsolved s (.next hreach step)
        rw [hs.2, ← hs.1, inAt_eq]
        simpa using ih hne (.next hreach step)
      · -- a value live at the start of a block is not defined in it
        intro hdef
        obtain ⟨i, hi, -, hres⟩ := mem_blockDefs.mp hdef
        obtain ⟨k, hk⟩ := List.mem_iff_getElem?.mp (List.mem_of_mem_filter hi)
        have hsite := hf.site_of_code hk (hres ▸ hne)
        obtain ⟨site, hsite', hpos, -⟩ := hf.defined_of_liveAt later
        rw [hres, hsite'] at hsite
        cases hsite
        exact absurd (hpos rfl) (Nat.not_lt_zero _)
  | @phi b s v step hreads =>
      rw [List.drop_length]
      change v ∈ live.liveOut b
      rw [(hsolved b hreach).1, mem_outAt]
      exact ⟨s, step, .inr hreads⟩

end ControlFlow

open ControlFlow in
/-- The live sets hold exactly the values that are live, at every point. -/
theorem mem_liveBefore_iff {f : Function} (hf : Verified f) {cfg : ControlFlow}
    (h : controlFlow f = .ok cfg) {b k v : Nat} (hk : k ≤ (f.code b).length) :
    v ∈ liveBefore ((f.code b).drop k) (cfg.liveOut b) ↔ LiveAt f b k v := by
  unfold controlFlow at h
  simp only [rejectIf_bind_eq_ok] at h
  obtain ⟨-, h⟩ := h
  obtain ⟨_, -, h⟩ := bind_eq_ok.mp h
  obtain ⟨reachable, hreach, h⟩ := bind_eq_ok.mp h
  obtain ⟨sets, -, h⟩ := bind_eq_ok.mp h
  obtain ⟨loops, -, h⟩ := bind_eq_ok.mp h
  obtain ⟨live, hlive, h⟩ := bind_eq_ok.mp h
  cases h
  obtain ⟨hsound, hstop⟩ := loop_eq_ok (I := Sound f)
    (fun a c ha hn => sweepBlocks_sound hf ha hn) ⟨by simp, by simp⟩ hlive
  constructor
  · exact fun hv => liveAt_of_mem_liveBefore hf (hsound.out b) hk hv
  · refine fun hv => mem_liveBefore_of_liveAt hf (fun c hc => ?_) hv
    exact sweepBlocks_solved hstop (hf.lt_of_reached hc) ((mem_reachableBlocks hreach).mpr hc)

end Disco.IR
