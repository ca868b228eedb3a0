import Disco.Backend.Allocated

/-! # Values that are never stored

The generator folds a comparison into the branch after it, a plot cursor that
steps by one into its write, and takes a value without a register out of the
accumulator right after it is made. Each of them is read once, in its own block,
so it is live at no end of a block. Proofs of addresses are a parameter.
-/

namespace Disco.Backend.FramePlan

open IR Library LinearScan

section Local

variable (f : Function)

def useCount (v : Nat) : Nat := (f.instructions.flatMap Instruction.operands).count v

def constantValue (v : Nat) : Option Int :=
  (f.definition v).bind fun i => if i.opcode = .constant then some i.immediate else none

def isComparison (operation : String) : Bool :=
  operation == "<" || operation == ">" || operation == "<=" || operation == ">=" || operation == "==" || operation == "!="

/-- A comparison read by the branch after it and by nothing else. -/
def branchComparison (block : BasicBlock) : Option Nat :=
  match block.instructions.reverse with
  | branch :: comparison :: _ =>
      if branch.opcode = .condBranch ∧ comparison.opcode = .binary ∧ branch.operands.head? = some comparison.result ∧
          useCount f comparison.result = 1 ∧ isComparison comparison.operation = true then
        some comparison.result
      else none
  | _ => none

def branchComparisons : List Nat := f.blocks.filterMap (branchComparison f)

/-- The first place where a block defines a value. -/
def positionOf (code : List Instruction) (v : Nat) : Option Nat :=
  if v = 0 then none else code.findIdx? fun i => i.result == v

/-- What is between a cursor read and its write: constants and the update. -/
def adjacent (code : List Instruction) (first last : Nat) (update : Nat) : Bool :=
  ((code.take last).drop (first + 1)).all fun i => decide (i.opcode = .constant) || i.result == update

/-- The read and the update of a cursor that position `n` writes back. -/
def cursorUpdate (code : List Instruction) (n : Nat) (write : Instruction) : Option (Nat × Nat) := do
  guard (write.opcode = .plotCoordinateWrite)
  let update ← write.operands.head?.bind f.definition
  guard (update.opcode = .binary ∧ update.operands.length = 2 ∧ (update.operation = "+" ∨ update.operation = "-") ∧
    useCount f update.result = 1)
  let read ← update.operands.head?.bind f.definition
  let step ← update.operands[1]?.bind (constantValue f)
  guard (read.opcode = .plotCoordinateRead ∧ read.immediate = write.immediate ∧ useCount f read.result = 1 ∧
    (step = 1 ∨ step = -1))
  let first ← positionOf code read.result
  guard ((positionOf code update.result).isSome ∧ first < n ∧ adjacent code first n update.result = true)
  pure (read.result, update.result)

/-- What has been planned so far. -/
structure LocalPlan where
  cursorUpdates : List Nat := []
  cursorElided : List Nat := []
  ephemeral : List Nat := []
  addressWidths : List (Nat × Int) := []
  deriving DecidableEq, Repr

def planCursor (code : List Instruction) (plan : LocalPlan) (entry : Instruction × Nat) : LocalPlan :=
  match cursorUpdate f code entry.2 entry.1 with
  | none => plan
  | some (read, update) =>
      { plan with
        cursorUpdates := update :: plan.cursorUpdates
        cursorElided := read :: update :: plan.cursorElided }

variable (locations : Locations) (proven : Nat → Int → Bool)

/-- The next instruction that is no near constant. -/
def nextConsumer (code : List Instruction) (n : Nat) : Option Instruction :=
  (code.drop (n + 1)).find? fun i => !(decide (i.opcode = .constant) && !isFarPointer i.type)

def takesFirst (opcode : Opcode) : Bool :=
  match opcode with
  | .cast | .unary | .bitExtract | .ret | .plotCoordinateWrite | .setColor | .loadIndirect | .condBranch => true
  | _ => false

/-- The consumer reads the value out of the accumulator. -/
def direct (value consumer : Instruction) : Bool :=
  let first := consumer.operands.head? == some value.result
  let second := consumer.operands[1]?.getD 0
  let simple := (registerOf locations second).isSome || (constantValue f second).isSome
  if consumer.opcode = .storeIndirect then
    (first && !isFarPointer consumer.type && proven value.result consumer.type.sizeInBytes && simple) ||
      second == value.result
  else if first && decide (consumer.opcode = .binary) && decide (consumer.operands.length = 2) then simple
  else first && takesFirst consumer.opcode

def addressWidth (value consumer : Instruction) : Int :=
  if consumer.operands.head? = some value.result ∧ (consumer.opcode = .loadIndirect ∨ consumer.opcode = .storeIndirect) then
    consumer.type.sizeInBytes
  else 1

/-- A value without a register that its consumer takes at once. -/
def isEphemeral (code : List Instruction) (plan : LocalPlan) (n : Nat) (value consumer : Instruction) : Bool :=
  value.producesValue && decide (useCount f value.result = 1) && !plan.cursorElided.contains value.result &&
  !(branchComparisons f).contains value.result &&
  (locations value.result).any (fun place => !place.hasRegister && !place.rematerializable) &&
  decide (n + 1 < code.length) && !consumer.operands.isEmpty && direct f locations proven value consumer &&
  !(decide (consumer.opcode = .plotCoordinateWrite) && plan.cursorUpdates.contains (consumer.operands.head?.getD 0)) &&
  !(decide (value.type.pointerLevel > 0) &&
    (!proven value.result (addressWidth value consumer) || isFarPointer value.type)) &&
  !decide (value.opcode = .divMod ∨ value.opcode = .phi) && !isFarPointer value.type

def planEphemeral (code : List Instruction) (plan : LocalPlan) (entry : Instruction × Nat) : LocalPlan :=
  match nextConsumer code entry.2 with
  | none => plan
  | some consumer =>
      if isEphemeral f locations proven code plan entry.2 entry.1 consumer then
        { plan with
          ephemeral := entry.1.result :: plan.ephemeral
          addressWidths :=
            if entry.1.type.pointerLevel > 0 then (entry.1.result, addressWidth entry.1 consumer) :: plan.addressWidths
            else plan.addressWidths }
      else plan

def planBlock (plan : LocalPlan) (block : BasicBlock) : LocalPlan :=
  let code := block.instructions
  code.zipIdx.foldl (planEphemeral f locations proven code) (code.zipIdx.foldl (planCursor f code) plan)

def planLocalValues : LocalPlan := f.blocks.foldl (planBlock f locations proven) {}

/-- Values that are never stored. -/
def elided (plan : LocalPlan) (v : Nat) : Bool :=
  (branchComparisons f).contains v || plan.cursorElided.contains v || plan.ephemeral.contains v

end Local

/-! ## Read once -/

/-- One instruction reads the value, in the block that defines it. -/
structure ReadOnce (f : Function) (v b n : Nat) : Prop where
  count : useCount f v = 1
  reader : ∃ i, (f.code b)[n]? = some i ∧ i.opcode ≠ .phi ∧ v ∈ i.operands
  defined : ∃ site, f.site v = some site ∧ site.block = b ∧ site.instruction.opcode ≠ .phi

section ReadOnce

variable {f : Function} {v b n : Nat}

theorem useCount_sites (f : Function) (v : Nat) :
    useCount f v = (f.sites.flatMap fun site => site.instruction.operands).count v := by
  unfold useCount
  rw [← sites_map_instruction, List.flatMap_map]

theorem useCount_pos : 0 < useCount f v ↔ Used f v := by
  unfold useCount Used
  rw [List.count_pos_iff, List.mem_flatMap]

/-- Two sites that read a value of one use are one site. -/
theorem reader_unique (hcount : useCount f v = 1) {a c : Site} (ha : a ∈ f.sites) (hc : c ∈ f.sites)
    (hreada : v ∈ a.instruction.operands) (hreadc : v ∈ c.instruction.operands) : a = c := by
  by_contra hne
  have hrest : c ∈ f.sites.erase a := (List.mem_erase_of_ne (Ne.symm hne)).mpr hc
  have hperm : f.sites.Perm (a :: c :: (f.sites.erase a).erase c) :=
    (List.perm_cons_erase ha).trans ((List.perm_cons_erase hrest).cons a)
  rw [useCount_sites, (hperm.flatMap_right _).count_eq] at hcount
  simp only [List.flatMap_cons, List.count_append] at hcount
  have hposa := List.count_pos_iff.mpr hreada
  have hposc := List.count_pos_iff.mpr hreadc
  omega

/-- It is live before its reader only. -/
theorem ReadOnce.liveAt (hv : Verified f) (h : ReadOnce f v b n) {b' k : Nat} (hlive : LiveAt f b' k v) :
    b' = b ∧ k ≤ n := by
  obtain ⟨reader, hreader, hphi, hread⟩ := h.reader
  obtain ⟨site, hsite, hblock, _⟩ := h.defined
  have hmem : (⟨b, n, reader⟩ : Site) ∈ f.sites := mem_sites.mpr hreader
  induction hlive with
  | @use b' k v i hi _ hi' =>
      have hsame := reader_unique h.count (mem_sites.mpr hi : (⟨b', k, i⟩ : Site) ∈ f.sites) hmem hi' hread
      cases hsame
      exact ⟨rfl, le_rfl⟩
  | pass _ _ _ ih =>
      have hlater := ih h hread hsite
      exact ⟨hlater.1, by omega⟩
  | @edge b' s v _ hlater ih =>
      -- the definition would come before the start of its block
      have hentry := (ih h hread hsite).1
      obtain ⟨site', hsite', hbefore, _⟩ := hv.defined_of_liveAt hlater
      rw [hsite] at hsite'
      cases hsite'
      exact absurd (hbefore (hblock.trans hentry.symm)) (Nat.not_lt_zero _)
  | @phi b' s v _ hedge =>
      obtain ⟨i, hi, hzip⟩ := hedge
      obtain ⟨hcode, hop⟩ := mem_code_of_mem_phis hi
      obtain ⟨at_, hat, -, heq⟩ := mem_sites_of_mem_code hcode
      have hsame := reader_unique h.count hat hmem (heq ▸ (List.of_mem_zip hzip).1) hread
      rw [← heq, hsame] at hop
      exact absurd hop hphi

/-- At the end of a block the value is dead. -/
theorem ReadOnce.not_live_at_end (hv : Verified f) (h : ReadOnce f v b n) (b' : Nat) :
    ¬ LiveAt f b' (f.code b').length v := by
  intro hlive
  obtain ⟨rfl, hle⟩ := h.liveAt hv hlive
  obtain ⟨_, hreader, _, _⟩ := h.reader
  have hlt := (List.getElem?_eq_some_iff.mp hreader).1
  omega

theorem code_of_mem_blocks {block : BasicBlock} (h : block ∈ f.blocks) : ∃ b, f.code b = block.instructions := by
  obtain ⟨b, hb⟩ := List.mem_iff_getElem?.mp h
  exact ⟨b, by simp [Function.code, hb]⟩

theorem ne_zero_of_useCount (hv : Verified f) (hcount : useCount f v = 1) : v ≠ 0 := by
  obtain ⟨i, hi, hread⟩ := useCount_pos.mp (by omega : 0 < useCount f v)
  obtain ⟨b, hcode⟩ := mem_instructions.mp hi
  exact hv.operand_ne_zero hcode hread

theorem defined_of_code (hv : Verified f) {i : Instruction} {m : Nat} (hi : (f.code b)[m]? = some i)
    (hne : i.result ≠ 0) (hphi : i.opcode ≠ .phi) :
    ∃ site, f.site i.result = some site ∧ site.block = b ∧ site.instruction.opcode ≠ .phi :=
  ⟨_, hv.site_of_code hi hne, rfl, hphi⟩

/-- A comparison folded into a branch. -/
theorem branchComparison_readOnce (hv : Verified f) (h : v ∈ branchComparisons f) : ∃ b n, ReadOnce f v b n := by
  obtain ⟨block, hblock, hcomparison⟩ := List.mem_filterMap.mp h
  obtain ⟨b, hcode⟩ := code_of_mem_blocks hblock
  unfold branchComparison at hcomparison
  split at hcomparison
  · next branch comparison rest hreverse =>
      split at hcomparison
      · next hfold =>
          cases hcomparison
          obtain ⟨hbranch, hbinary, hhead, hcount, _⟩ := hfold
          have hend : f.code b = rest.reverse ++ [comparison, branch] := by
            rw [hcode, ← List.reverse_reverse block.instructions, hreverse]
            simp
          refine ⟨b, rest.length + 1, hcount, ⟨branch, ?_, ?_, List.mem_of_head? hhead⟩, ?_⟩
          · simp [hend]
          · rw [hbranch]
            decide
          · apply defined_of_code (m := rest.length) hv
            · simp [hend]
            · exact ne_zero_of_useCount hv hcount
            · rw [hbinary]
              decide
      · cases hcomparison
  · cases hcomparison

theorem positionOf_spec {code : List Instruction} {m : Nat} (h : positionOf code v = some m) :
    ∃ i, code[m]? = some i ∧ i.result = v ∧ v ≠ 0 := by
  unfold positionOf at h
  split at h
  · cases h
  · next hne =>
      obtain ⟨hlt, hresult, _⟩ := List.findIdx?_eq_some_iff_getElem.mp h
      exact ⟨code[m], List.getElem?_eq_getElem hlt, by simpa using hresult, hne⟩

/-- A value whose definition stands in the block. -/
theorem position_of_definition (hv : Verified f) {i : Instruction} {u m : Nat} (hdef : f.definition u = some i)
    (hposition : positionOf (f.code b) i.result = some m) :
    i.result = u ∧ (f.code b)[m]? = some i ∧ f.site u = some ⟨b, m, i⟩ := by
  obtain ⟨site, hsite, rfl⟩ := Option.map_eq_some_iff.mp hdef
  obtain ⟨_, hresult⟩ := of_site_eq_some hsite
  obtain ⟨j, hj, hjresult, hne⟩ := positionOf_spec hposition
  have hat := hv.site_of_code hj (hjresult ▸ hne)
  rw [hjresult, hresult, hsite] at hat
  cases hat
  exact ⟨hresult, hj, hsite⟩

theorem cursorUpdate_readOnce (hv : Verified f) {n read update : Nat} {write : Instruction}
    (hwrite : (f.code b)[n]? = some write) (h : cursorUpdate f (f.code b) n write = some (read, update)) :
    (∃ n, ReadOnce f read b n) ∧ ∃ n, ReadOnce f update b n := by
  unfold cursorUpdate at h
  simp only [Option.bind_eq_bind, Option.bind_eq_some_iff, Option.guard_eq_some', exists_const] at h
  obtain ⟨hop, updated, ⟨u, hu, hupdated⟩, ⟨hbinary, _, _, hcountu⟩, readed, ⟨r, hr, hreaded⟩, _, _,
    ⟨hreadop, _, hcountr, _⟩, first, hfirst, ⟨hposition, _, _⟩, hpair⟩ := h
  cases hpair
  obtain ⟨m, hm⟩ := Option.isSome_iff_exists.mp hposition
  obtain ⟨hresultu, hcodeu, hsiteu⟩ := position_of_definition hv hupdated hm
  obtain ⟨hresultr, hcoder, hsiter⟩ := position_of_definition hv hreaded hfirst
  constructor
  · refine ⟨m, hcountr, ⟨updated, hcodeu, ?_, ?_⟩, ?_⟩
    · rw [hbinary]
      decide
    · rw [hresultr]
      exact List.mem_of_head? hr
    · refine ⟨_, hresultr ▸ hsiter, rfl, ?_⟩
      rw [hreadop]
      decide
  · refine ⟨n, hcountu, ⟨write, hwrite, ?_, ?_⟩, ?_⟩
    · rw [hop]
      decide
    · rw [hresultu]
      exact List.mem_of_head? hu
    · refine ⟨_, hresultu ▸ hsiteu, rfl, ?_⟩
      rw [hbinary]
      decide

theorem direct_reads {locations : Locations} {proven : Nat → Int → Bool} {value consumer : Instruction}
    (hne : value.result ≠ 0) (h : direct f locations proven value consumer = true) :
    value.result ∈ consumer.operands ∧ consumer.opcode ≠ .phi := by
  have hhead : (consumer.operands.head? == some value.result) = true → value.result ∈ consumer.operands := by
    intro hfirst
    exact List.mem_of_head? (eq_of_beq hfirst)
  unfold direct at h
  dsimp only at h
  split at h
  · next hstore =>
      refine ⟨?_, by rw [hstore]; decide⟩
      rw [Bool.or_eq_true] at h
      cases h with
      | inl haddress =>
          simp only [Bool.and_eq_true] at haddress
          exact hhead haddress.1.1.1
      | inr hvalue =>
          have hsecond := eq_of_beq hvalue
          cases hat : consumer.operands[1]? with
          | none =>
              rw [hat] at hsecond
              exact absurd hsecond.symm hne
          | some second =>
              rw [hat, Option.getD_some] at hsecond
              exact List.mem_of_getElem? (hsecond ▸ hat)
  · split at h
    · next hbinary =>
        simp only [Bool.and_eq_true, decide_eq_true_eq] at hbinary
        exact ⟨hhead hbinary.1.1, by rw [hbinary.1.2]; decide⟩
    · rw [Bool.and_eq_true] at h
      refine ⟨hhead h.1, ?_⟩
      intro hphi
      rw [hphi] at h
      cases h.2

theorem isEphemeral_readOnce (hv : Verified f) {locations : Locations} {proven : Nat → Int → Bool} {plan : LocalPlan}
    {n : Nat} {value consumer : Instruction} (hvalue : (f.code b)[n]? = some value)
    (hnext : nextConsumer (f.code b) n = some consumer)
    (h : isEphemeral f locations proven (f.code b) plan n value consumer = true) :
    ∃ n, ReadOnce f value.result b n := by
  unfold isEphemeral at h
  simp only [Bool.and_eq_true, decide_eq_true_eq, Bool.not_eq_true', decide_eq_false_iff_not, not_or] at h
  obtain ⟨⟨⟨⟨⟨⟨hhead, _⟩, hdirect⟩, _⟩, _⟩, _, hphi⟩, _⟩ := h
  have hcount : useCount f value.result = 1 := hhead.1.1.1.1.2
  have hne := ne_zero_of_useCount hv hcount
  obtain ⟨hread, hconsumer⟩ := direct_reads hne hdirect
  have hmem : consumer ∈ f.code b := List.mem_of_mem_drop (List.mem_of_find?_eq_some hnext)
  obtain ⟨m, hm⟩ := List.mem_iff_getElem?.mp hmem
  exact ⟨m, hcount, ⟨consumer, hm, hconsumer, hread⟩, defined_of_code hv hvalue hne hphi⟩

/-- Every value a plan takes away from the frame is read once. -/
structure LocalPlan.Sound (f : Function) (plan : LocalPlan) : Prop where
  cursors : ∀ v ∈ plan.cursorElided, ∃ b n, ReadOnce f v b n
  ephemeral : ∀ v ∈ plan.ephemeral, ∃ b n, ReadOnce f v b n

theorem foldl_sound {α : Type} {step : LocalPlan → α → LocalPlan} {list : List α}
    (hstep : ∀ plan, ∀ a ∈ list, LocalPlan.Sound f plan → LocalPlan.Sound f (step plan a)) {plan : LocalPlan}
    (hplan : LocalPlan.Sound f plan) : LocalPlan.Sound f (list.foldl step plan) := by
  induction list generalizing plan with
  | nil => exact hplan
  | cons a rest ih =>
      apply ih
      · intro plan x hx
        exact hstep plan x (List.mem_cons_of_mem _ hx)
      · exact hstep plan a List.mem_cons_self hplan

theorem planCursor_sound (hv : Verified f) {plan : LocalPlan} {entry : Instruction × Nat}
    (hentry : (f.code b)[entry.2]? = some entry.1) (hplan : plan.Sound f) :
    (planCursor f (f.code b) plan entry).Sound f := by
  unfold planCursor
  split
  · exact hplan
  · next read update hupdate =>
      obtain ⟨⟨m, hread⟩, n, hupdated⟩ := cursorUpdate_readOnce hv hentry hupdate
      refine ⟨?_, hplan.ephemeral⟩
      intro v hmem
      simp only [List.mem_cons] at hmem
      rcases hmem with rfl | rfl | hold
      · exact ⟨b, m, hread⟩
      · exact ⟨b, n, hupdated⟩
      · exact hplan.cursors v hold

theorem planEphemeral_sound (hv : Verified f) {locations : Locations} {proven : Nat → Int → Bool} {plan : LocalPlan}
    {entry : Instruction × Nat} (hentry : (f.code b)[entry.2]? = some entry.1) (hplan : plan.Sound f) :
    (planEphemeral f locations proven (f.code b) plan entry).Sound f := by
  unfold planEphemeral
  split
  · exact hplan
  · next consumer hnext =>
      split
      · next hephemeral =>
          obtain ⟨n, hread⟩ := isEphemeral_readOnce hv hentry hnext hephemeral
          refine ⟨hplan.cursors, ?_⟩
          intro v hmem
          cases List.mem_cons.mp hmem with
          | inl heq => exact heq ▸ ⟨b, n, hread⟩
          | inr hold => exact hplan.ephemeral v hold
      · exact hplan

theorem planLocalValues_sound (hv : Verified f) (locations : Locations) (proven : Nat → Int → Bool) :
    (planLocalValues f locations proven).Sound f := by
  apply foldl_sound
  · intro plan block hblock hplan
    obtain ⟨b, hcode⟩ := code_of_mem_blocks hblock
    unfold planBlock
    rw [← hcode]
    apply foldl_sound
    · intro plan entry hentry hplan
      exact planEphemeral_sound hv (List.mem_zipIdx_iff_getElem?.mp hentry) hplan
    · apply foldl_sound
      · intro plan entry hentry hplan
        exact planCursor_sound hv (List.mem_zipIdx_iff_getElem?.mp hentry) hplan
      · exact hplan
  · exact ⟨fun _ h => absurd h List.not_mem_nil, fun _ h => absurd h List.not_mem_nil⟩

theorem elided_readOnce (hv : Verified f) {plan : LocalPlan} (hplan : plan.Sound f) (h : elided f plan v = true) :
    ∃ b n, ReadOnce f v b n := by
  unfold elided at h
  simp only [Bool.or_eq_true, List.contains_iff_mem] at h
  rcases h with (hcomparison | hcursor) | hephemeral
  · exact branchComparison_readOnce hv hcomparison
  · exact hplan.cursors v hcursor
  · exact hplan.ephemeral v hephemeral

end ReadOnce

end Disco.Backend.FramePlan
