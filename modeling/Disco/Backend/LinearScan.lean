import Disco.Backend.CostModel
import Disco.Library.Colouring

/-! # Global register allocation

`LinearScanAllocator::runGlobal`: weigh the uses of every value, build the
interference graph from the live sets of each block, colour it greedily, give
the rest reusable frame slots, then recolour to save PHI copies. Source values
are kept in ascending order wherever the source walks an ordered set or map.
Values of accepted functions always have a location, so the source's checked
lookups are not modelled as failures.
-/

namespace Disco.Backend

open IR Library ControlFlow

inductive OptimizationLevel where
  | baseline
  | o1
  | o2
  | size
  deriving DecidableEq, Repr

/-- The two switches of one allocation. -/
structure Priority where
  cost : Bool
  size : Bool

namespace LinearScan

/-- Sixty-four bit addition. -/
def wrapAdd (a b : Nat) : Nat := (a + b) % 2 ^ 64

def isRematerializable (i : Instruction) : Bool :=
  decide (i.opcode = .constant ∨ (i.opcode = .address ∧ i.operation = ""))

/-- Each result with the position that defines it. -/
def initialLocations (f : Function) : Locations := fun v =>
  if v = 0 then none
  else (f.instructions.zipIdx.find? fun entry => entry.1.result == v).map fun entry =>
    { rematerializable := isRematerializable entry.1, start := entry.2, finish := entry.2 }

/-- Change the location of one value. -/
def modify (locations : Locations) (v : Nat) (change : Location → Location) : Locations :=
  Function.update locations v ((locations v).map change)

def blockStart (f : Function) (b : Nat) : Nat :=
  ((f.blocks.take b).map fun block => block.instructions.length).sum

def blockEnd (f : Function) (b : Nat) : Nat := blockStart f b + (f.code b).length - 1

/-- The instructions of a block with their positions. -/
def placed (f : Function) (b : Nat) : List (Instruction × Nat) :=
  (f.code b).zipIdx (blockStart f b)

/-! ## Weights and calls -/

structure Scan where
  locations : Locations
  weight : Nat → Option Nat
  callLive : Nat → Finset Nat
  callLiveEntries : Nat

section Weights

variable (f : Function) (cfg : ControlFlow) (priority : Priority)

def useWeight (depth : Nat) : Nat :=
  (if priority.size then 1 else CostModel.blockWeight depth) *
    if priority.cost then
      if priority.size then (CostModel.spillLoad (-2) false).fetchBytes - CostModel.copy.fetchBytes
      else (CostModel.spillLoad (-2) false).pressureScore 1 - CostModel.copy.pressureScore 1
    else 1

/-- Widen the interval of a value. -/
def touch (scan : Scan) (point v : Nat) : Scan :=
  { scan with locations := modify scan.locations v fun place =>
      { place with start := min place.start point, finish := max place.finish point } }

def touchUse (depth : Nat) (scan : Scan) (point v : Nat) : Scan :=
  let total := wrapAdd ((scan.weight v).getD 0) (useWeight priority depth)
  { touch scan point v with weight := Function.update scan.weight v (some total) }

/-- The operands of a PHI are used at the end of the blocks they come from. -/
def touchOperands (b : Nat) (scan : Scan) (entry : Instruction × Nat) : Scan :=
  if entry.1.opcode = .phi then
    (entry.1.operands.zip entry.1.targets).foldl (fun scan edge =>
      touchUse priority (cfg.loopDepth edge.2) scan (blockEnd f edge.2) edge.1) scan
  else
    entry.1.operands.foldl (fun scan v =>
      touchUse priority (cfg.loopDepth b) scan entry.2 v) scan

def callPenalty (b : Nat) : Nat :=
  if priority.size then CostModel.preserveCall.fetchBytes
  else CostModel.preserveCall.pressureScore 1 * CostModel.blockWeight (cfg.loopDepth b)

/-- Keep one value across a call and make it a worse candidate for a register. -/
def recordLive (b position : Nat) (scan : Scan) (v : Nat) : Except String Scan :=
  if (scan.locations v).any Location.rematerializable || CostModel.farValue f v then .ok scan
  else do
    rejectIf (scan.callLiveEntries + 1 > 1000000) "O2 call-liveness resource limit exceeded."
    let old := (scan.weight v).getD 0
    let penalty := callPenalty cfg priority b
    pure { scan with
      callLiveEntries := scan.callLiveEntries + 1
      callLive := Function.update scan.callLive position (insert v (scan.callLive position))
      weight := if priority.cost then
          Function.update scan.weight v (some (if old > penalty then old - penalty else 1))
        else scan.weight }

def recordCall (b : Nat) (entry : Instruction × Nat) (live : Finset Nat) (scan : Scan) :
    Except String Scan :=
  if entry.1.opcode = .call then
    foldAll (recordLive f cfg priority b entry.2) scan ((locatedValues f).filter (· ∈ live))
  else .ok scan

/-- Back through a block, with the values live after each instruction. -/
def callsBackward (b : Nat) : List (Instruction × Nat) → Finset Nat → Scan → Except String Scan
  | [], _, scan => .ok scan
  | entry :: rest, live, scan => do
      let across := if entry.1.result = 0 then live else live.erase entry.1.result
      let scan ← recordCall f cfg priority b entry across scan
      callsBackward b rest (transfer entry.1 live) scan

def scanBlock (scan : Scan) (b : Nat) : Except String Scan :=
  let scan := (placed f b).foldl (touchOperands f cfg priority b) scan
  let scan := ((locatedValues f).filter (· ∈ cfg.liveIn b)).foldl
    (fun scan v => touch scan (blockStart f b) v) scan
  let scan := ((locatedValues f).filter (· ∈ cfg.liveOut b)).foldl
    (fun scan v => touch scan (blockEnd f b) v) scan
  callsBackward f cfg priority b (placed f b).reverse (cfg.liveOut b) scan

def scanBlocks : Except String Scan :=
  foldAll (scanBlock f cfg priority) ⟨initialLocations f, fun _ => none, fun _ => ∅, 0⟩
    (List.range f.blocks.length)

/-- Header PHIs that a latch feeds, and what it feeds them. -/
def inductions : Finset Nat :=
  if priority.size then ∅
  else
    (cfg.loops.flatMap fun around => (phis (f.code around.header)).flatMap fun phi =>
      match ((phi.operands.zip phi.targets).filter fun edge => edge.2 ∈ around.latches).getLast? with
      | some edge => [phi.result, edge.1]
      | none => []).toFinset

end Weights

def checkRegister (reg : Nat) : Except String Unit :=
  rejectIf (reg ∉ [2, 4, 5, 7, 8, 14]) "Global allocator: register has a fixed GSU/ABI role."

def sortedRegisters (allocatable : List Nat) : List Nat :=
  (allocatable.foldl ControlFlow.add []).insertionSort (· ≤ ·)

/-- Worth an edge in the graph: near, used and not made again at each use. -/
def eligible (f : Function) (scan : Scan) (v : Nat) : Bool :=
  (scan.locations v).any (fun place => !place.rematerializable) && !CostModel.farValue f v &&
    (scan.weight v).isSome

/-- Heavier first, then loop-carried values, earlier starts and smaller ids. -/
def precedes (scan : Scan) (carried : Finset Nat) (a b : Nat) : Bool :=
  let weightA := (scan.weight a).getD 0
  let weightB := (scan.weight b).getD 0
  let startA := ((scan.locations a).map Location.start).getD 0
  let startB := ((scan.locations b).map Location.start).getD 0
  if weightA ≠ weightB then decide (weightA > weightB)
  else if decide (a ∈ carried) ≠ decide (b ∈ carried) then decide (a ∈ carried)
  else if startA ≠ startB then decide (startA < startB)
  else decide (a < b)

def orderedValues (f : Function) (scan : Scan) (carried : Finset Nat) : List Nat :=
  ((locatedValues f).filter (eligible f scan)).insertionSort fun a b => !precedes scan carried b a

/-! ## The interference graph -/

structure Graph where
  interference : Nat → Finset Nat
  preferences : Nat → Finset Nat
  affinity : Nat × Nat → Option Nat
  /-- The pairs with an affinity, in the order they were found. -/
  pairs : List (Nat × Nat)
  edges : Nat

def edgeKey (a b : Nat) : Nat × Nat := (min a b, max a b)

namespace Graph

def empty : Graph := ⟨fun _ => ∅, fun _ => ∅, fun _ => none, [], 0⟩

def join (edges : Nat → Finset Nat) (a b : Nat) : Nat → Finset Nat :=
  let edges := Function.update edges a (insert b (edges a))
  Function.update edges b (insert a (edges b))

def prefer (g : Graph) (a b : Nat) : Graph := { g with preferences := join g.preferences a b }

def addAffinity (g : Graph) (a b amount : Nat) : Graph :=
  let key := edgeKey a b
  { g with
    affinity := Function.update g.affinity key (some (wrapAdd ((g.affinity key).getD 0) amount))
    pairs := if (g.affinity key).isSome then g.pairs else g.pairs ++ [key] }

end Graph

section Interference

variable (f : Function) (cfg : ControlFlow) (size : Bool) (isEligible : Nat → Bool)

def conflict (a : Nat) (g : Graph) (b : Nat) : Except String Graph :=
  if a = b ∨ isEligible a = false ∨ isEligible b = false ∨ b ∈ g.interference a then .ok g
  else do
    rejectIf (g.edges + 1 > 1000000) "O2 register-interference resource limit exceeded."
    pure { g with interference := Graph.join g.interference a b, edges := g.edges + 1 }

/-- The result of an instruction conflicts with everything live after it. -/
def conflicts (i : Instruction) (live : Finset Nat) (g : Graph) : Except String Graph :=
  if i.result ≠ 0 ∧ isEligible i.result = true then
    foldAll (conflict isEligible i.result) g ((locatedValues f).filter (· ∈ live))
  else .ok g

def affinityWeight (b : Nat) : Nat := if size then 1 else CostModel.blockWeight (cfg.loopDepth b)

def phiPreferences (i : Instruction) (g : Graph) : Graph :=
  (i.operands.zip i.targets).foldl (fun g edge =>
    let g := g.prefer i.result edge.1
    if isEligible i.result && isEligible edge.1 && decide (i.result ≠ edge.1) then
      g.addAffinity i.result edge.1 (affinityWeight cfg size edge.2)
    else g) g

/-- Two-address forms that want their first input and their result together. -/
def isTwoAddress (i : Instruction) : Bool :=
  (decide (i.opcode = .unary) && decide (i.operation ∈ ["~", "!", "-"])) ||
    (decide (i.opcode = .cast) && decide (i.type.pointerLevel = 0)) ||
    (decide (i.opcode = .binary) && decide (i.operation ∈ ["+", "-", "&", "|", "^"]))

def tiedPreferences (b : Nat) (i : Instruction) (g : Graph) : Graph :=
  match i.operands with
  | [] => g
  | input :: _ =>
      if isTwoAddress i && decide (i.result ≠ 0) && decide (input ≠ i.result) &&
          isEligible input && isEligible i.result then
        (g.prefer i.result input).addAffinity i.result input (affinityWeight cfg size b)
      else g

def preferencesOf (b : Nat) (i : Instruction) (g : Graph) : Graph :=
  if i.opcode = .phi then phiPreferences cfg size isEligible i g
  else tiedPreferences cfg size isEligible b i g

/-- Back through a block, with the eligible values live after each instruction. -/
def graphBackward (b : Nat) : List Instruction → Finset Nat → Graph → Except String Graph
  | [], _, g => .ok g
  | i :: rest, live, g => do
      let g ← conflicts f isEligible i live g
      let live := if i.result = 0 then live else live.erase i.result
      let live := if i.opcode = .phi then live
        else live ∪ (i.operands.filter fun v => isEligible v).toFinset
      graphBackward b rest live (preferencesOf cfg size isEligible b i g)

def graphBlock (g : Graph) (b : Nat) : Except String Graph :=
  graphBackward f cfg size isEligible b (f.code b).reverse
    ((cfg.liveOut b).filter fun v => isEligible v) g

def buildGraph : Except String Graph :=
  foldAll (graphBlock f cfg size isEligible) Graph.empty (List.range f.blocks.length)

end Interference

/-! ## Colouring -/

def registerOf (locations : Locations) (v : Nat) : Option Nat :=
  (locations v).bind fun place => if place.hasRegister then some place.physicalRegister else none

def slotOf (locations : Locations) (v : Nat) : Option Int :=
  (locations v).bind fun place => if place.spillSlot ≥ 0 then some place.spillSlot else none

section Colouring

variable (f : Function) (g : Graph)

def neighbors (graph : Nat → Finset Nat) (v : Nat) : List Nat :=
  (locatedValues f).filter (· ∈ graph v)

/-- How much a register is worth to a value: the affinities of what it holds. -/
def registerScore (locations : Locations) (v reg : Nat) : Nat :=
  (neighbors f g.preferences v).foldl (fun score preferred =>
    if registerOf locations preferred = some reg then
      wrapAdd score ((g.affinity (edgeKey v preferred)).getD 0)
    else score) 0

def registerRank (reg : Nat) : Nat :=
  if reg = 5 then 0 else if reg = 7 then 1 else if reg = 8 then 2 else 100 + reg

def choices (locations : Locations) (registers : List Nat) (v : Nat) : List Nat :=
  registers.insertionSort fun a b =>
    decide (registerScore f g locations v a > registerScore f g locations v b) ||
      (decide (registerScore f g locations v a = registerScore f g locations v b) &&
        decide (registerRank a ≤ registerRank b))

def occupied (locations : Locations) (v reg : Nat) : Prop :=
  ∃ w ∈ g.interference v, registerOf locations w = some reg

instance (locations : Locations) (v reg : Nat) : Decidable (occupied g locations v reg) :=
  inferInstanceAs (Decidable (∃ w ∈ g.interference v, _))

def assignRegister (registers : List Nat) (locations : Locations) (v : Nat) : Locations :=
  match (choices f g locations registers v).find? fun reg => ¬ occupied g locations v reg with
  | some reg => modify locations v fun place =>
      { place with hasRegister := true, physicalRegister := reg }
  | none => locations

/-- The slots of the neighbours in the interference graph. -/
def occupiedSlots (locations : Locations) (v : Nat) : Finset Int :=
  ((neighbors f g.interference v).filterMap (slotOf locations)).toFinset

def firstFreeSlot (taken : Finset Int) : Int :=
  (((List.range (taken.card + 1)).find? fun n : Nat => (n : Int) ∉ taken).getD 0 : Nat)

def assignSlot (locations : Locations) (v : Nat) : Locations :=
  if (registerOf locations v).isSome then locations
  else
    let taken := occupiedSlots f g locations v
    let slot := (((neighbors f g.preferences v).filterMap (slotOf locations)).find?
      fun slot => slot ∉ taken).getD (firstFreeSlot taken)
    modify locations v fun place => { place with spillSlot := slot }

end Colouring

/-! ## Recolouring

The improvement rounds count their work and stop for good at a limit, with the
locations as they are then: such a stop is an error that carries them.
-/

def maxWork : Nat := 2500000

/-- The locations so far and the work done. -/
structure Improvement where
  locations : Locations
  work : Nat
  changed : Bool := false

section Improve

variable (f : Function) (g : Graph)

/-- A Kempe chain in progress. -/
structure Chain where
  component : Finset Nat
  pending : List Nat
  work : Nat

/-- Look at one neighbour: join it to the chain when it has one of the colours. -/
def chainNeighbor (locations : Locations) (p q : Nat) (chain : Chain) (next : Nat) :
    Option Chain :=
  if chain.work + 1 > maxWork then none
  else if (registerOf locations next = some p ∨ registerOf locations next = some q) ∧
      next ∉ chain.component then
    some ⟨insert next chain.component, next :: chain.pending, chain.work + 1⟩
  else some ⟨chain.component, chain.pending, chain.work + 1⟩

def chainNeighbors (locations : Locations) (p q : Nat) : Chain → List Nat → Option Chain
  | chain, [] => some chain
  | chain, next :: rest =>
      match chainNeighbor locations p q chain next with
      | none => none
      | some chain => chainNeighbors locations p q chain rest

theorem chainNeighbor_work {locations : Locations} {p q next : Nat} {chain chain' : Chain}
    (h : chainNeighbor locations p q chain next = some chain') :
    chain'.work = chain.work + 1 ∧ chain.work < maxWork := by
  unfold chainNeighbor at h
  split at h
  · cases h
  · split at h <;> (cases h; exact ⟨rfl, by omega⟩)

theorem chainNeighbors_work {locations : Locations} {p q : Nat} {chain chain' : Chain}
    {nodes : List Nat} (h : chainNeighbors locations p q chain nodes = some chain') :
    chain'.work = chain.work + nodes.length ∧ (nodes = [] → chain' = chain) ∧
      (nodes ≠ [] → chain.work < maxWork) := by
  induction nodes generalizing chain with
  | nil =>
      cases h
      exact ⟨rfl, fun _ => rfl, fun hne => absurd rfl hne⟩
  | cons next rest ih =>
      unfold chainNeighbors at h
      split at h
      · cases h
      · next c hc =>
          obtain ⟨hwork, -, -⟩ := ih h
          obtain ⟨hone, hlt⟩ := chainNeighbor_work hc
          refine ⟨?_, fun hnil => (List.cons_ne_nil _ _ hnil).elim, fun _ => hlt⟩
          rw [hwork, hone, List.length_cons]
          omega

/-- Follow the chain until nothing is pending; `none` when the work limit is hit. -/
def followChain (locations : Locations) (p q : Nat) (chain : Chain) : Option Chain :=
  match hpending : chain.pending with
  | [] => some chain
  | value :: pending =>
      match hnext : chainNeighbors locations p q { chain with pending := pending }
          (neighbors f g.interference value) with
      | none => none
      | some next => followChain locations p q next
termination_by (maxWork - chain.work, chain.pending.length)
decreasing_by
  obtain ⟨hwork, hnil, hlt⟩ := chainNeighbors_work hnext
  by_cases hempty : neighbors f g.interference value = []
  · rw [hnil hempty, hpending]
    exact Prod.Lex.right _ (by simp)
  · have := hlt hempty
    have hpos : 0 < (neighbors f g.interference value).length :=
      List.length_pos_iff.mpr hempty
    apply Prod.Lex.left
    simp only at hwork this
    omega

/-- The pairs with an affinity that touch the chain; one unit of work for each
preference looked at. -/
def affectedPairs (component : Finset Nat) (work : Nat) : Option (List (Nat × Nat) × Nat) :=
  let looked := ((locatedValues f).filter (· ∈ component)).flatMap fun v =>
    (neighbors f g.preferences v).map fun next => edgeKey v next
  let affected := (looked.filter fun key => (g.affinity key).isSome).dedup
  let work := work + looked.length
  if work + affected.length > maxWork then none else some (affected, work + affected.length)

def swappedRegister (component : Finset Nat) (p q : Nat) (locations : Locations) (v : Nat) :
    Option Nat :=
  interchange component p q (registerOf locations) v

/-- A 64-bit number read as a signed one. -/
def signed (n : Nat) : Int := if n < 2 ^ 63 then n else (n : Int) - 2 ^ 64

/-- The affinity gained by interchanging two registers on a chain. -/
def swapGain (component : Finset Nat) (p q : Nat) (locations : Locations)
    (affected : List (Nat × Nat)) : Int :=
  (affected.map fun key =>
    match registerOf locations key.1, registerOf locations key.2 with
    | some x, some y =>
        let before : Int := if x = y then 1 else 0
        let after : Int := if swappedRegister component p q locations key.1 =
          swappedRegister component p q locations key.2 then 1 else 0
        (after - before) * signed ((g.affinity key).getD 0)
    | _, _ => 0).sum

def swapRegisters (component : Finset Nat) (p q : Nat) (locations : Locations) : Locations :=
  fun v =>
    if v ∈ component then (locations v).map fun place =>
      { place with physicalRegister := if place.physicalRegister = p then q else p }
    else locations v

/-- Try to bring the registers of two values together by a chain from the first. -/
def tryInterchange (state : Improvement) (pair : Nat × Nat) : Except Locations Improvement :=
  match registerOf state.locations pair.1, registerOf state.locations pair.2 with
  | some p, some q =>
      if p = q then .ok state
      else
        match followChain f g state.locations p q ⟨{pair.1}, [pair.1], state.work⟩ with
        | none => .error state.locations
        | some chain =>
            if pair.2 ∈ chain.component then .ok { state with work := chain.work }
            else
              match affectedPairs f g chain.component chain.work with
              | none => .error state.locations
              | some (affected, work) =>
                  if swapGain g chain.component p q state.locations affected ≤ 0 then
                    .ok { state with work := work }
                  else .ok ⟨swapRegisters chain.component p q state.locations, work, true⟩
  | _, _ => .ok state

/-- Pairs with greater affinity first. -/
def orderedPairs : List (Nat × Nat) :=
  g.pairs.insertionSort fun a b =>
    decide ((g.affinity a).getD 0 > (g.affinity b).getD 0) ||
      (decide ((g.affinity a).getD 0 = (g.affinity b).getD 0) &&
        (decide (a.1 < b.1) || (decide (a.1 = b.1) && decide (a.2 ≤ b.2))))

def interchangeRound (state : Improvement) : Except Locations Improvement :=
  foldAll (tryInterchange f g) { state with changed := false }
    ((orderedPairs g).flatMap fun pair => [(pair.1, pair.2), (pair.2, pair.1)])

/-- Two rounds; the second only when the first changed something. -/
def interchangeRounds (state : Improvement) : Except Locations Improvement := do
  let state ← interchangeRound f g state
  if state.changed then interchangeRound f g state else pure state

/-- The affinity a slot would serve. -/
def slotScore (locations : Locations) (v : Nat) (slot : Int) : Nat :=
  (neighbors f g.preferences v).foldl (fun score other =>
    match g.affinity (edgeKey v other) with
    | some amount =>
        if (locations other).map Location.spillSlot = some slot then wrapAdd score amount else score
    | none => score) 0

/-- A better slot among the choices, as the source tries them in turn. -/
structure SlotSearch where
  state : Improvement
  best : Nat

def trySlot (v : Nat) (search : SlotSearch) (slot : Int) : Except Locations SlotSearch :=
  let cost := (neighbors f g.preferences v).length + 1
  if cost > maxWork - search.state.work then .error search.state.locations
  else
    let state := { search.state with work := search.state.work + cost }
    let next := slotScore f g state.locations v slot
    if next > search.best then
      .ok ⟨{ state with locations := modify state.locations v fun place =>
        { place with spillSlot := slot } }, next⟩
    else .ok ⟨state, search.best⟩

/-- The slot a value has and those of its preferences that no neighbour uses,
in ascending order. -/
def slotChoices (locations : Locations) (v : Nat) (current : Int) : List Int :=
  let taken := occupiedSlots f g locations v
  let free := ((neighbors f g.preferences v).filterMap (slotOf locations)).filter (· ∉ taken)
  ((current :: free).dedup).insertionSort (· ≤ ·)

def improveSlot (state : Improvement) (v : Nat) : Except Locations Improvement :=
  match registerOf state.locations v, slotOf state.locations v with
  | none, some current =>
      let looked := (neighbors f g.interference v).length + (neighbors f g.preferences v).length
      let cost := (neighbors f g.preferences v).length + 1
      if state.work + looked > maxWork then .error state.locations
      else if cost > maxWork - (state.work + looked) then .error state.locations
      else do
        let started := { state with work := state.work + looked + cost }
        let search ← foldAll (trySlot f g v) ⟨started, slotScore f g state.locations v current⟩
          (slotChoices f g state.locations v current)
        pure search.state
  | _, _ => .ok state

def improveSlots (state : Improvement) : Except Locations Improvement :=
  foldAll (improveSlot f g) state (locatedValues f ++ locatedValues f)

def improvePhiLocations (locations : Locations) : Locations :=
  let improved := do
    let state ← interchangeRounds f g ⟨locations, 0, false⟩
    improveSlots f g state
  match improved with
  | .ok state => state.locations
  | .error stopped => stopped

end Improve

/-! ## Allocation -/

def runGlobalImpl (f : Function) (allocatable : List Nat) (priority : Priority) :
    Except String Allocator := do
  let cfg ← controlFlow f
  let scan ← scanBlocks f cfg priority
  checkAll checkRegister allocatable
  let registers := sortedRegisters allocatable
  let ordered := orderedValues f scan (inductions f cfg priority)
  let g ← buildGraph f cfg priority.size (eligible f scan)
  let coloured := ordered.foldl (assignRegister f g registers) scan.locations
  let spilled := ordered.foldl (assignSlot f g) coloured
  pure ⟨improvePhiLocations f g spilled, scan.callLive, fun _ => []⟩

/-- Spare registers so far; the work limit clears them all. -/
structure Spare where
  work : Nat
  registers : Nat → List Nat

/-- Everything an instruction reads, writes or leaves live is busy at it. -/
def busyValues (i : Instruction) (live : Finset Nat) : Finset Nat :=
  let live := if i.opcode = .phi then live else live ∪ i.operands.toFinset
  if i.result = 0 then live else insert i.result live

def spareBackward (f : Function) (locations : Locations) (allocatable : List Nat) :
    List (Instruction × Nat) → Finset Nat → Spare → Except Unit Spare
  | [], _, spare => .ok spare
  | (i, point) :: rest, live, spare =>
      let live := busyValues i live
      let work := spare.work + 1 + live.card
      if work > 1000000 then .error ()
      else
        let free := allocatable.filter fun reg =>
          ¬ ∃ v ∈ live, registerOf locations v = some reg
        spareBackward f locations allocatable rest (if i.result = 0 then live else live.erase i.result)
          ⟨work, Function.update spare.registers point free⟩

def spareBlock (f : Function) (cfg : ControlFlow) (locations : Locations) (allocatable : List Nat)
    (spare : Spare) (b : Nat) : Except Unit Spare :=
  spareBackward f locations allocatable (placed f b).reverse (cfg.liveOut b) spare

def spareRegisters (f : Function) (cfg : ControlFlow) (locations : Locations)
    (allocatable : List Nat) : Nat → List Nat :=
  match foldAll (spareBlock f cfg locations allocatable) ⟨0, fun _ => []⟩
      (List.range f.blocks.length) with
  | .ok spare => spare.registers
  | .error () => fun _ => []

/-- Keep the first colouring unless the second one is cheaper. -/
def keepOriginal (size : Bool) (before after : Cost) : Bool :=
  if size then decide (after.fetchBytes ≥ before.fetchBytes)
  else decide (after.pressureScore 1 ≥ before.pressureScore 1 ∨
    after.pressureScore 5 > before.pressureScore 5)

/-- Try the cost-driven colouring on functions that are small enough. -/
def chooseAllocation (f : Function) (allocatable : List Nat) (size : Bool) (original : Allocator) :
    Except String Allocator :=
  if f.valueCount ≤ 4096 ∧ f.blocks.length ≤ 256 then do
    let cfg ← controlFlow f
    let candidate ← runGlobalImpl f allocatable ⟨true, size⟩
    pure (if keepOriginal size (CostModel.allocation f cfg size original)
        (CostModel.allocation f cfg size candidate) then original else candidate)
  else pure original

def runGlobal (f : Function) (allocatable : List Nat) (policy : OptimizationLevel) :
    Except String Allocator := do
  let size := decide (policy = .size)
  let original ← runGlobalImpl f allocatable ⟨false, size⟩
  let chosen ← chooseAllocation f allocatable size original
  let cfg ← controlFlow f
  pure { chosen with spareRegisters := spareRegisters f cfg chosen.locations allocatable }

end LinearScan

end Disco.Backend
