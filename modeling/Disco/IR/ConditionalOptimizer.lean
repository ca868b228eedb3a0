import Disco.IR.Verifier
import Disco.IR.ScalarFold

/-! # Conditional constant propagation and graph cleanup

`IRConditionalOptimizer::run`. The analysis lowers value facts and executable
edges together from an optimistic start; the rewrite then prunes branches, PHIs
and blocks, folds constants, contracts chains and renumbers what is left.

`work` is the budget of the source: every function starts at zero and stops
with an error once it would exceed the limit. It also bounds the loops below.
-/

namespace Disco.IR.ConditionalOptimizer

open Library

def maxInstructions : Nat := 200000
def maxEntries : Nat := 1000000
def maxWork : Nat := 25000000

def workLimit : String := "O2 SCCP/CFG work limit exceeded."

def charge (work count : Nat) : Except String Nat := do
  rejectIf (count > maxWork - work) workLimit
  pure (work + count)

/-- What is known of a value: nothing yet, its constant, or that it varies. -/
inductive Fact where
  | unknown
  | constant (value : Int)
  | varying
  deriving DecidableEq, Repr

namespace Fact

def meet : Fact → Fact → Fact
  | unknown, b => b
  | a, unknown => a
  | constant a, constant b => if a = b then constant a else varying
  | _, _ => varying

def value : Fact → Int
  | constant value => value
  | _ => 0

end Fact

/-! ## Resources -/

def countResources (state : Nat × Nat) (i : Instruction) : Except String (Nat × Nat) := do
  rejectIf ((i.opcode = .hardwareLoop ∨ i.opcode = .hardwareLoopEnd) ∧ i.targets = [])
    "O2 SCCP requires exposed hardware-loop backedges."
  rejectIf (state.1 + 1 > maxInstructions ∨ i.operands.length > maxEntries - state.2)
    "O2 SCCP instruction/use limit exceeded."
  let entries := state.2 + i.operands.length
  rejectIf (i.targets.length > maxEntries - entries) "O2 SCCP edge limit exceeded."
  pure (state.1 + 1, entries + i.targets.length)

def validateResources (f : Function) : Except String Unit := do
  rejectIf (f.blocks = [] ∨ f.blocks.length > 8192 ∨ f.valueCount > 100000)
    "O2 SCCP resource limit exceeded."
  let _ ← foldAll countResources (0, 0) f.instructions
  pure ()

/-! ## Analysis -/

/-- A block and a position in it. -/
abbrev Node := Nat × Nat

structure Analysis where
  facts : Nat → Fact := fun _ => .unknown
  reachable : Finset Nat := ∅
  executable : Finset (Nat × Nat) := ∅
  pending : List Node := []
  work : Nat := 0

/-- The instructions that use a value, one entry for each use. -/
def users (f : Function) (v : Nat) : List Node :=
  f.sites.flatMap fun site =>
    (site.instruction.operands.filter (· = v)).map fun _ => (site.block, site.position)

def blockNodes (f : Function) (b : Nat) : List Node :=
  (List.range (f.code b).length).map fun position => (b, position)

def phiNodes (f : Function) (b : Nat) : List Node :=
  (List.range (phis (f.code b)).length).map fun position => (b, position)

def enqueue (a : Analysis) (n : Node) : Except String Analysis := do
  let work ← charge a.work 1
  pure { a with work := work, pending := if n ∈ a.pending then a.pending else a.pending ++ [n] }

def update (f : Function) (v : Nat) (next : Fact) (a : Analysis) : Except String Analysis :=
  let merged := (a.facts v).meet next
  if merged = a.facts v then .ok a
  else
    foldAll enqueue { a with facts := Function.update a.facts v merged }
      ((users f v).filter fun use => use.1 ∈ a.reachable)

def edge (f : Function) (source : Nat) (a : Analysis) (target : Nat) : Except String Analysis := do
  let work ← charge a.work 1
  if (source, target) ∈ a.executable then pure { a with work := work }
  else
    let marked := { a with
      work := work
      executable := insert (source, target) a.executable
      reachable := insert target a.reachable }
    foldAll enqueue marked (if target ∈ a.reachable then phiNodes f target else blockNodes f target)

/-- Fold an operation over the facts of its operands. -/
def foldFact (f : Function) (facts : Nat → Fact) (i : Instruction) : Fact :=
  if i.operands.length > 2 ∨ ∃ v ∈ i.operands, facts v = .varying then .varying
  else if ∃ v ∈ i.operands, facts v = .unknown then .unknown
  else
    match ScalarFold.evaluate i (i.operands.map fun v => ⟨f.typeOf v, (facts v).value⟩) with
    | some value => .constant value
    | none => .varying

def evaluate (f : Function) (facts : Nat → Fact) (executable : Finset (Nat × Nat))
    (i : Instruction) (b : Nat) : Fact :=
  if ScalarFold.scalar i.type = false then .varying
  else
    match i.opcode with
    | .constant => .constant (convert i.immediate i.type)
    | .phi =>
        (i.operands.zip i.targets).foldl (fun result edge =>
          if (edge.2, b) ∈ executable then result.meet (facts edge.1) else result) .unknown
    | .binary | .unary | .cast | .bitExtract => foldFact f facts i
    | _ => .varying

/-- One charge for each incoming value that `evaluate` looks at. -/
def evaluationWork (i : Instruction) : Nat :=
  if ScalarFold.scalar i.type = true ∧ i.opcode = .phi then i.operands.length else 0

/-- The case that a constant selects; the number of cases when there is none. -/
def selectedCase (i : Instruction) (value : Int) : Nat :=
  i.caseValues.findIdx fun label => label == value

/-- The targets of a terminator that the fact of its condition leaves open. A
switch without a matching case or default keeps all its edges. -/
def openTargets (facts : Nat → Fact) (i : Instruction) : List Nat :=
  if i.opcode = .condBranch ∨ i.opcode = .switch then
    match facts (i.operands.headD 0) with
    | .unknown => []
    | .varying => i.targets
    | .constant value =>
        if i.opcode = .condBranch then
          (i.targets[if value ≠ 0 then 0 else 1]?).toList
        else
          match i.targets[selectedCase i value]? with
          | some target => [target]
          | none => i.targets
  else i.targets

/-- One charge for each case compared with a constant condition. -/
def selectionWork (facts : Nat → Fact) (i : Instruction) : Nat :=
  match i.opcode, facts (i.operands.headD 0) with
  | .switch, .constant value => min (selectedCase i value + 1) i.caseValues.length
  | _, _ => 0

def visitResult (f : Function) (i : Instruction) (b : Nat) (a : Analysis) :
    Except String Analysis :=
  if i.result = 0 then .ok a
  else do
    let work ← charge a.work (evaluationWork i)
    update f i.result (evaluate f a.facts a.executable i b) { a with work := work }

def visitTerminator (f : Function) (i : Instruction) (b : Nat) (a : Analysis) :
    Except String Analysis :=
  if i.isTerminator = false then .ok a
  else do
    let work ← charge a.work (selectionWork a.facts i)
    foldAll (edge f b) { a with work := work } (openTargets a.facts i)

/-- Take one instruction from the queue. -/
def visit (f : Function) (a : Analysis) : Except String (Option Analysis) :=
  match a.pending with
  | [] => .ok none
  | n :: pending => do
      let work ← charge a.work 1
      match (f.code n.1)[n.2]? with
      | none => .error "nodes::at"
      | some i =>
          let a ← visitResult f i n.1 { a with work := work, pending := pending }
          let a ← visitTerminator f i n.1 a
          pure (some a)

/-- A value of a reachable block that never got a fact. -/
def unresolved (f : Function) (a : Analysis) (v : Nat) : Prop :=
  a.facts v = .unknown ∧ (f.site v).any (fun site => decide (site.block ∈ a.reachable)) = true

instance (f : Function) (a : Analysis) (v : Nat) : Decidable (unresolved f a v) :=
  inferInstanceAs (Decidable (_ ∧ _))

/-- Give up on values that the queue left without a fact. -/
def settle (f : Function) (state : Analysis × Bool) (v : Nat) : Except String (Analysis × Bool) := do
  let work ← charge state.1.work 1
  let a := { state.1 with work := work }
  if unresolved f a v then
    let a ← update f v .varying a
    pure (a, true)
  else pure (a, state.2)

def analyzeFrom (f : Function) : Nat → Analysis → Except String Analysis
  | 0, _ => .error workLimit
  | fuel + 1, a => do
      let a ← loop (visit f) workLimit (maxWork + 1) a
      let (a, again) ← foldAll (settle f) (a, false) (List.range' 1 f.valueCount)
      if again then analyzeFrom f fuel a else pure a

def analyze (f : Function) : Except String Analysis := do
  let start : Analysis := { reachable := {f.entry} }
  let start ← foldAll enqueue start (blockNodes f f.entry)
  analyzeFrom f (maxWork + 1) start

/-! ## The graph of the pruned function -/

structure Graph where
  predecessors : Nat → Finset Nat
  successors : Nat → List Nat
  reachable : Finset Nat

def terminalTargets (f : Function) (b : Nat) : List Nat :=
  ((f.code b).getLast?.map Instruction.targets).getD []

def graphSuccessors (f : Function) (b : Nat) : List Nat := (terminalTargets f b).eraseDups

def graphPredecessors (f : Function) (reachable : Finset Nat) (b : Nat) : Finset Nat :=
  reachable.filter fun a => b ∈ terminalTargets f a

/-- All predecessors are counted before the unreachable ones are erased. -/
def graphWork (f : Function) (reachable : Finset Nat) : Nat :=
  let indices := List.range f.blocks.length
  (indices.map fun b => (terminalTargets f b).length).sum +
    ((indices.filter (· ∈ reachable)).map fun b => (graphSuccessors f b).length).sum +
    (indices.map fun b => (indices.filter fun a => b ∈ terminalTargets f a).length).sum

def makeGraph (f : Function) (work : Nat) : Except String (Graph × Nat) := do
  let reachable ← explore (graphSuccessors f) workLimit f.blocks.length f.entry
  let work ← charge work (graphWork f reachable)
  pure (⟨graphPredecessors f reachable, graphSuccessors f, reachable⟩, work)

/-! ## Rewriting -/

/-- The operations of a loop that are still reachable. -/
def loopMask (f : Function) (reachable : Finset Nat) (loopId : Nat) : Bool × Bool × Bool :=
  let live := (f.sites.filter fun site =>
    decide (site.instruction.loopId = loopId) && decide (site.block ∈ reachable)).map
      fun site => site.instruction.opcode
  (live.any fun opcode => decide (opcode = .hardwareLoop),
    live.any fun opcode => decide (opcode = .hardwareLoopEnd),
    live.any fun opcode => decide (opcode ≠ .hardwareLoop ∧ opcode ≠ .hardwareLoopEnd))

/-- Never leave half of a save/restore scope behind. -/
def coherentHardware (f : Function) (reachable : Finset Nat) : Bool :=
  f.sites.all fun site =>
    let i := site.instruction
    decide (i.loopId = 0) ||
      ((decide (site.block ∉ reachable) || decide (i.loopTarget = invalidBlock) ||
          decide (i.loopTarget ∈ reachable)) &&
        (loopMask f reachable i.loopId == (true, true, true) ||
          loopMask f reachable i.loopId == (false, false, false)))

def constant (i : Instruction) (value : Int) : Instruction :=
  { type := i.type, result := i.result, immediate := value, inPlotContext := i.inPlotContext }

def branch (i : Instruction) (target : Nat) : Instruction :=
  { opcode := .branch, targets := [target], inPlotContext := i.inPlotContext }

/-- Replace a terminator whose edge is known. -/
def pruneTerminal (facts : Nat → Fact) (i : Instruction) : Instruction :=
  let fact := facts (i.operands.headD 0)
  match i.opcode with
  | .condBranch =>
      let yes := i.targets.getD 0 0
      let no := i.targets.getD 1 0
      match fact with
      | .constant value => branch i (if value = 0 then no else yes)
      | _ => if yes = no then branch i yes else i
  | .switch =>
      match fact with
      | .constant value =>
          match i.targets[selectedCase i value]? with
          | some target => branch i target
          | none => i
      | _ => i
  | _ => i

def setCode (f : Function) (b : Nat) (code : List Instruction) : Function :=
  { f with blocks := f.blocks.modify b fun block => { block with instructions := code } }

def mapCode (f : Function) (g : Nat → List Instruction → List Instruction) : Function :=
  { f with blocks := f.blocks.mapIdx fun b block =>
      { block with instructions := g b block.instructions } }

def pruneBlock (facts : Nat → Fact) (code : List Instruction) : List Instruction :=
  match code.getLast? with
  | some last => code.dropLast ++ [pruneTerminal facts last]
  | none => code

def prune (f : Function) (a : Analysis) : Except String (Function × Nat) :=
  if coherentHardware f a.reachable then do
    let work ← charge a.work (((List.range f.blocks.length).map fun b =>
      ((f.code b).getLast?.map (selectionWork a.facts)).getD 0).sum)
    pure (mapCode f fun _ code => pruneBlock a.facts code, work)
  else .ok (f, a.work)

/-- Drop the incoming edges that the graph lost. -/
def prunePhi (graph : Graph) (b : Nat) (i : Instruction) : Instruction :=
  let kept := (i.operands.zip i.targets).filter fun edge =>
    decide (edge.2 ∈ graph.reachable) && decide (edge.2 ∈ graph.predecessors b)
  { i with operands := kept.map Prod.fst, targets := kept.map Prod.snd }

def prunedPhis (graph : Graph) (b : Nat) (code : List Instruction) : List Instruction :=
  (code.filter fun i => i.opcode == .phi).map (prunePhi graph b)

def isConstant (facts : Nat → Fact) (i : Instruction) : Bool :=
  match facts i.result with
  | .constant _ => decide (i.result ≠ 0)
  | _ => false

/-- A literal in place of an instruction whose value is known. -/
def foldInstruction (facts : Nat → Fact) (i : Instruction) : Instruction :=
  if isConstant facts i then constant i (facts i.result).value else i

/-- PHIs that still select, then the folded ones, then the rest. Literals that
replace PHIs belong after the remaining PHIs. -/
def foldBlock (graph : Graph) (facts : Nat → Fact) (b : Nat) (code : List Instruction) :
    List Instruction :=
  let selecting := (prunedPhis graph b code).filter fun i => decide (i.operands.length ≠ 1)
  (selecting.filter fun i => !isConstant facts i) ++
    ((selecting.filter (isConstant facts)).map (foldInstruction facts) ++
      (code.filter fun i => i.opcode != .phi).map (foldInstruction facts))

/-- PHIs with a single incoming value are names for it. -/
def blockAliases (graph : Graph) (b : Nat) (code : List Instruction) : List (Nat × Nat) :=
  (prunedPhis graph b code).filterMap fun i =>
    match i.operands with
    | [v] => some (i.result, v)
    | _ => none

def aliasTable (graph : Graph) (f : Function) : List (Nat × Nat) :=
  (List.range f.blocks.length).flatMap fun b =>
    if b ∈ graph.reachable then blockAliases graph b (f.code b) else []

def foldWork (graph : Graph) (f : Function) : Nat :=
  ((List.range f.blocks.length).map fun b =>
    if b ∈ graph.reachable then
      ((f.code b).map fun i => 1 + if i.opcode = .phi then i.targets.length else 0).sum
    else 0).sum

def checkPhis (graph : Graph) (f : Function) (b : Nat) : Except String Unit :=
  rejectIf (b ∈ graph.reachable ∧ ∃ i ∈ prunedPhis graph b (f.code b), i.operands = [])
    "O2 SCCP: reachable PHI lost all incoming edges."

/-- Follow aliases to a value that is not one. Shortening the paths on the way
does not change where they end, and a path longer than the number of values
would never end. -/
def resolve (aliases : List (Nat × Nat)) : Nat → Nat → Except String Nat
  | 0, _ => .error "alias cycle"
  | fuel + 1, v =>
      match aliases.lookup v with
      | some next => if next = 0 then .ok v else resolve aliases fuel next
      | none => .ok v

def resolveAll (resolver : Nat → Except String Nat) : List Nat → Except String (List Nat)
  | [] => .ok []
  | v :: rest => do
      let v ← resolver v
      let rest ← resolveAll resolver rest
      pure (v :: rest)

def resolveInstruction (resolver : Nat → Except String Nat) (i : Instruction) :
    Except String Instruction := do
  let operands ← resolveAll resolver i.operands
  pure { i with operands := operands }

def resolveCode (resolver : Nat → Except String Nat) :
    List Instruction → Except String (List Instruction)
  | [] => .ok []
  | i :: rest => do
      let i ← resolveInstruction resolver i
      let rest ← resolveCode resolver rest
      pure (i :: rest)

def resolveBlocks (graph : Graph) (resolver : Nat → Except String Nat) :
    List (BasicBlock × Nat) → Except String (List BasicBlock)
  | [] => .ok []
  | (block, b) :: rest => do
      let code ← if b ∈ graph.reachable then resolveCode resolver block.instructions
        else .ok block.instructions
      let rest ← resolveBlocks graph resolver rest
      pure ({ block with instructions := code } :: rest)

/-! ## Contracting chains -/

/-- Entry points of hardware loops keep their identity. -/
def protectedBlocks (graph : Graph) (f : Function) : List Nat :=
  f.sites.flatMap fun site =>
    let i := site.instruction
    if site.block ∈ graph.reachable ∧ i.loopId ≠ 0 then
      site.block :: i.targets ++ (if i.loopTarget = invalidBlock then [] else [i.loopTarget])
    else []

structure Merging where
  function : Function
  graph : Graph
  pending : List Nat
  work : Nat

/-- The block that `source` may absorb. -/
def mergeTarget (keep : List Nat) (m : Merging) (source : Nat) : Option Nat :=
  match (m.function.code source).getLast? with
  | some terminal =>
      let target := terminal.targets.headD 0
      if terminal.opcode = .branch ∧ target ≠ source ∧ target ≠ m.function.entry ∧
          target ∉ keep ∧ target ∈ m.graph.reachable ∧
          (m.graph.predecessors target).card = 1 ∧
          ((m.function.code target).head?.all fun i => decide (i.opcode ≠ .phi)) = true then
        some target
      else none
  | none => none

/-- Rename one predecessor in the PHIs at the start of a block. -/
def renameIncoming (old new : Nat) (code : List Instruction) : List Instruction :=
  (phis code).map (fun i => { i with targets := i.targets.map fun t => if t = old then new else t }) ++
    body code

def renamePredecessor (old new : Nat) (predecessors : Finset Nat) : Finset Nat :=
  insert new (predecessors.erase old)

/-- Append `target` to `source` and empty it. -/
def absorb (source target : Nat) (m : Merging) : Merging :=
  let successors := m.graph.successors target
  let merged := (m.function.code source).dropLast ++ m.function.code target
  let renamed := fun b code => if b ∈ successors then renameIncoming target source code else code
  { function := mapCode m.function fun b code =>
      renamed b (if b = source then merged else if b = target then [] else code)
    graph :=
      { reachable := m.graph.reachable.erase target
        successors := Function.update m.graph.successors source successors
        predecessors := fun b =>
          if b ∈ successors then renamePredecessor target source (m.graph.predecessors b)
          else m.graph.predecessors b }
    pending := m.pending
    work := m.work }

def absorbWork (target : Nat) (m : Merging) : Nat :=
  (m.function.code target).length +
    ((m.graph.successors target).map fun s =>
      ((phis (m.function.code s)).map fun i => i.targets.length).sum).sum

def mergeNext (keep : List Nat) (m : Merging) : Except String (Option Merging) :=
  match m.pending with
  | [] => .ok none
  | source :: pending => do
      let work ← charge m.work 1
      let m := { m with pending := pending, work := work }
      if source ∉ m.graph.reachable then pure (some m)
      else
        match mergeTarget keep m source with
        | none => pure (some m)
        | some target => do
            let work ← charge work (absorbWork target m)
            pure (some { absorb source target m with pending := pending ++ [source], work := work })

/-! ## Renumbering -/

def liveBlocks (f : Function) (reachable : Finset Nat) : List Nat :=
  (List.range f.blocks.length).filter (· ∈ reachable)

def liveResults (f : Function) (reachable : Finset Nat) : List Nat :=
  ((liveBlocks f reachable).flatMap fun b => (f.code b).map Instruction.result).filter (· ≠ 0)

def newBlock (f : Function) (reachable : Finset Nat) (b : Nat) : Nat :=
  if b ∈ liveBlocks f reachable then (liveBlocks f reachable).idxOf b else invalidBlock

def newValue (f : Function) (reachable : Finset Nat) (v : Nat) : Nat :=
  if v ∈ liveResults f reachable then (liveResults f reachable).idxOf v + 1 else 0

def renumberInstruction (resolver : Nat → Except String Nat) (blocks values : Nat → Nat)
    (i : Instruction) : Except String Instruction := do
  let operands ← resolveAll resolver i.operands
  rejectIf (∃ v ∈ operands, values v = 0) "O2 SCCP: retained use lost its definition."
  rejectIf (∃ t ∈ i.targets, blocks t = invalidBlock) "O2 SCCP: retained edge lost its block."
  pure { i with
    operands := operands.map values
    result := if i.result = 0 then 0 else values i.result
    targets := i.targets.map blocks
    loopTarget := if i.loopTarget = invalidBlock then invalidBlock else blocks i.loopTarget }

def renumberCode (resolver : Nat → Except String Nat) (blocks values : Nat → Nat) :
    List Instruction → Except String (List Instruction)
  | [] => .ok []
  | i :: rest => do
      let i ← renumberInstruction resolver blocks values i
      let rest ← renumberCode resolver blocks values rest
      pure (i :: rest)

def renumberBlocks (f : Function) (resolver : Nat → Except String Nat) (blocks values : Nat → Nat) :
    List Nat → Except String (List BasicBlock)
  | [] => .ok []
  | b :: rest => do
      let code ← renumberCode resolver blocks values (f.code b)
      let rest ← renumberBlocks f resolver blocks values rest
      pure ({ id := blocks b, label := ((f.blocks[b]?).map BasicBlock.label).getD "", instructions := code } :: rest)

def renumber (f : Function) (reachable : Finset Nat) (resolver : Nat → Except String Nat) :
    Except String Function := do
  let blocks ← renumberBlocks f resolver (newBlock f reachable) (newValue f reachable)
    (liveBlocks f reachable)
  pure { f with
    blocks := blocks
    entry := newBlock f reachable f.entry
    valueCount := (liveResults f reachable).length }

/-! ## The pass -/

def rewrite (f : Function) (a : Analysis) : Except String Function := do
  let (f, work) ← prune f a
  let (graph, work) ← makeGraph f work
  checkAll (checkPhis graph f) (List.range f.blocks.length)
  let work ← charge work (foldWork graph f)
  let aliases := aliasTable graph f
  let resolver := resolve aliases (f.valueCount + 1)
  let folded := mapCode f fun b code =>
    if b ∈ graph.reachable then foldBlock graph a.facts b code else code
  let blocks ← resolveBlocks graph resolver folded.blocks.zipIdx
  let f := { folded with blocks := blocks }
  let merged ← loop (mergeNext (protectedBlocks graph f)) workLimit (maxWork + 1)
    ⟨f, graph, liveBlocks f graph.reachable, work⟩
  renumber merged.function merged.graph.reachable resolver

def optimizeFunction (f : Function) : Except String Function := do
  let a ← analyze f
  rewrite f a

def optimizeAll : List Function → Except String (List Function)
  | [] => .ok []
  | f :: rest => do
      let f ← optimizeFunction f
      let rest ← optimizeAll rest
      pure (f :: rest)

def run (module : Module) : Except String Module := do
  checkAll validateResources module.functions
  Verifier.verify module
  let functions ← optimizeAll module.functions
  let optimized := { module with functions := functions }
  Verifier.verify optimized
  pure optimized

end Disco.IR.ConditionalOptimizer
