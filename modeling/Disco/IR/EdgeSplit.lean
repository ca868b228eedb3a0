import Disco.IR.FlowAnalysis
import Disco.IR.Semantics

/-! # Splitting edges

`splitPhiEdges` puts a new block on every edge into a block with PHIs, unless
the edge is the only way out of a plain branch; the copies that replace the PHIs
find their place there. One split lets the first block jump to the new one and
the new one to the second, where the PHIs take the new block for the first.
-/

namespace Disco.IR

open Library Verifier ControlFlow

namespace EdgeSplit

def redirect (old new : Nat) (i : Instruction) : Instruction :=
  { i with targets := i.targets.map fun t => if t = old then new else t }

/-- Change the targets of the last instruction. -/
def redirectLast (old new : Nat) : List Instruction → List Instruction
  | [] => []
  | [i] => [redirect old new i]
  | i :: next :: rest => i :: redirectLast old new (next :: rest)

/-- Change the edges of the PHIs up to the first other instruction. -/
def redirectPhis (old new : Nat) : List Instruction → List Instruction
  | [] => []
  | i :: rest => if i.opcode = .phi then redirect old new i :: redirectPhis old new rest else i :: rest

/-- The setup of a loop names the block its end goes back to. -/
def retarget (loop first : Nat) (i : Instruction) : Instruction :=
  if i.opcode = .hardwareLoop ∧ i.loopId = loop then { i with loopTarget := first } else i

def updateCode (f : Function) (b : Nat) (edit : List Instruction → List Instruction) : Function :=
  { f with
    blocks := f.blocks.modify b fun block => { block with instructions := edit block.instructions } }

def updateSetups (f : Function) (terminal : Instruction) : Function :=
  if terminal.opcode = .hardwareLoopEnd then
    { f with
      blocks := f.blocks.map fun block =>
        { block with
          instructions := block.instructions.map
            (retarget terminal.loopId (terminal.targets.headD invalidBlock)) } }
  else f

/-- The block of an edge; it ends as its source did, in a plot or not. -/
def edgeBlock (edge successor : Nat) (terminal : Instruction) : BasicBlock where
  id := edge
  label := "phi.edge"
  instructions :=
    [{ opcode := .branch
       targets := [successor]
       inPlotContext := terminal.inPlotContext }]

def splitEdge (f : Function) (predecessor successor : Nat) (terminal : Instruction) : Function :=
  let edge := f.blocks.length
  let f := updateCode f predecessor (redirectLast successor edge)
  let f := updateSetups f (redirect successor edge terminal)
  let f := updateCode f successor (redirectPhis predecessor edge)
  { f with blocks := f.blocks ++ [edgeBlock edge successor terminal] }

/-- The edges of the function at the start decide; a branch with one successor
is a copy edge already. -/
def splitEdgeFrom (original : Function) (successor : Nat) (f : Function) (predecessor : Nat) :
    Except String Function :=
  match (f.code predecessor).getLast? with
  | none => pure f
  | some terminal =>
      if terminal.opcode = .branch ∧ (ControlFlow.successors original predecessor).length = 1 then pure f
      else do
        rejectIf (f.blocks.length ≥ 8192) limit
        pure (splitEdge f predecessor successor terminal)

def splitEdgesInto (original f : Function) (successor : Nat) : Except String Function :=
  match (f.code successor).head? with
  | none => pure f
  | some first =>
      if first.opcode = .phi then
        foldAll (splitEdgeFrom original successor) f
          (ControlFlow.predecessors original successor)
      else pure f

end EdgeSplit

open EdgeSplit in
def splitPhiEdges (f : Function) : Except String Function := do
  let _ ← controlFlow f
  foldAll (splitEdgesInto f) f (List.range f.blocks.length)

namespace EdgeSplit

/-! ## One edge with a block of its own -/

/-- Where an instruction of block `b` sends what was sent to `t`. -/
def turn (p q e b : Nat) (i : Instruction) (t : Nat) : Nat :=
  if i.opcode = .phi then if b = q ∧ t = p then e else t
  else if i.isTerminator = true ∧ b = p ∧ t = q then e else t

/-- Instructions that differ in the blocks they name. -/
structure SameWork (i i' : Instruction) : Prop where
  effect : i'.effect = i.effect
  result : i'.result = i.result
  operands : i'.operands = i.operands
  caseValues : i'.caseValues = i.caseValues

/-- An instruction of block `b` after the edge from `p` to `q` leads through `e`. -/
structure Edited (p q e b : Nat) (i i' : Instruction) : Prop extends SameWork i i' where
  targets : i'.targets = i.targets.map (turn p q e b i)
  inside : ∀ t ∈ i.targets, t < e

structure Splits (p q : Nat) (f g : Function) : Prop where
  entry : g.entry = f.entry
  entry_lt : f.entry < f.blocks.length
  length : g.blocks.length = f.blocks.length + 1
  code : ∀ b < f.blocks.length, List.Forall₂ (Edited p q f.blocks.length b) (f.code b) (g.code b)
  edge : ∃ j, g.code f.blocks.length = [j] ∧ j.opcode = .branch ∧ j.targets = [q]

section Run

variable {W : Type} {perform : Perform W} {p q e b : Nat} {f g : Function} {i i' : Instruction}
  {code code' : List Instruction} {s t : State W}

theorem Edited.opcode (h : Edited p q e b i i') : i'.opcode = i.opcode := congrArg Effect.opcode h.effect

theorem Edited.length (h : Edited p q e b i i') : i'.targets.length = i.targets.length := by
  rw [h.targets, List.length_map]

theorem Edited.isEmpty (h : Edited p q e b i i') : i'.targets.isEmpty = i.targets.isEmpty := by
  rw [h.targets, List.isEmpty_map]

theorem split_edited (h : List.Forall₂ (Edited p q e b) code code') :
    List.Forall₂ (Edited p q e b) (phis code) (phis code') ∧ List.Forall₂ (Edited p q e b) (body code) (body code') := by
  induction h with
  | nil => exact ⟨.nil, .nil⟩
  | @cons i i' rest rest' hi hrest ih =>
      unfold phis body at ih ⊢
      by_cases hphi : i.opcode = .phi
      · have hphi' : i'.opcode = .phi := hi.opcode.trans hphi
        simp only [List.takeWhile_cons, List.dropWhile_cons, hphi, hphi', beq_self_eq_true, if_true]
        exact ⟨.cons hi ih.1, ih.2⟩
      · have hphi' : i'.opcode ≠ .phi := fun heq => hphi (hi.opcode.symm.trans heq)
        have hno : (i.opcode == Opcode.phi) = false := by simpa using hphi
        have hno' : (i'.opcode == Opcode.phi) = false := by simpa using hphi'
        simp only [List.takeWhile_cons, List.dropWhile_cons, hno, hno']
        exact ⟨.nil, .cons hi hrest⟩

/-- A PHI finds on the new edge what it found on the old one. -/
theorem incoming_edited (h : Edited p q e b i i') (hphi : i.opcode = .phi) {source source' : Nat}
    (hsource : source < e) (hturned : source' = if b = q ∧ source = p then e else source) :
    i'.incoming source' = i.incoming source := by
  have hturn : ∀ t ∈ i.targets, (turn p q e b i t == source') = (t == source) := by
    intro t ht
    have hlt := h.inside t ht
    unfold turn
    rw [if_pos hphi, hturned, Bool.eq_iff_iff, beq_iff_eq, beq_iff_eq]
    by_cases hb : b = q
    · simp only [hb, true_and]
      split <;> split <;> omega
    · simp only [hb, false_and, if_false]
  have hfind : ∀ (targets operands : List Nat), (∀ t ∈ targets, (turn p q e b i t == source') = (t == source)) →
      (((targets.map (turn p q e b i)).zip operands).find? fun edge => edge.1 == source').map Prod.snd =
        ((targets.zip operands).find? fun edge => edge.1 == source).map Prod.snd := by
    intro targets
    induction targets with
    | nil => intros; rfl
    | cons t rest ih =>
        intro operands hall
        cases operands with
        | nil => rfl
        | cons v operands =>
            rw [List.map_cons, List.zip_cons_cons, List.zip_cons_cons, List.find?_cons, List.find?_cons]
            dsimp only
            rw [hall t List.mem_cons_self]
            cases t == source with
            | true => rfl
            | false => exact ih operands fun c hc => hall c (List.mem_cons_of_mem _ hc)
  unfold Instruction.incoming
  rw [h.targets, h.operands, hfind _ _ hturn]

theorem selectPhis_edited (h : List.Forall₂ (Edited p q e b) code code') (hphi : ∀ i ∈ code, i.opcode = .phi)
    {source source' : Nat} (hsource : source < e)
    (hturned : source' = if b = q ∧ source = p then e else source) (env : Nat → Slot) :
    selectPhis code' source' env = selectPhis code source env := by
  funext v
  unfold selectPhis
  induction h with
  | nil => rfl
  | @cons i i' rest rest' hi hrest ih =>
      have htail := ih fun j hj => hphi j (List.mem_cons_of_mem _ hj)
      rw [List.find?_cons, List.find?_cons, hi.result]
      cases hv : i.result == v with
      | false => exact htail
      | true =>
          have hincoming := incoming_edited hi (hphi i List.mem_cons_self) hsource hturned
          dsimp only
          rw [hincoming]

/-- Loops that go on in the same block. -/
structure Waits (p q : Nat) (f : Function) (frame frame' : LoopFrame) : Prop where
  count : frame'.count = frame.count
  resume : (frame.resume = none ∧ frame'.resume = none) ∨ ∃ b < f.blocks.length, ∃ code code',
    frame.resume = some (b, code) ∧ frame'.resume = some (b, code') ∧
      List.Forall₂ (Edited p q f.blocks.length b) code code'

/-- States that agree up to the code. -/
structure Beside (p q : Nat) (f : Function) (s t : State W) : Prop where
  inside : s.block < f.blocks.length
  block : t.block = s.block
  env : t.env = s.env
  world : t.world = s.world
  trace : t.trace = s.trace
  loops : List.Forall₂ (Waits p q f) s.loops t.loops

structure Follows (p q : Nat) (f : Function) (s t : State W) : Prop extends Beside p q f s t where
  code : List.Forall₂ (Edited p q f.blocks.length s.block) s.code t.code

/-- One step answered by one step, or by two with the new block between them. -/
def Answers (perform : Perform W) (p q : Nat) (f g : Function) (x y : Except Halt (State W)) : Prop :=
  match x with
  | .error e => y = .error e
  | .ok s => ∃ t, y = .ok t ∧ (Follows p q f s t ∨ ∃ u, step perform g t = .ok u ∧ Follows p q f s u)

theorem Answers.same {s t : State W} (h : Follows p q f s t) : Answers perform p q f g (.ok s) (.ok t) :=
  ⟨t, rfl, .inl h⟩

/-- Taking an edge that is not the split one, or the way on from the new block. -/
theorem enter_follows (h : Splits p q f g) (hbeside : Beside p q f s t) {target source : Nat}
    (htarget : target < f.blocks.length)
    (hsource : source = if target = q ∧ s.block = p then f.blocks.length else s.block) :
    Follows p q f (enter f s target) (enter g { t with block := source } target) := by
  have hsplit := split_edited (h.code target htarget)
  refine ⟨⟨htarget, rfl, ?_, hbeside.world, hbeside.trace, hbeside.loops⟩, hsplit.2⟩
  unfold enter
  dsimp only
  have hselect := selectPhis_edited hsplit.1 (fun i hi => by simpa using List.mem_takeWhile_imp hi)
    hbeside.inside hsource t.env
  rw [hselect, hbeside.env]

theorem answers_jump (h : Splits p q f g) (hbeside : Beside p q f s t)
    (hedited : Edited p q f.blocks.length s.block i i') (hphi : i.opcode ≠ .phi)
    (hterm : i.isTerminator = true) (selected : Nat) :
    Answers perform p q f g (jump f i selected s) (jump g i' selected t) := by
  unfold jump
  rw [hedited.targets, List.getElem?_map]
  cases htarget : i.targets[selected]? with
  | none => exact rfl
  | some target =>
      have hlt := hedited.inside target (List.mem_of_getElem? htarget)
      have hturn : turn p q f.blocks.length s.block i target =
          if s.block = p ∧ target = q then f.blocks.length else target := by
        unfold turn
        rw [if_neg hphi]
        simp only [hterm, true_and]
      rw [Option.map_some, hturn]
      by_cases hsplit : s.block = p ∧ target = q
      · -- through the new block
        obtain ⟨j, hcode, hbranch, hnext⟩ := h.edge
        rw [if_pos hsplit]
        refine ⟨_, rfl, .inr ⟨enter g (enter g t f.blocks.length) target, ?_, ?_⟩⟩
        · have hbody : body [j] = [j] := by simp [body, hbranch]
          have hcode' : (enter g t f.blocks.length).code = [j] := by
            unfold enter
            rw [hcode, hbody]
          unfold step
          rw [hcode']
          dsimp only
          rw [hbranch]
          unfold Instruction.leave jump
          rw [hbranch, hnext, hsplit.2]
          rfl
        · have hpass : enter g (enter g t f.blocks.length) target =
              enter g { t with block := f.blocks.length } target := by
            have hphis : phis [j] = [] := by simp [phis, hbranch]
            unfold enter
            rw [hcode, hphis]
            rfl
          rw [hpass]
          exact enter_follows h hbeside hlt (by rw [if_pos ⟨hsplit.2, hsplit.1⟩])
      · rw [if_neg hsplit]
        have hsame : Follows p q f (enter f s target) (enter g { t with block := t.block } target) :=
          enter_follows h hbeside hlt (by rw [if_neg (fun hboth => hsplit ⟨hboth.2, hboth.1⟩), hbeside.block])
        exact Answers.same hsame

theorem arguments_edited (hbeside : Beside p q f s t) (hedited : Edited p q e b i i') :
    t.arguments i' = s.arguments i := by
  unfold State.arguments State.word
  rw [hedited.operands, hbeside.env]

theorem leave_edited (hedited : Edited p q e b i i') (arguments : List Int) :
    i'.leave arguments = i.leave arguments := by
  unfold Instruction.leave Instruction.selectedCase
  rw [hedited.opcode, hedited.length, hedited.caseValues]

/-- What an instruction produces is the same on both sides. -/
theorem execute_edited (perform : Perform W) (hbeside : Beside p q f s t) (hedited : Edited p q e b i i') :
    (∃ h, execute perform i s = .error h ∧ execute perform i' t = .error h) ∨
      ∃ s' t', execute perform i s = .ok s' ∧ execute perform i' t = .ok t' ∧ Beside p q f s' t' ∧
        s'.block = s.block := by
  have hproduce : produce perform i'.effect (t.arguments i') (t.env (i'.operands.getD 0 0)).other t.world =
      produce perform i.effect (s.arguments i) (s.env (i.operands.getD 0 0)).other s.world := by
    rw [hedited.effect, arguments_edited hbeside hedited, hedited.operands, hbeside.env, hbeside.world]
  unfold execute
  rw [hproduce]
  cases produce perform i.effect (s.arguments i) (s.env (i.operands.getD 0 0)).other s.world with
  | error h => exact .inl ⟨h, rfl, rfl⟩
  | ok produced =>
      refine .inr ⟨s.record i.result produced, t.record i'.result produced, rfl, rfl, ?_, rfl⟩
      refine ⟨hbeside.inside, hbeside.block, ?_, rfl, ?_, hbeside.loops⟩
      · unfold State.record
        dsimp only
        rw [hedited.result, hbeside.env]
      · unfold State.record
        dsimp only
        rw [hbeside.trace]

theorem answers_enterLoop (h : Splits p q f g) (hbeside : Beside p q f s t)
    (hedited : Edited p q f.blocks.length s.block i i') (hop : i.opcode = .hardwareLoop)
    (hrest : List.Forall₂ (Edited p q f.blocks.length s.block) code code') (count : Int) :
    Answers perform p q f g (enterLoop f i code count s) (enterLoop g i' code' count t) := by
  unfold enterLoop
  dsimp only
  rw [hedited.isEmpty]
  cases hempty : i.targets.isEmpty with
  | true =>
      refine Answers.same ⟨⟨hbeside.inside, hbeside.block, hbeside.env, hbeside.world, hbeside.trace, ?_⟩, hrest⟩
      refine .cons ⟨rfl, .inr ⟨s.block, hbeside.inside, code, code', rfl, ?_, hrest⟩⟩ hbeside.loops
      rw [hbeside.block]
  | false =>
      have hcounted : Beside p q f { s with loops := ⟨(count % 0x10000).toNat, none⟩ :: s.loops }
          { t with loops := ⟨(count % 0x10000).toNat, none⟩ :: t.loops } :=
        ⟨hbeside.inside, hbeside.block, hbeside.env, hbeside.world, hbeside.trace,
          .cons ⟨rfl, .inl ⟨rfl, rfl⟩⟩ hbeside.loops⟩
      have hterm : i.isTerminator = true := by simp [Instruction.isTerminator, hop, hempty]
      exact answers_jump h hcounted hedited (by simp [hop]) hterm 0

theorem answers_repeatLoop (h : Splits p q f g) (hbeside : Beside p q f s t)
    (hedited : Edited p q f.blocks.length s.block i i') (hop : i.opcode = .hardwareLoopEnd)
    (hrest : List.Forall₂ (Edited p q f.blocks.length s.block) code code') :
    Answers perform p q f g (repeatLoop f i code s) (repeatLoop g i' code' t) := by
  have hloops := hbeside.loops
  unfold repeatLoop
  cases hs : s.loops with
  | nil =>
      rw [hs, List.forall₂_nil_left_iff] at hloops
      rw [hloops]
      exact rfl
  | cons frame outer =>
      rw [hs] at hloops
      obtain ⟨frame', outer', hframe, houter, ht⟩ := List.forall₂_cons_left_iff.mp hloops
      rw [ht]
      dsimp only
      rw [hedited.isEmpty, hframe.count]
      generalize countDown frame.count = count
      cases hempty : i.targets.isEmpty with
      | true =>
          simp only [if_true]
          split
          · exact Answers.same ⟨⟨hbeside.inside, hbeside.block, hbeside.env, hbeside.world, hbeside.trace, houter⟩,
              hrest⟩
          · cases hframe.resume with
            | inl hnone =>
                rw [hnone.1, hnone.2]
                exact rfl
            | inr hsome =>
                obtain ⟨c, hc, back, back', hresume, hresume', hback⟩ := hsome
                rw [hresume, hresume']
                refine Answers.same ⟨⟨hc, rfl, hbeside.env, hbeside.world, hbeside.trace, ?_⟩, hback⟩
                exact .cons ⟨rfl, .inr ⟨c, hc, back, back', rfl, rfl, hback⟩⟩ houter
      | false =>
          have hcounted : Beside p q f { s with loops := { frame with count := count } :: outer }
              { t with loops := { frame' with count := count } :: outer' } :=
            ⟨hbeside.inside, hbeside.block, hbeside.env, hbeside.world, hbeside.trace,
              .cons ⟨rfl, hframe.resume⟩ houter⟩
          have hterm : i.isTerminator = true := by simp [Instruction.isTerminator, hop, hempty]
          exact answers_jump h hcounted hedited (by simp [hop]) hterm (if count = 0 then 1 else 0)

theorem answers_proceed (h : Splits p q f g) (hbeside : Beside p q f s t)
    (hedited : Edited p q f.blocks.length s.block i i')
    (hrest : List.Forall₂ (Edited p q f.blocks.length s.block) code code') (count : Int) :
    Answers perform p q f g (proceed f i code count s) (proceed g i' code' count t) := by
  unfold proceed
  rw [hedited.opcode]
  split
  · next hop => exact answers_enterLoop h hbeside hedited hop hrest count
  · next hop => exact answers_repeatLoop h hbeside hedited hop hrest
  · refine Answers.same ⟨⟨hbeside.inside, hbeside.block, hbeside.env, hbeside.world, hbeside.trace, ?_⟩, hrest⟩
    have hloops := hbeside.loops
    dsimp only
    generalize s.loops = loops at hloops
    generalize t.loops = loops' at hloops
    cases hloops with
    | nil => exact .nil
    | cons _ houter => exact houter
  · exact Answers.same ⟨⟨hbeside.inside, hbeside.block, hbeside.env, hbeside.world, hbeside.trace, hbeside.loops⟩,
      hrest⟩

theorem answers_step (perform : Perform W) (h : Splits p q f g) (hfollows : Follows p q f s t) :
    Answers perform p q f g (step perform f s) (step perform g t) := by
  have hmatch := hfollows.code
  unfold step
  cases hs : s.code with
  | nil =>
      rw [hs, List.forall₂_nil_left_iff] at hmatch
      rw [hmatch]
      exact rfl
  | cons i rest =>
      rw [hs] at hmatch
      obtain ⟨i', rest', hedited, hrest, ht⟩ := List.forall₂_cons_left_iff.mp hmatch
      rw [ht]
      dsimp only
      rw [hedited.opcode, arguments_edited hfollows.toBeside hedited, leave_edited hedited]
      split
      · next hop =>
          cases i.leave (s.arguments i) with
          | error e => exact rfl
          | ok selected =>
              have hphi : i.opcode ≠ .phi := by
                intro heq
                rw [heq] at hop
                cases hop
              have hterm : i.isTerminator = true := by simp [Instruction.isTerminator, hop]
              exact answers_jump h hfollows.toBeside hedited hphi hterm selected
      · rcases execute_edited perform hfollows.toBeside hedited with hstop | hgo
        · obtain ⟨e, hs', ht'⟩ := hstop
          rw [hs', ht']
          exact rfl
        · obtain ⟨s', t', hs', ht', hbeside, hblock⟩ := hgo
          rw [hs', ht']
          rw [← hblock] at hedited hrest
          exact answers_proceed h hbeside hedited hrest _

theorem start_follows (h : Splits p q f g) (world : W) : Follows p q f (start f world) (start g world) := by
  have hsplit := split_edited (h.code f.entry h.entry_lt)
  unfold start
  rw [h.entry]
  exact ⟨⟨h.entry_lt, rfl, rfl, rfl, rfl, .nil⟩, hsplit.2⟩

/-- A block of its own on one edge makes no difference. -/
theorem Splits.sameBehavior (h : Splits p q f g) (perform : Perform W) (world : W) :
    Machine.SameBehavior (machine perform f) (machine perform g) (start f world) (start g world) := by
  refine Machine.Simulation.sameBehavior (R := Follows p q f) ⟨?_, ?_, ?_⟩ (start_follows h world)
  · intro s t hr
    exact hr.trace.symm
  · intro s t s' hr hstep
    have hanswer := answers_step perform h hr
    have hok : step perform f s = .ok s' := hstep
    rw [hok] at hanswer
    obtain ⟨u, hu, hend⟩ := hanswer
    cases hend with
    | inl hone => exact ⟨0, u, .single hu, hone⟩
    | inr htwo =>
        obtain ⟨v, hv, hfollows⟩ := htwo
        exact ⟨1, v, .head hu (.single hv), hfollows⟩
  · intro s t e hr hstep
    have hanswer := answers_step perform h hr
    have herror : step perform f s = .error e := hstep
    rw [herror] at hanswer
    refine ⟨0, t, .refl t, hanswer, ?_, hr.trace.symm⟩
    exact Prod.ext hr.trace.symm hr.world.symm

end Run

/-! ## The split of the source -/

/-- What a split relies on, and keeps. -/
structure Shaped (f : Function) : Prop where
  entry_lt : f.entry < f.blocks.length
  ends : ∀ b < f.blocks.length, ∃ init last, f.code b = init ++ [last] ∧ last.isTerminator = true ∧
    ∀ i ∈ init, i.isTerminator = false
  phi : ∀ b, ∀ i ∈ body (f.code b), i.opcode ≠ .phi
  targets : ∀ b, ∀ i ∈ f.code b, ∀ t ∈ i.targets, t < f.blocks.length
  branch : ∀ b, ∀ i ∈ f.code b, i.opcode = .branch → i.targets.length = 1

theorem shaped_of_verified {f : Function} (hv : Verified f) : Shaped f where
  entry_lt := hv.entry_lt
  ends _ hb := hv.terminated hb
  phi _ _ hi := hv.not_phi_of_mem_body hi
  targets b i hi := by
    obtain ⟨k, hk⟩ := List.mem_iff_getElem?.mp hi
    obtain ⟨_, -, hscanned⟩ := hv.scannedAt hk
    exact hscanned.targets
  branch b i hi hop := by
    obtain ⟨k, hk⟩ := List.mem_iff_getElem?.mp hi
    obtain ⟨_, -, hscanned⟩ := hv.scannedAt hk
    obtain ⟨seen, hshape⟩ := hscanned.shape
    unfold checkShape at hshape
    simp only [hop, rejectIf_eq_ok, not_or, not_not] at hshape
    exact hshape.2

section Split

variable {f g : Function} {p q b : Nat} {i terminal : Instruction} {code : List Instruction}

theorem redirect_isTerminator (old new : Nat) : (redirect old new i).isTerminator = i.isTerminator := by
  unfold Instruction.isTerminator redirect
  rw [List.isEmpty_map]

theorem retarget_isTerminator (loop first : Nat) : (retarget loop first i).isTerminator = i.isTerminator := by
  unfold retarget
  split <;> rfl

theorem retarget_opcode (loop first : Nat) : (retarget loop first i).opcode = i.opcode := by
  unfold retarget
  split <;> rfl

theorem not_terminator_of_phi (hphi : i.opcode = .phi) : i.isTerminator = false := by
  simp [Instruction.isTerminator, isTerminatorOpcode, hphi]

theorem redirectLast_eq {init : List Instruction} {last : Instruction} (old new : Nat)
    (hinit : ∀ i ∈ init, i.isTerminator = false) (hlast : last.isTerminator = true) :
    redirectLast old new (init ++ [last]) =
      (init ++ [last]).map fun i => if i.isTerminator = true then redirect old new i else i := by
  induction init with
  | nil => simp [redirectLast, hlast]
  | cons i rest ih =>
      have hi := hinit i List.mem_cons_self
      have hrest := ih fun j hj => hinit j (List.mem_cons_of_mem _ hj)
      rw [List.cons_append, List.map_cons, if_neg (by simp [hi]), ← hrest]
      cases rest <;> rfl

theorem redirectPhis_eq (old new : Nat) (hphi : ∀ i ∈ body code, i.opcode ≠ .phi) :
    redirectPhis old new code = code.map fun i => if i.opcode = .phi then redirect old new i else i := by
  induction code with
  | nil => rfl
  | cons i rest ih =>
      unfold body at hphi ih
      by_cases hop : i.opcode = .phi
      · have hskip : ((i :: rest).dropWhile fun i => i.opcode == .phi) = rest.dropWhile fun i => i.opcode == .phi := by
          simp [hop]
        rw [hskip] at hphi
        rw [redirectPhis, if_pos hop, ih hphi, List.map_cons, if_pos hop]
      · have hstay : ((i :: rest).dropWhile fun i => i.opcode == .phi) = i :: rest := by simp [hop]
        rw [hstay] at hphi
        have hsame : ((i :: rest).map fun i => if i.opcode = .phi then redirect old new i else i) = (i :: rest).map id :=
          List.map_congr_left fun j hj => if_neg (hphi j hj)
        rw [redirectPhis, if_neg hop, hsame, List.map_id]

/-- What becomes of an instruction of block `b`. -/
def edit (p q e b : Nat) (terminal i : Instruction) : Instruction :=
  let i := if b = p ∧ i.isTerminator = true then redirect q e i else i
  let i := if terminal.opcode = .hardwareLoopEnd then
    retarget terminal.loopId (terminal.targets.headD invalidBlock) i else i
  if b = q ∧ i.opcode = .phi then redirect p e i else i

theorem length_updateCode (edit : List Instruction → List Instruction) :
    (updateCode f b edit).blocks.length = f.blocks.length := List.length_modify ..

theorem code_updateCode (edit : List Instruction → List Instruction) (c : Nat) (hc : c < f.blocks.length) :
    (updateCode f b edit).code c = if c = b then edit (f.code c) else f.code c := by
  have hblock : f.blocks[c]? = some f.blocks[c] := List.getElem?_eq_getElem hc
  unfold Function.code updateCode
  dsimp only
  rw [List.getElem?_modify, hblock]
  by_cases hsame : c = b
  · simp [hsame]
  · simp [hsame, Ne.symm hsame]

theorem length_updateSetups : (updateSetups f terminal).blocks.length = f.blocks.length := by
  unfold updateSetups
  split
  · exact List.length_map _
  · rfl

theorem code_updateSetups (c : Nat) : (updateSetups f terminal).code c = (f.code c).map fun i =>
    if terminal.opcode = .hardwareLoopEnd then retarget terminal.loopId (terminal.targets.headD invalidBlock) i
    else i := by
  unfold updateSetups
  split
  · unfold Function.code
    dsimp only
    rw [List.getElem?_map]
    cases f.blocks[c]? <;> rfl
  · simp

theorem length_splitEdge : (splitEdge f p q terminal).blocks.length = f.blocks.length + 1 := by
  unfold splitEdge
  dsimp only
  rw [List.length_append, length_updateCode, length_updateSetups, length_updateCode, List.length_singleton]

theorem body_map {h : Instruction → Instruction} (hop : ∀ i, (h i).opcode = i.opcode) :
    body (code.map h) = (body code).map h := by
  unfold body
  rw [List.dropWhile_map]
  congr 2
  funext i
  simp [hop]

theorem code_splitEdge (hs : Shaped f) (hb : b < f.blocks.length) :
    (splitEdge f p q terminal).code b =
      (f.code b).map (edit p q f.blocks.length b (redirect q f.blocks.length terminal)) := by
  obtain ⟨init, last, hcode, hlast, hinit⟩ := hs.ends b hb
  have hfirst : (updateCode f p (redirectLast q f.blocks.length)).code b =
      (f.code b).map fun i => if b = p ∧ i.isTerminator = true then redirect q f.blocks.length i else i := by
    rw [code_updateCode _ _ hb]
    by_cases hsame : b = p
    · simp only [hsame, if_true, true_and]
      rw [← hsame, hcode, redirectLast_eq _ _ hinit hlast]
    · simp [hsame]
  have hlength : b < (updateSetups (updateCode f p (redirectLast q f.blocks.length))
      (redirect q f.blocks.length terminal)).blocks.length := by
    rw [length_updateSetups, length_updateCode]
    exact hb
  have hall : (splitEdge f p q terminal).code b = (updateCode (updateSetups
      (updateCode f p (redirectLast q f.blocks.length)) (redirect q f.blocks.length terminal)) q
      (redirectPhis p f.blocks.length)).code b := by
    unfold splitEdge Function.code
    dsimp only
    rw [List.getElem?_append_left]
    rw [length_updateCode]
    exact hlength
  rw [hall, code_updateCode _ _ hlength, code_updateSetups, hfirst, List.map_map]
  by_cases hsame : b = q
  · rw [if_pos hsame, redirectPhis_eq, List.map_map]
    · apply List.map_congr_left
      intro i _
      unfold edit
      simp only [Function.comp, hsame, true_and]
    · rw [body_map]
      · intro i hi
        obtain ⟨j, hj, rfl⟩ := List.mem_map.mp hi
        have hphi := hs.phi b j hj
        simp only [Function.comp]
        split <;> split <;> simp [retarget_opcode, redirect, hphi]
      · intro i
        simp only [Function.comp]
        split <;> split <;> simp [retarget_opcode, redirect]
  · rw [if_neg hsame]
    apply List.map_congr_left
    intro i _
    unfold edit
    simp only [Function.comp, hsame, false_and, if_false]

theorem SameWork.trans {j k : Instruction} (h : SameWork i j) (h' : SameWork j k) : SameWork i k :=
  ⟨h'.effect.trans h.effect, h'.result.trans h.result, h'.operands.trans h.operands, h'.caseValues.trans h.caseValues⟩

theorem redirect_sameWork (old new : Nat) : SameWork i (redirect old new i) := ⟨rfl, rfl, rfl, rfl⟩

theorem retarget_sameWork (loop first : Nat) : SameWork i (retarget loop first i) := by
  unfold retarget
  split <;> exact ⟨rfl, rfl, rfl, rfl⟩

theorem SameWork.if {c : Prop} [Decidable c] {j : Instruction} (h : SameWork i j) :
    SameWork i (if c then j else i) := by
  split
  · exact h
  · exact ⟨rfl, rfl, rfl, rfl⟩

theorem retarget_targets (loop first : Nat) : (retarget loop first i).targets = i.targets := by
  unfold retarget
  split <;> rfl

theorem edit_targets (e : Nat) : (edit p q e b terminal i).targets = i.targets.map (turn p q e b i) := by
  unfold edit turn
  by_cases hphi : i.opcode = .phi
  · have hterm := not_terminator_of_phi hphi
    by_cases hb : b = q
    · by_cases hend : terminal.opcode = .hardwareLoopEnd
      · simp [hterm, hb, hend, hphi, retarget_opcode, redirect, retarget_targets]
      · simp [hterm, hb, hend, hphi, redirect]
    · by_cases hend : terminal.opcode = .hardwareLoopEnd
      · simp [hterm, hb, hend, hphi, retarget_targets]
      · simp [hterm, hb, hend, hphi]
  · by_cases hmoved : b = p ∧ i.isTerminator = true
    · by_cases hend : terminal.opcode = .hardwareLoopEnd
      · simp [hmoved, hend, hphi, retarget_opcode, redirect, retarget_targets]
      · simp [hmoved, hend, hphi, redirect]
    · have hstay : ∀ t, ¬ (i.isTerminator = true ∧ b = p ∧ t = q) := fun t hall => hmoved ⟨hall.2.1, hall.1⟩
      by_cases hend : terminal.opcode = .hardwareLoopEnd
      · simp [hmoved, hend, hphi, hstay, retarget_opcode, retarget_targets]
      · simp [hmoved, hend, hphi, hstay]

theorem edit_edited (e : Nat) (htargets : ∀ t ∈ i.targets, t < e) :
    Edited p q e b i (edit p q e b terminal i) := by
  refine ⟨?_, edit_targets e, htargets⟩
  unfold edit
  exact ((redirect_sameWork q e).if.trans (retarget_sameWork _ _).if).trans (redirect_sameWork p e).if

theorem code_edge : (splitEdge f p q terminal).code f.blocks.length = (edgeBlock f.blocks.length q terminal).instructions := by
  unfold splitEdge Function.code
  dsimp only
  rw [List.getElem?_append_right (by rw [length_updateCode, length_updateSetups, length_updateCode]), length_updateCode,
    length_updateSetups, length_updateCode, Nat.sub_self]
  rfl

theorem splitEdge_splits (hs : Shaped f) : Splits p q f (splitEdge f p q terminal) where
  entry := by
    unfold splitEdge updateSetups
    dsimp only
    split <;> rfl
  entry_lt := hs.entry_lt
  length := length_splitEdge
  code b hb := by
    rw [code_splitEdge hs hb, List.forall₂_map_right_iff, List.forall₂_same]
    intro i hi
    exact edit_edited _ (hs.targets b i hi)
  edge := ⟨_, code_edge, rfl, rfl⟩

theorem code_beyond (hb : f.blocks.length ≤ b) : f.code b = [] := by
  unfold Function.code
  rw [List.getElem?_eq_none hb]
  rfl

theorem exists_edited {e : Nat} {code' : List Instruction} (h : List.Forall₂ (Edited p q e b) code code')
    (hi : i ∈ code') : ∃ j ∈ code, Edited p q e b j i := by
  induction h with
  | nil => cases hi
  | @cons j j' rest rest' hj _ ih =>
      cases List.mem_cons.mp hi with
      | inl heq => exact ⟨j, List.mem_cons_self, heq ▸ hj⟩
      | inr hrest =>
          obtain ⟨k, hk, hedited⟩ := ih hrest
          exact ⟨k, List.mem_cons_of_mem _ hk, hedited⟩

theorem edited_last {e : Nat} {init code' : List Instruction} {last : Instruction}
    (h : List.Forall₂ (Edited p q e b) (init ++ [last]) code') : ∃ init' last',
      List.Forall₂ (Edited p q e b) init init' ∧ Edited p q e b last last' ∧ code' = init' ++ [last'] := by
  induction init generalizing code' with
  | nil =>
      obtain ⟨last', rest, hlast, hrest, heq⟩ := List.forall₂_cons_left_iff.mp h
      rw [List.forall₂_nil_left_iff.mp hrest] at heq
      exact ⟨[], last', .nil, hlast, heq⟩
  | cons j rest ih =>
      obtain ⟨j', rest', hj, hrest, heq⟩ := List.forall₂_cons_left_iff.mp h
      obtain ⟨init', last', hinit, hlast, hsame⟩ := ih hrest
      exact ⟨j' :: init', last', .cons hj hinit, hlast, by rw [heq, hsame]; rfl⟩

/-- The instructions of a split function. -/
theorem Splits.mem_code (h : Splits p q f g) (hi : i ∈ g.code b) :
    (b < f.blocks.length ∧ ∃ j ∈ f.code b, Edited p q f.blocks.length b j i) ∨
      (b = f.blocks.length ∧ i.opcode = .branch ∧ i.targets = [q]) := by
  rcases Nat.lt_trichotomy b f.blocks.length with hlt | heq | hgt
  · left
    exact ⟨hlt, exists_edited (h.code b hlt) hi⟩
  · right
    obtain ⟨j, hcode, hop, htargets⟩ := h.edge
    rw [heq, hcode] at hi
    rw [List.mem_singleton.mp hi]
    exact ⟨heq, hop, htargets⟩
  · rw [code_beyond (by rw [h.length]; omega)] at hi
    cases hi

theorem Edited.isTerminator {e : Nat} {i' : Instruction} (h : Edited p q e b i i') :
    i'.isTerminator = i.isTerminator := by
  unfold Instruction.isTerminator
  rw [h.opcode, h.isEmpty]

theorem turn_of_ne {e t : Nat} (h : turn p q e b i t ≠ e) : turn p q e b i t = t := by
  unfold turn at h ⊢
  split
  · next hphi =>
      rw [if_pos hphi] at h
      split
      · next hmoved =>
          rw [if_pos hmoved] at h
          exact absurd rfl h
      · rfl
  · next hphi =>
      rw [if_neg hphi] at h
      split
      · next hmoved =>
          rw [if_pos hmoved] at h
          exact absurd rfl h
      · rfl

theorem turn_le {e t : Nat} (ht : t < e) : turn p q e b i t ≤ e := by
  unfold turn
  split <;> split <;> omega

/-- An old target was a target before. -/
theorem Edited.old_target {e t : Nat} {i' : Instruction} (h : Edited p q e b i i') (ht : t ∈ i'.targets) (hne : t ≠ e) :
    t ∈ i.targets := by
  rw [h.targets] at ht
  obtain ⟨u, hu, rfl⟩ := List.mem_map.mp ht
  rw [turn_of_ne hne]
  exact hu

/-- The split edge is gone. -/
theorem Edited.gone {e : Nat} {i' : Instruction} (h : Edited p q e p i i') (hterm : i.isTerminator = true) (hq : q < e) :
    q ∉ i'.targets := by
  intro hmem
  rw [h.targets] at hmem
  obtain ⟨u, hu, heq⟩ := List.mem_map.mp hmem
  have hphi : i.opcode ≠ .phi := by
    intro hphi
    rw [not_terminator_of_phi hphi] at hterm
    cases hterm
  unfold turn at heq
  rw [if_neg hphi] at heq
  by_cases hsame : u = q
  · rw [if_pos ⟨hterm, rfl, hsame⟩] at heq
    omega
  · rw [if_neg (fun hall => hsame hall.2.2)] at heq
    exact hsame heq

theorem Splits.shaped (hs : Shaped f) (hq : q < f.blocks.length) (h : Splits p q f g) : Shaped g where
  entry_lt := by
    rw [h.entry, h.length]
    have := hs.entry_lt
    omega
  ends b hb := by
    rw [h.length] at hb
    by_cases hold : b < f.blocks.length
    · obtain ⟨init, last, hcode, hlast, hinit⟩ := hs.ends b hold
      have hall := h.code b hold
      rw [hcode] at hall
      obtain ⟨init', last', hinit', hlast', heq⟩ := edited_last hall
      refine ⟨init', last', heq, hlast'.isTerminator.trans hlast, ?_⟩
      intro i hi
      obtain ⟨j, hj, hedited⟩ := exists_edited hinit' hi
      rw [hedited.isTerminator]
      exact hinit j hj
    · obtain ⟨j, hcode, hop, -⟩ := h.edge
      have heq : b = f.blocks.length := by omega
      refine ⟨[], j, by rw [heq, hcode]; rfl, ?_, fun _ hi => absurd hi List.not_mem_nil⟩
      simp [Instruction.isTerminator, isTerminatorOpcode, hop]
  phi b i hi := by
    by_cases hold : b < f.blocks.length
    · obtain ⟨j, hj, hedited⟩ := exists_edited (split_edited (h.code b hold)).2 hi
      rw [hedited.opcode]
      exact hs.phi b j hj
    · have hmem : i ∈ g.code b := (List.dropWhile_suffix _).subset hi
      rcases h.mem_code hmem with hin | hnew
      · exact absurd hin.1 hold
      · rw [hnew.2.1]
        simp
  targets b i hi t ht := by
    rw [h.length]
    rcases h.mem_code hi with hin | hnew
    · obtain ⟨j, hj, hedited⟩ := hin.2
      rw [hedited.targets] at ht
      obtain ⟨u, hu, rfl⟩ := List.mem_map.mp ht
      have hle := turn_le (p := p) (q := q) (b := b) (i := j) (hedited.inside u hu)
      omega
    · rw [hnew.2.2] at ht
      rw [List.mem_singleton.mp ht]
      omega
  branch b i hi hop := by
    rcases h.mem_code hi with hin | hnew
    · obtain ⟨j, hj, hedited⟩ := hin.2
      rw [hedited.length]
      exact hs.branch b j hj (hedited.opcode.symm.trans hop)
    · rw [hnew.2.2]
      rfl

/-! ## All edges -/

/-- A block with PHIs. -/
def HasPhi (f : Function) (b : Nat) : Prop := ∃ i ∈ f.code b, i.opcode = .phi

/-- What has become of the function once the edges `done` have been visited. -/
structure Splitting (f g : Function) (done : List (Nat × Nat)) : Prop where
  shaped : Shaped g
  same : ∀ (W : Type) (perform : Perform W) (world : W), Machine.SameBehavior (machine perform f)
    (machine perform g) (start f world) (start g world)
  grows : f.blocks.length ≤ g.blocks.length
  fresh : ∀ b, f.blocks.length ≤ b → ∀ i ∈ g.code b, i.opcode = .branch
  kept : ∀ b < f.blocks.length, ∀ i ∈ g.code b, i.isTerminator = true → ∀ t < f.blocks.length, t ∈ i.targets →
    ∃ j ∈ f.code b, j.isTerminator = true ∧ t ∈ j.targets
  phi : ∀ b < f.blocks.length, HasPhi g b → HasPhi f b
  done : ∀ edge ∈ done, HasPhi g edge.2 → ∀ i ∈ g.code edge.1, i.isTerminator = true → edge.2 ∈ i.targets →
    i.opcode = .branch

theorem Splitting.start (hs : Shaped f) : Splitting f f [] where
  shaped := hs
  same _ _ _ := .refl _ _
  grows := Nat.le_refl _
  fresh b hb i hi := by
    rw [code_beyond hb] at hi
    cases hi
  kept _ _ i hi hterm _ _ ht := ⟨i, hi, hterm, ht⟩
  phi _ _ h := h
  done _ hedge := absurd hedge List.not_mem_nil

theorem Splits.hasPhi {g' : Function} (h : Splits p q g g') (hb : HasPhi g' b) : HasPhi g b := by
  obtain ⟨i, hi, hop⟩ := hb
  rcases h.mem_code hi with hin | hnew
  · obtain ⟨j, hj, hedited⟩ := hin.2
    exact ⟨j, hj, hedited.opcode.symm.trans hop⟩
  · rw [hnew.2.1] at hop
    cases hop

/-- Splitting one more edge. -/
theorem Splitting.split {done : List (Nat × Nat)} {g' : Function} (h : Splitting f g done)
    (hdone : ∀ edge ∈ done, edge.2 < f.blocks.length) (hq : q < f.blocks.length) (hs : Splits p q g g') :
    Splitting f g' (done ++ [(p, q)]) := by
  have hgrows := h.grows
  refine ⟨hs.shaped h.shaped (by omega), ?_, ?_, ?_, ?_, ?_, ?_⟩
  · intro W perform world
    exact (h.same W perform world).trans (hs.sameBehavior perform world)
  · rw [hs.length]
    omega
  · intro b hb i hi
    rcases hs.mem_code hi with hin | hnew
    · obtain ⟨j, hj, hedited⟩ := hin.2
      rw [hedited.opcode]
      exact h.fresh b hb j hj
    · exact hnew.2.1
  · intro b hb i hi hterm t ht hmem
    rcases hs.mem_code hi with hin | hnew
    · obtain ⟨j, hj, hedited⟩ := hin.2
      exact h.kept b hb j hj (hedited.isTerminator.symm.trans hterm) t ht (hedited.old_target hmem (by omega))
    · omega
  · intro b hb hphi
    exact h.phi b hb (hs.hasPhi hphi)
  · intro edge hedge hphi i hi hterm hmem
    rcases hs.mem_code hi with hin | hnew
    · obtain ⟨j, hj, hedited⟩ := hin.2
      have hterm' := hedited.isTerminator.symm.trans hterm
      cases List.mem_append.mp hedge with
      | inl hold =>
          have hlt := hdone edge hold
          rw [hedited.opcode]
          exact h.done edge hold (hs.hasPhi hphi) j hj hterm' (hedited.old_target hmem (by omega))
      | inr hlast =>
          rw [List.mem_singleton.mp hlast] at hedited hmem
          exact absurd hmem (hedited.gone hterm' (by omega))
    · exact hnew.2.1

/-- An edge that needs no block of its own. -/
theorem Splitting.skip {done : List (Nat × Nat)} (h : Splitting f g done)
    (hplain : HasPhi g q → ∀ i ∈ g.code p, i.isTerminator = true → q ∈ i.targets → i.opcode = .branch) :
    Splitting f g (done ++ [(p, q)]) := by
  refine ⟨h.shaped, h.same, h.grows, h.fresh, h.kept, h.phi, ?_⟩
  intro edge hedge
  cases List.mem_append.mp hedge with
  | inl hold => exact h.done edge hold
  | inr hlast =>
      rw [List.mem_singleton.mp hlast]
      exact hplain

theorem Splitting.visit {done : List (Nat × Nat)} {g' : Function} (h : Splitting f g done)
    (hdone : ∀ edge ∈ done, edge.2 < f.blocks.length) (hq : q < f.blocks.length) (hp : p < f.blocks.length)
    (hvisit : splitEdgeFrom f q g p = .ok g') : Splitting f g' (done ++ [(p, q)]) := by
  have hgrows := h.grows
  obtain ⟨init, last, hcode, hlast, hinit⟩ := h.shaped.ends p (by omega)
  unfold splitEdgeFrom at hvisit
  rw [hcode, List.getLast?_append, List.getLast?_singleton] at hvisit
  simp only [Option.some_or] at hvisit
  split at hvisit
  · next hplain =>
      cases hvisit
      refine h.skip fun _ i hi hterm _ => ?_
      rw [hcode] at hi
      cases List.mem_append.mp hi with
      | inl hin =>
          rw [hinit i hin] at hterm
          cases hterm
      | inr hend =>
          rw [List.mem_singleton.mp hend]
          exact hplain.1
  · simp only [rejectIf_bind_eq_ok] at hvisit
    cases hvisit.2
    exact h.split hdone hq (splitEdge_splits h.shaped)

theorem Splitting.visits {done : List (Nat × Nat)} {g' : Function} {sources : List Nat} (h : Splitting f g done)
    (hdone : ∀ edge ∈ done, edge.2 < f.blocks.length) (hq : q < f.blocks.length)
    (hsources : ∀ p ∈ sources, p < f.blocks.length)
    (hfold : foldAll (splitEdgeFrom f q) g sources = .ok g') :
    Splitting f g' (done ++ sources.map fun p => (p, q)) := by
  induction sources generalizing g done with
  | nil =>
      cases hfold
      rw [List.map_nil, List.append_nil]
      exact h
  | cons p rest ih =>
      obtain ⟨middle, hvisit, hfold⟩ := bind_eq_ok.mp hfold
      have hmiddle := h.visit hdone hq (hsources p List.mem_cons_self) hvisit
      have hrest := ih hmiddle ?_ (fun c hc => hsources c (List.mem_cons_of_mem _ hc)) hfold
      · rw [List.append_assoc] at hrest
        exact hrest
      · intro edge hedge
        cases List.mem_append.mp hedge with
        | inl hold => exact hdone edge hold
        | inr hlast =>
            rw [List.mem_singleton.mp hlast]
            exact hq

theorem Splitting.skips {done : List (Nat × Nat)} {sources : List Nat} (h : Splitting f g done)
    (hphi : ¬ HasPhi g q) : Splitting f g (done ++ sources.map fun p => (p, q)) := by
  induction sources generalizing done with
  | nil =>
      rw [List.map_nil, List.append_nil]
      exact h
  | cons p rest ih =>
      have hrest := ih (h.skip (p := p) fun hhas => absurd hhas hphi)
      rw [List.append_assoc] at hrest
      exact hrest

theorem lt_of_mem_predecessors (hmem : p ∈ ControlFlow.predecessors f q) : p < f.blocks.length :=
  List.mem_range.mp (List.mem_filter.mp hmem).1

/-- All edges into one block. -/
theorem Splitting.into {done : List (Nat × Nat)} {g' : Function} (h : Splitting f g done)
    (hdone : ∀ edge ∈ done, edge.2 < f.blocks.length) (hq : q < f.blocks.length)
    (hvisit : splitEdgesInto f g q = .ok g') :
    Splitting f g' (done ++ (ControlFlow.predecessors f q).map fun p => (p, q)) := by
  have hgrows := h.grows
  have hnone : (∀ i, (g.code q).head? = some i → i.opcode ≠ .phi) → ¬ HasPhi g q := by
    intro hfirst hhas
    obtain ⟨i, hi, hop⟩ := hhas
    cases hcode : g.code q with
    | nil =>
        rw [hcode] at hi
        cases hi
    | cons first rest =>
        have hbody : body (g.code q) = g.code q := by
          have hno := hfirst first (by rw [hcode]; rfl)
          simp [body, hcode, hno]
        exact h.shaped.phi q i (by rw [hbody]; exact hi) hop
  unfold splitEdgesInto at hvisit
  split at hvisit
  · next hhead =>
      cases hvisit
      refine h.skips (hnone fun i hi => ?_)
      rw [hhead] at hi
      cases hi
  · next first hhead =>
      split at hvisit
      · exact h.visits hdone hq (fun p hp => lt_of_mem_predecessors hp) hvisit
      · next hno =>
          cases hvisit
          refine h.skips (hnone fun i hi => ?_)
          rw [hhead] at hi
          cases hi
          exact hno

theorem Splitting.all {done : List (Nat × Nat)} {g' : Function} {blocks : List Nat} (h : Splitting f g done)
    (hdone : ∀ edge ∈ done, edge.2 < f.blocks.length) (hblocks : ∀ q ∈ blocks, q < f.blocks.length)
    (hfold : foldAll (splitEdgesInto f) g blocks = .ok g') :
    Splitting f g' (done ++ blocks.flatMap fun q => (ControlFlow.predecessors f q).map fun p => (p, q)) := by
  induction blocks generalizing g done with
  | nil =>
      cases hfold
      rw [List.flatMap_nil, List.append_nil]
      exact h
  | cons q rest ih =>
      obtain ⟨middle, hvisit, hfold⟩ := bind_eq_ok.mp hfold
      have hq := hblocks q List.mem_cons_self
      have hrest := ih (h.into hdone hq hvisit) ?_ (fun c hc => hblocks c (List.mem_cons_of_mem _ hc)) hfold
      · rw [List.append_assoc] at hrest
        exact hrest
      · intro edge hedge
        cases List.mem_append.mp hedge with
        | inl hold => exact hdone edge hold
        | inr hnew =>
            obtain ⟨p, -, rfl⟩ := List.mem_map.mp hnew
            exact hq

end Split

theorem splitting_of_splitPhiEdges {f g : Function} (hv : Verified f) (h : splitPhiEdges f = .ok g) :
    Splitting f g ((List.range f.blocks.length).flatMap fun q =>
      (ControlFlow.predecessors f q).map fun p => (p, q)) := by
  unfold splitPhiEdges at h
  obtain ⟨cfg, -, h⟩ := bind_eq_ok.mp h
  have hall := (Splitting.start (shaped_of_verified hv)).all (fun edge hedge => absurd hedge List.not_mem_nil)
    (fun q hq => List.mem_range.mp hq) h
  rw [List.nil_append] at hall
  exact hall

/-- Edges into a block with PHIs come from branches that go nowhere else. -/
def CopyEdges (g : Function) : Prop :=
  ∀ p q, HasPhi g q → ∀ i ∈ g.code p, i.isTerminator = true → q ∈ i.targets →
    i.opcode = .branch ∧ i.targets = [q]

end EdgeSplit

open EdgeSplit

/-- Blocks on edges do not change what the function does. -/
theorem splitPhiEdges_sound {m : Module} {f g : Function} (h : verify m = .ok ()) (hf : f ∈ m.functions)
    (hsplit : splitPhiEdges f = .ok g) (W : Type) (perform : Perform W) (world : W) :
    Machine.SameBehavior (machine perform g) (machine perform f) (start g world) (start f world) := by
  have hv := verified_of_verifyFunction (verifyFunction_of_verify h hf)
  exact ((splitting_of_splitPhiEdges hv hsplit).same W perform world).symm

/-- Afterwards every edge into a block with PHIs is a place for copies. -/
theorem splitPhiEdges_copyEdges {m : Module} {f g : Function} (h : verify m = .ok ()) (hf : f ∈ m.functions)
    (hsplit : splitPhiEdges f = .ok g) : CopyEdges g := by
  have hs := splitting_of_splitPhiEdges (verified_of_verifyFunction (verifyFunction_of_verify h hf)) hsplit
  intro p q hphi i hi hterm hmem
  have hq : q < f.blocks.length := by
    by_contra hbeyond
    obtain ⟨j, hj, hop⟩ := hphi
    rw [hs.fresh q (by omega) j hj] at hop
    cases hop
  have hop : i.opcode = .branch := by
    by_cases hp : p < f.blocks.length
    · obtain ⟨j, hj, hterm', hmem'⟩ := hs.kept p hp i hi hterm q hq hmem
      have hne : j.opcode ≠ .phi := by
        intro hop
        rw [not_terminator_of_phi hop] at hterm'
        cases hterm'
      have hedge : p ∈ ControlFlow.predecessors f q :=
        ControlFlow.mem_predecessors.mpr (mem_successors.mpr ⟨j, hj, hne, hmem'⟩)
      refine hs.done (p, q) ?_ hphi i hi hterm hmem
      exact List.mem_flatMap.mpr ⟨q, List.mem_range.mpr hq, List.mem_map.mpr ⟨p, hedge, rfl⟩⟩
    · exact hs.fresh p (by omega) i hi
  refine ⟨hop, ?_⟩
  obtain ⟨t, ht⟩ := List.length_eq_one_iff.mp (hs.shaped.branch p i hi hop)
  rw [ht] at hmem ⊢
  rw [List.mem_singleton.mp hmem]

/-- A value chosen by a condition that skips one block. -/
def chosenValue : Function where
  name := "f"
  returnType := { base := .word
                  sizeInBytes := 2 }
  entry := 0
  valueCount := 4
  blocks :=
    [{ id := 0
       instructions :=
        [{ opcode := .call
           type := { base := .bool
                     sizeInBytes := 1 }
           result := 1
           symbol := "g" },
          { opcode := .constant
            type := { base := .word
                      sizeInBytes := 2 }
            result := 2
            immediate := 7 },
          { opcode := .condBranch
            operands := [1]
            targets := [1, 2] }] },
      { id := 1
        instructions :=
        [{ opcode := .constant
           type := { base := .word
                     sizeInBytes := 2 }
           result := 3
           immediate := 9 },
          { opcode := .branch
            targets := [2] }] },
      { id := 2
        instructions :=
        [{ opcode := .phi
           type := { base := .word
                     sizeInBytes := 2 }
           result := 4
           operands := [2, 3]
           targets := [0, 1] },
          { opcode := .ret
            operands := [4] }] }]

theorem chosenValue_verified : verify { functions := [chosenValue] } = .ok () := by decide +kernel

/-- The edge that skips the block gets one of its own; the branch keeps its edge. -/
theorem chosenValue_split : (splitPhiEdges chosenValue).map (fun g => g.code 3) =
    .ok [{ opcode := .branch
           targets := [2] }] := by
  decide +kernel

theorem splitPhiEdges_sound_chosenValue :
    ∃ g, splitPhiEdges chosenValue = .ok g ∧ ∀ (W : Type) (perform : Perform W) (world : W),
      Machine.SameBehavior (machine perform g) (machine perform chosenValue) (start g world)
        (start chosenValue world) := by
  cases hsplit : splitPhiEdges chosenValue with
  | error e =>
      have hcode := chosenValue_split
      rw [hsplit] at hcode
      cases hcode
  | ok g => exact ⟨g, rfl, splitPhiEdges_sound chosenValue_verified List.mem_cons_self hsplit⟩

theorem splitPhiEdges_copyEdges_chosenValue : ∃ g, splitPhiEdges chosenValue = .ok g ∧ CopyEdges g := by
  cases hsplit : splitPhiEdges chosenValue with
  | error e =>
      have hcode := chosenValue_split
      rw [hsplit] at hcode
      cases hcode
  | ok g => exact ⟨g, rfl, splitPhiEdges_copyEdges chosenValue_verified List.mem_cons_self hsplit⟩

end Disco.IR
