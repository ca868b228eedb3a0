import Disco.IR.Scopes
import Disco.IR.Semantics

/-! # Executions of accepted functions

Executions are followed together with what they have done so far: the values
they have defined and the hardware loops they have open. The verifier's checks
are about the graph; the invariant below ties them to every path through it,
also to the backedges of hidden loops, which the graph does not have.
-/

namespace Disco.IR

open Library Verifier

/-! ## Executions with their history -/

/-- What a path has done; the innermost open loop comes first. -/
structure History where
  defined : List Nat := []
  opened : List Nat := []
  deriving DecidableEq, Repr

/-- Whether an instruction closes the innermost loop: a leave always does, a
hidden end when its counter runs out. -/
def closes (i : Instruction) (loops : List LoopFrame) : Bool :=
  match i.opcode with
  | .hardwareLoopLeave => true
  | .hardwareLoopEnd => i.targets.isEmpty && loops.head?.all fun frame => countDown frame.count == 0
  | _ => false

/-- The history behind an instruction. The edge of a terminator also defines
the PHIs of its block. -/
def History.after (history : History) (f : Function) (i : Instruction) (loops : List LoopFrame)
    (target : Nat) : History where
  defined := (if i.isTerminator then (phis (f.code target)).map Instruction.result else []) ++
    i.result :: history.defined
  opened :=
    if i.opcode = .hardwareLoop then i.loopId :: history.opened
    else if closes i loops then history.opened.tail else history.opened

section Executions

variable {W : Type}

/-- Executions from the entry. -/
inductive Execution (perform : Perform W) (f : Function) (world : W) : State W → History → Prop where
  | start : Execution perform f world (start f world) {}
  | next {s t : State W} {history : History} {i : Instruction} {rest : List Instruction}
      (before : Execution perform f world s history) (code : s.code = i :: rest)
      (step : step perform f s = .ok t) :
      Execution perform f world t (history.after f i s.loops t.block)

/-- What an instruction finds when control reaches it. -/
structure Guarded (f : Function) (s : State W) (history : History) (i : Instruction) : Prop where
  operands : ∀ v ∈ i.operands, v ∈ history.defined
  targets : ∀ target ∈ i.targets, target < f.blocks.length
  selects : i.isTerminator = true → ∀ target ∈ i.targets, ∀ phi ∈ phis (f.code target),
    phi.targets.count s.block = 1 ∧ phi.incoming s.block ∈ history.defined
  matched : i.opcode = .hardwareLoopEnd ∨ i.opcode = .hardwareLoopLeave →
    history.opened.head? = some i.loopId
  returns : i.opcode = .ret ∨ i.opcode = .returnVoid → history.opened = []
  frames : s.loops.length = history.opened.length

/-- Control is at an instruction that finds all it needs, and the execution
goes on, returns, or is stopped by a trap, by the machine around it or by an
`unreachable`. -/
def Sound (perform : Perform W) (f : Function) (s : State W) (history : History) : Prop :=
  s.block < f.blocks.length ∧ ∃ i rest, s.code = i :: rest ∧ Guarded f s history i ∧
    ∀ halt, step perform f s = .error halt →
      halt ≠ .unmatched ∧ (halt = .stuck → i.opcode = .unreachable)

/-! ## Moves -/

/-- Where an instruction takes control. -/
inductive Move (f : Function) (s : State W) (i : Instruction) (rest : List Instruction)
    (t : State W) : Prop where
  | falls (plain : isLoopOpcode i.opcode = false) (terminator : isTerminatorOpcode i.opcode = false)
      (block : t.block = s.block) (code : t.code = rest) (loops : t.loops = s.loops)
  | jumps (terminator : isTerminatorOpcode i.opcode = true) (target : t.block ∈ i.targets)
      (code : t.code = body (f.code t.block)) (loops : t.loops = s.loops)
  | hides (count : Nat) (opcode : i.opcode = .hardwareLoop) (hidden : i.targets = [])
      (block : t.block = s.block) (code : t.code = rest)
      (loops : t.loops = ⟨count, some (s.block, rest)⟩ :: s.loops)
  | exposes (count : Nat) (opcode : i.opcode = .hardwareLoop) (target : t.block ∈ i.targets)
      (code : t.code = body (f.code t.block)) (loops : t.loops = ⟨count, none⟩ :: s.loops)
  | runsOut (frame : LoopFrame) (opcode : i.opcode = .hardwareLoopEnd) (hidden : i.targets = [])
      (before : s.loops = frame :: t.loops) (zero : countDown frame.count = 0)
      (block : t.block = s.block) (code : t.code = rest)
  | repeats (frame : LoopFrame) (outer : List LoopFrame) (opcode : i.opcode = .hardwareLoopEnd)
      (hidden : i.targets = []) (before : s.loops = frame :: outer)
      (nonzero : countDown frame.count ≠ 0) (resume : frame.resume = some (t.block, t.code))
      (loops : t.loops = { frame with count := countDown frame.count } :: outer)
  | turns (frame : LoopFrame) (outer : List LoopFrame) (opcode : i.opcode = .hardwareLoopEnd)
      (before : s.loops = frame :: outer) (target : t.block ∈ i.targets)
      (code : t.code = body (f.code t.block))
      (loops : t.loops = { frame with count := countDown frame.count } :: outer)
  | leaves (opcode : i.opcode = .hardwareLoopLeave) (block : t.block = s.block)
      (code : t.code = rest) (loops : t.loops = s.loops.tail)

theorem jump_moves {f : Function} {i : Instruction} {selected : Nat} {s t : State W}
    (h : jump f i selected s = .ok t) :
    t.block ∈ i.targets ∧ t.code = body (f.code t.block) ∧ t.loops = s.loops := by
  unfold jump at h
  cases htarget : i.targets[selected]? with
  | none =>
      rw [htarget] at h
      cases h
  | some target =>
      rw [htarget] at h
      cases h
      exact ⟨List.mem_of_getElem? htarget, rfl, rfl⟩

theorem execute_keeps {perform : Perform W} {i : Instruction} {s u : State W}
    (h : execute perform i s = .ok u) : u.block = s.block ∧ u.loops = s.loops := by
  obtain ⟨produced, -, hdone⟩ := bind_eq_ok.mp h
  cases hdone
  exact ⟨rfl, rfl⟩

/-- A step is one of the moves. -/
theorem step_moves {perform : Perform W} {f : Function} {s t : State W} {i : Instruction}
    {rest : List Instruction} (hcode : s.code = i :: rest) (h : step perform f s = .ok t) :
    Move f s i rest t := by
  unfold step at h
  rw [hcode] at h
  dsimp only at h
  by_cases hterm : isTerminatorOpcode i.opcode = true
  · rw [if_pos hterm] at h
    obtain ⟨selected, -, h⟩ := bind_eq_ok.mp h
    rcases jump_moves h with ⟨htarget, hbody, hloops⟩
    exact .jumps hterm htarget hbody hloops
  rw [if_neg hterm] at h
  obtain ⟨u, hu, h⟩ := bind_eq_ok.mp h
  rcases execute_keeps hu with ⟨hblock, hloops⟩
  unfold proceed at h
  split at h
  · rename_i hop
    unfold enterLoop at h
    dsimp only at h
    by_cases hhidden : i.targets.isEmpty = true
    · rw [if_pos hhidden] at h
      cases h
      refine .hides (((s.arguments i).getD 0 0 % 0x10000).toNat) hop (List.isEmpty_iff.mp hhidden)
        hblock rfl ?_
      dsimp only
      rw [hblock, hloops]
    · rw [if_neg hhidden] at h
      rcases jump_moves h with ⟨htarget, hbody, hpushed⟩
      refine .exposes (((s.arguments i).getD 0 0 % 0x10000).toNat) hop htarget hbody
        (hpushed.trans ?_)
      dsimp only
      rw [hloops]
  · rename_i hop
    unfold repeatLoop at h
    rw [hloops] at h
    cases hframes : s.loops with
    | nil =>
        rw [hframes] at h
        cases h
    | cons frame outer =>
        rw [hframes] at h
        dsimp only at h
        by_cases hhidden : i.targets.isEmpty = true
        · rw [if_pos hhidden] at h
          by_cases hzero : countDown frame.count = 0
          · rw [if_pos hzero] at h
            cases h
            exact .runsOut frame hop (List.isEmpty_iff.mp hhidden) hframes hzero hblock rfl
          · rw [if_neg hzero] at h
            cases hresume : frame.resume with
            | none =>
                rw [hresume] at h
                cases h
            | some place =>
                rw [hresume] at h
                cases h
                exact .repeats frame outer hop (List.isEmpty_iff.mp hhidden) hframes hzero hresume
                  (by rw [hresume])
        · rw [if_neg hhidden] at h
          rcases jump_moves h with ⟨htarget, hbody, hturned⟩
          exact .turns frame outer hop hframes htarget hbody hturned
  · rename_i hop
    cases h
    refine .leaves hop hblock rfl ?_
    dsimp only
    rw [hloops]
  · rename_i hsetup hend hleave
    cases h
    have hplain : isLoopOpcode i.opcode = false := by
      unfold isLoopOpcode
      apply decide_eq_false
      rintro (hop | hop | hop)
      · exact hsetup hop
      · exact hend hop
      · exact hleave hop
    exact .falls hplain (by simpa using hterm) hblock rfl hloops

end Executions

/-! ## Positions -/

theorem drop_phis (code : List Instruction) : code.drop (phis code).length = body code := by
  have hsplit := phis_append_body code
  calc code.drop (phis code).length
      = (phis code ++ body code).drop (phis code).length := by rw [hsplit]
    _ = body code := List.drop_left

theorem take_phis (code : List Instruction) : code.take (phis code).length = phis code := by
  have hsplit := phis_append_body code
  calc code.take (phis code).length
      = (phis code ++ body code).take (phis code).length := by rw [hsplit]
    _ = phis code := List.take_left

/-- A position in a block that is reached, behind its PHIs. -/
structure At (f : Function) (b k : Nat) (code : List Instruction) : Prop where
  reached : Reached (flow f) f.entry b
  code : code = (f.code b).drop k
  behind : (phis (f.code b)).length ≤ k
  inside : k < (f.code b).length

/-- Every value whose definition dominates a position is among these. -/
def DefinedAt (f : Function) (b k : Nat) (defined : List Nat) : Prop :=
  ∀ site ∈ f.sites, site.instruction.result ≠ 0 → Dominates (flow f) f.entry site.block b →
    (site.block = b → site.position < k) → site.instruction.result ∈ defined

/-- The loops that are open at a position. -/
def OpenAt (f : Function) (scopes : Nat → List Nat) (b k : Nat) (opened : List Nat) : Prop :=
  foldAll activeLoops (scopes b) ((f.code b).take k) = .ok opened

/-- A frame of a hidden loop resumes behind the setup of the loop. -/
structure Resumes (f : Function) (scopes : Nat → List Nat) (defined : List Nat) (setup : Site)
    (frame : LoopFrame) (opened : List Nat) : Prop where
  resume : frame.resume =
    some (setup.block, (f.code setup.block).drop (setup.position + 1))
  position : At f setup.block (setup.position + 1) ((f.code setup.block).drop (setup.position + 1))
  defined : DefinedAt f setup.block (setup.position + 1) defined
  opened : OpenAt f scopes setup.block (setup.position + 1) opened

/-- The frames of the open loops. -/
inductive Frames (f : Function) (scopes : Nat → List Nat) (defined : List Nat) :
    List LoopFrame → List Nat → Prop where
  | nil : Frames f scopes defined [] []
  | cons {frame : LoopFrame} {frames : List LoopFrame} {opened : List Nat} (setup : Site)
      (mem : setup ∈ f.sites) (opcode : setup.instruction.opcode = .hardwareLoop)
      (resumes : setup.instruction.targets = [] →
        Resumes f scopes defined setup frame (setup.instruction.loopId :: opened))
      (outer : Frames f scopes defined frames opened) :
      Frames f scopes defined (frame :: frames) (setup.instruction.loopId :: opened)

section Positions

variable {f : Function} {scopes : Nat → List Nat} {defined more opened : List Nat}

theorem DefinedAt.mono {b k : Nat} (h : DefinedAt f b k defined) (hsub : ∀ v ∈ defined, v ∈ more) :
    DefinedAt f b k more :=
  fun site hsite hne hdom hbefore => hsub _ (h site hsite hne hdom hbefore)

theorem Frames.mono {frames : List LoopFrame} (h : Frames f scopes defined frames opened)
    (hsub : ∀ v ∈ defined, v ∈ more) : Frames f scopes more frames opened := by
  induction h with
  | nil => exact .nil
  | cons setup hmem hop hresumes _ ih =>
      refine .cons setup hmem hop (fun hhidden => ?_) ih
      have hframe := hresumes hhidden
      exact ⟨hframe.resume, hframe.position, hframe.defined.mono hsub, hframe.opened⟩

theorem Frames.length_eq {frames : List LoopFrame} (h : Frames f scopes defined frames opened) :
    frames.length = opened.length := by
  induction h with
  | nil => rfl
  | cons _ _ _ _ _ ih => rw [List.length_cons, List.length_cons, ih]

/-- The counter of a loop is nothing that a frame is asked for. -/
theorem Frames.counted {frame : LoopFrame} {outer : List LoopFrame}
    (h : Frames f scopes defined (frame :: outer) opened) (count : Nat) :
    Frames f scopes defined ({ frame with count := count } :: outer) opened := by
  cases h with
  | cons setup hmem hop hresumes houter =>
      refine .cons setup hmem hop (fun hhidden => ?_) houter
      have hframe := hresumes hhidden
      exact ⟨hframe.resume, hframe.position, hframe.defined, hframe.opened⟩

/-- The setup of the innermost loop. -/
theorem Frames.top {frame : LoopFrame} {outer : List LoopFrame}
    (h : Frames f scopes defined (frame :: outer) opened) : ∃ setup ∈ f.sites,
      setup.instruction.opcode = .hardwareLoop ∧
      opened.head? = some setup.instruction.loopId ∧
      (setup.instruction.targets = [] → Resumes f scopes defined setup frame opened) := by
  cases h with
  | cons setup hmem hop hresumes _ => exact ⟨setup, hmem, hop, rfl, hresumes⟩

theorem Frames.tail {frames : List LoopFrame} (h : Frames f scopes defined frames opened) :
    Frames f scopes defined frames.tail opened.tail := by
  cases h with
  | nil => exact .nil
  | cons _ _ _ _ houter => exact houter

variable {b k : Nat} {code rest : List Instruction} {i : Instruction}

theorem At.instruction (h : At f b k code) (hcode : code = i :: rest) :
    (f.code b)[k]? = some i ∧ rest = (f.code b).drop (k + 1) := by
  have hdrop : (f.code b).drop k = i :: rest := h.code.symm.trans hcode
  constructor
  · have hget := congrArg List.head? hdrop
    rwa [List.head?_drop] at hget
  · have htail := congrArg List.tail hdrop
    rw [List.tail_drop] at htail
    exact htail.symm

theorem At.mem_body (h : At f b k code) (hcode : code = i :: rest) : i ∈ body (f.code b) := by
  rw [← drop_phis]
  have hsplit : (f.code b).drop k = ((f.code b).drop (phis (f.code b)).length).drop
      (k - (phis (f.code b)).length) := by
    rw [List.drop_drop, Nat.add_sub_cancel' h.behind]
  have hmem : i ∈ (f.code b).drop k := by
    rw [← h.code, hcode]
    exact List.mem_cons_self
  rw [hsplit] at hmem
  exact List.mem_of_mem_drop hmem

theorem At.lt (h : At f b k code) : b < f.blocks.length := by
  have hget := List.getElem?_eq_getElem h.inside
  exact lt_of_mem_code (List.mem_of_getElem? hget)

/-- A terminator is the last instruction, and only the last one is one. -/
theorem At.terminator_iff (hv : Verified f) (h : At f b k code) (hi : (f.code b)[k]? = some i) :
    i.isTerminator = true ↔ k + 1 = (f.code b).length := by
  obtain ⟨init, last, hcode, hlast, hinit⟩ := hv.terminated h.lt
  rw [hcode] at hi
  rw [hcode, List.length_append, List.length_singleton]
  have hk : k < (init ++ [last]).length := (List.getElem?_eq_some_iff.mp hi).1
  rw [List.length_append, List.length_singleton] at hk
  by_cases hlt : k < init.length
  · rw [List.getElem?_append_left hlt] at hi
    rw [hinit i (List.mem_of_getElem? hi)]
    constructor
    · intro h
      cases h
    · intro h
      omega
  · have heq : k = init.length := by omega
    subst heq
    rw [List.getElem?_append_right le_rfl, Nat.sub_self] at hi
    cases hi
    exact ⟨fun _ => rfl, fun _ => hlast⟩

/-- The next instruction of the block. -/
theorem At.next (hv : Verified f) (h : At f b k code) (hcode : code = i :: rest)
    (hterm : i.isTerminator = false) : At f b (k + 1) rest := by
  rcases h.instruction hcode with ⟨hi, hrest⟩
  have hnot : k + 1 ≠ (f.code b).length := by
    intro heq
    rw [(h.terminator_iff hv hi).mpr heq] at hterm
    cases hterm
  have hinside := h.inside
  exact ⟨h.reached, hrest, Nat.le_succ_of_le h.behind, by omega⟩

/-- The start of a block that is reached. -/
theorem at_start (hv : Verified f) (hlt : b < f.blocks.length) (hreached : Reached (flow f) f.entry b) :
    At f b (phis (f.code b)).length (body (f.code b)) := by
  refine ⟨hreached, (drop_phis _).symm, le_rfl, ?_⟩
  obtain ⟨init, last, hcode, hlast, -⟩ := hv.terminated hlt
  by_contra hge
  have hphis : phis (f.code b) = f.code b := by
    rw [← take_phis]
    exact List.take_of_length_le (by omega)
  have hmem : last ∈ phis (f.code b) := by
    rw [hphis, hcode]
    exact List.mem_append_right _ (List.mem_singleton_self last)
  have hphi : last.opcode = .phi := by simpa using List.mem_takeWhile_imp hmem
  unfold Instruction.isTerminator at hlast
  rw [hphi] at hlast
  cases hlast

/-- Behind an instruction its result is defined. -/
theorem DefinedAt.next (h : DefinedAt f b k defined) (hi : (f.code b)[k]? = some i) :
    DefinedAt f b (k + 1) (i.result :: defined) := by
  intro site hsite hne hdom hbefore
  by_cases hhere : site.block = b ∧ site.position = k
  · have hget := mem_sites.mp hsite
    rw [hhere.1, hhere.2, hi] at hget
    cases hget
    exact List.mem_cons_self
  · refine List.mem_cons_of_mem _ (h site hsite hne hdom ?_)
    intro hblock
    have hlt := hbefore hblock
    have hne : site.position ≠ k := fun heq => hhere ⟨hblock, heq⟩
    omega

/-- Along an edge the PHIs of the target are defined. -/
theorem DefinedAt.edge {target : Nat} (h : DefinedAt f b (f.code b).length defined)
    (hedge : flow f b target) : DefinedAt f target (phis (f.code target)).length
      ((phis (f.code target)).map Instruction.result ++ defined) := by
  intro site hsite hne hdom hbefore
  have hget := mem_sites.mp hsite
  by_cases hhere : site.block = target
  · have hlt := hbefore hhere
    rw [hhere, ← phis_append_body (f.code target), List.getElem?_append_left hlt] at hget
    exact List.mem_append_left _ (List.mem_map_of_mem (List.mem_of_getElem? hget))
  · refine List.mem_append_right _ (h site hsite hne (hdom.predecessor hedge (Ne.symm hhere)) ?_)
    intro hblock
    rw [hblock] at hget
    exact (List.getElem?_eq_some_iff.mp hget).1

/-- The open loops behind an instruction. -/
theorem OpenAt.next (hs : Scoped f scopes) (hreached : Reached (flow f) f.entry b)
    (h : OpenAt f scopes b k opened) (hi : (f.code b)[k]? = some i) :
    ∃ after, activeLoops opened i = .ok after ∧ OpenAt f scopes b (k + 1) after := by
  obtain ⟨active, hfold, -⟩ := hs.ends b hreached
  have hsplit : f.code b = (f.code b).take k ++ i :: (f.code b).drop (k + 1) := by
    obtain ⟨hlt, hget⟩ := List.getElem?_eq_some_iff.mp hi
    rw [← hget, List.getElem_cons_drop, List.take_append_drop]
  rw [hsplit, foldAll_append, show foldAll activeLoops (scopes b) ((f.code b).take k) = .ok opened from h,
    ok_bind] at hfold
  obtain ⟨after, hafter, -⟩ := bind_eq_ok.mp hfold
  refine ⟨after, hafter, ?_⟩
  unfold OpenAt
  rw [List.take_add_one, hi, foldAll_append,
    show foldAll activeLoops (scopes b) ((f.code b).take k) = .ok opened from h, ok_bind]
  show foldAll activeLoops opened [i] = .ok after
  unfold foldAll
  rw [hafter, ok_bind]
  rfl

/-- Every edge hands on the loops that are open at the end of its block. -/
theorem OpenAt.edge {target : Nat} (hs : Scoped f scopes) (hreached : Reached (flow f) f.entry b)
    (h : OpenAt f scopes b (f.code b).length opened) (hedge : flow f b target) :
    OpenAt f scopes target (phis (f.code target)).length opened := by
  obtain ⟨active, hfold, hsuccessors, -⟩ := hs.ends b hreached
  unfold OpenAt at h ⊢
  rw [List.take_length, hfold] at h
  cases h
  rw [take_phis, hsuccessors target hedge]
  apply foldAll_activeLoops_other
  intro i hi
  have hphi : i.opcode = .phi := by simpa using List.mem_takeWhile_imp hi
  rw [hphi]
  rfl

end Positions

/-! ## Loop operations and the open loops -/

section Opened

variable {i : Instruction} {opened after : List Nat}

theorem activeLoops_setup (hop : i.opcode = .hardwareLoop) (h : activeLoops opened i = .ok after) :
    after = i.loopId :: opened := by
  unfold activeLoops at h
  rw [hop] at h
  exact (pure_eq_ok.mp (rejectIf_bind_eq_ok.mp h).2).symm

theorem activeLoops_end (hop : i.opcode = .hardwareLoopEnd) (h : activeLoops opened i = .ok after) :
    opened.head? = some i.loopId ∧ after = if i.targets = [] then opened.tail else opened := by
  unfold activeLoops at h
  rw [hop] at h
  rcases rejectIf_bind_eq_ok.mp h with ⟨hhead, hafter⟩
  refine ⟨not_not.mp hhead, ?_⟩
  rw [← pure_eq_ok.mp hafter]
  simp

theorem activeLoops_leave (hop : i.opcode = .hardwareLoopLeave) (h : activeLoops opened i = .ok after) :
    opened.head? = some i.loopId ∧ after = opened.tail := by
  unfold activeLoops at h
  rw [hop] at h
  rcases rejectIf_bind_eq_ok.mp h with ⟨hhead, hafter⟩
  refine ⟨not_not.mp hhead, ?_⟩
  rw [← pure_eq_ok.mp hafter]
  simp

end Opened

/-! ## The invariant -/

section Invariants

variable {W : Type} {f : Function} {scopes : Nat → List Nat} {s t : State W} {history : History}
  {i : Instruction} {rest : List Instruction}

/-- Control is where all dominating definitions have been executed, with the
loops open that the graph says. -/
structure Invariant (f : Function) (scopes : Nat → List Nat) (s : State W) (history : History) :
    Prop where
  position : ∃ k, At f s.block k s.code ∧ DefinedAt f s.block k history.defined ∧
    OpenAt f scopes s.block k history.opened
  frames : Frames f scopes history.defined s.loops history.opened

theorem isTerminator_plain (hterm : isTerminatorOpcode i.opcode = false)
    (hop : (i.opcode = .hardwareLoop ∨ i.opcode = .hardwareLoopEnd) → i.targets = []) :
    i.isTerminator = false := by
  unfold Instruction.isTerminator
  rw [hterm, Bool.false_or]
  by_cases hloop : i.opcode = .hardwareLoop ∨ i.opcode = .hardwareLoopEnd
  · rw [hop hloop]
    simp
  · rw [decide_eq_false hloop]
    rfl

theorem isTerminator_edge {target : Nat} (htarget : target ∈ i.targets)
    (hop : isTerminatorOpcode i.opcode = true ∨ i.opcode = .hardwareLoop ∨
      i.opcode = .hardwareLoopEnd) : i.isTerminator = true := by
  unfold Instruction.isTerminator
  rcases hop with hop | hop
  · rw [hop, Bool.true_or]
  · have hsome : i.targets.isEmpty = false := by
      cases hlist : i.targets with
      | nil =>
          rw [hlist] at htarget
          cases htarget
      | cons first others => rfl
    rw [decide_eq_true hop, hsome]
    simp

theorem after_defined_plain (hterm : i.isTerminator = false) (loops : List LoopFrame) (target : Nat) :
    (history.after f i loops target).defined = i.result :: history.defined := by
  unfold History.after
  dsimp only
  rw [hterm]
  rfl

theorem after_defined_edge (hterm : i.isTerminator = true) (loops : List LoopFrame) (target : Nat) :
    (history.after f i loops target).defined =
      (phis (f.code target)).map Instruction.result ++ i.result :: history.defined := by
  unfold History.after
  dsimp only
  rw [hterm]
  rfl

theorem after_defined_sub (loops : List LoopFrame) (target : Nat) :
    ∀ v ∈ history.defined, v ∈ (history.after f i loops target).defined :=
  fun _ hv => List.mem_append_right _ (List.mem_cons_of_mem _ hv)

theorem after_opened_setup (hop : i.opcode = .hardwareLoop) (loops : List LoopFrame) (target : Nat) :
    (history.after f i loops target).opened = i.loopId :: history.opened := if_pos hop

theorem after_opened_closes (hop : i.opcode ≠ .hardwareLoop) {loops : List LoopFrame}
    (h : closes i loops = true) (target : Nat) :
    (history.after f i loops target).opened = history.opened.tail :=
  (if_neg hop).trans (if_pos h)

theorem after_opened_stays (hop : i.opcode ≠ .hardwareLoop) {loops : List LoopFrame}
    (h : closes i loops = false) (target : Nat) :
    (history.after f i loops target).opened = history.opened :=
  (if_neg hop).trans (if_neg (by rw [h]; decide))

theorem closes_hidden (hop : i.opcode = .hardwareLoopEnd) (hhidden : i.targets = [])
    (frame : LoopFrame) (outer : List LoopFrame) :
    closes i (frame :: outer) = decide (countDown frame.count = 0) := by
  unfold closes
  rw [hop, hhidden]
  simp only [List.head?_cons, Option.all_some, List.isEmpty_nil, Bool.true_and]
  generalize countDown frame.count = count
  rfl

/-- Going on in the block. -/
theorem Invariant.inLine (hv : Verified f) (hs : Scoped f scopes) (h : Invariant f scopes s history)
    (hcode : s.code = i :: rest) (hterm : i.isTerminator = false) :
    ∃ k after, At f s.block k rest ∧ DefinedAt f s.block k (i.result :: history.defined) ∧
      activeLoops history.opened i = .ok after ∧ OpenAt f scopes s.block k after ∧
      (f.code s.block)[k - 1]? = some i ∧ 0 < k := by
  obtain ⟨k, hat, hdefined, hopen⟩ := h.position
  rcases hat.instruction hcode with ⟨hi, -⟩
  obtain ⟨after, hafter, hnext⟩ := hopen.next hs hat.reached hi
  exact ⟨k + 1, after, hat.next hv hcode hterm, hdefined.next hi, hafter, hnext, hi, Nat.succ_pos k⟩

/-- Going on along an edge. -/
theorem Invariant.alongEdge (hv : Verified f) (hs : Scoped f scopes) (h : Invariant f scopes s history)
    (hcode : s.code = i :: rest) (hterm : i.isTerminator = true) {target : Nat}
    (htarget : target ∈ i.targets) :
    ∃ k after, At f target k (body (f.code target)) ∧ DefinedAt f target k
        ((phis (f.code target)).map Instruction.result ++ i.result :: history.defined) ∧
      activeLoops history.opened i = .ok after ∧ OpenAt f scopes target k after := by
  obtain ⟨k, hat, hdefined, hopen⟩ := h.position
  rcases hat.instruction hcode with ⟨hi, -⟩
  obtain ⟨after, hafter, hnext⟩ := hopen.next hs hat.reached hi
  have hlast := (hat.terminator_iff hv hi).mp hterm
  have hedge : flow f s.block target :=
    mem_successors.mpr ⟨i, List.mem_of_getElem? hi, hv.not_phi_of_mem_body (hat.mem_body hcode), htarget⟩
  obtain ⟨block, -, hscanned⟩ := hv.scannedAt hi
  have hbehind := hdefined.next hi
  rw [hlast] at hnext hbehind
  exact ⟨_, after, at_start hv (hscanned.targets target htarget) (.next hat.reached hedge),
    hbehind.edge hedge, hafter, hnext.edge hs hat.reached hedge⟩

theorem invariant_start (hv : Verified f) (hs : Scoped f scopes) (world : W) :
    Invariant f scopes (start f world) {} := by
  have hphis : phis (f.code f.entry) = [] := by
    cases hlist : phis (f.code f.entry) with
    | nil => rfl
    | cons phi others =>
        have hmem : phi ∈ phis (f.code f.entry) := by
          rw [hlist]
          exact List.mem_cons_self
        have hphi : phi.opcode = .phi := by simpa using List.mem_takeWhile_imp hmem
        obtain ⟨site, hsite, hblock, rfl⟩ :=
          mem_sites_of_mem_code ((List.takeWhile_prefix _).subset hmem)
        exact absurd hblock (hv.phi site hsite hphi).not_entry
  refine ⟨⟨0, ?_, ?_, ?_⟩, .nil⟩
  · have hstart := at_start hv hv.entry_lt .start
    rw [hphis] at hstart
    exact hstart
  · intro site hsite hne hdom hbefore
    by_cases heq : site.block = f.entry
    · exact absurd (hbefore heq) (Nat.not_lt_zero _)
    · exact absurd (.start (Ne.symm heq)) hdom
  · show foldAll activeLoops (scopes f.entry) ((f.code f.entry).take 0) = .ok []
    rw [hs.entry]
    rfl

/-- One move keeps the invariant. -/
theorem Invariant.move (hv : Verified f) (hl : LoopsMatched f) (hs : Scoped f scopes)
    (h : Invariant f scopes s history) (hcode : s.code = i :: rest) (hmove : Move f s i rest t) :
    Invariant f scopes t (history.after f i s.loops t.block) := by
  have hsub := @after_defined_sub f history i s.loops t.block
  cases hmove with
  | falls hplain hterm hblock hcode' hloops =>
      have hnot : ∀ opcode, isLoopOpcode opcode = true → i.opcode ≠ opcode := by
        intro opcode hloop heq
        rw [heq, hloop] at hplain
        cases hplain
      have hline : i.isTerminator = false := by
        refine isTerminator_plain hterm fun hop => ?_
        rcases hop with hop | hop
        · exact absurd hop (hnot _ rfl)
        · exact absurd hop (hnot _ rfl)
      have hcloses : closes i s.loops = false := by
        unfold closes
        split
        · rename_i hop
          exact absurd hop (hnot _ rfl)
        · rename_i hop
          exact absurd hop (hnot _ rfl)
        · rfl
      obtain ⟨k, after, hat, hdefined, hafter, hopen, -, -⟩ := h.inLine hv hs hcode hline
      rw [activeLoops_other hplain] at hafter
      cases hafter
      have hopened := @after_opened_stays f history i (hnot _ rfl) s.loops hcloses t.block
      refine ⟨⟨k, ?_, ?_, ?_⟩, ?_⟩
      · rw [hblock, hcode']
        exact hat
      · rw [after_defined_plain hline, hblock]
        exact hdefined
      · rw [hopened, hblock]
        exact hopen
      · rw [hopened, hloops]
        exact h.frames.mono hsub
  | jumps hterm htarget hcode' hloops =>
      have hnot : ∀ opcode, isTerminatorOpcode opcode = false → i.opcode ≠ opcode := by
        intro opcode hfalse heq
        rw [heq, hfalse] at hterm
        cases hterm
      have hedge := isTerminator_edge htarget (.inl hterm)
      have hplain : isLoopOpcode i.opcode = false := by
        unfold isLoopOpcode
        apply decide_eq_false
        rintro (hop | hop | hop)
        · exact hnot _ rfl hop
        · exact hnot _ rfl hop
        · exact hnot _ rfl hop
      have hcloses : closes i s.loops = false := by
        unfold closes
        split
        · rename_i hop
          exact absurd hop (hnot _ rfl)
        · rename_i hop
          exact absurd hop (hnot _ rfl)
        · rfl
      obtain ⟨k, after, hat, hdefined, hafter, hopen⟩ := h.alongEdge hv hs hcode hedge htarget
      rw [activeLoops_other hplain] at hafter
      cases hafter
      have hopened := @after_opened_stays f history i (hnot _ rfl) s.loops hcloses t.block
      refine ⟨⟨k, ?_, ?_, ?_⟩, ?_⟩
      · rw [hcode']
        exact hat
      · rw [after_defined_edge hedge]
        exact hdefined
      · rw [hopened]
        exact hopen
      · rw [hopened, hloops]
        exact h.frames.mono hsub
  | hides count hop hhidden hblock hcode' hloops =>
      have hline : i.isTerminator = false := by
        refine isTerminator_plain ?_ fun _ => hhidden
        rw [hop]
        rfl
      obtain ⟨k, after, hat, hdefined, hafter, hopen, hi, hpos⟩ := h.inLine hv hs hcode hline
      obtain rfl := activeLoops_setup hop hafter
      have hopened := @after_opened_setup f history i hop s.loops t.block
      have hk : k - 1 + 1 = k := by omega
      have hdefined' : DefinedAt f s.block k (history.after f i s.loops t.block).defined := by
        rw [after_defined_plain hline]
        exact hdefined
      refine ⟨⟨k, ?_, ?_, ?_⟩, ?_⟩
      · rw [hblock, hcode']
        exact hat
      · rw [hblock]
        rw [hblock] at hdefined'
        exact hdefined'
      · rw [hopened, hblock]
        exact hopen
      · rw [hopened, hloops]
        have hframe : Resumes f scopes (history.after f i s.loops t.block).defined
            ⟨s.block, k - 1, i⟩ ⟨count, some (s.block, rest)⟩ (i.loopId :: history.opened) := by
          refine ⟨?_, ?_, ?_, ?_⟩
          · dsimp only
            rw [hk, ← hat.code]
          · dsimp only
            rw [hk, ← hat.code]
            exact hat
          · dsimp only
            rw [hk]
            exact hdefined'
          · dsimp only
            rw [hk]
            exact hopen
        exact .cons ⟨s.block, k - 1, i⟩ (mem_sites.mpr hi) hop (fun _ => hframe) (h.frames.mono hsub)
  | exposes count hop htarget hcode' hloops =>
      have hedge := isTerminator_edge htarget (.inr (.inl hop))
      obtain ⟨k, after, hat, hdefined, hafter, hopen⟩ := h.alongEdge hv hs hcode hedge htarget
      obtain rfl := activeLoops_setup hop hafter
      have hopened := @after_opened_setup f history i hop s.loops t.block
      obtain ⟨k', hat', -, -⟩ := h.position
      refine ⟨⟨k, ?_, ?_, ?_⟩, ?_⟩
      · rw [hcode']
        exact hat
      · rw [after_defined_edge hedge]
        exact hdefined
      · rw [hopened]
        exact hopen
      · rw [hopened, hloops]
        refine .cons ⟨s.block, k', i⟩ (mem_sites.mpr (hat'.instruction hcode).1) hop ?_
          (h.frames.mono hsub)
        intro hhidden
        have hnone : i.targets = [] := hhidden
        rw [hnone] at htarget
        cases htarget
  | runsOut frame hop hhidden hbefore hzero hblock hcode' =>
      have hline : i.isTerminator = false := by
        refine isTerminator_plain ?_ fun _ => hhidden
        rw [hop]
        rfl
      have hcloses : closes i s.loops = true := by
        rw [hbefore, closes_hidden hop hhidden]
        exact decide_eq_true hzero
      obtain ⟨k, after, hat, hdefined, hafter, hopen, -, -⟩ := h.inLine hv hs hcode hline
      rcases activeLoops_end hop hafter with ⟨-, rfl⟩
      rw [if_pos hhidden] at hopen
      have hopened := @after_opened_closes f history i (by rw [hop]; decide) s.loops hcloses t.block
      have hframes := h.frames.tail
      rw [hbefore] at hframes
      refine ⟨⟨k, ?_, ?_, ?_⟩, ?_⟩
      · rw [hblock, hcode']
        exact hat
      · rw [after_defined_plain hline, hblock]
        exact hdefined
      · rw [hopened, hblock]
        exact hopen
      · rw [hopened]
        exact hframes.mono hsub
  | repeats frame outer hop hhidden hbefore hnonzero hresume hloops =>
      have hcloses : closes i s.loops = false := by
        rw [hbefore, closes_hidden hop hhidden]
        exact decide_eq_false hnonzero
      have hline : i.isTerminator = false := by
        refine isTerminator_plain ?_ fun _ => hhidden
        rw [hop]
        rfl
      obtain ⟨k, after, -, -, hafter, -, hi, -⟩ := h.inLine hv hs hcode hline
      have hhead := (activeLoops_end hop hafter).1
      have hopened := @after_opened_stays f history i (by rw [hop]; decide) s.loops hcloses t.block
      have hbefore' := h.frames
      rw [hbefore] at hbefore'
      have hframes := hbefore'.mono hsub
      obtain ⟨setup, hmem, hsetup, htop, hresumes⟩ := hframes.top
      rw [hhead] at htop
      have hmatched := hl.matched setup hmem ⟨s.block, _, i⟩ (mem_sites.mpr hi) hsetup hop
        (Option.some.inj htop).symm
      have hframe := hresumes (hmatched.mpr hhidden)
      -- the frame says where control goes, and what was defined there still is
      have hplace := hframe.resume.symm.trans hresume
      obtain ⟨hblock, hbehind⟩ := Prod.mk.inj (Option.some.inj hplace)
      rw [← hopened] at hframes hframe
      refine ⟨⟨setup.position + 1, ?_, ?_, ?_⟩, ?_⟩
      · rw [← hblock, ← hbehind]
        exact hframe.position
      · have hdefined := hframe.defined
        rwa [hblock] at hdefined
      · rw [← hblock]
        exact hframe.opened
      · rw [hloops]
        exact hframes.counted _
  | turns frame outer hop hbefore htarget hcode' hloops =>
      have hedge := isTerminator_edge htarget (.inr (.inr hop))
      have hsome : i.targets ≠ [] := by
        intro hnone
        rw [hnone] at htarget
        cases htarget
      have hcloses : closes i s.loops = false := by
        unfold closes
        rw [hop]
        dsimp only
        rw [show i.targets.isEmpty = false by simpa using hsome]
        rfl
      obtain ⟨k, after, hat, hdefined, hafter, hopen⟩ := h.alongEdge hv hs hcode hedge htarget
      rcases activeLoops_end hop hafter with ⟨-, rfl⟩
      rw [if_neg hsome] at hopen
      have hopened := @after_opened_stays f history i (by rw [hop]; decide) s.loops hcloses t.block
      have hframes := h.frames.mono hsub
      rw [hbefore] at hframes
      refine ⟨⟨k, ?_, ?_, ?_⟩, ?_⟩
      · rw [hcode']
        exact hat
      · rw [after_defined_edge hedge]
        exact hdefined
      · rw [hopened]
        exact hopen
      · rw [hopened, hloops]
        exact hframes.counted _
  | leaves hop hblock hcode' hloops =>
      have hline : i.isTerminator = false := by
        refine isTerminator_plain ?_ ?_
        · rw [hop]
          rfl
        · rw [hop]
          rintro (heq | heq) <;> cases heq
      have hcloses : closes i s.loops = true := by
        unfold closes
        rw [hop]
      obtain ⟨k, after, hat, hdefined, hafter, hopen, -, -⟩ := h.inLine hv hs hcode hline
      rcases activeLoops_leave hop hafter with ⟨-, rfl⟩
      have hopened := @after_opened_closes f history i (by rw [hop]; decide) s.loops hcloses t.block
      refine ⟨⟨k, ?_, ?_, ?_⟩, ?_⟩
      · rw [hblock, hcode']
        exact hat
      · rw [after_defined_plain hline, hblock]
        exact hdefined
      · rw [hopened, hblock]
        exact hopen
      · rw [hopened, hloops]
        exact h.frames.tail.mono hsub

theorem Execution.invariant {perform : Perform W} {world : W} (hv : Verified f) (hl : LoopsMatched f)
    (hs : Scoped f scopes) (h : Execution perform f world s history) :
    Invariant f scopes s history := by
  induction h with
  | start => exact invariant_start hv hs world
  | next _ hcode hstep ih => exact ih.move hv hl hs hcode (step_moves hcode hstep)

/-! ## What the next instruction finds -/

theorem incoming_mem {source : Nat} (hlength : i.operands.length = i.targets.length)
    (hmem : source ∈ i.targets) : (i.incoming source, source) ∈ i.operands.zip i.targets := by
  unfold Instruction.incoming
  have hedge : ∃ edge ∈ i.targets.zip i.operands, (edge.1 == source) = true := by
    obtain ⟨n, hn⟩ := List.mem_iff_getElem?.mp hmem
    have hlt := (List.getElem?_eq_some_iff.mp hn).1
    refine ⟨(source, i.operands[n]), ?_, by simp⟩
    rw [List.mem_iff_getElem?]
    refine ⟨n, ?_⟩
    rw [List.getElem?_zip_eq_some]
    exact ⟨hn, List.getElem?_eq_getElem (by omega)⟩
  obtain ⟨edge, hfound⟩ := Option.isSome_iff_exists.mp (List.find?_isSome.mpr hedge)
  have hsource : edge.1 = source := by simpa using List.find?_some hfound
  rw [hfound, ← hsource]
  have hzip := List.mem_of_find?_eq_some hfound
  obtain ⟨n, hn⟩ := List.mem_iff_getElem?.mp hzip
  obtain ⟨hfirst, hsecond⟩ := List.getElem?_zip_eq_some.mp hn
  exact List.mem_iff_getElem?.mpr ⟨n, List.getElem?_zip_eq_some.mpr ⟨hsecond, hfirst⟩⟩

theorem isValueOpcode_terminator {opcode : Opcode} (h : isTerminatorOpcode opcode = true ∨
    opcode = .hardwareLoop ∨ opcode = .hardwareLoopEnd) : isValueOpcode opcode = false := by
  rcases h with h | rfl | rfl
  · cases opcode <;> first | rfl | cases h
  · rfl
  · rfl

theorem terminator_result {block : BasicBlock} {site : Site} (h : Scanned f block site)
    (hterm : site.instruction.isTerminator = true) : site.instruction.result = 0 := by
  by_contra hne
  have hvalue := h.produces.mpr hne
  unfold Instruction.isTerminator at hterm
  rw [Bool.or_eq_true, Bool.and_eq_true, decide_eq_true_eq] at hterm
  have hnone := isValueOpcode_terminator (hterm.imp_right And.left)
  unfold Instruction.producesValue at hvalue
  rw [hnone] at hvalue
  cases hvalue

/-- Operands and the targets of edges. -/
theorem Invariant.guarded (hv : Verified f) (hs : Scoped f scopes)
    (hreturns : i.opcode = .ret ∨ i.opcode = .returnVoid → successors f s.block = [])
    (h : Invariant f scopes s history) (hcode : s.code = i :: rest) : Guarded f s history i := by
  obtain ⟨k, hat, hdefined, hopen⟩ := h.position
  rcases hat.instruction hcode with ⟨hi, -⟩
  obtain ⟨after, hafter, hnext⟩ := hopen.next hs hat.reached hi
  obtain ⟨block, -, hscanned⟩ := hv.scannedAt hi
  have hsite : (⟨s.block, k, i⟩ : Site) ∈ f.sites := mem_sites.mpr hi
  have hphi := hv.not_phi_of_mem_body (hat.mem_body hcode)
  refine ⟨?_, hscanned.targets, ?_, ?_, ?_, h.frames.length_eq⟩
  · intro v hmem
    obtain ⟨definition, hfound, hsame, hother⟩ := hv.operand _ hsite hphi v hmem
    rcases of_site_eq_some hfound with ⟨hdefinition, hresult⟩
    rw [← hresult]
    apply hdefined definition hdefinition
    · rw [hresult]
      exact (hscanned.operands v hmem).1
    · by_cases hblock : definition.block = s.block
      · rw [hblock]
        exact Dominates.refl s.block
      · exact hother hblock hat.reached
    · exact hsame
  · intro hterm target htarget phi hmem
    have hedge : flow f s.block target :=
      mem_successors.mpr ⟨i, List.mem_of_getElem? hi, hphi, htarget⟩
    have hphi' : phi.opcode = .phi := by simpa using List.mem_takeWhile_imp hmem
    obtain ⟨site, hphiSite, hblock, rfl⟩ :=
      mem_sites_of_mem_code ((List.takeWhile_prefix _).subset hmem)
    have hverified := hv.phi site hphiSite hphi'
    rw [hblock] at hverified
    have hcovers := hverified.covers s.block hedge
    refine ⟨List.count_eq_one_of_mem hverified.nodup hcovers, ?_⟩
    have hzip := incoming_mem hverified.lengths hcovers
    obtain ⟨-, -, definition, hfound, hdom, -⟩ := hverified.edges _ hzip
    rcases of_site_eq_some hfound with ⟨hdefinition, hresult⟩
    obtain ⟨_, -, hphiScanned⟩ := hv.scanned hphiSite
    have hne := (hphiScanned.operands _ (List.of_mem_zip hzip).1).1
    -- the terminator itself defines nothing
    have hbehind := hdefined.next hi definition hdefinition (by rw [hresult]; exact hne) hdom (by
      intro hhere
      have hget := mem_sites.mp hdefinition
      rw [hhere] at hget
      have hlt := (List.getElem?_eq_some_iff.mp hget).1
      have hlast := (hat.terminator_iff hv hi).mp hterm
      omega)
    rw [terminator_result hscanned hterm, hresult] at hbehind
    exact (List.mem_cons.mp hbehind).resolve_left hne
  · rintro (hop | hop)
    · exact (activeLoops_end hop hafter).1
    · exact (activeLoops_leave hop hafter).1
  · intro hop
    have hterm : i.isTerminator = true := by
      unfold Instruction.isTerminator
      rcases hop with hop | hop
      · rw [hop]
        rfl
      · rw [hop]
        rfl
    have hplain : isLoopOpcode i.opcode = false := by
      rcases hop with hop | hop
      · rw [hop]
        rfl
      · rw [hop]
        rfl
    rw [activeLoops_other hplain] at hafter
    cases hafter
    have hlast := (hat.terminator_iff hv hi).mp hterm
    obtain ⟨active, hfold, -, hends⟩ := hs.ends s.block hat.reached
    unfold OpenAt at hnext
    rw [hlast, List.take_length, hfold] at hnext
    cases hnext
    exact hends (hreturns hop)

/-! ## Progress -/

/-- Halts that are not the verifier's business: returns, traps and refusals. -/
def Proper (halt : Halt) : Prop := halt ≠ .unmatched ∧ halt ≠ .stuck

theorem proper_refused (effect : Effect) (arguments : List Int) :
    Proper (.refused effect arguments) := by
  constructor <;> exact Halt.noConfusion

theorem proper_trapped (trap : Trap) : Proper (.trapped trap) := by
  constructor <;> exact Halt.noConfusion

theorem proper_returned (value : Option Int) : Proper (.returned value) := by
  constructor <;> exact Halt.noConfusion

theorem request_error {perform : Perform W} {effect : Effect} {arguments : List Int} {world : W}
    {halt : Halt} (h : request perform effect arguments world = .error halt) : Proper halt := by
  unfold request at h
  split at h
  · cases h
    exact proper_refused effect arguments
  · cases h

theorem produce_error {perform : Perform W} {effect : Effect} {arguments : List Int} {other : Int}
    {world : W} {halt : Halt} (hphi : effect.opcode ≠ .phi)
    (h : produce perform effect arguments other world = .error halt) : Proper halt := by
  unfold produce at h
  split at h
  · split at h
    · cases h
      exact proper_trapped _
    · cases h
  · split at h
    · rename_i hop
      exact absurd hop hphi
    · cases h
    · unfold divide at h
      by_cases hzero : arguments.getD 1 0 = 0
      · rw [if_pos hzero] at h
        cases h
        exact proper_trapped _
      · rw [if_neg hzero] at h
        cases h
    · cases h
    · exact request_error h

theorem execute_error {perform : Perform W} {halt : Halt} (hphi : i.opcode ≠ .phi)
    (h : execute perform i s = .error halt) : Proper halt := by
  unfold execute at h
  cases hproduce : produce perform i.effect (s.arguments i) (s.env (i.operands.getD 0 0)).other s.world with
  | error other =>
      rw [hproduce] at h
      cases h
      exact produce_error hphi hproduce
  | ok produced =>
      rw [hproduce] at h
      cases h

theorem jump_error {selected : Nat} {halt : Halt} (hlt : selected < i.targets.length) :
    jump f i selected s ≠ .error halt := by
  unfold jump
  rw [List.getElem?_eq_getElem hlt]
  exact fun h => by cases h

/-- The edges that an opcode has. -/
def EdgesOf (i : Instruction) : Prop :=
  match i.opcode with
  | .branch => i.targets.length = 1
  | .condBranch => i.targets.length = 2
  | .switch => i.caseValues.length + (if i.hasDefaultTarget then 1 else 0) = i.targets.length
  | .hardwareLoop => i.targets.length ≤ 1
  | .hardwareLoopEnd => i.targets ≠ [] → i.targets.length = 2
  | _ => True

theorem Scanned.edges {block : BasicBlock} {site : Site} (h : Scanned f block site) :
    EdgesOf site.instruction := by
  unfold EdgesOf
  obtain ⟨seen, hshape⟩ := h.shape
  unfold checkShape at hshape
  split <;> rename_i hop
  · rw [hop] at hshape
    have hnot := rejectIf_eq_ok.mp hshape
    rw [not_or, not_not, not_not] at hnot
    exact hnot.2
  · rw [hop] at hshape
    have hnot := rejectIf_eq_ok.mp hshape
    rw [not_or, not_not, not_not] at hnot
    exact hnot.2
  · rw [hop] at hshape
    exact not_not.mp (rejectIf_bind_eq_ok.mp (rejectIf_bind_eq_ok.mp hshape).2).1
  · rw [hop] at hshape
    have hnot := (rejectIf_bind_eq_ok.mp hshape).1
    omega
  · rw [hop] at hshape
    have hnot := (rejectIf_bind_eq_ok.mp hshape).1
    intro hne
    by_contra hlength
    exact hnot (.inr (.inl ⟨hne, hlength⟩))
  · trivial

theorem leave_ok {arguments : List Int} {selected : Nat} (hedges : EdgesOf i)
    (h : i.leave arguments = .ok selected) : selected < i.targets.length := by
  unfold EdgesOf at hedges
  unfold Instruction.leave at h
  split at h
  · rename_i hop
    rw [hop] at hedges
    cases h
    dsimp only at hedges
    omega
  · rename_i hop
    rw [hop] at hedges
    cases h
    dsimp only at hedges
    split <;> omega
  · dsimp only at h
    split at h
    · cases h
      assumption
    · cases h
  · cases h
  · cases h
  · cases h

theorem leave_error {arguments : List Int} {halt : Halt} (hterm : isTerminatorOpcode i.opcode = true)
    (hedges : EdgesOf i) (hdefault : i.opcode = .switch → i.hasDefaultTarget = true)
    (h : i.leave arguments = .error halt) :
    Proper halt ∨ (i.opcode = .unreachable ∧ halt = .stuck) := by
  unfold EdgesOf at hedges
  unfold Instruction.leave at h
  split at h
  · cases h
  · cases h
  · rename_i hop
    rw [hop] at hedges
    dsimp only at h hedges
    rw [hdefault hop, if_pos rfl] at hedges
    -- the default follows the cases
    have hle : i.selectedCase (arguments.getD 0 0) ≤ i.caseValues.length := List.findIdx_le_length
    rw [if_pos (by omega)] at h
    cases h
  · cases h
    exact .inl (proper_returned _)
  · cases h
    exact .inl (proper_returned _)
  · rename_i hbranch hcond hswitch hret hvoid
    cases h
    refine .inr ⟨?_, rfl⟩
    cases hop : i.opcode <;> first
      | rfl
      | exact (hbranch hop).elim
      | exact (hcond hop).elim
      | exact (hswitch hop).elim
      | exact (hret hop).elim
      | exact (hvoid hop).elim
      | (rw [hop] at hterm; cases hterm)

theorem mem_instructions_of_code {b k : Nat} (hi : (f.code b)[k]? = some i) : i ∈ f.instructions := by
  have hmem := List.mem_of_getElem? hi
  obtain ⟨block, hblock⟩ := getElem?_blocks (lt_of_mem_code hmem)
  rw [code_eq_of_getElem? hblock] at hmem
  exact List.mem_flatMap.mpr ⟨block, List.mem_of_getElem? hblock, hmem⟩

theorem step_error {perform : Perform W} {halt : Halt} (hv : Verified f) (hl : LoopsMatched f)
    (hs : Scoped f scopes)
    (hdefault : ∀ i ∈ f.instructions, i.opcode = .switch → i.hasDefaultTarget = true)
    (h : Invariant f scopes s history) (hcode : s.code = i :: rest)
    (hstep : step perform f s = .error halt) :
    halt ≠ .unmatched ∧ (halt = .stuck → i.opcode = .unreachable) := by
  obtain ⟨k, hat, -, hopen⟩ := h.position
  rcases hat.instruction hcode with ⟨hi, -⟩
  obtain ⟨after, hafter, -⟩ := hopen.next hs hat.reached hi
  obtain ⟨block, hblock, hscanned⟩ := hv.scannedAt hi
  have hedges := hscanned.edges
  have hphi := hv.not_phi_of_mem_body (hat.mem_body hcode)
  have hproper : Proper halt → halt ≠ .unmatched ∧ (halt = .stuck → i.opcode = .unreachable) :=
    fun hproper => ⟨hproper.1, fun hstuck => absurd hstuck hproper.2⟩
  unfold step at hstep
  rw [hcode] at hstep
  dsimp only at hstep
  by_cases hterm : isTerminatorOpcode i.opcode = true
  · rw [if_pos hterm] at hstep
    cases hleave : i.leave (s.arguments i) with
    | error other =>
        rw [hleave] at hstep
        cases hstep
        rcases leave_error hterm hedges (hdefault i (mem_instructions_of_code hi)) hleave with
          hhalt | hunreachable
        · exact hproper hhalt
        · refine ⟨?_, fun _ => hunreachable.1⟩
          rw [hunreachable.2]
          exact Halt.noConfusion
    | ok selected =>
        rw [hleave] at hstep
        exact absurd hstep (jump_error (leave_ok hedges hleave))
  · rw [if_neg hterm] at hstep
    cases hexecute : execute perform i s with
    | error other =>
        rw [hexecute] at hstep
        cases hstep
        exact hproper (execute_error hphi hexecute)
    | ok u =>
        rw [hexecute, ok_bind] at hstep
        rcases execute_keeps hexecute with ⟨hublock, huloops⟩
        unfold proceed at hstep
        split at hstep
        · unfold enterLoop at hstep
          dsimp only at hstep
          by_cases hhidden : i.targets.isEmpty = true
          · rw [if_pos hhidden] at hstep
            cases hstep
          · rw [if_neg hhidden] at hstep
            refine absurd hstep (jump_error ?_)
            rw [List.isEmpty_iff] at hhidden
            exact List.length_pos_iff.mpr hhidden
        · rename_i hop
          unfold EdgesOf at hedges
          rw [hop] at hedges
          unfold repeatLoop at hstep
          rw [huloops] at hstep
          have hhead := (activeLoops_end hop hafter).1
          have hframes := h.frames
          cases hloops : s.loops with
          | nil =>
              have hlength := hframes.length_eq
              rw [hloops] at hlength
              rw [List.length_eq_zero_iff.mp hlength.symm] at hhead
              cases hhead
          | cons frame outer =>
              rw [hloops] at hstep hframes
              dsimp only at hstep hedges
              by_cases hhidden : i.targets.isEmpty = true
              · rw [if_pos hhidden] at hstep
                by_cases hzero : countDown frame.count = 0
                · rw [if_pos hzero] at hstep
                  cases hstep
                · rw [if_neg hzero] at hstep
                  obtain ⟨setup, hmem, hsetup, htop, hresumes⟩ := hframes.top
                  rw [hhead] at htop
                  have hmatched := hl.matched setup hmem ⟨s.block, k, i⟩ (mem_sites.mpr hi) hsetup hop
                    (Option.some.inj htop).symm
                  have hframe := hresumes (hmatched.mpr (List.isEmpty_iff.mp hhidden))
                  rw [hframe.resume] at hstep
                  cases hstep
              · rw [if_neg hhidden] at hstep
                refine absurd hstep (jump_error ?_)
                rw [List.isEmpty_iff] at hhidden
                rw [hedges hhidden]
                split <;> omega
        · cases hstep
        · cases hstep

end Invariants

/-! ## Accepted modules -/

/-- Every switch has a default. -/
def SwitchesDefault (f : Function) : Prop :=
  ∀ i ∈ f.instructions, i.opcode = .switch → i.hasDefaultTarget = true

instance (f : Function) : Decidable (SwitchesDefault f) :=
  inferInstanceAs (Decidable (∀ i ∈ f.instructions, _))

/-- Whichever way control has come to a place, the same loops are open. -/
def OpenedAgree (f : Function) : Prop :=
  ∀ (V W : Type) (perform : Perform V) (other : Perform W) (v : V) (w : W) (s : State V) (t : State W)
    (first second : History), Execution perform f v s first → Execution other f w t second →
    s.block = t.block → s.code = t.code → first.opened = second.opened

/-- When control is at a return, its block has no edges. -/
def ReturnsLeave {W : Type} (f : Function) (s : State W) : Prop :=
  ∀ i rest, s.code = i :: rest → i.opcode = .ret ∨ i.opcode = .returnVoid → successors f s.block = []

theorem opened_agree {f : Function} (h : verifyFunction f = .ok ()) : OpenedAgree f := by
  intro V W perform other v w s t first second hs ht hblock hcode
  have hv := verified_of_verifyFunction h
  obtain ⟨hl, scopes, hscoped⟩ := scoped_of_verifyFunction h
  obtain ⟨k, hat, -, hopen⟩ := (hs.invariant hv hl hscoped).position
  obtain ⟨k', hat', -, hopen'⟩ := (ht.invariant hv hl hscoped).position
  have hlength := congrArg List.length hcode
  rw [hat.code, hat'.code, List.length_drop, List.length_drop, ← hblock] at hlength
  have hinside := hat.inside
  have hinside' := hat'.inside
  rw [← hblock] at hinside'
  have hk : k = k' := by omega
  unfold OpenAt at hopen hopen'
  rw [← hblock, ← hk, hopen] at hopen'
  exact Except.ok.inj hopen'

/-- Executions of accepted functions find all they need, whatever the machine
around them does. -/
theorem verify_sound {m : Module} {f : Function} (h : verify m = .ok ()) (hf : f ∈ m.functions)
    (hdefault : SwitchesDefault f) :
    (∀ (W : Type) (perform : Perform W) (world : W) (s : State W) (history : History),
      Execution perform f world s history → ReturnsLeave f s → Sound perform f s history) ∧
    OpenedAgree f := by
  have hfunction := verifyFunction_of_verify h hf
  refine ⟨?_, opened_agree hfunction⟩
  intro W perform world s history hexecution hreturns
  have hv := verified_of_verifyFunction hfunction
  obtain ⟨hl, scopes, hscoped⟩ := scoped_of_verifyFunction hfunction
  have hinvariant := hexecution.invariant hv hl hscoped
  obtain ⟨k, hat, -, -⟩ := hinvariant.position
  refine ⟨hat.lt, ?_⟩
  cases hcode : s.code with
  | nil =>
      have hdrop := hat.code
      rw [hcode] at hdrop
      have hinside := hat.inside
      have hge := List.drop_eq_nil_iff.mp hdrop.symm
      omega
  | cons i rest =>
      exact ⟨i, rest, rfl, hinvariant.guarded hv hscoped (hreturns i rest hcode) hcode,
        fun halt hstep => step_error hv hl hscoped hdefault hinvariant hcode hstep⟩

def wordTy : Ty := { base := .word
                     sizeInBytes := 2 }

/-- A return inside a hidden loop, with an edge to the end of the loop. -/
def returnsInLoop : Function where
  name := "f"
  returnType := wordTy
  entry := 0
  valueCount := 1
  blocks :=
    [{ id := 0
       instructions :=
        [{ opcode := .constant
           type := wordTy
           result := 1
           immediate := 3 },
          { opcode := .hardwareLoop
            operands := [1]
            loopId := 1 },
          { opcode := .ret
            operands := [1]
            targets := [1] }] },
      { id := 1
        instructions :=
        [{ opcode := .hardwareLoopEnd
           loopId := 1 },
          { opcode := .ret
            operands := [1] }] }]

theorem verify_sound_fails : ¬ ∀ (m : Module) (f : Function), verify m = .ok () → f ∈ m.functions →
    SwitchesDefault f →
    (∀ (W : Type) (perform : Perform W) (world : W) (s : State W) (history : History),
      Execution perform f world s history → Sound perform f s history) ∧ OpenedAgree f := by
  intro h
  have hall := (h { functions := [returnsInLoop] } returnsInLoop (by decide +kernel)
    List.mem_cons_self (by decide +kernel)).1
  let perform : Perform Unit := fun _ _ world => some (0, world)
  have hsetup := Execution.next (@Execution.start Unit perform returnsInLoop ()) rfl rfl
  have hreturn := Execution.next hsetup rfl rfl
  obtain ⟨-, i, rest, hcode, hguarded, -⟩ := hall Unit perform () _ _ hreturn
  cases hcode
  exact absurd (hguarded.returns (.inl rfl)) (by decide)

/-- The loop of the function is left before it returns. -/
def returnsBehindLoop : Function := { returnsInLoop with
  blocks :=
    [{ id := 0
       instructions :=
        [{ opcode := .constant
           type := wordTy
           result := 1
           immediate := 3 },
          { opcode := .hardwareLoop
            operands := [1]
            loopId := 1 },
          { opcode := .hardwareLoopEnd
            loopId := 1 },
          { opcode := .ret
            operands := [1] }] }] }

theorem verify_sound_returnsBehindLoop :
    verify { functions := [returnsBehindLoop] } = .ok () ∧
    ((∀ (W : Type) (perform : Perform W) (world : W) (s : State W) (history : History),
      Execution perform returnsBehindLoop world s history → ReturnsLeave returnsBehindLoop s →
        Sound perform returnsBehindLoop s history) ∧ OpenedAgree returnsBehindLoop) :=
  ⟨by decide +kernel, verify_sound (m := { functions := [returnsBehindLoop] }) (by decide +kernel)
    List.mem_cons_self (by decide +kernel)⟩

end Disco.IR
