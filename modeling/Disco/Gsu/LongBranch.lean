import Disco.Gsu.Steps

/-! # Branches of unlimited range

An ideal machine reads some addresses of the program as branches without a
range limit, each with a NOP of its own behind it. The real machine finds an
absolute jump there, behind an inverted short branch when the branch is
conditional. Both perform the same instructions, from the same registers and
memory, for as long as the program leaves the bytes of these branches alone,
does not put one into the delay slot of another transfer, and does not carry
an ALT prefix into an unconditional one.
-/

namespace Disco.Gsu

open Library

/-! ## The ideal machine -/

/-- A branch that may go anywhere in its bank. -/
structure LongBranch where
  start : Word
  opcode : Byte
  target : Word
  deriving DecidableEq, Repr

namespace LongBranch

/-- The bytes that stand for a long branch. -/
def bytes (branch : LongBranch) : List Byte :=
  let jump : List Byte :=
    [0xff, branch.target.setWidth 8, (branch.target >>> 8).setWidth 8, 0x01]
  if branch.opcode = 5 then jump else [branch.opcode ^^^ 1, 5, 0x01] ++ jump

/-- The address behind a long branch. -/
def next (branch : LongBranch) : Word := branch.start + BitVec.ofNat 16 branch.bytes.length

/-- An address inside the bytes of a branch, behind its first one. -/
def within (branch : LongBranch) (address : Word) : Bool :=
  0 < (address - branch.start).toNat ∧ (address - branch.start).toNat < branch.bytes.length

/-- The branch at an address, if one starts there. -/
def at? (branches : List LongBranch) (address : Option Word) : Option LongBranch :=
  match address with
  | none => none
  | some address => branches.find? fun branch => branch.start = address

/-- The bytes of the branches, at their addresses. -/
def Held (branches : List LongBranch) (address : Word) (byte : Byte) : Prop :=
  ∃ branch ∈ branches, ∃ i, branch.bytes[i]? = some byte ∧
    address = branch.start + BitVec.ofNat 16 i

end LongBranch

section Ideal

variable (program : Program) (branches : List LongBranch)

/-- Fetch an address only for what this does to the cache. -/
def passOver (core : Core) (cache : Cache) (address : Word) : Cache :=
  match fetch program (core.setPc address) cache with
  | .ok (_, next) => next
  | .error _ => cache

/-- Pass over a number of bytes. -/
def passAll (core : Core) : Nat → Word → Cache → Cache
  | 0, _, cache => cache
  | count + 1, address, cache => passAll core count (address + 1) (passOver program core cache address)

/-- Perform a long branch: it only decides where to go on, behind a NOP. Of its
bytes, those that it needs for the decision pass through the cache. -/
def takeBranch (branch : LongBranch) (cpu : Cpu) : Cpu :=
  let core := { cpu.state.core with pcWritten := false }
  let taken := branchTaken branch.opcode core
  let passed := if branch.opcode = 5 then 3 else if taken then 6 else 2
  let goal := if taken then branch.target else branch.next
  ⟨{ core := core.write 15 goal, pipeline := 1, address := none },
    passAll program cpu.state.core passed (branch.start + 1) cpu.cache⟩

/-- A step of the ideal machine. -/
def idealStep (cpu : Cpu) : Except Halt (Cpu × Performed) :=
  match LongBranch.at? branches cpu.state.address with
  | some branch =>
      .ok (takeBranch program branch cpu, { cpu.state.current with opcode := branch.opcode })
  | none => tracedStep program cpu

/-- The instructions of the source: no NOP, and a long branch once. -/
def sourceView (event : Performed) : Option Performed :=
  if event.opcode = 1 then none
  else
    match event.address with
    | none => some event
    | some address =>
        if branches.any fun branch => branch.within address then none
        else
          match LongBranch.at? branches event.address with
          | some branch => some { event with opcode := branch.opcode }
          | none => some event

def idealMachine : Machine.{0} Halt Unit Performed :=
  tracedMachine (idealStep program branches) (sourceView branches)

/-- The real machine. -/
def gsuMachine : Machine.{0} Halt Unit Performed :=
  tracedMachine (tracedStep program) (sourceView branches)

end Ideal

/-! ## Programs that contain long branches -/

/-- A branch with a place in the program. -/
structure Placed (program : Program) (branch : LongBranch) : Prop where
  opcode_ge : 5 ≤ branch.opcode.toNat
  opcode_le : branch.opcode.toNat ≤ 15
  inside : ∀ i < branch.bytes.length, inside program (branch.start + BitVec.ofNat 16 i)

/-- A state in which the ideal machine is a fair idealization: the bytes of the
long branches are intact, and a long branch about to be performed follows the
instruction before it, with no ALT prefix pending when it is unconditional. -/
structure Regular (program : Program) (branches : List LongBranch) (state : State) : Prop where
  intact : Intact program (LongBranch.Held branches) state.core
  sequential : ∀ branch, LongBranch.at? branches state.address = some branch →
    state.core.pc = branch.start + 1
  plain : ∀ branch, LongBranch.at? branches state.address = some branch → branch.opcode = 5 →
    state.core.alt1 = false ∧ state.core.alt2 = false

/-! ## The bytes of a placed branch -/

section Bytes

variable {program : Program} {branches : List LongBranch} {held : Word → Byte → Prop}

theorem at?_eq_some {address : Option Word} {branch : LongBranch}
    (h : LongBranch.at? branches address = some branch) :
    branch ∈ branches ∧ address = some branch.start := by
  unfold LongBranch.at? at h
  split at h
  · cases h
  · have hstart := List.find?_some h
    exact ⟨List.mem_of_find?_eq_some h, by simpa [eq_comm] using hstart⟩

theorem Placed.reads {branch : LongBranch} (h : Placed program branch) (hm : branch ∈ branches) :
    Reads program (LongBranch.Held branches) branch.start branch.bytes :=
  reads_of_get branch.bytes branch.start h.inside fun i _ hbyte => ⟨branch, hm, i, hbyte, rfl⟩

/-- Fetching the first of some bytes that stay. -/
theorem Reads.fetch {address : Word} {byte : Byte} {rest : List Byte} {core : Core} {cache : Cache}
    (h : Reads program held address (byte :: rest)) (hi : Intact program held core)
    (hc : Coherent held cache) :
    fetch program (core.setPc address) cache = .ok (byte, passOver program core cache address) ∧
      Coherent held (passOver program core cache address) := by
  have hpc : (core.setPc address).pc = address := setPc_pc core address
  have hmoved : Intact program held (core.setPc address) := hi.of_ram rfl
  obtain ⟨next, hfetch, hnext⟩ := fetch_held hmoved hc (hpc.symm ▸ h.2.1) (hpc.symm ▸ h.1)
  have hpass : passOver program core cache address = next := by
    unfold passOver
    rw [hfetch]
  rw [hpass]
  exact ⟨hfetch, hnext⟩

theorem branchTaken_inverse {opcode : Byte} (hge : 6 ≤ opcode.toNat) (hle : opcode.toNat ≤ 15)
    (core : Core) : branchTaken (opcode ^^^ 1) core = !branchTaken opcode core := by
  obtain ⟨k, hk, rfl⟩ : ∃ k, opcode.toNat = k ∧ opcode = BitVec.ofNat 8 k := ⟨_, rfl, by simp⟩
  rw [hk] at hge hle
  interval_cases k <;> simp [branchTaken, bne]

/-- The inverse of a condition is a condition. -/
theorem inverse_range {opcode : Byte} (hge : 6 ≤ opcode.toNat) (hle : opcode.toNat ≤ 15) :
    5 ≤ (opcode ^^^ 1).toNat ∧ (opcode ^^^ 1).toNat ≤ 15 := by
  obtain ⟨k, hk, rfl⟩ : ∃ k, opcode.toNat = k ∧ opcode = BitVec.ofNat 8 k := ⟨_, rfl, by simp⟩
  rw [hk] at hge hle
  interval_cases k <;> decide

theorem Placed.condition {branch : LongBranch} (h : Placed program branch)
    (hne : branch.opcode ≠ 5) : 6 ≤ branch.opcode.toNat := by
  have hge := h.opcode_ge
  have hne' : branch.opcode.toNat ≠ 5 := fun heq => hne (BitVec.eq_of_toNat_eq heq)
  omega

theorem bytes_jump {branch : LongBranch} (h : branch.opcode = 5) : branch.bytes =
    [0xff, branch.target.setWidth 8, (branch.target >>> 8).setWidth 8, 0x01] := by
  simp [LongBranch.bytes, h]

theorem bytes_conditional {branch : LongBranch} (h : branch.opcode ≠ 5) : branch.bytes =
    [branch.opcode ^^^ 1, 5, 0x01, 0xff, branch.target.setWidth 8,
      (branch.target >>> 8).setWidth 8, 0x01] := by
  unfold LongBranch.bytes
  rw [if_neg h]
  rfl

/-- The inverse of a condition is not a NOP. -/
theorem inverse_ne_nop {opcode : Byte} (hge : 5 ≤ opcode.toNat) : opcode ^^^ 1 ≠ 1 := by
  intro heq
  have hzero : opcode = 0 := by
    have hx := congrArg (· ^^^ (1 : Byte)) heq
    simpa [BitVec.xor_assoc] using hx
  rw [hzero] at hge
  exact absurd hge (by decide)

/-! ## Events -/

/-- The first instruction of a placed branch counts as the branch. -/
theorem sourceView_start {branch : LongBranch} {state : State}
    (hb : LongBranch.at? branches state.address = some branch) (first second : Byte)
    (hf : first ≠ 1) (hs : second ≠ 1) :
    sourceView branches { state.current with opcode := first } =
      sourceView branches { state.current with opcode := second } := by
  obtain ⟨-, haddress⟩ := at?_eq_some hb
  have hcurrent : state.current.address = some branch.start := haddress
  rw [haddress] at hb
  unfold sourceView
  rw [if_neg hf, if_neg hs]
  simp only [hcurrent, hb]

theorem sourceView_nop (event : Performed) (h : event.opcode = 1) :
    sourceView branches event = none := by
  simp [sourceView, h]

/-- Nothing else inside a placed branch counts. -/
theorem sourceView_within {branch : LongBranch} (hm : branch ∈ branches) {event : Performed}
    {i : Nat} (hi : 0 < i) (hlt : i < branch.bytes.length) (hlong : branch.bytes.length ≤ 7)
    (ha : event.address = some (branch.start + BitVec.ofNat 16 i)) :
    sourceView branches event = none := by
  have hwithin : branch.within (branch.start + BitVec.ofNat 16 i) = true := by
    have hdiff : (branch.start + BitVec.ofNat 16 i - branch.start).toNat = i := by
      simp only [BitVec.toNat_add, BitVec.toNat_sub, BitVec.toNat_ofNat]
      have := branch.start.isLt
      omega
    unfold LongBranch.within
    rw [hdiff]
    simp only [hi, hlt, and_self, decide_true]
  unfold sourceView
  split
  · rfl
  · rw [ha]
    dsimp only
    rw [if_pos]
    exact List.any_eq_true.mpr ⟨branch, hm, hwithin⟩

end Bytes

/-! ## The simulation -/

section Simulation

variable {program : Program} {branches : List LongBranch}

/-- The ideal run and the real one are at the same instruction, with the same
cache. The selectors may differ in front of a NOP, which clears them. -/
structure Follows (program : Program) (branches : List LongBranch) (ideal real : Run) : Prop where
  pipeline : real.cpu.state.pipeline = ideal.cpu.state.pipeline
  cache : real.cpu.cache = ideal.cpu.cache
  core : ideal.cpu.state.pipeline ≠ 1 → real.cpu.state = ideal.cpu.state
  selectors : real.cpu.state.core.resetSelectors = ideal.cpu.state.core.resetSelectors
  performed : real.performed.filterMap (sourceView branches) =
    ideal.performed.filterMap (sourceView branches)
  steady : Steady (LongBranch.Held branches) ideal.cpu
  regular : ∀ n run, Machine.Runs (idealMachine program branches) n ideal run →
    Regular program branches run.cpu.state

theorem Follows.here {ideal real : Run} (h : Follows program branches ideal real) :
    Regular program branches ideal.cpu.state :=
  h.regular 0 ideal (Machine.Runs.refl (A := idealMachine program branches) ideal)

/-- Without its trace, the real machine does the step of the ideal one. -/
theorem Follows.alike {ideal real : Run} (h : Follows program branches ideal real) :
    step program real.cpu = step program ideal.cpu := by
  by_cases hp : ideal.cpu.state.pipeline = 1
  · exact step_nop_congr (h.pipeline.trans hp) hp h.cache h.selectors
  · have hcpu : real.cpu = ideal.cpu := by
      show (⟨real.cpu.state, real.cpu.cache⟩ : Cpu) = ⟨ideal.cpu.state, ideal.cpu.cache⟩
      rw [h.core hp, h.cache]
    rw [hcpu]

theorem gsuMachine_step {run : Run} {after : Cpu} (h : step program run.cpu = .ok after) :
    (gsuMachine program branches).step run =
      .ok ⟨after, run.performed ++ [run.cpu.state.current]⟩ := by
  show runStep (tracedStep program) run = _
  unfold runStep tracedStep
  rw [h]
  rfl

theorem gsuMachine_halt {run : Run} {halt : Halt} (h : step program run.cpu = .error halt) :
    (gsuMachine program branches).step run = .error halt := by
  show runStep (tracedStep program) run = _
  unfold runStep tracedStep
  rw [h]
  rfl

/-- What a step of the ideal machine can do. -/
theorem idealMachine_cases (run : Run) :
    (∃ branch, LongBranch.at? branches run.cpu.state.address = some branch ∧
      (idealMachine program branches).step run = .ok ⟨takeBranch program branch run.cpu,
        run.performed ++ [{ run.cpu.state.current with opcode := branch.opcode }]⟩) ∨
    (LongBranch.at? branches run.cpu.state.address = none ∧
      ((∃ next, step program run.cpu = .ok next ∧ (idealMachine program branches).step run =
          .ok ⟨next, run.performed ++ [run.cpu.state.current]⟩) ∨
      ∃ halt, step program run.cpu = .error halt ∧
        (idealMachine program branches).step run = .error halt)) := by
  have hdef : (idealMachine program branches).step run =
      runStep (idealStep program branches) run := rfl
  rw [hdef]
  unfold runStep idealStep
  cases hat : LongBranch.at? branches run.cpu.state.address with
  | some branch => exact Or.inl ⟨branch, rfl, rfl⟩
  | none =>
      refine Or.inr ⟨rfl, ?_⟩
      unfold tracedStep
      cases step program run.cpu with
      | error halt => exact Or.inr ⟨halt, rfl, rfl⟩
      | ok next => exact Or.inl ⟨next, rfl, rfl⟩

/-- The regularity of a run's states, after its first step. -/
theorem Follows.later {ideal next real : Run} (h : Follows program branches ideal real)
    (hstep : (idealMachine program branches).step ideal = .ok next) (n : Nat) (run : Run)
    (hrun : Machine.Runs (idealMachine program branches) n next run) :
    Regular program branches run.cpu.state :=
  h.regular (n + 1) run (Machine.Runs.head hstep hrun)

/-- Away from the long branches, both machines do the same step. -/
theorem Follows.raw {ideal real : Run} {next : Cpu} (h : Follows program branches ideal real)
    (hnext : step program ideal.cpu = .ok next)
    (hstep : (idealMachine program branches).step ideal =
      .ok ⟨next, ideal.performed ++ [ideal.cpu.state.current]⟩) :
    ∃ n run, Machine.Runs (gsuMachine program branches) (n + 1) real run ∧
      Follows program branches ⟨next, ideal.performed ++ [ideal.cpu.state.current]⟩ run := by
  have hreal : step program real.cpu = .ok next := h.alike.trans hnext
  refine ⟨0, _, Machine.Runs.single (gsuMachine_step hreal), ?_⟩
  refine ⟨rfl, rfl, fun _ => rfl, rfl, ?_, step_steady h.here.intact h.steady hnext,
    h.later hstep⟩
  -- the two performed the same instruction, or both a NOP
  have hview : sourceView branches real.cpu.state.current =
      sourceView branches ideal.cpu.state.current := by
    by_cases hp : ideal.cpu.state.pipeline = 1
    · rw [sourceView_nop ideal.cpu.state.current hp,
        sourceView_nop real.cpu.state.current (h.pipeline.trans hp)]
    · rw [h.core hp]
  rw [List.filterMap_append, List.filterMap_append, h.performed]
  simp only [List.filterMap_cons, hview]

/-- A branch stands in the pipeline with its own first byte. -/
theorem Follows.first {ideal real : Run} {branch : LongBranch}
    (h : Follows program branches ideal real)
    (hb : LongBranch.at? branches ideal.cpu.state.address = some branch) {byte : Byte}
    (hbyte : branch.bytes[0]? = some byte) (hne : byte ≠ 1) :
    real.cpu = ⟨⟨ideal.cpu.state.core, byte, some branch.start⟩, ideal.cpu.cache⟩ := by
  obtain ⟨hm, haddress⟩ := at?_eq_some hb
  have hpipeline : ideal.cpu.state.pipeline = byte :=
    h.steady.fetched branch.start byte haddress ⟨branch, hm, 0, hbyte, by simp⟩
  have hstate := h.core (hpipeline ▸ hne)
  show (⟨real.cpu.state, real.cpu.cache⟩ : Cpu) = _
  rw [hstate, h.cache, ← hpipeline, ← haddress]

/-- The states of the two machines behind a long branch. -/
theorem Follows.taken {ideal real last : Run} {branch : LongBranch}
    (h : Follows program branches ideal real)
    (hstep : (idealMachine program branches).step ideal = .ok ⟨takeBranch program branch ideal.cpu,
      ideal.performed ++ [{ ideal.cpu.state.current with opcode := branch.opcode }]⟩)
    (hpipeline : last.cpu.state.pipeline = 1)
    (hcore : last.cpu.state.core.resetSelectors = (ideal.cpu.state.core.jump
      (if branchTaken branch.opcode ideal.cpu.state.core then branch.target
        else branch.next)).resetSelectors)
    (hperformed : last.performed.filterMap (sourceView branches) =
      (ideal.performed ++ [{ ideal.cpu.state.current with opcode := branch.opcode }]).filterMap
        (sourceView branches))
    (hcache : last.cpu.cache = (takeBranch program branch ideal.cpu).cache)
    (hcoherent : Coherent (LongBranch.Held branches) last.cpu.cache) :
    Follows program branches ⟨takeBranch program branch ideal.cpu,
      ideal.performed ++ [{ ideal.cpu.state.current with opcode := branch.opcode }]⟩ last := by
  refine ⟨hpipeline, hcache, fun hne => absurd rfl hne, ?_, hperformed, ?_, h.later hstep⟩
  · rw [hcore]
    unfold takeBranch
    dsimp only
    rw [write_pc]
    rfl
  · exact ⟨hcache ▸ hcoherent, fun _ _ hnone => by cases hnone⟩

theorem takeBranch_cache (program : Program) (branch : LongBranch) (cpu : Cpu) :
    (takeBranch program branch cpu).cache = passAll program cpu.state.core
      (if branch.opcode = 5 then 3 else if branchTaken branch.opcode cpu.state.core then 6 else 2)
      (branch.start + 1) cpu.cache := rfl

theorem passAll_two (program : Program) (core : Core) (count : Nat) (address : Word)
    (cache : Cache) : passAll program core (count + 2) address cache =
      passAll program core count (address + 1 + 1)
        (passOver program core (passOver program core cache address) (address + 1)) := rfl

/-- Passing over bytes reads RAM. -/
theorem passAll_congr {core other : Core} (hram : other.ram = core.ram) (count : Nat) :
    ∀ address cache, passAll program other count address cache =
      passAll program core count address cache := by
  induction count with
  | zero =>
      intro address cache
      rfl
  | succ count ih =>
      intro address cache
      have hpc : (other.setPc address).pc = (core.setPc address).pc := by rw [setPc_pc, setPc_pc]
      have hram' : (other.setPc address).ram = (core.setPc address).ram := hram
      have hpass : passOver program other cache address = passOver program core cache address := by
        unfold passOver
        rw [fetch_congr hpc hram']
      unfold passAll
      rw [hpass, ih]

/-- The first instruction of a long branch, as the real machine performs it. -/
theorem Follows.viewed {ideal real : Run} {branch : LongBranch}
    (h : Follows program branches ideal real)
    (hb : LongBranch.at? branches ideal.cpu.state.address = some branch) {byte : Byte}
    (hne : byte ≠ 1) (hne' : branch.opcode ≠ 1) :
    (real.performed ++ [(⟨some branch.start, byte, ideal.cpu.state.core⟩ : Performed)]).filterMap
        (sourceView branches) =
      (ideal.performed ++ [{ ideal.cpu.state.current with opcode := branch.opcode }]).filterMap
        (sourceView branches) := by
  have hsame := sourceView_start hb byte branch.opcode hne hne'
  have haddress := (at?_eq_some hb).2
  rw [List.filterMap_append, List.filterMap_append, h.performed]
  simp only [State.current] at hsame ⊢
  rw [haddress] at hsame
  simp only [List.filterMap_cons, haddress, hsame]

/-- An unconditional long branch is one jump. -/
theorem Follows.jump {ideal real : Run} {branch : LongBranch}
    (h : Follows program branches ideal real) (hp : Placed program branch)
    (hb : LongBranch.at? branches ideal.cpu.state.address = some branch)
    (hopcode : branch.opcode = 5)
    (hstep : (idealMachine program branches).step ideal = .ok ⟨takeBranch program branch ideal.cpu,
      ideal.performed ++ [{ ideal.cpu.state.current with opcode := branch.opcode }]⟩) :
    ∃ n run, Machine.Runs (gsuMachine program branches) (n + 1) real run ∧
      Follows program branches ⟨takeBranch program branch ideal.cpu,
        ideal.performed ++ [{ ideal.cpu.state.current with opcode := branch.opcode }]⟩ run := by
  have hbytes := bytes_jump hopcode
  have hfirst := h.first hb (by rw [hbytes]; rfl) (by decide)
  have hpc := h.here.sequential branch hb
  obtain ⟨halt1, halt2⟩ := h.here.plain branch hb hopcode
  have hreads := (hbytes ▸ hp.reads (at?_eq_some hb).1).2.2
  rw [← hpc] at hreads
  have hintact := h.here.intact
  obtain ⟨hlow, hcache1⟩ := hreads.fetch hintact h.steady.coherent
  obtain ⟨hhigh, hcache2⟩ := hreads.2.2.fetch hintact hcache1
  obtain ⟨hslot, hcache3⟩ := hreads.2.2.2.2.fetch hintact hcache2
  rw [setPc_self] at hlow
  have hjump := step_iwt ideal.cpu.state.core (some branch.start) halt1 halt2 hlow hhigh hslot
  rw [← hfirst, word_of_bytes] at hjump
  refine ⟨0, _, Machine.Runs.single (gsuMachine_step hjump), h.taken hstep rfl ?_ ?_ ?_ hcache3⟩
  · rw [hopcode]
    rfl
  · rw [hfirst]
    exact h.viewed hb (show (0xff : Byte) ≠ 1 by decide) (by rw [hopcode]; decide)
  · rw [takeBranch_cache, if_pos hopcode, ← hpc]
    rfl

/-- A NOP and the jump behind it. -/
theorem nop_jump (target : Word) (run : Run) {core : Core} {cache : Cache} {address : Option Word}
    (hcpu : run.cpu = ⟨⟨core, 1, address⟩, cache⟩)
    (hi : Intact program (LongBranch.Held branches) core)
    (hc : Coherent (LongBranch.Held branches) cache)
    (hreads : Reads program (LongBranch.Held branches) core.pc
      [0xff, target.setWidth 8, (target >>> 8).setWidth 8, 0x01]) :
    ∃ last : Run, Machine.Runs (gsuMachine program branches) 2 run last ∧
      last.cpu.state.pipeline = 1 ∧
      last.cpu.state.core.resetSelectors = (core.jump target).resetSelectors ∧
      last.cpu.cache = passAll program core 4 core.pc cache ∧
      Coherent (LongBranch.Held branches) last.cpu.cache ∧ ∃ event, event.address = some core.pc ∧
        last.performed = run.performed ++ [⟨address, 1, core⟩, event] := by
  obtain ⟨hiwt, hcache1⟩ := hreads.fetch hi hc
  obtain ⟨hlow, hcache2⟩ := hreads.2.2.fetch hi hcache1
  obtain ⟨hhigh, hcache3⟩ := hreads.2.2.2.2.fetch hi hcache2
  obtain ⟨hslot, hcache4⟩ := hreads.2.2.2.2.2.2.fetch hi hcache3
  rw [setPc_self] at hiwt
  have hfirst := step_nop address hiwt
  -- behind the NOP, the fetches are those of the same addresses
  have hmoved : ∀ (goal : Word) (cache : Cache), fetch program (core.afterNop.setPc goal) cache =
      fetch program (core.setPc goal) cache := fun goal cache => fetch_congr rfl rfl cache
  have hlow' : fetch program core.afterNop (passOver program core cache core.pc) =
      fetch program (core.setPc (core.pc + 1)) (passOver program core cache core.pc) :=
    fetch_congr ((afterNop_pc core).trans (setPc_pc core _).symm) rfl _
  rw [← hlow'] at hlow
  rw [← hmoved, ← afterNop_pc] at hhigh
  rw [← hmoved, ← afterNop_pc] at hslot
  have hsecond := step_iwt core.afterNop (some core.pc) rfl rfl hlow hhigh hslot
  rw [word_of_bytes] at hsecond
  rw [← hcpu] at hfirst
  refine ⟨_, .head (gsuMachine_step hfirst) (.single (gsuMachine_step hsecond)), rfl, ?_, ?_, hcache4,
    ⟨some core.pc, 0xff, core.afterNop⟩, rfl, ?_⟩
  · exact afterNop_jump core target
  · rw [afterNop_pc]
    rfl
  · rw [hcpu, List.append_assoc]
    rfl

/-- A conditional long branch is its inverse around a jump. -/
theorem Follows.conditional {ideal real : Run} {branch : LongBranch}
    (h : Follows program branches ideal real) (hp : Placed program branch)
    (hb : LongBranch.at? branches ideal.cpu.state.address = some branch)
    (hopcode : branch.opcode ≠ 5)
    (hstep : (idealMachine program branches).step ideal = .ok ⟨takeBranch program branch ideal.cpu,
      ideal.performed ++ [{ ideal.cpu.state.current with opcode := branch.opcode }]⟩) :
    ∃ n run, Machine.Runs (gsuMachine program branches) (n + 1) real run ∧
      Follows program branches ⟨takeBranch program branch ideal.cpu,
        ideal.performed ++ [{ ideal.cpu.state.current with opcode := branch.opcode }]⟩ run := by
  have hbytes := bytes_conditional hopcode
  have hge := hp.condition hopcode
  obtain ⟨hge', hle'⟩ := inverse_range hge hp.opcode_le
  have hne := inverse_ne_nop hp.opcode_ge
  have hinverse := branchTaken_inverse hge hp.opcode_le ideal.cpu.state.core
  have hfirst := h.first hb (by rw [hbytes]; rfl) hne
  have hpc := h.here.sequential branch hb
  have hnext : branch.next = ideal.cpu.state.core.pc + 1 + (5 : Byte).signExtend 16 := by
    unfold LongBranch.next
    rw [hbytes, hpc, BitVec.add_assoc, BitVec.add_assoc]
    rfl
  have hreads := (hbytes ▸ hp.reads (at?_eq_some hb).1).2.2
  rw [← hpc] at hreads
  have hintact := h.here.intact
  obtain ⟨hoffset, hcache1⟩ := hreads.fetch hintact h.steady.coherent
  obtain ⟨hslot, hcache2⟩ := hreads.2.2.fetch hintact hcache1
  rw [setPc_self] at hoffset
  have hbranch := step_branch (some branch.start) hge' hle' hoffset hslot
  rw [← hfirst, ← hnext, hinverse] at hbranch
  have hviewed := h.viewed hb hne (by rintro heq; rw [heq] at hge; exact absurd hge (by decide))
  by_cases htaken : branchTaken branch.opcode ideal.cpu.state.core = true
  · -- the inverse falls through, past its NOP, to the jump
    rw [htaken, Bool.not_true, if_neg (by decide)] at hbranch
    have hpc' : ({ ideal.cpu.state.core with pcWritten := false }.setPc
        (ideal.cpu.state.core.pc + 1 + 1)).pc = ideal.cpu.state.core.pc + 1 + 1 := setPc_pc _ _
    have hintact' : Intact program (LongBranch.Held branches)
        ({ ideal.cpu.state.core with pcWritten := false }.setPc
          (ideal.cpu.state.core.pc + 1 + 1)) := hintact.of_ram rfl
    obtain ⟨last, hruns, hpipeline, hcore, hcache, hcoherent, event, haddress, hperformed⟩ :=
      nop_jump branch.target ⟨_, real.performed ++ [real.cpu.state.current]⟩ rfl hintact' hcache2
        (hpc'.symm ▸ hreads.2.2.2.2)
    refine ⟨2, last, .head (gsuMachine_step hbranch) hruns, h.taken hstep hpipeline ?_ ?_ ?_ hcoherent⟩
    · rw [hcore, jump_setPc, htaken, if_pos rfl]
      rfl
    · rw [hperformed, List.filterMap_append, hfirst]
      have hwithin : sourceView branches event = none := by
        apply sourceView_within (at?_eq_some hb).1 (i := 3) (by decide)
        · rw [hbytes]
          simp
        · rw [hbytes]
          simp
        · rw [haddress, hpc', hpc, BitVec.add_assoc, BitVec.add_assoc]
          rfl
      have htail : List.filterMap (sourceView branches)
          [⟨some (ideal.cpu.state.core.pc + 1), 1, { ideal.cpu.state.core with
            pcWritten := false }.setPc (ideal.cpu.state.core.pc + 1 + 1)⟩, event] = [] := by
        simp only [List.filterMap_cons, hwithin, sourceView_nop, List.filterMap_nil]
      rw [htail, List.append_nil]
      exact hviewed
    · rw [takeBranch_cache, if_neg hopcode, if_pos htaken, ← hpc, hcache, hpc']
      have hram : ({ ideal.cpu.state.core with pcWritten := false }.setPc
          (ideal.cpu.state.core.pc + 1 + 1)).ram = ideal.cpu.state.core.ram := rfl
      exact (passAll_congr hram 4 _ _).trans (passAll_two program ideal.cpu.state.core 4 _ _).symm
  · have hfalse : branchTaken branch.opcode ideal.cpu.state.core = false := by simpa using htaken
    rw [hfalse, Bool.not_false, if_pos rfl] at hbranch
    refine ⟨0, _, Machine.Runs.single (gsuMachine_step hbranch), h.taken hstep rfl ?_ ?_ ?_ hcache2⟩
    · rw [hfalse, if_neg (by decide)]
    · rw [hfirst]
      exact hviewed
    · rw [takeBranch_cache, if_neg hopcode, if_neg htaken, ← hpc]
      rfl

/-- Long branches are transparent, step by step. -/
theorem longBranch_simulation (hp : ∀ branch ∈ branches, Placed program branch) :
    Machine.Simulation (idealMachine program branches) (gsuMachine program branches)
      (Follows program branches) where
  trace ideal real h := h.performed.symm
  step ideal real next h hstep := by
    rcases idealMachine_cases ideal with ⟨branch, hb, heq⟩ | ⟨-, ⟨cpu, hcpu, heq⟩ | ⟨halt, -, heq⟩⟩
    · rw [heq] at hstep
      cases hstep
      have hplaced := hp branch (at?_eq_some hb).1
      by_cases hopcode : branch.opcode = 5
      · exact h.jump hplaced hb hopcode heq
      · exact h.conditional hplaced hb hopcode heq
    · rw [heq] at hstep
      cases hstep
      exact h.raw hcpu heq
    · rw [heq] at hstep
      cases hstep
  halt ideal real e h hstep := by
    rcases idealMachine_cases ideal with ⟨branch, -, heq⟩ | ⟨-, ⟨cpu, -, heq⟩ | ⟨halt, hhalt, heq⟩⟩
    · rw [heq] at hstep
      cases hstep
    · rw [heq] at hstep
      cases hstep
    · rw [heq] at hstep
      cases hstep
      exact ⟨0, real, .refl real, gsuMachine_halt (h.alike.trans hhalt), rfl, h.performed.symm⟩

/-- A machine about to start: a NOP from nowhere in the pipeline. -/
def startRun (core : Core) : Run := ⟨⟨{ core := core }, {}⟩, []⟩

/-- From a start, the real machine performs what the ideal one does. -/
theorem longBranch_sameBehavior (hp : ∀ branch ∈ branches, Placed program branch) (core : Core)
    (hregular : ∀ n run, Machine.Runs (idealMachine program branches) n (startRun core) run →
      Regular program branches run.cpu.state) :
    Machine.SameBehavior (idealMachine program branches) (gsuMachine program branches)
      (startRun core) (startRun core) := by
  apply (longBranch_simulation hp).sameBehavior
  refine ⟨rfl, rfl, fun _ => rfl, rfl, rfl, ⟨coherent_empty _, ?_⟩, hregular⟩
  intro address byte hnone
  cases hnone

end Simulation

end Disco.Gsu
