import Disco.Gsu.Cache

/-! # Single steps

What a step does, given the bytes that it fetches: a NOP, a short branch, a
jump through IWT, an immediate load, or an instruction without operands.
-/

namespace Disco.Gsu

open Library

/-! ## R15 -/

@[simp] theorem resetSelectors_pc (core : Core) : core.resetSelectors.pc = core.pc := rfl

@[simp] theorem setPc_pc (core : Core) (pc : Word) : (core.setPc pc).pc = pc := by
  simp [Core.setPc, Core.pc]

theorem setPc_self (core : Core) : core.setPc core.pc = core := by
  simp [Core.setPc, Core.pc]

theorem setPc_setPc (core : Core) (first second : Word) :
    (core.setPc first).setPc second = core.setPc second := by
  simp [Core.setPc]

/-- A transfer to an address. -/
def Core.jump (core : Core) (goal : Word) : Core :=
  { core with registers := Function.update core.registers 15 goal, pcWritten := true }

theorem write_pc (core : Core) (goal : Word) : core.write 15 goal = core.jump goal := by
  simp [Core.write, Core.jump]

theorem jump_setPc (core : Core) (pc goal : Word) : (core.setPc pc).jump goal = core.jump goal := by
  simp [Core.setPc, Core.jump]

section Steps

variable {program : Program} {core : Core} {cache : Cache} {pipeline : Byte}
  {address : Option Word}

/-- A fetch reads R15 and RAM. -/
theorem fetch_congr {other : Core} (hpc : other.pc = core.pc) (hram : other.ram = core.ram)
    (cache : Cache) : fetch program other cache = fetch program core cache := by
  have hbyte : programByte program other = programByte program core := by
    funext address
    unfold programByte
    rw [hram]
  unfold fetch lineBytes
  rw [hpc, hbyte]

theorem prefetch_eq {byte : Byte} {next : Cache} (h : fetch program core cache = .ok (byte, next)) :
    prefetch program ⟨⟨core, pipeline, address⟩, cache⟩ =
      .ok ⟨⟨core, byte, some core.pc⟩, next⟩ := by
  unfold prefetch
  dsimp only
  rw [h]
  rfl

theorem operand_eq {byte : Byte} {next : Cache}
    (h : fetch program (core.setPc (core.pc + 1)) cache = .ok (byte, next)) :
    operand program ⟨⟨core, pipeline, address⟩, cache⟩ =
      .ok (pipeline, ⟨⟨core.setPc (core.pc + 1), byte, some (core.pc + 1)⟩, next⟩) := by
  unfold operand
  show (prefetch program ⟨⟨core.setPc (core.pc + 1), pipeline, address⟩, cache⟩ >>=
    fun cpu => Except.ok (pipeline, cpu)) = _
  rw [prefetch_eq h, setPc_pc]
  rfl

theorem perform_nop (program : Program) (core : Core) :
    perform program 1 core = .ok core.resetSelectors := by
  unfold perform
  rw [if_pos (by rfl)]

theorem execute_nop (program : Program) (cpu : Cpu) :
    execute program 1 cpu = .ok (mapCore Core.resetSelectors cpu) := by
  have hbyte : (1 : Byte).toNat = 1 := rfl
  unfold execute
  simp only [hbyte, perform_nop]
  rfl

theorem step_eq (program : Program) (cpu : Cpu) (h : cpu.state.pipeline = 1) : step program cpu =
    ((prefetch program cpu).mapError Halt.fault >>= fun next => .ok (advance
      (mapCore (fun core => { core with pcWritten := false }.resetSelectors) next))) := by
  unfold step
  rw [h]
  cases prefetch program cpu with
  | error e => rfl
  | ok next =>
      simp only [Except.mapError, ok_bind, execute_nop, show ¬ (1 : Byte) = 0 by decide, if_false]
      rfl

/-- The registers behind a NOP: it only clears the selectors. -/
def Core.afterNop (core : Core) : Core :=
  ({ core with pcWritten := false }.resetSelectors).setPc (core.pc + 1)

@[simp] theorem afterNop_pc (core : Core) : core.afterNop.pc = core.pc + 1 := setPc_pc _ _

theorem afterNop_jump (core : Core) (goal : Word) :
    (core.afterNop.jump goal).resetSelectors = (core.jump goal).resetSelectors := by
  unfold Core.afterNop
  rw [jump_setPc]
  rfl

theorem step_nop (address : Option Word) {byte : Byte} {next : Cache}
    (h : fetch program core cache = .ok (byte, next)) :
    step program ⟨⟨core, 1, address⟩, cache⟩ = .ok ⟨⟨core.afterNop, byte, some core.pc⟩, next⟩ := by
  rw [step_eq _ _ rfl, prefetch_eq h]
  rfl

/-- Behind a NOP comes the instruction at R15. -/
theorem step_nop_address {cpu after : Cpu} (hc : cpu.state.pipeline = 1)
    (h : step program cpu = .ok after) : after.state.address = some cpu.state.core.pc := by
  rw [step_eq program cpu hc] at h
  obtain ⟨next, hnext, h⟩ := bind_eq_ok.mp h
  cases h
  rw [mapError_eq_ok] at hnext
  obtain ⟨byte, -, hbyte⟩ := bind_eq_ok.mp hnext
  cases hbyte
  rfl

/-- A NOP does not read the selectors. -/
theorem step_nop_congr {cpu other : Cpu} (hc : cpu.state.pipeline = 1)
    (ho : other.state.pipeline = 1) (hcache : cpu.cache = other.cache)
    (h : cpu.state.core.resetSelectors = other.state.core.resetSelectors) :
    step program cpu = step program other := by
  have hreset : ∀ cpu : Cpu, cpu.state.pipeline = 1 → step program cpu =
      step program ⟨⟨cpu.state.core.resetSelectors, 1, none⟩, cpu.cache⟩ := by
    intro cpu hcpu
    rw [step_eq _ _ hcpu, step_eq _ _ rfl]
    unfold prefetch
    dsimp only
    rw [fetch_congr (resetSelectors_pc cpu.state.core) rfl cpu.cache]
    cases fetch program cpu.state.core cpu.cache <;> rfl
  rw [hreset cpu hc, hreset other ho, h, hcache]

/-- A short branch reads its displacement and decides. -/
theorem step_branch (address : Option Word) {opcode offset slot : Byte} {first second : Cache}
    (hge : 5 ≤ opcode.toNat) (hle : opcode.toNat ≤ 15)
    (hoffset : fetch program core cache = .ok (offset, first))
    (hslot : fetch program (core.setPc (core.pc + 1)) first = .ok (slot, second)) :
    step program ⟨⟨core, opcode, address⟩, cache⟩ =
      .ok ⟨⟨if branchTaken opcode core then core.jump (core.pc + 1 + offset.signExtend 16)
        else { core with pcWritten := false }.setPc (core.pc + 1 + 1),
        slot, some (core.pc + 1)⟩, second⟩ := by
  have hne : opcode ≠ 0 := by
    rintro rfl
    exact absurd hge (by decide)
  have hoperand : operand program ⟨⟨{ core with pcWritten := false }, offset, some core.pc⟩, first⟩ =
      .ok (offset, ⟨⟨{ core with pcWritten := false }.setPc (core.pc + 1), slot,
        some (core.pc + 1)⟩, second⟩) :=
    operand_eq ((fetch_congr rfl rfl first).trans hslot)
  unfold step
  rw [prefetch_eq hoffset]
  simp only [Except.mapError, ok_bind, if_neg hne]
  unfold execute
  dsimp only
  rw [if_pos ⟨hge, hle⟩]
  unfold executeBranch
  show ((operand program ⟨⟨{ core with pcWritten := false }, offset,
    some core.pc⟩, first⟩ >>= _).mapError _ >>= _) = _
  rw [hoperand]
  simp only [ok_bind]
  have htaken : branchTaken opcode ({ core with pcWritten := false }.setPc (core.pc + 1)) =
      branchTaken opcode core := rfl
  rw [htaken]
  by_cases ht : branchTaken opcode core = true
  · rw [if_pos ht, if_pos ht]
    simp only [Except.mapError, ok_bind, mapCore, write_pc, jump_setPc, setPc_pc]
    rfl
  · rw [if_neg ht, if_neg ht]
    simp only [Except.mapError, ok_bind]
    show Except.ok (mapCore (fun core : Core => core.setPc (core.pc + 1)) _) = _
    simp only [mapCore, setPc_pc, setPc_setPc]

/-- IWT R15 jumps to the word behind it; the byte behind that is prefetched. -/
theorem step_iwt (core : Core) (address : Option Word) (halt1 : core.alt1 = false)
    (halt2 : core.alt2 = false) {low high slot : Byte} {first second third : Cache}
    (hlow : fetch program core cache = .ok (low, first))
    (hhigh : fetch program (core.setPc (core.pc + 1)) first = .ok (high, second))
    (hslot : fetch program (core.setPc (core.pc + 1 + 1)) second = .ok (slot, third)) :
    step program ⟨⟨core, 0xff, address⟩, cache⟩ =
      .ok ⟨⟨(core.jump (low.setWidth 16 ||| (high.setWidth 16 <<< 8))).resetSelectors,
        slot, some (core.pc + 1 + 1)⟩, third⟩ := by
  have hfirst : operand program ⟨⟨{ core with pcWritten := false }, low, some core.pc⟩, first⟩ =
      .ok (low, ⟨⟨{ core with pcWritten := false }.setPc (core.pc + 1), high,
        some (core.pc + 1)⟩, second⟩) :=
    operand_eq ((fetch_congr rfl rfl first).trans hhigh)
  have hsecond : operand program ⟨⟨{ core with pcWritten := false }.setPc (core.pc + 1), high,
        some (core.pc + 1)⟩, second⟩ =
      .ok (high, ⟨⟨{ core with pcWritten := false }.setPc (core.pc + 1 + 1), slot,
        some (core.pc + 1 + 1)⟩, third⟩) := by
    have hnext : fetch program (({ core with pcWritten := false }.setPc (core.pc + 1)).setPc
        (({ core with pcWritten := false }.setPc (core.pc + 1)).pc + 1)) second =
        .ok (slot, third) := by
      rw [setPc_setPc, setPc_pc]
      exact (fetch_congr rfl rfl second).trans hslot
    rw [operand_eq hnext, setPc_pc, setPc_setPc]
  unfold step
  rw [prefetch_eq hlow]
  simp only [Except.mapError, ok_bind, show ¬ (0xff : Byte) = 0 by decide, if_false]
  have hexecute : execute program 0xff (mapCore (fun core => { core with pcWritten := false })
      ⟨⟨core, low, some core.pc⟩, first⟩) =
      executeIwt program 0xff ⟨⟨{ core with pcWritten := false }, low, some core.pc⟩, first⟩ := by
    unfold execute
    simp [mapCore, halt1, halt2]
  rw [hexecute]
  unfold executeIwt
  rw [hfirst]
  simp only [ok_bind]
  rw [hsecond]
  simp only [ok_bind, mapCore]
  have hindex : Fin.ofNat 16 (0xff : Byte).toNat = 15 := rfl
  simp only [hindex, write_pc, jump_setPc]
  rfl

end Steps

/-! ## Code that stays -/

section Reads

variable {program : Program} {held : Word → Byte → Prop}

/-- From an address on, bytes that stay and may be fetched. -/
def Reads (program : Program) (held : Word → Byte → Prop) : Word → List Byte → Prop
  | _, [] => True
  | address, byte :: rest =>
      inside program address ∧ held address byte ∧ Reads program held (address + 1) rest

theorem reads_of_get (list : List Byte) : ∀ address : Word,
    (∀ i < list.length, inside program (address + BitVec.ofNat 16 i)) →
    (∀ i byte, list[i]? = some byte → held (address + BitVec.ofNat 16 i) byte) →
    Reads program held address list := by
  induction list with
  | nil =>
      intro address _ _
      trivial
  | cons byte rest ih =>
      intro address hin hheld
      have hzero : address + BitVec.ofNat 16 0 = address := by simp
      have hnext : ∀ i : Nat, address + 1 + BitVec.ofNat 16 i = address + BitVec.ofNat 16 (i + 1) := by
        intro i
        rw [Nat.add_comm i 1, BitVec.ofNat_add, BitVec.add_assoc]
        rfl
      refine ⟨hzero ▸ hin 0 (by simp), hzero ▸ hheld 0 byte rfl, ih (address + 1) ?_ ?_⟩
      · intro i hi
        rw [hnext]
        exact hin (i + 1) (by simpa using hi)
      · intro i other hother
        rw [hnext]
        exact hheld (i + 1) other (by simpa using hother)

/-- A jump's operand bytes make up its target. -/
theorem word_of_bytes (target : Word) :
    (target.setWidth 8).setWidth 16 ||| (((target >>> 8).setWidth 8).setWidth 16 <<< 8) = target := by
  ext i hi
  interval_cases i <;> simp

end Reads

end Disco.Gsu
