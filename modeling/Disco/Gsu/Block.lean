import Disco.Gsu.Steps

/-! # Blocks of code

A block leads from one address to another, and from registers and memory to
others, whatever the cache holds. R15 is not part of these registers: it is
known from the address. Blocks follow each other, and every instruction that
stays in line is one.
-/

namespace Disco.Gsu

open Library

/-! ## Where a machine stands -/

/-- The machine without a trace. -/
def cpuMachine (program : Program) : Machine.{0} Halt Unit Performed where
  State := Cpu
  step := step program
  observe _ := ()
  trace _ := []
  grows _ _ _ := List.prefix_rfl

/-- About to perform the instruction at an address, with the given registers and
memory. -/
structure Stands (program : Program) (held : Word → Byte → Prop) (address : Word) (core : Core)
    (cpu : Cpu) : Prop where
  settled : { cpu.state.core with pcWritten := false } = core.setPc (address + 1)
  fetched : ∀ byte, held address byte → cpu.state.pipeline = byte
  coherent : Coherent held cpu.cache
  intact : Intact program held core

/-- Code that leads from an address to another. -/
def Block (program : Program) (held : Word → Byte → Prop) (start : Word) (core : Core)
    (stop : Word) (after : Core) : Prop :=
  ∀ cpu, Stands program held start core cpu → ∃ n next,
    Machine.Runs (cpuMachine program) n cpu next ∧ Stands program held stop after next

section Blocks

variable {program : Program} {held : Word → Byte → Prop} {start middle stop : Word}
  {core between after : Core}

theorem Block.refl : Block program held start core start core :=
  fun cpu h => ⟨0, cpu, Machine.Runs.refl (A := cpuMachine program) cpu, h⟩

theorem Block.trans (h : Block program held start core middle between)
    (k : Block program held middle between stop after) :
    Block program held start core stop after := by
  intro cpu hcpu
  rcases h cpu hcpu with ⟨n, next, hruns, hnext⟩
  rcases k next hnext with ⟨m, last, hruns', hlast⟩
  exact ⟨n + m, last, hruns.append hruns', hlast⟩

theorem settle_of_clear (h : core.pcWritten = false) (pc : Word) :
    { core.setPc pc with pcWritten := false } = core.setPc pc := by
  have hsame : (core.setPc pc).pcWritten = false := h
  rw [← hsame]

/-- A step forgets whether the one before it has written R15. -/
theorem step_settled (cpu : Cpu) : step program cpu = step program
    ⟨⟨{ cpu.state.core with pcWritten := false }, cpu.state.pipeline, cpu.state.address⟩,
      cpu.cache⟩ := by
  unfold step prefetch
  dsimp only
  rw [fetch_congr (show Core.pc { cpu.state.core with pcWritten := false } = cpu.state.core.pc from rfl)
    rfl cpu.cache]
  cases fetch program cpu.state.core cpu.cache <;> rfl

/-- What stays at an address is one byte. -/
theorem Intact.unique (hi : Intact program held core) {address : Word} {byte other : Byte}
    (h : held address byte) (k : held address other) : byte = other :=
  Except.ok.inj ((hi address byte h).symm.trans (hi address other k))

/-- The step of a machine that stands at an instruction. -/
theorem Stands.step {cpu : Cpu} (h : Stands program held start core cpu) {byte : Byte}
    (hbyte : held start byte) : Gsu.step program cpu =
      Gsu.step program ⟨⟨core.setPc (start + 1), byte, cpu.state.address⟩, cpu.cache⟩ := by
  rw [step_settled cpu, h.settled, h.fetched byte hbyte]

/-- Fetching code that stays, wherever the machine is. -/
theorem Reads.get {address : Word} {byte : Byte} {rest : List Byte} {cache : Cache}
    (h : Reads program held address (byte :: rest)) (hi : Intact program held core)
    (hc : Coherent held cache) : ∃ next,
      fetch program (core.setPc address) cache = .ok (byte, next) ∧ Coherent held next := by
  have hpc : (core.setPc address).pc = address := setPc_pc core address
  have hmoved : Intact program held (core.setPc address) := hi.of_ram rfl
  exact fetch_held hmoved hc (hpc.symm ▸ h.2.1) (hpc.symm ▸ h.1)

/-! ## Instructions without operands -/

/-- An opcode that is neither STOP nor CACHE, and has no operand bytes. -/
def Simple (opcode : Byte) : Prop :=
  opcode ≠ 0 ∧ opcode ≠ 2 ∧ ¬ (5 ≤ opcode.toNat ∧ opcode.toNat ≤ 15) ∧
    ¬ (0xa0 ≤ opcode.toNat ∧ opcode.toNat ≤ 0xaf) ∧ opcode.toNat < 0xf0

instance (opcode : Byte) : Decidable (Simple opcode) := inferInstanceAs (Decidable (_ ∧ _))

theorem step_simple {cache next : Cache} {opcode byte : Byte} (core : Core) (address : Option Word)
    (hs : Simple opcode) (hfetch : fetch program core cache = .ok (byte, next)) :
    step program ⟨⟨core, opcode, address⟩, cache⟩ =
      ((perform program opcode { core with pcWritten := false }).mapError Halt.fault >>=
        fun after => .ok (advance ⟨⟨after, byte, some core.pc⟩, next⟩)) := by
  rcases hs with ⟨hstop, hcache, hbranch, hibt, hiwt⟩
  have hiwt' : ¬ 0xf0 ≤ opcode.toNat := by omega
  unfold step
  rw [prefetch_eq hfetch]
  simp only [Except.mapError, ok_bind, if_neg hstop]
  unfold execute
  dsimp only
  rw [if_neg hbranch, if_neg (fun h => hibt ⟨h.1, h.2.1⟩), if_neg (fun h => hiwt' h.1)]
  simp only [mapCore]
  cases perform program opcode { core with pcWritten := false } with
  | error fault => rfl
  | ok after => simp only [ok_bind, if_neg hcache]

theorem step_perform {cache next : Cache} {opcode byte : Byte} (address : Option Word)
    (hs : Simple opcode) (hfetch : fetch program core cache = .ok (byte, next))
    (hp : perform program opcode { core with pcWritten := false } = .ok after)
    (hw : after.pcWritten = false) : step program ⟨⟨core, opcode, address⟩, cache⟩ =
      .ok ⟨⟨after.setPc (after.pc + 1), byte, some core.pc⟩, next⟩ := by
  rw [step_simple core address hs hfetch, hp]
  simp only [Except.mapError, ok_bind]
  unfold advance
  simp only [hw]
  rfl

/-- An instruction that fetches no operand and stays in line. -/
theorem Block.perform {opcode next : Byte} {rest : List Byte}
    (hr : Reads program held start (opcode :: next :: rest)) (hs : Simple opcode)
    (hp : Gsu.perform program opcode (core.setPc (start + 1)) = .ok (after.setPc (start + 1)))
    (hw : after.pcWritten = false) (hi : Intact program held core → Intact program held after) :
    Block program held start core (start + 1) after := by
  intro cpu h
  have hcore : { core.setPc (start + 1) with pcWritten := false } = core.setPc (start + 1) := by
    rw [← h.settled]
  rcases hr.2.2.get h.intact h.coherent with ⟨cache, hfetch, hcoherent⟩
  have hperform : Gsu.perform program opcode
      { core.setPc (start + 1) with pcWritten := false } = .ok (after.setPc (start + 1)) := by
    rw [hcore]
    exact hp
  have hstep := step_perform cpu.state.address hs hfetch hperform hw
  rw [← h.step hr.2.1, setPc_pc, setPc_pc, setPc_setPc] at hstep
  refine ⟨1, _, .single hstep, settle_of_clear hw _, ?_, hcoherent, hi h.intact⟩
  intro byte hbyte
  exact h.intact.unique hr.2.2.2.1 hbyte

/-! ## Immediate loads -/

/-- An opcode that carries a register in its low half. -/
def registerOpcodeOf (base : Nat) (register : Fin 16) : Byte := BitVec.ofNat 8 (base + register.val)

theorem registerOpcodeOf_toNat {base : Nat} (hbase : base ≤ 0xf0) (register : Fin 16) :
    (registerOpcodeOf base register).toNat = base + register.val := by
  unfold registerOpcodeOf
  rw [BitVec.toNat_ofNat]
  omega

theorem registerOpcodeOf_index {base : Nat} (hbase : base ≤ 0xf0) (hdvd : 16 ∣ base)
    (register : Fin 16) : Fin.ofNat 16 (registerOpcodeOf base register).toNat = register := by
  rw [registerOpcodeOf_toNat hbase]
  apply Fin.ext
  show (base + register.val) % 16 = register.val
  omega

theorem write_setPc {register : Fin 16} (h : register ≠ 15) (pc value : Word) :
    (core.setPc pc).write register value = (core.write register value).setPc pc := by
  unfold Core.write Core.setPc
  rw [Function.update_comm h]

theorem write_clear {register : Fin 16} (h : register ≠ 15) (hw : core.pcWritten = false)
    (value : Word) : (core.write register value).pcWritten = false := by
  show (core.pcWritten || decide (register = 15)) = false
  rw [hw, decide_eq_false h]
  rfl

theorem write_pc_of_ne {register : Fin 16} (h : register ≠ 15) (value : Word) :
    (core.write register value).pc = core.pc := by
  show Function.update core.registers register value 15 = core.registers 15
  exact Function.update_of_ne (Ne.symm h) _ _

theorem resetSelectors_setPc (pc : Word) :
    (core.setPc pc).resetSelectors = core.resetSelectors.setPc pc := rfl

theorem advance_clear {cpu : Cpu} (h : cpu.state.core.pcWritten = false) :
    advance cpu = mapCore (fun core => core.setPc (core.pc + 1)) cpu := by
  unfold advance
  rw [h]
  rfl

theorem step_ibt (core : Core) (register : Fin 16) (address : Option Word)
    {cache first second : Cache} {value slot : Byte} (halt1 : core.alt1 = false)
    (halt2 : core.alt2 = false) (hw : core.pcWritten = false)
    (hvalue : fetch program core cache = .ok (value, first))
    (hslot : fetch program (core.setPc (core.pc + 1)) first = .ok (slot, second)) :
    step program ⟨⟨core, registerOpcodeOf 0xa0 register, address⟩, cache⟩ =
      .ok (advance ⟨⟨((core.setPc (core.pc + 1)).write register
        (value.signExtend 16)).resetSelectors, slot, some (core.pc + 1)⟩, second⟩) := by
  have hnat := registerOpcodeOf_toNat (show 0xa0 ≤ 0xf0 by decide) register
  have hindex := registerOpcodeOf_index (show 0xa0 ≤ 0xf0 by decide) (by decide) register
  have hstop : registerOpcodeOf 0xa0 register ≠ 0 := by
    intro heq
    rw [heq] at hnat
    simp at hnat
    omega
  have hclear : { core with pcWritten := false } = core := by rw [← hw]
  have hoperand : operand program ⟨⟨core, value, some core.pc⟩, first⟩ =
      .ok (value, ⟨⟨core.setPc (core.pc + 1), slot, some (core.pc + 1)⟩, second⟩) :=
    operand_eq hslot
  unfold step
  rw [prefetch_eq hvalue]
  simp only [Except.mapError, ok_bind, if_neg hstop, mapCore, hclear]
  unfold execute
  dsimp only
  rw [if_neg (by omega), if_pos ⟨by omega, by omega, halt1, halt2⟩]
  unfold executeIbt
  rw [hoperand]
  simp only [ok_bind, mapCore, hindex]

/-- An immediate load that stays in line. -/
theorem advance_write {register : Fin 16} (h : register ≠ 15) (hw : core.pcWritten = false)
    (pc value : Word) (pipeline : Byte) (address : Option Word) (cache : Cache) :
    advance ⟨⟨((core.setPc pc).write register value).resetSelectors, pipeline, address⟩, cache⟩ =
      ⟨⟨(core.write register value).resetSelectors.setPc (pc + 1), pipeline, address⟩, cache⟩ := by
  rw [write_setPc h, advance_clear]
  · simp only [mapCore, resetSelectors_pc, setPc_pc]
    rw [resetSelectors_setPc, setPc_setPc]
  · exact write_clear h hw value

/-- IBT. -/
theorem Block.ibt {register : Fin 16} (hregister : register ≠ 15) {value next : Byte}
    {rest : List Byte}
    (hr : Reads program held start (registerOpcodeOf 0xa0 register :: value :: next :: rest))
    (halt1 : core.alt1 = false) (halt2 : core.alt2 = false) :
    Block program held start core (start + 1 + 1)
      (core.write register (value.signExtend 16)).resetSelectors := by
  intro cpu h
  have hw : core.pcWritten = false := (congrArg Core.pcWritten h.settled).symm
  rcases hr.2.2.get h.intact h.coherent with ⟨first, hvalue, hfirst⟩
  rcases hr.2.2.2.2.get h.intact hfirst with ⟨second, hslot, hsecond⟩
  have hslot' : fetch program ((core.setPc (start + 1)).setPc ((core.setPc (start + 1)).pc + 1))
      first = .ok (next, second) := by
    rw [setPc_pc, setPc_setPc]
    exact hslot
  have hstep := step_ibt (core.setPc (start + 1)) register cpu.state.address halt1 halt2 hw hvalue hslot'
  rw [← h.step hr.2.1, setPc_pc, setPc_setPc, advance_write hregister hw] at hstep
  have hdone : (core.write register (value.signExtend 16)).resetSelectors.pcWritten = false :=
    write_clear hregister hw (value.signExtend 16)
  refine ⟨1, _, .single hstep, settle_of_clear hdone _, ?_, hsecond, h.intact.of_ram rfl⟩
  intro byte hbyte
  exact h.intact.unique hr.2.2.2.2.2.1 hbyte

theorem step_iwt_register (core : Core) (register : Fin 16)
    (address : Option Word) {cache first second third : Cache} {low high slot : Byte}
    (halt1 : core.alt1 = false) (halt2 : core.alt2 = false) (hw : core.pcWritten = false)
    (hlow : fetch program core cache = .ok (low, first))
    (hhigh : fetch program (core.setPc (core.pc + 1)) first = .ok (high, second))
    (hslot : fetch program (core.setPc (core.pc + 1 + 1)) second = .ok (slot, third)) :
    step program ⟨⟨core, registerOpcodeOf 0xf0 register, address⟩, cache⟩ =
      .ok (advance ⟨⟨((core.setPc (core.pc + 1 + 1)).write register
        (low.setWidth 16 ||| (high.setWidth 16 <<< 8))).resetSelectors,
        slot, some (core.pc + 1 + 1)⟩, third⟩) := by
  have hnat := registerOpcodeOf_toNat (show 0xf0 ≤ 0xf0 by decide) register
  have hindex := registerOpcodeOf_index (show 0xf0 ≤ 0xf0 by decide) (by decide) register
  have hstop : registerOpcodeOf 0xf0 register ≠ 0 := by
    intro heq
    rw [heq] at hnat
    simp at hnat
    omega
  have hclear : { core with pcWritten := false } = core := by rw [← hw]
  have hfirst : operand program ⟨⟨core, low, some core.pc⟩, first⟩ =
      .ok (low, ⟨⟨core.setPc (core.pc + 1), high, some (core.pc + 1)⟩, second⟩) :=
    operand_eq hhigh
  have hsecond : operand program ⟨⟨core.setPc (core.pc + 1), high, some (core.pc + 1)⟩, second⟩ =
      .ok (high, ⟨⟨core.setPc (core.pc + 1 + 1), slot, some (core.pc + 1 + 1)⟩, third⟩) := by
    have hnext : fetch program ((core.setPc (core.pc + 1)).setPc
        ((core.setPc (core.pc + 1)).pc + 1)) second = .ok (slot, third) := by
      rw [setPc_setPc, setPc_pc]
      exact hslot
    rw [operand_eq hnext, setPc_pc, setPc_setPc]
  unfold step
  rw [prefetch_eq hlow]
  simp only [Except.mapError, ok_bind, if_neg hstop, mapCore, hclear]
  unfold execute
  dsimp only
  rw [if_neg (by omega), if_neg (by omega), if_pos ⟨by omega, halt1, halt2⟩]
  unfold executeIwt
  rw [hfirst]
  simp only [ok_bind]
  rw [hsecond]
  simp only [ok_bind, mapCore, hindex]

/-- IWT. -/
theorem Block.iwt {register : Fin 16} (hregister : register ≠ 15) {low high next : Byte}
    {rest : List Byte}
    (hr : Reads program held start (registerOpcodeOf 0xf0 register :: low :: high :: next :: rest))
    (halt1 : core.alt1 = false) (halt2 : core.alt2 = false) :
    Block program held start core (start + 1 + 1 + 1)
      (core.write register (low.setWidth 16 ||| (high.setWidth 16 <<< 8))).resetSelectors := by
  intro cpu h
  have hw : core.pcWritten = false := (congrArg Core.pcWritten h.settled).symm
  rcases hr.2.2.get h.intact h.coherent with ⟨first, hlow, hfirst⟩
  rcases hr.2.2.2.2.get h.intact hfirst with ⟨second, hhigh, hsecond⟩
  rcases hr.2.2.2.2.2.2.get h.intact hsecond with ⟨third, hslot, hthird⟩
  have hhigh' : fetch program ((core.setPc (start + 1)).setPc ((core.setPc (start + 1)).pc + 1))
      first = .ok (high, second) := by
    rw [setPc_pc, setPc_setPc]
    exact hhigh
  have hslot' : fetch program ((core.setPc (start + 1)).setPc
      ((core.setPc (start + 1)).pc + 1 + 1)) second = .ok (next, third) := by
    rw [setPc_pc, setPc_setPc]
    exact hslot
  have hstep := step_iwt_register (core.setPc (start + 1)) register cpu.state.address halt1 halt2
    hw hlow hhigh' hslot'
  rw [← h.step hr.2.1, setPc_pc, setPc_setPc, advance_write hregister hw] at hstep
  have hdone : (core.write register
      (low.setWidth 16 ||| (high.setWidth 16 <<< 8))).resetSelectors.pcWritten = false :=
    write_clear hregister hw (low.setWidth 16 ||| (high.setWidth 16 <<< 8))
  refine ⟨1, _, .single hstep, settle_of_clear hdone _, ?_, hthird, h.intact.of_ram rfl⟩
  intro byte hbyte
  exact h.intact.unique hr.2.2.2.2.2.2.2.1 hbyte

/-! ## Jumps -/

/-- IWT R15 leaves its delay slot in the pipeline. -/
theorem Stands.jump {cpu : Cpu} (h : Stands program held start core cpu) {low high slot : Byte}
    (hr : Reads program held start [0xff, low, high, slot]) (halt1 : core.alt1 = false)
    (halt2 : core.alt2 = false) : ∃ next, Gsu.step program cpu = .ok next ∧
      next.state.core =
        (core.jump (low.setWidth 16 ||| (high.setWidth 16 <<< 8))).resetSelectors ∧
      next.state.pipeline = slot := by
  rcases hr.2.2.get h.intact h.coherent with ⟨first, hlow, hfirst⟩
  rcases hr.2.2.2.2.get h.intact hfirst with ⟨second, hhigh, hsecond⟩
  rcases hr.2.2.2.2.2.2.get h.intact hsecond with ⟨third, hslot, -⟩
  have hhigh' : fetch program ((core.setPc (start + 1)).setPc ((core.setPc (start + 1)).pc + 1))
      first = .ok (high, second) := by
    rw [setPc_pc, setPc_setPc]
    exact hhigh
  have hslot' : fetch program ((core.setPc (start + 1)).setPc
      ((core.setPc (start + 1)).pc + 1 + 1)) second = .ok (slot, third) := by
    rw [setPc_pc, setPc_setPc]
    exact hslot
  have hstep := step_iwt (core.setPc (start + 1)) cpu.state.address halt1 halt2 hlow hhigh' hslot'
  rw [← h.step hr.2.1, jump_setPc] at hstep
  exact ⟨_, hstep, rfl, rfl⟩

/-! ## Branches -/

/-- A NOP in the pipeline, wherever R15 has gone. -/
theorem stands_of_nop (cpu : Cpu) (hcore : { cpu.state.core with pcWritten := false } =
      core.setPc start) (hpipeline : cpu.state.pipeline = 1) (hc : Coherent held cpu.cache)
    (hi : Intact program held core) {next : Byte} {rest : List Byte}
    (hr : Reads program held start (next :: rest)) : ∃ after,
      step program cpu = .ok after ∧ Stands program held start core.resetSelectors after := by
  rcases hr.get hi hc with ⟨cache, hfetch, hcoherent⟩
  have hw : core.pcWritten = false := (congrArg Core.pcWritten hcore).symm
  have hstep := step_nop cpu.state.address hfetch
  rw [← hpipeline, ← hcore, ← step_settled cpu] at hstep
  refine ⟨_, hstep, ?_, ?_, hcoherent, hi.of_ram rfl⟩
  · rw [hcore]
    unfold Core.afterNop
    rw [setPc_pc]
    have hdone : core.resetSelectors.pcWritten = false := hw
    show { (({ core.setPc start with pcWritten := false } : Core).resetSelectors.setPc (start + 1))
      with pcWritten := false } = _
    rw [settle_of_clear hw, resetSelectors_setPc, setPc_setPc, settle_of_clear hdone]
  · intro byte hbyte
    exact hi.unique hr.2.1 hbyte

/-- A short branch with a NOP in its delay slot. -/
theorem Block.branch {opcode offset next : Byte} {rest : List Byte} {goal : Word}
    (hge : 5 ≤ opcode.toNat) (hle : opcode.toNat ≤ 15)
    (hr : Reads program held start (opcode :: offset :: 1 :: rest))
    (hgoal : goal = if branchTaken opcode core then start + 1 + 1 + offset.signExtend 16
      else start + 1 + 1 + 1)
    (hnext : Reads program held goal (next :: [])) :
    Block program held start core goal core.resetSelectors := by
  intro cpu h
  have hw : core.pcWritten = false := (congrArg Core.pcWritten h.settled).symm
  rcases hr.2.2.get h.intact h.coherent with ⟨first, hoffset, hfirst⟩
  rcases hr.2.2.2.2.get h.intact hfirst with ⟨second, hslot, hsecond⟩
  have hslot' : fetch program ((core.setPc (start + 1)).setPc ((core.setPc (start + 1)).pc + 1))
      first = .ok (1, second) := by
    rw [setPc_pc, setPc_setPc]
    exact hslot
  have hstep := step_branch cpu.state.address hge hle hoffset hslot'
  have htaken : branchTaken opcode (core.setPc (start + 1)) = branchTaken opcode core := rfl
  rw [← h.step hr.2.1, setPc_pc, htaken] at hstep
  have hcore : ({ (if branchTaken opcode core then
      (core.setPc (start + 1)).jump (start + 1 + 1 + offset.signExtend 16)
      else { core.setPc (start + 1) with pcWritten := false }.setPc (start + 1 + 1 + 1)) with
        pcWritten := false } : Core) = core.setPc goal := by
    rw [hgoal]
    split
    · rw [jump_setPc]
      show ({ core with pcWritten := false } : Core).setPc _ = _
      rw [← hw]
    · rw [settle_of_clear hw, setPc_setPc, settle_of_clear hw]
  rcases stands_of_nop ⟨⟨_, 1, some (start + 1)⟩, second⟩ hcore rfl hsecond h.intact hnext with ⟨after, hafter, hstands⟩
  exact ⟨2, after, .head hstep (.single hafter), hstands⟩

end Blocks

end Disco.Gsu
