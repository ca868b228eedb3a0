import Disco.Gsu.Startup

/-! # Arithmetic on R0

Between statements no register is selected and R0 is operand and result. What the
code generator computes there may use R3 and nothing else.
-/

namespace Disco.Gsu

open Library RuntimeInitialization

/-- A value in R0; R3 may be lost. -/
structure Accumulated (before : Core) (value : Word) (after : Core) : Prop where
  value : after.registers 0 = value
  others : ∀ register, register ≠ 0 → register ≠ 3 → register ≠ 15 →
    after.registers register = before.registers register
  ram : after.ram = before.ram
  unselected : after.Unselected
  clear : after.pcWritten = false

/-- What an addition leaves in the core apart from its result. -/
def addFlags (core : Core) (right : Word) : Core := { core with
  carry := decide (core.sourceValue.toNat + right.toNat > 65535)
  overflow := ((~~~(core.sourceValue ^^^ right)) &&& (core.sourceValue ^^^ (core.sourceValue + right))).msb }

/-- What a subtraction leaves in the core apart from its result. -/
def subtractFlags (core : Core) (right : Word) : Core := { core with
  carry := decide ((core.sourceValue.toNat : Int) - right.toNat ≥ 0)
  overflow := ((core.sourceValue ^^^ right) &&& (core.sourceValue ^^^ (core.sourceValue - right))).msb }

theorem add_eq {core : Core} (halt1 : core.alt1 = false) (right : Word) :
    add core right = (addFlags core right).result (core.sourceValue + right) := by
  have hsum : BitVec.ofNat 16 (core.sourceValue.toNat + right.toNat) = core.sourceValue + right := by
    rw [BitVec.ofNat_add, BitVec.ofNat_toNat, BitVec.ofNat_toNat, BitVec.setWidth_eq, BitVec.setWidth_eq]
  unfold add addFlags
  simp only [halt1, Bool.false_and, Bool.false_eq_true, if_false, Nat.add_zero, hsum]

theorem subtract_eq {core : Core} (halt1 : core.alt1 = false) (right : Word) :
    subtract core right = (subtractFlags core right).result (core.sourceValue - right) := by
  have hdifference : BitVec.ofInt 16 ((core.sourceValue.toNat : Int) - right.toNat) = core.sourceValue - right := by
    apply BitVec.eq_of_toNat_eq
    rw [BitVec.toNat_ofInt, BitVec.toNat_sub]
    have := core.sourceValue.isLt
    have := right.isLt
    omega
  unfold subtract subtractFlags
  simp only [halt1, Bool.false_and, Bool.false_eq_true, if_false, Int.sub_zero, hdifference]

/-- An opcode that combines the source with a register or a number. -/
structure Combines (base : UInt8) (flags : Core → Word → Core) (operation : Word → Word → Word) : Prop where
  opcode : ∀ register : Fin 16,
    (base ||| UInt8.ofNat register.val).toBitVec = registerOpcodeOf base.toNat register
  simple : base.toNat ∈ registerBases
  performs : ∀ program (core : Core) (register : Fin 16), register ≠ 0 → core.alt1 = false →
    perform program (registerOpcodeOf base.toNat register) core =
      .ok ((flags core (core.right register)).result (operation core.sourceValue (core.right register)))
  setPc : ∀ core pc right, core.source = 0 → flags (core.setPc pc) right = (flags core right).setPc pc
  registers : ∀ core right, (flags core right).registers = core.registers
  ram : ∀ core right, (flags core right).ram = core.ram
  clear : ∀ core right, (flags core right).pcWritten = core.pcWritten
  destination : ∀ core right, (flags core right).destination = core.destination

theorem sourceValue_setPc {core : Core} (h : core.source = 0) (pc : Word) :
    (core.setPc pc).sourceValue = core.sourceValue := by
  have hs : (core.setPc pc).source = 0 := h
  unfold Core.sourceValue
  rw [hs, h]
  rfl

theorem combines_add : Combines 0x50 addFlags (· + ·) where
  opcode := by
    intro register
    fin_cases register <;> rfl
  simple := by decide
  performs := by
    intro program core register _ halt1
    exact (perform_add program core register).trans (congrArg Except.ok (add_eq halt1 _))
  setPc := by
    intro core pc right hsource
    unfold addFlags
    rw [sourceValue_setPc hsource]
    rfl
  registers _ _ := rfl
  ram _ _ := rfl
  clear _ _ := rfl
  destination _ _ := rfl

theorem combines_subtract : Combines 0x60 subtractFlags (· - ·) where
  opcode := by
    intro register
    fin_cases register <;> rfl
  simple := by decide
  performs := by
    intro program core register _ halt1
    rw [show (0x60 : UInt8).toNat = 0x60 from rfl, perform_subtract program core register, halt1]
    exact congrArg Except.ok (subtract_eq halt1 _)
  setPc := by
    intro core pc right hsource
    unfold subtractFlags
    rw [sourceValue_setPc hsource]
    rfl
  registers _ _ := rfl
  ram _ _ := rfl
  clear _ _ := rfl
  destination _ _ := rfl

theorem combines_and : Combines 0x70 (fun core _ => core) (· &&& ·) where
  opcode := by
    intro register
    fin_cases register <;> rfl
  simple := by decide
  performs := by
    intro program core register hregister halt1
    rw [show (0x70 : UInt8).toNat = 0x70 from rfl, perform_and program core register hregister, halt1]
    rfl
  setPc _ _ _ _ := rfl
  registers _ _ := rfl
  ram _ _ := rfl
  clear _ _ := rfl
  destination _ _ := rfl

section Code

variable {program : Program} {held : Word → Byte → Prop} {before core : Core} {value : Word}

theorem Accumulated.initial (h : core.Unselected) (hclear : core.pcWritten = false) :
    Accumulated core (core.registers 0) core := ⟨rfl, fun _ _ _ _ => rfl, rfl, h, hclear⟩

/-- R0 or R3 is written and nothing else changes. -/
theorem Accumulated.written (h : Accumulated before value core) {register : Fin 16}
    (hregister : register = 0 ∨ register = 3) (next : Word) {after : Core}
    (hafter : after.registers = Function.update core.registers register next)
    (hram : after.ram = core.ram) (hunselected : after.Unselected) (hclear : after.pcWritten = false) :
    Accumulated before (Function.update core.registers register next 0) after where
  value := congrFun hafter 0
  others := by
    intro other hzero hthree hpc
    rw [hafter, Function.update_of_ne (by rcases hregister with rfl | rfl <;> assumption)]
    exact h.others other hzero hthree hpc
  ram := hram.trans h.ram
  unselected := hunselected
  clear := hclear

theorem result_setPc (h : core.destination = 0) (pc next : Word) :
    (core.setPc pc).result next = (core.result next).setPc pc := by
  have hd : (core.setPc pc).destination = 0 := h
  unfold Core.result
  rw [hd, h, write_setPc (by decide)]
  rfl

/-- WITH and TO. -/
theorem performs_move (h : core.Unselected) (hclear : core.pcWritten = false) {register : Fin 16} (hregister : register ≠ 15) :
    Performs program held [0x20 ||| UInt8.ofNat register.val, 0x10] core
      (Accumulated core (core.registers register)) := by
  let chosen : Core := core.chosen register false false true
  have hopcode : (0x20 ||| UInt8.ofNat register.val).toBitVec = registerOpcodeOf 0x20 register := by
    fin_cases register <;> rfl
  have hwith : Performs program held [0x20 ||| UInt8.ofNat register.val] core (fun between => between = chosen) := by
    have hp : ∀ pc, perform program (0x20 ||| UInt8.ofNat register.val).toBitVec (core.setPc pc) =
        .ok (chosen.setPc pc) := by
      intro pc
      rw [hopcode, perform_with]
      have halt1 := h.alt1
      have halt2 := h.alt2
      simp only [chosen, Core.chosen, Core.setPc, halt1, halt2]
    exact Performs.simple (hopcode ▸ simple_register (by decide) register) hp hclear (fun hi => hi.of_ram rfl) rfl
  have hto : Performs program held [0x10] chosen (Accumulated core (core.registers register)) := by
    have hp : ∀ pc, perform program 0x10 (chosen.setPc pc) =
        .ok ((chosen.write 0 (core.registers register)).resetSelectors.setPc pc) := by
      intro pc
      have hvalue : (chosen.setPc pc).sourceValue = core.registers register := Function.update_of_ne hregister _ _
      rw [show (0x10 : Byte) = registerOpcodeOf 0x10 0 from rfl, perform_to program _ 0 rfl, hvalue,
        write_setPc (by decide)]
      rfl
    have hdone : (chosen.write 0 (core.registers register)).resetSelectors.pcWritten = false :=
      write_clear (by decide) hclear (core.registers register)
    exact Performs.simple (by decide) hp hdone (fun hi => hi.of_ram rfl)
      ((Accumulated.initial h hclear).written (.inl rfl) (core.registers register) rfl rfl (unselected_reset _) hdone)
  exact hwith.append fun between hbetween => hbetween ▸ hto

/-- An instruction that leaves its result in R0. -/
theorem performs_combination {base : UInt8} {flags : Core → Word → Core} {operation : Word → Word → Word}
    (hc : Combines base flags operation) (h : Accumulated before value core) (selected : Core)
    (hregisters : selected.registers = core.registers) (hram : selected.ram = core.ram)
    (hclear : selected.pcWritten = false) (hsource : selected.source = 0) (hdestination : selected.destination = 0)
    (halt1 : selected.alt1 = false) {register : Fin 16} (hzero : register ≠ 0)
    (hpc : selected.alt2 = true ∨ register ≠ 15) :
    Performs program held [base ||| UInt8.ofNat register.val] selected
      (Accumulated before (operation value (selected.right register))) := by
  let operands := flags selected (selected.right register)
  have hsum : selected.sourceValue = value := by
    unfold Core.sourceValue
    rw [hsource, hregisters, h.value]
  have hd : operands.destination = 0 := (hc.destination _ _).trans hdestination
  have hright : ∀ pc, (selected.setPc pc).right register = selected.right register := by
    intro pc
    unfold Core.right
    have hsame : (selected.setPc pc).alt2 = selected.alt2 := rfl
    rw [hsame]
    rcases hpc with halt2 | hpc
    · rw [if_pos halt2, if_pos halt2]
    · rw [show (selected.setPc pc).registers register = selected.registers register from Function.update_of_ne hpc _ _]
  have hp : ∀ pc, perform program (base ||| UInt8.ofNat register.val).toBitVec (selected.setPc pc) =
      .ok ((operands.result (operation value (selected.right register))).setPc pc) := by
    intro pc
    rw [hc.opcode, hc.performs program (selected.setPc pc) register hzero halt1, hright, hc.setPc _ _ _ hsource,
      sourceValue_setPc hsource, hsum, result_setPc hd]
  have hwrite : (operands.result (operation value (selected.right register))).registers =
      Function.update core.registers 0 (operation value (selected.right register)) := by
    rw [← hregisters, ← hc.registers selected (selected.right register)]
    unfold Core.result
    rw [hd]
    rfl
  have hdone : (operands.result (operation value (selected.right register))).pcWritten = false := by
    unfold Core.result
    rw [hd]
    exact write_clear (by decide) ((hc.clear _ _).trans hclear) (operation value (selected.right register))
  have hkept : (operands.result (operation value (selected.right register))).ram = selected.ram :=
    hc.ram selected (selected.right register)
  exact Performs.simple (hc.opcode register ▸ simple_register hc.simple register) hp hdone
    (fun hi => hi.of_ram hkept)
    (h.written (.inl rfl) (operation value (selected.right register)) hwrite (hkept.trans hram) (unselected_reset _) hdone)

/-- ALT2 makes the number of a register its value. -/
theorem performs_number {base : UInt8} {flags : Core → Word → Core} {operation : Word → Word → Word}
    (hc : Combines base flags operation) (h : Accumulated before value core) {number : Fin 16} (hzero : number ≠ 0) :
    Performs program held [0x3e, base ||| UInt8.ofNat number.val] core
      (Accumulated before (operation value (BitVec.ofNat 16 number.val))) := by
  let numbered : Core := { core with
    alt2 := true
    prefixSet := false }
  have halt2 : Performs program held [0x3e] core (fun between => between = numbered) := by
    have hp : ∀ pc, perform program 0x3e (core.setPc pc) = .ok (numbered.setPc pc) := fun pc => perform_alt2 program (core.setPc pc)
    exact Performs.simple (by decide) hp h.clear (fun hi => hi.of_ram rfl) rfl
  have hsource : numbered.source = 0 := h.unselected.source
  have hdestination : numbered.destination = 0 := h.unselected.destination
  have halt1 : numbered.alt1 = false := h.unselected.alt1
  have hclear : numbered.pcWritten = false := h.clear
  have hcombine : Performs program held [base ||| UInt8.ofNat number.val] numbered
      (Accumulated before (operation value (numbered.right number))) :=
    performs_combination hc h numbered rfl rfl hclear hsource hdestination halt1 hzero (.inl rfl)
  exact halt2.append fun between hbetween => hbetween ▸ hcombine

/-- A right operand in R3. -/
theorem performs_literalThree {base : UInt8} {flags : Core → Word → Core} {operation : Word → Word → Word}
    (hc : Combines base flags operation) (h : Accumulated before value core) {literal : Bytes} {right : Word}
    (hliteral : Performs program held literal core fun after => after = (core.write 3 right).resetSelectors) :
    Performs program held (literal ++ [base ||| 3]) core (Accumulated before (operation value right)) := by
  have hdone : (core.write 3 right).resetSelectors.pcWritten = false := write_clear (by decide) h.clear right
  have hwritten : Accumulated before value (core.write 3 right).resetSelectors := by
    have hw : Accumulated before (Function.update core.registers 3 right 0) (core.write 3 right).resetSelectors :=
      h.written (.inr rfl) right rfl rfl (unselected_reset _) hdone
    rwa [Function.update_of_ne (by decide), h.value] at hw
  have hcombine : Performs program held [base ||| UInt8.ofNat (3 : Fin 16).val] (core.write 3 right).resetSelectors
      (Accumulated before (operation value ((core.write 3 right).resetSelectors.right 3))) :=
    performs_combination hc hwritten _ rfl rfl hdone rfl rfl rfl (by decide) (.inr (by decide))
  exact hliteral.append fun between hbetween => hbetween ▸ hcombine

end Code

/-! ## One outcome -/

section Determined

/-- Bytes in front of STOP, at the start of a ROM bank. -/
def stoppedProgram (bytes : Bytes) : Program where
  origin := 0x400000
  size := 65536
  rom index := ((bytes ++ [0]).getD index 0).toBitVec

variable {bytes : Bytes} {core : Core}

theorem stoppedProgram_intact (hlength : bytes.length < 65535) :
    Intact (stoppedProgram bytes) (heldBytes 0 (bytes ++ [0])) core := by
  rintro address byte ⟨i, loaded, hi, rfl, rfl⟩
  have hlt : i < 65536 := by
    have := (List.getElem?_eq_some_iff.mp hi).1
    rw [List.length_append, List.length_singleton] at this
    omega
  have haddress : (0 + BitVec.ofNat 16 i : Word).toNat = i := by
    rw [zero_add, BitVec.toNat_ofNat, Nat.mod_eq_of_lt hlt]
  have hbank : (stoppedProgram bytes).bank = 0x40 := by norm_num [Program.bank, stoppedProgram]
  unfold programByte
  rw [hbank, if_neg (by decide), haddress]
  unfold Program.readRom romIndex
  rw [if_neg (by omega), if_pos (by omega)]
  have hindex : ((0x40 * 65536 + i) / 65536 - 0x40) * 65536 + (0x40 * 65536 + i) % 65536 = i := by omega
  simp only [hindex, stoppedProgram, List.getD_eq_getElem?_getD, hi, ok_bind, Option.getD_some]

theorem stoppedProgram_reads (hlength : bytes.length < 65535) :
    Reads (stoppedProgram bytes) (heldBytes 0 (bytes ++ [0])) 0 (codeBytes bytes ++ [0]) := by
  apply reads_of_get
  · intro i _
    have hbase : (stoppedProgram bytes).base = 0 := by norm_num [Program.base, stoppedProgram]
    have hlt := (0 + BitVec.ofNat 16 i : Word).isLt
    unfold inside
    rw [hbase]
    exact ⟨Nat.zero_le _, hlt⟩
  · intro i byte hbyte
    have hmap : codeBytes bytes ++ [0] = codeBytes (bytes ++ [0]) := by
      unfold codeBytes
      rw [List.map_append]
      rfl
    rw [hmap] at hbyte
    obtain ⟨loaded, hloaded, rfl⟩ := Option.map_eq_some_iff.mp
      ((List.getElem?_map (f := UInt8.toBitVec)).symm.trans hbyte)
    exact ⟨i, loaded, hloaded, rfl, rfl⟩

theorem step_stop (program : Program) {cpu : Cpu} (h : cpu.state.pipeline = 0) : ∃ halt, step program cpu = .error halt := by
  unfold step
  cases prefetch program cpu with
  | error fault => exact ⟨_, rfl⟩
  | ok fetched =>
      simp only [Except.mapError, ok_bind, if_pos h]
      exact ⟨_, rfl⟩

/-- Code that leads somewhere leads nowhere else. -/
theorem Performs.determined (hlength : bytes.length < 65535) (hclear : core.pcWritten = false) {P Q : Core → Prop}
    (hP : ∀ program held, Performs program held bytes core P) (hQ : ∀ program held, Performs program held bytes core Q) :
    ∃ after after', P after ∧ Q after' ∧ ∀ register, register ≠ 15 → after.registers register = after'.registers register := by
  let held := heldBytes 0 (bytes ++ [0])
  let cpu : Cpu := ⟨⟨core.setPc (0 + 1), ((bytes ++ [0]).getD 0 0).toBitVec, none⟩, {}⟩
  have hreads := stoppedProgram_reads hlength
  have hstands : Stands (stoppedProgram bytes) held 0 core cpu := by
    refine ⟨settle_of_clear hclear _, ?_, coherent_empty _, stoppedProgram_intact hlength⟩
    rintro byte ⟨i, loaded, hi, hzero, rfl⟩
    have hlt : i < 65536 := by
      have := (List.getElem?_eq_some_iff.mp hi).1
      rw [List.length_append, List.length_singleton] at this
      omega
    have hi0 : i = 0 := by
      have := congrArg BitVec.toNat hzero
      rw [zero_add, BitVec.toNat_ofNat, Nat.mod_eq_of_lt hlt] at this
      exact this.symm
    subst hi0
    simp only [cpu, List.getD_eq_getElem?_getD, hi, Option.getD_some]
  rcases hP _ held 0 0 [] hreads with ⟨after, hblock, hafter⟩
  rcases hQ _ held 0 0 [] hreads with ⟨after', hblock', hafter'⟩
  rcases hblock cpu hstands with ⟨n, next, hruns, hnext⟩
  rcases hblock' cpu hstands with ⟨m, next', hruns', hnext'⟩
  have hstop : held (behind 0 bytes) 0 := ⟨bytes.length, 0, by simp, rfl, rfl⟩
  rcases step_stop (stoppedProgram bytes) (hnext.fetched 0 hstop) with ⟨halt, hhalt⟩
  rcases step_stop (stoppedProgram bytes) (hnext'.fetched 0 hstop) with ⟨halt', hhalt'⟩
  have hsame := hruns.halts_unique hhalt hruns' hhalt'
  subst hsame
  have hcore := hnext.settled.symm.trans hnext'.settled
  refine ⟨after, after', hafter, hafter', ?_⟩
  intro register hregister
  have hregisters : Function.update after.registers 15 (behind 0 bytes + 1) register =
      Function.update after'.registers 15 (behind 0 bytes + 1) register :=
    congrFun (congrArg Core.registers hcore) register
  rwa [Function.update_of_ne hregister, Function.update_of_ne hregister] at hregisters

end Determined

end Disco.Gsu
