import Disco.Assembler.Meaning

/-! # Moves, immediates, the stack and the ROM

The statements that are not arithmetic, as the machine executes them, and the
theorem about whole sequences of lines.
-/

namespace Disco.Assembler

open Library Linker Gsu

/-! ## Moves and immediates -/

section Moves

variable {program : Program} {core : Core}

theorem write_unselected (h : core.Unselected) (register : Fin 16) (value : Word) :
    (core.write register value).Unselected :=
  ⟨h.source, h.destination, h.alt1, h.alt2, h.prefixSet⟩

theorem latched_unselected (h : core.Unselected) (address : Word) :
    (core.latched address).Unselected :=
  ⟨h.source, h.destination, h.alt1, h.alt2, h.prefixSet⟩

/-- WITH and TO. -/
theorem means_copy (program : Program) (target source : Fin 16) :
    Means program (.copy target source)
      [byteOf (0x20 + source.val), byteOf (0x10 + target.val)] := by
  intro core pc h hw
  have hstop : pc + 1 + 1 = behind pc [byteOf (0x20 + source.val), byteOf (0x10 + target.val)] := by
    rw [BitVec.add_assoc]
    rfl
  show straight program [registerOpcodeOf 0x20 source, registerOpcodeOf 0x10 target] pc core = _
  rw [straight_with h hw, straight_last (simple_register (by decide) target), hstop,
    perform_to program _ target rfl]
  have hreset := (write_unselected (unselected_setPc h (behind pc [byteOf (0x20 + source.val),
    byteOf (0x10 + target.val)])) target ((core.setPc (behind pc [byteOf (0x20 + source.val),
      byteOf (0x10 + target.val)])).registers source)).reset
  exact congrArg (fun after => Outcome.of [] _ (.ok after)) hreset

theorem load_unselected (h : core.Unselected) (pc : Word) {opcode : Byte} {register : Fin 16}
    (hindex : Fin.ofNat 16 opcode.toNat = register) (value : Word) :
    core.load pc opcode value = (core.setPc pc).write register value := by
  unfold Core.load
  rw [hindex]
  exact (write_unselected (unselected_setPc h pc) register value).reset

/-- IBT. -/
theorem means_ibt (program : Program) (target : Fin 16) (value : UInt8) :
    Means program (.load target (value.toBitVec.signExtend 16))
      [byteOf (0xa0 + target.val), value] := by
  intro core pc h hw
  have hnat := registerOpcodeOf_toNat (show 0xa0 ≤ 0xf0 by decide) target
  have hindex := registerOpcodeOf_index (show 0xa0 ≤ 0xf0 by decide) (by decide) target
  have hstop : pc + 1 + 1 = behind pc [byteOf (0xa0 + target.val), value] := by
    rw [BitVec.add_assoc]
    rfl
  show straight program [registerOpcodeOf 0xa0 target, value.toBitVec] pc core = _
  rw [straight_ibt ⟨by omega, by omega⟩ h.alt1 h.alt2, of_next_nil, load_unselected h _ hindex, hstop]
  rfl

/-- IWT. -/
theorem means_iwt (program : Program) (target : Fin 16) (low high : UInt8) :
    Means program (.load target (low.toBitVec.setWidth 16 ||| (high.toBitVec.setWidth 16 <<< 8)))
      [byteOf (0xf0 + target.val), low, high] := by
  intro core pc h hw
  have hnat := registerOpcodeOf_toNat (show 0xf0 ≤ 0xf0 by decide) target
  have hindex := registerOpcodeOf_index (show 0xf0 ≤ 0xf0 by decide) (by decide) target
  have hstop : pc + 1 + 1 + 1 = behind pc [byteOf (0xf0 + target.val), low, high] := by
    rw [BitVec.add_assoc, BitVec.add_assoc]
    rfl
  show straight program [registerOpcodeOf 0xf0 target, low.toBitVec, high.toBitVec] pc core = _
  rw [straight_iwt (by omega) h.alt1 h.alt2, of_next_nil, load_unselected h _ hindex, hstop]
  rfl

/-! ## Memory -/

/-- A load through a register; only R0 to R11 have one. -/
theorem means_read (program : Program) (target memory : Fin 16) (byte : Bool)
    (hmemory : memory.val < 12) : Means program (.read target memory byte)
      (selector target.val ++ alternates (byte, false) ++ [byteOf (0x40 + memory.val)]) := by
  intro core pc hunselected hw
  refine straight_operation hunselected hw target (byte, false)
    (simple_register (by decide) memory) ?_ pc rfl
  intro core marked hcore
  show perform program (registerOpcodeOf 0x40 memory) _ = Statement.loaded core (core.registers memory) byte target
  rw [perform_load program _ memory hmemory]
  have hreset : ∀ value, ((core.latched (core.registers memory)).write target value).resetSelectors =
      (core.latched (core.registers memory)).write target value :=
    fun value => (write_unselected (latched_unselected hcore _) target value).reset
  cases byte with
  | true =>
      show ((core.latched (core.registers memory)).loadByte (core.registers memory) >>= fun value =>
        .ok ((core.latched (core.registers memory)).write target value).resetSelectors) = _
      simp only [hreset]
      rfl
  | false =>
      show ((core.latched (core.registers memory)).loadWord (core.registers memory) >>= fun value =>
        .ok ((core.latched (core.registers memory)).write target value).resetSelectors) = _
      simp only [hreset]
      rfl

/-- A store does not look at the selectors. -/
theorem store_chosen (h : core.Unselected) (register : Fin 16) (alt1 alt2 marked : Bool)
    (address value : Word) (byte : Bool) :
    ((((core.chosen register alt1 alt2 marked).latched address).store address value byte) >>=
      fun core => .ok core.resetSelectors) = Statement.stored core address value byte := by
  have hreset : ∀ ram : Ram, ({ (core.chosen register alt1 alt2 marked).latched address with
      ram := ram } : Core).resetSelectors = { core.latched address with ram := ram } := by
    intro ram
    have hlatched : ({ core.latched address with ram := ram } : Core).Unselected :=
      ⟨h.source, h.destination, h.alt1, h.alt2, h.prefixSet⟩
    exact hlatched.reset
  unfold Statement.stored Core.store
  show ((writeRam core.ram (core.ramIndex address) (value.setWidth 8)) >>= _) >>= _ =
    (writeRam core.ram (core.ramIndex address) (value.setWidth 8)) >>= _
  cases writeRam core.ram (core.ramIndex address) (value.setWidth 8) with
  | error fault => rfl
  | ok ram =>
      cases byte with
      | true => exact congrArg Except.ok (hreset ram)
      | false =>
          show ((writeRam ram (core.ramIndex address ^^^ 1) ((value >>> 8).setWidth 8)) >>= _) >>= _ =
            (writeRam ram (core.ramIndex address ^^^ 1) ((value >>> 8).setWidth 8)) >>= _
          cases writeRam ram (core.ramIndex address ^^^ 1) ((value >>> 8).setWidth 8) with
          | error fault => rfl
          | ok ram => exact congrArg Except.ok (hreset ram)

/-- A store through R0 to R11. -/
theorem straight_store (h : core.Unselected) (hw : core.pcWritten = false) (memory source : Fin 16)
    (byte : Bool) (hmemory : memory.val < 12) (pc : Word) {bytes : Bytes}
    (hbytes : bytes = selector source.val ++ alternates (byte, false) ++ [byteOf (0x30 + memory.val)]) :
    straight program (codeBytes bytes) pc core = Outcome.of [] (behind pc bytes)
      ((Statement.write memory source byte).meaning program (core.setPc (behind pc bytes))) := by
  refine straight_operation h hw source (byte, false) (simple_register (by decide) memory) ?_ pc hbytes
  intro core marked hcore
  show perform program (registerOpcodeOf 0x30 memory) _ = _
  rw [perform_store program _ memory hmemory]
  exact store_chosen hcore source byte false marked (core.registers memory) (core.registers source) byte

theorem means_write (program : Program) (memory source : Fin 16) (byte : Bool)
    (hmemory : memory.val < 12) : Means program (.write memory source byte)
      (selector source.val ++ alternates (byte, false) ++ [byteOf (0x30 + memory.val)]) :=
  fun _ pc h hw => straight_store h hw memory source byte hmemory pc rfl

/-! ## The stack -/

theorem stepped_unselected (h : core.Unselected) (address : Word) :
    (Statement.stepped core address).Unselected :=
  ⟨h.source, h.destination, h.alt1, h.alt2, h.prefixSet⟩

theorem stepped_setPc (core : Core) (pc address : Word) :
    Statement.stepped (core.setPc pc) address = (Statement.stepped core address).setPc pc := by
  unfold Statement.stepped
  rw [write_setPc (by decide)]
  rfl

theorem stepped_stepped (core : Core) (first second : Word) :
    Statement.stepped (Statement.stepped core first) second = Statement.stepped core second := by
  unfold Statement.stepped Core.write Core.setZeroSign
  simp

/-- INC R10 or DEC R10. -/
theorem straight_step (h : core.Unselected) (hw : core.pcWritten = false) {opcode : Byte}
    {address : Word} (hopcode : opcode = 0xda ∧ address = core.registers 10 + 1 ∨
      opcode = 0xea ∧ address = core.registers 10 - 1) (rest : List Byte) (pc : Word) :
    straight program (opcode :: rest) pc core =
      straight program rest (pc + 1) (Statement.stepped core address) := by
  have hreset := (stepped_unselected h address).reset
  have hdone : (Statement.stepped core address).pcWritten = false := write_clear (by decide) hw address
  rcases hopcode with ⟨rfl, rfl⟩ | ⟨rfl, rfl⟩
  · have hp : ∀ pc, perform program 0xda (core.setPc pc) =
        .ok ((Statement.stepped core (core.registers 10 + 1)).setPc pc) := by
      intro pc
      have hinc := perform_inc program (core.setPc pc) 10 (by decide)
      rw [write_setPc (by decide)] at hinc
      rw [← hreset]
      exact hinc
    exact straight_pass (by decide) hp hdone rest pc
  · have hp : ∀ pc, perform program 0xea (core.setPc pc) =
        .ok ((Statement.stepped core (core.registers 10 - 1)).setPc pc) := by
      intro pc
      have hdec := perform_dec program (core.setPc pc) 10 (by decide)
      rw [write_setPc (by decide)] at hdec
      rw [← hreset]
      exact hdec
    exact straight_pass (by decide) hp hdone rest pc

/-- POP. -/
theorem means_pop (program : Program) (target : Fin 16) :
    Means program (.pop target false) ([0xda, 0xda] ++ selector target.val ++ [0x4a]) := by
  intro core pc h hw
  have htwice : core.registers 10 + 1 + 1 = core.registers 10 + 2 := by
    rw [BitVec.add_assoc]
    rfl
  have hclear : ∀ address, (Statement.stepped core address).pcWritten = false :=
    fun address => write_clear (by decide) hw address
  have hstep : ∀ rest, straight program (0xda :: 0xda :: rest) pc core =
      straight program rest (pc + 1 + 1) (Statement.stepped core (core.registers 10 + 2)) := by
    intro rest
    rw [straight_step h hw (Or.inl ⟨rfl, rfl⟩),
      straight_step (stepped_unselected h _) (hclear _) (Or.inl ⟨rfl, rfl⟩), stepped_stepped]
    show straight program rest (pc + 1 + 1) (Statement.stepped core (core.registers 10 + 1 + 1)) = _
    rw [htwice]
  have hbytes : [0xda, 0xda] ++ selector target.val ++ [0x4a] =
      [0xda, 0xda] ++ (selector target.val ++ alternates (false, false) ++ [0x4a]) := by
    rw [List.append_assoc, List.append_assoc]
    rfl
  have hread := means_read program target 10 false (by decide)
    (Statement.stepped core (core.registers 10 + 2)) (pc + 1 + 1) (stepped_unselected h _) (hclear _)
  have hpc : behind (pc + 1 + 1) (selector target.val ++ alternates (false, false) ++ [0x4a]) =
      behind pc ([0xda, 0xda] ++ selector target.val ++ [0x4a]) := by
    have htwo : pc + 1 + 1 = behind pc [0xda, 0xda] := by
      rw [BitVec.add_assoc]
      rfl
    rw [hbytes, htwo, ← behind_append]
  have hmeaning : ∀ stop, (Statement.pop target false).meaning program (core.setPc stop) =
      (Statement.read target 10 false).meaning program
        ((Statement.stepped core (core.registers 10 + 2)).setPc stop) := by
    intro stop
    rw [← stepped_setPc]
    rfl
  rw [hmeaning, ← hpc, hbytes, codeBytes_append]
  exact (hstep _).trans hread

theorem stored_setPc (core : Core) (pc address value : Word) (byte : Bool) :
    Statement.stored (core.setPc pc) address value byte =
      (Statement.stored core address value byte).map (Core.setPc · pc) :=
  store_setPc (core.latched address) pc address value byte

/-- A store keeps registers and selectors. -/
theorem stored_keeps {after : Core} {address value : Word} {byte : Bool} (hcore : core.Unselected)
    (h : Statement.stored core address value byte = .ok after) :
    after.Unselected ∧ after.pcWritten = core.pcWritten ∧ after.registers = core.registers := by
  obtain ⟨low, -, h⟩ := bind_eq_ok.mp h
  cases byte with
  | true =>
      cases h
      exact ⟨⟨hcore.source, hcore.destination, hcore.alt1, hcore.alt2, hcore.prefixSet⟩, rfl, rfl⟩
  | false =>
      obtain ⟨high, -, h⟩ := bind_eq_ok.mp h
      cases h
      exact ⟨⟨hcore.source, hcore.destination, hcore.alt1, hcore.alt2, hcore.prefixSet⟩, rfl, rfl⟩

theorem setPc_registers_of_ne {register : Fin 16} (h : register ≠ 15) (core : Core) (pc : Word) :
    (core.setPc pc).registers register = core.registers register :=
  Function.update_of_ne h _ _

/-- What PUSH stores, seen from behind it and from behind its store. -/
theorem push_value (core : Core) (source : Fin 16) (pc : Word) :
    (if source = 15 then (core.setPc (pc + 2)).pc - 2 else (core.setPc (pc + 2)).registers source) =
      (core.setPc pc).registers source := by
  by_cases hpc : source = 15
  · subst hpc
    rw [if_pos rfl, setPc_pc]
    show pc + 2 - 2 = (core.setPc pc).pc
    rw [setPc_pc, BitVec.add_sub_cancel]
  · rw [if_neg hpc, setPc_registers_of_ne hpc, setPc_registers_of_ne hpc]

/-- Going on behind straight code that has not jumped. -/
theorem straight_then {first second : List Byte} {pc stop : Word} {after : Core}
    (hstop : stop = pc + BitVec.ofNat 16 first.length)
    (h : straight program first pc core = .falls after) :
    straight program (first ++ second) pc core = straight program second stop after := by
  rw [straight_append first second pc core (by rw [h]; exact fun heq => by cases heq), h, hstop]
  rfl

theorem straight_faults {first second : List Byte} {pc : Word} {fault : Fault}
    (h : straight program first pc core = .faults fault) :
    straight program (first ++ second) pc core = .faults fault := by
  rw [straight_append first second pc core (by rw [h]; exact fun heq => by cases heq), h]
  rfl

theorem of_setPc {after : Core} (hw : after.pcWritten = false) (slot : List Byte) (pc : Word) :
    Outcome.of slot pc (.ok (after.setPc pc)) = .falls (after.setPc pc) := by
  have hclear : (after.setPc pc).pcWritten = false := hw
  unfold Outcome.of
  dsimp only
  rw [hclear, if_neg (by decide), if_pos (setPc_pc after pc)]

/-- PUSH; the store comes two bytes before its end. -/
theorem means_push (program : Program) (source : Fin 16) :
    Means program (.push source false) (selector source.val ++ [0x3a, 0xea, 0xea]) := by
  intro core pc h hw
  have hbytes : selector source.val ++ [0x3a, 0xea, 0xea] =
      selector source.val ++ alternates (false, false) ++ [0x3a] ++ [0xea, 0xea] := by
    rw [List.append_assoc, List.append_assoc]
    rfl
  have hstore : straight program
      (codeBytes (selector source.val ++ alternates (false, false) ++ [0x3a])) pc core = _ :=
    straight_store h hw 10 source false (by decide) pc rfl
  generalize hfirst : selector source.val ++ alternates (false, false) ++ [0x3a] = first at *
  have hbehind : behind pc (first ++ [0xea, 0xea]) = behind pc first + 2 := by
    rw [behind_append]
    rfl
  have hlength : behind pc first = pc + BitVec.ofNat 16 (codeBytes first).length := by
    unfold codeBytes behind
    rw [List.length_map]
  have hmeaning : (Statement.push source false).meaning program (core.setPc (behind pc first + 2)) =
      (Statement.stored (core.setPc (behind pc first + 2)) (core.registers 10)
        ((core.setPc (behind pc first)).registers source) false >>= fun after =>
          .ok (Statement.stepped after (core.registers 10 - 2))) := by
    rw [← push_value]
    rfl
  have hwrite : (Statement.write 10 source false).meaning program (core.setPc (behind pc first)) =
      Statement.stored (core.setPc (behind pc first)) (core.registers 10)
        ((core.setPc (behind pc first)).registers source) false := rfl
  rw [hbytes, hbehind, hmeaning, codeBytes_append, stored_setPc]
  rw [hwrite, stored_setPc] at hstore
  cases hresult : Statement.stored core (core.registers 10)
      ((core.setPc (behind pc first)).registers source) false with
  | error fault =>
      rw [hresult] at hstore
      exact straight_faults hstore
  | ok after =>
      rw [hresult] at hstore
      rcases stored_keeps h hresult with ⟨hafter, hwritten, hregisters⟩
      rw [hw] at hwritten
      have hclear : ∀ address, (Statement.stepped after address).pcWritten = false :=
        fun address => write_clear (by decide) hwritten address
      have htwice : after.registers 10 - 1 - 1 = core.registers 10 - 2 := by
        rw [hregisters, BitVec.sub_sub]
        rfl
      have htwo : behind pc first + 1 + 1 = behind pc first + 2 := by
        rw [BitVec.add_assoc]
        rfl
      rw [straight_then hlength (hstore.trans (of_setPc hwritten [] (behind pc first))), straight_setPc]
      show straight program [0xea, 0xea] _ _ = _
      rw [straight_step hafter hwritten (Or.inr ⟨rfl, rfl⟩), straight_step (stepped_unselected hafter _)
        (hclear _) (Or.inr ⟨rfl, rfl⟩), stepped_stepped]
      show Outcome.falls ((Statement.stepped after (after.registers 10 - 1 - 1)).setPc
        (behind pc first + 1 + 1)) = Outcome.of [] (behind pc first + 2)
          (.ok (Statement.stepped (after.setPc (behind pc first + 2)) (core.registers 10 - 2)))
      rw [htwice, htwo, stepped_setPc, of_setPc (hclear _)]

/-! ## The ROM -/

/-- GETB and GETBS. -/
theorem means_getb (program : Program) (merge : Merge) (choice : Bool × Bool)
    (hchoice : merge = .plain ∧ choice = (false, false) ∨ merge = .signed ∧ choice = (true, true)) :
    Means program (.getb merge) (alternates choice ++ [0xef]) := by
  intro core pc hunselected hw
  refine straight_operation hunselected hw 0 choice (by decide) ?_ pc rfl
  intro core marked hcore
  show perform program 0xef _ = program.readRom (core.romBank.toNat * 65536 +
    (core.registers 14).toNat) >>= fun byte =>
      .ok (core.write 0 (merge.value (core.registers 0) byte))
  have hreset : ∀ value, ((core.chosen 0 choice.1 choice.2 marked).write 0 value).resetSelectors =
      core.write 0 value := fun value => (write_unselected hcore 0 value).reset
  rw [perform_getb]
  show (program.readRom (core.romBank.toNat * 65536 + (core.registers 14).toNat) >>= fun fetched =>
    .ok ((core.chosen 0 choice.1 choice.2 marked).write 0
      (getByte (core.chosen 0 choice.1 choice.2 marked) fetched)).resetSelectors) = _
  simp only [hreset]
  rcases hchoice with ⟨rfl, rfl⟩ | ⟨rfl, rfl⟩ <;> rfl

end Moves

end Disco.Assembler
