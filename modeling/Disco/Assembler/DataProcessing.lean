import Disco.Assembler.Mnemonics
import Disco.Gsu.Startup

/-! # Data-processing statements mean what their mnemonics say

Every operation of this kind by its name, then sequences of lines, and the
machine that executes their bytes.
-/

namespace Disco.Assembler

open Library Linker Gsu

/-! ## Lines by their operation -/

/-- Moves, immediate loads and the stack. -/
def movingNames : List Text :=
  [nameOf "move", nameOf "moveb", nameOf "movew", nameOf "ibt", nameOf "iwt", nameOf "lea",
    nameOf "push", nameOf "pop", nameOf "pushb", nameOf "popb"]

/-- Reads of the ROM. -/
def romNames : List Text := [nameOf "getb", nameOf "getbh", nameOf "getbl", nameOf "getbs"]

/-- The lines whose bytes do what they say. PUSHB and POPB step R0 in place of
R10, and GETBH and GETBL have the prefix of GETBS. -/
def Right (line : ParsedLine) : Prop :=
  match operationOf line.operation with
  | some operation => RightComputation operation line
  | none =>
      line.operation ∉ [nameOf "pushb", nameOf "popb", nameOf "getbh", nameOf "getbl"] ∧
        (line.operation ∈ [nameOf "move", nameOf "moveb", nameOf "movew"] → RightMove line)

section Lines

variable {program : Program} {address : Name → Nat} {relaxed : List Nat} {line : ParsedLine}
  {patch : Nat} {encoded : Encoded}

theorem operationOf_mem {name : Text} {operation : Operation} (h : operationOf name = some operation) :
    name ∈ operationNames.map (·.1) := by
  unfold operationOf at h
  rcases Option.map_eq_some_iff.mp h with ⟨entry, hfound, -⟩
  have hname : entry.1 = name := by simpa using List.find?_some hfound
  exact hname ▸ List.mem_map_of_mem (List.mem_of_find?_eq_some hfound)

theorem encodeInstruction_arithmetic {operation : Operation}
    (h : operationOf line.operation = some operation) :
    encodeInstruction relaxed line patch = encodeArithmetic operation.kind line := by
  have hall : ∀ name ∈ operationNames.map (·.1), branchOpcode name = none ∧
      (impliedNames.find? fun entry => entry.1 = name) = none ∧
      (prefixedNames.find? fun entry => entry.1 = name) = none := by decide
  rcases hall line.operation (operationOf_mem h) with ⟨hbranch, himplied, hprefixed⟩
  have hkind : arithmeticOf line.operation = some operation.kind := by
    rw [arithmeticOf_eq, h]
    rfl
  unfold encodeInstruction
  rw [hbranch, himplied, hprefixed, hkind]

theorem encodeInstruction_moving (h : line.operation ∈ movingNames) :
    encodeInstruction relaxed line patch = encodeOther line patch := by
  have hall : ∀ name ∈ movingNames, branchOpcode name = none ∧
      (impliedNames.find? fun entry => entry.1 = name) = none ∧
      (prefixedNames.find? fun entry => entry.1 = name) = none ∧ arithmeticOf name = none := by decide
  rcases hall line.operation h with ⟨hbranch, himplied, hprefixed, harithmetic⟩
  unfold encodeInstruction
  rw [hbranch, himplied, hprefixed, harithmetic]

/-- An operation at its place in both tables. -/
theorem executes_of {name : Text} {statement : Option Statement}
    {encoding : Except Failure Encoded} (h : encodeOther line patch = .ok encoded)
    (hexecutes : encoding = .ok encoded → Executes program address encoded statement)
    (hnone : operationOf line.operation = none)
    (hstatement : ((otherStatements address line).find? fun entry => entry.1 = line.operation) =
      some (name, statement))
    (hencoding : ((otherEncodings line patch).find? fun entry => entry.1 = line.operation) =
      some (name, encoding)) :
    Executes program address encoded (statementOf address line) := by
  unfold encodeOther at h
  rw [hencoding] at h
  unfold statementOf
  rw [hnone]
  dsimp only
  rw [hstatement]
  exact hexecutes h

theorem moving_executes (hmoving : line.operation ∈ movingNames)
    (h : encodeOther line patch = .ok encoded)
    (hwrong : line.operation ∉ [nameOf "pushb", nameOf "popb", nameOf "getbh", nameOf "getbl"])
    (hmove : line.operation ∈ [nameOf "move", nameOf "moveb", nameOf "movew"] → RightMove line) :
    Executes program address encoded (statementOf address line) := by
  unfold movingNames at hmoving
  simp only [List.mem_cons, List.not_mem_nil, or_false] at hmoving
  rcases hmoving with hname | hname | hname | hname | hname | hname | hname | hname | hname | hname
  · exact executes_of h (fun h => encodeMove_executes h (hmove (by rw [hname]; decide)))
      (by rw [hname]; rfl) (by rw [hname]; rfl) (by rw [hname]; rfl)
  · exact executes_of h (fun h => encodeMove_executes h (hmove (by rw [hname]; decide)))
      (by rw [hname]; rfl) (by rw [hname]; rfl) (by rw [hname]; rfl)
  · exact executes_of h (fun h => encodeMove_executes h (hmove (by rw [hname]; decide)))
      (by rw [hname]; rfl) (by rw [hname]; rfl) (by rw [hname]; rfl)
  · exact executes_of h encodeIbt_executes
      (by rw [hname]; rfl) (by rw [hname]; rfl) (by rw [hname]; rfl)
  · exact executes_of h encodeIwt_executes
      (by rw [hname]; rfl) (by rw [hname]; rfl) (by rw [hname]; rfl)
  · exact executes_of h encodeIwt_executes
      (by rw [hname]; rfl) (by rw [hname]; rfl) (by rw [hname]; rfl)
  · exact executes_of h (encodeStack_executes (means_push program))
      (by rw [hname]; rfl) (by rw [hname]; rfl) (by rw [hname]; rfl)
  · exact executes_of h (encodeStack_executes (means_pop program))
      (by rw [hname]; rfl) (by rw [hname]; rfl) (by rw [hname]; rfl)
  · exact absurd (by rw [hname]; decide) hwrong
  · exact absurd (by rw [hname]; decide) hwrong

/-- GETB and GETBS have no operands. -/
theorem rom_executes (hrom : line.operation ∈ romNames)
    (h : encodeInstruction relaxed line patch = .ok encoded)
    (hwrong : line.operation ∉ [nameOf "pushb", nameOf "popb", nameOf "getbh", nameOf "getbl"]) :
    Executes program address encoded (statementOf address line) := by
  unfold romNames at hrom
  simp only [List.mem_cons, List.not_mem_nil, or_false] at hrom
  unfold encodeInstruction at h
  unfold statementOf
  rcases hrom with hname | hname | hname | hname
  · rw [hname] at h ⊢
    have hplain : encodeImplied line [0xef] 1 = .ok encoded := h
    exact encodeImplied_executes
      (means_getb program .plain (false, false) (Or.inl ⟨rfl, rfl⟩)) hplain
  · exact absurd (by rw [hname]; decide) hwrong
  · exact absurd (by rw [hname]; decide) hwrong
  · rw [hname] at h ⊢
    have hsigned : encodeImplied line [0x3f, 0xef] 2 = .ok encoded := h
    exact encodeImplied_executes
      (means_getb program .signed (true, true) (Or.inr ⟨rfl, rfl⟩)) hsigned

theorem dataNames_eq : dataNames = operationNames.map (·.1) ++ (movingNames ++ romNames) := rfl

/-- One accepted line. -/
theorem encodeInstruction_executes (hdata : line.operation ∈ dataNames)
    (h : encodeInstruction relaxed line patch = .ok encoded) (hright : Right line) :
    Executes program address encoded (statementOf address line) := by
  unfold Right at hright
  cases hoperation : operationOf line.operation with
  | some operation =>
      rw [hoperation] at hright
      rw [encodeInstruction_arithmetic hoperation] at h
      unfold statementOf
      rw [hoperation]
      exact (encodeArithmetic_means h hright).executes
  | none =>
      rw [hoperation] at hright
      have hnot : line.operation ∉ operationNames.map (·.1) := by
        intro hmem
        have hall : ∀ name ∈ operationNames.map (·.1), operationOf name ≠ none := by decide
        exact hall _ hmem hoperation
      rw [dataNames_eq, List.mem_append, List.mem_append] at hdata
      rcases hdata.resolve_left hnot with hmoving | hrom
      · rw [encodeInstruction_moving hmoving] at h
        exact moving_executes hmoving h hright.1 hright.2
      · exact rom_executes hrom h hright.1

end Lines

/-! ## Sequences -/

/-- Statements of given sizes behind each other, up to a write of R15. -/
def executeStatements (program : Program) : List (Statement × Nat) → Word → Core → Except Fault Core
  | [], pc, core => .ok (core.setPc pc)
  | (statement, size) :: rest, pc, core => do
      let stop := pc + BitVec.ofNat 16 size
      let after ← statement.meaning program (core.setPc stop)
      if after.pcWritten then .ok after else executeStatements program rest stop after

section Sequences

variable {program : Program} {core after : Core}

/-- What a statement keeps: the selectors, and R15 unless it is written. -/
structure Kept (core after : Core) : Prop where
  unselected : after.Unselected
  pc : after.pcWritten = false → after.pc = core.pc

theorem write_kept (h : core.Unselected) (target : Fin 16) (value : Word) :
    Kept core (core.write target value) := by
  refine ⟨write_unselected h target value, ?_⟩
  intro hw
  by_cases hpc : target = 15
  · subst hpc
    have hwritten : (core.write 15 value).pcWritten = true := Bool.or_true core.pcWritten
    rw [hw] at hwritten
    cases hwritten
  · exact write_pc_of_ne hpc value

theorem Kept.of_eq {other : Core} (h : Kept other after) (hpc : other.pc = core.pc) :
    Kept core after := ⟨h.unselected, fun hw => (h.pc hw).trans hpc⟩

theorem apply_kept (h : core.Unselected) (operation : Operation) (target : Fin 16) (right : Word) :
    Kept core (operation.apply target right core) := by
  unfold Operation.apply
  dsimp only
  split_ifs
  · exact ⟨⟨h.source, h.destination, h.alt1, h.alt2, h.prefixSet⟩, fun _ => rfl⟩
  · refine Kept.of_eq (write_kept ?_ target _) rfl
    exact ⟨h.source, h.destination, h.alt1, h.alt2, h.prefixSet⟩

theorem loaded_kept (h : core.Unselected) {address : Word} {byte : Bool} {target : Fin 16}
    (hok : Statement.loaded core address byte target = .ok after) : Kept core after := by
  have hvalue : ∃ value, (core.latched address).write target value = after := by
    cases byte with
    | true =>
        obtain ⟨value, -, hdone⟩ := bind_eq_ok.mp (show (core.latched address).loadByte address >>= _ = _
          from hok)
        exact ⟨value, Except.ok.inj hdone⟩
    | false =>
        obtain ⟨value, -, hdone⟩ := bind_eq_ok.mp (show (core.latched address).loadWord address >>= _ = _
          from hok)
        exact ⟨value, Except.ok.inj hdone⟩
  rcases hvalue with ⟨value, rfl⟩
  exact (write_kept (latched_unselected h address) target value).of_eq rfl

theorem stepped_pc (core : Core) (address : Word) : (Statement.stepped core address).pc = core.pc :=
  write_pc_of_ne (show (10 : Fin 16) ≠ 15 by decide) address

theorem stepped_kept (h : core.Unselected) (address : Word) :
    Kept core (Statement.stepped core address) :=
  ⟨stepped_unselected h address, fun _ => stepped_pc core address⟩

theorem meaning_kept {statement : Statement} (h : core.Unselected)
    (hok : statement.meaning program core = .ok after) : Kept core after := by
  cases statement with
  | compute operation target operand =>
      cases hok
      exact apply_kept h operation target _
  | copy target source =>
      cases hok
      exact write_kept h target _
  | load target value =>
      cases hok
      exact write_kept h target value
  | read target memory byte => exact loaded_kept h hok
  | write memory source byte =>
      rcases stored_keeps h hok with ⟨hunselected, -, hregisters⟩
      exact ⟨hunselected, fun _ => congrFun hregisters 15⟩
  | push source byte =>
      obtain ⟨stored, hstored, hdone⟩ := bind_eq_ok.mp hok
      cases hdone
      rcases stored_keeps h hstored with ⟨hunselected, -, hregisters⟩
      exact (stepped_kept hunselected _).of_eq (congrFun hregisters 15)
  | pop target byte =>
      exact (loaded_kept (stepped_unselected h _) hok).of_eq (stepped_pc core _)
  | getb merge =>
      obtain ⟨byte, -, hdone⟩ := bind_eq_ok.mp hok
      cases hdone
      exact write_kept h 0 _

/-- How straight code ends when its statements end so. -/
def Outcome.ending (slot : List Byte) : Except Fault Core → Outcome
  | .error fault => .faults fault
  | .ok after => if after.pcWritten then .jumps after slot else .falls after

/-- A statement ends behind its bytes. -/
theorem Means.outcome {statement : Statement} {bytes : Bytes} (h : Means program statement bytes)
    (hcore : core.Unselected) (hw : core.pcWritten = false) (pc : Word) :
    straight program (codeBytes bytes) pc core =
      Outcome.ending [] (statement.meaning program (core.setPc (behind pc bytes))) := by
  rw [h core pc hcore hw]
  cases hmeaning : statement.meaning program (core.setPc (behind pc bytes)) with
  | error fault => rfl
  | ok after =>
      have hkept := meaning_kept (unselected_setPc hcore (behind pc bytes)) hmeaning
      unfold Outcome.of Outcome.ending
      dsimp only
      by_cases hwritten : after.pcWritten = true
      · rw [if_pos hwritten, if_pos hwritten]
      · have hpc : after.pc = behind pc bytes := by
          rw [hkept.pc (by simpa using hwritten), setPc_pc]
        rw [if_neg hwritten, if_neg hwritten, if_pos hpc]

/-- Bytes behind each other do what their statements do behind each other. -/
theorem straight_statements (parts : List (Statement × Bytes))
    (hmeans : ∀ part ∈ parts, Means program part.1 part.2) :
    ∀ (pc : Word) (core : Core), core.Unselected → core.pcWritten = false → ∃ slot,
      straight program (codeBytes (parts.flatMap (·.2))) pc core = Outcome.ending slot
        (executeStatements program (parts.map fun part => (part.1, part.2.length)) pc core) := by
  induction parts with
  | nil =>
      intro pc core hcore hw
      refine ⟨[], ?_⟩
      have hclear : ¬ (core.setPc pc).pcWritten = true := by
        rw [show (core.setPc pc).pcWritten = core.pcWritten from rfl, hw]
        decide
      exact (if_neg hclear).symm
  | cons part rest ih =>
      intro pc core hcore hw
      rcases part with ⟨statement, bytes⟩
      have hfirst := (hmeans (statement, bytes) List.mem_cons_self).outcome hcore hw pc
      have hrest := ih fun part hpart => hmeans part (List.mem_cons_of_mem _ hpart)
      rw [List.flatMap_cons, codeBytes_append, List.map_cons, executeStatements]
      show ∃ slot, straight program (codeBytes bytes ++ codeBytes (rest.flatMap (·.2))) pc core =
        Outcome.ending slot (statement.meaning program (core.setPc (behind pc bytes)) >>= fun after =>
          if after.pcWritten then .ok after else executeStatements program
            (rest.map fun part => (part.1, part.2.length)) (behind pc bytes) after)
      cases hmeaning : statement.meaning program (core.setPc (behind pc bytes)) with
      | error fault =>
          rw [hmeaning] at hfirst
          exact ⟨[], straight_faults hfirst⟩
      | ok after =>
          rw [hmeaning] at hfirst
          unfold Outcome.ending at hfirst
          dsimp only at hfirst
          by_cases hwritten : after.pcWritten = true
          · rw [if_pos hwritten] at hfirst
            refine ⟨codeBytes (rest.flatMap (·.2)), ?_⟩
            rw [straight_append _ _ pc core (by rw [hfirst]; exact fun heq => by cases heq), hfirst]
            show Outcome.jumps after _ = Outcome.ending _ (if _ then _ else _)
            rw [if_pos hwritten]
            exact (if_pos hwritten).symm
          · rw [if_neg hwritten] at hfirst
            have hclear : after.pcWritten = false := by simpa using hwritten
            have hkept := meaning_kept (unselected_setPc hcore (behind pc bytes)) hmeaning
            have hlength : behind pc bytes = pc + BitVec.ofNat 16 (codeBytes bytes).length := by
              unfold codeBytes behind
              rw [List.length_map]
            rcases hrest (behind pc bytes) after hkept.unselected hclear with ⟨slot, hslot⟩
            refine ⟨slot, ?_⟩
            rw [straight_then hlength hfirst, hslot]
            show _ = Outcome.ending slot (if _ then _ else _)
            rw [if_neg hwritten]

end Sequences

/-! ## The stack -/

theorem halves_join (value : Word) : (value.setWidth 8 : Byte).setWidth 16 |||
    (((value >>> 8).setWidth 8 : Byte).setWidth 16 <<< 8) = value := by
  ext i hi
  by_cases h : i < 8
  · simp [h, hi]
  · have hlow : i - 8 < 8 := by omega
    have hsum : 8 + (i - 8) = i := by omega
    simp [h, hi, hlow, hsum]

/-- Reading what has been written. -/
theorem readRam_write {ram after : Ram} {address : Nat} {value : Byte}
    (h : writeRam ram address value = .ok after) : readRam after address = .ok value := by
  unfold writeRam at h
  split_ifs at h with hindex
  cases h
  unfold readRam
  rw [if_pos hindex, Function.update_self]

theorem readRam_write_of_ne {ram after : Ram} {address other : Nat} {value : Byte}
    (h : writeRam ram address value = .ok after) (hne : other ≠ address) :
    readRam after other = readRam ram other := by
  unfold writeRam at h
  split_ifs at h with hindex
  cases h
  unfold readRam
  rw [Function.update_of_ne hne]

/-- What a stack operation keeps of a register. -/
def pushedValue (byte : Bool) (value : Word) : Word := if byte then (lowHalf value).setWidth 16 else value

theorem stored_reads {core stored : Core} {address value : Word} {byte : Bool}
    (h : Statement.stored core address value byte = .ok stored) :
    (if byte then stored.loadByte address else stored.loadWord address) =
      .ok (pushedValue byte value) := by
  obtain ⟨low, hwrite, h⟩ := bind_eq_ok.mp h
  have hlow : writeRam core.ram (core.ramIndex address) (value.setWidth 8) = .ok low := hwrite
  have hindex : core.ramIndex address < ramBytes := by
    unfold writeRam at hlow
    split_ifs at hlow with hindex
    exact hindex
  cases byte with
  | true =>
      cases h
      show (readRam low (core.ramIndex address) >>= fun value => .ok (value.setWidth 16)) = _
      rw [readRam_write hlow]
      rfl
  | false =>
      obtain ⟨high, hwrite, h⟩ := bind_eq_ok.mp h
      have hhigh : writeRam low (core.ramIndex address ^^^ 1) ((value >>> 8).setWidth 8) =
        .ok high := hwrite
      cases h
      have hbank : core.ramBank.toNat < 2 := by
        unfold Core.ramIndex ramBytes at hindex
        omega
      have hne : core.ramIndex address ≠ core.ramIndex address ^^^ 1 := by
        intro heq
        have hxor := congrArg (core.ramIndex address ^^^ ·) heq
        simp at hxor
      show (rejectIf (core.ramBank.toNat > 1) Fault.ramBank >>= fun _ =>
        readRam high (core.ramIndex address) >>= fun low =>
          readRam high (core.ramIndex address ^^^ 1) >>= fun high =>
            .ok (low.setWidth 16 ||| (high.setWidth 16 <<< 8))) = _
      rw [readRam_write_of_ne hhigh hne, readRam_write hlow, readRam_write hhigh]
      unfold rejectIf
      rw [if_neg (by omega)]
      exact congrArg Except.ok (halves_join value)

theorem stepped_pointer (core : Core) (address : Word) :
    (Statement.stepped core address).registers 10 = address := by
  show Function.update core.registers 10 address 10 = address
  exact Function.update_self _ _ _

/-- A pop brings back what a push has stored, and R10 with it. -/
theorem push_pop {program : Program} {source target : Fin 16} {byte : Bool} {core between after : Core}
    {pc : Word} (hpush : (Statement.push source byte).meaning program core = .ok between)
    (hpop : (Statement.pop target byte).meaning program (between.setPc pc) = .ok after) :
    after.registers target = pushedValue byte (if source = 15 then core.pc - Statement.width byte
      else core.registers source) ∧ (target ≠ 10 → after.registers 10 = core.registers 10) := by
  obtain ⟨stored, hstored, hdone⟩ := bind_eq_ok.mp hpush
  cases hdone
  have hreads := stored_reads hstored
  have haddress : ((Statement.stepped stored (core.registers 10 - Statement.width byte)).setPc
      pc).registers 10 + Statement.width byte = core.registers 10 := by
    rw [setPc_registers_of_ne (by decide)]
    rw [stepped_pointer, BitVec.sub_add_cancel]
  unfold Statement.meaning at hpop
  dsimp only at hpop
  rw [haddress] at hpop
  generalize hvalue : pushedValue byte (if source = 15 then core.pc - Statement.width byte
    else core.registers source) = value at *
  have hafter : after = (((Statement.stepped ((Statement.stepped stored
      (core.registers 10 - Statement.width byte)).setPc pc) (core.registers 10)).latched
      (core.registers 10)).write target value) := by
    cases byte with
    | true =>
        obtain ⟨found, hfound, hdone⟩ := bind_eq_ok.mp (show stored.loadByte (core.registers 10) >>= _ = _
          from hpop)
        rw [show stored.loadByte (core.registers 10) = .ok value from hreads] at hfound
        cases hfound
        exact (Except.ok.inj hdone).symm
    | false =>
        obtain ⟨found, hfound, hdone⟩ := bind_eq_ok.mp (show stored.loadWord (core.registers 10) >>= _ = _
          from hpop)
        rw [show stored.loadWord (core.registers 10) = .ok value from hreads] at hfound
        cases hfound
        exact (Except.ok.inj hdone).symm
  subst hafter
  refine ⟨Function.update_self .., ?_⟩
  intro hne
  exact (Function.update_of_ne (Ne.symm hne) _ _).trans
    (stepped_pointer ((Statement.stepped stored (core.registers 10 - Statement.width byte)).setPc pc)
      (core.registers 10))

/-- PUSH and POP, or PUSHB and POPB, in pairs. -/
def StackRestores (program : Program) : Prop :=
  ∀ (source target : Fin 16) (byte : Bool) (core between after : Core) (pc : Word),
    (Statement.push source byte).meaning program core = .ok between →
    (Statement.pop target byte).meaning program (between.setPc pc) = .ok after →
    after.registers target = pushedValue byte (if source = 15 then core.pc - Statement.width byte
      else core.registers source) ∧ (target ≠ 10 → after.registers 10 = core.registers 10)

/-! ## The machine -/

/-- An accepted data-processing line with its encoding. -/
structure AcceptedLine (relaxed : List Nat) where
  line : ParsedLine
  patch : Nat
  encoded : Encoded
  data : line.operation ∈ dataNames
  accepted : encodeInstruction relaxed line patch = .ok encoded

/-- The statement of a line, with the size that the assembler gives it. -/
def AcceptedLine.step {relaxed : List Nat} (address : Name → Nat) (accepted : AcceptedLine relaxed) :
    Option (Statement × Nat) :=
  (statementOf address accepted.line).map (·, accepted.encoded.size)

def linesBytes {relaxed : List Nat} (address : Name → Nat) (lines : List (AcceptedLine relaxed)) :
    Bytes :=
  lines.flatMap fun accepted => linkedBytes address accepted.encoded

/-- Registers, flags and memory as they are, with no selector set. -/
def Core.cleared (core : Core) : Core := ({ core with pcWritten := false } : Core).resetSelectors

/-- Code in the payload with a byte behind it; in RAM, no store reaches it. -/
structure Resides (program : Program) (core : Core) (start : Word) (bytes : Bytes) (next : UInt8) :
    Prop where
  inside : ∀ i < (bytes ++ [next]).length, Gsu.inside program (start + BitVec.ofNat 16 i)
  holds : ∀ i byte, (bytes ++ [next])[i]? = some byte →
    programByte program core (start + BitVec.ofNat 16 i) = .ok byte.toBitVec
  stays : program.bank = 0x70 ∨ program.bank = 0x71 →
    Stays program (heldBytes start (bytes ++ [next])) (codeBytes bytes) start (Core.cleared core)

/-- The machine faults, jumps or goes on behind the code as said. -/
def MachineEnds (program : Program) (held : Word → Byte → Prop) (stop : Word) (cpu : Cpu) :
    Except Fault Core → Prop
  | .error fault => ∃ n last, Machine.Runs (cpuMachine program) n cpu last ∧
      Gsu.step program last = .error (.fault fault)
  | .ok after => ∃ n last, Machine.Runs (cpuMachine program) n cpu last ∧
      if after.pcWritten then last.state.core = after else Stands program held stop after last

/-- The machine executes lines as their statements say. -/
def LinesExecute {relaxed : List Nat} (program : Program) (address : Name → Nat)
    (lines : List (AcceptedLine relaxed)) (core : Core) (start : Word) (next : UInt8) : Prop :=
  ∃ steps, lines.mapM (AcceptedLine.step address) = some steps ∧
    MachineEnds program (heldBytes start (linesBytes address lines ++ [next]))
      (behind start (linesBytes address lines)) ⟨{ core := core.setPc start }, {}⟩
      (executeStatements program steps start (Core.cleared core))

section Machines

variable {program : Program} {core : Core} {start : Word} {next : UInt8}

theorem Resides.reads {bytes : Bytes} (h : Resides program core start bytes next) :
    Reads program (heldBytes start (bytes ++ [next])) start (codeBytes (bytes ++ [next])) := by
  apply reads_of_get
  · intro i hi
    exact h.inside i (by simpa [codeBytes] using hi)
  · intro i byte hbyte
    obtain ⟨loaded, hloaded, rfl⟩ := Option.map_eq_some_iff.mp
      ((List.getElem?_map (f := UInt8.toBitVec)).symm.trans hbyte)
    exact ⟨i, loaded, hloaded, rfl, rfl⟩

theorem Resides.intact {bytes : Bytes} (h : Resides program core start bytes next) :
    Intact program (heldBytes start (bytes ++ [next])) core := by
  rintro address byte ⟨i, loaded, hi, rfl, rfl⟩
  exact h.holds i loaded hi

/-- ROM stays whatever is stored. -/
theorem Resides.stay {bytes : Bytes} (h : Resides program core start bytes next) :
    Stays program (heldBytes start (bytes ++ [next])) (codeBytes bytes) start (Core.cleared core) := by
  by_cases hram : program.bank = 0x70 ∨ program.bank = 0x71
  · exact h.stays hram
  · intro k after _ address byte hbyte
    have hcore := h.intact address byte hbyte
    unfold programByte at hcore ⊢
    rw [if_neg hram] at hcore ⊢
    exact hcore

theorem Arrives.machineEnds {held : Word → Byte → Prop} {stop : Word} {byte : Byte} {cpu : Cpu}
    {slot : List Byte} {result : Except Fault Core}
    (h : Arrives program held stop byte cpu (Outcome.ending slot result)) :
    MachineEnds program held stop cpu result := by
  cases result with
  | error fault => exact h
  | ok after =>
      unfold Outcome.ending at h
      dsimp only at h
      unfold MachineEnds
      dsimp only
      by_cases hwritten : after.pcWritten = true
      · rw [if_pos hwritten] at h
        rcases h with ⟨n, last, hruns, hlast, -⟩
        exact ⟨n, last, hruns, by rw [if_pos hwritten]; exact hlast⟩
      · rw [if_neg hwritten] at h
        rcases h with ⟨n, last, hruns, hlast⟩
        exact ⟨n, last, hruns, by rw [if_neg hwritten]; exact hlast⟩

theorem MachineEnds.head {held : Word → Byte → Prop} {stop : Word} {cpu following : Cpu}
    {result : Except Fault Core} (hstep : Gsu.step program cpu = .ok following)
    (h : MachineEnds program held stop following result) : MachineEnds program held stop cpu result := by
  cases result with
  | error fault =>
      rcases h with ⟨n, last, hruns, hlast⟩
      exact ⟨n + 1, last, .head hstep hruns, hlast⟩
  | ok after =>
      rcases h with ⟨n, last, hruns, hlast⟩
      exact ⟨n + 1, last, .head hstep hruns, hlast⟩

/-- Lines that are right, as statements with their bytes. -/
theorem lines_parts {relaxed : List Nat} (address : Name → Nat) (lines : List (AcceptedLine relaxed))
    (hright : ∀ accepted ∈ lines, Right accepted.line) : ∃ parts : List (Statement × Bytes),
      (∀ part ∈ parts, Means program part.1 part.2) ∧
      parts.flatMap (·.2) = linesBytes address lines ∧
      lines.mapM (AcceptedLine.step address) = some (parts.map fun part => (part.1, part.2.length)) := by
  induction lines with
  | nil => exact ⟨[], fun part hpart => absurd hpart List.not_mem_nil, rfl, rfl⟩
  | cons accepted rest ih =>
      rcases ih fun accepted haccepted => hright accepted (List.mem_cons_of_mem _ haccepted) with
        ⟨parts, hmeans, hbytes, hsteps⟩
      have hexecutes : Executes program address accepted.encoded (statementOf address accepted.line) :=
        encodeInstruction_executes accepted.data accepted.accepted
          (hright accepted List.mem_cons_self)
      rcases hexecutes with ⟨statement, hstatement, hmean⟩
      have htidy := encodeInstruction_tidy accepted.line accepted.patch relaxed
      rw [accepted.accepted] at htidy
      have hsize : accepted.encoded.size = (linkedBytes address accepted.encoded).length := by
        unfold linkedBytes
        rw [applyWrites_length]
        exact htidy.size
      refine ⟨(statement, linkedBytes address accepted.encoded) :: parts, ?_, ?_, ?_⟩
      · intro part hpart
        rcases List.mem_cons.mp hpart with rfl | hpart
        · exact hmean
        · exact hmeans part hpart
      · rw [List.flatMap_cons, hbytes]
        rfl
      · have hstep : AcceptedLine.step address accepted =
            some (statement, (linkedBytes address accepted.encoded).length) := by
          unfold AcceptedLine.step
          rw [hstatement, hsize]
          rfl
        rw [List.mapM_cons, hstep, hsteps]
        rfl

/-- Accepted data-processing lines that are right mean what they say, from any
registers, flags and memory. -/
theorem lines_execute {relaxed : List Nat} (address : Name → Nat) (lines : List (AcceptedLine relaxed))
    (hright : ∀ accepted ∈ lines, Right accepted.line)
    (hresides : Resides program core start (linesBytes address lines) next) :
    LinesExecute program address lines core start next ∧ StackRestores program := by
  refine ⟨?_, fun source target byte core between after pc hpush hpop => push_pop hpush hpop⟩
  rcases @lines_parts program relaxed address lines hright with ⟨parts, hmeans, hbytes, hsteps⟩
  refine ⟨_, hsteps, ?_⟩
  rcases straight_statements parts hmeans start (Core.cleared core) ⟨rfl, rfl, rfl, rfl, rfl⟩ rfl with
    ⟨slot, hslot⟩
  have hreads := hresides.reads
  have hcode : codeBytes (linesBytes address lines ++ [next]) =
      codeBytes (linesBytes address lines) ++ [next.toBitVec] := codeBytes_append _ _
  -- the NOP in the pipeline fetches the first byte and resets the selectors
  obtain ⟨first, tail, htail⟩ := List.exists_cons_of_ne_nil
    (show codeBytes (linesBytes address lines ++ [next]) ≠ [] by rw [hcode]; simp)
  have hcore : ({ core.setPc start with pcWritten := false } : Core) =
      ({ core with pcWritten := false } : Core).setPc start := rfl
  rcases stands_of_nop ⟨{ core := core.setPc start }, {}⟩ hcore rfl (coherent_empty _)
    (hresides.intact.of_ram rfl) (htail ▸ hreads) with ⟨following, hfirst, hstands⟩
  rw [hcode] at hreads
  have harrives := straight_arrives hreads hresides.stay hstands
  rw [← hbytes] at harrives ⊢
  rw [hslot] at harrives
  have hstop : start + BitVec.ofNat 16 (codeBytes (parts.flatMap (·.2))).length =
      behind start (parts.flatMap (·.2)) := by
    unfold codeBytes behind
    rw [List.length_map]
  rw [hstop] at harrives
  exact MachineEnds.head hfirst (Arrives.machineEnds harrives)

/-- Code in ROM, byte by byte. -/
theorem resides_rom {bytes : Bytes} (hrom : ¬ (program.bank = 0x70 ∨ program.bank = 0x71))
    (h : (List.range (bytes ++ [next]).length).all (fun i =>
      decide (Gsu.inside program (start + BitVec.ofNat 16 i)) &&
      decide (programByte program core (start + BitVec.ofNat 16 i) =
        .ok ((bytes ++ [next]).getD i 0).toBitVec)) = true) : Resides program core start bytes next := by
  refine ⟨?_, ?_, fun hram => absurd hram hrom⟩
  · intro i hi
    have hcheck := List.all_eq_true.mp h i (List.mem_range.mpr hi)
    exact of_decide_eq_true (Bool.and_eq_true_iff.mp hcheck).1
  · intro i byte hbyte
    have hi : i < (bytes ++ [next]).length := (List.getElem?_eq_some_iff.mp hbyte).1
    have hcheck := List.all_eq_true.mp h i (List.mem_range.mpr hi)
    have hread := of_decide_eq_true (Bool.and_eq_true_iff.mp hcheck).2
    rwa [List.getD_eq_getElem?_getD, hbyte] at hread

theorem lines_execute_stack : ∃ lines : List (AcceptedLine []),
    linesBytes (fun _ => 0) lines =
      [0xa1, 5, 0x21, 0x3e, 0x53, 0x21, 0x3a, 0xea, 0xea, 0xda, 0xda, 0x22, 0x4a] ∧
    let payload := linesBytes (fun _ => 0) lines ++ [0]
    LinesExecute (loadProgram payload 0x18000) (fun _ => 0) lines (initialCore payload 0x18000 0 0)
      0x8000 0 ∧ StackRestores (loadProgram payload 0x18000) := by
  let lines : List (AcceptedLine []) :=
    [⟨{ operation := nameOf "move", operands := [nameOf "r1", nameOf "#5"] }, 0,
        { size := 2, bytes := [0xa1, 5] }, by decide, by decide +kernel⟩,
      ⟨{ operation := nameOf "add", operands := [nameOf "r1", nameOf "#3"] }, 2,
        { size := 3, bytes := [0x21, 0x3e, 0x53] }, by decide, by decide +kernel⟩,
      ⟨{ operation := nameOf "push", operands := [nameOf "r1"] }, 5,
        { size := 4, bytes := [0x21, 0x3a, 0xea, 0xea] }, by decide, by decide +kernel⟩,
      ⟨{ operation := nameOf "pop", operands := [nameOf "r2"] }, 9,
        { size := 4, bytes := [0xda, 0xda, 0x22, 0x4a] }, by decide, by decide +kernel⟩]
  have hright : ∀ accepted ∈ lines, Right accepted.line := by
    have hmove : Right { operation := nameOf "move", operands := [nameOf "r1", nameOf "#5"] } := by
      refine ⟨by decide, fun _ => ?_⟩
      show ¬ _
      exact fun h => absurd h.1 (by decide)
    have hpush : Right { operation := nameOf "push", operands := [nameOf "r1"] } :=
      ⟨by decide, fun h => absurd h (by decide)⟩
    have hpop : Right { operation := nameOf "pop", operands := [nameOf "r2"] } :=
      ⟨by decide, fun h => absurd h (by decide)⟩
    intro accepted haccepted
    simp only [lines, List.mem_cons, List.not_mem_nil, or_false] at haccepted
    rcases haccepted with rfl | rfl | rfl | rfl
    · exact hmove
    · exact Or.inl rfl
    · exact hpush
    · exact hpop
  refine ⟨lines, by decide +kernel, lines_execute (fun _ => 0) lines hright (resides_rom ?_ ?_)⟩
  · decide +kernel
  · decide +kernel

/-- MOVE with a number that IBT takes for a negative one. -/
def moveByte : AcceptedLine [] :=
  ⟨{ operation := nameOf "move", operands := [nameOf "r1", nameOf "#200"] }, 0,
    { size := 2, bytes := [0xa1, 200] }, by decide, by decide +kernel⟩

theorem lines_execute_fails : ¬ ∀ (relaxed : List Nat) (address : Name → Nat)
    (lines : List (AcceptedLine relaxed)) (program : Program) (core : Core) (start : Word)
    (next : UInt8), Resides program core start (linesBytes address lines) next →
      LinesExecute program address lines core start next ∧ StackRestores program := by
  intro h
  let program := loadProgram [0xa1, 200, 0] 0x18000
  let core := initialCore [0xa1, 200, 0] 0x18000 0 0
  let cpu : Cpu := ⟨{ core := core.setPc 0x8000 }, {}⟩
  rcases (h [] (fun _ => 0) [moveByte] program core 0x8000 0
    (resides_rom (by decide +kernel) (by decide +kernel))).1 with ⟨steps, hsteps, hends⟩
  have hstep : [moveByte].mapM (AcceptedLine.step fun _ => 0) = some [(.load 1 200, 2)] := by
    decide +kernel
  cases hstep.symm.trans hsteps
  -- the statement leaves 200 in R1, the machine never has it there
  cases hresult : executeStatements program [(.load 1 200, 2)] 0x8000 (Core.cleared core) with
  | error fault => cases hresult
  | ok after =>
      have hafter : after.pcWritten = false ∧ after.registers 1 = 200 := by
        cases hresult
        exact ⟨by decide +kernel, by decide +kernel⟩
      rw [hresult] at hends
      rcases hends with ⟨n, last, hruns, hlast⟩
      rw [if_neg (by rw [hafter.1]; decide)] at hlast
      have hone : last.state.core.registers 1 = 200 := by
        have hsettled := congrFun (congrArg Core.registers hlast.settled) 1
        rw [setPc_registers_of_ne (by decide)] at hsettled
        exact hsettled.trans hafter.2
      -- STOP is the third step
      have hstop : (match (cpuMachine program).iterate 2 cpu with
          | .ok third => !((cpuMachine program).step third).isOk
          | .error _ => false) = true := by decide +kernel
      have hshort : n ≤ 2 := by
        cases hthird : (cpuMachine program).iterate 2 cpu with
        | error halt =>
            rw [hthird] at hstop
            cases hstop
        | ok third =>
            rw [hthird] at hstop
            cases hhalts : (cpuMachine program).step third with
            | error halt => exact hruns.le_of_halts (Machine.runs_iff_iterate.mpr hthird) hhalts
            | ok following =>
                have hok : (!((cpuMachine program).step third).isOk) = true := hstop
                rw [hhalts] at hok
                cases hok
      have hall : ∀ n < 3, (match (cpuMachine program).iterate n cpu with
          | .ok last => decide (last.state.core.registers 1 ≠ 200)
          | .error _ => true) = true := by decide +kernel
      have hnot := hall n (by omega)
      rw [Machine.runs_iff_iterate.mp hruns] at hnot
      exact of_decide_eq_true hnot hone

end Machines

end Disco.Assembler
