import Disco.Assembler.Relinked

/-! # Branch relaxation

Relaxation ends, its offsets are those of the second pass, short branches reach
their labels, and relaxed ones do so under the same condition. In every linked
program a relaxed branch runs as one branch of unlimited range with a NOP of
its own in its delay slot.
-/

namespace Disco.Assembler

open Library Linker Gsu

/-! ## Loading -/

/-- A machine whose memory holds the payload of an image. -/
structure Loaded (image : Image) (program : Program) (core : Core) : Prop where
  origin : program.origin = image.origin
  size : program.size = image.payload.length
  bytes : ∀ k byte, image.payload[k]? = some byte →
    programByte program core (BitVec.ofNat 16 (image.origin + k)) = .ok byte.toBitVec

/-- Addresses of a payload that fits the bank of its origin. -/
theorem payload_address {origin k length : Nat} (hfits : origin % 0x10000 + length ≤ 0x10000)
    (hk : k < length) : (BitVec.ofNat 16 (origin + k)).toNat = origin % 65536 + k := by
  rw [BitVec.toNat_ofNat]
  omega

/-- Consecutive addresses of a bank are consecutive in the ROM. -/
theorem romIndex_add {address : Nat} (hregion : GsuMemoryMap.region address ≠ .unmapped)
    (hram : ¬ (address / 65536 = 0x70 ∨ address / 65536 = 0x71)) {k : Nat}
    (hk : address % 65536 + k < 65536) : ∃ start, romIndex address = .ok start ∧
      romIndex (address / 65536 * 65536 + (address % 65536 + k)) = .ok (start + k) := by
  have hbank : (address / 65536 * 65536 + (address % 65536 + k)) / 65536 = address / 65536 := by
    omega
  have hoffset : (address / 65536 * 65536 + (address % 65536 + k)) % 65536 =
      address % 65536 + k := by omega
  unfold romIndex
  dsimp only
  rw [hbank, hoffset]
  unfold GsuMemoryMap.region GsuMemoryMap.bank at hregion
  by_cases hlow : address / 65536 < 0x40 ∧ address % 65536 ≥ 0x8000
  · refine ⟨address / 65536 * 32768 + address % 65536 - 0x8000, if_pos hlow, ?_⟩
    rw [if_pos ⟨hlow.1, by omega⟩]
    exact congrArg Except.ok (by omega)
  · by_cases hhigh : address / 65536 ≥ 0x40 ∧ address / 65536 ≤ 0x5f
    · refine ⟨(address / 65536 - 0x40) * 65536 + address % 65536, ?_, ?_⟩
      · rw [if_neg hlow, if_pos hhigh]
      · rw [if_neg (by omega), if_pos hhigh, Nat.add_assoc]
    · exfalso
      split_ifs at hregion with _ hrom
      · exact hregion rfl
      · omega
      · exact hregion rfl

/-- The machine as it is loaded holds the payload. -/
theorem loaded_initial {image : Image} (hregion : GsuMemoryMap.region image.origin ≠ .unmapped)
    (hfits : image.origin % 0x10000 + image.payload.length ≤ 0x10000) (initialSp : Word)
    (ramBank : Byte) : Loaded image (loadProgram image.payload image.origin)
      (initialCore image.payload image.origin initialSp ramBank) where
  origin := rfl
  size := rfl
  bytes := by
    intro k byte hbyte
    have hk : k < image.payload.length := (List.getElem?_eq_some_iff.mp hbyte).1
    have haddress := payload_address hfits hk
    have hloaded : ∀ start, bytesAt start image.payload (start + k) = byte.toBitVec := by
      intro start
      unfold bytesAt
      rw [if_pos (Nat.le_add_right _ _), Nat.add_sub_cancel_left, List.getD_eq_getElem?_getD,
        hbyte]
      rfl
    have hbank : (loadProgram image.payload image.origin).bank = image.origin / 65536 := rfl
    unfold programByte
    rw [hbank, haddress]
    by_cases hram : image.origin / 65536 = 0x70 ∨ image.origin / 65536 = 0x71
    · rw [if_pos hram]
      unfold readRam
      rw [if_pos (by unfold ramBytes; omega)]
      unfold initialCore
      dsimp only
      rw [if_pos hram, ← Nat.add_assoc, hloaded]
    · rw [if_neg hram]
      obtain ⟨start, hstart, hnext⟩ := romIndex_add hregion hram (k := k) (by omega)
      unfold Program.readRom
      rw [hnext]
      unfold loadProgram
      rw [hstart]
      exact congrArg Except.ok (hloaded start)

/-! ## Execution -/

/-- A run keeps to this: it leaves the bytes of the relaxed branches as they
were loaded, it reaches none of these branches from the delay slot of another
transfer, and it has no ALT prefix pending in front of an unconditional one. -/
structure Tame (program : Program) (branches : List LongBranch) (start : Core) (state : State) :
    Prop where
  unchanged : ∀ address byte, LongBranch.Held branches address byte →
    programByte program state.core address = programByte program start address
  sequential : ∀ branch, LongBranch.at? branches state.address = some branch →
    state.core.pc = branch.start + 1
  plain : ∀ branch, LongBranch.at? branches state.address = some branch → branch.opcode = 5 →
    state.core.alt1 = false ∧ state.core.alt2 = false

section Executed

variable {assembly : Assembly} {options : Options} {image : Image} {i : Nat} {base : Bases}
  {program : Program} {core : Core}

/-- A long branch of a loaded image has a place in the program. -/
theorem Relinked.placed {place : Nat} {branch : LongBranch} (h : Relinked image place branch)
    (hload : Loaded image program core)
    (hfits : image.origin % 0x10000 + image.payload.length ≤ 0x10000) : Placed program branch where
  opcode_ge := h.opcode_ge
  opcode_le := h.opcode_le
  inside := by
    intro k hk
    obtain ⟨byte, hbyte, -⟩ := Option.map_eq_some_iff.mp
      (h.bytes k _ (List.getElem?_eq_getElem hk))
    have hlt : place + k < image.payload.length := (List.getElem?_eq_some_iff.mp hbyte).1
    have haddress : branch.start + BitVec.ofNat 16 k =
        BitVec.ofNat 16 (image.origin + (place + k)) := by
      rw [h.start, ← BitVec.ofNat_add, Nat.add_assoc]
    have hbase : program.base = image.origin % 65536 := by
      unfold Program.base
      rw [hload.origin]
    rw [haddress]
    unfold inside
    rw [payload_address hfits hlt, hbase, hload.size]
    omega

theorem Relinked.held {place : Nat} {branch : LongBranch} (h : Relinked image place branch)
    (hload : Loaded image program core) {k : Nat} {byte : Byte}
    (hk : branch.bytes[k]? = some byte) :
    programByte program core (branch.start + BitVec.ofNat 16 k) = .ok byte := by
  obtain ⟨loaded, hloaded, rfl⟩ := Option.map_eq_some_iff.mp (h.bytes k byte hk)
  have haddress : branch.start + BitVec.ofNat 16 k =
      BitVec.ofNat 16 (image.origin + (place + k)) := by
    rw [h.start, ← BitVec.ofNat_add, Nat.add_assoc]
  rw [haddress]
  exact hload.bytes _ _ hloaded

/-- Every relaxed branch of a linked object is in the payload. -/
theorem Assembled.relinked (ha : Assembled assembly) (hl : Linked options image)
    (ho : image.objects[i]? = some assembly.object) (hb : image.bases[i]? = some base)
    {branch : LongBranch} (hm : branch ∈ assembly.longBranches (image.origin + base.code)) :
    ∃ place, Relinked image place branch := by
  obtain ⟨line, offset, opcode, symbol, hr, rfl⟩ := ha.mem_longBranches hm
  exact ⟨_, hr.relinked ha hl ho hb⟩

/-- A linked object runs as if its relaxed branches were of unlimited range. -/
theorem Assembled.executed (ha : Assembled assembly) (hl : Linked options image)
    (hgsu : image.config.target = .gsu) (ho : image.objects[i]? = some assembly.object)
    (hb : image.bases[i]? = some base) (hload : Loaded image program core)
    (htame : ∀ n run,
      Machine.Runs (idealMachine program (assembly.longBranches (image.origin + base.code))) n
        (startRun core) run →
      Tame program (assembly.longBranches (image.origin + base.code)) core run.cpu.state) :
    Machine.SameBehavior
      (idealMachine program (assembly.longBranches (image.origin + base.code)))
      (gsuMachine program (assembly.longBranches (image.origin + base.code)))
      (startRun core) (startRun core) := by
  obtain ⟨-, hfits⟩ := GsuMemoryMap.validatePayload_eq_ok.mp (hl.payload hgsu)
  have hfits' : image.origin % 0x10000 + image.payload.length ≤ 0x10000 := by
    rw [Image.payload, List.length_append]
    omega
  apply longBranch_sameBehavior
  · intro branch hm
    obtain ⟨place, hplace⟩ := ha.relinked hl ho hb hm
    exact hplace.placed hload hfits'
  · intro n run hruns
    have hstate := htame n run hruns
    refine ⟨?_, hstate.sequential, hstate.plain⟩
    intro address byte hheld
    rw [hstate.unchanged address byte hheld]
    obtain ⟨branch, hm, k, hk, rfl⟩ := hheld
    obtain ⟨place, hplace⟩ := ha.relinked hl ho hb hm
    exact hplace.held hload hk

end Executed

/-! ## Relaxation as a whole -/

/-- What relaxation has made of the branches of an assembly. -/
structure Transparent (assembly : Assembly) : Prop where
  /-- A label is where the second pass has come to at its line. -/
  labels : ∀ before line after, assembly.parsed.lines = before ++ line :: after →
    line.label ≠ [] → ∃ emitted, foldAll (secondPassLine assembly.relaxation.relaxed)
        (startEmitted assembly.parsed.settings) before = .ok emitted ∧
      assembly.relaxation.pass.lookup line.label =
        some ⟨symbolSection line.sect, (emitted.output line.sect).length⟩
  /-- So is the offset of every line of CODE. -/
  offsets : ∀ before line after, assembly.parsed.lines = before ++ line :: after →
    isDirective line.operation = false → line.sect = .code →
    ∃ emitted, foldAll (secondPassLine assembly.relaxation.relaxed)
        (startEmitted assembly.parsed.settings) before = .ok emitted ∧
      assembly.relaxation.pass.codeOffset line.lineNumber =
        some emitted.object.codeSection.length
  short : ∀ line ∈ assembly.parsed.lines, isShortBranch assembly.relaxation.relaxed line →
    ∃ offset, assembly.relaxation.pass.codeOffset line.lineNumber = some offset ∧
      ShortBranch assembly line offset
  relaxed : ∀ line ∈ assembly.parsed.lines, line.lineNumber ∈ assembly.relaxation.relaxed →
    ∃ offset opcode symbol,
      assembly.relaxation.pass.codeOffset line.lineNumber = some offset ∧
      RelaxedBranch assembly line offset opcode symbol
  /-- Wherever the object is linked and loaded, its relaxed branches run as branches of
  unlimited range with a NOP of their own in the delay slot. -/
  executed : ∀ (generate : ObjectFile → Except String String) (options : Options)
    (files : List (String × Bytes)) (image : Image) (i : Nat) (base : Bases) (program : Program)
    (core : Core), runLinker generate options files = .ok image → image.config.target = .gsu →
    image.objects[i]? = some assembly.object → image.bases[i]? = some base →
    Loaded image program core →
    let branches := assembly.longBranches (image.origin + base.code)
    (∀ n run, Machine.Runs (idealMachine program branches) n (startRun core) run →
      Tame program branches core run.cpu.state) →
    Machine.SameBehavior (idealMachine program branches) (gsuMachine program branches)
      (startRun core) (startRun core)

theorem runAssembler_ne_unending (source : Text) : runAssembler source ≠ .error .unending := by
  intro h
  unfold runAssembler at h
  cases hprepare : prepare source with
  | error failure =>
      rw [hprepare] at h
      cases h
  | ok result =>
      rw [hprepare] at h
      obtain ⟨parsed, pass⟩ := result
      simp only [Except.mapError, ok_bind] at h
      cases hrelax : relaxBranches parsed.lines ⟨[], pass⟩ with
      | error stop =>
          rw [hrelax] at h
          cases h
          exact relaxBranches_ends parsed.lines ⟨[], pass⟩ hrelax
      | ok relaxation =>
          rw [hrelax] at h
          simp only [ok_bind] at h
          cases hfinish : finish parsed relaxation with
          | error failure =>
              rw [hfinish] at h
              cases h
          | ok assembly =>
              rw [hfinish] at h
              cases h

/-- Relaxation ends. In what it leaves, both passes agree on every offset, short
branches reach their labels with a byte, relaxed ones reach them under the same
condition, and the linked program performs the source's instructions as with
branches of unlimited range, each relaxed one with a NOP in its delay slot. -/
theorem relaxation_transparent (source : Text) : runAssembler source ≠ .error .unending ∧
    ∀ assembly, runAssembler source = .ok assembly → Transparent assembly := by
  refine ⟨runAssembler_ne_unending source, fun assembly hrun => ?_⟩
  have ha := assembled_of_run hrun
  constructor
  · intro before line after hlines hlabel
    obtain ⟨pass, emitted, next, h⟩ := ha.split hlines
    exact ⟨emitted, h.second, h.label hlabel⟩
  · intro before line after hlines hdirective hsect
    obtain ⟨pass, emitted, next, h⟩ := ha.split hlines
    exact ⟨emitted, h.second, h.codeOffset ha hdirective hsect⟩
  · intro line hm hshort
    obtain ⟨opcode, hop⟩ := Option.isSome_iff_exists.mp hshort.2.1
    obtain ⟨before, after, pass, emitted, next, h, hoffset⟩ :=
      ha.codeOffset hm (branch_operation hop).1 hshort.1
    exact ⟨_, hoffset, ha.shortBranch h hshort⟩
  · intro line hm hr
    exact ha.relaxedAt hm hr
  · intro generate options files image i base program core hlink hgsu ho hb hload branches htame
    exact ha.executed (linked_of_runLinker hlink).1 hgsu ho hb hload htame

/-! ## One program -/

/-- A jump over a table: the label is out of a short branch's reach. -/
def farSource : Text := nameOf (".segment \"CODE\"\nbra far\ninc r1\n.word " ++
  String.intercalate "," (List.replicate 70 "0") ++ "\nfar: stop\nnop\n")

/-- The program of an assembly that is linked alone, with its relaxed branches. -/
def alone (source : Text) : Option (Assembly × Image × Bases) := do
  let assembly ← (runAssembler source).toOption
  let image ← (runLinker (fun _ => .ok "") {} [("far.o", assembly.object.encode)]).toOption
  let base ← image.bases[0]?
  if image.config.target = .gsu ∧ image.objects[0]? = some assembly.object then
    some (assembly, image, base)
  else none

theorem alone_eq_some {source : Text} {assembly : Assembly} {image : Image} {base : Bases}
    (h : alone source = some (assembly, image, base)) : runAssembler source = .ok assembly ∧
      runLinker (fun _ => .ok "") {} [("far.o", assembly.object.encode)] = .ok image ∧
      image.config.target = .gsu ∧ image.objects[0]? = some assembly.object ∧
      image.bases[0]? = some base := by
  unfold alone at h
  obtain ⟨assembly', hassembly, h⟩ := Option.bind_eq_some_iff.mp h
  obtain ⟨image', himage, h⟩ := Option.bind_eq_some_iff.mp h
  obtain ⟨base', hbase, h⟩ := Option.bind_eq_some_iff.mp h
  split at h
  · rename_i hcond
    cases h
    refine ⟨?_, ?_, hcond.1, hcond.2, hbase⟩
    · cases hrun : runAssembler source with
      | error e =>
          rw [hrun] at hassembly
          cases hassembly
      | ok result =>
          rw [hrun] at hassembly
          cases hassembly
          rfl
    · cases hlink : runLinker (fun _ => .ok "") {} [("far.o", assembly.object.encode)] with
      | error e =>
          rw [hlink] at himage
          cases himage
      | ok result =>
          rw [hlink] at himage
          cases himage
          rfl
  · cases h

/-- The program loaded from an image, and the registers it starts with. -/
def loadedProgram (image : Image) : Program := loadProgram image.payload image.origin
def loadedCore (image : Image) : Core := initialCore image.payload image.origin 0x2000 0

/-- R1 where a run ends, unless it ends with a fault. -/
def haltRegister : Halt → Option Word
  | .stopped core => some (core.registers 1)
  | .fault _ => none

/-- The same for a machine that ends after a number of steps. -/
def stopRegister (A : Machine.{0} Halt Unit Performed) (steps : Nat) (start : A.State) :
    Option (Option Word) :=
  match A.iterate steps start with
  | .ok last =>
      match A.step last with
      | .error halt => some (haltRegister halt)
      | .ok _ => none
  | .error _ => none

theorem stopRegister_eq_some {A : Machine.{0} Halt Unit Performed} {steps : Nat}
    {start : A.State} {value : Option Word} (h : stopRegister A steps start = some value) :
    ∃ last halt, Machine.Runs A steps start last ∧ A.step last = .error halt ∧
      haltRegister halt = value := by
  unfold stopRegister at h
  split at h
  · rename_i last hlast
    split at h
    · rename_i halt hstop
      exact ⟨last, halt, Machine.runs_iff_iterate.mpr hlast, hstop, Option.some.inj h⟩
    · cases h
  · cases h

/-- Machines that end with different registers do not behave alike. -/
theorem stopRegister_congr {A B : Machine.{0} Halt Unit Performed} {n m : Nat} {s : A.State}
    {t : B.State} {value other : Option Word} (h : Machine.SameBehavior A B s t)
    (hs : stopRegister A n s = some value) (ht : stopRegister B m t = some other) :
    value = other := by
  obtain ⟨last, halt, hruns, hstop, rfl⟩ := stopRegister_eq_some hs
  obtain ⟨last', halt', hruns', hstop', rfl⟩ := stopRegister_eq_some ht
  have hfinishes := (h.finishes halt ()).mp ⟨n, last, hruns, hstop, rfl⟩
  rw [hfinishes.unique ⟨m, last', hruns', hstop', rfl⟩]

/-- The conditions on a long branch that is about to be performed, computed. -/
def tameState (branches : List LongBranch) (state : State) : Bool :=
  match LongBranch.at? branches state.address with
  | some branch => state.core.pc = branch.start + 1 ∧
      (branch.opcode = 5 → state.core.alt1 = false ∧ state.core.alt2 = false)
  | none => true

/-- A program in ROM is tame when the states up to its STOP are. -/
theorem tame_of_rom {program : Program} {branches : List LongBranch} {start : Core}
    (hrom : ¬ (program.bank = 0x70 ∨ program.bank = 0x71)) {steps : Nat} {value : Option Word}
    (hstop : stopRegister (idealMachine program branches) steps (startRun start) = some value)
    (hstates : ∀ n ≤ steps, ∀ run,
      (idealMachine program branches).iterate n (startRun start) = .ok run →
      tameState branches run.cpu.state = true) (n : Nat) (run : Run)
    (hruns : Machine.Runs (idealMachine program branches) n (startRun start) run) :
    Tame program branches start run.cpu.state := by
  obtain ⟨last, halt, hlast, hhalt, -⟩ := stopRegister_eq_some hstop
  have hle : n ≤ steps := hruns.le_of_halts hlast hhalt
  have hstate := hstates n hle run (Machine.runs_iff_iterate.mp hruns)
  unfold tameState at hstate
  refine ⟨fun address byte _ => ?_, fun branch hb => ?_, fun branch hb hopcode => ?_⟩
  · unfold programByte
    rw [if_neg hrom, if_neg hrom]
  · rw [hb] at hstate
    exact (of_decide_eq_true hstate).1
  · rw [hb] at hstate
    exact (of_decide_eq_true hstate).2 hopcode

theorem relaxation_transparent_farSource : ∃ assembly image base,
    runAssembler farSource = .ok assembly ∧ assembly.relaxation.relaxed = [2] ∧
    Transparent assembly ∧
    runLinker (fun _ => .ok "") {} [("far.o", assembly.object.encode)] = .ok image ∧
    image.objects[0]? = some assembly.object ∧ image.bases[0]? = some base ∧
    let branches := assembly.longBranches (image.origin + base.code)
    branches ≠ [] ∧ Machine.SameBehavior (idealMachine (loadedProgram image) branches)
      (gsuMachine (loadedProgram image) branches) (startRun (loadedCore image))
      (startRun (loadedCore image)) := by
  have hcheck : (alone farSource).map (fun (assembly, image, base) =>
      let branches := assembly.longBranches (image.origin + base.code)
      let machine := idealMachine (loadedProgram image) branches
      (assembly.relaxation.relaxed, branches.length, image.origin / 65536,
        decide (stopRegister machine 3 (startRun (loadedCore image)) = some (some 0)),
        (List.range 4).all fun n =>
          match machine.iterate n (startRun (loadedCore image)) with
          | .ok run => tameState branches (run : Run).cpu.state
          | .error _ => true)) = some ([2], 1, 0, true, true) := by decide +kernel
  obtain ⟨⟨assembly, image, base⟩, halone, hvalues⟩ := Option.map_eq_some_iff.mp hcheck
  obtain ⟨hrun, hlink, hgsu, ho, hb⟩ := alone_eq_some halone
  obtain ⟨-, -, hregion, hfits⟩ := runLinker_payload hlink hgsu
  simp only [Prod.mk.injEq] at hvalues
  obtain ⟨hrelaxed, hcount, hbank, hstop, hstates⟩ := hvalues
  have htransparent := (relaxation_transparent farSource).2 assembly hrun
  refine ⟨assembly, image, base, hrun, hrelaxed, htransparent, hlink, ho, hb, ?_, ?_⟩
  · intro hnil
    rw [hnil] at hcount
    cases hcount
  · refine htransparent.executed _ _ _ image 0 base _ _ hlink hgsu ho hb
      (loaded_initial hregion hfits 0x2000 0) (tame_of_rom ?_ (of_decide_eq_true hstop) ?_)
    · show ¬ (image.origin / 65536 = 0x70 ∨ image.origin / 65536 = 0x71)
      rw [hbank]
      decide
    · intro n hn run hiterate
      have hstate := List.all_eq_true.mp hstates n (List.mem_range.mpr (by omega))
      rw [hiterate] at hstate
      exact hstate

/-! ## The other ideal -/

/-- A branch of unlimited range that keeps the delay slot of a short branch: the
instruction behind it in the source is performed whether or not it is taken. -/
def takeDelayed (program : Program) (branch : LongBranch) (cpu : Cpu) : Except Halt Cpu := do
  let core := { cpu.state.core with pcWritten := false }
  let (slot, cache) ← (fetch program (core.setPc branch.next) cpu.cache).mapError .fault
  let core := if branchTaken branch.opcode core then core.write 15 branch.target
    else core.setPc (branch.next + 1)
  .ok ⟨⟨core, slot, some branch.next⟩, cache⟩

def delayedStep (program : Program) (branches : List LongBranch) (cpu : Cpu) :
    Except Halt (Cpu × Performed) :=
  match LongBranch.at? branches cpu.state.address with
  | some branch => do
      let next ← takeDelayed program branch cpu
      .ok (next, { cpu.state.current with opcode := branch.opcode })
  | none => tracedStep program cpu

def delayedMachine (program : Program) (branches : List LongBranch) :
    Machine.{0} Halt Unit Performed :=
  tracedMachine (delayedStep program branches) (sourceView branches)

/-- A program on which two readings of its relaxed branches stop differently. -/
theorem exists_differing {source : Text}
    (first second : Program → List LongBranch → Cpu → Except Halt (Cpu × Performed)) (n m : Nat)
    {value other : Option Word} (hne : value ≠ other)
    (h : (alone source).map (fun (assembly, image, base) =>
      let branches := assembly.longBranches (image.origin + base.code)
      (stopRegister (tracedMachine (first (loadedProgram image) branches) (sourceView branches)) n
          (startRun (loadedCore image)),
        stopRegister (tracedMachine (second (loadedProgram image) branches) (sourceView branches)) m
          (startRun (loadedCore image)))) = some (some value, some other)) :
    ∃ assembly image base, runAssembler source = .ok assembly ∧
      runLinker (fun _ => .ok "") {} [("far.o", assembly.object.encode)] = .ok image ∧
      image.config.target = .gsu ∧ image.objects[0]? = some assembly.object ∧
      image.bases[0]? = some base ∧ Loaded image (loadedProgram image) (loadedCore image) ∧
      let branches := assembly.longBranches (image.origin + base.code)
      ¬ Machine.SameBehavior
        (tracedMachine (first (loadedProgram image) branches) (sourceView branches))
        (tracedMachine (second (loadedProgram image) branches) (sourceView branches))
        (startRun (loadedCore image)) (startRun (loadedCore image)) := by
  obtain ⟨⟨assembly, image, base⟩, halone, hvalues⟩ := Option.map_eq_some_iff.mp h
  obtain ⟨hrun, hlink, hgsu, ho, hb⟩ := alone_eq_some halone
  obtain ⟨-, -, hregion, hfits⟩ := runLinker_payload hlink hgsu
  refine ⟨assembly, image, base, hrun, hlink, hgsu, ho, hb, loaded_initial hregion hfits _ _, ?_⟩
  intro branches hsame
  simp only [Prod.mk.injEq] at hvalues
  exact hne (stopRegister_congr hsame hvalues.1 hvalues.2)

/-- The instruction behind a relaxed branch is not performed when it is taken:
branches of unlimited range with the delay slot of short ones are not what runs. -/
theorem farSource_delayed : ∃ assembly image base, runAssembler farSource = .ok assembly ∧
    runLinker (fun _ => .ok "") {} [("far.o", assembly.object.encode)] = .ok image ∧
    image.config.target = .gsu ∧ image.objects[0]? = some assembly.object ∧
    image.bases[0]? = some base ∧ Loaded image (loadedProgram image) (loadedCore image) ∧
    let branches := assembly.longBranches (image.origin + base.code)
    ¬ Machine.SameBehavior (delayedMachine (loadedProgram image) branches)
      (gsuMachine (loadedProgram image) branches) (startRun (loadedCore image))
      (startRun (loadedCore image)) :=
  exists_differing delayedStep (fun program _ => tracedStep program) 3 3
    (show some (1 : Word) ≠ some 0 by decide) (by decide +kernel)

/-- The same jump with an ALT prefix in front, under which its IWT would be
another instruction. -/
def altSource : Text := nameOf (".segment \"CODE\"\nalt2\nbra far\ninc r1\n.word " ++
  String.intercalate "," (List.replicate 70 "0") ++ "\nfar: stop\nnop\n")

/-- A pending prefix is not transparent. -/
theorem altSource_pending : ∃ assembly image base, runAssembler altSource = .ok assembly ∧
    runLinker (fun _ => .ok "") {} [("far.o", assembly.object.encode)] = .ok image ∧
    image.config.target = .gsu ∧ image.objects[0]? = some assembly.object ∧
    image.bases[0]? = some base ∧ Loaded image (loadedProgram image) (loadedCore image) ∧
    let branches := assembly.longBranches (image.origin + base.code)
    ¬ Machine.SameBehavior (idealMachine (loadedProgram image) branches)
      (gsuMachine (loadedProgram image) branches) (startRun (loadedCore image))
      (startRun (loadedCore image)) :=
  exists_differing idealStep (fun program _ => tracedStep program) 4 2
    (show some (0 : Word) ≠ none by decide) (by decide +kernel)

end Disco.Assembler
