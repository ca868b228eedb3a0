import Disco.Gsu.Straight

/-! # Selected registers

Straight code behind WITH and the ALT prefixes: registers and memory, with the
selectors that the next instruction finds.
-/

namespace Disco.Gsu

open Library

/-- Selectors between statements. -/
structure Core.Unselected (core : Core) : Prop where
  source : core.source = 0
  destination : core.destination = 0
  alt1 : core.alt1 = false
  alt2 : core.alt2 = false
  prefixSet : core.prefixSet = false

theorem Core.Unselected.reset {core : Core} (h : core.Unselected) : core.resetSelectors = core := by
  rcases h with ⟨hsource, hdestination, halt1, halt2, hprefix⟩
  unfold Core.resetSelectors
  rw [← hsource, ← halt1]
  cases core
  simp only at *
  subst hsource hdestination halt1 halt2 hprefix
  rfl

theorem unselected_reset (core : Core) : core.resetSelectors.Unselected :=
  ⟨rfl, rfl, rfl, rfl, rfl⟩

/-- One register as source and destination, under ALT prefixes. -/
def Core.chosen (core : Core) (register : Fin 16) (alt1 alt2 : Bool) (marked : Bool) : Core :=
  { core with
    source := register
    destination := register
    alt1 := alt1
    alt2 := alt2
    prefixSet := marked }

theorem Core.Unselected.chosen {core : Core} (h : core.Unselected) :
    core.chosen 0 false false false = core := h.reset

theorem chosen_setPc (core : Core) (register : Fin 16) (alt1 alt2 marked : Bool) (pc : Word) :
    (core.chosen register alt1 alt2 marked).setPc pc =
      (core.setPc pc).chosen register alt1 alt2 marked := rfl

theorem chosen_result (core : Core) (register : Fin 16) (alt1 alt2 marked : Bool) (value : Word) :
    (core.chosen register alt1 alt2 marked).result value =
      ((core.write register value).setZeroSign value).resetSelectors := rfl

section Straight

variable {program : Program} {core : Core} {opcode : Byte}

/-- An instruction that stays in line. -/
theorem straight_pass {after : Core} (hs : Simple opcode)
    (hp : ∀ pc, perform program opcode (core.setPc pc) = .ok (after.setPc pc))
    (hw : after.pcWritten = false) (rest : List Byte) (pc : Word) :
    straight program (opcode :: rest) pc core = straight program rest (pc + 1) after := by
  have hof : Outcome.of rest (pc + 1) (.ok (after.setPc (pc + 1))) =
      .falls (after.setPc (pc + 1)) := by
    unfold Outcome.of
    dsimp only
    rw [if_neg (by rw [show (after.setPc (pc + 1)).pcWritten = false from hw]; decide),
      if_pos (setPc_pc after (pc + 1))]
  rw [straight_simple hs, hp, hof]
  exact straight_setPc rest (pc + 1) (pc + 1) after

/-- Nothing is left to do behind the last instruction. -/
theorem of_next_nil (pc : Word) (result : Except Fault Core) :
    (Outcome.of [] pc result).next (straight program [] pc) = Outcome.of [] pc result := by
  unfold Outcome.of
  cases result with
  | error fault => rfl
  | ok after =>
      dsimp only
      split_ifs with hwritten hpc
      · rfl
      · show Outcome.falls (after.setPc pc) = .falls after
        rw [← hpc, setPc_self]
      · rfl

theorem straight_last (hs : Simple opcode) (pc : Word) (core : Core) :
    straight program [opcode] pc core =
      Outcome.of [] (pc + 1) (perform program opcode (core.setPc (pc + 1))) := by
  rw [straight_simple hs, of_next_nil]

/-- Opcodes with a register and no operand bytes. -/
def registerBases : List Nat := [0x10, 0x20, 0x30, 0x40, 0x50, 0x60, 0x70, 0x80, 0xc0]

theorem simple_register {base : Nat} (h : base ∈ registerBases) (register : Fin 16) :
    Simple (registerOpcodeOf base register) := by
  have hall : ∀ base ∈ registerBases, ∀ register : Fin 16,
      Simple (registerOpcodeOf base register) := by decide
  exact hall base h register

/-- WITH. -/
theorem straight_with (h : core.Unselected) (hw : core.pcWritten = false) (register : Fin 16)
    (rest : List Byte) (pc : Word) :
    straight program (registerOpcodeOf 0x20 register :: rest) pc core =
      straight program rest (pc + 1) (core.chosen register false false true) := by
  have hchosen : core.chosen register false false true =
      { core with source := register, destination := register, prefixSet := true } := by
    unfold Core.chosen
    rw [h.alt1, h.alt2]
  rw [hchosen]
  have hp : ∀ pc, perform program (registerOpcodeOf 0x20 register) (core.setPc pc) = .ok
      (({ core with source := register, destination := register, prefixSet := true } : Core).setPc pc) :=
    fun pc => perform_with program (core.setPc pc) register
  exact straight_pass (simple_register (by decide) register) hp hw rest pc

section Alternate

variable (register : Fin 16) (alt1 alt2 marked : Bool) (rest : List Byte) (pc : Word)

theorem straight_alt1 (hw : core.pcWritten = false) :
    straight program (0x3d :: rest) pc (core.chosen register alt1 alt2 marked) =
      straight program rest (pc + 1) (core.chosen register true alt2 false) := by
  have hp : ∀ pc, perform program 0x3d ((core.chosen register alt1 alt2 marked).setPc pc) =
      .ok ((core.chosen register true alt2 false).setPc pc) := fun pc => perform_alt1 program _
  exact straight_pass (by decide) hp hw rest pc

theorem straight_alt2 (hw : core.pcWritten = false) :
    straight program (0x3e :: rest) pc (core.chosen register alt1 alt2 marked) =
      straight program rest (pc + 1) (core.chosen register alt1 true false) := by
  have hp : ∀ pc, perform program 0x3e ((core.chosen register alt1 alt2 marked).setPc pc) =
      .ok ((core.chosen register alt1 true false).setPc pc) := fun pc => perform_alt2 program _
  exact straight_pass (by decide) hp hw rest pc

theorem straight_alt3 (hw : core.pcWritten = false) :
    straight program (0x3f :: rest) pc (core.chosen register alt1 alt2 marked) =
      straight program rest (pc + 1) (core.chosen register true true false) := by
  have hp : ∀ pc, perform program 0x3f ((core.chosen register alt1 alt2 marked).setPc pc) =
      .ok ((core.chosen register true true false).setPc pc) := fun pc => perform_alt3 program _
  exact straight_pass (by decide) hp hw rest pc

end Alternate

end Straight

end Disco.Gsu
