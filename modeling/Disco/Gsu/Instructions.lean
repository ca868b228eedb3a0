import Disco.Gsu.Block

/-! # What single instructions do

The machine's instruction, selected by opcode, in the form in which programs
use it: a prefix, a selected register, a store.
-/

namespace Disco.Gsu

open Library

section Instructions

variable (program : Program) (core : Core)

/-! ## Prefixes -/

theorem perform_alt1 : perform program 0x3d core =
    .ok { core with alt1 := true, prefixSet := false } := by
  have h : perform program 0x3d core = .ok { core with
      alt1 := core.alt1 || true, alt2 := core.alt2 || false, prefixSet := false } := rfl
  rw [h, Bool.or_true, Bool.or_false]

theorem perform_alt2 : perform program 0x3e core =
    .ok { core with alt2 := true, prefixSet := false } := by
  have h : perform program 0x3e core = .ok { core with
      alt1 := core.alt1 || false, alt2 := core.alt2 || true, prefixSet := false } := rfl
  rw [h, Bool.or_true, Bool.or_false]

theorem perform_alt3 : perform program 0x3f core =
    .ok { core with alt1 := true, alt2 := true, prefixSet := false } := by
  have h : perform program 0x3f core = .ok { core with
      alt1 := core.alt1 || true, alt2 := core.alt2 || true, prefixSet := false } := rfl
  rw [h, Bool.or_true, Bool.or_true]

theorem perform_with (register : Fin 16) : perform program (registerOpcodeOf 0x20 register) core =
    .ok { core with source := register, destination := register, prefixSet := true } := by
  fin_cases register <;> rfl

/-- TO behind WITH is MOVE. -/
theorem perform_to (register : Fin 16) (h : core.prefixSet = true) :
    perform program (registerOpcodeOf 0x10 register) core =
      .ok (core.write register core.sourceValue).resetSelectors := by
  have hif : perform program (registerOpcodeOf 0x10 register) core =
      if core.prefixSet then .ok (core.write register core.sourceValue).resetSelectors
      else .ok { core with destination := register } := by
    fin_cases register <;> rfl
  rw [hif, if_pos h]

/-! ## Arithmetic -/

/-- The right operand, which ALT2 replaces by its number. -/
def Core.right (core : Core) (register : Fin 16) : Word :=
  if core.alt2 then BitVec.ofNat 16 register.val else core.registers register

theorem perform_add (register : Fin 16) : perform program (registerOpcodeOf 0x50 register) core =
    .ok (add core (core.right register)) := by
  fin_cases register <;> rfl

theorem perform_subtract (register : Fin 16) :
    perform program (registerOpcodeOf 0x60 register) core =
      .ok (subtract core (if core.alt1 then core.registers register else core.right register)) := by
  fin_cases register <;> rfl

theorem perform_multiply (register : Fin 16) :
    perform program (registerOpcodeOf 0x80 register) core =
      .ok (multiply core (core.right register)) := by
  fin_cases register <;> rfl

theorem perform_and (register : Fin 16) (h : register ≠ 0) :
    perform program (registerOpcodeOf 0x70 register) core = .ok (core.result (core.sourceValue &&&
      if core.alt1 then ~~~core.right register else core.right register)) := by
  fin_cases register <;> first | rfl | exact absurd rfl h

theorem perform_or (register : Fin 16) (h : register ≠ 0) :
    perform program (registerOpcodeOf 0xc0 register) core = .ok (core.result
      (if core.alt1 then core.sourceValue ^^^ core.right register
        else core.sourceValue ||| core.right register)) := by
  fin_cases register <;> first | rfl | exact absurd rfl h

/-! ## Banks -/

theorem perform_ramb (h1 : core.alt1 = false) (h2 : core.alt2 = true) : perform program 0xdf core =
    .ok { core with ramBank := core.sourceValue.setWidth 8 &&& 1 }.resetSelectors := by
  have h : perform program 0xdf core = if core.alt2 = false then _ else if core.alt1 then _ else
    .ok { core with ramBank := core.sourceValue.setWidth 8 &&& 1 }.resetSelectors := rfl
  rw [h, if_neg (by simp [h2]), if_neg (by simp [h1])]

theorem perform_getb : perform program 0xef core =
    (program.readRom (core.romBank.toNat * 65536 + (core.registers 14).toNat) >>= fun fetched =>
      .ok (core.write core.destination (getByte core fetched)).resetSelectors) := rfl

/-! ## Steps by one -/

theorem perform_inc (register : Fin 16) (h : register ≠ 15) :
    perform program (registerOpcodeOf 0xd0 register) core =
      .ok ((core.write register (core.registers register + 1)).setZeroSign
        (core.registers register + 1)).resetSelectors := by
  fin_cases register <;> first | rfl | exact absurd rfl h

theorem perform_dec (register : Fin 16) (h : register ≠ 15) :
    perform program (registerOpcodeOf 0xe0 register) core =
      .ok ((core.write register (core.registers register - 1)).setZeroSign
        (core.registers register - 1)).resetSelectors := by
  fin_cases register <;> first | rfl | exact absurd rfl h

/-! ## Stores -/

theorem ramIndex_lt (hbank : core.ramBank.toNat < 2) (address : Word) :
    core.ramIndex address < ramBytes := by
  have := address.isLt
  unfold Core.ramIndex ramBytes
  omega

theorem store_byte (hbank : core.ramBank.toNat < 2) (address value : Word) :
    core.store address value true = .ok { core with
      ram := Function.update core.ram (core.ramIndex address) (value.setWidth 8) } := by
  unfold Core.store writeRam
  simp only [if_pos (ramIndex_lt core hbank address), ok_bind, if_true]

theorem xor_one_lt {index : Nat} (h : index < ramBytes) : index ^^^ 1 < ramBytes :=
  Nat.xor_lt_two_pow (n := 17) h (by decide)

theorem store_word (hbank : core.ramBank.toNat < 2) (address value : Word) :
    core.store address value false = .ok { core with
      ram := Function.update (Function.update core.ram (core.ramIndex address) (value.setWidth 8))
        (core.ramIndex address ^^^ 1) ((value >>> 8).setWidth 8) } := by
  have hindex := ramIndex_lt core hbank address
  unfold Core.store writeRam
  simp only [if_pos hindex, if_pos (xor_one_lt hindex), ok_bind]
  rfl

theorem store_setPc (pc address value : Word) (byteOnly : Bool) :
    (core.setPc pc).store address value byteOnly =
      (core.store address value byteOnly).map (Core.setPc · pc) := by
  unfold Core.store writeRam
  have hindex : (core.setPc pc).ramIndex address = core.ramIndex address := rfl
  have hram : (core.setPc pc).ram = core.ram := rfl
  rw [hindex, hram]
  by_cases hlow : core.ramIndex address < ramBytes
  · cases byteOnly with
    | true => simp only [if_pos hlow, ok_bind, if_true]; rfl
    | false => simp only [if_pos hlow, if_pos (xor_one_lt hlow), ok_bind]; rfl
  · simp only [if_neg hlow]
    rfl

theorem perform_store (register : Fin 16) (h : register.val < 12) :
    perform program (registerOpcodeOf 0x30 register) core =
      (({ core with ramAddress := core.registers register }.store (core.registers register)
        core.sourceValue core.alt1) >>= fun core => .ok core.resetSelectors) := by
  fin_cases register <;> first | rfl | exact absurd h (by decide)

/-- The address of an access is kept for SBK. -/
def Core.latched (core : Core) (address : Word) : Core := { core with ramAddress := address }

theorem perform_load (register : Fin 16) (h : register.val < 12) :
    perform program (registerOpcodeOf 0x40 register) core =
      let latched := core.latched (core.registers register)
      if core.alt1 then latched.loadByte (core.registers register) >>= fun value =>
        .ok (latched.write core.destination value).resetSelectors
      else latched.loadWord (core.registers register) >>= fun value =>
        .ok (latched.write core.destination value).resetSelectors := by
  fin_cases register <;> first | rfl | exact absurd h (by decide)

end Instructions

end Disco.Gsu
