import Disco.Assembler.Executed
import Disco.Linker.Driver

/-! # Every accepted line means what it says

Lines as they are read and as they are encoded, with the operands that the
linker fills in. The exceptions are named by `Right`.
-/

namespace Disco.Assembler

open Library Linker Gsu

/-- The bytes of a line with the addresses of its symbols in place. -/
def linkedBytes (address : Name → Nat) (encoded : Encoded) : Bytes :=
  applyWrites (encoded.relocations.flatMap fun relocation =>
    operandWrites relocation.type 0 (address relocation.targetSymbolName)) encoded.bytes

/-- A line that is encoded as it is read. -/
def Executes (program : Program) (address : Name → Nat) (encoded : Encoded)
    (statement : Option Statement) : Prop :=
  ∃ found, statement = some found ∧ Means program found (linkedBytes address encoded)

section Lines

variable {program : Program} {address : Name → Nat} {line : ParsedLine} {patch : Nat}
  {encoded : Encoded} {statement : Option Statement}

theorem Encodes.executes (h : Encodes program encoded statement) :
    Executes program address encoded statement := by
  rcases h with ⟨hnone, found, hfound, hmeans⟩
  refine ⟨found, hfound, ?_⟩
  unfold linkedBytes
  rw [hnone]
  exact hmeans

theorem encodes_plain {found : Statement} {bytes : Bytes} {size : Nat}
    (h : Means program found bytes) :
    Encodes program { size := size, bytes := bytes } (some found) := ⟨rfl, found, rfl, h⟩

/-! ## Immediates -/

theorem wordBytes_eq (value : Nat) :
    wordBytes value = [UInt8.ofNat value, UInt8.ofNat (value / 256)] := by
  have hlow : byteOf (value &&& 0xff) = UInt8.ofNat value := by
    apply UInt8.toNat_inj.mp
    rw [show value &&& 0xff = value % 256 from Nat.and_two_pow_sub_one_eq_mod value 8]
    simp [byteOf]
  have hhigh : byteOf ((value >>> 8) &&& 0xff) = UInt8.ofNat (value / 256) := by
    apply UInt8.toNat_inj.mp
    rw [show (value >>> 8) &&& 0xff = (value >>> 8) % 256 from
      Nat.and_two_pow_sub_one_eq_mod (value >>> 8) 8, Nat.shiftRight_eq_div_pow]
    simp [byteOf]
  unfold wordBytes
  rw [hlow, hhigh]

theorem wordBits_ofInt (value : Int) : BitVec.ofNat 16 (wordBits value) = BitVec.ofInt 16 value := by
  apply BitVec.eq_of_toNat_eq
  rw [BitVec.toNat_ofNat, BitVec.toNat_ofInt]
  show (value % 65536).toNat % 65536 = (value % 65536).toNat
  omega

/-- The register of an immediate load, in its opcode. -/
theorem iwtOpcode (register : Fin 16) : byteOf (0xf0 ||| register.val) = byteOf (0xf0 + register.val) := by
  revert register
  decide

theorem means_word (program : Program) (register : Fin 16) (value : Nat) :
    Means program (.load register (BitVec.ofNat 16 value))
      [byteOf (0xf0 + register.val), UInt8.ofNat value, UInt8.ofNat (value / 256)] := by
  rw [← word_ofNat]
  exact means_iwt program register _ _

/-- Symbols are relocated as words, by the name that they are read under. -/
theorem symbolicWord_eq (operand : Text) : ∃ relocation, relocation ≠ .addr24Bank ∧
    symbolicWord operand .addr16Iwt = ((symbolicWord operand .addr16Iwt).1, relocation) := by
  refine ⟨(symbolicWord operand .addr16Iwt).2, ?_, rfl⟩
  unfold symbolicWord
  cases stripMarker (nameOf "lo24(") (withoutHash operand) with
  | none =>
      dsimp only
      cases stripMarker (nameOf "ram(") (withoutHash operand) <;> exact fun h => by cases h
  | some name =>
      dsimp only
      cases stripMarker (nameOf "ram(") name <;> exact fun h => by cases h

theorem operandWrites_word {relocation : RelocationType} (h : relocation ≠ .addr24Bank)
    (index value : Nat) : operandWrites relocation index value =
      [(index + 1, UInt8.ofNat value), (index + 2, UInt8.ofNat (value / 0x100))] := by
  cases relocation <;> first | rfl | exact absurd rfl h

/-- IWT with a number or a symbol. -/
theorem emitImmediateWord_executes {register : Fin 16} {operand : Text}
    {result : Bytes × List RelocationEntry}
    (h : emitImmediateWord line patch register.val operand .addr16Iwt = .ok result) (size : Nat) :
    Executes program address { size := size, bytes := result.1, relocations := result.2 }
      (some (.load register (immediateWord address operand))) := by
  unfold emitImmediateWord failIf at h
  unfold immediateWord
  cases hnumber : parseNumber operand with
  | some value =>
      rw [hnumber] at h
      dsimp only at h ⊢
      rw [rejectIf_bind_eq_ok] at h
      cases h.2
      rw [iwtOpcode, wordBytes_eq, ← wordBits_ofInt]
      exact (encodes_plain (means_word program register _)).executes
  | none =>
      rw [hnumber] at h
      rcases symbolicWord_eq operand with ⟨relocation, hword, hsymbol⟩
      rw [hsymbol] at h
      dsimp only at h ⊢
      rw [rejectIf_bind_eq_ok] at h
      cases h.2
      refine ⟨_, rfl, ?_⟩
      have hlinked : ∀ (name : Name) (offset : UInt32) (sect : SymbolSection) (opcode : UInt8),
          linkedBytes address
            { size := size
              bytes := opcode :: wordBytes 0
              relocations := [⟨name, sect, offset, relocation⟩] } =
          [opcode, UInt8.ofNat (address name), UInt8.ofNat (address name / 256)] := by
        intro name offset sect opcode
        unfold linkedBytes
        rw [List.flatMap_cons, List.flatMap_nil, List.append_nil, operandWrites_word hword]
        rfl
      rw [hlinked, iwtOpcode]
      exact means_word program register _

/-! ## Lines -/

theorem encodeIwt_executes (h : encodeIwt line patch = .ok encoded) :
    Executes program address encoded
      ((registerOf (line.operand 0)).map (.load · (immediateWord address (line.operand 1)))) := by
  unfold encodeIwt requireOperands failIf at h
  rw [rejectIf_bind_eq_ok] at h
  obtain ⟨register, hregister, h⟩ := bind_eq_ok.mp h.2
  obtain ⟨⟨bytes, relocations⟩, hresult, hdone⟩ := bind_eq_ok.mp h
  rcases registerOf_eq (requireRegister_eq_ok.mp hregister) with ⟨target, htarget, rfl⟩
  rw [htarget]
  cases hdone
  exact emitImmediateWord_executes hresult 3

theorem requireByte_eq_ok {text : Text} {value : Nat} (h : requireByte text line = .ok value) :
    ∃ number, parseNumber text = some number ∧ BitVec.ofInt 8 number = (byteOf value).toBitVec := by
  unfold requireByte numberIn failIf at h
  obtain ⟨number, hnumber, h⟩ := bind_eq_ok.mp h
  cases hparse : parseNumber text with
  | none =>
      rw [hparse] at hnumber
      cases hnumber
  | some found =>
      rw [hparse] at hnumber
      dsimp only at hnumber
      rw [rejectIf_bind_eq_ok] at hnumber
      rcases hnumber with ⟨hrange, hsame⟩
      cases hsame
      cases h
      refine ⟨number, rfl, ?_⟩
      apply BitVec.eq_of_toNat_eq
      rw [BitVec.toNat_ofInt]
      show (number % 256).toNat = number.toNat % 256
      omega

theorem immediateByte_number {operand : Text} {number : Int}
    (hnot : ∀ name, withoutHash operand ≠ 94 :: name)
    (h : parseNumber (withoutHash operand) = some number) :
    immediateByte address operand = BitVec.ofInt 8 number := by
  unfold immediateByte
  split
  · rename_i name hname
    exact absurd hname (hnot name)
  · rw [h]

theorem encodeIbt_executes (h : encodeIbt line patch = .ok encoded) :
    Executes program address encoded ((registerOf (line.operand 0)).map
      (.load · ((immediateByte address (line.operand 1)).signExtend 16))) := by
  unfold encodeIbt requireOperands failIf at h
  rw [rejectIf_bind_eq_ok] at h
  obtain ⟨register, hregister, h⟩ := bind_eq_ok.mp h.2
  rcases registerOf_eq (requireRegister_eq_ok.mp hregister) with ⟨target, htarget, rfl⟩
  rw [htarget]
  split at h
  · rename_i name hname
    rw [rejectIf_bind_eq_ok] at h
    cases h.2
    have hbyte : immediateByte address (line.operand 1) =
        (UInt8.ofNat (address name / 0x10000)).toBitVec := by
      unfold immediateByte
      rw [hname]
      rfl
    rw [hbyte]
    exact ⟨_, rfl, means_ibt program target (UInt8.ofNat (address name / 0x10000))⟩
  · rename_i text hnot
    obtain ⟨value, hvalue, h⟩ := bind_eq_ok.mp h
    cases h
    rcases requireByte_eq_ok hvalue with ⟨number, hnumber, hbyte⟩
    rw [immediateByte_number hnot hnumber, hbyte]
    exact (encodes_plain (means_ibt program target (byteOf value))).executes

theorem encodeStack_executes {before after : Bytes} {found : Fin 16 → Statement}
    (hmeans : ∀ register, Means program (found register) (before ++ selector register.val ++ after))
    (h : encodeStack line before after = .ok encoded) :
    Executes program address encoded ((registerOf (line.operand 0)).map found) := by
  unfold encodeStack requireOperands failIf at h
  rw [rejectIf_bind_eq_ok] at h
  obtain ⟨register, hregister, h⟩ := bind_eq_ok.mp h.2
  rcases registerOf_eq (requireRegister_eq_ok.mp hregister) with ⟨target, htarget, rfl⟩
  rw [htarget]
  cases h
  exact (encodes_plain (hmeans target)).executes

theorem encodeImplied_executes {bytes : Bytes} {size : Nat} {found : Statement}
    (hmeans : Means program found bytes) (h : encodeImplied line bytes size = .ok encoded) :
    Executes program address encoded (some found) := by
  unfold encodeImplied requireOperands failIf at h
  rw [rejectIf_bind_eq_ok] at h
  cases h.2
  exact (encodes_plain hmeans).executes

/-- The moves that mean what they say: memory through R0 to R11, and no number
that IBT would take for a negative one. -/
def RightMove (line : ParsedLine) : Prop :=
  match movement (fun _ => 0) line with
  | some (.read _ memory _) => memory.val < 12
  | some (.write memory _ _) => memory.val < 12
  | some (.load _ _) =>
      match parseNumber (line.operand 1) with
      | some value => ¬ (128 ≤ value ∧ value ≤ 255)
      | none => True
  | _ => True

theorem encodeMoveImmediate_executes {target : Fin 16}
    (h : encodeMoveImmediate line patch target.val = .ok encoded)
    (hright : ∀ value, parseNumber (line.operand 1) = some value → ¬ (128 ≤ value ∧ value ≤ 255)) :
    Executes program address encoded
      (some (.load target (immediateWord address (line.operand 1)))) := by
  unfold encodeMoveImmediate at h
  cases hnumber : parseNumber (line.operand 1) with
  | none =>
      rw [hnumber] at h
      obtain ⟨⟨bytes, relocations⟩, hresult, hdone⟩ := bind_eq_ok.mp h
      cases hdone
      exact emitImmediateWord_executes hresult 3
  | some value =>
      rw [hnumber] at h
      have himmediate : immediateWord address (line.operand 1) = BitVec.ofInt 16 value := by
        unfold immediateWord
        rw [hnumber]
      rw [himmediate]
      have hnot := hright value hnumber
      dsimp only at h
      by_cases hbyte : 0 ≤ value ∧ value ≤ 255
      · rw [if_pos hbyte] at h
        cases h
        -- below 128 the sign extension changes nothing
        have hextend : (byteOf value.toNat).toBitVec.signExtend 16 = BitVec.ofInt 16 value := by
          have hnat : (byteOf value.toNat).toBitVec.toNat = value.toNat := by
            show value.toNat % 256 = value.toNat
            omega
          apply BitVec.eq_of_toNat_eq
          rw [BitVec.toNat_signExtend, BitVec.toNat_setWidth, BitVec.toNat_ofInt, hnat,
            BitVec.msb_eq_decide, hnat, decide_eq_false (by omega), if_neg Bool.false_ne_true]
          omega
        rw [← hextend]
        exact (encodes_plain (means_ibt program target (byteOf value.toNat))).executes
      · rw [if_neg hbyte] at h
        cases h
        rw [wordBytes_eq, ← wordBits_ofInt]
        exact (encodes_plain (means_word program target (wordBits value))).executes

theorem memoryAccess_bytes (register : Nat) (byte : Bool) (opcode : Nat) :
    (memoryAccess register byte opcode).bytes =
      selector register ++ alternates (byte, false) ++ [byteOf opcode] := by
  cases byte <;> rfl

theorem linkedBytes_memoryAccess (address : Name → Nat) (register : Nat) (byte : Bool) (opcode : Nat) :
    linkedBytes address (memoryAccess register byte opcode) =
      selector register ++ alternates (byte, false) ++ [byteOf opcode] :=
  memoryAccess_bytes register byte opcode

theorem memoryOf_eq {text : Text} {register : Nat} (h : parseMemoryRegister text = some register) :
    ∃ index : Fin 16, memoryOf text = some index ∧ index.val = register := by
  have hle : register ≤ 15 := by
    unfold parseMemoryRegister at h
    dsimp only at h
    split_ifs at h
    exact parseRegister_le h
  refine ⟨Fin.ofNat 16 register, by rw [memoryOf, h]; rfl, ?_⟩
  show register % 16 = register
  omega

theorem registerOf_none {text : Text} (h : parseRegister text = none) : registerOf text = none := by
  rw [registerOf, h]
  rfl

theorem memoryOf_none {text : Text} (h : parseMemoryRegister text = none) : memoryOf text = none := by
  rw [memoryOf, h]
  rfl

theorem encodeMove_executes (h : encodeMove line patch = .ok encoded) (hright : RightMove line) :
    Executes program address encoded (movement address line) := by
  unfold encodeMove requireOperands failIf at h
  rw [rejectIf_bind_eq_ok] at h
  have h := h.2
  unfold RightMove at hright
  unfold movement at hright ⊢
  dsimp only at h hright ⊢
  split at h
  · rename_i destination source hdestination hsource
    rcases registerOf_eq hdestination with ⟨target, htarget, rfl⟩
    rcases registerOf_eq hsource with ⟨from', hfrom, rfl⟩
    rw [rejectIf_bind_eq_ok] at h
    cases h.2
    rw [htarget, hfrom]
    exact (encodes_plain (means_copy program target from')).executes
  · rename_i destination memory hdestination hsource hmemory
    rcases registerOf_eq hdestination with ⟨target, htarget, rfl⟩
    rcases memoryOf_eq hmemory with ⟨through, hthrough, rfl⟩
    rw [htarget, registerOf_none hsource, hthrough] at hright ⊢
    cases h
    refine ⟨_, rfl, ?_⟩
    rw [linkedBytes_memoryAccess]
    exact means_read program target through _ hright
  · rename_i memory source hdestination hsource hmemory
    rcases registerOf_eq hsource with ⟨from', hfrom, rfl⟩
    rcases memoryOf_eq hmemory with ⟨through, hthrough, rfl⟩
    rw [registerOf_none hdestination, hfrom, hthrough] at hright ⊢
    cases h
    refine ⟨_, rfl, ?_⟩
    rw [linkedBytes_memoryAccess]
    exact means_write program through from' _ hright
  · rename_i destination hdestination hsource hmemory
    rcases registerOf_eq hdestination with ⟨target, htarget, rfl⟩
    rw [htarget, registerOf_none hsource, memoryOf_none hmemory] at hright ⊢
    by_cases hhash : (line.operand 1).head? = some 35
    · rw [if_pos hhash, rejectIf_bind_eq_ok] at h
      apply encodeMoveImmediate_executes h.2
      intro value hvalue
      rw [hvalue] at hright
      exact hright
    · rw [if_neg hhash] at h
      cases h
  · cases h

end Lines

end Disco.Assembler
