import Disco.Assembler.Statement
import Disco.Gsu.Selected

/-! # Encodings that mean their statement

The machine's arithmetic is that of the statements, and bytes behind each other
do what statements behind each other mean.
-/

namespace Disco.Assembler

open Library Linker Gsu

/-! ## Flags -/

/-- The sign bit of a word. -/
theorem msb_eq (value : Word) : value.msb = decide (32768 ≤ value.toNat) := by
  rw [BitVec.msb_eq_decide]

theorem toInt_eq (value : Word) : value.toInt =
    if 32768 ≤ value.toNat then (value.toNat : Int) - 65536 else value.toNat := by
  rw [BitVec.toInt_eq_msb_cond, msb_eq]
  by_cases h : 32768 ≤ value.toNat <;> simp [h]

/-- Operands of one sign and a result of the other. -/
theorem overflow_sum (left right : Word) (carry : Bool) :
    ((~~~(left ^^^ right)) &&& (left ^^^ (sumOf left right carry).value)).msb =
      (sumOf left right carry).overflow := by
  have hleft := left.isLt
  have hright := right.isLt
  have hcarry := carry.toNat_le
  have hvalue : (BitVec.ofNat 16 (left.toNat + right.toNat + carry.toNat)).toNat =
      (left.toNat + right.toNat + carry.toNat) % 65536 := BitVec.toNat_ofNat _ _
  unfold sumOf signedRange
  rw [BitVec.msb_and, BitVec.msb_not, BitVec.msb_xor, BitVec.msb_xor, msb_eq, msb_eq, msb_eq, hvalue,
    toInt_eq, toInt_eq]
  by_cases hl : 32768 ≤ left.toNat <;> by_cases hr : 32768 ≤ right.toNat <;>
    by_cases hs : 32768 ≤ (left.toNat + right.toNat + carry.toNat) % 65536 <;>
    simp [hl, hr, hs] <;> omega

/-- Operands of two signs and a result of the other sign than the left one. -/
theorem overflow_difference (left right : Word) (borrow : Bool) :
    ((left ^^^ right) &&& (left ^^^ (differenceOf left right borrow).value)).msb =
      (differenceOf left right borrow).overflow := by
  have hleft := left.isLt
  have hright := right.isLt
  have hborrow := borrow.toNat_le
  have hvalue : (BitVec.ofInt 16 ((left.toNat : Int) - right.toNat - borrow.toNat)).toNat =
      (((left.toNat : Int) - right.toNat - borrow.toNat) % 65536).toNat := BitVec.toNat_ofInt _
  unfold differenceOf signedRange
  rw [BitVec.msb_and, BitVec.msb_xor, BitVec.msb_xor, msb_eq, msb_eq, msb_eq, hvalue,
    toInt_eq, toInt_eq]
  by_cases hl : 32768 ≤ left.toNat <;> by_cases hr : 32768 ≤ right.toNat <;>
    by_cases hs : 32768 ≤ (((left.toNat : Int) - right.toNat - borrow.toNat) % 65536).toNat <;>
    simp [hl, hr, hs] <;> omega

/-! ## The machine's arithmetic -/

section Arithmetic

variable (core : Core) (right : Word)

/-- A result with its flags. -/
def finished (core : Core) (answer : Answer) : Core :=
  { core with carry := answer.carry, overflow := answer.overflow }.result answer.value

theorem add_eq : add core right =
    finished core (sumOf core.sourceValue right (core.alt1 && core.carry)) := by
  have hcarry : (if (core.alt1 && core.carry) = true then 1 else 0) =
      (core.alt1 && core.carry).toNat := by
    cases (core.alt1 && core.carry) <;> rfl
  have hover := overflow_sum core.sourceValue right (core.alt1 && core.carry)
  unfold add finished
  rw [← hover]
  dsimp only [sumOf]
  rw [hcarry]
  rfl

theorem subtract_eq : subtract core right =
    let answer := differenceOf core.sourceValue right (core.alt1 && !core.alt2 && !core.carry)
    if core.alt1 && core.alt2 then
      ({ core with carry := answer.carry, overflow := answer.overflow }.setZeroSign
        answer.value).resetSelectors
    else finished core answer := by
  have hborrow : (if (core.alt1 && !core.alt2 && !core.carry) = true then (1 : Int) else 0) =
      (core.alt1 && !core.alt2 && !core.carry).toNat := by
    cases (core.alt1 && !core.alt2 && !core.carry) <;> rfl
  have hover := overflow_difference core.sourceValue right (core.alt1 && !core.alt2 && !core.carry)
  have hcarry : ∀ borrow : Bool, decide ((core.sourceValue.toNat : Int) - right.toNat - borrow.toNat ≥ 0) =
      decide (right.toNat + borrow.toNat ≤ core.sourceValue.toNat) := by
    intro borrow
    rw [decide_eq_decide]
    omega
  unfold subtract finished
  dsimp only
  rw [← hover, hborrow, hcarry]
  rfl

theorem multiply_eq : multiply core right = core.result
    (if core.alt1 then BitVec.ofNat 16 ((lowHalf core.sourceValue).toNat * (lowHalf right).toNat)
      else BitVec.ofInt 16 ((lowHalf core.sourceValue).toInt * (lowHalf right).toInt)) := by
  have hsigned : (lowHalf core.sourceValue).signExtend 16 * (lowHalf right).signExtend 16 =
      BitVec.ofInt 16 ((lowHalf core.sourceValue).toInt * (lowHalf right).toInt) :=
    (BitVec.ofInt_mul ..).symm
  have hunsigned : (lowHalf core.sourceValue).setWidth 16 * (lowHalf right).setWidth 16 =
      BitVec.ofNat 16 ((lowHalf core.sourceValue).toNat * (lowHalf right).toNat) := by
    rw [BitVec.ofNat_mul, BitVec.ofNat_toNat, BitVec.ofNat_toNat]
  rw [← hsigned, ← hunsigned]
  rfl

/-! ## Operations on selected registers -/

section Chosen

variable (target : Fin 16) (alt1 alt2 marked : Bool)

theorem add_chosen : add (core.chosen target alt1 alt2 marked) right =
    ((if alt1 then Operation.adc else .add).apply target right core).resetSelectors := by
  rw [add_eq]
  cases alt1 <;> rfl

theorem subtract_chosen : subtract (core.chosen target alt1 alt2 marked) right =
    ((if alt1 then if alt2 then Operation.cmp else .sbc else .sub).apply target right
      core).resetSelectors := by
  rw [subtract_eq]
  cases alt1 <;> cases alt2 <;> rfl

theorem multiply_chosen : multiply (core.chosen target alt1 alt2 marked) right =
    ((if alt1 then Operation.umult else .mult).apply target right core).resetSelectors := by
  rw [multiply_eq]
  cases alt1 <;> rfl

/-- The prefixes of an operation's register form. -/
def Operation.registerAlternates (operation : Operation) : Bool × Bool :=
  match operation with
  | .adc | .sbc | .umult | .bic | .xor => (true, false)
  | .cmp => (true, true)
  | _ => (false, false)

/-- The prefixes of an operation's immediate form. -/
def Operation.numberAlternates (operation : Operation) : Bool × Bool :=
  match operation with
  | .adc | .umult | .bic | .xor => (true, true)
  | _ => (false, true)

/-- The opcode of R0, where there is one. -/
def Operation.base (operation : Operation) : Nat :=
  match operation with
  | .add | .adc => 0x50
  | .sub | .sbc | .cmp => 0x60
  | .mult | .umult => 0x80
  | .and | .bic => 0x70
  | .or | .xor => 0xc0

/-- Operations without a form for R0. -/
def Operation.logical (operation : Operation) : Bool :=
  match operation with
  | .and | .bic | .or | .xor => true
  | _ => false

theorem perform_register (program : Program) (operation : Operation) (register : Fin 16)
    (h : operation.logical = true → register ≠ 0) :
    perform program (registerOpcodeOf operation.base register)
      (core.chosen target operation.registerAlternates.1 operation.registerAlternates.2 marked) =
      .ok (operation.apply target (core.registers register) core).resetSelectors := by
  cases operation with
  | add => exact (perform_add ..).trans (congrArg Except.ok (add_chosen ..))
  | adc => exact (perform_add ..).trans (congrArg Except.ok (add_chosen ..))
  | sub => exact (perform_subtract ..).trans (congrArg Except.ok (subtract_chosen ..))
  | sbc => exact (perform_subtract ..).trans (congrArg Except.ok (subtract_chosen ..))
  | cmp => exact (perform_subtract ..).trans (congrArg Except.ok (subtract_chosen ..))
  | mult => exact (perform_multiply ..).trans (congrArg Except.ok (multiply_chosen ..))
  | umult => exact (perform_multiply ..).trans (congrArg Except.ok (multiply_chosen ..))
  | and => exact perform_and program _ register (h rfl)
  | bic => exact perform_and program _ register (h rfl)
  | or => exact perform_or program _ register (h rfl)
  | xor => exact perform_or program _ register (h rfl)

theorem perform_number (program : Program) (operation : Operation) (number : Fin 16)
    (h : operation.logical = true → number ≠ 0) (hsbc : operation ≠ .sbc) (hcmp : operation ≠ .cmp) :
    perform program (registerOpcodeOf operation.base number)
      (core.chosen target operation.numberAlternates.1 operation.numberAlternates.2 marked) =
      .ok (operation.apply target (BitVec.ofNat 16 number.val) core).resetSelectors := by
  cases operation with
  | add => exact (perform_add ..).trans (congrArg Except.ok (add_chosen ..))
  | adc => exact (perform_add ..).trans (congrArg Except.ok (add_chosen ..))
  | sub => exact (perform_subtract ..).trans (congrArg Except.ok (subtract_chosen ..))
  | sbc => exact absurd rfl hsbc
  | cmp => exact absurd rfl hcmp
  | mult => exact (perform_multiply ..).trans (congrArg Except.ok (multiply_chosen ..))
  | umult => exact (perform_multiply ..).trans (congrArg Except.ok (multiply_chosen ..))
  | and => exact perform_and program _ number (h rfl)
  | bic => exact perform_and program _ number (h rfl)
  | or => exact perform_or program _ number (h rfl)
  | xor => exact perform_or program _ number (h rfl)

end Chosen

end Arithmetic

/-! ## Selectors and prefixes as they are emitted -/

section Emitted

variable {program : Program} {core : Core}

theorem codeBytes_append (first second : Bytes) :
    codeBytes (first ++ second) = codeBytes first ++ codeBytes second := List.map_append

/-- The prefixes that set ALT1 and ALT2. -/
def alternates (alternates : Bool × Bool) : Bytes :=
  match alternates with
  | (false, false) => []
  | (true, false) => [0x3d]
  | (false, true) => [0x3e]
  | (true, true) => [0x3f]

theorem straight_selector (h : core.Unselected) (hw : core.pcWritten = false) (target : Fin 16)
    (rest : List Byte) (pc : Word) :
    straight program (codeBytes (selector target.val) ++ rest) pc core =
      straight program rest (behind pc (selector target.val))
        (core.chosen target false false (decide (target ≠ 0))) := by
  by_cases hzero : target = 0
  · subst hzero
    have hpc : behind pc (selector (0 : Fin 16).val) = pc := by
      show pc + BitVec.ofNat 16 0 = pc
      simp
    rw [hpc, decide_eq_false (by simp), h.chosen]
    rfl
  · have hne : target.val ≠ 0 := fun heq => hzero (Fin.ext heq)
    have hcode : codeBytes (selector target.val) = [registerOpcodeOf 0x20 target] := by
      unfold selector
      rw [if_pos hne]
      rfl
    have hpc : behind pc (selector target.val) = pc + 1 := by
      unfold selector
      rw [if_pos hne]
      rfl
    rw [hcode, hpc, decide_eq_true hzero]
    exact straight_with h hw target rest pc

theorem straight_alternates (hw : core.pcWritten = false) (target : Fin 16) (marked : Bool)
    (choice : Bool × Bool) (rest : List Byte) (pc : Word) : ∃ marked',
    straight program (codeBytes (alternates choice) ++ rest) pc
        (core.chosen target false false marked) =
      straight program rest (behind pc (alternates choice))
        (core.chosen target choice.1 choice.2 marked') := by
  rcases choice with ⟨alt1, alt2⟩
  have hnil : behind pc [] = pc := by
    show pc + BitVec.ofNat 16 0 = pc
    simp
  cases alt1 <;> cases alt2
  · exact ⟨marked, by rw [show alternates (false, false) = [] from rfl, hnil]; rfl⟩
  · exact ⟨false, straight_alt2 target false false marked rest pc hw⟩
  · exact ⟨false, straight_alt1 target false false marked rest pc hw⟩
  · exact ⟨false, straight_alt3 target false false marked rest pc hw⟩

theorem unselected_setPc (h : core.Unselected) (pc : Word) : (core.setPc pc).Unselected :=
  ⟨h.source, h.destination, h.alt1, h.alt2, h.prefixSet⟩

/-- One instruction on a selected register. -/
theorem straight_operation (h : core.Unselected) (hw : core.pcWritten = false) (target : Fin 16)
    (choice : Bool × Bool) {opcode : UInt8} (hs : Simple opcode.toBitVec)
    {result : Core → Except Fault Core}
    (hp : ∀ (core : Core) (marked : Bool), core.Unselected →
      perform program opcode.toBitVec (core.chosen target choice.1 choice.2 marked) = result core)
    (pc : Word) {bytes : Bytes}
    (hbytes : bytes = selector target.val ++ alternates choice ++ [opcode]) :
    straight program (codeBytes bytes) pc core =
      Outcome.of [] (behind pc bytes) (result (core.setPc (behind pc bytes))) := by
  subst hbytes
  rw [List.append_assoc, codeBytes_append, codeBytes_append, straight_selector h hw]
  obtain ⟨marked, hmarked⟩ := @straight_alternates program core hw target
    (decide (target ≠ 0)) choice (codeBytes [opcode]) (behind pc (selector target.val))
  rw [hmarked]
  have hone : codeBytes [opcode] = [opcode.toBitVec] := rfl
  have hstop : behind (behind pc (selector target.val)) (alternates choice) + 1 =
      behind pc (selector target.val ++ (alternates choice ++ [opcode])) := by
    rw [behind_append, behind_append]
    rfl
  rw [hone, straight_last hs, hstop, chosen_setPc, hp _ _ (unselected_setPc h _)]

/-- Bytes that do what a statement means, wherever they lie. -/
def Means (program : Program) (statement : Statement) (bytes : Bytes) : Prop :=
  ∀ (core : Core) (pc : Word), core.Unselected → core.pcWritten = false →
    straight program (codeBytes bytes) pc core = Outcome.of [] (behind pc bytes)
      (statement.meaning program (core.setPc (behind pc bytes)))

theorem apply_unselected (operation : Operation) (target : Fin 16) (right : Word)
    (h : core.Unselected) : (operation.apply target right core).Unselected := by
  unfold Operation.apply
  dsimp only
  split_ifs
  · exact ⟨h.source, h.destination, h.alt1, h.alt2, h.prefixSet⟩
  · exact ⟨h.source, h.destination, h.alt1, h.alt2, h.prefixSet⟩

theorem base_mem (operation : Operation) : operation.base ∈ registerBases := by
  cases operation <;> decide

theorem means_register (program : Program) (operation : Operation) (target register : Fin 16)
    (h : operation.logical = true → register ≠ 0) :
    Means program (.compute operation target (.register register))
      (selector target.val ++ alternates operation.registerAlternates ++
        [byteOf (operation.base + register.val)]) := by
  intro core pc hunselected hw
  refine straight_operation hunselected hw target operation.registerAlternates
    (simple_register (base_mem operation) register) ?_ pc rfl
  intro core marked hcore
  show perform program (registerOpcodeOf operation.base register) _ = _
  rw [perform_register core target marked program operation register h,
    (apply_unselected operation target _ hcore).reset]
  rfl

theorem means_number (program : Program) (operation : Operation) (target number : Fin 16)
    (h : operation.logical = true → number ≠ 0) (hsbc : operation ≠ .sbc) (hcmp : operation ≠ .cmp) :
    Means program (.compute operation target (.number (BitVec.ofNat 16 number.val)))
      (selector target.val ++ alternates operation.numberAlternates ++
        [byteOf (operation.base + number.val)]) := by
  intro core pc hunselected hw
  refine straight_operation hunselected hw target operation.numberAlternates
    (simple_register (base_mem operation) number) ?_ pc rfl
  intro core marked hcore
  show perform program (registerOpcodeOf operation.base number) _ = _
  rw [perform_number core target marked program operation number h hsbc hcmp,
    (apply_unselected operation target _ hcore).reset]
  rfl

end Emitted

/-! ## Arithmetic lines -/

/-- The assembler's table entry for an operation. -/
def Operation.kind : Operation → Arithmetic
  | .add => { base := 0x50 }
  | .adc => { base := 0x50, registerAlt1 := true, immediateAlt3 := true }
  | .sub => { base := 0x60 }
  | .sbc => { base := 0x60, registerAlt1 := true, registerOnly := true }
  | .mult => { base := 0x80 }
  | .umult => { base := 0x80, registerAlt1 := true, immediateAlt3 := true }
  | .cmp => { base := 0x60, registerAlt3 := true, registerOnly := true }
  | .and => { base := 0x71, logical := true }
  | .or => { base := 0xc1, logical := true }
  | .bic => { base := 0x71, registerAlt1 := true, immediateAlt1 := true, logical := true }
  | .xor => { base := 0xc1, registerAlt1 := true, immediateAlt1 := true, logical := true }

theorem arithmeticOf_eq (name : Text) : arithmeticOf name = (operationOf name).map Operation.kind := by
  have hnames : arithmeticNames = operationNames.map fun entry => (entry.1, entry.2.kind) := rfl
  unfold arithmeticOf operationOf
  rw [hnames, List.find?_map, Option.map_map, Option.map_map]
  rfl

theorem registerPrefixes_kind (operation : Operation) :
    registerPrefixes operation.kind = alternates operation.registerAlternates := by
  cases operation <;> rfl

theorem kind_logical (operation : Operation) : operation.kind.logical = operation.logical := by
  cases operation <;> rfl

/-- Logical opcodes count from R1. -/
theorem kind_base (operation : Operation) :
    operation.kind.base = operation.base + if operation.logical then 1 else 0 := by
  cases operation <;> rfl

theorem registerOpcode_kind (operation : Operation) {register : Nat}
    (h : operation.logical = true → register ≠ 0) :
    registerOpcode operation.kind register = byteOf (operation.base + register) := by
  unfold registerOpcode
  rw [kind_logical, kind_base]
  cases hlogical : operation.logical with
  | true =>
      have hne := h hlogical
      simp only [if_true]
      congr 1
      omega
  | false => simp

theorem requireRegister_eq_ok {text : Text} {line : ParsedLine} {register : Nat} :
    requireRegister text line = .ok register ↔ parseRegister text = some register := by
  unfold requireRegister
  cases parseRegister text with
  | none =>
      constructor
      · intro h
        cases h
      · intro h
        cases h
  | some found =>
      exact ⟨fun h => congrArg some (Except.ok.inj h), fun h => congrArg Except.ok (Option.some.inj h)⟩

/-- A parsed register, as a number of the machine. -/
theorem registerOf_eq {text : Text} {register : Nat} (h : parseRegister text = some register) :
    ∃ index : Fin 16, registerOf text = some index ∧ index.val = register := by
  have hle := parseRegister_le h
  refine ⟨Fin.ofNat 16 register, by rw [registerOf, h]; rfl, ?_⟩
  show register % 16 = register
  omega

/-- The number of an immediate operand, as the opcode carries it. -/
theorem number_eq {value : Int} (h : 0 ≤ value ∧ value ≤ 15) : ∃ number : Fin 16,
    (number.val : Int) = value ∧ BitVec.ofInt 16 value = BitVec.ofNat 16 number.val := by
  refine ⟨Fin.ofNat 16 value.toNat, ?_, ?_⟩
  · show ((value.toNat % 16 : Nat) : Int) = value
    omega
  · apply BitVec.eq_of_toNat_eq
    rw [BitVec.toNat_ofInt, BitVec.toNat_ofNat]
    show (value % 65536).toNat = value.toNat % 16 % 65536
    omega

/-- The forms of arithmetic that mean what they say: an immediate without a
destination, but not of BIC and XOR; with a destination one of ADD, SUB and
MULT, or zero for UMULT; and no R0 for a logical operation. -/
def RightComputation (operation : Operation) (line : ParsedLine) : Prop :=
  match line.operands with
  | [operand] =>
      match operandOf operand with
      | some (.number _) => operation ≠ .bic ∧ operation ≠ .xor
      | _ => True
  | operands =>
      match operandOf (operands.getLastD []) with
      | some (.number value) =>
          operation = .add ∨ operation = .sub ∨ operation = .mult ∨ (operation = .umult ∧ value = 0)
      | some (.register index) => operation.logical = true → index ≠ 0
      | none => True

section Lines

variable {program : Program} {operation : Operation} {line : ParsedLine} {encoded : Encoded}

/-- A line that is encoded as it is read, without a symbol to fill in. -/
def Encodes (program : Program) (encoded : Encoded) (statement : Option Statement) : Prop :=
  encoded.relocations = [] ∧ ∃ found, statement = some found ∧ Means program found encoded.bytes

theorem kind_registerOnly (h : ¬ operation.kind.registerOnly = true) :
    operation ≠ .sbc ∧ operation ≠ .cmp := by
  cases operation <;> first | exact ⟨by decide, by decide⟩ | exact absurd rfl h

/-- The prefix of an immediate without a destination. -/
theorem immediatePrefix (hbic : operation ≠ .bic) (hxor : operation ≠ .xor) :
    [if operation.kind.immediateAlt1 then 0x3d else if operation.kind.immediateAlt3 then 0x3f
      else (0x3e : UInt8)] = alternates operation.numberAlternates := by
  cases operation <;> first | rfl | contradiction

theorem encodes_number {target number : Fin 16} {bytes : Bytes} {size : Nat} {value : Word}
    (hvalue : value = BitVec.ofNat 16 number.val) (h : operation.logical = true → number ≠ 0)
    (hsbc : operation ≠ .sbc) (hcmp : operation ≠ .cmp)
    (hbytes : bytes = selector target.val ++ alternates operation.numberAlternates ++
      [byteOf (operation.base + number.val)]) :
    Encodes program { size := size, bytes := bytes }
      (some (.compute operation target (.number value))) := by
  refine ⟨rfl, _, rfl, ?_⟩
  rw [hvalue, hbytes]
  exact means_number program operation target number h hsbc hcmp

theorem encodes_register {target register : Fin 16} {bytes : Bytes} {size : Nat}
    (h : operation.logical = true → register ≠ 0)
    (hbytes : bytes = selector target.val ++ registerPrefixes operation.kind ++
      [registerOpcode operation.kind register.val]) :
    Encodes program { size := size, bytes := bytes }
      (some (.compute operation target (.register register))) := by
  have hne : operation.logical = true → register.val ≠ 0 :=
    fun hlogical heq => h hlogical (Fin.ext heq)
  refine ⟨rfl, _, rfl, ?_⟩
  rw [hbytes, registerPrefixes_kind, registerOpcode_kind operation hne]
  exact means_register program operation target register h

theorem encodeArithmeticOne_means {operand : Text} (hops : line.operands = [operand])
    (h : encodeArithmeticOne operation.kind line = .ok encoded)
    (hright : RightComputation operation line) :
    Encodes program encoded (computation operation line) := by
  have hfirst : line.operand 0 = operand := by
    unfold ParsedLine.operand
    rw [hops]
    rfl
  unfold encodeArithmeticOne failIf at h
  rw [hfirst] at h
  unfold RightComputation at hright
  unfold computation
  rw [hops] at hright ⊢
  dsimp only at hright ⊢
  unfold operandOf at hright ⊢
  cases hnumber : parseNumber operand with
  | some value =>
      rw [hnumber] at h hright
      dsimp only at h hright ⊢
      rw [rejectIf_bind_eq_ok, rejectIf_bind_eq_ok] at h
      rcases h with ⟨honly, hrange, hdone⟩
      cases hdone
      rw [kind_logical] at hrange
      rcases kind_registerOnly honly with ⟨hsbc, hcmp⟩
      have hlow : 0 ≤ value := by
        cases hlogical : operation.logical <;> simp [hlogical] at hrange <;> omega
      rcases number_eq ⟨hlow, by omega⟩ with ⟨number, hval, hword⟩
      have hne : operation.logical = true → number ≠ 0 := by
        intro hlogical heq
        rw [hlogical, if_pos rfl] at hrange
        rw [heq] at hval
        simp at hval
        omega
      refine encodes_number hword hne hsbc hcmp ?_
      rw [← immediatePrefix hright.1 hright.2, kind_base, kind_logical]
      have hopcode : operation.base + (if operation.logical = true then 1 else 0) + value.toNat -
          (if operation.logical = true then 1 else 0) = operation.base + number.val := by
        split <;> omega
      rw [hopcode]
      rfl
  | none =>
      rw [hnumber] at h hright
      dsimp only at h hright ⊢
      obtain ⟨register, hregister, h⟩ := bind_eq_ok.mp h
      rw [rejectIf_bind_eq_ok] at h
      rcases h with ⟨hzero, hdone⟩
      cases hdone
      rw [requireRegister_eq_ok] at hregister
      rcases registerOf_eq hregister with ⟨index, hindex, hval⟩
      rw [hindex]
      subst hval
      refine encodes_register ?_ rfl
      intro hlogical heq
      rw [kind_logical] at hzero
      exact hzero ⟨congrArg Fin.val heq, hlogical⟩

/-- Multiplying by zero needs no sign. -/
theorem umult_zero (target : Fin 16) (core : Core) :
    Operation.umult.apply target 0 core = Operation.mult.apply target 0 core := by
  have hunsigned : BitVec.ofNat 16 ((lowHalf (core.registers target)).toNat * (lowHalf 0).toNat) = 0 := by
    rw [show (lowHalf 0).toNat = 0 from rfl, Nat.mul_zero]
    rfl
  have hsigned : BitVec.ofInt 16 ((lowHalf (core.registers target)).toInt * (lowHalf 0).toInt) = 0 := by
    rw [show (lowHalf 0).toInt = 0 from rfl, Int.mul_zero]
    rfl
  unfold Operation.apply Operation.answer
  dsimp only
  rw [hunsigned, hsigned]
  rfl

theorem Means.congr {first second : Statement} {bytes : Bytes}
    (h : ∀ core, first.meaning program core = second.meaning program core)
    (hfirst : Means program first bytes) : Means program second bytes := by
  intro core pc hunselected hw
  rw [← h]
  exact hfirst core pc hunselected hw

/-- An immediate with a destination always goes under ALT2. -/
theorem encodes_targetNumber {target : Fin 16} {value : Int} {size : Nat}
    (hrange : 0 ≤ value ∧ value ≤ 15)
    (hright : operation = .add ∨ operation = .sub ∨ operation = .mult ∨
      (operation = .umult ∧ BitVec.ofInt 16 value = 0)) :
    Encodes program
      { size := size
        bytes := selector target.val ++ [0x3e, byteOf (operation.kind.base + value.toNat)] }
      (some (.compute operation target (.number (BitVec.ofInt 16 value)))) := by
  rcases number_eq hrange with ⟨number, hval, hword⟩
  have hnat : value.toNat = number.val := by omega
  have hsplit : ∀ opcode : UInt8, selector target.val ++ [0x3e, opcode] =
      selector target.val ++ alternates (false, true) ++ [opcode] := by
    intro opcode
    rw [List.append_assoc]
    rfl
  rw [hnat, hsplit]
  rcases hright with rfl | rfl | rfl | ⟨rfl, hzero⟩
  · exact encodes_number hword (fun h => by cases h) (by decide) (by decide) rfl
  · exact encodes_number hword (fun h => by cases h) (by decide) (by decide) rfl
  · exact encodes_number hword (fun h => by cases h) (by decide) (by decide) rfl
  · refine ⟨rfl, _, rfl, ?_⟩
    rw [hzero]
    have hmult := means_number program .mult target number (fun h => by cases h) (by decide)
      (by decide)
    have hsame : ∀ core, (Statement.compute .mult target (.number 0)).meaning program core =
        (Statement.compute .umult target (.number 0)).meaning program core :=
      fun core => congrArg Except.ok (umult_zero target core).symm
    rw [← hword, hzero] at hmult
    exact hmult.congr hsame

theorem encodeArithmeticTwo_means {first second : Text} (hops : line.operands = [first, second])
    (h : encodeArithmeticTwo operation.kind line = .ok encoded)
    (hright : RightComputation operation line) :
    Encodes program encoded (computation operation line) := by
  have hzero : line.operand 0 = first := by
    unfold ParsedLine.operand
    rw [hops]
    rfl
  have hone : line.operand 1 = second := by
    unfold ParsedLine.operand
    rw [hops]
    rfl
  unfold encodeArithmeticTwo failIf at h
  rw [hzero, hone] at h
  unfold RightComputation at hright
  unfold computation
  rw [hops] at hright ⊢
  obtain ⟨dest, hdest, h⟩ := bind_eq_ok.mp h
  rcases registerOf_eq (requireRegister_eq_ok.mp hdest) with ⟨target, htarget, rfl⟩
  dsimp only [List.getLastD, List.getLast] at hright ⊢
  rw [htarget]
  unfold operandOf at hright ⊢
  cases hnumber : parseNumber second with
  | some value =>
      rw [hnumber] at h hright
      dsimp only at h hright ⊢
      rw [rejectIf_bind_eq_ok] at h
      cases h.2
      exact encodes_targetNumber (by omega) hright
  | none =>
      rw [hnumber] at h hright
      dsimp only at h hright ⊢
      obtain ⟨register, hregister, h⟩ := bind_eq_ok.mp h
      rcases registerOf_eq (requireRegister_eq_ok.mp hregister) with ⟨index, hindex, rfl⟩
      cases h
      rw [hindex] at hright ⊢
      exact encodes_register hright rfl

theorem encodeArithmeticThree_means (h : encodeArithmeticThree operation.kind line = .ok encoded)
    (hright : RightComputation operation line) :
    Encodes program encoded (computation operation line) := by
  unfold encodeArithmeticThree requireOperands failIf at h
  rw [rejectIf_bind_eq_ok, not_not] at h
  rcases h with ⟨hlength, h⟩
  obtain ⟨first, left, last, hops⟩ := List.length_eq_three.mp hlength
  have hzero : line.operand 0 = first := by
    unfold ParsedLine.operand
    rw [hops]
    rfl
  have htwo : line.operand 2 = last := by
    unfold ParsedLine.operand
    rw [hops]
    rfl
  rw [hzero, htwo] at h
  unfold RightComputation at hright
  unfold computation
  rw [hops] at hright ⊢
  obtain ⟨dest, hdest, h⟩ := bind_eq_ok.mp h
  obtain ⟨same, -, h⟩ := bind_eq_ok.mp h
  rw [rejectIf_bind_eq_ok] at h
  have h := h.2
  rcases registerOf_eq (requireRegister_eq_ok.mp hdest) with ⟨target, htarget, rfl⟩
  dsimp only [List.getLastD, List.getLast] at hright ⊢
  rw [htarget]
  unfold operandOf at hright ⊢
  cases hnumber : parseNumber last with
  | some value =>
      rw [hnumber] at h hright
      dsimp only at h hright ⊢
      rw [rejectIf_bind_eq_ok] at h
      cases h.2
      exact encodes_targetNumber (by omega) hright
  | none =>
      rw [hnumber] at h hright
      dsimp only at h hright ⊢
      obtain ⟨register, hregister, h⟩ := bind_eq_ok.mp h
      rcases registerOf_eq (requireRegister_eq_ok.mp hregister) with ⟨index, hindex, rfl⟩
      cases h
      rw [hindex] at hright ⊢
      exact encodes_register hright rfl

theorem encodeArithmetic_means (h : encodeArithmetic operation.kind line = .ok encoded)
    (hright : RightComputation operation line) :
    Encodes program encoded (computation operation line) := by
  unfold encodeArithmetic at h
  split at h
  · rename_i hlength
    obtain ⟨operand, hops⟩ := List.length_eq_one_iff.mp hlength
    exact encodeArithmeticOne_means hops h hright
  · rename_i hlength
    obtain ⟨first, second, hops⟩ := List.length_eq_two.mp hlength
    exact encodeArithmeticTwo_means hops h hright
  · exact encodeArithmeticThree_means h hright

end Lines

end Disco.Assembler
