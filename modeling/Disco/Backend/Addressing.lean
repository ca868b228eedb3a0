import Disco.Frontend.Binding
import Disco.Gsu.Accumulator
import Disco.Object.File

/-! # Addresses of names

What `IRCodeGenerator::emitAddress` makes of the address of a name: an offset from
the frame pointer in R9, or a word for the linker to fill in. The address is left
in R0. Addresses of members and of temporaries name nothing and are left out.
-/

namespace Disco.Backend

open IR Library Gsu Frontend

/-- Code and the relocations of its words. -/
structure Emission where
  code : Bytes
  relocations : List RelocationEntry

/-- What the generator knows where it emits an address. -/
structure AddressGenerator where
  optimized : Bool
  entries : List (String × DataEntry)
  functions : List (String × FunctionSymbol)
  function : Function
  /-- The locals of the function, as they are laid out. -/
  symbols : LocalSymbolTable

/-- WITH and TO. -/
def emitMove (destination source : UInt8) : Bytes := [0x20 ||| source, 0x10 ||| destination]

def emitRegisterLiteral (optimized : Bool) (register : UInt8) (value : Nat) : Bytes :=
  if optimized = true then RuntimeInitialization.literal register value
  else RuntimeInitialization.word register value

/-- ADD or SUB of numbers up to fifteen. -/
def emitChunks (operation : UInt8) (remaining : Nat) : Bytes :=
  if h : remaining = 0 then []
  else 0x3e :: (operation ||| UInt8.ofNat (min remaining 15)) :: emitChunks operation (remaining - min remaining 15)
termination_by remaining
decreasing_by omega

def emitImmediateArithmetic (optimized : Bool) (operation : UInt8) (value : Int) : Except String Bytes :=
  if value < 0 then .error "IR codegen: immediate arithmetic value cannot be negative."
  else if optimized = true ∧ value > 30 ∧ value ≤ 65535 then
    .ok (emitRegisterLiteral optimized 3 value.toNat ++ [operation ||| 3])
  else .ok (emitChunks operation value.toNat)

/-- The way from the frame pointer to a local. -/
def emitDisplacement (optimized : Bool) (offset : Int) : Except String Bytes :=
  if offset > 0 then emitImmediateArithmetic optimized 0x50 offset
  else if offset < 0 then emitImmediateArithmetic optimized 0x60 (-offset)
  else .ok []

/-- Round the padded base of an allocation upward. -/
def emitRounding (optimized : Bool) (alignment : Int) : Except String Bytes :=
  if alignment > 2 then do
    let up ← emitImmediateArithmetic optimized 0x50 (alignment - 1)
    pure (up ++ emitRegisterLiteral optimized 3 (65535 - (alignment - 1).toNat) ++ [0x73])
  else .ok []

def emitFrameAddress (optimized : Bool) (symbol : LocalSymbol) : Except String Bytes := do
  let displacement ← emitDisplacement optimized symbol.stackOffset
  let rounding ← emitRounding optimized symbol.type.alignment
  pure (emitMove 0 9 ++ displacement ++ rounding)

/-- A word that the linker makes the address of a symbol. -/
def emitSymbol (name : Name) (type : RelocationType) (position : Nat) : Emission where
  code := RuntimeInitialization.word 0 0
  relocations := [⟨name, .code, UInt32.ofNat position, type⟩]

def immutablePoolPrefix : String := "\x01__disco_pool_"

def poolName (function : Function) (id : Nat) : Name :=
  nameOf (immutablePoolPrefix ++ function.name ++ "." ++ toString id)

/-- `emitAddress` of a name, at some position of the code. -/
def emitAddress (g : AddressGenerator) (i : Instruction) (position : Nat) : Except String Emission :=
  match (g.entries.lookup i.symbol).filter fun entry => decide (entry.storage = .ram) with
  | some entry => .ok (emitSymbol entry.linkName .addr16Ram position)
  | none =>
      if g.function.immutableLocalArrays.contains i.symbolId = true then
        .ok (emitSymbol (poolName g.function i.symbolId) .addr16Ram position)
      else if i.symbolId ≠ 0 then
        match g.symbols.find i.symbolId with
        | some symbol => do
            let code ← emitFrameAddress g.optimized symbol
            pure ⟨code, []⟩
        | none => .error "IR codegen: local symbol ID is not present in the current function."
      else
        match (g.entries.lookup i.symbol).map DataEntry.linkName <|> (g.functions.lookup i.symbol).map FunctionSymbol.linkName with
        | some name => .ok (emitSymbol name .addr16Iwt position)
        | none => .error ("IR codegen: unknown address symbol '" ++ i.symbol ++ "'.")

/-! ## What code denotes -/

/-- Where a declaration is kept. -/
inductive Storage where
  | frame (offset alignment : Int)
  | linked (name : Name)

/-- The next multiple of an alignment. -/
def roundUp (alignment : Int) (address : Word) : Word :=
  BitVec.ofInt 16 ((address.toNat + alignment - 1) / alignment * alignment)

/-- Code that is linked: the operand of its load is the address of a symbol. -/
def Emission.patched (e : Emission) (address : Nat) : Bytes :=
  e.code.take 1 ++ [RuntimeInitialization.lowByte address, RuntimeInitialization.lowByte (address / 256)]

/-- The code leaves the address of a declaration in R0: that of a local, from a frame
pointer that is even, as the stack is, or the one that the linker gives to a name. -/
def Emission.Denotes (e : Emission) : Storage → Prop
  | .frame offset alignment => e.relocations = [] ∧
      ∀ program held (core : Core), core.Unselected → core.pcWritten = false → (core.registers 9).toNat % 2 = 0 →
        Performs program held e.code core
          (Accumulated core (roundUp alignment (core.registers 9 + BitVec.ofInt 16 offset)))
  | .linked name => (∃ relocation ∈ e.relocations, relocation.targetSymbolName = name) ∧
      (∀ relocation ∈ e.relocations, relocation.targetSymbolName = name) ∧
      ∀ program held (core : Core) address, core.Unselected → core.pcWritten = false → address < 65536 →
        Performs program held (e.patched address) core (Accumulated core (BitVec.ofNat 16 address))

/-! ## Code for R0 -/

section Code

variable {program : Program} {held : Word → Byte → Prop} {before core : Core} {value : Word}
  {base : UInt8} {flags : Core → Word → Core} {operation : Word → Word → Word}

theorem performs_registerLiteral (h : Accumulated before value core) (optimized : Bool) {right : Nat} (hright : right < 65536) :
    Performs program held (emitRegisterLiteral optimized 3 right) core
      (fun after => after = (core.write 3 (BitVec.ofNat 16 right)).resetSelectors) := by
  unfold emitRegisterLiteral
  split
  · exact performs_literal (show (3 : Fin 16) ≠ 15 by decide) hright h.unselected.alt1 h.unselected.alt2 rfl
  · exact performs_word (show (3 : Fin 16) ≠ 15 by decide) right h.unselected.alt1 h.unselected.alt2 rfl

/-- An operation that can be done in parts. -/
structure Accumulates (operation : Word → Word → Word) : Prop where
  zero : ∀ value, operation value 0 = value
  add : ∀ value left right, operation (operation value left) right = operation value (left + right)

theorem accumulates_add : Accumulates (· + ·) where
  zero := BitVec.add_zero
  add := BitVec.add_assoc

theorem accumulates_subtract : Accumulates (· - ·) where
  zero := BitVec.sub_zero
  add value left right := by simp only [BitVec.sub_sub]

theorem performs_chunks (hc : Combines base flags operation) (ha : Accumulates operation) (remaining : Nat)
    {core : Core} {value : Word} (h : Accumulated before value core) :
    Performs program held (emitChunks base remaining) core
      (Accumulated before (operation value (BitVec.ofNat 16 remaining))) := by
  induction remaining using Nat.strong_induction_on generalizing core value with
  | _ remaining ih =>
      unfold emitChunks
      split
      · rename_i hzero
        subst hzero
        refine Performs.nil ?_
        rw [show BitVec.ofNat 16 0 = 0 from rfl, ha.zero]
        exact h
      · rename_i hpositive
        have hchunk : min remaining 15 < 16 := by omega
        have hnumber : (⟨min remaining 15, hchunk⟩ : Fin 16) ≠ 0 := by
          intro heq
          have := congrArg Fin.val heq
          simp only [Fin.val_zero] at this
          omega
        refine Performs.append (performs_number hc h hnumber) fun between hbetween => ?_
        have hrest := ih (remaining - min remaining 15) (by omega) hbetween
        have hsum : BitVec.ofNat 16 (min remaining 15) + BitVec.ofNat 16 (remaining - min remaining 15) =
            BitVec.ofNat 16 remaining := by
          rw [← BitVec.ofNat_add, Nat.add_sub_cancel' (Nat.min_le_left _ _)]
        rwa [ha.add, hsum] at hrest

theorem performs_immediate (hc : Combines base flags operation) (ha : Accumulates operation) {optimized : Bool} {right : Int}
    {code : Bytes} (h : Accumulated before value core) (hcode : emitImmediateArithmetic optimized base right = .ok code) :
    Performs program held code core (Accumulated before (operation value (BitVec.ofInt 16 right))) := by
  unfold emitImmediateArithmetic at hcode
  split at hcode
  · cases hcode
  · rename_i hpositive
    have hright : BitVec.ofInt 16 right = BitVec.ofNat 16 right.toNat := by
      rw [← BitVec.ofInt_natCast, Int.toNat_of_nonneg (by omega)]
    rw [hright]
    split at hcode
    · rename_i hlarge
      cases hcode
      exact performs_literalThree hc h (performs_registerLiteral h optimized (by omega))
    · cases hcode
      exact performs_chunks hc ha right.toNat h

theorem immediate_ok (optimized : Bool) (base : UInt8) {right : Int} (h : 0 ≤ right) :
    ∃ code, emitImmediateArithmetic optimized base right = .ok code := by
  unfold emitImmediateArithmetic
  rw [if_neg (by omega)]
  split
  · exact ⟨_, rfl⟩
  · exact ⟨_, rfl⟩

theorem performs_displacement {optimized : Bool} {offset : Int} {code : Bytes} (h : Accumulated before value core)
    (hcode : emitDisplacement optimized offset = .ok code) :
    Performs program held code core (Accumulated before (value + BitVec.ofInt 16 offset)) := by
  unfold emitDisplacement at hcode
  split at hcode
  · exact performs_immediate combines_add accumulates_add h hcode
  · split at hcode
    · have hsub : Performs program held code core (Accumulated before (value - BitVec.ofInt 16 (-offset))) :=
        performs_immediate combines_subtract accumulates_subtract h hcode
      have hneg : value - BitVec.ofInt 16 (-offset) = value + BitVec.ofInt 16 offset := by
        rw [BitVec.ofInt_neg, BitVec.sub_neg]
      rwa [hneg] at hsub
    · cases hcode
      have hzero : offset = 0 := by omega
      subst hzero
      refine Performs.nil ?_
      rw [show BitVec.ofInt 16 0 = 0 from rfl, add_zero]
      exact h

theorem displacement_ok (optimized : Bool) (offset : Int) : ∃ code, emitDisplacement optimized offset = .ok code := by
  unfold emitDisplacement
  split
  · exact immediate_ok _ _ (by omega)
  · split
    · exact immediate_ok _ _ (by omega)
    · exact ⟨_, rfl⟩

/-! ## Rounding -/

/-- A mask of high bits rounds down. -/
theorem toNat_and_mask (k : Nat) (hk : k ≤ 16) (word : Word) :
    (word &&& BitVec.ofNat 16 (2 ^ 16 - 2 ^ k)).toNat = word.toNat / 2 ^ k * 2 ^ k := by
  have hmask : 2 ^ 16 - 2 ^ k = (2 ^ (16 - k) - 1) * 2 ^ k := by
    rw [Nat.sub_mul, one_mul, ← pow_add, Nat.sub_add_cancel hk]
  have hlt : 2 ^ 16 - 2 ^ k < 2 ^ 16 := Nat.sub_lt (by decide) (Nat.two_pow_pos k)
  rw [BitVec.toNat_and, BitVec.toNat_ofNat, Nat.mod_eq_of_lt hlt, hmask]
  apply Nat.eq_of_testBit_eq
  intro i
  rw [Nat.testBit_and, Nat.testBit_mul_two_pow, Nat.testBit_mul_two_pow, Nat.testBit_two_pow_sub_one,
    Nat.testBit_div_two_pow]
  by_cases hi : k ≤ i
  · rw [Nat.sub_add_cancel hi]
    by_cases hsmall : i < 16
    · simp [hi, show i - k < 16 - k by omega]
    · have hbit : word.toNat.testBit i = false :=
        Nat.testBit_lt_two_pow (lt_of_lt_of_le word.isLt (Nat.pow_le_pow_right (by decide) (by omega)))
      simp [hbit]
  · simp [hi]

theorem roundUp_mask {alignment : Int} (h : IsAlignment alignment) (value : Word) :
    (value + BitVec.ofInt 16 (alignment - 1)) &&& BitVec.ofNat 16 (65535 - (alignment - 1).toNat) =
      roundUp alignment value := by
  rcases h with ⟨k, hk, rfl⟩
  have hmask : 65535 - ((2 : Int) ^ k - 1).toNat = 2 ^ 16 - 2 ^ k := by
    interval_cases k <;> rfl
  have := value.isLt
  apply BitVec.eq_of_toNat_eq
  unfold roundUp
  rw [hmask, toNat_and_mask k (by omega), BitVec.toNat_add, BitVec.toNat_ofInt, BitVec.toNat_ofInt]
  interval_cases k <;> norm_num <;> omega

/-- Rounding leaves an address that is aligned. -/
theorem roundUp_of_dvd {alignment : Int} (hpositive : 0 < alignment) {value : Word}
    (h : (value.toNat : Int) % alignment = 0) : roundUp alignment value = value := by
  have hdvd := Int.dvd_of_emod_eq_zero h
  rcases hdvd with ⟨count, hcount⟩
  have hround : ((value.toNat : Int) + alignment - 1) / alignment * alignment = value.toNat := by
    have hdiv : ((value.toNat : Int) + alignment - 1) / alignment = count := by
      rw [hcount, show alignment * count + alignment - 1 = (alignment - 1) + alignment * count by ring,
        Int.add_mul_ediv_left _ _ (by omega), Int.ediv_eq_zero_of_lt (by omega) (by omega), zero_add]
    rw [hdiv, hcount, mul_comm]
  unfold roundUp
  rw [hround, BitVec.ofInt_natCast, BitVec.ofNat_toNat, BitVec.setWidth_eq]

theorem performs_rounding {optimized : Bool} {alignment : Int} {code : Bytes} (h : Accumulated before value core)
    (halignment : IsAlignment alignment) (hlarge : alignment > 2) (hcode : emitRounding optimized alignment = .ok code) :
    Performs program held code core (Accumulated before (roundUp alignment value)) := by
  unfold emitRounding at hcode
  rw [if_pos hlarge] at hcode
  rcases bind_eq_ok.mp hcode with ⟨up, hup, hcode⟩
  cases hcode
  have hadd : Performs program held up core (Accumulated before (value + BitVec.ofInt 16 (alignment - 1))) :=
    performs_immediate combines_add accumulates_add h hup
  rw [List.append_assoc]
  refine hadd.append fun between hbetween => ?_
  have hmask : 65535 - (alignment - 1).toNat < 65536 := by omega
  rw [← roundUp_mask halignment]
  exact performs_literalThree combines_and hbetween (performs_registerLiteral hbetween optimized hmask)

theorem rounding_ok (optimized : Bool) (alignment : Int) : ∃ code, emitRounding optimized alignment = .ok code := by
  unfold emitRounding
  split
  · rcases immediate_ok optimized 0x50 (show 0 ≤ alignment - 1 by omega) with ⟨up, hup⟩
    rw [hup]
    exact ⟨_, rfl⟩
  · exact ⟨_, rfl⟩

end Code

end Disco.Backend
