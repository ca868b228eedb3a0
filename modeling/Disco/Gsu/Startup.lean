import Disco.Gsu.Selected
import Disco.Library.Patching
import Disco.Target.RuntimeInitialization

/-! # Startup code

The generated startup code, run on the machine: it selects the RAM bank, sets
the stack, clears the static image with a byte loop, stores the words that are
not zero, and jumps to the patched entry address.
-/

namespace Disco.Gsu

open Library RuntimeInitialization

/-! ## Loading literals -/

theorem literalOpcode (base : UInt8) (register : Fin 16) (h : base = 0xa0 ∨ base = 0xf0) :
    (base ||| UInt8.ofNat register.val).toBitVec = registerOpcodeOf base.toNat register := by
  rcases h with rfl | rfl <;> fin_cases register <;> rfl

theorem lowByte_toNat (value : Nat) : (lowByte value).toNat = value % 256 := by
  unfold lowByte
  exact UInt8.toNat_ofNat'

/-- IBT is chosen where its sign extension gives the value. -/
theorem signExtend_lowByte {value : Nat} (hv : value < 65536) (h : value ≤ 0x7f ∨ value ≥ 0xff80) :
    (lowByte value).toBitVec.signExtend 16 = BitVec.ofNat 16 value := by
  have hlow : (lowByte value).toBitVec.toNat = value % 256 := lowByte_toNat value
  apply BitVec.eq_of_toNat_eq
  rw [BitVec.toNat_signExtend, BitVec.toNat_setWidth, BitVec.toNat_ofNat, hlow]
  have hmsb : (lowByte value).toBitVec.msb = decide (128 ≤ value % 256) := by
    rw [BitVec.msb_eq_decide, hlow]
  rw [hmsb]
  rcases h with hsmall | hlarge
  · rw [decide_eq_false (by omega), if_neg Bool.false_ne_true]
    omega
  · rw [decide_eq_true (by omega), if_pos rfl]
    omega

section Literals

variable {program : Program} {held : Word → Byte → Prop} {core : Core} {Q : Core → Prop}

theorem performs_word {register : Fin 16} (hregister : register ≠ 15) (value : Nat)
    (halt1 : core.alt1 = false) (halt2 : core.alt2 = false)
    (h : Q (core.write register (BitVec.ofNat 16 value)).resetSelectors) :
    Performs program held (RuntimeInitialization.word (UInt8.ofNat register.val) value) core Q := by
  intro start next rest hreads
  have hcode := literalOpcode 0xf0 register (Or.inr rfl)
  unfold codeBytes RuntimeInitialization.word at hreads
  rw [List.map_cons, hcode] at hreads
  have hblock := Block.iwt hregister hreads halt1 halt2
  unfold lowByte at hblock
  rw [word_ofNat] at hblock
  have hbehind : start + 1 + 1 + 1 =
      behind start (RuntimeInitialization.word (UInt8.ofNat register.val) value) := by
    unfold behind
    rw [BitVec.add_assoc, BitVec.add_assoc]
    rfl
  rw [hbehind] at hblock
  exact ⟨_, hblock, h⟩

theorem performs_literal {register : Fin 16} (hregister : register ≠ 15) {value : Nat}
    (hv : value < 65536) (halt1 : core.alt1 = false) (halt2 : core.alt2 = false)
    (h : Q (core.write register (BitVec.ofNat 16 value)).resetSelectors) :
    Performs program held (literal (UInt8.ofNat register.val) value) core Q := by
  intro start next rest hreads
  unfold literal at hreads ⊢
  by_cases hsmall : value ≤ 0x7f ∨ value ≥ 0xff80
  · rw [if_pos hsmall] at hreads ⊢
    have hcode := literalOpcode 0xa0 register (Or.inl rfl)
    unfold codeBytes at hreads
    rw [List.map_cons, hcode] at hreads
    have hblock := Block.ibt hregister hreads halt1 halt2
    rw [signExtend_lowByte hv hsmall] at hblock
    have hbehind : start + 1 + 1 = behind start [0xa0 ||| UInt8.ofNat register.val, lowByte value] := by
      unfold behind
      rw [BitVec.add_assoc]
      rfl
    rw [hbehind] at hblock
    exact ⟨_, hblock, h⟩
  · rw [if_neg hsmall] at hreads ⊢
    exact performs_word hregister value halt1 halt2 h start next rest hreads

end Literals

/-! ## Memory images -/

/-- Bytes stored one after the other. -/
def place (ram : Ram) (start : Nat) : Bytes → Ram
  | [] => ram
  | byte :: rest => place (Function.update ram start byte.toBitVec) (start + 1) rest

theorem place_apply (bytes : Bytes) : ∀ (ram : Ram) (start index : Nat),
    place ram start bytes index =
      if start ≤ index ∧ index < start + bytes.length then (bytes.getD (index - start) 0).toBitVec
      else ram index := by
  induction bytes with
  | nil =>
      intro ram start index
      rw [if_neg (by simp)]
      rfl
  | cons byte rest ih =>
      intro ram start index
      rw [place, ih, List.length_cons]
      rcases Nat.lt_trichotomy index start with hlt | rfl | hgt
      · rw [if_neg (by omega), if_neg (by omega), Function.update_of_ne (by omega)]
      · rw [if_neg (by omega), if_pos (by omega), Function.update_self, Nat.sub_self]
        rfl
      · rw [Function.update_of_ne (by omega), show index - start = index - (start + 1) + 1 by omega,
          List.getD_cons_succ]
        by_cases hin : index < start + (rest.length + 1)
        · rw [if_pos (by omega), if_pos (by omega)]
        · rw [if_neg (by omega), if_neg (by omega)]

theorem place_outside (ram : Ram) {start index : Nat} {bytes : Bytes}
    (h : index < start ∨ start + bytes.length ≤ index) : place ram start bytes index = ram index := by
  rw [place_apply, if_neg (by omega)]

/-- A second image of the same size replaces the first. -/
theorem place_place (ram : Ram) (start : Nat) {first second : Bytes}
    (h : first.length = second.length) :
    place (place ram start first) start second = place ram start second := by
  funext index
  rw [place_apply, place_apply, place_apply, h]
  split <;> rfl

/-- Zeros need no store where memory is zero. -/
theorem place_zero {ram : Ram} {start : Nat} (h : ram start = 0) (rest : Bytes) :
    place ram start (0 :: rest) = place ram (start + 1) rest := by
  rw [place, Function.update_eq_self_iff.mpr h.symm]

theorem place_pair (ram : Ram) (start : Nat) (low high : UInt8) (rest : Bytes) :
    place ram start (low :: high :: rest) = place (place ram start [low, high]) (start + 2) rest := rfl

/-! ## Between two instructions -/

/-- Between two instructions of the startup code. -/
structure Ready (bank : Byte) (stack : Word) (ram : Ram) (core : Core) : Prop where
  source : core.source = 0
  destination : core.destination = 0
  alt1 : core.alt1 = false
  alt2 : core.alt2 = false
  prefixSet : core.prefixSet = false
  clear : core.pcWritten = false
  ramBank : core.ramBank = bank
  stack : core.registers 10 = stack
  ram : core.ram = ram

section Startup

variable {program : Program} {held : Word → Byte → Prop} {bank : Byte} {stack : Word} {ram : Ram}
  {core : Core}

theorem Ready.register (h : Ready bank stack ram core) {register : Fin 16} (hpc : register ≠ 15)
    (hstack : register ≠ 10) (value : Word) :
    Ready bank stack ram (core.write register value).resetSelectors where
  source := rfl
  destination := rfl
  alt1 := rfl
  alt2 := rfl
  prefixSet := rfl
  clear := write_clear hpc h.clear value
  ramBank := h.ramBank
  stack := (Function.update_of_ne (Ne.symm hstack) _ _).trans h.stack
  ram := h.ram

theorem Ready.flags (h : Ready bank stack ram core) (value : Word) :
    Ready bank stack ram (core.setZeroSign value) :=
  ⟨h.source, h.destination, h.alt1, h.alt2, h.prefixSet, h.clear, h.ramBank, h.stack, h.ram⟩

theorem Ready.reset (h : Ready bank stack ram core) : Ready bank stack ram core.resetSelectors :=
  ⟨rfl, rfl, rfl, rfl, rfl, h.clear, h.ramBank, h.stack, h.ram⟩

/-- No byte of the code lies in a region of RAM. -/
def Spares (program : Program) (held : Word → Byte → Prop) (region : Nat → Prop) : Prop :=
  ∀ address byte, held address byte → program.bank = 0x70 ∨ program.bank = 0x71 →
    ¬ region ((program.bank - 0x70) * 65536 + address.toNat)

/-- Stores into a region that spares the code keep it. -/
theorem Intact.spared {region : Nat → Prop} {other : Core} (hs : Spares program held region)
    (h : ∀ index, ¬ region index → other.ram index = core.ram index)
    (hi : Intact program held core) : Intact program held other := by
  intro address byte hbyte
  have hread := hi address byte hbyte
  unfold programByte readRam at *
  by_cases hram : program.bank = 0x70 ∨ program.bank = 0x71
  · rw [if_pos hram] at hread ⊢
    rw [h _ (hs address byte hbyte hram)]
    exact hread
  · rw [if_neg hram] at hread ⊢
    exact hread

/-! ## Stores through R1 -/

/-- The index in RAM of an address in a bank. -/
def bankIndex (bank : Byte) (address : Word) : Nat := bank.toNat * 65536 + address.toNat

variable {region : Nat → Prop} {Q : Core → Prop}

/-- STB (R1) or STW (R1) of R0, as ALT1 says. -/
theorem performs_store {next : Ram} (hs : Spares program held region) (hsource : core.source = 0)
    (hstore : { core with ramAddress := core.registers 1 }.store (core.registers 1)
      (core.registers 0) core.alt1 = .ok { core with ramAddress := core.registers 1, ram := next })
    (hclear : core.pcWritten = false) (hregion : ∀ index, ¬ region index → next index = core.ram index)
    (h : Q { core with ramAddress := core.registers 1, ram := next }.resetSelectors) :
    Performs program held [0x31] core Q := by
  have hp : ∀ pc, perform program (registerOpcodeOf 0x30 1) (core.setPc pc) =
      .ok ({ core with ramAddress := core.registers 1, ram := next }.resetSelectors.setPc pc) := by
    intro pc
    have hvalue : (core.setPc pc).sourceValue = core.registers 0 := by
      unfold Core.sourceValue
      rw [show (core.setPc pc).source = 0 from hsource]
      rfl
    have hmoved := store_setPc { core with ramAddress := core.registers 1 } pc (core.registers 1)
      (core.registers 0) core.alt1
    rw [hstore] at hmoved
    rw [perform_store _ _ 1 (by decide), hvalue]
    exact congrArg (fun result => result >>= fun core => .ok core.resetSelectors) hmoved
  exact Performs.simple (by decide) hp hclear (Intact.spared hs hregion) h

theorem performs_storeByte (hs : Spares program held region) (h : Ready bank stack ram core)
    (hbank : bank.toNat < 2) (hin : region (bankIndex bank (core.registers 1)))
    (hQ : ∀ after, Ready bank stack (Function.update ram (bankIndex bank (core.registers 1))
      ((core.registers 0).setWidth 8)) after → after.registers = core.registers → Q after) :
    Performs program held [0x3d, 0x31] core Q := by
  have hp : ∀ pc, perform program 0x3d (core.setPc pc) =
      .ok (({ core with alt1 := true, prefixSet := false } : Core).setPc pc) :=
    fun pc => perform_alt1 program (core.setPc pc)
  have halt : Performs program held [0x3d] core
      (fun between => between = { core with alt1 := true, prefixSet := false }) :=
    Performs.simple (by decide) hp h.clear (fun hi => hi.of_ram rfl) rfl
  refine Performs.append halt ?_
  rintro between rfl
  have hindex : Core.ramIndex core (core.registers 1) = bankIndex bank (core.registers 1) := by
    rw [← h.ramBank]
    rfl
  refine performs_store hs h.source (store_byte _ (h.ramBank ▸ hbank) _ _) h.clear ?_ (hQ _ ?_ rfl)
  · intro index hout
    refine Function.update_of_ne ?_ _ _
    rintro rfl
    exact hout (hindex ▸ hin)
  · refine ⟨rfl, rfl, rfl, rfl, rfl, h.clear, h.ramBank, h.stack, ?_⟩
    show Function.update core.ram (core.ramIndex (core.registers 1)) _ = _
    rw [hindex, h.ram]

theorem performs_storeWord (hs : Spares program held region) (h : Ready bank stack ram core)
    (hbank : bank.toNat < 2) (heven : (core.registers 1).toNat % 2 = 0)
    (hlow : region (bankIndex bank (core.registers 1)))
    (hhigh : region (bankIndex bank (core.registers 1) + 1))
    (hQ : ∀ after, Ready bank stack
      (Function.update (Function.update ram (bankIndex bank (core.registers 1))
        ((core.registers 0).setWidth 8)) (bankIndex bank (core.registers 1) + 1)
        (((core.registers 0) >>> 8).setWidth 8)) after → after.registers = core.registers → Q after) :
    Performs program held [0x31] core Q := by
  have hindex : Core.ramIndex core (core.registers 1) = bankIndex bank (core.registers 1) := by
    rw [← h.ramBank]
    rfl
  have hpair : bankIndex bank (core.registers 1) ^^^ 1 = bankIndex bank (core.registers 1) + 1 := by
    apply Nat.xor_one_of_even
    rw [Nat.even_iff]
    unfold bankIndex
    omega
  have hstore := store_word { core with ramAddress := core.registers 1 } (h.ramBank ▸ hbank)
    (core.registers 1) (core.registers 0)
  rw [← h.alt1] at hstore
  refine performs_store hs h.source hstore h.clear ?_ (hQ _ ?_ rfl)
  · intro index hout
    show Function.update (Function.update core.ram (core.ramIndex _) _) (core.ramIndex _ ^^^ 1) _ _ = _
    rw [hindex, hpair, Function.update_of_ne, Function.update_of_ne]
    · rintro rfl
      exact hout hlow
    · rintro rfl
      exact hout hhigh
  · refine ⟨rfl, rfl, rfl, rfl, rfl, h.clear, h.ramBank, h.stack, ?_⟩
    show Function.update (Function.update core.ram (core.ramIndex _) _) (core.ramIndex _ ^^^ 1) _ = _
    rw [hindex, hpair, h.ram]

/-! ## Clearing -/

/-- ALT1 STB (R1), INC R1, DEC R2, BNE back, NOP. -/
def clearLoop : Bytes := [0x3d, 0x31, 0xd1, 0xe2, 0x08, 0xfa, 0x01]

/-- Registers and memory behind the store and the two counters. -/
structure Turned (bank : Byte) (stack : Word) (ram : Ram) (address left : Word) (core : Core) :
    Prop where
  ready : Ready bank stack ram core
  value : core.registers 0 = 0
  pointer : core.registers 1 = address
  counter : core.registers 2 = left
  done : core.zero = decide (left = 0)

theorem performs_counters (h : Ready bank stack ram core) (hzero : core.registers 0 = 0) :
    Performs program held ([0xd1] ++ [0xe2]) core
      (Turned bank stack ram (core.registers 1 + 1) (core.registers 2 - 1)) := by
  have hinc : ∀ pc, perform program (registerOpcodeOf 0xd0 1) (core.setPc pc) =
      .ok (((core.write 1 (core.registers 1 + 1)).setZeroSign
        (core.registers 1 + 1)).resetSelectors.setPc pc) := by
    intro pc
    rw [perform_inc program (core.setPc pc) 1 (by decide), write_setPc (by decide)]
    rfl
  have hfirst : Performs program held [0xd1] core (fun between =>
      between = ((core.write 1 (core.registers 1 + 1)).setZeroSign
        (core.registers 1 + 1)).resetSelectors) :=
    Performs.simple (by decide) hinc (write_clear (by decide) h.clear (core.registers 1 + 1))
      (fun hi => hi.of_ram rfl) rfl
  refine hfirst.append ?_
  rintro between rfl
  have hready := ((h.register (show (1 : Fin 16) ≠ 15 by decide) (by decide)
    (core.registers 1 + 1)).flags (core.registers 1 + 1)).reset
  have hdec : ∀ pc, perform program (registerOpcodeOf 0xe0 2)
      ((((core.write 1 (core.registers 1 + 1)).setZeroSign
        (core.registers 1 + 1)).resetSelectors).setPc pc) =
      .ok ((((((core.write 1 (core.registers 1 + 1)).setZeroSign
        (core.registers 1 + 1)).resetSelectors).write 2 (core.registers 2 - 1)).setZeroSign
        (core.registers 2 - 1)).resetSelectors.setPc pc) := by
    intro pc
    rw [perform_dec program _ 2 (by decide), write_setPc (by decide)]
    rfl
  refine Performs.simple (by decide) hdec
    (write_clear (by decide) hready.clear (core.registers 2 - 1))
    (fun hi => hi.of_ram rfl) ⟨?_, hzero, rfl, rfl, rfl⟩
  exact ((hready.register (show (2 : Fin 16) ≠ 15 by decide) (by decide) _).flags _).reset

theorem performs_turn (hs : Spares program held region) (h : Ready bank stack ram core)
    (hbank : bank.toNat < 2) (hin : region (bankIndex bank (core.registers 1)))
    (hzero : core.registers 0 = 0) :
    Performs program held [0x3d, 0x31, 0xd1, 0xe2] core
      (Turned bank stack (Function.update ram (bankIndex bank (core.registers 1)) 0)
        (core.registers 1 + 1) (core.registers 2 - 1)) := by
  have hstore : Performs program held [0x3d, 0x31] core (fun between =>
      Ready bank stack (Function.update ram (bankIndex bank (core.registers 1)) 0) between ∧
        between.registers = core.registers) := by
    apply performs_storeByte hs h hbank hin
    intro after hafter hregisters
    rw [hzero] at hafter
    exact ⟨hafter, hregisters⟩
  refine hstore.append ?_
  rintro between ⟨hready, hregisters⟩
  have hone := congrFun hregisters 1
  have htwo := congrFun hregisters 2
  rw [← hone, ← htwo]
  rw [← hone] at hready
  exact performs_counters hready ((congrFun hregisters 0).trans hzero)

/-- The branch at the end of the loop goes back unless R2 is zero. -/
theorem block_back {start : Word} {rest : List Byte}
    (hback : Reads program held (start + 4) (0x08 :: 0xfa :: 1 :: rest))
    (hnext : ∃ next, Reads program held (if core.zero then start + 7 else start) [next]) :
    Block program held (start + 4) core (if core.zero then start + 7 else start)
      core.resetSelectors := by
  have htaken : branchTaken 0x08 core = !core.zero := rfl
  rcases hnext with ⟨next, hnext⟩
  refine Block.branch (show 5 ≤ (0x08 : Byte).toNat by decide) (by decide) hback ?_ hnext
  rw [htaken]
  cases core.zero with
  | true =>
      simp only [Bool.not_true, Bool.false_eq_true, if_true, if_false]
      bv_omega
  | false =>
      have hoffset : (0xfa : Byte).signExtend 16 = 0xfffa := rfl
      simp only [Bool.not_false, Bool.false_eq_true, if_true, if_false, hoffset]
      bv_omega

/-- One turn of the loop. -/
theorem block_turn (hs : Spares program held region) (h : Ready bank stack ram core)
    (hbank : bank.toNat < 2) (hin : region (bankIndex bank (core.registers 1)))
    (hzero : core.registers 0 = 0) {start : Word} {next : Byte} {rest : List Byte}
    (hreads : Reads program held start (codeBytes clearLoop ++ next :: rest)) : ∃ between,
      Turned bank stack (Function.update ram (bankIndex bank (core.registers 1)) 0)
        (core.registers 1 + 1) (core.registers 2 - 1) between ∧
      Block program held start core (if between.zero = true then start + 7 else start)
        between.resetSelectors := by
  rcases performs_turn hs h hbank hin hzero start 0x08 _ hreads with ⟨between, hblock, hturned⟩
  have hsplit : codeBytes clearLoop ++ next :: rest =
      codeBytes [0x3d, 0x31, 0xd1, 0xe2] ++ (0x08 :: 0xfa :: 1 :: next :: rest) := rfl
  have hback : Reads program held (start + 4) (0x08 :: 0xfa :: 1 :: next :: rest) := by
    rw [hsplit] at hreads
    exact (reads_append.mp hreads).2
  have hend : Reads program held (start + 7) (next :: rest) := (reads_append.mp hreads).2
  refine ⟨between, hturned, hblock.trans (block_back hback ?_)⟩
  cases between.zero with
  | true => exact ⟨next, hend.1, hend.2.1, trivial⟩
  | false => exact ⟨0x3d, hreads.1, hreads.2.1, trivial⟩

/-- The loop clears as many bytes as R2 says, and 65536 where it says none. -/
theorem performs_clearLoop (hs : Spares program held region) (hbank : bank.toNat < 2) (count : Nat) :
    ∀ (core : Core) (ram : Ram), count < 65536 → Ready bank stack ram core →
      core.registers 0 = 0 → core.registers 2 = BitVec.ofNat 16 (count + 1) →
      (core.registers 1).toNat + (count + 1) ≤ 65536 →
      (∀ i ≤ count, region (bankIndex bank (core.registers 1) + i)) →
      Performs program held clearLoop core (Ready bank stack
        (place ram (bankIndex bank (core.registers 1)) (List.replicate (count + 1) 0))) := by
  induction count with
  | zero =>
      intro core ram _ hready hzero hcount _ hin start next rest hreads
      have hhere := hin 0 le_rfl
      rw [Nat.add_zero] at hhere
      rcases block_turn hs hready hbank hhere hzero hreads with ⟨between, hturned, hblock⟩
      have hlast : between.zero = true := by
        rw [hturned.done, hcount]
        rfl
      rw [hlast, if_pos rfl] at hblock
      exact ⟨_, hblock, hturned.ready.reset⟩
  | succ count ih =>
      intro core ram hlt hready hzero hcount hfits hin start next rest hreads
      have hhere := hin 0 (Nat.zero_le _)
      rw [Nat.add_zero] at hhere
      rcases block_turn hs hready hbank hhere hzero hreads with ⟨between, hturned, hblock⟩
      have hcounter : core.registers 2 - 1 = BitVec.ofNat 16 (count + 1) := by
        rw [hcount]
        bv_omega
      have hmore : between.zero = false := by
        rw [hturned.done, hcounter]
        exact decide_eq_false (fun h => by bv_omega)
      rw [hmore, if_neg Bool.false_ne_true] at hblock
      have haddress : bankIndex bank (core.registers 1 + 1) = bankIndex bank (core.registers 1) + 1 := by
        unfold bankIndex
        bv_omega
      have hrest := ih between.resetSelectors _ (by omega) hturned.ready.reset hturned.value
        (hturned.counter.trans hcounter)
        (by
          show (between.registers 1).toNat + _ ≤ _
          rw [hturned.pointer]
          bv_omega)
        (by
          intro i hi
          show region (bankIndex bank (between.registers 1) + i)
          rw [hturned.pointer, haddress, Nat.add_assoc, Nat.add_comm 1 i]
          exact hin (i + 1) (by omega))
      rcases hrest start next rest hreads with ⟨after, hloop, hafter⟩
      refine ⟨after, hblock.trans hloop, ?_⟩
      have hplace : bankIndex bank (between.resetSelectors.registers 1) =
          bankIndex bank (core.registers 1) + 1 := by
        show bankIndex bank (between.registers 1) = _
        rw [hturned.pointer, haddress]
      rw [hplace] at hafter
      rw [List.replicate_succ, place]
      exact hafter

/-! ## Filling -/

/-- The addresses of an image that fits its bank. -/
def imageRegion (bank : Byte) (ramOrigin size : Nat) (index : Nat) : Prop :=
  bank.toNat * 65536 + ramOrigin ≤ index ∧ index < bank.toNat * 65536 + ramOrigin + size

theorem bankIndex_ofNat {value : Nat} (h : value < 65536) :
    bankIndex bank (BitVec.ofNat 16 value) = bank.toNat * 65536 + value := by
  unfold bankIndex
  rw [BitVec.toNat_ofNat, Nat.mod_eq_of_lt h]

/-- R1 and R0 loaded with literals. -/
theorem performs_literals {address value : Nat} (h : Ready bank stack ram core)
    (haddress : address < 65536) (hvalue : value < 65536) :
    Performs program held (literal 1 address ++ literal 0 value) core (fun after =>
      Ready bank stack ram after ∧ after.registers 1 = BitVec.ofNat 16 address ∧
        after.registers 0 = BitVec.ofNat 16 value) := by
  have hfirst : Performs program held (literal 1 address) core (fun between =>
      Ready bank stack ram between ∧ between.registers 1 = BitVec.ofNat 16 address) :=
    performs_literal (show (1 : Fin 16) ≠ 15 by decide) haddress h.alt1 h.alt2
      ⟨h.register (by decide) (by decide) _, rfl⟩
  refine hfirst.append ?_
  rintro between ⟨hready, hone⟩
  exact performs_literal (show (0 : Fin 16) ≠ 15 by decide) hvalue hready.alt1 hready.alt2
    ⟨hready.register (by decide) (by decide) _, hone, rfl⟩

theorem pair_low (low high : UInt8) :
    (BitVec.ofNat 16 (low.toNat + 256 * high.toNat)).setWidth 8 = low.toBitVec := by
  apply BitVec.eq_of_toNat_eq
  have hlow := low.toBitVec.isLt
  have hvalue : low.toNat = low.toBitVec.toNat := rfl
  rw [BitVec.toNat_setWidth, BitVec.toNat_ofNat]
  omega

theorem pair_high (low high : UInt8) :
    ((BitVec.ofNat 16 (low.toNat + 256 * high.toNat)) >>> 8).setWidth 8 = high.toBitVec := by
  apply BitVec.eq_of_toNat_eq
  have hlow := low.toBitVec.isLt
  have hhigh := high.toBitVec.isLt
  have hvalue : low.toNat = low.toBitVec.toNat := rfl
  have hvalue' : high.toNat = high.toBitVec.toNat := rfl
  rw [BitVec.toNat_setWidth, BitVec.toNat_ushiftRight, BitVec.toNat_ofNat,
    Nat.shiftRight_eq_div_pow]
  omega

section Image

variable {ramOrigin size : Nat}

/-- A literal address and value, stored as a byte. -/
theorem performs_byteAt (hbank : bank.toNat < 2) (hs : Spares program held (imageRegion bank ramOrigin size))
    (hfits : ramOrigin + size ≤ 65536) {offset : Nat} (hin : offset < size) (low : UInt8)
    (h : Ready bank stack ram core) :
    Performs program held (literal 1 ((ramOrigin + offset) % 65536) ++ literal 0 low.toNat ++
      [0x3d, 0x31]) core (Ready bank stack
        (place ram (bank.toNat * 65536 + ramOrigin + offset) [low])) := by
  have hlow : low.toNat < 65536 := by
    have := low.toNat_lt
    omega
  rw [Nat.mod_eq_of_lt (by omega)]
  refine (performs_literals h (by omega) hlow).append ?_
  rintro between ⟨hready, hone, hzero⟩
  have hindex : bankIndex bank (between.registers 1) = bank.toNat * 65536 + ramOrigin + offset := by
    rw [hone, bankIndex_ofNat (by omega), Nat.add_assoc]
  refine performs_storeByte hs hready hbank ?_ fun after hafter _ => ?_
  · rw [hindex]
    exact ⟨by omega, by omega⟩
  · rw [hindex, hzero] at hafter
    have hbyte : (BitVec.ofNat 16 low.toNat).setWidth 8 = low.toBitVec := pair_low low 0
    rw [hbyte] at hafter
    exact hafter

/-- A literal address and value, stored as a word. -/
theorem performs_wordAt (hbank : bank.toNat < 2) (heven : ramOrigin % 2 = 0)
    (hs : Spares program held (imageRegion bank ramOrigin size)) (hfits : ramOrigin + size ≤ 65536)
    {offset : Nat} (hoffset : offset % 2 = 0) (hin : offset + 1 < size) (low high : UInt8)
    (h : Ready bank stack ram core) :
    Performs program held (literal 1 ((ramOrigin + offset) % 65536) ++
      literal 0 (low.toNat + 256 * high.toNat) ++ [0x31]) core (Ready bank stack
        (place ram (bank.toNat * 65536 + ramOrigin + offset) [low, high])) := by
  have hvalue : low.toNat + 256 * high.toNat < 65536 := by
    have := low.toNat_lt
    have := high.toNat_lt
    omega
  rw [Nat.mod_eq_of_lt (by omega)]
  refine (performs_literals h (by omega) hvalue).append ?_
  rintro between ⟨hready, hone, hzero⟩
  have hindex : bankIndex bank (between.registers 1) = bank.toNat * 65536 + ramOrigin + offset := by
    rw [hone, bankIndex_ofNat (by omega), Nat.add_assoc]
  refine performs_storeWord hs hready hbank ?_ ?_ ?_ fun after hafter _ => ?_
  · rw [hone, BitVec.toNat_ofNat]
    omega
  · rw [hindex]
    exact ⟨by omega, by omega⟩
  · rw [hindex]
    exact ⟨by omega, by omega⟩
  · rw [hindex, hzero, pair_low, pair_high] at hafter
    exact hafter

/-- Words and an odd tail, where memory is clear. -/
theorem performs_storeImage (hbank : bank.toNat < 2) (heven : ramOrigin % 2 = 0)
    (hs : Spares program held (imageRegion bank ramOrigin size))
    (hfits : ramOrigin + size ≤ 65536) (offset : Nat) (image : Bytes) :
    ∀ (core : Core) (ram : Ram), offset % 2 = 0 → offset + image.length ≤ size →
      Ready bank stack ram core →
      (∀ i < image.length, ram (bank.toNat * 65536 + ramOrigin + offset + i) = 0) →
      Performs program held (storeImage ramOrigin offset image) core (Ready bank stack
        (place ram (bank.toNat * 65536 + ramOrigin + offset) image)) := by
  induction offset, image using storeImage.induct with
  | case1 offset =>
      intro core ram _ _ hready _
      exact Performs.nil hready
  | case2 offset =>
      intro core ram _ _ hready hclear
      have hhere := hclear 0 (by simp)
      rw [Nat.add_zero] at hhere
      rw [place_zero hhere]
      exact Performs.nil hready
  | case3 offset low hlow =>
      intro core ram _ hin hready _
      rw [List.length_singleton] at hin
      rw [storeImage, if_neg hlow]
      exact performs_byteAt hbank hs hfits (by omega) low hready
  | case4 offset low high rest ih =>
      intro core ram hoffset hin hready hclear
      rw [List.length_cons, List.length_cons] at hin
      have hnext : ∀ i, bank.toNat * 65536 + ramOrigin + (offset + 2) + i =
          bank.toNat * 65536 + ramOrigin + offset + (i + 2) := by
        intro i
        omega
      rw [storeImage]
      by_cases hzero : low = 0 ∧ high = 0
      · have hhere := hclear 0 (by simp)
        rw [Nat.add_zero] at hhere
        have hskip : place ram (bank.toNat * 65536 + ramOrigin + offset) [low, high] = ram := by
          rw [hzero.1, hzero.2, place_zero hhere, place_zero (hclear 1 (by simp))]
          rfl
        rw [if_pos hzero, List.nil_append, place_pair, hskip, Nat.add_assoc _ offset 2]
        refine ih core ram (by omega) (by omega) hready fun i hi => ?_
        rw [hnext]
        exact hclear (i + 2) (by simpa using hi)
      · rw [if_neg hzero, place_pair, Nat.add_assoc _ offset 2]
        refine (performs_wordAt hbank heven hs hfits hoffset (by omega) low high hready).append ?_
        intro between hbetween
        refine ih between _ (by omega) (by omega) hbetween fun i hi => ?_
        rw [place_outside, hnext]
        · exact hclear (i + 2) (by simpa using hi)
        · simp only [List.length_cons, List.length_nil]
          omega

/-- The image is cleared and filled. -/
theorem performs_image (hbank : bank.toNat < 2) (heven : ramOrigin % 2 = 0) {image : Bytes}
    (hs : Spares program held (imageRegion bank ramOrigin image.length))
    (hfits : ramOrigin + image.length ≤ 65536) (hnil : image ≠ []) (h : Ready bank stack ram core) :
    Performs program held (literal 0 0 ++ literal 1 ramOrigin ++ literal 2 (image.length % 65536) ++
      clearLoop ++ storeImage ramOrigin 0 image) core (Ready bank stack
        (place ram (bank.toNat * 65536 + ramOrigin) image)) := by
  have hlength : 0 < image.length := List.length_pos_of_ne_nil hnil
  have hzero : Performs program held (literal 0 0) core (fun after =>
      Ready bank stack ram after ∧ after.registers 0 = 0) :=
    performs_literal (show (0 : Fin 16) ≠ 15 by decide) (by decide) h.alt1 h.alt2
      ⟨h.register (by decide) (by decide) _, rfl⟩
  have hone : Performs program held (literal 0 0 ++ literal 1 ramOrigin) core (fun after =>
      Ready bank stack ram after ∧ after.registers 0 = 0 ∧
        after.registers 1 = BitVec.ofNat 16 ramOrigin) := by
    refine hzero.append ?_
    rintro between ⟨hready, hvalue⟩
    exact performs_literal (show (1 : Fin 16) ≠ 15 by decide) (by omega) hready.alt1 hready.alt2
      ⟨hready.register (by decide) (by decide) _, hvalue, rfl⟩
  have htwo : Performs program held (literal 0 0 ++ literal 1 ramOrigin ++
      literal 2 (image.length % 65536)) core (fun after => Ready bank stack ram after ∧
        after.registers 0 = 0 ∧ after.registers 1 = BitVec.ofNat 16 ramOrigin ∧
        after.registers 2 = BitVec.ofNat 16 image.length) := by
    refine hone.append ?_
    rintro between ⟨hready, hvalue, hpointer⟩
    have hcount : BitVec.ofNat 16 (image.length % 65536) = BitVec.ofNat 16 image.length := by
      apply BitVec.eq_of_toNat_eq
      simp
    exact performs_literal (show (2 : Fin 16) ≠ 15 by decide) (by omega) hready.alt1 hready.alt2
      ⟨hready.register (by decide) (by decide) _, hvalue, hpointer, hcount⟩
  have hcleared : Performs program held (literal 0 0 ++ literal 1 ramOrigin ++
      literal 2 (image.length % 65536) ++ clearLoop) core (Ready bank stack
        (place ram (bank.toNat * 65536 + ramOrigin) (List.replicate image.length 0))) := by
    refine htwo.append ?_
    rintro between ⟨hready, hvalue, hpointer, hcount⟩
    have hindex : bankIndex bank (between.registers 1) = bank.toNat * 65536 + ramOrigin := by
      rw [hpointer, bankIndex_ofNat (by omega)]
    have hsize : image.length - 1 + 1 = image.length := by omega
    have hloop := performs_clearLoop hs hbank (image.length - 1) between ram (by omega) hready hvalue
      (by rw [hsize]; exact hcount)
      (by
        rw [hsize, hpointer, BitVec.toNat_ofNat]
        omega)
      (by
        intro i hi
        rw [hindex]
        exact ⟨by omega, by omega⟩)
    rwa [hsize, hindex] at hloop
  refine hcleared.append ?_
  intro between hready
  have hfill := performs_storeImage hbank heven hs hfits 0 image between _ (by decide) (by omega) hready
    (by
      intro i hi
      rw [place_apply, List.length_replicate, if_pos (by omega)]
      simp)
  rwa [Nat.add_zero, place_place _ _ List.length_replicate] at hfill

end Image

/-! ## Bank and stack -/

theorem bank_masked {bank : UInt8} (h : bank.toNat < 2) :
    (BitVec.ofNat 16 bank.toNat).setWidth 8 &&& 1 = bank.toBitVec := by
  have hcases : bank = 0 ∨ bank = 1 := by
    rcases (show bank.toNat = 0 ∨ bank.toNat = 1 by omega) with hzero | hone
    · exact Or.inl (UInt8.toNat_inj.mp hzero)
    · exact Or.inr (UInt8.toNat_inj.mp hone)
  rcases hcases with rfl | rfl <;> rfl

/-- ALT2 RAMB of R0. -/
theorem performs_ramb (hsource : core.source = 0) (halt1 : core.alt1 = false)
    (hclear : core.pcWritten = false) : Performs program held ([0x3e] ++ [0xdf]) core (fun after =>
      after = { core with ramBank := (core.registers 0).setWidth 8 &&& 1 }.resetSelectors) := by
  have halt : ∀ pc, perform program 0x3e (core.setPc pc) =
      .ok (({ core with alt2 := true, prefixSet := false } : Core).setPc pc) :=
    fun pc => perform_alt2 program (core.setPc pc)
  have hfirst : Performs program held [0x3e] core (fun between =>
      between = { core with alt2 := true, prefixSet := false }) :=
    Performs.simple (by decide) halt hclear (fun hi => hi.of_ram rfl) rfl
  refine hfirst.append ?_
  rintro between rfl
  have hramb : ∀ pc, perform program 0xdf
      (({ core with alt2 := true, prefixSet := false } : Core).setPc pc) =
      .ok ({ core with ramBank := (core.registers 0).setWidth 8 &&& 1 }.resetSelectors.setPc pc) := by
    intro pc
    have hvalue : (({ core with alt2 := true, prefixSet := false } : Core).setPc pc).sourceValue =
        core.registers 0 := by
      unfold Core.sourceValue
      rw [show (({ core with alt2 := true, prefixSet := false } : Core).setPc pc).source = 0
        from hsource]
      rfl
    have hdone := perform_ramb program
      (({ core with alt2 := true, prefixSet := false } : Core).setPc pc) halt1 rfl
    rw [hvalue] at hdone
    exact hdone
  exact Performs.simple (by decide) hramb hclear (fun hi => hi.of_ram rfl) rfl

/-- RAMB, and R10 at the stack. -/
theorem performs_setup (bank : UInt8) (hbank : bank.toNat < 2) (h : core.Unselected)
    (hclear : core.pcWritten = false) :
    Performs program held (literal 0 bank.toNat ++ [0x3e, 0xdf] ++ literal 10 stack.toNat) core
      (Ready bank.toBitVec stack core.ram) := by
  have hdone : (core.write 0 (BitVec.ofNat 16 bank.toNat)).pcWritten = false :=
    write_clear (by decide) hclear _
  have hload : Performs program held (literal 0 bank.toNat) core (fun between =>
      between = (core.write 0 (BitVec.ofNat 16 bank.toNat)).resetSelectors) :=
    performs_literal (show (0 : Fin 16) ≠ 15 by decide) (by omega) h.alt1 h.alt2 rfl
  have hselect : Performs program held (literal 0 bank.toNat ++ [0x3e, 0xdf]) core (fun between =>
      between = { (core.write 0 (BitVec.ofNat 16 bank.toNat)).resetSelectors with
        ramBank := bank.toBitVec }) := by
    refine hload.append ?_
    rintro between rfl
    refine Performs.mono (performs_ramb (show (core.write 0 (BitVec.ofNat 16
      bank.toNat)).resetSelectors.source = 0 from rfl) rfl hdone) fun after hafter => ?_
    have hvalue : (core.write 0 (BitVec.ofNat 16 bank.toNat)).resetSelectors.registers 0 =
        BitVec.ofNat 16 bank.toNat := rfl
    rw [hafter, hvalue, bank_masked hbank]
    rfl
  refine hselect.append ?_
  rintro between rfl
  have hstack : BitVec.ofNat 16 stack.toNat = stack := by simp
  refine performs_literal (show (10 : Fin 16) ≠ 15 by decide) stack.isLt rfl rfl ?_
  rw [hstack]
  exact ⟨rfl, rfl, rfl, rfl, rfl, write_clear (by decide) hdone stack, rfl, rfl, rfl⟩

/-! ## The whole startup code -/

/-- The startup bytes, pointed at an entry address as the linker does. -/
def entryPatched (startup : RuntimeInitialization) (entry : Nat) : Bytes :=
  applyWrites [(startup.entryPatch, UInt8.ofNat entry),
    (startup.entryPatch + 1, UInt8.ofNat (entry / 256))] startup.bytes

/-- What precedes the jump to the entry. -/
def beforeJump (bank stack ramOrigin : Nat) (image : Bytes) : Bytes :=
  literal 0 bank ++ [0x3e, 0xdf] ++ literal 10 stack ++
    if image = [] then [] else literal 0 0 ++ literal 1 ramOrigin ++
      literal 2 (image.length % 65536) ++ clearLoop ++ storeImage ramOrigin 0 image

theorem makeRuntimeInitialization_eq_ok {bank stack ramOrigin : Nat} {image : Bytes}
    {startup : RuntimeInitialization} :
    makeRuntimeInitialization bank stack ramOrigin image = .ok startup ↔
      ¬ (bank > 1 ∨ image.length > 65536 - ramOrigin ∨ ramOrigin % 2 ≠ 0) ∧
      startup = ⟨beforeJump bank stack ramOrigin image ++ RuntimeInitialization.word 15 0 ++ [1],
        (beforeJump bank stack ramOrigin image).length + 1⟩ := by
  unfold makeRuntimeInitialization
  rw [rejectIf_bind_eq_ok]
  exact and_congr_right fun _ => ⟨fun h => (Except.ok.inj h).symm, fun h => congrArg Except.ok h.symm⟩

theorem entryPatched_eq {bank stack ramOrigin : Nat} {image : Bytes} {startup : RuntimeInitialization}
    (h : makeRuntimeInitialization bank stack ramOrigin image = .ok startup) (entry : Nat) :
    entryPatched startup entry =
      beforeJump bank stack ramOrigin image ++ RuntimeInitialization.word 15 entry ++ [1] := by
  rcases (makeRuntimeInitialization_eq_ok.mp h).2 with rfl
  unfold entryPatched
  rw [List.append_assoc, List.append_assoc]
  exact applyWrites_shift_append [(1, UInt8.ofNat entry), (2, UInt8.ofNat (entry / 256))]
    (beforeJump bank stack ramOrigin image) _

theorem performs_beforeJump (bank : UInt8) (hbank : bank.toNat < 2) {ramOrigin : Nat}
    (heven : ramOrigin % 2 = 0) {image : Bytes}
    (hs : Spares program held (imageRegion bank.toBitVec ramOrigin image.length))
    (hfits : ramOrigin + image.length ≤ 65536) (h : core.Unselected)
    (hclear : core.pcWritten = false) :
    Performs program held (beforeJump bank.toNat stack.toNat ramOrigin image) core
      (Ready bank.toBitVec stack
        (place core.ram (bank.toBitVec.toNat * 65536 + ramOrigin) image)) := by
  refine (performs_setup bank hbank h hclear).append ?_
  intro between hready
  by_cases hnil : image = []
  · rw [if_pos hnil, hnil]
    exact Performs.nil hready
  · rw [if_neg hnil]
    exact performs_image hbank heven hs hfits hnil hready

/-- Startup bytes in the payload, outside the RAM of the image. -/
structure Staged (program : Program) (core : Core) (start : Word) (bytes : Bytes)
    (region : Nat → Prop) : Prop where
  inside : ∀ i < bytes.length, inside program (start + BitVec.ofNat 16 i)
  holds : ∀ i byte, bytes[i]? = some byte →
    programByte program core (start + BitVec.ofNat 16 i) = .ok byte.toBitVec
  spared : program.bank = 0x70 ∨ program.bank = 0x71 → ∀ i < bytes.length,
    ¬ region ((program.bank - 0x70) * 65536 + (start + BitVec.ofNat 16 i).toNat)

/-- The bytes of a payload from an address on. -/
def heldBytes (start : Word) (bytes : Bytes) (address : Word) (byte : Byte) : Prop :=
  ∃ i loaded, bytes[i]? = some loaded ∧ address = start + BitVec.ofNat 16 i ∧ byte = loaded.toBitVec

theorem Staged.intact {start : Word} {bytes : Bytes} (h : Staged program core start bytes region) :
    Intact program (heldBytes start bytes) core := by
  rintro address byte ⟨i, loaded, hi, rfl, rfl⟩
  exact h.holds i loaded hi

theorem Staged.spares {start : Word} {bytes : Bytes} (h : Staged program core start bytes region) :
    Spares program (heldBytes start bytes) region := by
  rintro address byte ⟨i, loaded, hi, rfl, rfl⟩ hram
  exact h.spared hram i (List.getElem?_eq_some_iff.mp hi).1

theorem Staged.reads {start : Word} {bytes : Bytes} (h : Staged program core start bytes region) :
    Reads program (heldBytes start bytes) start (codeBytes bytes) := by
  apply reads_of_get
  · intro i hi
    exact h.inside i (by simpa [codeBytes] using hi)
  · intro i byte hbyte
    obtain ⟨loaded, hloaded, rfl⟩ := Option.map_eq_some_iff.mp
      ((List.getElem?_map (f := UInt8.toBitVec)).symm.trans hbyte)
    exact ⟨i, loaded, hloaded, rfl, rfl⟩

/-- A machine that has jumped to the entry: the bank, the stack and the static
image are as the linker has chosen them. -/
structure Started (bank : UInt8) (stack : Word) (ramOrigin : Nat) (image : Bytes) (entry : Word)
    (before after : Core) : Prop where
  arrived : after.pc = entry
  ramBank : after.ramBank = bank.toBitVec
  pointer : after.registers 10 = stack
  filled : ∀ i (hi : i < image.length),
    after.ram (bank.toNat * 65536 + ramOrigin + i) = (image[i]).toBitVec
  others : ∀ index, ¬ imageRegion bank.toBitVec ramOrigin image.length index →
    after.ram index = before.ram index

theorem Ready.started {bank : UInt8} {ramOrigin : Nat} {image : Bytes} {before : Core} {entry : Word}
    (h : Ready bank.toBitVec stack
      (place before.ram (bank.toBitVec.toNat * 65536 + ramOrigin) image) core) :
    Started bank stack ramOrigin image entry before (core.jump entry).resetSelectors where
  arrived := setPc_pc core entry
  ramBank := h.ramBank
  pointer := h.stack
  filled := by
    intro i hi
    show core.ram _ = _
    have hplace : bank.toNat * 65536 + ramOrigin + i - (bank.toBitVec.toNat * 65536 + ramOrigin) = i := by
      show bank.toNat * 65536 + ramOrigin + i - (bank.toNat * 65536 + ramOrigin) = i
      omega
    rw [h.ram, place_apply, hplace, if_pos, List.getD_eq_getElem _ _ hi]
    show bank.toNat * 65536 + ramOrigin ≤ _ ∧ _ < bank.toNat * 65536 + ramOrigin + _
    omega
  others := by
    intro index hout
    show core.ram index = _
    rw [h.ram, place_outside]
    unfold imageRegion at hout
    omega

/-- Startup code leads from any registers and memory to its entry. -/
theorem startup_initializes (bank : UInt8) (stack ramOrigin : Word) (image : Bytes)
    {startup : RuntimeInitialization}
    (h : makeRuntimeInitialization bank.toNat stack.toNat ramOrigin.toNat image = .ok startup)
    (entry : Nat) {start : Word}
    (hstaged : Staged program core start (entryPatched startup entry)
      (imageRegion bank.toBitVec ramOrigin.toNat image.length)) :
    ∃ n next, Machine.Runs (cpuMachine program) n ⟨{ core := core.setPc start }, {}⟩ next ∧
      Started bank stack ramOrigin.toNat image (BitVec.ofNat 16 entry) core next.state.core ∧
      next.state.pipeline = 1 ∧ ∀ after, step program next = .ok after →
        after.state.address = some (BitVec.ofNat 16 entry) := by
  have haccepted := (makeRuntimeInitialization_eq_ok.mp h).1
  have hreads := hstaged.reads
  have hintact := hstaged.intact
  have hspares := hstaged.spares
  rw [entryPatched_eq h] at hreads hintact hspares
  have hcode : codeBytes (beforeJump bank.toNat stack.toNat ramOrigin.toNat image ++
      RuntimeInitialization.word 15 entry ++ [1]) =
      codeBytes (beforeJump bank.toNat stack.toNat ramOrigin.toNat image) ++
        [0xff, (lowByte entry).toBitVec, (lowByte (entry / 256)).toBitVec, 1] := by
    unfold codeBytes
    rw [List.append_assoc, List.map_append]
    rfl
  rw [hcode] at hreads
  -- the NOP in the pipeline fetches the first byte and resets the selectors
  obtain ⟨byte, tail, htail⟩ := List.exists_cons_of_ne_nil
    (show codeBytes (beforeJump bank.toNat stack.toNat ramOrigin.toNat image) ++
      [0xff, (lowByte entry).toBitVec, (lowByte (entry / 256)).toBitVec, 1] ≠ [] by simp)
  have hcore : ({ core.setPc start with pcWritten := false } : Core) =
      ({ core with pcWritten := false } : Core).setPc start := rfl
  rcases stands_of_nop ⟨{ core := core.setPc start }, {}⟩ hcore rfl (coherent_empty _)
    (hintact.of_ram rfl) (htail ▸ hreads) with ⟨first, hfirst, hstands⟩
  rcases performs_beforeJump bank (by omega) (by omega) hspares (by omega)
    (show ({ core with pcWritten := false } : Core).resetSelectors.Unselected from
      ⟨rfl, rfl, rfl, rfl, rfl⟩) rfl start _ _ hreads with ⟨between, hblock, hready⟩
  rcases hblock first hstands with ⟨n, second, hruns, hjump⟩
  have hlast := (reads_append.mp hreads).2
  rw [show (codeBytes (beforeJump bank.toNat stack.toNat ramOrigin.toNat image)).length =
    (beforeJump bank.toNat stack.toNat ramOrigin.toNat image).length from List.length_map _] at hlast
  rcases hjump.jump hlast hready.alt1 hready.alt2 with ⟨next, hnext, hnextCore, hpipeline⟩
  unfold lowByte at hnextCore
  rw [word_ofNat] at hnextCore
  have hstarted : Started bank stack ramOrigin.toNat image (BitVec.ofNat 16 entry) core
      next.state.core := by
    rw [hnextCore]
    exact Ready.started hready
  refine ⟨1 + n + 1, next, ?_, hstarted, hpipeline, ?_⟩
  · exact ((Machine.Runs.single (A := cpuMachine program) hfirst).append hruns).append (.single hnext)
  · intro after hafter
    rw [step_nop_address hpipeline hafter, hstarted.arrived]

theorem startup_initializes_three : ∃ startup n next,
    makeRuntimeInitialization 1 0x3000 0x100 [7, 0, 9] = .ok startup ∧
    let payload := entryPatched startup 0x8000
    Machine.Runs (cpuMachine (loadProgram payload 0x18000)) n
      ⟨{ core := (initialCore payload 0x18000 0 0).setPc 0x8000 }, {}⟩ next ∧
    Started 1 0x3000 0x100 [7, 0, 9] 0x8000 (initialCore payload 0x18000 0 0) next.state.core := by
  let startup : RuntimeInitialization :=
    ⟨[0xa0, 1, 0x3e, 0xdf, 0xfa, 0, 0x30, 0xa0, 0, 0xf1, 0, 1, 0xa2, 3, 0x3d, 0x31, 0xd1, 0xe2, 8,
      0xfa, 1, 0xf1, 0, 1, 0xa0, 7, 0x31, 0xf1, 2, 1, 0xa0, 9, 0x3d, 0x31, 0xff, 0, 0, 1], 35⟩
  have h : makeRuntimeInitialization 1 0x3000 0x100 [7, 0, 9] = .ok startup := rfl
  have hbytes : (List.range 38).all (fun i =>
      decide (inside (loadProgram (entryPatched startup 0x8000) 0x18000)
        (0x8000 + BitVec.ofNat 16 i)) &&
      decide (programByte (loadProgram (entryPatched startup 0x8000) 0x18000)
        (initialCore (entryPatched startup 0x8000) 0x18000 0 0) (0x8000 + BitVec.ofNat 16 i) =
          .ok ((entryPatched startup 0x8000).getD i 0).toBitVec)) = true := by decide +kernel
  have hstaged : Staged (loadProgram (entryPatched startup 0x8000) 0x18000)
      (initialCore (entryPatched startup 0x8000) 0x18000 0 0) 0x8000 (entryPatched startup 0x8000)
      (imageRegion (1 : UInt8).toBitVec (0x100 : Word).toNat ([7, 0, 9] : Bytes).length) := by
    refine ⟨?_, ?_, ?_⟩
    · intro i hi
      have hcheck := List.all_eq_true.mp hbytes i (List.mem_range.mpr hi)
      exact of_decide_eq_true (Bool.and_eq_true_iff.mp hcheck).1
    · intro i byte hbyte
      have hi : i < 38 := (List.getElem?_eq_some_iff.mp hbyte).1
      have hcheck := List.all_eq_true.mp hbytes i (List.mem_range.mpr hi)
      have hread := of_decide_eq_true (Bool.and_eq_true_iff.mp hcheck).2
      rwa [List.getD_eq_getElem?_getD, hbyte] at hread
    · intro hram
      exact absurd hram (by decide +kernel)
  rcases startup_initializes 1 0x3000 0x100 [7, 0, 9] h 0x8000 hstaged with
    ⟨n, next, hruns, hstarted, -⟩
  exact ⟨startup, n, next, h, hruns, hstarted⟩

end Startup

end Disco.Gsu
