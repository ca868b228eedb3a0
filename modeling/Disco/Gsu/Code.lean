import Disco.Gsu.Instructions

/-! # Straight code

Bytes of a payload as a program: what they do to registers and memory does not
depend on where they lie, as long as they stay there.
-/

namespace Disco.Gsu

open Library

/-- Bytes of a payload, as the machine fetches them. -/
def codeBytes (bytes : Bytes) : List Byte := bytes.map UInt8.toBitVec

/-- The address behind some bytes. -/
def behind (start : Word) (bytes : Bytes) : Word := start + BitVec.ofNat 16 bytes.length

/-- A word from its two bytes. -/
theorem word_ofNat (value : Nat) :
    (UInt8.ofNat value).toBitVec.setWidth 16 |||
      ((UInt8.ofNat (value / 256)).toBitVec.setWidth 16 <<< 8) = BitVec.ofNat 16 value := by
  have hlow : (UInt8.ofNat value).toBitVec = (BitVec.ofNat 16 value).setWidth 8 := by
    apply BitVec.eq_of_toNat_eq
    rw [show (UInt8.ofNat value).toBitVec.toNat = value % 256 from UInt8.toNat_ofNat']
    simp
  have hhigh : (UInt8.ofNat (value / 256)).toBitVec = ((BitVec.ofNat 16 value) >>> 8).setWidth 8 := by
    apply BitVec.eq_of_toNat_eq
    rw [show (UInt8.ofNat (value / 256)).toBitVec.toNat = value / 256 % 256 from UInt8.toNat_ofNat']
    simp [Nat.shiftRight_eq_div_pow]
    omega
  rw [hlow, hhigh]
  exact word_of_bytes _

section Codes

variable {program : Program} {held : Word → Byte → Prop} {start : Word}

theorem behind_append (start : Word) (first second : Bytes) :
    behind start (first ++ second) = behind (behind start first) second := by
  unfold behind
  rw [List.length_append, BitVec.ofNat_add, BitVec.add_assoc]

theorem reads_append {first second : List Byte} {address : Word} :
    Reads program held address (first ++ second) ↔ Reads program held address first ∧
      Reads program held (address + BitVec.ofNat 16 first.length) second := by
  induction first generalizing address with
  | nil =>
      have hzero : address + BitVec.ofNat 16 0 = address := by simp
      simp only [List.nil_append, List.length_nil, hzero]
      exact ⟨fun h => ⟨trivial, h⟩, fun h => h.2⟩
  | cons byte rest ih =>
      have hnext : address + 1 + BitVec.ofNat 16 rest.length =
          address + BitVec.ofNat 16 (byte :: rest).length := by
        rw [List.length_cons, Nat.add_comm, BitVec.ofNat_add, BitVec.add_assoc]
        rfl
      simp only [List.cons_append, Reads, ih, hnext, and_assoc]

/-- Bytes that lead from registers and memory to others, wherever they lie. -/
def Performs (program : Program) (held : Word → Byte → Prop) (bytes : Bytes) (core : Core)
    (Q : Core → Prop) : Prop :=
  ∀ start next rest, Reads program held start (codeBytes bytes ++ next :: rest) →
    ∃ after, Block program held start core (behind start bytes) after ∧ Q after

variable {first second : Bytes} {core : Core} {P Q : Core → Prop}

theorem Performs.append (h : Performs program held first core P)
    (k : ∀ between, P between → Performs program held second between Q) :
    Performs program held (first ++ second) core Q := by
  intro start next rest hreads
  unfold codeBytes at hreads
  rw [List.map_append, List.append_assoc] at hreads
  have hsecond := (reads_append.mp hreads).2
  rw [List.length_map] at hsecond
  -- the first part is followed by a byte, of the second part or behind it
  obtain ⟨byte, tail, htail⟩ := List.exists_cons_of_ne_nil
    (show List.map UInt8.toBitVec second ++ next :: rest ≠ [] by simp)
  rw [htail] at hreads
  rcases h start byte tail hreads with ⟨between, hfirst, hbetween⟩
  rcases k between hbetween (behind start first) next rest hsecond with ⟨after, hsecond, hafter⟩
  rw [behind_append]
  exact ⟨after, hfirst.trans hsecond, hafter⟩

theorem Performs.nil (h : Q core) : Performs program held [] core Q := by
  intro start next rest _
  have hsame : behind start [] = start := by simp [behind]
  rw [hsame]
  exact ⟨core, Block.refl, h⟩

theorem Performs.mono (h : Performs program held first core P) (hPQ : ∀ core, P core → Q core) :
    Performs program held first core Q := by
  intro start next rest hreads
  rcases h start next rest hreads with ⟨after, hblock, hafter⟩
  exact ⟨after, hblock, hPQ after hafter⟩

/-- One instruction without operands. -/
theorem Performs.simple {opcode : UInt8} {after : Core} (hs : Simple opcode.toBitVec)
    (hp : ∀ pc, perform program opcode.toBitVec (core.setPc pc) = .ok (after.setPc pc))
    (hw : after.pcWritten = false) (hi : Intact program held core → Intact program held after)
    (h : Q after) : Performs program held [opcode] core Q := by
  intro start next rest hreads
  exact ⟨after, Block.perform hreads hs (hp _) hw hi, h⟩

end Codes

end Disco.Gsu
