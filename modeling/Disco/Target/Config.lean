import Disco.Library.Codec

/-! # Target configuration

The part of the compiler configuration that objects carry: target, cartridge
mapping, execution origin and the selected host bitmap profile. The remaining
compiler settings are invocation policies that no object records.
-/

namespace Disco

open Library

/-- Symbol names are byte strings; nothing in the tools decodes them. -/
abbrev Name := List UInt8

instance lawfulNames : LawfulBEq Name := inferInstance

def nameOf (text : String) : Name := text.toList.map Char.toUInt8

/-- The text of a name inside a diagnostic. -/
def nameText (name : Name) : String := String.ofList (name.map fun byte => Char.ofNat byte.toNat)

inductive TargetKind where
  | gsu
  | spc700
  deriving DecidableEq, Repr

inductive MemoryMapping where
  | loROM
  | hiROM
  deriving DecidableEq, Repr

namespace TargetKind

def toByte : TargetKind → UInt8
  | gsu => 0
  | spc700 => 1

def ofByte (byte : UInt8) : Option TargetKind :=
  if byte = 0 then some gsu else if byte = 1 then some spc700 else none

@[simp] theorem ofByte_toByte (target : TargetKind) : ofByte target.toByte = some target := by
  cases target <;> rfl

theorem toByte_of_ofByte {byte : UInt8} {target : TargetKind} (h : ofByte byte = some target) :
    target.toByte = byte := by
  unfold ofByte at h
  split at h
  · cases h; simp_all [toByte]
  · split at h <;> cases h; simp_all [toByte]

end TargetKind

namespace MemoryMapping

def toByte : MemoryMapping → UInt8
  | loROM => 0
  | hiROM => 1

def ofByte (byte : UInt8) : Option MemoryMapping :=
  if byte = 0 then some loROM else if byte = 1 then some hiROM else none

@[simp] theorem ofByte_toByte (mapping : MemoryMapping) : ofByte mapping.toByte = some mapping := by
  cases mapping <;> rfl

theorem toByte_of_ofByte {byte : UInt8} {mapping : MemoryMapping} (h : ofByte byte = some mapping) :
    mapping.toByte = byte := by
  unfold ofByte at h
  split at h
  · cases h; simp_all [toByte]
  · split at h <;> cases h; simp_all [toByte]

end MemoryMapping

/-- Host-side SCMR/SCBR configuration. -/
structure BitmapConfig where
  enabled : Bool := false
  objectMode : Bool := false
  height : UInt16 := 128
  depth : UInt8 := 4
  base : UInt32 := 0
  deriving DecidableEq, Repr

namespace BitmapConfig

def sizeBytes (bitmap : BitmapConfig) : Nat :=
  256 * (if bitmap.objectMode then 256 else bitmap.height.toNat) * bitmap.depth.toNat / 8

def validate (bitmap : BitmapConfig) : Except String Unit :=
  if bitmap.enabled = false then .ok ()
  else do
    rejectIf ((bitmap.objectMode = false ∧ bitmap.height ≠ 128 ∧ bitmap.height ≠ 160 ∧
          bitmap.height ≠ 192) ∨
        (bitmap.objectMode = true ∧ bitmap.height ≠ 256) ∨
        (bitmap.depth ≠ 2 ∧ bitmap.depth ≠ 4 ∧ bitmap.depth ≠ 8))
      "Invalid SuperFX bitmap mode, size or depth."
    rejectIf (bitmap.base.toNat % 1024 ≠ 0 ∨ bitmap.base.toNat ≥ 131072 ∨
        bitmap.sizeBytes > 131072 - bitmap.base.toNat)
      "SuperFX bitmap base must be SCBR-aligned (1024 bytes) and its framebuffer must fit in cartridge RAM."

/-- Two unselected profiles are the same whatever their other fields hold. -/
def same (a b : BitmapConfig) : Bool :=
  a.enabled == b.enabled && (!a.enabled || (a.objectMode == b.objectMode &&
    a.height == b.height && a.depth == b.depth && a.base == b.base))

/-- The profile a reader reports for an unselected bitmap. -/
def normalize (bitmap : BitmapConfig) : BitmapConfig := if bitmap.enabled then bitmap else {}

theorem normalize_of_enabled {bitmap : BitmapConfig} (h : bitmap.enabled = true) :
    bitmap.normalize = bitmap := by
  simp [normalize, h]

theorem same_normalize (bitmap : BitmapConfig) : same bitmap.normalize bitmap = true := by
  unfold normalize same
  cases h : bitmap.enabled <;> simp [h]

/-- A selected profile that passes has one of the documented heights. -/
theorem height_le_of_validate {bitmap : BitmapConfig} (he : bitmap.enabled = true)
    (h : bitmap.validate = .ok ()) : bitmap.height.toNat ≤ 256 := by
  simp only [validate, he, Bool.true_eq_false, if_false, rejectIf_bind_eq_ok, not_or, not_and,
    not_not] at h
  obtain ⟨⟨hs, ho, -⟩, -⟩ := h
  cases hm : bitmap.objectMode with
  | true => rw [ho hm]; decide
  | false =>
      by_cases h₁ : bitmap.height = 128
      · rw [h₁]; decide
      · by_cases h₂ : bitmap.height = 160
        · rw [h₂]; decide
        · rw [hs hm h₁ h₂]; decide

/-- A selected framebuffer lies inside the two banks of cartridge RAM. -/
theorem base_add_size_le_of_validate {bitmap : BitmapConfig} (he : bitmap.enabled = true)
    (h : bitmap.validate = .ok ()) :
    0 < bitmap.sizeBytes ∧ bitmap.base.toNat + bitmap.sizeBytes ≤ 131072 := by
  simp only [validate, he, Bool.true_eq_false, if_false, rejectIf_bind_eq_ok, rejectIf_eq_ok,
    not_or, not_and, not_not, Nat.not_lt] at h
  obtain ⟨⟨hs, ho, hd⟩, -, hb, hz⟩ := h
  refine ⟨?_, by omega⟩
  have hdepth : 2 ≤ bitmap.depth.toNat := by
    by_cases h₁ : bitmap.depth = 2
    · rw [h₁]; decide
    · by_cases h₂ : bitmap.depth = 4
      · rw [h₂]; decide
      · rw [hd h₁ h₂]; decide
  have hrows : 128 ≤ (if bitmap.objectMode then 256 else bitmap.height.toNat) := by
    cases hm : bitmap.objectMode with
    | true => simp
    | false =>
        by_cases h₁ : bitmap.height = 128
        · rw [h₁]; decide
        · by_cases h₂ : bitmap.height = 160
          · rw [h₂]; decide
          · rw [hs hm h₁ h₂]; decide
  have hmul := Nat.mul_le_mul hrows hdepth
  unfold sizeBytes
  rw [Nat.mul_assoc]
  omega

end BitmapConfig

structure CompilerConfig where
  target : TargetKind := .gsu
  mapping : MemoryMapping := .loROM
  codeStartAddress : UInt32 := 0x8000
  bitmap : BitmapConfig := {}
  deriving DecidableEq, Repr

/-- Compatible placements. The bitmap profile is merged separately. -/
def CompilerConfig.same (a b : CompilerConfig) : Bool :=
  a.target == b.target && a.mapping == b.mapping && a.codeStartAddress == b.codeStartAddress

end Disco
