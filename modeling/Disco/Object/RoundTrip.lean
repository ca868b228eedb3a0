import Disco.Object.Serialize
import Disco.Object.Valid

/-! # Serialization round trips

Each field is read back from its encoding, and each accepted field is the
encoding of what was read. The current format therefore has exactly one
encoding per object, and older versions only differ in the fields they leave
at their defaults.
-/

namespace Disco

open Library

namespace ObjectFile

/-! ## Fields -/

theorem ofNat_toNat_length {bytes : Bytes} {limit : Nat} (h : bytes.length ≤ limit)
    (hl : limit < 2 ^ 32) : (UInt32.ofNat bytes.length).toNat = bytes.length := by
  rw [UInt32.toNat_ofNat']
  omega

theorem readU32_append (field : String) (value : UInt32) (rest : Bytes) :
    readU32 field (encodeU32 value ++ rest) = .ok (value, rest) := Reader.u32_append _ _ _

theorem readU8_cons (field : String) (byte : UInt8) (rest : Bytes) :
    readU8 field (byte :: rest) = .ok (byte, rest) := rfl

theorem readString_append {text : Name} (h : text.length ≤ maxStringBytes) (field : String)
    (rest : Bytes) : readString field (encodeString text ++ rest) = .ok (text, rest) := by
  have hlen := ofNat_toNat_length h (by decide)
  unfold readString encodeString
  rw [List.append_assoc, Reader.bind_of_ok (readU32_append _ _ _),
    Reader.bind_of_ok (Reader.remaining_run _), Reader.check_bind, hlen, Reader.take_append]
  rw [hlen, List.length_append]
  omega

theorem readString_sound {field : String} {bytes rest : Bytes} {text : Name}
    (h : readString field bytes = .ok (text, rest)) : bytes = encodeString text ++ rest := by
  simp only [readString, readU32, Reader.u32_bind_eq_ok, Reader.remaining_bind_run,
    Reader.check_bind_eq_ok, Reader.take_eq_ok] at h
  obtain ⟨len, middle, rfl, -, hcount, rfl⟩ := h
  rw [encodeString, hcount, UInt32.ofNat_toNat, List.append_assoc]

theorem readVec_append {bytes : Bytes} {limit : Nat} (h : bytes.length ≤ limit)
    (hl : limit < 2 ^ 32) (field : String) (rest : Bytes) :
    readVec limit field (encodeVec bytes ++ rest) = .ok (bytes, rest) := by
  have hlen := ofNat_toNat_length h hl
  unfold readVec encodeVec
  rw [List.append_assoc, Reader.bind_of_ok (readU32_append _ _ _),
    Reader.bind_of_ok (Reader.remaining_run _), Reader.check_bind, hlen, Reader.take_append]
  rw [hlen, List.length_append]
  omega

theorem readVec_sound {limit : Nat} {field : String} {input rest bytes : Bytes}
    (h : readVec limit field input = .ok (bytes, rest)) : input = encodeVec bytes ++ rest := by
  simp only [readVec, readU32, Reader.u32_bind_eq_ok, Reader.remaining_bind_run,
    Reader.check_bind_eq_ok, Reader.take_eq_ok] at h
  obtain ⟨size, middle, rfl, -, hcount, rfl⟩ := h
  rw [encodeVec, hcount, UInt32.ofNat_toNat, List.append_assoc]

theorem enumerator_eq_ok {α : Type} {value : Option α} {message : String} {bytes rest : Bytes}
    {result : α} :
    enumerator value message bytes = .ok (result, rest) ↔ value = some result ∧ bytes = rest := by
  cases value with
  | none => simp [enumerator]
  | some value => simp [enumerator]

/-! ## Bitmap profiles -/

theorem readBitmap_append {bitmap : BitmapConfig} {target : TargetKind}
    (hv : bitmap.validate = .ok ()) (ht : bitmap.enabled = true → target = .gsu) (rest : Bytes) :
    readBitmap target (encodeBitmap bitmap ++ rest) = .ok (bitmap.normalize, rest) := by
  unfold readBitmap encodeBitmap
  cases he : bitmap.enabled with
  | false =>
      simp only [Bool.false_eq_true, if_false, List.cons_append, List.nil_append]
      rw [Reader.bind_of_ok (readU8_cons _ _ _), Reader.check_bind (by decide)]
      simp [BitmapConfig.normalize, he]
  | true =>
      have hheight := BitmapConfig.height_le_of_validate he hv
      have hwide : bitmap.height.toUInt32.toNat = bitmap.height.toNat := UInt16.toNat_toUInt32 _
      have hmode : ¬ ((if bitmap.objectMode then (1 : UInt8) else 0) > 1 ∨ target ≠ .gsu) := by
        rw [ht he]
        cases bitmap.objectMode <;> decide
      have hlimit : ¬ bitmap.height.toUInt32 > 256 := by
        intro h
        have hn : (256 : UInt32).toNat < bitmap.height.toUInt32.toNat := h
        rw [hwide, show (256 : UInt32).toNat = 256 from rfl] at hn
        omega
      have hrecord : (⟨true, (if bitmap.objectMode then (1 : UInt8) else 0) ≠ 0,
          bitmap.height.toUInt32.toUInt16, bitmap.depth, bitmap.base⟩ : BitmapConfig) = bitmap := by
        cases bitmap with
        | mk enabled objectMode height depth base =>
            cases he
            cases objectMode <;> simp
      simp only [if_true, List.cons_append, List.nil_append, List.append_assoc]
      rw [Reader.bind_of_ok (readU8_cons _ _ _), Reader.check_bind (by decide), if_neg (by decide),
        Reader.bind_of_ok (readU8_cons _ _ _), Reader.check_bind hmode,
        Reader.bind_of_ok (readU8_cons _ _ _), Reader.bind_of_ok (readU32_append _ _ _),
        Reader.check_bind hlimit, Reader.bind_of_ok (readU32_append _ _ _), hrecord,
        Reader.bind_of_ok (Reader.validated_eq_ok (u := ()) |>.mpr ⟨hv, rfl⟩), Reader.pure_run,
        BitmapConfig.normalize_of_enabled he]

theorem flag_eq_one {flag : UInt8} (hle : ¬ flag > 1) (hne : flag ≠ 0) : flag = 1 := by
  apply UInt8.toNat.inj
  have hle' : ¬ (1 : UInt8).toNat < flag.toNat := hle
  have hne' : flag.toNat ≠ 0 := fun he => hne (UInt8.toNat.inj he)
  simp only [UInt8.reduceToNat] at hle' ⊢
  omega

theorem height_narrow {height : UInt32} (h : ¬ height > 256) : height.toUInt16.toUInt32 = height := by
  apply UInt32.toNat.inj
  have hle : ¬ (256 : UInt32).toNat < height.toNat := h
  rw [UInt16.toNat_toUInt32, UInt32.toNat_toUInt16]
  simp only [UInt32.reduceToNat] at hle
  omega

theorem readBitmap_sound {target : TargetKind} {bytes rest : Bytes} {bitmap : BitmapConfig}
    (h : readBitmap target bytes = .ok (bitmap, rest)) :
    bytes = encodeBitmap bitmap ++ rest ∧ bitmap.normalize = bitmap := by
  simp only [readBitmap, readU8, readU32, Reader.u8_bind_eq_ok, Reader.check_bind_eq_ok] at h
  obtain ⟨enabled, tail, rfl, hflag, h⟩ := h
  by_cases hz : enabled = 0
  · rw [if_pos hz, Reader.pure_eq_ok] at h
    obtain ⟨rfl, rfl⟩ := h
    subst hz
    exact ⟨rfl, rfl⟩
  · obtain rfl := flag_eq_one hflag hz
    rw [if_neg hz] at h
    simp only [Reader.u8_bind_eq_ok, Reader.check_bind_eq_ok, Reader.u32_bind_eq_ok,
      Reader.validated_bind_eq_ok, Reader.pure_eq_ok] at h
    obtain ⟨mode, _, rfl, hmode, depth, _, rfl, height, _, rfl, hheight, base, _, rfl, -, rfl, rfl⟩ := h
    have hbit : (if mode ≠ 0 then (1 : UInt8) else 0) = mode := by
      by_cases hm : mode = 0
      · simp [hm]
      · rw [if_pos hm, flag_eq_one (fun hlt => hmode (Or.inl hlt)) hm]
    refine ⟨?_, rfl⟩
    simp only [encodeBitmap, if_true, decide_eq_true_eq, height_narrow hheight, hbit,
      List.cons_append, List.nil_append, List.append_assoc]

/-! ## Headers -/

/-- What the reader makes of an object: an unselected bitmap has no profile. -/
def normalize (object : ObjectFile) : ObjectFile :=
  { object with config := { object.config with bitmap := object.config.bitmap.normalize } }

/-- The header fields of the current format. -/
def encodeHeader (object : ObjectFile) : Bytes :=
  magic ++ ([currentFormatVersion, object.config.target.toByte, object.config.mapping.toByte] ++
    (encodeU32 object.config.codeStartAddress ++ ([object.dataAlignment, object.ramAlignment] ++
      encodeBitmap object.config.bitmap)))

/-- An object before its sections and tables are read. -/
def headerOf (object : ObjectFile) : ObjectFile :=
  { config := object.config, dataAlignment := object.dataAlignment,
    ramAlignment := object.ramAlignment }

theorem readMagic_eq_ok {path : String} {bytes rest : Bytes} {u : Unit} :
    readMagic path bytes = .ok (u, rest) ↔ bytes = magic ++ rest := by
  unfold readMagic
  constructor
  · intro h
    split at h
    · rename_i hm
      cases h
      rw [← hm, List.take_append_drop]
    · cases h
  · intro h
    rw [h, if_pos (by simp [magic, nameOf])]
    rfl

theorem readMagic_bind_eq_ok {β : Type} {path : String} {f : Unit → Reader β} {bytes rest : Bytes}
    {r : β} :
    (readMagic path >>= f) bytes = .ok (r, rest) ↔
      ∃ tail, bytes = magic ++ tail ∧ f () tail = .ok (r, rest) := by
  simp only [Reader.bind_eq_ok, readMagic_eq_ok, exists_unit]

theorem enumerator_bind_eq_ok {α β : Type} {value : Option α} {message : String}
    {f : α → Reader β} {bytes rest : Bytes} {r : β} :
    (enumerator value message >>= f) bytes = .ok (r, rest) ↔
      ∃ result, value = some result ∧ f result bytes = .ok (r, rest) := by
  simp only [Reader.bind_eq_ok, enumerator_eq_ok, and_assoc, exists_and_left, exists_eq_left']

theorem readDataAlignment_cons {alignment : UInt8} (h : ¬ badAlignment alignment 128)
    (rest : Bytes) :
    readDataAlignment currentFormatVersion (alignment :: rest) = .ok (alignment, rest) := by
  unfold readDataAlignment
  rw [if_pos (by decide), if_pos (by decide), Reader.bind_of_ok (readU8_cons _ _ _),
    Reader.check_bind h]
  rfl

theorem readRamAlignment_cons {alignment : UInt8} (h : ¬ badAlignment alignment 128)
    (rest : Bytes) :
    readRamAlignment currentFormatVersion (alignment :: rest) = .ok (alignment, rest) := by
  unfold readRamAlignment
  rw [if_pos (by decide), Reader.bind_of_ok (readU8_cons _ _ _), Reader.check_bind h]
  rfl

theorem readHeader_append {object : ObjectFile} (hv : object.Valid) (path : String) (rest : Bytes) :
    readHeader path (object.encodeHeader ++ rest) =
      .ok ((currentFormatVersion, headerOf object.normalize), rest) := by
  have hversion : ¬ (currentFormatVersion < 3 ∨ currentFormatVersion > currentFormatVersion) := by
    decide
  have hprofile : readProfile currentFormatVersion object.config.target
      (encodeBitmap object.config.bitmap ++ rest) = .ok (object.config.bitmap.normalize, rest) :=
    readBitmap_append hv.bitmap hv.bitmapTarget rest
  unfold readHeader encodeHeader
  simp only [List.append_assoc, List.cons_append, List.nil_append]
  rw [Reader.bind_of_ok (readMagic_eq_ok (u := ()) |>.mpr rfl),
    Reader.bind_of_ok (readU8_cons _ _ _), Reader.check_bind hversion,
    Reader.bind_of_ok (readU8_cons _ _ _),
    Reader.bind_of_ok (enumerator_eq_ok.mpr ⟨TargetKind.ofByte_toByte _, rfl⟩),
    Reader.bind_of_ok (readU8_cons _ _ _), Reader.bind_of_ok (readU32_append _ _ _),
    Reader.bind_of_ok (enumerator_eq_ok.mpr ⟨MemoryMapping.ofByte_toByte _, rfl⟩),
    Reader.bind_of_ok (readDataAlignment_cons hv.dataAlignment _),
    Reader.bind_of_ok (readRamAlignment_cons hv.ramAlignment _),
    Reader.bind_of_ok hprofile]
  rfl

/-- Whatever version the header declares, the bitmap it yields is normalized;
in the current version the header is the encoding of what was read. -/
theorem readHeader_sound {path : String} {bytes rest : Bytes} {version : UInt8} {header : ObjectFile}
    (h : readHeader path bytes = .ok ((version, header), rest)) :
    bytes[5]? = some version ∧ header.config.bitmap.normalize = header.config.bitmap ∧
      (version = currentFormatVersion → bytes = header.encodeHeader ++ rest) := by
  simp only [readHeader, readMagic_bind_eq_ok, readU8, readU32, Reader.u8_bind_eq_ok,
    Reader.check_bind_eq_ok, enumerator_bind_eq_ok, Reader.u32_bind_eq_ok] at h
  obtain ⟨_, rfl, v, _, rfl, -, targetByte, _, rfl, target, htarget, mappingByte, _, rfl,
    origin, tail, rfl, mapping, hmapping, h⟩ := h
  rw [Reader.bind_eq_ok] at h
  obtain ⟨dataAlignment, t₁, hdata, h⟩ := h
  rw [Reader.bind_eq_ok] at h
  obtain ⟨ramAlignment, t₂, hram, h⟩ := h
  rw [Reader.bind_eq_ok] at h
  obtain ⟨bitmap, t₃, hbitmap, h⟩ := h
  rw [Reader.pure_eq_ok, Prod.mk.injEq] at h
  obtain ⟨⟨rfl, rfl⟩, rfl⟩ := h
  refine ⟨rfl, ?_, ?_⟩
  · unfold readProfile at hbitmap
    split at hbitmap
    · exact (readBitmap_sound hbitmap).2
    · obtain ⟨rfl, -⟩ := Reader.pure_eq_ok.mp hbitmap
      rfl
  · rintro rfl
    unfold readDataAlignment at hdata
    unfold readRamAlignment at hram
    unfold readProfile at hbitmap
    rw [if_pos (by decide)] at hdata hram hbitmap
    simp only [readU8, Reader.u8_bind_eq_ok, Reader.check_bind_eq_ok, Reader.pure_eq_ok] at hdata hram
    obtain ⟨_, _, rfl, -, rfl, rfl⟩ := hdata
    obtain ⟨_, _, rfl, -, rfl, rfl⟩ := hram
    obtain ⟨rfl, -⟩ := readBitmap_sound hbitmap
    simp only [encodeHeader, TargetKind.toByte_of_ofByte htarget,
      MemoryMapping.toByte_of_ofByte hmapping, List.append_assoc, List.cons_append, List.nil_append]

/-! ## Table records -/

theorem length_le_of_validName {name : Name} (h : validName name = .ok ()) :
    name.length ≤ maxStringBytes := by
  unfold validName at h
  rw [rejectIf_bind_eq_ok] at h
  omega

theorem readSymbol_append {object : ObjectFile} {symbol : SymbolEntry}
    (hv : object.ValidSymbol symbol) (path : String) (rest : Bytes) :
    readSymbol currentFormatVersion path object (encodeSymbol symbol ++ rest) =
      .ok (symbol, rest) := by
  have hsect : (if symbol.sect.toByte > (if currentFormatVersion ≥ 5 then 2 else 1) then none
      else SymbolSection.ofByte symbol.sect.toByte) = some symbol.sect := by
    cases symbol.sect <;> rfl
  unfold readSymbol encodeSymbol
  simp only [List.append_assoc, List.cons_append, List.nil_append]
  rw [Reader.bind_of_ok (readString_append (length_le_of_validName hv.name) _ _),
    Reader.bind_of_ok (readU8_cons _ _ _),
    Reader.bind_of_ok (enumerator_eq_ok.mpr ⟨hsect, rfl⟩),
    Reader.bind_of_ok (readU32_append _ _ _), Reader.check_bind (Nat.not_lt.mpr hv.offset)]
  rfl

theorem readSymbol_sound {object : ObjectFile} {version : UInt8} {path : String}
    {bytes rest : Bytes} {symbol : SymbolEntry}
    (h : readSymbol version path object bytes = .ok (symbol, rest)) :
    bytes = encodeSymbol symbol ++ rest := by
  unfold readSymbol at h
  rw [Reader.bind_eq_ok] at h
  obtain ⟨name, t₁, hname, h⟩ := h
  simp only [readU8, readU32, Reader.u8_bind_eq_ok, enumerator_bind_eq_ok, Reader.u32_bind_eq_ok,
    Reader.check_bind_eq_ok, Reader.pure_eq_ok] at h
  obtain ⟨byte, _, rfl, sect, hsect, offset, _, rfl, -, rfl, rfl⟩ := h
  have hbyte := SymbolSection.toByte_of_ofByte (Option.ite_none_left_eq_some.mp hsect).2
  rw [readString_sound hname]
  simp only [encodeSymbol, hbyte, List.append_assoc, List.cons_append, List.nil_append]

theorem readRelocation_append {object : ObjectFile} {relocation : RelocationEntry}
    (hv : object.ValidRelocation relocation) (path : String) (rest : Bytes) :
    readRelocation currentFormatVersion path object (encodeRelocation relocation ++ rest) =
      .ok (relocation, rest) := by
  have hsect : (if relocation.sectionToPatch.toByte > 1 then none
      else SymbolSection.ofByte relocation.sectionToPatch.toByte) =
        some relocation.sectionToPatch := by
    have hram := hv.sect
    cases hs : relocation.sectionToPatch with
    | code => rfl
    | data => rfl
    | ram => exact absurd hs hram
  have htype : (if relocation.type.toByte > (if currentFormatVersion ≥ 5 then 4 else 3) then none
      else RelocationType.ofByte relocation.type.toByte) = some relocation.type := by
    cases relocation.type <;> rfl
  unfold readRelocation encodeRelocation
  simp only [List.append_assoc, List.cons_append, List.nil_append]
  rw [Reader.bind_of_ok (readString_append (length_le_of_validName hv.name) _ _),
    Reader.bind_of_ok (readU8_cons _ _ _),
    Reader.bind_of_ok (enumerator_eq_ok.mpr ⟨hsect, rfl⟩),
    Reader.bind_of_ok (readU32_append _ _ _), Reader.bind_of_ok (readU8_cons _ _ _),
    Reader.bind_of_ok (enumerator_eq_ok.mpr ⟨htype, rfl⟩),
    Reader.bind_of_ok (Reader.validated_eq_ok (u := ()) |>.mpr
      ⟨(validateRelocation_eq_ok hv.name).mpr ⟨hv.sect, hv.inside⟩, rfl⟩)]
  rfl

theorem readRelocation_sound {object : ObjectFile} {version : UInt8} {path : String}
    {bytes rest : Bytes} {relocation : RelocationEntry}
    (h : readRelocation version path object bytes = .ok (relocation, rest)) :
    bytes = encodeRelocation relocation ++ rest := by
  unfold readRelocation at h
  rw [Reader.bind_eq_ok] at h
  obtain ⟨name, t₁, hname, h⟩ := h
  simp only [readU8, readU32, Reader.u8_bind_eq_ok, enumerator_bind_eq_ok, Reader.u32_bind_eq_ok,
    Reader.validated_bind_eq_ok, Reader.pure_eq_ok] at h
  obtain ⟨byte, _, rfl, sect, hsect, offset, _, rfl, kind, _, rfl, type, htype, -, rfl, rfl⟩ := h
  have hbyte := SymbolSection.toByte_of_ofByte (Option.ite_none_left_eq_some.mp hsect).2
  have hkind := RelocationType.toByte_of_ofByte (Option.ite_none_left_eq_some.mp htype).2
  rw [readString_sound hname]
  simp only [encodeRelocation, hbyte, hkind, List.append_assoc, List.cons_append, List.nil_append]

/-! ## Whole objects -/

/-- An object before its tables are read. -/
def sectionsOf (object : ObjectFile) : ObjectFile :=
  { object with symbolTable := [], relocationTable := [] }

theorem readSections_append {object : ObjectFile} (hv : object.Valid) (rest : Bytes) :
    readSections currentFormatVersion object.headerOf (encodeVec object.codeSection ++
        (encodeVec object.dataSection ++ (encodeVec object.ramSection ++ rest))) =
      .ok (object.sectionsOf, rest) := by
  have hram : readRamSection currentFormatVersion (encodeVec object.ramSection ++ rest) =
      .ok (object.ramSection, rest) := readVec_append hv.ramSize (by decide) _ _
  unfold readSections
  rw [Reader.bind_of_ok (readVec_append hv.codeSize (by decide) _ _),
    Reader.bind_of_ok (readVec_append hv.dataSize (by decide) _ _), Reader.bind_of_ok hram]
  rfl

theorem readSections_fields {version : UInt8} {header object : ObjectFile} {bytes rest : Bytes}
    (h : readSections version header bytes = .ok (object, rest)) :
    object = { header with codeSection := object.codeSection, dataSection := object.dataSection,
                           ramSection := object.ramSection } := by
  simp only [readSections, Reader.bind_eq_ok, Reader.pure_eq_ok] at h
  obtain ⟨code, _, -, data, _, -, ram, _, -, rfl, -⟩ := h
  rfl

theorem readSections_sound {header object : ObjectFile} {bytes rest : Bytes}
    (h : readSections currentFormatVersion header bytes = .ok (object, rest)) :
    bytes = encodeVec object.codeSection ++ (encodeVec object.dataSection ++
      (encodeVec object.ramSection ++ rest)) := by
  unfold readSections at h
  rw [Reader.bind_eq_ok] at h
  obtain ⟨code, t₁, hcode, h⟩ := h
  rw [Reader.bind_eq_ok] at h
  obtain ⟨data, t₂, hdata, h⟩ := h
  rw [Reader.bind_eq_ok] at h
  obtain ⟨ram, t₃, hram, h⟩ := h
  obtain ⟨rfl, rfl⟩ := Reader.pure_eq_ok.mp h
  have hram' : readVec 65536 "RAM section" t₂ = .ok (ram, t₃) := hram
  rw [readVec_sound hcode, readVec_sound hdata, readVec_sound hram']

theorem encodeSymbol_length (symbol : SymbolEntry) :
    (encodeSymbol symbol).length = symbolBytes symbol := by
  simp only [encodeSymbol, encodeString, symbolBytes, List.length_append, encodeU32_length,
    List.length_cons, List.length_nil]
  omega

theorem encodeRelocation_length (relocation : RelocationEntry) :
    (encodeRelocation relocation).length = relocationBytes relocation := by
  simp only [encodeRelocation, encodeString, relocationBytes, List.length_append, encodeU32_length,
    List.length_cons, List.length_nil]
  omega

/-- The header and sections alone decide what table entries are checked against. -/
theorem ValidSymbol.of_sections {object other : ObjectFile} {symbol : SymbolEntry}
    (hv : object.ValidSymbol symbol) (h : other.sectionBytes = object.sectionBytes) :
    other.ValidSymbol symbol := ⟨hv.name, by rw [h]; exact hv.offset⟩

theorem ValidRelocation.of_sections {object other : ObjectFile} {relocation : RelocationEntry}
    (hv : object.ValidRelocation relocation) (h : other.sectionBytes = object.sectionBytes) :
    other.ValidRelocation relocation := ⟨hv.notHint, hv.name, hv.sect, by rw [h]; exact hv.inside⟩

theorem table_count {α : Type} {encode : α → Bytes} {width limit : Nat} {values : List α}
    (h : ∀ value ∈ values, width ≤ (encode value).length) (hw : 0 < width)
    (hl : values.length ≤ limit) (hlimit : limit < 2 ^ 32) (rest : Bytes) :
    (UInt32.ofNat values.length).toNat = values.length ∧
      ¬ (values.length > limit ∨ values.length > (values.flatMap encode ++ rest).length / width) := by
  have hmul := Reader.length_mul_le_flatMap values h
  refine ⟨by rw [UInt32.toNat_ofNat']; omega, ?_⟩
  have hdiv : values.length ≤ (values.flatMap encode ++ rest).length / width := by
    rw [Nat.le_div_iff_mul_le hw, List.length_append]
    omega
  omega

theorem readTables_append {object : ObjectFile} (hv : object.Valid) (path : String)
    (rest : Bytes) :
    readTables currentFormatVersion path object.sectionsOf
        (encodeU32 (UInt32.ofNat object.symbolTable.length) ++
          (object.symbolTable.flatMap encodeSymbol ++
            (encodeU32 (UInt32.ofNat object.relocationTable.length) ++
              (object.relocationTable.flatMap encodeRelocation ++ rest)))) =
      .ok (object, rest) := by
  have hs : object.sectionsOf.sectionBytes = object.sectionBytes := by
    funext sect
    cases sect <;> rfl
  have hsym : ∀ symbol ∈ object.symbolTable, 10 ≤ (encodeSymbol symbol).length := by
    intro symbol hm
    have hne := List.length_pos_of_ne_nil (validName_ne_nil (hv.symbols symbol hm).name)
    rw [encodeSymbol_length, symbolBytes]
    omega
  have hrel : ∀ relocation ∈ object.relocationTable, 11 ≤ (encodeRelocation relocation).length := by
    intro relocation hm
    have hne := List.length_pos_of_ne_nil (validName_ne_nil (hv.relocations relocation hm).name)
    rw [encodeRelocation_length, relocationBytes]
    omega
  obtain ⟨hsymLen, hsymOk⟩ := table_count hsym (by decide) hv.symbolCount (by decide)
    (encodeU32 (UInt32.ofNat object.relocationTable.length) ++
      (object.relocationTable.flatMap encodeRelocation ++ rest))
  obtain ⟨hrelLen, hrelOk⟩ := table_count hrel (by decide) hv.relocationCount (by decide) rest
  unfold readTables
  rw [Reader.bind_of_ok (readU32_append _ _ _), Reader.remaining_bind_run, hsymLen,
    Reader.check_bind hsymOk,
    Reader.bind_of_ok (Reader.many_append _ (fun symbol hm rest =>
      readSymbol_append ((hv.symbols symbol hm).of_sections hs) path rest) _),
    Reader.bind_of_ok (readU32_append _ _ _), Reader.remaining_bind_run, hrelLen,
    Reader.check_bind hrelOk,
    Reader.bind_of_ok (Reader.many_append _ (fun relocation hm rest =>
      readRelocation_append ((hv.relocations relocation hm).of_sections hs) path rest) _)]
  rfl

theorem readTables_sound {version : UInt8} {path : String} {object result : ObjectFile}
    {bytes rest : Bytes} (h : readTables version path object bytes = .ok (result, rest)) :
    (result = { object with symbolTable := result.symbolTable,
                            relocationTable := result.relocationTable }) ∧
      bytes = encodeU32 (UInt32.ofNat result.symbolTable.length) ++
        (result.symbolTable.flatMap encodeSymbol ++
          (encodeU32 (UInt32.ofNat result.relocationTable.length) ++
            (result.relocationTable.flatMap encodeRelocation ++ rest))) := by
  simp only [readTables, readU32, Reader.u32_bind_eq_ok, Reader.remaining_bind_run,
    Reader.check_bind_eq_ok] at h
  obtain ⟨symCount, _, rfl, -, h⟩ := h
  rw [Reader.bind_eq_ok] at h
  obtain ⟨symbols, _, hsymbols, h⟩ := h
  simp only [Reader.u32_bind_eq_ok, Reader.remaining_bind_run, Reader.check_bind_eq_ok] at h
  obtain ⟨relocCount, _, rfl, -, h⟩ := h
  rw [Reader.bind_eq_ok] at h
  obtain ⟨relocations, _, hrelocations, h⟩ := h
  obtain ⟨rfl, rfl⟩ := Reader.pure_eq_ok.mp h
  obtain ⟨hsymCount, rfl, -⟩ := Reader.many_sound (P := fun _ => True)
    (fun _ _ _ hs => ⟨readSymbol_sound hs, trivial⟩) hsymbols
  obtain ⟨hrelCount, rfl, -⟩ := Reader.many_sound (P := fun _ => True)
    (fun _ _ _ hs => ⟨readRelocation_sound hs, trivial⟩) hrelocations
  refine ⟨rfl, ?_⟩
  simp only [hsymCount, hrelCount, UInt32.ofNat_toNat]

theorem encode_eq (object : ObjectFile) :
    object.encode = object.encodeHeader ++ (encodeVec object.codeSection ++
      (encodeVec object.dataSection ++ (encodeVec object.ramSection ++
        (encodeU32 (UInt32.ofNat object.symbolTable.length) ++
          (object.symbolTable.flatMap encodeSymbol ++
            (encodeU32 (UInt32.ofNat object.relocationTable.length) ++
              (object.relocationTable.flatMap encodeRelocation ++ []))))))) := by
  simp only [encode, encodeHeader, List.append_assoc, List.append_nil]

theorem encode_length (object : ObjectFile) : object.encode.length = object.serializedBytes := by
  have hsym : (object.symbolTable.flatMap encodeSymbol).length =
      (object.symbolTable.map symbolBytes).sum := by
    rw [List.length_flatMap]
    exact congrArg List.sum (List.map_congr_left fun symbol _ => encodeSymbol_length symbol)
  have hrel : (object.relocationTable.flatMap encodeRelocation).length =
      (object.relocationTable.map relocationBytes).sum := by
    rw [List.length_flatMap]
    exact congrArg List.sum (List.map_congr_left fun r _ => encodeRelocation_length r)
  have hbitmap : (encodeBitmap object.config.bitmap).length =
      1 + (if object.config.bitmap.enabled then 10 else 0) := by
    unfold encodeBitmap
    split <;> rfl
  have hmagic : magic.length = 5 := rfl
  rw [encode_eq, serializedBytes]
  simp only [encodeHeader, encodeVec, List.length_append, List.length_cons, List.length_nil,
    encodeU32_length, hsym, hrel, hbitmap, hmagic]
  omega

theorem valid_normalize {object : ObjectFile} (hv : object.Valid) : object.normalize.Valid := by
  cases he : object.config.bitmap.enabled with
  | true =>
      have hsame : object.normalize = object := by
        unfold normalize
        rw [BitmapConfig.normalize_of_enabled he]
      rwa [hsame]
  | false =>
      have hoff : object.config.bitmap.normalize = {} := by simp [BitmapConfig.normalize, he]
      exact {
        alignment := hv.alignment
        bitmap := by simp only [normalize, hoff]; rfl
        bitmapTarget := by simp [normalize, hoff]
        dataAlignment := hv.dataAlignment
        ramAlignment := hv.ramAlignment
        codeSize := hv.codeSize
        dataSize := hv.dataSize
        ramSize := hv.ramSize
        symbolCount := hv.symbolCount
        relocationCount := hv.relocationCount
        symbols := fun symbol hm => (hv.symbols symbol hm).of_sections rfl
        names := hv.names
        relocations := fun relocation hm => (hv.relocations relocation hm).of_sections rfl
        operands := hv.operands
        size := by
          have hsize := hv.size
          simp only [serializedBytes, normalize, hoff, he] at hsize ⊢
          exact hsize }

theorem encode_normalize (object : ObjectFile) : object.normalize.encode = object.encode := by
  have hbitmap : encodeBitmap object.config.bitmap.normalize = encodeBitmap object.config.bitmap := by
    unfold BitmapConfig.normalize encodeBitmap
    cases he : object.config.bitmap.enabled <;> simp [he]
  simp only [encode, normalize, hbitmap]

theorem readStream_encode {object : ObjectFile} (hv : object.Valid)
    (hn : object.normalize = object) (path : String) :
    readStream path object.encode = .ok (object, []) := by
  have hsize : ¬ object.encode.length > maxObjectBytes := by
    rw [encode_length]
    exact Nat.not_lt.mpr hv.size
  have hheader := readHeader_append hv path
  rw [hn] at hheader
  unfold readStream
  rw [Reader.remaining_bind_run, Reader.check_bind hsize, encode_eq,
    Reader.bind_of_ok (hheader _)]
  dsimp only
  rw [Reader.bind_of_ok (readSections_append hv _), Reader.bind_of_ok (readTables_append hv _ _),
    Reader.remaining_bind_run, Reader.check_bind (by simp),
    Reader.bind_of_ok (Reader.validated_eq_ok (u := ()) |>.mpr ⟨validate_eq_ok.mpr hv, rfl⟩)]
  rfl

theorem normalize_normalize (object : ObjectFile) : object.normalize.normalize = object.normalize := by
  have hbitmap : object.config.bitmap.normalize.normalize = object.config.bitmap.normalize := by
    unfold BitmapConfig.normalize
    cases he : object.config.bitmap.enabled <;> simp [he]
  simp only [normalize, hbitmap]

theorem readBytes_encode {object : ObjectFile} (hv : object.Valid) :
    readBytes object.encode = .ok object.normalize := by
  have hsize : ¬ object.encode.length > maxObjectBytes := by
    rw [encode_length]
    exact Nat.not_lt.mpr hv.size
  have hstream := readStream_encode (valid_normalize hv) (normalize_normalize object) "<memory>"
  rw [encode_normalize] at hstream
  unfold readBytes
  rw [rejectIf_bind_eq_ok, hstream]
  exact ⟨hsize, rfl⟩

/-- An accepted stream decodes to a valid, normalized object, and in the
current version it is that object's encoding. -/
theorem readStream_sound {path : String} {bytes rest : Bytes} {object : ObjectFile}
    (h : readStream path bytes = .ok (object, rest)) :
    object.Valid ∧ object.normalize = object ∧
      (bytes[5]? = some currentFormatVersion → bytes = object.encode) := by
  unfold readStream at h
  rw [Reader.remaining_bind_run, Reader.check_bind_eq_ok, Reader.bind_eq_ok] at h
  obtain ⟨-, ⟨version, header⟩, _, hheader, h⟩ := h
  rw [Reader.bind_eq_ok] at h
  obtain ⟨sectioned, _, hsections, h⟩ := h
  rw [Reader.bind_eq_ok] at h
  obtain ⟨full, _, htables, h⟩ := h
  simp only [Reader.remaining_bind_run, Reader.check_bind_eq_ok, Reader.validated_bind_eq_ok,
    Reader.pure_eq_ok] at h
  obtain ⟨hleft, hvalid, rfl, rfl⟩ := h
  obtain ⟨hversion, hnormal, hcurrent⟩ := readHeader_sound hheader
  obtain ⟨hfull, htail⟩ := readTables_sound htables
  have hfields := readSections_fields hsections
  rw [hfields] at hfull
  have hconfig : full.config = header.config := by rw [hfull]
  refine ⟨validate_eq_ok.mp hvalid, ?_, ?_⟩
  · unfold normalize
    rw [hconfig, hnormal, ← hconfig]
  · intro hbyte
    obtain rfl : version = currentFormatVersion := Option.some.inj (hversion.symm.trans hbyte)
    have hheaderBytes : full.encodeHeader = header.encodeHeader := by rw [hfull]; rfl
    have hsectionBytes := readSections_sound hsections
    rw [hfields] at hsectionBytes
    have hempty : _ = ([] : Bytes) := List.length_eq_zero_iff.mp (not_not.mp hleft)
    rw [encode_eq, hheaderBytes, hcurrent rfl, hsectionBytes, htail, hempty, hfull]

theorem readBytes_sound {bytes : Bytes} {object : ObjectFile} (h : readBytes bytes = .ok object) :
    object.Valid ∧ object.normalize = object ∧
      (bytes[5]? = some currentFormatVersion → bytes = object.encode) := by
  unfold readBytes at h
  rw [rejectIf_bind_eq_ok, bind_eq_ok] at h
  obtain ⟨-, ⟨result, rest⟩, hstream, hresult⟩ := h
  cases hresult
  exact readStream_sound hstream

/-- Serialization is canonical. A validated object is written and read back with
every field it had; a current-version file that is accepted is exactly what the
writer emits for it; and an accepted file of any version, written again in the
current one, decodes to the same object. -/
theorem serialization_round_trip :
    (∀ object : ObjectFile, object.validate = .ok () →
      ∃ bytes decoded, object.write = .ok bytes ∧ readBytes bytes = .ok decoded ∧
        decoded.config.target = object.config.target ∧
        decoded.config.mapping = object.config.mapping ∧
        decoded.config.codeStartAddress = object.config.codeStartAddress ∧
        decoded.dataAlignment = object.dataAlignment ∧
        decoded.ramAlignment = object.ramAlignment ∧
        BitmapConfig.same decoded.config.bitmap object.config.bitmap = true ∧
        decoded.codeSection = object.codeSection ∧ decoded.dataSection = object.dataSection ∧
        decoded.ramSection = object.ramSection ∧ decoded.symbolTable = object.symbolTable ∧
        decoded.relocationTable = object.relocationTable) ∧
    (∀ (bytes : Bytes) (object : ObjectFile), readBytes bytes = .ok object →
      bytes[5]? = some currentFormatVersion → object.write = .ok bytes) ∧
    (∀ (bytes : Bytes) (object : ObjectFile), readBytes bytes = .ok object →
      ∃ again, object.write = .ok again ∧ readBytes again = .ok object) := by
  have hwrite : ∀ object : ObjectFile, object.Valid → object.write = .ok object.encode := by
    intro object hv
    rw [write, validate_eq_ok.mpr hv]
    rfl
  refine ⟨?_, ?_, ?_⟩
  · intro object hvalid
    have hv := validate_eq_ok.mp hvalid
    exact ⟨object.encode, object.normalize, hwrite object hv, readBytes_encode hv, rfl, rfl, rfl,
      rfl, rfl, BitmapConfig.same_normalize _, rfl, rfl, rfl, rfl, rfl⟩
  · intro bytes object h hversion
    obtain ⟨hv, -, hcanonical⟩ := readBytes_sound h
    rw [hwrite object hv, ← hcanonical hversion]
  · intro bytes object h
    obtain ⟨hv, hnormal, -⟩ := readBytes_sound h
    refine ⟨object.encode, hwrite object hv, ?_⟩
    rw [readBytes_encode hv, hnormal]

/-- A bank and offset pair of relocations against one DATA symbol. -/
def farReference : ObjectFile where
  codeSection := [0xa0, 0, 0xf0, 0, 0]
  dataSection := [0x95]
  symbolTable := [⟨nameOf "value", .data, 0⟩]
  relocationTable := [⟨nameOf "value", .code, 0, .addr24Bank⟩, ⟨nameOf "value", .code, 2, .addr24Offset⟩]

theorem farReference_round_trip : farReference.validate = .ok () ∧
    ∃ bytes decoded, farReference.write = .ok bytes ∧ readBytes bytes = .ok decoded ∧
      decoded.relocationTable = farReference.relocationTable := by
  have hvalid : farReference.validate = .ok () := by rfl
  obtain ⟨bytes, decoded, hwrite, hread, h⟩ := serialization_round_trip.1 farReference hvalid
  exact ⟨hvalid, bytes, decoded, hwrite, hread, h.2.2.2.2.2.2.2.2.2.2⟩

end ObjectFile

end Disco
