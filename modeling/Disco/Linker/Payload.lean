import Disco.Linker.Linked

/-! # The payload of a link

Where every byte of a linked payload comes from. The same bases place the
sections, define the symbols and locate the patches; every byte is startup
code, padding, a relocation operand, or the input byte at its place.
-/

namespace Disco.Linker

open Library

/-- A byte of a section that one of the object's relocations patches. -/
def IsOperand (object : ObjectFile) (sect : SymbolSection) (k : Nat) : Prop :=
  ∃ relocation ∈ object.relocationTable, relocation.sectionToPatch = sect ∧
    relocation.span.start ≤ k ∧ k < relocation.span.stop

/-- The payload position at which the section of a relocation starts. -/
def Image.patchStart (image : Image) (bases : Bases) (relocation : RelocationEntry) : Nat :=
  if relocation.sectionToPatch = .code then bases.code else image.finalCode.length + bases.data

/-- The address of a public symbol, from its object's bases. -/
def publicAddress (options : Options) (image : Image) (bases : Bases) (sect : SymbolSection)
    (offset : Nat) : Nat :=
  match sect with
  | .code => image.origin + bases.code + offset
  | .data => image.origin + image.finalCode.length + bases.data + offset
  | .ram => publicRamAddress options (options.ramOrigin + bases.ram + offset)

/-- A payload laid out at the given bases: startup code, each object's CODE,
then each object's DATA, aligned, in order and apart. -/
structure PayloadPlaced (options : Options) (image : Image) (bases : List Bases) : Prop where
  count : bases.length = image.objects.length
  startupCode : makeStartup options image.config image.finalRam = .ok image.startup
  startup : image.payload.take image.startup.bytes.length = image.startupBytes options
  codeAligned : ∀ (i : Nat) (object : ObjectFile) (base : Bases) (alignment : Nat),
    image.objects[i]? = some object → bases[i]? = some base →
      codeAlignment object = .ok alignment → (image.origin + base.code) % alignment = 0
  dataAligned : ∀ (i : Nat) (object : ObjectFile) (base : Bases),
    image.objects[i]? = some object → bases[i]? = some base →
      (image.origin + image.finalCode.length + base.data) % object.dataAlignment.toNat = 0
  inside : ∀ (i : Nat) (object : ObjectFile) (base : Bases),
    image.objects[i]? = some object → bases[i]? = some base →
      image.startup.bytes.length ≤ base.code ∧
      base.code + object.codeSection.length ≤ image.finalCode.length ∧
      base.data + object.dataSection.length ≤ image.finalData.length
  ordered : ∀ (i j : Nat) (object : ObjectFile) (base next : Bases), i < j →
    image.objects[i]? = some object → bases[i]? = some base → bases[j]? = some next →
      base.code + object.codeSection.length ≤ next.code ∧
      base.data + object.dataSection.length ≤ next.data
  codeByte : ∀ (i : Nat) (object : ObjectFile) (base : Bases) (k : Nat),
    image.objects[i]? = some object → bases[i]? = some base →
      k < object.codeSection.length → ¬ IsOperand object .code k →
        image.payload[base.code + k]? = object.codeSection[k]?
  dataByte : ∀ (i : Nat) (object : ObjectFile) (base : Bases) (k : Nat),
    image.objects[i]? = some object → bases[i]? = some base →
      k < object.dataSection.length → ¬ IsOperand object .data k →
        image.payload[image.finalCode.length + base.data + k]? = object.dataSection[k]?
  codePadding : ∀ p, image.startup.bytes.length ≤ p → p < image.finalCode.length →
    (∀ (i : Nat) (object : ObjectFile) (base : Bases), image.objects[i]? = some object →
      bases[i]? = some base → p < base.code ∨ base.code + object.codeSection.length ≤ p) →
        image.payload[p]? = some 1
  dataPadding : ∀ p, p < image.finalData.length →
    (∀ (i : Nat) (object : ObjectFile) (base : Bases), image.objects[i]? = some object →
      bases[i]? = some base → p < base.data ∨ base.data + object.dataSection.length ≤ p) →
        image.payload[image.finalCode.length + p]? = some 0
  symbols : ∀ (i : Nat) (object : ObjectFile) (base : Bases), image.objects[i]? = some object →
    bases[i]? = some base → ∀ symbol ∈ object.symbolTable, isPrivate symbol.name = false →
      ∃ definition, lookup image.definitions symbol.name = some definition ∧
        definition.sect = symbol.sect ∧
        definition.address = publicAddress options image base symbol.sect symbol.offset.toNat
  relocations : ∀ (i : Nat) (object : ObjectFile) (base : Bases),
    image.objects[i]? = some object → bases[i]? = some base →
      ∀ relocation ∈ object.relocationTable, ∃ target,
        resolve (image.context options) object base relocation = .ok target ∧
        ∀ write ∈ operandWrites relocation.type relocation.patchOffset.toNat target.address,
          image.payload[image.patchStart base relocation + write.1]? = some write.2

/-! ## Items of an image -/

theorem Image.item (image : Image) {i : Nat} {object : ObjectFile} {base : Bases}
    (ho : image.objects[i]? = some object) (hb : image.bases[i]? = some base) :
    image.items[i]? = some (object, base) :=
  List.getElem?_zip_eq_some.mpr ⟨ho, hb⟩

theorem Image.startupBytes_length (image : Image) (options : Options) :
    (image.startupBytes options).length = image.startup.bytes.length :=
  applyWrites_length _ _

theorem mem_zip_map {objects : List ObjectFile} {bases : List Bases} {f : Bases → Nat}
    {entry : ObjectFile × Nat} :
    entry ∈ objects.zip (bases.map f) ↔ ∃ (i : Nat) (object : ObjectFile) (base : Bases),
      objects[i]? = some object ∧ bases[i]? = some base ∧ entry = (object, f base) := by
  rw [List.mem_iff_getElem?]
  constructor
  · intro h
    obtain ⟨i, hi⟩ := h
    obtain ⟨ho, hb⟩ := List.getElem?_zip_eq_some.mp hi
    rw [List.getElem?_map, Option.map_eq_some_iff] at hb
    obtain ⟨base, hbase, heq⟩ := hb
    exact ⟨i, entry.1, base, ho, hbase, by rw [heq]⟩
  · intro h
    obtain ⟨i, object, base, ho, hb, rfl⟩ := h
    exact ⟨i, List.getElem?_zip_eq_some.mpr ⟨ho, by simp [hb]⟩⟩

section Items

variable {options : Options} {image : Image} (hl : Linked options image)

include hl

theorem Linked.codeCount : image.codeBases.length = image.objects.length := by
  rw [hl.codeBases, placeBases_length, List.length_map]

theorem Linked.ramCount : image.ramBases.length = image.objects.length := by
  rw [hl.ramBases, placeBases_length, List.length_map]

theorem Linked.basesCount : image.bases.length = image.objects.length :=
  linkBases_length _ hl.codeCount hl.ramCount

theorem Linked.codeBase : placeBases image.origin (image.objects.map codePiece)
    image.startup.bytes.length = image.bases.map Bases.code := by
  rw [Image.bases, linkBases_code hl.codeCount hl.ramCount, hl.codeBases]

theorem Linked.dataBase : placeBases image.dataStart (image.objects.map dataPiece) 0 =
    image.bases.map Bases.data := by
  rw [Image.bases, linkBases_data hl.codeCount hl.ramCount]

theorem Linked.ramBase : placeBases options.ramOrigin (image.objects.map ramPiece) 0 =
    image.bases.map Bases.ram := by
  rw [Image.bases, linkBases_ram hl.codeCount hl.ramCount, hl.ramBases]

/-- Patching moved no CODE section. -/
theorem Linked.codeItemBase : placeBases image.origin
    (image.items.map (codeItem (image.context options))) (image.startupBytes options).length =
      image.bases.map Bases.code := by
  rw [image.startupBytes_length, ← hl.codeBase, ← items_fst image.dataStart hl.codeCount hl.ramCount codePiece]
  exact placeBases_patched _ _ _ _ _

theorem Linked.dataItemBase : placeBases image.dataStart
    (image.items.map (dataItem (image.context options))) 0 = image.bases.map Bases.data := by
  rw [← hl.dataBase, ← items_fst image.dataStart hl.codeCount hl.ramCount dataPiece]
  exact placeBases_patched _ _ _ _ _

theorem Linked.codePlaced : Placed image.origin image.startup.bytes.length
    (placeEnd image.origin (image.objects.map codePiece) image.startup.bytes.length)
    (image.objects.map codePiece) (image.bases.map Bases.code) := by
  rw [← hl.codeBase]
  apply placed_placeBases
  intro piece hm
  obtain ⟨object, ho, rfl⟩ := List.mem_map.mp hm
  exact codePiece_pos (hl.valid object ho)

theorem Linked.dataPlaced : Placed image.dataStart 0
    (placeEnd image.dataStart (image.objects.map dataPiece) 0)
    (image.objects.map dataPiece) (image.bases.map Bases.data) := by
  rw [← hl.dataBase]
  apply placed_placeBases
  intro piece hm
  obtain ⟨object, ho, rfl⟩ := List.mem_map.mp hm
  exact dataPiece_pos (hl.valid object ho)

theorem Linked.placedCode_length : (place 1 image.origin
    (image.items.map (codeItem (image.context options))) (image.startupBytes options)).length =
      placeEnd image.origin (image.objects.map codePiece) image.startup.bytes.length := by
  rw [place_length, image.startupBytes_length, ← items_fst image.dataStart hl.codeCount hl.ramCount codePiece]
  exact placeEnd_patched _ _ _ _ _

theorem Linked.finalCode_length : image.finalCode.length =
    placeEnd image.origin (image.objects.map codePiece) image.startup.bytes.length +
      dataGap image := by
  rw [hl.finalCode, List.length_append, List.length_replicate, hl.placedCode_length]

theorem Linked.finalData_length : image.finalData.length =
    placeEnd image.dataStart (image.objects.map dataPiece) 0 := by
  rw [hl.finalData, place_length, ← items_fst image.dataStart hl.codeCount hl.ramCount dataPiece]
  exact placeEnd_patched _ _ _ _ _

/-- Where an object's sections lie. -/
theorem Linked.inside {i : Nat} {object : ObjectFile} {base : Bases}
    (ho : image.objects[i]? = some object) (hb : image.bases[i]? = some base) :
    image.startup.bytes.length ≤ base.code ∧
      base.code + object.codeSection.length ≤
        placeEnd image.origin (image.objects.map codePiece) image.startup.bytes.length ∧
      base.data + object.dataSection.length ≤ image.finalData.length := by
  have hcode := hl.codePlaced.within i (codePiece object) base.code (by simp [ho]) (by simp [hb])
  have hdata := hl.dataPlaced.within i (dataPiece object) base.data (by simp [ho]) (by simp [hb])
  rw [hl.finalData_length]
  exact ⟨hcode.1, hcode.2, hdata.2⟩

/-! ## Bytes -/

/-- A byte of an object's CODE after relocation. -/
theorem Linked.codeAt {i k : Nat} {object : ObjectFile} {base : Bases}
    (ho : image.objects[i]? = some object) (hb : image.bases[i]? = some base)
    (hk : k < object.codeSection.length) :
    image.payload[base.code + k]? =
      (codeItem (image.context options) (object, base)).bytes[k]? := by
  have hinside := hl.inside ho hb
  rw [Image.payload, hl.finalCode, List.append_assoc,
    List.getElem?_append_left (by rw [hl.placedCode_length]; omega)]
  refine place_getElem? _ _ _ _ (i := i) ?_ ?_ ?_
  · simp [image.item ho hb]
  · rw [hl.codeItemBase]
    simp [hb]
  · simpa [codeItem, codePiece] using hk

/-- A byte of an object's DATA after relocation. -/
theorem Linked.dataAt {i k : Nat} {object : ObjectFile} {base : Bases}
    (ho : image.objects[i]? = some object) (hb : image.bases[i]? = some base)
    (hk : k < object.dataSection.length) :
    image.payload[image.finalCode.length + base.data + k]? =
      (dataItem (image.context options) (object, base)).bytes[k]? := by
  rw [Image.payload, Nat.add_assoc, List.getElem?_append_right (Nat.le_add_right _ _),
    Nat.add_sub_cancel_left, hl.finalData]
  refine place_getElem? _ _ _ _ (i := i) ?_ ?_ ?_
  · simp [image.item ho hb]
  · rw [List.length_nil, hl.dataItemBase]
    simp [hb]
  · simpa [dataItem, dataPiece] using hk

/-- Every operand byte is found in the payload. -/
theorem Linked.operandAt {i : Nat} {object : ObjectFile} {base : Bases}
    (ho : image.objects[i]? = some object) (hb : image.bases[i]? = some base)
    {relocation : RelocationEntry} (hr : relocation ∈ object.relocationTable) {write : Write}
    (hw : write ∈ relocationWrites (image.context options) object base relocation) :
    image.payload[image.patchStart base relocation + write.1]? = some write.2 := by
  have hv := hl.valid object (List.mem_of_getElem? ho)
  have hlt := relocationWrites_lt (hv.relocations relocation hr) hw
  cases hs : relocation.sectionToPatch with
  | code =>
      rw [hs] at hlt
      rw [Image.patchStart, if_pos hs, hl.codeAt ho hb hlt]
      exact patched_operand (patchesCode_table object) (operands_filter hv _)
        (List.mem_filter.mpr ⟨hr, by simp [patchesCode, hs]⟩) hw hlt
  | data =>
      rw [hs] at hlt
      rw [Image.patchStart, if_neg (by simp [hs]), hl.dataAt ho hb hlt]
      exact patched_operand (patchesData_table hv) (operands_filter hv _)
        (List.mem_filter.mpr ⟨hr, by simp [patchesCode, hs]⟩) hw hlt
  | ram => exact absurd hs (hv.relocations relocation hr).sect

/-- Every CODE byte that is no operand is the input byte. -/
theorem Linked.codeByte {i k : Nat} {object : ObjectFile} {base : Bases}
    (ho : image.objects[i]? = some object) (hb : image.bases[i]? = some base)
    (hk : k < object.codeSection.length) (hn : ¬ IsOperand object .code k) :
    image.payload[base.code + k]? = object.codeSection[k]? := by
  rw [hl.codeAt ho hb hk]
  apply patched_other
  intro relocation hm hspan
  exact hn ⟨relocation, (List.mem_filter.mp hm).1, patchesCode_table object relocation hm, hspan⟩

/-- Every DATA byte that is no operand is the input byte. -/
theorem Linked.dataByte {i k : Nat} {object : ObjectFile} {base : Bases}
    (ho : image.objects[i]? = some object) (hb : image.bases[i]? = some base)
    (hk : k < object.dataSection.length) (hn : ¬ IsOperand object .data k) :
    image.payload[image.finalCode.length + base.data + k]? = object.dataSection[k]? := by
  have hv := hl.valid object (List.mem_of_getElem? ho)
  rw [hl.dataAt ho hb hk]
  apply patched_other
  intro relocation hm hspan
  exact hn ⟨relocation, (List.mem_filter.mp hm).1, patchesData_table hv relocation hm, hspan⟩

/-! ## Padding -/

/-- Inside CODE, what belongs to no object is NOP. -/
theorem Linked.codePadding {p : Nat} (hle : image.startup.bytes.length ≤ p)
    (hlt : p < image.finalCode.length)
    (hout : ∀ (i : Nat) (object : ObjectFile) (base : Bases), image.objects[i]? = some object →
      image.bases[i]? = some base → p < base.code ∨ base.code + object.codeSection.length ≤ p) :
    image.payload[p]? = some 1 := by
  rw [Image.payload, List.getElem?_append_left hlt, hl.finalCode]
  by_cases hp : p < placeEnd image.origin (image.objects.map codePiece) image.startup.bytes.length
  · rw [List.getElem?_append_left (by rw [hl.placedCode_length]; exact hp)]
    apply place_fill
    · rw [image.startupBytes_length]
      exact hle
    · rw [hl.placedCode_length]
      exact hp
    · intro i piece base hpiece hbase
      rw [hl.codeItemBase, List.getElem?_map, Option.map_eq_some_iff] at hbase
      rw [List.getElem?_map, Option.map_eq_some_iff] at hpiece
      obtain ⟨bases, hb, rfl⟩ := hbase
      obtain ⟨⟨object, other⟩, hitem, rfl⟩ := hpiece
      obtain ⟨ho, -⟩ := List.getElem?_zip_eq_some.mp hitem
      simpa [codeItem, codePiece] using hout i object bases ho hb
  · rw [List.getElem?_append_right (by rw [hl.placedCode_length]; omega), List.getElem?_replicate,
      if_pos]
    rw [hl.finalCode_length] at hlt
    rw [hl.placedCode_length]
    omega

/-- Inside DATA, what belongs to no object is zero. -/
theorem Linked.dataPadding {p : Nat} (hlt : p < image.finalData.length)
    (hout : ∀ (i : Nat) (object : ObjectFile) (base : Bases), image.objects[i]? = some object →
      image.bases[i]? = some base → p < base.data ∨ base.data + object.dataSection.length ≤ p) :
    image.payload[image.finalCode.length + p]? = some 0 := by
  rw [Image.payload, List.getElem?_append_right (Nat.le_add_right _ _), Nat.add_sub_cancel_left,
    hl.finalData]
  apply place_fill
  · exact Nat.zero_le _
  · rwa [← hl.finalData]
  · intro i piece base hpiece hbase
    rw [List.length_nil, hl.dataItemBase, List.getElem?_map, Option.map_eq_some_iff] at hbase
    rw [List.getElem?_map, Option.map_eq_some_iff] at hpiece
    obtain ⟨bases, hb, rfl⟩ := hbase
    obtain ⟨⟨object, other⟩, hitem, rfl⟩ := hpiece
    obtain ⟨ho, -⟩ := List.getElem?_zip_eq_some.mp hitem
    simpa [dataItem, dataPiece] using hout i object bases ho hb

/-! ## Symbols -/

/-- The symbol table holds exactly the public symbols, at their objects' bases. -/
theorem Linked.mem_definitions {definition : Definition} :
    definition ∈ image.definitions ↔
      ∃ (i : Nat) (object : ObjectFile) (base : Bases) (symbol : SymbolEntry),
        image.objects[i]? = some object ∧ image.bases[i]? = some base ∧
        symbol ∈ object.symbolTable ∧ isPrivate symbol.name = false ∧
        definition = ⟨symbol.name, publicAddress options image base symbol.sect symbol.offset.toNat,
          symbol.sect, symbol.sect = .code ∧ symbol.offset.toNat < object.codeSection.length⟩ := by
  rw [hl.definitions, hl.dataStart]
  simp only [List.mem_append, mem_allDefinitions, mem_zip_map]
  constructor
  · intro h
    rcases h with (h | h) | h
    · obtain ⟨-, ⟨i, object, base, ho, hb, rfl⟩, symbol, hm, hs, hp, rfl⟩ := h
      exact ⟨i, object, base, symbol, ho, hb, hm, hp, by simp [publicAddress, hs]⟩
    · obtain ⟨-, ⟨i, object, base, ho, hb, rfl⟩, symbol, hm, hs, hp, rfl⟩ := h
      exact ⟨i, object, base, symbol, ho, hb, hm, hp, by simp [publicAddress, hs]⟩
    · obtain ⟨-, ⟨i, object, base, ho, hb, rfl⟩, symbol, hm, hs, hp, rfl⟩ := h
      exact ⟨i, object, base, symbol, ho, hb, hm, hp, by simp [publicAddress, hs]⟩
  · intro h
    obtain ⟨i, object, base, symbol, ho, hb, hm, hp, rfl⟩ := h
    cases hs : symbol.sect with
    | code =>
        exact Or.inl (Or.inr ⟨_, ⟨i, object, base, ho, hb, rfl⟩, symbol, hm, hs, hp,
          by simp [publicAddress]⟩)
    | data => exact Or.inr ⟨_, ⟨i, object, base, ho, hb, rfl⟩, symbol, hm, hs, hp, rfl⟩
    | ram =>
        exact Or.inl (Or.inl ⟨_, ⟨i, object, base, ho, hb, rfl⟩, symbol, hm, hs, hp, rfl⟩)

/-- Every public symbol is found under its name. -/
theorem Linked.lookup_symbol {i : Nat} {object : ObjectFile} {base : Bases}
    (ho : image.objects[i]? = some object) (hb : image.bases[i]? = some base)
    {symbol : SymbolEntry} (hm : symbol ∈ object.symbolTable)
    (hp : isPrivate symbol.name = false) :
    lookup image.definitions symbol.name = some ⟨symbol.name,
      publicAddress options image base symbol.sect symbol.offset.toNat, symbol.sect,
      symbol.sect = .code ∧ symbol.offset.toNat < object.codeSection.length⟩ :=
  (lookup_eq_some hl.uniqueNames).mpr
    ⟨hl.mem_definitions.mpr ⟨i, object, base, symbol, ho, hb, hm, hp, rfl⟩, rfl⟩

/-! ## The payload -/

theorem Linked.payload_take :
    image.payload.take image.startup.bytes.length = image.startupBytes options := by
  rw [Image.payload, hl.finalCode, place_eq_append, List.append_assoc, List.append_assoc,
    ← image.startupBytes_length options, List.take_left]

theorem Linked.payloadPlaced : PayloadPlaced options image image.bases where
  count := hl.basesCount
  startupCode := hl.startup
  startup := hl.payload_take
  codeAligned := by
    intro i object base alignment ho hb halignment
    rw [← codePiece_alignment halignment]
    exact hl.codePlaced.aligned i (codePiece object) base.code (by simp [ho]) (by simp [hb])
  dataAligned := by
    intro i object base ho hb
    rw [← hl.dataStart]
    exact hl.dataPlaced.aligned i (dataPiece object) base.data (by simp [ho]) (by simp [hb])
  inside := by
    intro i object base ho hb
    have hinside := hl.inside ho hb
    rw [hl.finalCode_length]
    omega
  ordered := by
    intro i j object base next hlt ho hb hn
    exact ⟨hl.codePlaced.ordered i j (codePiece object) base.code next.code hlt (by simp [ho])
        (by simp [hb]) (by simp [hn]),
      hl.dataPlaced.ordered i j (dataPiece object) base.data next.data hlt (by simp [ho])
        (by simp [hb]) (by simp [hn])⟩
  codeByte := fun _ _ _ _ ho hb hk hn => hl.codeByte ho hb hk hn
  dataByte := fun _ _ _ _ ho hb hk hn => hl.dataByte ho hb hk hn
  codePadding := fun _ hle hlt hout => hl.codePadding hle hlt hout
  dataPadding := fun _ hlt hout => hl.dataPadding hlt hout
  symbols := fun _ _ _ ho hb _ hm hp => ⟨_, hl.lookup_symbol ho hb hm hp, rfl, rfl⟩
  relocations := by
    intro i object base ho hb relocation hr
    obtain ⟨target, htarget, -⟩ :=
      hl.accepted (object, base) (List.mem_of_getElem? (image.item ho hb)) relocation hr
    refine ⟨target, htarget, ?_⟩
    intro write hw
    apply hl.operandAt ho hb hr
    rwa [relocationWrites, targetAddress_of_resolve htarget]

end Items

/-- Placement and patching. The payload of every successful GSU link is the
startup code, each object's CODE and then each object's DATA, at bases that are
aligned at their final address, increasing and apart, with NOP and zero padding
between. Symbols, relocation patches and copied bytes use the same bases, every
other byte is the input byte, and the whole payload fits the origin's bank. -/
theorem runLinker_payload {generate : ObjectFile → Except String String} {options : Options}
    {files : List (String × Bytes)} {image : Image}
    (h : runLinker generate options files = .ok image) (hgsu : image.config.target = .gsu) :
    List.Forall₂ (fun file object => read file.1 file.2 = .ok object) files image.objects ∧
      (∃ bases, PayloadPlaced options image bases) ∧
      GsuMemoryMap.region image.origin ≠ .unmapped ∧
      image.origin % 0x10000 + image.payload.length ≤ 0x10000 := by
  obtain ⟨hl, hfiles⟩ := linked_of_runLinker h
  obtain ⟨hregion, hfits⟩ := GsuMemoryMap.validatePayload_eq_ok.mp (hl.payload hgsu)
  refine ⟨hfiles, ⟨image.bases, hl.payloadPlaced⟩, hregion, ?_⟩
  rw [Image.payload, List.length_append]
  omega

/-- An entry that loads the address of another object's table. -/
def tableReader : ObjectFile where
  codeSection := [0xf4, 0, 0, 0x02]
  symbolTable := [⟨nameOf "main", .code, 0⟩]
  relocationTable := [⟨nameOf "table", .code, 0, .addr16Iwt⟩]

def tableOwner : ObjectFile where
  codeSection := [0x03]
  dataSection := [0x34, 0x12]
  symbolTable := [⟨nameOf "table", .data, 0⟩]
  dataAlignment := 4

theorem tableReader_payload :
    ∃ image, runLinker (fun _ => .ok "") { initializeRuntime := true }
        [("reader.o", tableReader.encode), ("owner.o", tableOwner.encode)] = .ok image ∧
      image.payload = [0xa0, 0x00, 0x3e, 0xdf, 0xfa, 0x00, 0x20, 0xff, 0x0b, 0x80, 0x01,
        0xf4, 0x10, 0x80, 0x02, 0x03, 0x34, 0x12] ∧
      ∃ bases, PayloadPlaced { initializeRuntime := true } image bases := by
  have hrun : (runLinker (fun _ => .ok "") { initializeRuntime := true }
      [("reader.o", tableReader.encode), ("owner.o", tableOwner.encode)]).toOption.map
        (fun image => (image.payload, image.config.target)) =
      some ([0xa0, 0x00, 0x3e, 0xdf, 0xfa, 0x00, 0x20, 0xff, 0x0b, 0x80, 0x01,
        0xf4, 0x10, 0x80, 0x02, 0x03, 0x34, 0x12], .gsu) := by decide +kernel
  cases hlink : runLinker (fun _ => .ok "") { initializeRuntime := true }
      [("reader.o", tableReader.encode), ("owner.o", tableOwner.encode)] with
  | error message =>
      rw [hlink] at hrun
      cases hrun
  | ok image =>
      rw [hlink] at hrun
      simp only [Except.toOption, Option.map_some, Option.some.injEq, Prod.mk.injEq] at hrun
      exact ⟨image, rfl, hrun.1, (runLinker_payload hlink hrun.2).2.1⟩

end Disco.Linker
