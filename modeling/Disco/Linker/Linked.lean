import Disco.Linker.Relocated

/-! # A finished link

`Linked` collects what holds of every image the linker produces, in terms of
the inputs and of aligned placement. It is proved once, from the phase facts,
and the results about images are read off it.
-/

namespace Disco.Linker

open Library

/-! ## Bases and context of an image -/

/-- The bases of every object. -/
def linkBases (dataStart : Nat) (objects : List ObjectFile) (codeBases ramBases : List Nat) :
    List Bases :=
  codeBases.zipWith (fun code rest => ⟨code, rest.1, rest.2⟩)
    ((placeBases dataStart (objects.map dataPiece) 0).zip ramBases)

namespace Image

def origin (image : Image) : Nat := image.config.codeStartAddress.toNat

/-- The bases of the image's objects. -/
def bases (image : Image) : List Bases :=
  linkBases image.dataStart image.objects image.codeBases image.ramBases

/-- Every object with its bases. -/
def items (image : Image) : List (ObjectFile × Bases) := image.objects.zip image.bases

/-- What the relocation pass knew. -/
def context (image : Image) (options : Options) : Context :=
  ⟨options, image.config, image.dataStart, image.definitions, image.stackFloor⟩

def extent (image : Image) : Extent := ⟨image.finalCode.length, image.finalData.length⟩

end Image

section Bases

variable {dataStart : Nat} {objects : List ObjectFile} {codeBases ramBases : List Nat}

theorem linkBases_length (dataStart : Nat) (hcode : codeBases.length = objects.length)
    (hram : ramBases.length = objects.length) :
    (linkBases dataStart objects codeBases ramBases).length = objects.length := by
  simp [linkBases, hcode, hram]

theorem linkBases_code (hcode : codeBases.length = objects.length)
    (hram : ramBases.length = objects.length) :
    (linkBases dataStart objects codeBases ramBases).map Bases.code = codeBases := by
  apply List.ext_getElem
  · simp [linkBases, hcode, hram]
  · intro i _ _
    simp [linkBases]

theorem linkBases_data (hcode : codeBases.length = objects.length)
    (hram : ramBases.length = objects.length) :
    (linkBases dataStart objects codeBases ramBases).map Bases.data =
      placeBases dataStart (objects.map dataPiece) 0 := by
  apply List.ext_getElem
  · simp [linkBases, hcode, hram]
  · intro i _ _
    simp [linkBases]

theorem linkBases_ram (hcode : codeBases.length = objects.length)
    (hram : ramBases.length = objects.length) :
    (linkBases dataStart objects codeBases ramBases).map Bases.ram = ramBases := by
  apply List.ext_getElem
  · simp [linkBases, hcode, hram]
  · intro i _ _
    simp [linkBases]

theorem items_fst (dataStart : Nat) (hcode : codeBases.length = objects.length)
    (hram : ramBases.length = objects.length) {α : Type} (f : ObjectFile → α) :
    (objects.zip (linkBases dataStart objects codeBases ramBases)).map (fun item => f item.1) =
      objects.map f := by
  have hlength := linkBases_length dataStart hcode hram
  show (objects.zip _).map (f ∘ Prod.fst) = _
  rw [← List.map_map, List.map_fst_zip (Nat.le_of_eq hlength.symm)]

theorem items_snd (dataStart : Nat) (hcode : codeBases.length = objects.length)
    (hram : ramBases.length = objects.length) {α : Type} (f : Bases → α) :
    (objects.zip (linkBases dataStart objects codeBases ramBases)).map (fun item => f item.2) =
      (linkBases dataStart objects codeBases ramBases).map f := by
  have hlength := linkBases_length dataStart hcode hram
  show (objects.zip _).map (f ∘ Prod.snd) = _
  rw [← List.map_map, List.map_snd_zip (Nat.le_of_eq hlength)]

end Bases

/-! ## Startup and entry -/

/-- The bytes the entry address is stored in. -/
def entryWrites (options : Options) (startup : RuntimeInitialization)
    (definitions : List Definition) : List Write :=
  if options.initializeRuntime then
    match lookup definitions options.entryName with
    | none => []
    | some entry => [(startup.entryPatch, UInt8.ofNat entry.address),
        (startup.entryPatch + 1, UInt8.ofNat (entry.address / 256))]
  else []

/-- The startup code with its jump pointed at the entry. -/
def Image.startupBytes (image : Image) (options : Options) : Bytes :=
  applyWrites (entryWrites options image.startup image.definitions) image.startup.bytes

theorem makeStartup_eq_ok {options : Options} {config : CompilerConfig} {finalRam : Bytes}
    {startup : RuntimeInitialization} (h : makeStartup options config finalRam = .ok startup) :
    (options.initializeRuntime = true → startup.entryPatch + 1 < startup.bytes.length) ∧
      (options.initializeRuntime = false → startup.bytes = []) := by
  unfold makeStartup at h
  rw [rejectIf_bind_eq_ok, rejectIf_bind_eq_ok] at h
  obtain ⟨-, -, h⟩ := h
  cases hi : options.initializeRuntime with
  | true =>
      rw [hi, if_pos rfl] at h
      exact ⟨fun _ => entryPatch_lt h, by simp⟩
  | false =>
      rw [hi, if_neg (by simp)] at h
      cases h
      exact ⟨by simp, fun _ => rfl⟩

theorem entryWrites_lt {options : Options} {config : CompilerConfig} {finalRam : Bytes}
    {startup : RuntimeInitialization} (h : makeStartup options config finalRam = .ok startup)
    (definitions : List Definition) :
    ∀ write ∈ entryWrites options startup definitions, write.1 < startup.bytes.length := by
  intro write hm
  unfold entryWrites at hm
  split at hm
  · rename_i hi
    have hlt := (makeStartup_eq_ok h).1 hi
    split at hm
    · cases hm
    · simp only [List.mem_cons, List.not_mem_nil, or_false] at hm
      rcases hm with rfl | rfl
      · show startup.entryPatch < _
        omega
      · exact hlt
  · cases hm

/-- With generated startup the entry is an instruction of CODE in the program
bank and the initial stack word is clear of the payload. -/
structure EntryChecked (options : Options) (config : CompilerConfig)
    (definitions : List Definition) (payloadEnd : Nat) : Prop where
  entry : ∃ entry, lookup definitions options.entryName = some entry ∧ entry.sect = .code ∧
    entry.instruction = true ∧
    GsuMemoryMap.validateNearTarget config.codeStartAddress.toNat entry.address = .ok ()
  stackWord : ¬ (nearRamBank options ||| options.stackPointer < payloadEnd ∧
    (nearRamBank options ||| options.stackPointer) + 2 > config.codeStartAddress.toNat)

theorem patchEntry_eq_ok {options : Options} {config : CompilerConfig}
    {startup : RuntimeInitialization} {layout : Layout} {code : Bytes} :
    patchEntry options config startup layout = .ok code ↔
      (options.initializeRuntime = true → EntryChecked options config layout.definitions
        (layout.dataStart + layout.finalData.length)) ∧
      code = applyWrites (entryWrites options startup layout.definitions) layout.finalCode := by
  unfold patchEntry entryWrites
  cases hi : options.initializeRuntime with
  | false =>
      simp [applyWrites, eq_comm]
  | true =>
      simp only [if_true, forall_const]
      cases he : lookup layout.definitions options.entryName with
      | none =>
          simp only [reduceCtorEq, false_iff, not_and]
          intro hchecked
          obtain ⟨entry, hentry, -⟩ := hchecked.entry
          rw [he] at hentry
          cases hentry
      | some entry =>
          simp only [bind_eq_ok, rejectIf_eq_ok, exists_unit, Except.ok.injEq]
          constructor
          · intro h
            obtain ⟨hcode, hnear, hword, rfl⟩ := h
            have hflags : entry.sect = .code ∧ entry.instruction = true := by
              simpa using hcode
            exact ⟨⟨⟨entry, he, hflags.1, hflags.2, hnear⟩, hword⟩, rfl⟩
          · intro h
            obtain ⟨hchecked, rfl⟩ := h
            obtain ⟨other, hother, hsect, hinstruction, hnear⟩ := hchecked.entry
            rw [he] at hother
            cases hother
            exact ⟨by simp [hsect, hinstruction], hnear, hchecked.stackWord, rfl⟩

/-! ## Sections -/

/-- An object's CODE with its operands patched. -/
def codeItem (context : Context) (item : ObjectFile × Bases) : Piece :=
  (codePiece item.1).patched (codeWrites context item.1 item.2 item.1.relocationTable)

/-- An object's DATA with its operands patched. -/
def dataItem (context : Context) (item : ObjectFile × Bases) : Piece :=
  (dataPiece item.1).patched (dataWrites context item.1 item.2 item.1.relocationTable)

section Items

variable {context : Context} {items : List (ObjectFile × Bases)} {start : Nat}

/-- Relocated CODE is the placement of the patched CODE sections. -/
theorem patchAll_code {image tail data : Bytes} (hv : ∀ item ∈ items, item.1.Valid)
    (hbases : items.map (fun item => item.2.code) =
      placeBases start (items.map fun item => codePiece item.1) image.length) :
    (patchAll context items
      ⟨place 1 start (items.map fun item => codePiece item.1) image ++ tail, data⟩).code =
        place 1 start (items.map (codeItem context)) image ++ tail :=
  applyWrites_place tail hbases fun item hm => codeWrites_lt (hv item hm)

/-- Relocated DATA is the placement of the patched DATA sections. -/
theorem patchAll_data {code : Bytes} (hv : ∀ item ∈ items, item.1.Valid)
    (hbases : items.map (fun item => item.2.data) =
      placeBases start (items.map fun item => dataPiece item.1) 0) :
    (patchAll context items
      ⟨code, place 0 start (items.map fun item => dataPiece item.1) []⟩).data =
        place 0 start (items.map (dataItem context)) [] := by
  have h : (patchAll context items
      ⟨code, place 0 start (items.map fun item => dataPiece item.1) [] ++ []⟩).data =
        place 0 start (items.map (dataItem context)) [] ++ [] :=
    applyWrites_place [] hbases fun item hm => dataWrites_lt (hv item hm)
  rwa [List.append_nil, List.append_nil] at h

end Items

/-- Padding between CODE and DATA. -/
def dataGap (image : Image) : Nat :=
  gap image.origin (dataStartAlignment image.objects)
    (placeEnd image.origin (image.objects.map codePiece) image.startup.bytes.length)

/-- What holds of every finished link. -/
structure Linked (options : Options) (image : Image) : Prop where
  optionsChecked : checkOptions options = .ok ()
  valid : ∀ object ∈ image.objects, object.Valid
  finalRam : image.finalRam = place 0 options.ramOrigin (image.objects.map ramPiece) []
  ramBases : image.ramBases = placeBases options.ramOrigin (image.objects.map ramPiece) 0
  ramFits : image.finalRam.length ≤ 65536 - options.ramOrigin
  startup : makeStartup options image.config image.finalRam = .ok image.startup
  codeBases : image.codeBases = placeBases image.origin (image.objects.map codePiece)
    image.startup.bytes.length
  dataStart : image.dataStart = image.origin + image.finalCode.length
  definitions : image.definitions =
    allDefinitions .ram (fun base offset =>
        publicRamAddress options (options.ramOrigin + base + offset))
      (image.objects.zip (image.bases.map Bases.ram)) ++
    allDefinitions .code (fun base offset => image.origin + base + offset)
      (image.objects.zip (image.bases.map Bases.code)) ++
    allDefinitions .data (fun base offset => image.dataStart + base + offset)
      (image.objects.zip (image.bases.map Bases.data))
  uniqueNames : UniqueNames image.definitions
  notReserved : ∀ object ∈ image.objects, ∀ symbol ∈ object.symbolTable,
    isReserved symbol.name = false
  finalCode : image.finalCode = place 1 image.origin
      (image.items.map (codeItem (image.context options))) (image.startupBytes options) ++
    List.replicate (dataGap image) 1
  finalData : image.finalData = place 0 image.dataStart
    (image.items.map (dataItem (image.context options))) []
  accepted : ∀ item ∈ image.items, ∀ relocation ∈ item.1.relocationTable,
    Accepted (image.context options) item.1 item.2 image.extent relocation
  payload : image.config.target = .gsu → GsuMemoryMap.validatePayload image.origin
    image.finalCode.length image.finalData.length = .ok ()
  bitmap : checkBitmap options image.config
    (image.finalCode.length + image.finalData.length) image.finalRam.length = .ok ()
  staticRam : checkStaticRam options image.config
    (image.finalCode.length + image.finalData.length) image.finalRam.length = .ok ()
  entry : options.initializeRuntime = true → EntryChecked options image.config image.definitions
    (image.dataStart + image.finalData.length)
  stackFloor : computeStackFloor options image.config
    (image.finalCode.length + image.finalData.length) image.finalRam.length =
      .ok image.stackFloor

/-- Every image the linker produces satisfies the description. -/
theorem linked_of_linkObjects {generate : ObjectFile → Except String String} {options : Options}
    {config : CompilerConfig} {objects : List ObjectFile} {image : Image}
    (hoptions : checkOptions options = .ok ()) (hv : ∀ object ∈ objects, object.Valid)
    (h : linkObjects generate options config objects = .ok image) :
    Linked options image ∧ image.objects = objects ∧ image.config = config := by
  unfold linkObjects at h
  rw [bind_eq_ok] at h
  obtain ⟨⟨finalRam, ramBases⟩, hram, h⟩ := h
  simp only [bind_eq_ok, exists_unit] at h
  obtain ⟨startup, hstartup, -, layout, hlayout, hpayload, hbitmap, hstatic, code, hentry, floor,
    hfloor, sections, hrelocate, assembly, -, hresult⟩ := h
  obtain ⟨hramEq, hramBases, hramFits⟩ := placeRam_eq_ok hv (Nat.zero_le _) hram
  rw [List.nil_append] at hramBases
  obtain ⟨hcode, hcodeBases, hstart, hdata, hdefinitions, hunique, hreserved⟩ :=
    layoutPayload_eq_ok hv hlayout
  obtain ⟨hchecked, hcodeEntry⟩ := patchEntry_eq_ok.mp hentry
  have hcodeCount : layout.codeBases.length = objects.length := by
    rw [hcodeBases, placeBases_length, List.length_map]
  have hramCount : ramBases.length = objects.length := by
    rw [hramBases, placeBases_length, List.length_map]
  obtain ⟨haccepted, hsections⟩ := relocate_eq_ok.mp hrelocate
  have hpass : passBases layout.dataStart (objects.zip (layout.codeBases.zip ramBases)) 0 =
      objects.zip (linkBases layout.dataStart objects layout.codeBases ramBases) :=
    passBases_eq hv hcodeCount hramCount
  rw [hpass] at haccepted hsections
  have hfirst : ∀ {α : Type} (f : ObjectFile → α), _ := fun f =>
    items_fst layout.dataStart hcodeCount hramCount f
  have hsecond : ∀ {α : Type} (f : Bases → α), _ := fun f =>
    items_snd layout.dataStart hcodeCount hramCount f
  have hvalid : ∀ item ∈ objects.zip (linkBases layout.dataStart objects layout.codeBases ramBases),
      item.1.Valid := fun item hm => hv item.1 (List.of_mem_zip hm).1
  have hwrites := entryWrites_lt hstartup layout.definitions
  -- Entry first, then every operand: both act on the placed sections.
  have hfinalCode : sections.code = place 1 config.codeStartAddress.toNat
      ((objects.zip (linkBases layout.dataStart objects layout.codeBases ramBases)).map (codeItem
        ⟨options, config, layout.dataStart, layout.definitions, floor⟩))
      (applyWrites (entryWrites options startup layout.definitions) startup.bytes) ++
      List.replicate (gap config.codeStartAddress.toNat (dataStartAlignment objects)
        (placeEnd config.codeStartAddress.toNat (objects.map codePiece) startup.bytes.length)) 1 := by
    rw [hsections, hcodeEntry, hcode, applyWrites_place_image _ hwrites, ← hfirst codePiece]
    apply patchAll_code hvalid
    rw [hsecond, linkBases_code hcodeCount hramCount, hfirst, hcodeBases, applyWrites_length]
  have hfinalData : sections.data = place 0 layout.dataStart
      ((objects.zip (linkBases layout.dataStart objects layout.codeBases ramBases)).map (dataItem
        ⟨options, config, layout.dataStart, layout.definitions, floor⟩)) [] := by
    rw [hsections, hdata, ← hfirst dataPiece]
    apply patchAll_data hvalid
    rw [hsecond, linkBases_data hcodeCount hramCount, hfirst]
  have hcodeLength : sections.code.length = layout.finalCode.length := by
    rw [hsections, hcodeEntry]
    simp [patchAll]
  have hdataLength : sections.data.length = layout.finalData.length := by
    rw [hsections]
    simp [patchAll]
  cases hresult
  refine ⟨?_, rfl, rfl⟩
  exact {
    optionsChecked := hoptions
    valid := hv
    finalRam := hramEq
    ramBases := hramBases
    ramFits := hramFits
    startup := hstartup
    codeBases := hcodeBases
    dataStart := by rw [hstart, hcodeLength]; rfl
    definitions := by
      refine hdefinitions.trans ?_
      rw [← hcodeBases, Image.bases, linkBases_ram hcodeCount hramCount,
        linkBases_code hcodeCount hramCount, linkBases_data hcodeCount hramCount]
      rfl
    uniqueNames := hunique
    notReserved := hreserved
    finalCode := hfinalCode
    finalData := hfinalData
    accepted := by
      intro item hm relocation hr
      have h := haccepted item hm relocation hr
      simpa [Image.extent, Image.context, Sections.extent, hcodeLength, hdataLength,
        hcodeEntry] using h
    payload := by
      intro hgsu
      rw [checkPayload, if_pos hgsu] at hpayload
      rw [hcodeLength, hdataLength]
      exact hpayload
    bitmap := by rw [hcodeLength, hdataLength]; exact hbitmap
    staticRam := by rw [hcodeLength, hdataLength]; exact hstatic
    entry := by rw [hdataLength]; exact hchecked
    stackFloor := by rw [hcodeLength, hdataLength]; exact hfloor }

theorem linked_of_runLinker {generate : ObjectFile → Except String String} {options : Options}
    {files : List (String × Bytes)} {image : Image}
    (h : runLinker generate options files = .ok image) :
    Linked options image ∧
      List.Forall₂ (fun file object => read file.1 file.2 = .ok object) files image.objects := by
  unfold runLinker at h
  simp only [bind_eq_ok, rejectIf_eq_ok, exists_unit] at h
  obtain ⟨hoptions, -, objects, hload, config, -, hlink⟩ := h
  obtain ⟨loaded, rfl, hfiles⟩ := loadObjects_eq_ok hload
  obtain ⟨hlinked, hobjects, -⟩ := linked_of_linkObjects hoptions (valid_of_loaded hfiles) hlink
  rw [hobjects]
  exact ⟨hlinked, hfiles⟩

end Disco.Linker
