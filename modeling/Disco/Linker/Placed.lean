import Disco.Linker.Driver
import Disco.Object.RoundTrip

/-! # What the layout phases compute

Each phase of the layout, described once: the loaded objects are valid, every
section lands where aligned placement puts it, and the symbol table holds
exactly the public symbols at their section bases. Later results cite these
facts and never unfold a phase.
-/

namespace Disco.Linker

open Library

/-! ## Loaded objects -/

theorem read_valid {path : String} {bytes : Bytes} {object : ObjectFile}
    (h : read path bytes = .ok object) : object.Valid := by
  unfold read at h
  rw [bind_eq_ok] at h
  obtain ⟨⟨decoded, rest⟩, hstream, hresult⟩ := h
  cases hresult
  exact (ObjectFile.readStream_sound hstream).1

/-- Loading retains every input, decoded and in order. -/
theorem loadObjects_eq_ok {options : Options} {files : List (String × Bytes)}
    {objects result : List ObjectFile} {totals : InputTotals}
    (h : loadObjects options files objects totals = .ok result) :
    ∃ loaded, result = objects ++ loaded ∧
      List.Forall₂ (fun file object => read file.1 file.2 = .ok object) files loaded := by
  induction files generalizing objects totals with
  | nil =>
      cases h
      exact ⟨[], by simp, .nil⟩
  | cons file files ih =>
      rcases file with ⟨path, bytes⟩
      rw [loadObjects, bind_eq_ok] at h
      obtain ⟨object, hread, h⟩ := h
      simp only [rejectIf_bind_eq_ok] at h
      obtain ⟨-, -, -, -, h⟩ := h
      rw [bind_eq_ok] at h
      obtain ⟨-, -, h⟩ := h
      obtain ⟨loaded, hresult, hfiles⟩ := ih h
      exact ⟨object :: loaded, by simp [hresult], .cons hread hfiles⟩

theorem valid_of_loaded {files : List (String × Bytes)} {objects : List ObjectFile}
    (h : List.Forall₂ (fun file object => read file.1 file.2 = .ok object) files objects) :
    ∀ object ∈ objects, object.Valid := by
  induction h with
  | nil => simp
  | cons hread _ ih =>
      intro object hm
      rcases List.mem_cons.mp hm with rfl | hm
      · exact read_valid hread
      · exact ih object hm

theorem checkedAddress_eq_ok {value address : Nat} {what : String} :
    checkedAddress value what = .ok address ↔ address = value ∧ value ≤ 0xffffffff := by
  unfold checkedAddress
  rw [rejectIf_bind_eq_ok]
  constructor
  · intro h
    obtain ⟨hle, heq⟩ := h
    cases heq
    exact ⟨rfl, by omega⟩
  · intro h
    exact ⟨by omega, by rw [h.1]⟩

/-! ## Sections as pieces -/

def codePiece (object : ObjectFile) : Piece :=
  ⟨(codeAlignment object).toOption.getD 1, object.codeSection⟩

def dataPiece (object : ObjectFile) : Piece := ⟨object.dataAlignment.toNat, object.dataSection⟩

def ramPiece (object : ObjectFile) : Piece := ⟨object.ramAlignment.toNat, object.ramSection⟩

theorem codePiece_alignment {object : ObjectFile} {alignment : Nat}
    (h : codeAlignment object = .ok alignment) : (codePiece object).alignment = alignment := by
  unfold codePiece
  rw [h]
  rfl

theorem codeAlignment_pos {object : ObjectFile} {alignment : Nat}
    (h : codeAlignment object = .ok alignment) : 0 < alignment := by
  unfold codeAlignment at h
  split at h
  · cases h
    decide
  · rw [rejectIf_bind_eq_ok] at h
    cases h.2
    decide

theorem pos_of_not_badAlignment {alignment : UInt8} {maximum : Nat}
    (h : ¬ badAlignment alignment maximum) : 0 < alignment.toNat := by
  apply Nat.pos_of_ne_zero
  intro hz
  exact h (Or.inl (UInt8.toNat.inj hz))

theorem codePiece_pos {object : ObjectFile} (h : object.Valid) : 0 < (codePiece object).alignment := by
  obtain ⟨alignment, halignment⟩ := h.alignment
  rw [codePiece_alignment halignment]
  exact codeAlignment_pos halignment

theorem dataPiece_pos {object : ObjectFile} (h : object.Valid) : 0 < (dataPiece object).alignment :=
  pos_of_not_badAlignment h.dataAlignment

theorem ramPiece_pos {object : ObjectFile} (h : object.Valid) : 0 < (ramPiece object).alignment :=
  pos_of_not_badAlignment h.ramAlignment

/-- One round of padding with `alignment` as its fuel. -/
theorem alignSection_full {fill : UInt8} {origin alignment offset : Nat} {bytes : Bytes}
    (h : 0 < alignment) :
    alignSection fill origin alignment alignment (bytes, offset) =
      (bytes ++ List.replicate (gap origin alignment offset) fill,
        offset + gap origin alignment offset) :=
  alignSection_eq h (Nat.le_of_lt (gap_lt h))

/-! ## Static RAM -/

theorem placeRam_eq_ok {options : Options} {objects : List ObjectFile} {image finalRam : Bytes}
    {bases ramBases : List Nat} (hv : ∀ object ∈ objects, object.Valid)
    (hfit : image.length ≤ 65536 - options.ramOrigin)
    (h : placeRam options objects image bases = .ok (finalRam, ramBases)) :
    finalRam = place 0 options.ramOrigin (objects.map ramPiece) image ∧
      ramBases = bases ++ placeBases options.ramOrigin (objects.map ramPiece) image.length ∧
      finalRam.length ≤ 65536 - options.ramOrigin := by
  induction objects generalizing image bases with
  | nil =>
      cases h
      exact ⟨rfl, by simp [placeBases], hfit⟩
  | cons object rest ih =>
      have hpos : 0 < object.ramAlignment.toNat := ramPiece_pos (hv object (by simp))
      rw [placeRam, alignSection_full hpos, rejectIf_bind_eq_ok] at h
      obtain ⟨hroom, h⟩ := h
      have hstep := ih (fun o hm => hv o (by simp [hm]))
        (by rw [List.length_append]; omega) h
      obtain ⟨hram, hbases, hlength⟩ := hstep
      refine ⟨?_, ?_, hlength⟩
      · rw [hram, List.map_cons, place]
        rfl
      · rw [hbases, List.map_cons, placeBases]
        simp only [List.length_append, List.length_replicate, List.append_assoc,
          List.singleton_append, Nat.add_assoc]
        rfl

/-! ## Public symbols -/

/-- The public symbols of one section, defined at the addresses of their offsets. -/
def sectionDefinitions (object : ObjectFile) (sect : SymbolSection) (address : Nat → Nat)
    (symbols : List SymbolEntry) : List Definition :=
  (symbols.filter fun symbol => symbol.sect = sect ∧ isPrivate symbol.name = false).map fun symbol =>
    ⟨symbol.name, address symbol.offset.toNat, sect,
      sect = .code ∧ symbol.offset.toNat < object.codeSection.length⟩

/-- Every name is defined once. -/
def UniqueNames (definitions : List Definition) : Prop :=
  (definitions.map Definition.name).Nodup

theorem lookup_eq_none {definitions : List Definition} {name : Name} :
    lookup definitions name = none ↔ name ∉ definitions.map Definition.name := by
  unfold lookup
  rw [List.find?_eq_none]
  simp only [decide_eq_true_eq, List.mem_map, not_exists, not_and]

theorem lookup_eq_some {definitions : List Definition} (hu : UniqueNames definitions)
    {name : Name} {definition : Definition} :
    lookup definitions name = some definition ↔
      definition ∈ definitions ∧ definition.name = name := by
  constructor
  · intro h
    exact ⟨List.mem_of_find?_eq_some h, by simpa using List.find?_some h⟩
  · intro h
    obtain ⟨hm, rfl⟩ := h
    cases hl : lookup definitions definition.name with
    | none => exact absurd (List.mem_map_of_mem hm) (lookup_eq_none.mp hl)
    | some other =>
        have hname : other.name = definition.name := by simpa using List.find?_some hl
        rw [List.inj_on_of_nodup_map hu (List.mem_of_find?_eq_some hl) hm hname]

theorem uniqueNames_nil : UniqueNames [] := List.nodup_nil

theorem uniqueNames_append_singleton {definitions : List Definition} {definition : Definition}
    (hu : UniqueNames definitions) (h : lookup definitions definition.name = none) :
    UniqueNames (definitions ++ [definition]) := by
  unfold UniqueNames
  rw [List.map_append, List.map_singleton]
  rw [← List.concat_eq_append]
  exact List.Nodup.concat (lookup_eq_none.mp h) hu

theorem defineSection_eq_ok {object : ObjectFile} {sect : SymbolSection} {base : Nat}
    {what : String} {symbols : List SymbolEntry} {definitions result : List Definition}
    (hu : UniqueNames definitions)
    (h : defineSection object sect base what symbols definitions = .ok result) :
    result = definitions ++ sectionDefinitions object sect (base + ·) symbols ∧
      UniqueNames result := by
  induction symbols generalizing definitions with
  | nil =>
      cases h
      exact ⟨by simp [sectionDefinitions], hu⟩
  | cons symbol rest ih =>
      rw [defineSection] at h
      by_cases hskip : symbol.sect ≠ sect ∨ isPrivate symbol.name = true
      · rw [if_pos hskip] at h
        obtain ⟨hresult, hunique⟩ := ih hu h
        refine ⟨?_, hunique⟩
        rw [hresult, sectionDefinitions, sectionDefinitions, List.filter_cons_of_neg]
        rcases hskip with hs | hp
        · simp [hs]
        · simp [hp]
      · rw [if_neg hskip, rejectIf_bind_eq_ok, bind_eq_ok] at h
        obtain ⟨hfresh, address, haddress, h⟩ := h
        obtain ⟨rfl, -⟩ := checkedAddress_eq_ok.mp haddress
        have hnone : lookup definitions symbol.name = none := by simpa using hfresh
        obtain ⟨hresult, hunique⟩ := ih (uniqueNames_append_singleton hu hnone) h
        refine ⟨?_, hunique⟩
        have hkeep : symbol.sect = sect ∧ isPrivate symbol.name = false := by simpa using hskip
        rw [hresult, sectionDefinitions, sectionDefinitions,
          List.filter_cons_of_pos (by simpa using hkeep), List.map_cons, List.append_assoc]
        rfl

theorem defineRam_eq_ok (object : ObjectFile) {options : Options} {ramBase : Nat}
    {symbols : List SymbolEntry} {definitions result : List Definition}
    (hu : UniqueNames definitions)
    (h : defineRam options ramBase symbols definitions = .ok result) :
    result = definitions ++ sectionDefinitions object .ram
        (fun offset => publicRamAddress options (options.ramOrigin + ramBase + offset)) symbols ∧
      UniqueNames result := by
  induction symbols generalizing definitions with
  | nil =>
      cases h
      exact ⟨by simp [sectionDefinitions], hu⟩
  | cons symbol rest ih =>
      rw [defineRam] at h
      by_cases hskip : symbol.sect ≠ .ram ∨ isPrivate symbol.name = true
      · rw [if_pos hskip] at h
        obtain ⟨hresult, hunique⟩ := ih hu h
        refine ⟨?_, hunique⟩
        rw [hresult, sectionDefinitions, sectionDefinitions, List.filter_cons_of_neg]
        rcases hskip with hs | hp
        · simp [hs]
        · simp [hp]
      · rw [if_neg hskip, rejectIf_bind_eq_ok, bind_eq_ok] at h
        obtain ⟨hfresh, offset, hoffset, h⟩ := h
        obtain ⟨rfl, -⟩ := checkedAddress_eq_ok.mp hoffset
        have hnone : lookup definitions symbol.name = none := by simpa using hfresh
        obtain ⟨hresult, hunique⟩ := ih (uniqueNames_append_singleton hu hnone) h
        refine ⟨?_, hunique⟩
        have hkeep : symbol.sect = .ram ∧ isPrivate symbol.name = false := by simpa using hskip
        rw [hresult, sectionDefinitions, sectionDefinitions,
          List.filter_cons_of_pos (by simpa using hkeep), List.map_cons, List.append_assoc]
        rfl

/-- The definitions that all objects' public symbols of one section give rise to. -/
def allDefinitions (sect : SymbolSection) (address : Nat → Nat → Nat)
    (placed : List (ObjectFile × Nat)) : List Definition :=
  placed.flatMap fun entry =>
    sectionDefinitions entry.1 sect (address entry.2) entry.1.symbolTable

theorem mem_allDefinitions {sect : SymbolSection} {address : Nat → Nat → Nat}
    {placed : List (ObjectFile × Nat)} {definition : Definition} :
    definition ∈ allDefinitions sect address placed ↔
      ∃ entry ∈ placed, ∃ symbol ∈ entry.1.symbolTable,
        symbol.sect = sect ∧ isPrivate symbol.name = false ∧
        definition = ⟨symbol.name, address entry.2 symbol.offset.toNat, sect,
          sect = .code ∧ symbol.offset.toNat < entry.1.codeSection.length⟩ := by
  unfold allDefinitions sectionDefinitions
  simp only [List.mem_flatMap, List.mem_map, List.mem_filter, Bool.decide_and, Bool.and_eq_true,
    decide_eq_true_eq, and_assoc, eq_comm (a := definition)]

/-- Objects that define one name in the same section are the same object. -/
theorem index_eq_of_unique {sect : SymbolSection} {address : Nat → Nat → Nat}
    {placed : List (ObjectFile × Nat)} (hu : UniqueNames (allDefinitions sect address placed))
    {i j : Nat} {first second : ObjectFile × Nat} (hi : placed[i]? = some first)
    (hj : placed[j]? = some second) {name : Name}
    (hfirst : ∃ symbol ∈ first.1.symbolTable, symbol.sect = sect ∧
      isPrivate symbol.name = false ∧ symbol.name = name)
    (hsecond : ∃ symbol ∈ second.1.symbolTable, symbol.sect = sect ∧
      isPrivate symbol.name = false ∧ symbol.name = name) : i = j := by
  have hmem : ∀ entry : ObjectFile × Nat, (∃ symbol ∈ entry.1.symbolTable, symbol.sect = sect ∧
      isPrivate symbol.name = false ∧ symbol.name = name) →
      name ∈ (sectionDefinitions entry.1 sect (address entry.2) entry.1.symbolTable).map
        Definition.name := by
    intro entry h
    obtain ⟨symbol, hm, hs, hp, rfl⟩ := h
    rw [sectionDefinitions, List.map_map]
    exact List.mem_map.mpr ⟨symbol, List.mem_filter.mpr ⟨hm, by simp [hs, hp]⟩, rfl⟩
  rw [UniqueNames, allDefinitions, List.map_flatMap, List.nodup_flatMap] at hu
  have hpairs := List.pairwise_iff_getElem.mp hu.2
  obtain ⟨hilt, rfl⟩ := List.getElem?_eq_some_iff.mp hi
  obtain ⟨hjlt, rfl⟩ := List.getElem?_eq_some_iff.mp hj
  rcases Nat.lt_trichotomy i j with hlt | heq | hgt
  · exact absurd (hmem _ hsecond) (hpairs i j hilt hjlt hlt (hmem _ hfirst))
  · exact heq
  · exact absurd (hmem _ hfirst) (hpairs j i hjlt hilt hgt (hmem _ hsecond))

theorem defineAllRam_eq_ok {options : Options} {placed : List (ObjectFile × Nat)}
    {definitions result : List Definition} (hu : UniqueNames definitions)
    (h : defineAllRam options placed definitions = .ok result) :
    result = definitions ++ allDefinitions .ram (fun base offset =>
        publicRamAddress options (options.ramOrigin + base + offset)) placed ∧
      UniqueNames result := by
  induction placed generalizing definitions with
  | nil =>
      cases h
      exact ⟨by simp [allDefinitions], hu⟩
  | cons entry rest ih =>
      rcases entry with ⟨object, ramBase⟩
      rw [defineAllRam, bind_eq_ok] at h
      obtain ⟨middle, hobject, h⟩ := h
      obtain ⟨rfl, hmiddle⟩ := defineRam_eq_ok object hu hobject
      obtain ⟨hresult, hunique⟩ := ih hmiddle h
      refine ⟨?_, hunique⟩
      rw [hresult, List.append_assoc, allDefinitions, allDefinitions, List.flatMap_cons]

/-! ## CODE and DATA -/

/-- The CODE pass is aligned placement with NOP padding. -/
theorem placeCode_eq_ok {config : CompilerConfig} {objects : List ObjectFile}
    {layout result : CodeLayout} (hoffset : layout.currentCodeOffset = layout.finalCode.length)
    (hu : UniqueNames layout.definitions) (h : placeCode config objects layout = .ok result) :
    result.finalCode =
        place 1 config.codeStartAddress.toNat (objects.map codePiece) layout.finalCode ∧
      result.currentCodeOffset = result.finalCode.length ∧
      result.codeBases = layout.codeBases ++ placeBases config.codeStartAddress.toNat
        (objects.map codePiece) layout.finalCode.length ∧
      result.definitions = layout.definitions ++ allDefinitions .code
        (fun base offset => config.codeStartAddress.toNat + base + offset)
        (objects.zip (placeBases config.codeStartAddress.toNat (objects.map codePiece)
          layout.finalCode.length)) ∧
      UniqueNames result.definitions ∧
      ∀ object ∈ objects, ∀ symbol ∈ object.symbolTable, isReserved symbol.name = false := by
  induction objects generalizing layout with
  | nil =>
      cases h
      exact ⟨rfl, hoffset, by simp [placeBases], by simp [allDefinitions], hu, by simp⟩
  | cons object rest ih =>
      rw [placeCode, bind_eq_ok] at h
      obtain ⟨alignment, halignment, h⟩ := h
      have hpiece := codePiece_alignment halignment
      rw [alignSection_full (codeAlignment_pos halignment), bind_eq_ok] at h
      obtain ⟨u, hreserved, h⟩ := h
      rw [bind_eq_ok] at h
      obtain ⟨definitions, hdefinitions, h⟩ := h
      obtain ⟨rfl, hunique⟩ := defineSection_eq_ok hu hdefinitions
      have hstep := ih (by simp [hoffset, Nat.add_assoc]) hunique h
      simp only [List.length_append, List.length_replicate] at hstep
      obtain ⟨hcode, hlength, hbases, hdefs, hnames, hrest⟩ := hstep
      rw [List.map_cons, place, placeBases, hpiece]
      refine ⟨?_, hlength, ?_, ?_, hnames, ?_⟩
      · rw [hcode, hoffset]
        rfl
      · rw [hbases, hoffset, List.append_assoc]
        rfl
      · rw [hdefs, hoffset, List.append_assoc, List.zip_cons_cons, allDefinitions, allDefinitions,
          List.flatMap_cons]
        rfl
      · intro o hm symbol hs
        rcases List.mem_cons.mp hm with rfl | hm
        · unfold checkReserved at hreserved
          split at hreserved
          · rename_i hnone
            simpa using List.find?_eq_none.mp hnone symbol hs
          · cases hreserved
        · exact hrest o hm symbol hs

/-- The DATA pass is aligned placement with zero padding. -/
theorem placeData_eq_ok {dataStart : Nat} {objects : List ObjectFile} {layout result : DataLayout}
    (hv : ∀ object ∈ objects, object.Valid)
    (hoffset : layout.currentDataOffset = layout.finalData.length)
    (hu : UniqueNames layout.definitions) (h : placeData dataStart objects layout = .ok result) :
    result.finalData = place 0 dataStart (objects.map dataPiece) layout.finalData ∧
      result.definitions = layout.definitions ++ allDefinitions .data
        (fun base offset => dataStart + base + offset)
        (objects.zip (placeBases dataStart (objects.map dataPiece) layout.finalData.length)) ∧
      UniqueNames result.definitions := by
  induction objects generalizing layout with
  | nil =>
      cases h
      exact ⟨rfl, by simp [allDefinitions], hu⟩
  | cons object rest ih =>
      have hpos : 0 < object.dataAlignment.toNat := dataPiece_pos (hv object (by simp))
      rw [placeData, alignSection_full hpos, bind_eq_ok] at h
      obtain ⟨definitions, hdefinitions, h⟩ := h
      obtain ⟨rfl, hunique⟩ := defineSection_eq_ok hu hdefinitions
      have hstep := ih (fun o hm => hv o (by simp [hm])) (by simp [hoffset, Nat.add_assoc]) hunique h
      simp only [List.length_append, List.length_replicate] at hstep
      obtain ⟨hdata, hdefs, hnames⟩ := hstep
      rw [List.map_cons, place, placeBases]
      refine ⟨?_, ?_, hnames⟩
      · rw [hdata, hoffset]
        rfl
      · rw [hdefs, hoffset, List.append_assoc, List.zip_cons_cons, allDefinitions, allDefinitions,
          List.flatMap_cons]
        rfl

/-- The alignment of the DATA start is positive. -/
theorem dataStartAlignment_pos (objects : List ObjectFile) : 0 < dataStartAlignment objects := by
  have hgrow : ∀ (rest : List ObjectFile) (alignment : Nat), 0 < alignment →
      0 < rest.foldl (fun alignment object =>
        if object.dataSection = [] then alignment
        else max alignment object.dataAlignment.toNat) alignment := by
    intro rest
    induction rest with
    | nil => exact fun _ h => h
    | cons object rest ih =>
        intro alignment h
        rw [List.foldl_cons]
        apply ih
        split <;> omega
  exact hgrow objects 1 (by decide)

/-- The payload before relocation. -/
theorem layoutPayload_eq_ok {options : Options} {config : CompilerConfig}
    {objects : List ObjectFile} {ramBases : List Nat} {startup : RuntimeInitialization}
    {layout : Layout} (hv : ∀ object ∈ objects, object.Valid)
    (h : layoutPayload options config objects ramBases startup = .ok layout) :
    let origin := config.codeStartAddress.toNat
    let pieces := objects.map codePiece
    let codeBases := placeBases origin pieces startup.bytes.length
    layout.finalCode = place 1 origin pieces startup.bytes ++ List.replicate
        (gap origin (dataStartAlignment objects) (placeEnd origin pieces startup.bytes.length)) 1 ∧
      layout.codeBases = codeBases ∧
      layout.dataStart = origin + layout.finalCode.length ∧
      layout.finalData = place 0 layout.dataStart (objects.map dataPiece) [] ∧
      layout.definitions =
        allDefinitions .ram (fun base offset =>
          publicRamAddress options (options.ramOrigin + base + offset)) (objects.zip ramBases) ++
        allDefinitions .code (fun base offset => origin + base + offset) (objects.zip codeBases) ++
        allDefinitions .data (fun base offset => layout.dataStart + base + offset)
          (objects.zip (placeBases layout.dataStart (objects.map dataPiece) 0)) ∧
      UniqueNames layout.definitions ∧
      ∀ object ∈ objects, ∀ symbol ∈ object.symbolTable, isReserved symbol.name = false := by
  intro origin pieces codeBases
  unfold layoutPayload at h
  rw [bind_eq_ok] at h
  obtain ⟨ramDefinitions, hram, h⟩ := h
  obtain ⟨rfl, hramUnique⟩ := defineAllRam_eq_ok uniqueNames_nil hram
  rw [bind_eq_ok] at h
  obtain ⟨code, hcode, h⟩ := h
  have hplaced := placeCode_eq_ok rfl hramUnique hcode
  obtain ⟨hfinal, hoffset, hbases, hdefinitions, hunique, hreserved⟩ := hplaced
  dsimp only at h
  rw [alignSection_full (dataStartAlignment_pos objects), bind_eq_ok] at h
  obtain ⟨dataStart, hstart, h⟩ := h
  obtain ⟨rfl, -⟩ := checkedAddress_eq_ok.mp hstart
  rw [bind_eq_ok] at h
  obtain ⟨data, hdata, h⟩ := h
  obtain ⟨hfinalData, hall, hnames⟩ := placeData_eq_ok hv rfl hunique hdata
  cases h
  dsimp only at *
  have hend : code.currentCodeOffset = placeEnd origin pieces startup.bytes.length := by
    rw [hoffset, hfinal, place_length]
  refine ⟨?_, by simpa using hbases, ?_, hfinalData, ?_, hnames, hreserved⟩
  · rw [hfinal, ← hend]
  · rw [List.length_append, List.length_replicate, hoffset]
  · rw [hall, hdefinitions]
    rfl

end Disco.Linker
