import Disco.Linker.Linked

/-! # Relocation order

Only the relocation pass reads a relocation table, and it patches disjoint
operands. A link of the same objects with their tables in another order
therefore succeeds alike and gives the same image.
-/

namespace Disco.Linker

open Library

/-- The same object with its relocation table in another order. -/
def Reordered (object other : ObjectFile) : Prop :=
  other = { object with relocationTable := other.relocationTable } ∧
    object.relocationTable.Perm other.relocationTable

/-- An object without its relocations: all that the layout reads. -/
def strip (object : ObjectFile) : ObjectFile := { object with relocationTable := [] }

theorem Reordered.strip_eq {object other : ObjectFile} (h : Reordered object other) :
    strip other = strip object := by
  rw [h.1]
  rfl

theorem map_strip {objects others : List ObjectFile} (h : List.Forall₂ Reordered objects others) :
    others.map strip = objects.map strip := by
  induction h with
  | nil => rfl
  | cons hfirst _ ih => rw [List.map_cons, List.map_cons, hfirst.strip_eq, ih]

/-! ## Layout without relocations -/

theorem mergeConfigs_strip (options : Options) (objects : List ObjectFile)
    (config : CompilerConfig) :
    mergeConfigs options (objects.map strip) config = mergeConfigs options objects config := by
  induction objects generalizing config with
  | nil => rfl
  | cons object rest ih =>
      simp only [List.map_cons, mergeConfigs, ih]
      rfl

theorem linkConfig_strip (options : Options) (objects : List ObjectFile) :
    linkConfig options (objects.map strip) = linkConfig options objects := by
  cases objects with
  | nil => rfl
  | cons first rest =>
      simp only [List.map_cons, linkConfig, mergeConfigs_strip]
      rfl

theorem placeRam_strip (options : Options) (objects : List ObjectFile) (image : Bytes)
    (bases : List Nat) :
    placeRam options (objects.map strip) image bases = placeRam options objects image bases := by
  induction objects generalizing image bases with
  | nil => rfl
  | cons object rest ih =>
      simp only [List.map_cons, placeRam, ih]
      rfl

theorem checkSections_strip (origin : Nat) (objects : List ObjectFile)
    (codeBytes dataBytes : Nat) :
    checkSections origin (objects.map strip) codeBytes dataBytes =
      checkSections origin objects codeBytes dataBytes := by
  induction objects generalizing codeBytes dataBytes with
  | nil => rfl
  | cons object rest ih =>
      simp only [List.map_cons, checkSections, ih]
      rfl

theorem defineAllRam_strip (options : Options) (objects : List ObjectFile) (ramBases : List Nat)
    (definitions : List Definition) :
    defineAllRam options ((objects.map strip).zip ramBases) definitions =
      defineAllRam options (objects.zip ramBases) definitions := by
  induction objects generalizing ramBases definitions with
  | nil => rfl
  | cons object rest ih =>
      cases ramBases with
      | nil => rfl
      | cons ramBase ramBases =>
          simp only [List.map_cons, List.zip_cons_cons, defineAllRam, ih]
          rfl

theorem defineSection_strip (object : ObjectFile) (sect : SymbolSection) (base : Nat)
    (what : String) (symbols : List SymbolEntry) (definitions : List Definition) :
    defineSection (strip object) sect base what symbols definitions =
      defineSection object sect base what symbols definitions := by
  induction symbols generalizing definitions with
  | nil => rfl
  | cons symbol rest ih =>
      simp only [defineSection, ih]
      rfl

theorem placeCode_strip (config : CompilerConfig) (objects : List ObjectFile)
    (layout : CodeLayout) :
    placeCode config (objects.map strip) layout = placeCode config objects layout := by
  induction objects generalizing layout with
  | nil => rfl
  | cons object rest ih =>
      simp only [List.map_cons, placeCode, ih, defineSection_strip]
      rfl

theorem placeData_strip (dataStart : Nat) (objects : List ObjectFile) (layout : DataLayout) :
    placeData dataStart (objects.map strip) layout = placeData dataStart objects layout := by
  induction objects generalizing layout with
  | nil => rfl
  | cons object rest ih =>
      simp only [List.map_cons, placeData, ih, defineSection_strip]
      rfl

theorem dataStartAlignment_strip (objects : List ObjectFile) :
    dataStartAlignment (objects.map strip) = dataStartAlignment objects := by
  rw [dataStartAlignment, dataStartAlignment, List.foldl_map]
  rfl

theorem layoutPayload_strip (options : Options) (config : CompilerConfig)
    (objects : List ObjectFile) (ramBases : List Nat) (startup : RuntimeInitialization) :
    layoutPayload options config (objects.map strip) ramBases startup =
      layoutPayload options config objects ramBases startup := by
  simp only [layoutPayload, defineAllRam_strip, placeCode_strip, placeData_strip,
    dataStartAlignment_strip]

/-! ## Relocation -/

section Object

variable {context : Context} {object other : ObjectFile} {bases : Bases}

theorem resolve_reordered (h : Reordered object other) (relocation : RelocationEntry) :
    resolve context other bases relocation = resolve context object bases relocation := by
  rw [h.1]
  rfl

theorem usesNearRom_reordered (h : Reordered object other) :
    usesNearRom other = usesNearRom object :=
  h.2.symm.any_eq

theorem checkRelocation_reordered (h : Reordered object other) (relocation : RelocationEntry)
    (target : Target) :
    checkRelocation context other relocation target =
      checkRelocation context object relocation target := by
  simp only [checkRelocation, checkNearTarget, usesNearRom_reordered h]

theorem accepted_reordered (h : Reordered object other) {extent : Extent}
    {relocation : RelocationEntry} :
    Accepted context other bases extent relocation ↔
      Accepted context object bases extent relocation := by
  simp only [Accepted, resolve_reordered h, checkRelocation_reordered h]

theorem relocationWrites_reordered (h : Reordered object other) :
    relocationWrites context other bases = relocationWrites context object bases := by
  funext relocation
  simp only [relocationWrites, targetAddress, resolve_reordered h]

/-- Disjoint operands are patched alike in either order. -/
theorem tableWrites_reordered (hv : object.Valid) (h : Reordered object other) (base : Nat)
    {keep : RelocationEntry → Bool} {sect : SymbolSection}
    (hs : ∀ relocation ∈ object.relocationTable.filter keep, relocation.sectionToPatch = sect)
    (bytes : Bytes) :
    applyWrites (shiftWrites base ((other.relocationTable.filter keep).flatMap
        (relocationWrites context other bases))) bytes =
      applyWrites (shiftWrites base ((object.relocationTable.filter keep).flatMap
        (relocationWrites context object bases))) bytes := by
  rw [relocationWrites_reordered h]
  have hperm := ((h.2.filter keep).flatMap_right (relocationWrites context object bases)).map
    (fun write => (base + write.1, write.2))
  refine (applyWrites_perm hperm ?_ bytes).symm
  have hnodup : (((object.relocationTable.filter keep).flatMap
      (relocationWrites context object bases)).map Prod.fst).Nodup :=
    tableWrites_nodup hs (operands_filter hv keep)
  rw [List.map_map]
  have hshift := hnodup.map (fun a b (hab : base + a = base + b) => Nat.add_left_cancel hab)
  rw [List.map_map] at hshift
  exact hshift

end Object

/-- Reordered objects at the same bases. -/
def SameItem (item other : ObjectFile × Bases) : Prop := Reordered item.1 other.1 ∧ other.2 = item.2

theorem patchAll_reordered {context : Context} {items others : List (ObjectFile × Bases)}
    (h : List.Forall₂ SameItem items others) (hv : ∀ item ∈ items, item.1.Valid)
    (sections : Sections) : patchAll context others sections = patchAll context items sections := by
  induction h generalizing sections with
  | nil => rfl
  | @cons item other rest remaining hfirst _ ih =>
      have hvalid := hv item (by simp)
      have hrest := ih (fun i hm => hv i (by simp [hm]))
      simp only [patchAll, Sections.mk.injEq] at hrest ⊢
      simp only [List.flatMap_cons, applyWrites_append, codeWrites, dataWrites, hfirst.2,
        tableWrites_reordered hvalid hfirst.1 _ (patchesCode_table item.1),
        tableWrites_reordered hvalid hfirst.1 _ (patchesData_table hvalid)]
      exact ⟨(hrest ⟨_, sections.data⟩).1, (hrest ⟨sections.code, _⟩).2⟩

theorem sameItem_zip {objects others : List ObjectFile} (bases : List Bases)
    (h : List.Forall₂ Reordered objects others) :
    List.Forall₂ SameItem (objects.zip bases) (others.zip bases) := by
  induction h generalizing bases with
  | nil => exact .nil
  | cons hfirst _ ih =>
      cases bases with
      | nil => exact .nil
      | cons base bases => exact .cons ⟨hfirst, rfl⟩ (ih bases)

theorem accepted_items {context : Context} {extent : Extent}
    {items others : List (ObjectFile × Bases)} (h : List.Forall₂ SameItem items others)
    (ha : ∀ item ∈ items, ∀ relocation ∈ item.1.relocationTable,
      Accepted context item.1 item.2 extent relocation) :
    ∀ item ∈ others, ∀ relocation ∈ item.1.relocationTable,
      Accepted context item.1 item.2 extent relocation := by
  induction h with
  | nil => simp
  | cons hfirst _ ih =>
      intro item hm relocation hr
      rcases List.mem_cons.mp hm with rfl | hm
      · rw [accepted_reordered hfirst.1, hfirst.2]
        exact ha _ (by simp) relocation (hfirst.1.2.mem_iff.mpr hr)
      · exact ih (fun i hi => ha i (by simp [hi])) item hm relocation hr

section Relocate

variable {objects others : List ObjectFile}

theorem map_dataPiece (h : List.Forall₂ Reordered objects others) :
    others.map dataPiece = objects.map dataPiece := by
  have hmap := congrArg (List.map dataPiece) (map_strip h)
  rw [List.map_map, List.map_map] at hmap
  exact hmap

theorem relocate_reordered (h : List.Forall₂ Reordered objects others)
    (hv : ∀ object ∈ objects, object.Valid) (ho : ∀ object ∈ others, object.Valid)
    {context : Context} {codeBases ramBases : List Nat}
    (hcode : codeBases.length = objects.length) (hram : ramBases.length = objects.length)
    {sections result : Sections}
    (hr : relocate context (objects.zip (codeBases.zip ramBases)) 0 sections = .ok result) :
    relocate context (others.zip (codeBases.zip ramBases)) 0 sections = .ok result := by
  have hlength := h.length_eq
  rw [relocate_eq_ok, passBases_eq hv hcode hram] at hr
  rw [relocate_eq_ok, passBases_eq ho (hcode.trans hlength) (hram.trans hlength),
    map_dataPiece h]
  obtain ⟨haccepted, rfl⟩ := hr
  have hitems := sameItem_zip (codeBases.zipWith (fun code rest => Bases.mk code rest.1 rest.2)
    ((placeBases context.dataStart (objects.map dataPiece) 0).zip ramBases)) h
  refine ⟨accepted_items hitems haccepted, ?_⟩
  exact (patchAll_reordered hitems (fun item hm => hv item.1 (List.of_mem_zip hm).1) _).symm

/-! ## Whole links -/

theorem placeRam_reordered (h : List.Forall₂ Reordered objects others) (options : Options) :
    placeRam options others [] [] = placeRam options objects [] [] := by
  rw [← placeRam_strip, map_strip h, placeRam_strip]

theorem layoutPayload_reordered (h : List.Forall₂ Reordered objects others) (options : Options)
    (config : CompilerConfig) (ramBases : List Nat) (startup : RuntimeInitialization) :
    layoutPayload options config others ramBases startup =
      layoutPayload options config objects ramBases startup := by
  rw [← layoutPayload_strip, map_strip h, layoutPayload_strip]

theorem checkTarget_reordered (h : List.Forall₂ Reordered objects others)
    (config : CompilerConfig) (startup : RuntimeInitialization) :
    checkTarget config others startup = checkTarget config objects startup := by
  rw [checkTarget, checkTarget, ← checkSections_strip, map_strip h, checkSections_strip]

theorem linkedObject_reordered (h : List.Forall₂ Reordered objects others)
    (config : CompilerConfig) (dataStart : Nat) (definitions : List Definition)
    (sections : Sections) :
    linkedObject config others dataStart definitions sections =
      linkedObject config objects dataStart definitions sections := by
  rw [linkedObject, linkedObject, ← dataStartAlignment_strip others, map_strip h,
    dataStartAlignment_strip]

theorem linkConfig_reordered (h : List.Forall₂ Reordered objects others) (options : Options) :
    linkConfig options others = linkConfig options objects := by
  rw [← linkConfig_strip, map_strip h, linkConfig_strip]

theorem linkObjects_reordered {generate : ObjectFile → Except String String} {options : Options}
    {config : CompilerConfig} {image : Image} (h : List.Forall₂ Reordered objects others)
    (hv : ∀ object ∈ objects, object.Valid) (ho : ∀ object ∈ others, object.Valid)
    (hlink : linkObjects generate options config objects = .ok image) :
    linkObjects generate options config others = .ok { image with objects := others } := by
  unfold linkObjects at hlink ⊢
  rw [bind_eq_ok] at hlink
  obtain ⟨⟨finalRam, ramBases⟩, hram, hlink⟩ := hlink
  simp only [bind_eq_ok, exists_unit] at hlink
  obtain ⟨startup, hstartup, htarget, layout, hlayout, hpayload, hbitmap, hstatic, code, hentry,
    floor, hfloor, sections, hrelocate, assembly, hassembly, hresult⟩ := hlink
  have hcodeCount : layout.codeBases.length = objects.length := by
    rw [(layoutPayload_eq_ok hv hlayout).2.1, placeBases_length, List.length_map]
  have hramCount : ramBases.length = objects.length := by
    rw [(placeRam_eq_ok hv (Nat.zero_le _) hram).2.1, List.nil_append, placeBases_length,
      List.length_map]
  have hagain := relocate_reordered h hv ho hcodeCount hramCount hrelocate
  cases hresult
  rw [placeRam_reordered h, bind_eq_ok]
  refine ⟨(finalRam, ramBases), hram, ?_⟩
  simp only [bind_eq_ok, exists_unit, checkTarget_reordered h, layoutPayload_reordered h,
    linkedObject_reordered h]
  exact ⟨startup, hstartup, htarget, layout, hlayout, hpayload, hbitmap, hstatic, code, hentry,
    floor, hfloor, sections, hagain, assembly, hassembly, rfl⟩

end Relocate

/-! ## Loading -/

/-- Two files that decode to the same object, up to the order of its relocations. -/
def SameFile (file other : String × Bytes) : Prop :=
  ∃ object reordered, read file.1 file.2 = .ok object ∧
    read other.1 other.2 = .ok reordered ∧ Reordered object reordered

theorem serializedBytes_reordered {object other : ObjectFile} (h : Reordered object other) :
    other.serializedBytes = object.serializedBytes := by
  have hsum := (h.2.map ObjectFile.relocationBytes).sum_eq
  rw [h.1]
  simp only [ObjectFile.serializedBytes, hsum]

theorem effectiveConfig_reordered {object other : ObjectFile} (h : Reordered object other)
    (options : Options) : effectiveConfig options other = effectiveConfig options object := by
  rw [h.1]
  rfl

theorem head_reordered {objects others : List ObjectFile}
    (h : List.Forall₂ Reordered objects others) (options : Options) (config : CompilerConfig) :
    others.head?.any (fun first => !(effectiveConfig options first).same config) =
      objects.head?.any (fun first => !(effectiveConfig options first).same config) := by
  cases h with
  | nil => rfl
  | cons hfirst _ =>
      simp only [List.head?_cons, Option.any_some, effectiveConfig_reordered hfirst]

/-- Loading files that differ in relocation order succeeds alike. -/
theorem loadObjects_reordered {options : Options} {files others : List (String × Bytes)}
    (h : List.Forall₂ SameFile files others) {objects reordered result : List ObjectFile}
    {totals : InputTotals} (ho : List.Forall₂ Reordered objects reordered)
    (hload : loadObjects options files objects totals = .ok result) :
    ∃ again, loadObjects options others reordered totals = .ok again ∧
      List.Forall₂ Reordered result again := by
  induction h generalizing objects reordered totals with
  | nil =>
      cases hload
      exact ⟨reordered, rfl, ho⟩
  | @cons file other files others hfirst _ ih =>
      obtain ⟨object, next, hread, hnext, hsame⟩ := hfirst
      rcases file with ⟨path, bytes⟩
      rcases other with ⟨otherPath, otherBytes⟩
      have hempty : reordered = [] ↔ objects = [] := by
        rw [← List.length_eq_zero_iff, ← ho.length_eq, List.length_eq_zero_iff]
      have hconfig : next.config = object.config := by rw [hsame.1]
      have hcode : next.codeSection = object.codeSection := by rw [hsame.1]
      have hdata : next.dataSection = object.dataSection := by rw [hsame.1]
      have hram : next.ramSection = object.ramSection := by rw [hsame.1]
      rw [loadObjects, hread, ok_bind] at hload
      rw [loadObjects, hnext, ok_bind]
      simp only [bind_eq_ok, exists_unit] at hload ⊢
      obtain ⟨htarget, hmapping, hbudget, hhead, htotals, hload⟩ := hload
      obtain ⟨again, hagain, hresult⟩ :=
        ih (List.rel_append (R := Reordered) ho (.cons hsame .nil)) hload
      refine ⟨again, ?_, hresult⟩
      simp only [hempty, hconfig, hcode, hdata, hram, serializedBytes_reordered hsame,
        effectiveConfig_reordered hsame, head_reordered ho, checkTotals] at htotals ⊢
      exact ⟨htarget, hmapping, hbudget, hhead, htotals, hagain⟩

/-- A link does not depend on the order of its objects' relocation tables. -/
theorem runLinker_reordered {generate : ObjectFile → Except String String} {options : Options}
    {files others : List (String × Bytes)} {image : Image}
    (h : List.Forall₂ SameFile files others)
    (hlink : runLinker generate options files = .ok image) :
    ∃ objects, runLinker generate options others = .ok { image with objects := objects } := by
  unfold runLinker at hlink ⊢
  simp only [bind_eq_ok, rejectIf_eq_ok, exists_unit] at hlink ⊢
  obtain ⟨hoptions, hfiles, objects, hload, config, hconfig, hobjects⟩ := hlink
  obtain ⟨reordered, hagain, hsame⟩ := loadObjects_reordered h .nil hload
  have hvalid : ∀ object ∈ objects, object.Valid := by
    obtain ⟨loaded, rfl, hread⟩ := loadObjects_eq_ok hload
    exact valid_of_loaded hread
  have hother : ∀ object ∈ reordered, object.Valid := by
    obtain ⟨loaded, rfl, hread⟩ := loadObjects_eq_ok hagain
    exact valid_of_loaded hread
  have hne : others ≠ [] := by
    intro hnil
    subst hnil
    cases h
    exact hfiles rfl
  exact ⟨reordered, hoptions, hne, reordered, hagain, config,
    (linkConfig_reordered hsame options).trans hconfig,
    linkObjects_reordered hsame hvalid hother hobjects⟩

end Disco.Linker
