import Disco.Linker.Placed

/-! # What the relocation pass computes

The pass threads the sections through every relocation of every object. Here
it is described without the threading: it succeeds exactly when each relocation
is accepted on its own, and then each object's operands are patched relative to
the bases of that object.
-/

namespace Disco.Linker

open Library

/-! ## One relocation -/

/-- The relocation patches CODE; every other one patches DATA. -/
def patchesCode (relocation : RelocationEntry) : Bool := relocation.sectionToPatch = .code

/-- The section lengths that bound the patches. -/
structure Extent where
  code : Nat
  data : Nat

def Sections.extent (sections : Sections) : Extent := ⟨sections.code.length, sections.data.length⟩

/-- Where the patched section of an object starts. -/
def patchBase (bases : Bases) (relocation : RelocationEntry) : Nat :=
  if relocation.sectionToPatch = .code then bases.code else bases.data

def Extent.bound (extent : Extent) (relocation : RelocationEntry) : Nat :=
  if relocation.sectionToPatch = .code then extent.code else extent.data

/-- A relocation resolves, passes its checks and patches inside its section. -/
def Accepted (context : Context) (object : ObjectFile) (bases : Bases) (extent : Extent)
    (relocation : RelocationEntry) : Prop :=
  ∃ target, resolve context object bases relocation = .ok target ∧
    checkRelocation context object relocation target = .ok () ∧
    patchBase bases relocation + relocation.patchOffset.toNat + relocation.type.patchSize ≤
      extent.bound relocation

/-- The resolved address. -/
def targetAddress (context : Context) (object : ObjectFile) (bases : Bases)
    (relocation : RelocationEntry) : Nat :=
  match resolve context object bases relocation with
  | .ok target => target.address
  | .error _ => 0

theorem targetAddress_of_resolve {context : Context} {object : ObjectFile} {bases : Bases}
    {relocation : RelocationEntry} {target : Target}
    (h : resolve context object bases relocation = .ok target) :
    targetAddress context object bases relocation = target.address := by
  unfold targetAddress
  rw [h]

/-- The kinds of target a relocation can resolve to. -/
inductive ResolvedAs (context : Context) (object : ObjectFile) (bases : Bases)
    (relocation : RelocationEntry) (target : Target) : Prop where
  | privateSymbol (symbol : SymbolEntry) :
      symbol ∈ object.symbolTable → symbol.name = relocation.targetSymbolName →
      isPrivate relocation.targetSymbolName = true →
      target = ⟨sectionAddress context bases symbol.sect + symbol.offset.toNat, symbol.sect,
        symbol.sect = .code ∧ symbol.offset.toNat < object.codeSection.length⟩ →
      ResolvedAs context object bases relocation target
  | stackLimit (suffix : Name) (required : Nat) :
      relocation.targetSymbolName = stackLimitPrefix ++ suffix →
      parseOptionNumber suffix 65535 = .ok required → relocation.type = .addr16Ram →
      context.stackFloor + required ≤ 65535 →
      (context.options.initializeRuntime = true →
        context.stackFloor + required ≤ context.options.stackPointer) →
      target = ⟨ramBankBase context.options + context.stackFloor + required, .ram, false⟩ →
      ResolvedAs context object bases relocation target
  | nearRamBank : relocation.targetSymbolName = nearRamBankSymbol →
      relocation.type = .addr24Bank → target = { address := nearRamBank context.options } →
      ResolvedAs context object bases relocation target
  | nearRomBank : relocation.targetSymbolName = nearRomBankSymbol →
      relocation.type = .addr24Bank →
      target = { address := (romBank context.options context.config <<< 16) |||
        (if romBank context.options context.config ≤ 0x3f then 0x8000 else 0) } →
      ResolvedAs context object bases relocation target
  | publicSymbol (definition : Definition) :
      isPrivate relocation.targetSymbolName = false →
      lookup context.definitions relocation.targetSymbolName = some definition →
      target = ⟨definition.address, definition.sect, definition.instruction⟩ →
      ResolvedAs context object bases relocation target

theorem resolvedAs_of_resolve {context : Context} {object : ObjectFile} {bases : Bases}
    {relocation : RelocationEntry} {target : Target}
    (h : resolve context object bases relocation = .ok target) :
    ResolvedAs context object bases relocation target := by
  unfold resolve at h
  dsimp only at h
  split at h
  · rename_i hprivate
    unfold resolveLocal at h
    split at h
    · cases h
    · rename_i symbol hfind
      rw [rejectIf_bind_eq_ok, bind_eq_ok] at h
      obtain ⟨-, address, haddress, h⟩ := h
      obtain ⟨rfl, -⟩ := checkedAddress_eq_ok.mp haddress
      cases h
      exact .privateSymbol symbol (List.mem_of_find?_eq_some hfind)
        (by simpa using List.find?_some hfind) hprivate rfl
  · rename_i hpublic
    split at h
    · rename_i hlimit
      unfold resolveStackLimit at h
      rw [rejectIf_bind_eq_ok, bind_eq_ok] at h
      obtain ⟨htype, required, hrequired, h⟩ := h
      have hle := parseOptionNumber_le hrequired
      rw [rejectIf_bind_eq_ok, rejectIf_bind_eq_ok] at h
      obtain ⟨hroom, hpointer, h⟩ := h
      cases h
      obtain ⟨suffix, hsuffix⟩ := List.isPrefixOf_iff_prefix.mp hlimit
      rw [← hsuffix, List.drop_left] at hrequired
      refine .stackLimit suffix required hsuffix.symm hrequired ?_ (by omega) ?_ rfl
      · by_contra hne
        exact htype (Or.inl hne)
      · intro hi
        by_contra hgt
        exact hpointer ⟨hi, by omega⟩
    · split at h
      · rename_i hbank
        unfold resolveBank at h
        rw [rejectIf_bind_eq_ok] at h
        obtain ⟨htype, h⟩ := h
        cases h
        have hbankType : relocation.type = .addr24Bank := by
          by_contra hne
          exact htype (Or.inr hne)
        by_cases hram : relocation.targetSymbolName = nearRamBankSymbol
        · exact .nearRamBank hram hbankType (by simp [hram])
        · exact .nearRomBank (hbank.resolve_left hram) hbankType (by simp [hram])
      · split at h
        · cases h
        · rename_i definition hlookup
          cases h
          exact .publicSymbol definition (by simpa using hpublic) hlookup rfl

/-- What the address checks of a GSU relocation guarantee. -/
theorem checkRelocation_gsu {context : Context} {object : ObjectFile}
    {relocation : RelocationEntry} {target : Target} (hgsu : context.config.target = .gsu)
    (h : checkRelocation context object relocation target = .ok ()) :
    target.address ≤ 0xffffff ∧
      (relocation.type = .addr16Jal → target.instruction = true) ∧
      (relocation.type = .addr16Ram →
        target.address / 0x10000 = 0x70 + context.options.ramBank) ∧
      (relocation.type ≠ .addr16Ram → GsuMemoryMap.region target.address ≠ .unmapped) ∧
      (relocation.type = .addr16Jal ∨ relocation.type = .addr16Iwt →
        context.config.codeStartAddress.toNat / 0x10000 = target.address / 0x10000) := by
  unfold checkRelocation at h
  rw [rejectIf_bind_eq_ok, rejectIf_bind_eq_ok, if_pos hgsu] at h
  obtain ⟨hcall, hrange, h⟩ := h
  have hinstruction : relocation.type = .addr16Jal → target.instruction = true := by
    intro htype
    by_contra hne
    exact hcall ⟨htype, by simpa using hne⟩
  refine ⟨by omega, hinstruction, ?_⟩
  have hnear : checkNearTarget context object relocation target = .ok () →
      GsuMemoryMap.region target.address ≠ .unmapped ∧
        context.config.codeStartAddress.toNat / 0x10000 = target.address / 0x10000 := by
    intro hn
    unfold checkNearTarget at hn
    rw [rejectIf_bind_eq_ok, GsuMemoryMap.validateNearTarget_eq_ok] at hn
    exact hn.2.2
  cases htype : relocation.type with
  | addr16Jal =>
      rw [htype] at h
      exact ⟨by simp, fun _ => (hnear h).1, fun _ => (hnear h).2⟩
  | addr16Iwt =>
      rw [htype] at h
      exact ⟨by simp, fun _ => (hnear h).1, fun _ => (hnear h).2⟩
  | addr24Bank =>
      rw [htype] at h
      exact ⟨by simp, fun _ => GsuMemoryMap.validateAddress_eq_ok.mp h, by simp⟩
  | addr24Offset =>
      rw [htype] at h
      exact ⟨by simp, fun _ => GsuMemoryMap.validateAddress_eq_ok.mp h, by simp⟩
  | addr16Ram =>
      rw [htype] at h
      simp only [checkRamTarget, rejectIf_bind_eq_ok, rejectIf_eq_ok, not_not] at h
      exact ⟨fun _ => h.2.2, by simp, by simp⟩

theorem operandWrites_shift (type : RelocationType) (base offset address : Nat) :
    operandWrites type (base + offset) address =
      shiftWrites base (operandWrites type offset address) := by
  cases type <;> rfl

/-- The operand bytes of a relocation, relative to its object's section. -/
def relocationWrites (context : Context) (object : ObjectFile) (bases : Bases)
    (relocation : RelocationEntry) : List Write :=
  operandWrites relocation.type relocation.patchOffset.toNat
    (targetAddress context object bases relocation)

/-- The operand bytes of an object's CODE, relative to its CODE base. -/
def codeWrites (context : Context) (object : ObjectFile) (bases : Bases)
    (relocations : List RelocationEntry) : List Write :=
  (relocations.filter patchesCode).flatMap (relocationWrites context object bases)

/-- The operand bytes of an object's DATA, relative to its DATA base. -/
def dataWrites (context : Context) (object : ObjectFile) (bases : Bases)
    (relocations : List RelocationEntry) : List Write :=
  (relocations.filter (!patchesCode ·)).flatMap (relocationWrites context object bases)

/-- Sections after an object's operands have been patched in place. -/
def patchSections (context : Context) (object : ObjectFile) (bases : Bases)
    (relocations : List RelocationEntry) (sections : Sections) : Sections where
  code := applyWrites (shiftWrites bases.code (codeWrites context object bases relocations))
    sections.code
  data := applyWrites (shiftWrites bases.data (dataWrites context object bases relocations))
    sections.data

@[simp] theorem patchSections_extent (context : Context) (object : ObjectFile) (bases : Bases)
    (relocations : List RelocationEntry) (sections : Sections) :
    (patchSections context object bases relocations sections).extent = sections.extent := by
  simp [patchSections, Sections.extent]

theorem patchSections_cons (context : Context) (object : ObjectFile) (bases : Bases)
    (relocation : RelocationEntry) (rest : List RelocationEntry) (sections : Sections) :
    patchSections context object bases (relocation :: rest) sections =
      patchSections context object bases rest
        (patchSections context object bases [relocation] sections) := by
  cases h : patchesCode relocation
  · simp [patchSections, codeWrites, dataWrites, h, applyWrites_append, shiftWrites, applyWrites]
  · simp [patchSections, codeWrites, dataWrites, h, applyWrites_append, shiftWrites, applyWrites]

theorem patch_eq_ok {context : Context} {object : ObjectFile} {bases : Bases}
    {relocation : RelocationEntry} {target : Target} {sections result : Sections}
    (ht : resolve context object bases relocation = .ok target) :
    patch bases relocation target.address sections = .ok result ↔
      patchBase bases relocation + relocation.patchOffset.toNat + relocation.type.patchSize ≤
          sections.extent.bound relocation ∧
        result = patchSections context object bases [relocation] sections := by
  unfold patch patchBase Extent.bound
  by_cases hcode : relocation.sectionToPatch = .code
  · have hp : patchesCode relocation = true := by simp [patchesCode, hcode]
    simp only [hcode, if_true, rejectIf_bind_eq_ok, Except.ok.injEq, Nat.not_lt, patchSections,
      codeWrites, dataWrites, hp, List.filter_cons, List.filter_nil, Bool.not_true,
      Bool.false_eq_true, if_false, List.flatMap_cons, List.flatMap_nil, List.append_nil,
      relocationWrites, targetAddress_of_resolve ht, ← operandWrites_shift]
    exact and_congr_right fun _ => ⟨fun h => h.symm, fun h => h.symm⟩
  · have hp : patchesCode relocation = false := by simp [patchesCode, hcode]
    simp only [hcode, if_false, rejectIf_bind_eq_ok, Except.ok.injEq, Nat.not_lt, patchSections,
      codeWrites, dataWrites, hp, List.filter_cons, List.filter_nil, Bool.not_false, if_true,
      Bool.false_eq_true, List.flatMap_cons, List.flatMap_nil, List.append_nil,
      relocationWrites, targetAddress_of_resolve ht, ← operandWrites_shift]
    exact and_congr_right fun _ => ⟨fun h => h.symm, fun h => h.symm⟩

/-- Operands lie inside the placeholder instruction, behind its opcode. -/
theorem mem_operandWrites {type : RelocationType} {index address : Nat} {write : Write}
    (h : write ∈ operandWrites type index address) :
    index < write.1 ∧ write.1 < index + type.patchSize := by
  cases type <;> simp only [operandWrites, List.mem_cons, List.not_mem_nil, or_false] at h <;>
    simp only [RelocationType.patchSize] <;> rcases h with rfl | rfl <;> simp

theorem relocationWrites_lt {context : Context} {object : ObjectFile} {bases : Bases}
    {relocation : RelocationEntry} (hv : object.ValidRelocation relocation) {write : Write}
    (h : write ∈ relocationWrites context object bases relocation) :
    write.1 < (object.sectionBytes relocation.sectionToPatch).length := by
  have hin := hv.inside
  have hlt := (mem_operandWrites h).2
  omega

theorem patchesCode_table (object : ObjectFile) :
    ∀ relocation ∈ object.relocationTable.filter patchesCode,
      relocation.sectionToPatch = .code := by
  intro relocation hm
  simpa [patchesCode] using (List.mem_filter.mp hm).2

/-- No relocation of a valid object patches RAM. -/
theorem patchesData_table {object : ObjectFile} (hv : object.Valid) :
    ∀ relocation ∈ object.relocationTable.filter (!patchesCode ·),
      relocation.sectionToPatch = .data := by
  intro relocation hm
  obtain ⟨htable, hdata⟩ := List.mem_filter.mp hm
  have hram := (hv.relocations relocation htable).sect
  cases hs : relocation.sectionToPatch <;> simp_all [patchesCode]

/-- Relocations of one section keep disjoint operands. -/
theorem operands_filter {object : ObjectFile} (hv : object.Valid)
    (keep : RelocationEntry → Bool) :
    ((object.relocationTable.filter keep).map RelocationEntry.span).Pairwise Span.Disjoint :=
  List.Pairwise.sublist (List.filter_sublist.map _) hv.operands

theorem codeWrites_lt {context : Context} {object : ObjectFile} {bases : Bases}
    (hv : object.Valid) : ∀ write ∈ codeWrites context object bases object.relocationTable,
      write.1 < object.codeSection.length := by
  intro write hm
  obtain ⟨relocation, hr, hw⟩ := List.mem_flatMap.mp hm
  have hlt := relocationWrites_lt (hv.relocations relocation (List.mem_filter.mp hr).1) hw
  rwa [patchesCode_table object relocation hr] at hlt

theorem dataWrites_lt {context : Context} {object : ObjectFile} {bases : Bases}
    (hv : object.Valid) : ∀ write ∈ dataWrites context object bases object.relocationTable,
      write.1 < object.dataSection.length := by
  intro write hm
  obtain ⟨relocation, hr, hw⟩ := List.mem_flatMap.mp hm
  have hlt := relocationWrites_lt (hv.relocations relocation (List.mem_filter.mp hr).1) hw
  rwa [patchesData_table hv relocation hr] at hlt

/-! ## Operand bytes -/

/-- The writes of a relocation fill its operand range. -/
theorem relocationWrites_span {context : Context} {object : ObjectFile} {bases : Bases}
    {relocation : RelocationEntry} {write : Write}
    (h : write ∈ relocationWrites context object bases relocation) :
    relocation.span.start ≤ write.1 ∧ write.1 < relocation.span.stop := by
  unfold relocationWrites operandWrites at h
  unfold RelocationEntry.span
  split at h
  · rename_i htype
    simp only [List.mem_singleton] at h
    subst h
    simp [htype]
  · rename_i htype
    simp only [List.mem_cons, List.not_mem_nil, or_false] at h
    rw [if_neg (fun he => htype he)]
    dsimp only
    rcases h with rfl | rfl <;> dsimp only <;> omega

theorem operandWrites_nodup (type : RelocationType) (index address : Nat) :
    ((operandWrites type index address).map Prod.fst).Nodup := by
  cases type <;> simp [operandWrites]

section Table

variable {context : Context} {object : ObjectFile} {bases : Bases} {sect : SymbolSection}
  {relocations : List RelocationEntry}

/-- No operand byte of a section is written twice. -/
theorem tableWrites_nodup (hs : ∀ relocation ∈ relocations, relocation.sectionToPatch = sect)
    (hd : (relocations.map RelocationEntry.span).Pairwise Span.Disjoint) :
    ((relocations.flatMap (relocationWrites context object bases)).map Prod.fst).Nodup := by
  rw [List.map_flatMap, List.nodup_flatMap]
  refine ⟨fun relocation _ => operandWrites_nodup _ _ _, ?_⟩
  rw [List.pairwise_map] at hd
  apply List.Pairwise.imp_of_mem ?_ hd
  intro left right hl hr hdisjoint position hleft hright
  obtain ⟨first, hfirst, rfl⟩ := List.mem_map.mp hleft
  obtain ⟨second, hsecond, heq⟩ := List.mem_map.mp hright
  have hspan := relocationWrites_span hfirst
  have hother := relocationWrites_span hsecond
  have hsame : left.span.sect = right.span.sect := (hs left hl).trans (hs right hr).symm
  rcases hdisjoint hsame with h | h <;> omega

/-- Every operand is found in the patched section. -/
theorem patched_operand (hs : ∀ relocation ∈ relocations, relocation.sectionToPatch = sect)
    (hd : (relocations.map RelocationEntry.span).Pairwise Span.Disjoint) {bytes : Bytes}
    {relocation : RelocationEntry} (hr : relocation ∈ relocations) {write : Write}
    (hw : write ∈ relocationWrites context object bases relocation)
    (hlt : write.1 < bytes.length) :
    (applyWrites (relocations.flatMap (relocationWrites context object bases)) bytes)[write.1]? =
      some write.2 :=
  applyWrites_getElem?_of_mem (tableWrites_nodup hs hd)
    (List.mem_flatMap.mpr ⟨relocation, hr, hw⟩) hlt

/-- Every other byte of the section keeps its value. -/
theorem patched_other {bytes : Bytes} {k : Nat}
    (hk : ∀ relocation ∈ relocations, ¬ (relocation.span.start ≤ k ∧ k < relocation.span.stop)) :
    (applyWrites (relocations.flatMap (relocationWrites context object bases)) bytes)[k]? =
      bytes[k]? := by
  apply applyWrites_getElem?_of_notMem
  intro hm
  obtain ⟨write, hw, rfl⟩ := List.mem_map.mp hm
  obtain ⟨relocation, hr, hwrite⟩ := List.mem_flatMap.mp hw
  exact hk relocation hr (relocationWrites_span hwrite)

end Table

/-! ## One object -/

/-- An object's pass succeeds exactly when every relocation is accepted, and
then it patches their operands. -/
theorem relocateObject_eq_ok {context : Context} {object : ObjectFile} {bases : Bases}
    {relocations : List RelocationEntry} {sections result : Sections} :
    relocateObject context object bases relocations sections = .ok result ↔
      (∀ relocation ∈ relocations,
        Accepted context object bases sections.extent relocation) ∧
      result = patchSections context object bases relocations sections := by
  induction relocations generalizing sections with
  | nil =>
      rw [relocateObject]
      simp [patchSections, codeWrites, dataWrites, shiftWrites, applyWrites, eq_comm]
  | cons relocation rest ih =>
      rw [relocateObject, patchSections_cons]
      simp only [bind_eq_ok, exists_unit, List.forall_mem_cons]
      constructor
      · intro h
        obtain ⟨target, ht, hcheck, middle, hpatch, h⟩ := h
        obtain ⟨hbound, rfl⟩ := (patch_eq_ok ht).mp hpatch
        obtain ⟨hrest, rfl⟩ := ih.mp h
        rw [patchSections_extent] at hrest
        exact ⟨⟨⟨target, ht, hcheck, hbound⟩, hrest⟩, rfl⟩
      · intro h
        obtain ⟨⟨⟨target, ht, hcheck, hbound⟩, hrest⟩, rfl⟩ := h
        refine ⟨target, ht, hcheck, _, (patch_eq_ok ht).mpr ⟨hbound, rfl⟩, ?_⟩
        rw [ih, patchSections_extent]
        exact ⟨hrest, rfl⟩

/-! ## All objects -/

/-- The bases the pass uses: CODE and RAM as recorded, DATA advanced again. -/
def passBases (dataStart : Nat) : List (ObjectFile × Nat × Nat) → Nat → List (ObjectFile × Bases)
  | [], _ => []
  | (object, codeBase, ramBase) :: rest, currentDataBase =>
      let alignment := object.dataAlignment.toNat
      let dataBase := alignOffset dataStart alignment alignment currentDataBase
      (object, ⟨codeBase, dataBase, ramBase⟩) ::
        passBases dataStart rest (dataBase + object.dataSection.length)

/-- Every object's operands patched in place. -/
def patchAll (context : Context) (items : List (ObjectFile × Bases)) (sections : Sections) :
    Sections where
  code := applyWrites (items.flatMap fun item => shiftWrites item.2.code
    (codeWrites context item.1 item.2 item.1.relocationTable)) sections.code
  data := applyWrites (items.flatMap fun item => shiftWrites item.2.data
    (dataWrites context item.1 item.2 item.1.relocationTable)) sections.data

theorem relocate_eq_ok {context : Context} {placed : List (ObjectFile × Nat × Nat)}
    {dataBase : Nat} {sections result : Sections} :
    relocate context placed dataBase sections = .ok result ↔
      (∀ item ∈ passBases context.dataStart placed dataBase,
        ∀ relocation ∈ item.1.relocationTable,
          Accepted context item.1 item.2 sections.extent relocation) ∧
      result = patchAll context (passBases context.dataStart placed dataBase) sections := by
  induction placed generalizing dataBase sections with
  | nil =>
      rw [relocate]
      simp [passBases, patchAll, applyWrites, eq_comm]
  | cons entry rest ih =>
      rcases entry with ⟨object, codeBase, ramBase⟩
      rw [relocate, passBases]
      simp only [bind_eq_ok, List.forall_mem_cons, relocateObject_eq_ok]
      constructor
      · intro h
        obtain ⟨middle, ⟨hobject, rfl⟩, h⟩ := h
        obtain ⟨hrest, rfl⟩ := ih.mp h
        rw [patchSections_extent] at hrest
        refine ⟨⟨hobject, hrest⟩, ?_⟩
        simp [patchAll, patchSections, applyWrites_append]
      · intro h
        obtain ⟨⟨hobject, hrest⟩, rfl⟩ := h
        refine ⟨_, ⟨hobject, rfl⟩, ?_⟩
        rw [ih, patchSections_extent]
        refine ⟨hrest, ?_⟩
        simp [patchAll, patchSections, applyWrites_append]

/-- The second computation of the DATA bases agrees with the placement. -/
theorem passBases_eq {dataStart : Nat} {objects : List ObjectFile} {codeBases ramBases : List Nat}
    {dataBase : Nat} (hv : ∀ object ∈ objects, object.Valid)
    (hcode : codeBases.length = objects.length) (hram : ramBases.length = objects.length) :
    passBases dataStart (objects.zip (codeBases.zip ramBases)) dataBase =
      objects.zip (codeBases.zipWith (fun code rest => ⟨code, rest.1, rest.2⟩)
        ((placeBases dataStart (objects.map dataPiece) dataBase).zip ramBases)) := by
  induction objects generalizing codeBases ramBases dataBase with
  | nil => rfl
  | cons object rest ih =>
      have hpos : 0 < object.dataAlignment.toNat := dataPiece_pos (hv object (by simp))
      cases codeBases with
      | nil => simp at hcode
      | cons codeBase codeBases =>
          cases ramBases with
          | nil => simp at hram
          | cons ramBase ramBases =>
              rw [List.zip_cons_cons, List.zip_cons_cons, passBases,
                alignOffset_eq hpos (Nat.le_of_lt (gap_lt hpos)),
                ih (fun o hm => hv o (by simp [hm])) (by simpa using hcode) (by simpa using hram)]
              rfl

end Disco.Linker
