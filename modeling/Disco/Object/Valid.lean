import Disco.Object.File

/-! # What a validated object satisfies

`Valid` restates the object checks without their order: every table entry is
well formed, names are unique, operand ranges are disjoint and the encoded
object fits the size limit. `validate_eq_ok` ties it to the running checks.
-/

namespace Disco

open Library

/-! ## Operand ranges -/

/-- Two operand ranges share no byte. -/
def Span.Disjoint (left right : Span) : Prop :=
  left.sect = right.sect → left.stop ≤ right.start ∨ right.stop ≤ left.start

theorem Span.Disjoint.symm {left right : Span} (h : left.Disjoint right) : right.Disjoint left :=
  fun he => (h he.symm).symm

theorem SymbolSection.toByte_inj {a b : SymbolSection} (h : a.toByte = b.toByte) : a = b := by
  cases a <;> cases b <;> first | rfl | (exact absurd h (by decide))

theorem Span.before_total (left right : Span) : left.before right ∨ right.before left := by
  unfold Span.before
  by_cases h : left.sect = right.sect
  · simp only [h, ne_eq, not_true_eq_false, if_false]
    exact Nat.le_total _ _
  · have hne : left.sect.toByte ≠ right.sect.toByte := fun he => h (SymbolSection.toByte_inj he)
    simp only [ne_eq, h, not_false_eq_true, if_true, Ne.symm h]
    rcases Nat.lt_or_gt_of_ne (fun he => hne (UInt8.toNat.inj he)) with hlt | hgt
    · exact Or.inl hlt
    · exact Or.inr hgt

theorem Span.before_trans {a b c : Span} (hab : a.before b) (hbc : b.before c) : a.before c := by
  unfold Span.before at *
  by_cases h₁ : a.sect = b.sect
  · by_cases h₂ : b.sect = c.sect
    · simp only [h₁, h₂, ne_eq, not_true_eq_false, if_false] at *
      exact Nat.le_trans hab hbc
    · simp only [h₁, h₂, ne_eq, not_false_eq_true, if_true] at *
      exact hbc
  · by_cases h₂ : b.sect = c.sect
    · rw [h₂] at h₁ hab
      simp only [h₁, ne_eq, not_false_eq_true, if_true] at *
      exact hab
    · simp only [h₁, h₂, ne_eq, not_false_eq_true, if_true] at hab hbc
      have hlt : a.sect.toByte < c.sect.toByte := UInt8.lt_trans hab hbc
      have hne : a.sect ≠ c.sect := by
        intro he
        rw [he] at hlt
        exact absurd hlt (UInt8.lt_irrefl _)
      simp only [ne_eq, hne, not_false_eq_true, if_true]
      exact hlt

instance : Std.Total Span.before := ⟨Span.before_total⟩

instance : IsTrans Span Span.before := ⟨fun _ _ _ => Span.before_trans⟩

/-- On a sorted table of nonempty ranges, disjoint neighbours are enough. -/
theorem neighboursOverlap_eq_false {spans : List Span} (hs : spans.Pairwise Span.before)
    (hne : ∀ span ∈ spans, span.start < span.stop) :
    neighboursOverlap spans = false ↔ spans.Pairwise Span.Disjoint := by
  induction spans with
  | nil => simp [neighboursOverlap]
  | cons first rest ih =>
      have htail := List.Pairwise.of_cons hs
      have hrest := ih htail (fun span hm => hne span (by simp [hm]))
      cases rest with
      | nil => simp [neighboursOverlap]
      | cons second rest =>
          rw [neighboursOverlap, Bool.or_eq_false_iff, hrest, List.pairwise_cons (a := first)]
          simp only [decide_eq_false_iff_not, not_and, Nat.not_lt]
          constructor
          · rintro ⟨hnext, hpairs⟩
            refine ⟨?_, hpairs⟩
            intro span hm heq
            have hfirst : first.before second := (List.pairwise_cons.mp hs).1 second (by simp)
            rcases List.mem_cons.mp hm with rfl | hm
            · exact Or.inl (hnext heq.symm)
            · have hsecond : second.before span := (List.pairwise_cons.mp htail).1 span hm
              -- Sections only grow along the sorted table, so a later span of the
              -- first span's section leaves no room for another section between.
              have hsame : second.sect = first.sect := by
                by_contra hdiff
                unfold Span.before at hfirst hsecond
                rw [if_pos (Ne.symm hdiff)] at hfirst
                rw [← heq, if_pos hdiff] at hsecond
                exact UInt8.lt_irrefl _ (UInt8.lt_trans hfirst hsecond)
              have hle : second.start ≤ span.start := by
                unfold Span.before at hsecond
                rwa [if_neg (by simp [hsame, heq])] at hsecond
              have hstop := hnext hsame
              exact Or.inl (by omega)
          · rintro ⟨hfirst, hpairs⟩
            refine ⟨?_, hpairs⟩
            intro heq
            have horder : first.before second := (List.pairwise_cons.mp hs).1 second (by simp)
            unfold Span.before at horder
            rw [if_neg (by simp [heq])] at horder
            have hpos := hne second (by simp)
            rcases hfirst second (by simp) heq.symm with h | h
            · exact h
            · omega

theorem RelocationEntry.span_nonempty (relocation : RelocationEntry) :
    relocation.span.start < relocation.span.stop := by
  unfold RelocationEntry.span
  split <;> simp

/-! ## Table passes -/

theorem charge_eq_ok {serialized bytes total : Nat} :
    charge serialized bytes = .ok total ↔
      total = serialized + bytes ∧ total ≤ ObjectFile.maxObjectBytes := by
  unfold charge
  rw [rejectIf_bind_eq_ok]
  simp only [Except.ok.injEq]
  constructor
  · rintro ⟨hb, rfl⟩
    exact ⟨rfl, by omega⟩
  · rintro ⟨rfl, hb⟩
    exact ⟨by omega, rfl⟩

namespace ObjectFile

/-- Bytes of one symbol record in the current format. -/
def symbolBytes (symbol : SymbolEntry) : Nat := 9 + symbol.name.length

/-- Bytes of one relocation record in the current format. -/
def relocationBytes (relocation : RelocationEntry) : Nat := 10 + relocation.targetSymbolName.length

/-- The length of the encoded object. -/
def serializedBytes (object : ObjectFile) : Nat :=
  35 + (if object.config.bitmap.enabled then 10 else 0) + object.codeSection.length +
    object.dataSection.length + object.ramSection.length +
    (object.symbolTable.map symbolBytes).sum + (object.relocationTable.map relocationBytes).sum

structure ValidSymbol (object : ObjectFile) (symbol : SymbolEntry) : Prop where
  name : validName symbol.name = .ok ()
  offset : symbol.offset.toNat ≤ (object.sectionBytes symbol.sect).length

structure ValidRelocation (object : ObjectFile) (relocation : RelocationEntry) : Prop where
  notHint : relocation.targetSymbolName ≠ cacheAlignmentSymbol
  name : validName relocation.targetSymbolName = .ok ()
  sect : relocation.sectionToPatch ≠ .ram
  inside : relocation.patchOffset.toNat + relocation.type.patchSize ≤
    (object.sectionBytes relocation.sectionToPatch).length

theorem validName_ne_nil {name : Name} (h : validName name = .ok ()) : name ≠ [] := by
  unfold validName at h
  rw [rejectIf_bind_eq_ok] at h
  exact fun he => h.1 (Or.inl he)

theorem validateRelocation_eq_ok {object : ObjectFile} {relocation : RelocationEntry}
    (hname : validName relocation.targetSymbolName = .ok ()) :
    validateRelocation relocation object = .ok () ↔
      relocation.sectionToPatch ≠ .ram ∧
        relocation.patchOffset.toNat + relocation.type.patchSize ≤
          (object.sectionBytes relocation.sectionToPatch).length := by
  have hne := validName_ne_nil hname
  unfold validateRelocation
  simp only [rejectIf_bind_eq_ok, rejectIf_eq_ok, hne, not_false_eq_true, true_and, Nat.not_lt]
  cases relocation.sectionToPatch <;> simp [sectionBytes]

theorem validateSymbols_eq_ok {object : ObjectFile} {symbols : List SymbolEntry}
    {serialized total : Nat} {names : List Name} (hs : serialized ≤ maxObjectBytes) :
    validateSymbols object symbols serialized names = .ok total ↔
      (∀ symbol ∈ symbols, ValidSymbol object symbol) ∧
        (symbols.map SymbolEntry.name).Nodup ∧
        (∀ symbol ∈ symbols, symbol.name ∉ names) ∧
        total = serialized + (symbols.map symbolBytes).sum ∧ total ≤ maxObjectBytes := by
  induction symbols generalizing serialized names with
  | nil =>
      simp only [validateSymbols, Except.ok.injEq, List.not_mem_nil, false_implies, implies_true,
        List.map_nil, List.nodup_nil, List.sum_nil, Nat.add_zero, true_and]
      omega
  | cons symbol rest ih =>
      simp only [validateSymbols, bind_eq_ok, rejectIf_eq_ok, charge_eq_ok, exists_unit]
      constructor
      · rintro ⟨hname, hoff, middle, ⟨rfl, hmid⟩, hfresh, hrest⟩
        obtain ⟨hvalid, hnodup, hnames, rfl, htotal⟩ := (ih hmid).mp hrest
        refine ⟨?_, ?_, ?_, ?_, htotal⟩
        · intro s hm
          rcases List.mem_cons.mp hm with rfl | hm
          · exact ⟨hname, by omega⟩
          · exact hvalid s hm
        · rw [List.map_cons, List.nodup_cons]
          refine ⟨?_, hnodup⟩
          intro hm
          obtain ⟨s, hs, he⟩ := List.mem_map.mp hm
          exact hnames s hs (by simp [he])
        · intro s hm
          rcases List.mem_cons.mp hm with rfl | hm
          · exact hfresh
          · exact fun hin => hnames s hm (by simp [hin])
        · simp only [List.map_cons, List.sum_cons, symbolBytes]
          omega
      · rintro ⟨hvalid, hnodup, hnames, hsum, htotal⟩
        simp only [List.map_cons, List.sum_cons, symbolBytes] at hsum
        rw [List.map_cons, List.nodup_cons] at hnodup
        obtain ⟨hfirst, hnodup⟩ := hnodup
        have hsym := hvalid symbol (by simp)
        have hmid : serialized + (9 + symbol.name.length) ≤ maxObjectBytes := by omega
        refine ⟨hsym.name, Nat.not_lt.mpr hsym.offset, _, ⟨rfl, hmid⟩, hnames symbol (by simp), ?_⟩
        rw [ih hmid]
        refine ⟨fun s hm => hvalid s (by simp [hm]), hnodup, ?_, ?_, htotal⟩
        · intro s hm hin
          rcases List.mem_cons.mp hin with he | hin
          · exact hfirst (List.mem_map.mpr ⟨s, hm, he⟩)
          · exact hnames s (by simp [hm]) hin
        · omega

theorem validateRelocations_eq_ok {object : ObjectFile} {relocations : List RelocationEntry}
    {serialized total : Nat} (hs : serialized ≤ maxObjectBytes) :
    validateRelocations object relocations serialized = .ok total ↔
      (∀ relocation ∈ relocations, ValidRelocation object relocation) ∧
        total = serialized + (relocations.map relocationBytes).sum ∧ total ≤ maxObjectBytes := by
  induction relocations generalizing serialized with
  | nil =>
      simp only [validateRelocations, Except.ok.injEq, List.not_mem_nil, false_implies,
        implies_true, List.map_nil, List.sum_nil, Nat.add_zero, true_and]
      omega
  | cons relocation rest ih =>
      simp only [validateRelocations, bind_eq_ok, rejectIf_eq_ok, charge_eq_ok, exists_unit]
      constructor
      · rintro ⟨hhint, hname, hreloc, middle, ⟨rfl, hmid⟩, hrest⟩
        obtain ⟨hvalid, rfl, htotal⟩ := (ih hmid).mp hrest
        obtain ⟨hsect, hinside⟩ := (validateRelocation_eq_ok hname).mp hreloc
        refine ⟨?_, ?_, htotal⟩
        · intro r hm
          rcases List.mem_cons.mp hm with rfl | hm
          · exact ⟨hhint, hname, hsect, hinside⟩
          · exact hvalid r hm
        · simp only [List.map_cons, List.sum_cons, relocationBytes]
          omega
      · rintro ⟨hvalid, hsum, htotal⟩
        simp only [List.map_cons, List.sum_cons, relocationBytes] at hsum
        have hrel := hvalid relocation (by simp)
        have hmid : serialized + (10 + relocation.targetSymbolName.length) ≤ maxObjectBytes := by
          omega
        refine ⟨hrel.notHint, hrel.name,
          (validateRelocation_eq_ok hrel.name).mpr ⟨hrel.sect, hrel.inside⟩, _, ⟨rfl, hmid⟩, ?_⟩
        rw [ih hmid]
        exact ⟨fun r hm => hvalid r (by simp [hm]), by omega, htotal⟩

/-! ## Valid objects -/

structure Valid (object : ObjectFile) : Prop where
  alignment : ∃ code, codeAlignment object = .ok code
  bitmap : object.config.bitmap.validate = .ok ()
  bitmapTarget : object.config.bitmap.enabled = true → object.config.target = .gsu
  dataAlignment : ¬ badAlignment object.dataAlignment 128
  ramAlignment : ¬ badAlignment object.ramAlignment 128
  codeSize : object.codeSection.length ≤ maxSectionBytes
  dataSize : object.dataSection.length ≤ maxSectionBytes
  ramSize : object.ramSection.length ≤ 65536
  symbolCount : object.symbolTable.length ≤ maxSymbolCount
  relocationCount : object.relocationTable.length ≤ maxRelocationCount
  symbols : ∀ symbol ∈ object.symbolTable, ValidSymbol object symbol
  names : (object.symbolTable.map SymbolEntry.name).Nodup
  relocations : ∀ relocation ∈ object.relocationTable, ValidRelocation object relocation
  operands : (object.relocationTable.map RelocationEntry.span).Pairwise Span.Disjoint
  size : object.serializedBytes ≤ maxObjectBytes

theorem sortedSpans_disjoint (relocations : List RelocationEntry) :
    neighboursOverlap ((relocations.map RelocationEntry.span).insertionSort Span.before) = false ↔
      (relocations.map RelocationEntry.span).Pairwise Span.Disjoint := by
  have hperm := List.perm_insertionSort Span.before (relocations.map RelocationEntry.span)
  rw [neighboursOverlap_eq_false (List.pairwise_insertionSort _ _)]
  · exact hperm.pairwise_iff fun h => h.symm
  · intro span hm
    obtain ⟨relocation, -, rfl⟩ := List.mem_map.mp (hperm.mem_iff.mp hm)
    exact relocation.span_nonempty

theorem validate_eq_ok {object : ObjectFile} : object.validate = .ok () ↔ object.Valid := by
  have hsize : object.serializedBytes = 35 + (if object.config.bitmap.enabled then 10 else 0) +
    object.codeSection.length + object.dataSection.length + object.ramSection.length +
    (object.symbolTable.map symbolBytes).sum + (object.relocationTable.map relocationBytes).sum := rfl
  unfold validate
  simp only [bind_eq_ok, rejectIf_eq_ok, charge_eq_ok, exists_unit]
  constructor
  · rintro ⟨code, hcode, hbitmap, htarget, halign, hsections, hcounts, start, ⟨rfl, hstart⟩,
      middle, hsymbols, total, hrelocations, hoverlap, htotal⟩
    obtain ⟨hsym, hnodup, -, rfl, hmiddle⟩ := (validateSymbols_eq_ok hstart).mp hsymbols
    obtain ⟨hrel, rfl, hfinal⟩ := (validateRelocations_eq_ok hmiddle).mp hrelocations
    exact {
      alignment := ⟨code, hcode⟩
      bitmap := hbitmap
      bitmapTarget := fun he => by
        by_contra hne
        exact htarget ⟨he, hne⟩
      dataAlignment := fun h => halign (Or.inl h)
      ramAlignment := fun h => halign (Or.inr h)
      codeSize := by omega
      dataSize := by omega
      ramSize := by omega
      symbolCount := by omega
      relocationCount := by omega
      symbols := hsym
      names := hnodup
      relocations := hrel
      operands := (sortedSpans_disjoint _).mp (by simpa using hoverlap)
      size := by rw [hsize]; omega }
  · intro h
    have htotal := h.size
    rw [hsize] at htotal
    have hcode := h.codeSize
    have hdata := h.dataSize
    have hram := h.ramSize
    have hsyms := h.symbolCount
    have hrels := h.relocationCount
    have hmiddle : 35 + (if object.config.bitmap.enabled then 10 else 0) +
        object.codeSection.length + object.dataSection.length + object.ramSection.length + 0 +
        (object.symbolTable.map symbolBytes).sum ≤ maxObjectBytes := by omega
    have hstart : 35 + (if object.config.bitmap.enabled then 10 else 0) +
        object.codeSection.length + object.dataSection.length + object.ramSection.length + 0 ≤
        maxObjectBytes := by omega
    have hsymbols := (validateSymbols_eq_ok hstart).mpr
      ⟨h.symbols, h.names, fun _ _ => List.not_mem_nil, rfl, hmiddle⟩
    have hrelocations := (validateRelocations_eq_ok hmiddle).mpr
      ⟨h.relocations, rfl, by omega⟩
    obtain ⟨code, hcodeAlignment⟩ := h.alignment
    refine ⟨code, hcodeAlignment, h.bitmap, ?_, ?_, by omega, by omega, _, ⟨rfl, hstart⟩, _, hsymbols, _,
      hrelocations, ?_, by omega⟩
    · rintro ⟨he, hne⟩
      exact hne (h.bitmapTarget he)
    · rintro (hd | hr)
      · exact h.dataAlignment hd
      · exact h.ramAlignment hr
    · rw [(sortedSpans_disjoint _).mpr h.operands]
      simp

end ObjectFile

end Disco
