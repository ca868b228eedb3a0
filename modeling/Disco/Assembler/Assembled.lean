import Disco.Assembler.Layout

/-! # A finished assembly

What holds of every object the assembler returns, line by line: where each
line lies, what the displacement of a short branch is, and which bytes,
relocation and private symbol a relaxed branch has left behind.
-/

namespace Disco.Assembler

open Library Linker

/-! ## The parts of a run -/

/-- The object before the first line. -/
def startEmitted (settings : Settings) : Emitted := { object := emptyObject settings }

/-- A finished run, taken apart. -/
structure Assembled (assembly : Assembly) : Prop where
  numbered : Numbered assembly.parsed.lines
  labelled : ∀ line ∈ assembly.parsed.lines, Labelled line
  relaxed : Relaxed assembly.parsed.lines assembly.relaxation
  emitted : foldAll (secondPassLine assembly.relaxation.relaxed)
    (startEmitted assembly.parsed.settings) assembly.parsed.lines = .ok assembly.emitted
  object : ∃ code, foldAll (resolveFixup assembly.relaxation.pass)
      assembly.emitted.object.codeSection assembly.emitted.fixups = .ok code ∧
    addExportedSymbols assembly.relaxation.pass
      (addInternalSymbols assembly.relaxation.pass assembly.relaxation.relaxed
        assembly.parsed.lines { assembly.emitted.object with codeSection := code }) =
      .ok assembly.object

theorem assembled_of_run {source : Text} {assembly : Assembly}
    (h : runAssembler source = .ok assembly) : Assembled assembly := by
  unfold runAssembler at h
  obtain ⟨⟨parsed, pass⟩, hprepare, h⟩ := bind_eq_ok.mp h
  obtain ⟨relaxation, hrelax, h⟩ := bind_eq_ok.mp h
  rw [mapError_eq_ok] at hprepare h
  unfold prepare at hprepare
  obtain ⟨parsed', hparse, hprepare⟩ := bind_eq_ok.mp hprepare
  obtain ⟨-, -, hprepare⟩ := bind_eq_ok.mp hprepare
  obtain ⟨-, -, hprepare⟩ := bind_eq_ok.mp hprepare
  obtain ⟨pass', hpass, hprepare⟩ := bind_eq_ok.mp hprepare
  cases hprepare
  unfold finish at h
  obtain ⟨emitted, hemitted, h⟩ := bind_eq_ok.mp h
  obtain ⟨resolved, hresolved, h⟩ := bind_eq_ok.mp h
  obtain ⟨object, hobject, h⟩ := bind_eq_ok.mp h
  cases h
  unfold resolveBranches at hresolved
  obtain ⟨code, hcode, hresolved⟩ := bind_eq_ok.mp hresolved
  cases hresolved
  exact ⟨parse_numbered hparse, parse_labelled hparse, relaxBranches_eq_ok hpass hrelax, hemitted,
    code, hcode, hobject⟩

/-! ## A line in its place -/

/-- The passes around one line. -/
structure Split (assembly : Assembly) (before after : List ParsedLine) (line : ParsedLine)
    (pass : FirstPass) (emitted next : Emitted) : Prop where
  lines : assembly.parsed.lines = before ++ line :: after
  first : foldAll (firstPassLine assembly.relaxation.relaxed) {} before = .ok pass
  second : foldAll (secondPassLine assembly.relaxation.relaxed)
    (startEmitted assembly.parsed.settings) before = .ok emitted
  agree : Agree pass emitted
  step : ∃ passNext, firstPassLine assembly.relaxation.relaxed pass line = .ok passNext ∧
    foldAll (firstPassLine assembly.relaxation.relaxed) passNext after =
      .ok assembly.relaxation.pass
  emits : secondPassLine assembly.relaxation.relaxed emitted line = .ok next
  rest : foldAll (secondPassLine assembly.relaxation.relaxed) next after = .ok assembly.emitted

section Facts

variable {assembly : Assembly} (ha : Assembled assembly)

include ha

theorem Assembled.split {before after : List ParsedLine} {line : ParsedLine}
    (h : assembly.parsed.lines = before ++ line :: after) :
    ∃ pass emitted next, Split assembly before after line pass emitted next := by
  have hfirst := ha.relaxed.pass
  have hsecond := ha.emitted
  rw [h, foldAll_append] at hfirst hsecond
  obtain ⟨pass, hpass, hfirst⟩ := bind_eq_ok.mp hfirst
  obtain ⟨emitted, hemitted, hsecond⟩ := bind_eq_ok.mp hsecond
  obtain ⟨passNext, hstep, hfirst⟩ := bind_eq_ok.mp hfirst
  obtain ⟨next, hemits, hsecond⟩ := bind_eq_ok.mp hsecond
  have hstart : Agree {} (startEmitted assembly.parsed.settings) := by
    intro sect
    cases sect <;> rfl
  exact ⟨pass, emitted, next, h, hpass, hemitted, agree_lines hstart hpass hemitted,
    ⟨passNext, hstep, hfirst⟩, hemits, hsecond⟩

omit ha in
/-- A label's offset is what has been emitted before its line. -/
theorem Split.label {before after : List ParsedLine} {line : ParsedLine} {pass : FirstPass}
    {emitted next : Emitted} (h : Split assembly before after line pass emitted next)
    (hl : line.label ≠ []) : assembly.relaxation.pass.lookup line.label =
      some ⟨symbolSection line.sect, (emitted.output line.sect).length⟩ := by
  obtain ⟨passNext, hstep, hrest⟩ := h.step
  apply firstPassLines_lookup hrest
  have hspec := firstPassLine_eq_ok hstep
  have hnone := hspec.fresh hl
  rw [FirstPass.lookup, Option.map_eq_none_iff] at hnone
  rw [FirstPass.lookup, hspec.symbols, if_neg hl, List.find?_append, hnone, h.agree]
  simp

/-- The recorded offset of a line of CODE is where its bytes begin. -/
theorem Split.codeOffset {before after : List ParsedLine} {line : ParsedLine} {pass : FirstPass}
    {emitted next : Emitted} (h : Split assembly before after line pass emitted next)
    (hd : isDirective line.operation = false) (hs : line.sect = .code) :
    assembly.relaxation.pass.codeOffset line.lineNumber =
      some emitted.object.codeSection.length := by
  obtain ⟨passNext, hstep, hrest⟩ := h.step
  apply firstPassLines_codeOffset hrest
  have hspec := firstPassLine_eq_ok hstep
  have hnone : (pass.codeOffsets.find? fun entry => entry.1 = line.lineNumber) = none := by
    rw [List.find?_eq_none]
    intro entry hm heq
    obtain ⟨other, ho, hnumber⟩ := firstPassLines_numbers h.first entry hm
    have hnumbered := ha.numbered
    rw [h.lines] at hnumbered
    have hlt := (List.pairwise_append.mp hnumbered).2.2 other ho line List.mem_cons_self
    have heq' : entry.1 = line.lineNumber := by simpa using heq
    omega
  have hagree : emitted.object.codeSection.length = pass.code := h.agree .code
  rw [FirstPass.codeOffset, hspec.codeOffsets, if_pos ⟨hd, hs⟩, List.find?_append, hnone, hagree]
  simp

end Facts

/-! ## Bytes -/

/-- An encoding of CODE at an offset: its bytes lie there, and nothing else
that is filled in later touches them. -/
structure LinePlaced (emitted : Emitted) (offset : Nat) (encoded : Encoded) : Prop where
  code : ∃ before after, emitted.object.codeSection = before ++ encoded.bytes ++ after ∧
    before.length = offset
  fixups : ∃ before after, emitted.fixups = before ++ encoded.fixups ++ after ∧
    (∀ fixup ∈ before, fixup.patchOffset < offset) ∧
    ∀ fixup ∈ after, offset + encoded.bytes.length ≤ fixup.patchOffset
  relocations : ∃ before after,
    emitted.object.relocationTable = before ++ encoded.relocations ++ after ∧
    (∀ relocation ∈ before, relocation.sectionToPatch = .code →
      ∃ start, relocation.patchOffset = UInt32.ofNat start ∧
        start + relocation.type.patchSize ≤ offset) ∧
    ∀ relocation ∈ after, relocation.sectionToPatch = .code →
      ∃ start, relocation.patchOffset = UInt32.ofNat start ∧
        offset + encoded.bytes.length ≤ start ∧ start < emitted.object.codeSection.length

theorem Split.placed {assembly : Assembly} {before after : List ParsedLine} {line : ParsedLine}
    {pass : FirstPass} {emitted next : Emitted}
    (h : Split assembly before after line pass emitted next)
    (hd : isDirective line.operation = false) (hs : line.sect = .code) :
    ∃ encoded, encodeLine assembly.relaxation.relaxed line emitted.object.codeSection.length =
        .ok encoded ∧
      LinePlaced assembly.emitted emitted.object.codeSection.length encoded := by
  rcases secondPassLine_eq_ok h.emits with ⟨hd', -⟩ | ⟨-, encoded, hencode, rfl⟩
  · rw [hd] at hd'
    cases hd'
  rw [hs] at hencode
  have hbefore := extends_lines h.second
  have hafter := extends_lines h.rest
  have hcode : (emitted.emit line.sect encoded).object.codeSection =
      emitted.object.codeSection ++ encoded.bytes := by
    rw [hs]
    rfl
  have htable : (emitted.emit line.sect encoded).object.relocationTable =
      emitted.object.relocationTable ++ encoded.relocations := by
    rw [hs]
    rfl
  obtain ⟨fixups, hfixups, hlow⟩ := hbefore.fixups
  obtain ⟨table, htables, htlow⟩ := hbefore.relocations
  obtain ⟨codeAfter, hcodeAfter⟩ := hafter.code
  obtain ⟨fixupsAfter, hfixupsAfter, hhigh⟩ := hafter.fixups
  obtain ⟨tableAfter, htableAfter, hthigh⟩ := hafter.relocations
  refine ⟨encoded, hencode, ⟨_, codeAfter, by rw [hcodeAfter, hcode], rfl⟩,
    ⟨emitted.fixups, fixupsAfter, hfixupsAfter, ?_, ?_⟩,
    ⟨emitted.object.relocationTable, tableAfter, by rw [htableAfter, htable], ?_, ?_⟩⟩
  · intro fixup hm
    rw [hfixups] at hm
    exact (hlow fixup hm).2
  · intro fixup hm
    have := (hhigh fixup hm).1
    rwa [hcode, List.length_append] at this
  · intro relocation hm hsect
    rw [htables] at hm
    obtain ⟨start, hstart, -, hend⟩ := htlow relocation hm hsect
    exact ⟨start, hstart, hend⟩
  · intro relocation hm hsect
    obtain ⟨start, hstart, hbegin, hend⟩ := hthigh relocation hm hsect
    rw [hcode, List.length_append] at hbegin
    have hsize := (RelocationType.patchSize_bounds relocation.type).1
    exact ⟨start, hstart, hbegin, by omega⟩

theorem LinePlaced.byte {emitted : Emitted} {offset : Nat} {encoded : Encoded}
    (h : LinePlaced emitted offset encoded) {i : Nat} (hi : i < encoded.bytes.length) :
    emitted.object.codeSection[offset + i]? = encoded.bytes[i]? := by
  obtain ⟨before, after, hcode, rfl⟩ := h.code
  rw [hcode, List.append_assoc, List.getElem?_append_right (Nat.le_add_right _ _),
    Nat.add_sub_cancel_left, List.getElem?_append_left hi]

theorem LinePlaced.length_le {emitted : Emitted} {offset : Nat} {encoded : Encoded}
    (h : LinePlaced emitted offset encoded) :
    offset + encoded.bytes.length ≤ emitted.object.codeSection.length := by
  obtain ⟨before, after, hcode, rfl⟩ := h.code
  simp [hcode]

/-! ## Displacements -/

theorem resolveFixup_eq_ok {pass : FirstPass} {code result : Bytes} {fixup : BranchFixup}
    (h : resolveFixup pass code fixup = .ok result) :
    ∃ symbol, pass.lookup fixup.target = some symbol ∧ symbol.sect = .code ∧
      ¬ outOfRange ((symbol.offset : Int) - ((fixup.patchOffset : Int) + 1)) ∧
      fixup.patchOffset < code.length ∧
      result = code.set fixup.patchOffset
        (UInt8.ofInt ((symbol.offset : Int) - ((fixup.patchOffset : Int) + 1))) := by
  unfold resolveFixup at h
  split at h
  · cases h
  · rename_i symbol hsymbol
    unfold failIf at h
    simp only [rejectIf_bind_eq_ok, not_not, ge_iff_le, not_le, Except.ok.injEq] at h
    obtain ⟨hsect, hrange, hlt, rfl⟩ := h
    exact ⟨symbol, hsymbol, hsect, hrange, hlt, rfl⟩

theorem resolveFixups_length {pass : FirstPass} {code result : Bytes} {fixups : List BranchFixup}
    (h : foldAll (resolveFixup pass) code fixups = .ok result) : result.length = code.length := by
  apply foldAll_preserves (I := fun bytes : Bytes => bytes.length = code.length) ?_ rfl h
  intro bytes fixup next hb hstep
  obtain ⟨symbol, -, -, -, -, rfl⟩ := resolveFixup_eq_ok hstep
  rw [List.length_set, hb]

/-- Only displacement bytes change. -/
theorem resolveFixups_other {pass : FirstPass} {code result : Bytes} {fixups : List BranchFixup}
    {k : Nat} (hk : ∀ fixup ∈ fixups, fixup.patchOffset ≠ k)
    (h : foldAll (resolveFixup pass) code fixups = .ok result) : result[k]? = code[k]? := by
  induction fixups generalizing code with
  | nil =>
      cases h
      rfl
  | cons fixup rest ih =>
      obtain ⟨middle, hstep, h⟩ := bind_eq_ok.mp h
      obtain ⟨symbol, -, -, -, -, rfl⟩ := resolveFixup_eq_ok hstep
      rw [ih (fun other hm => hk other (List.mem_cons_of_mem _ hm)) h,
        List.getElem?_set_ne (hk fixup List.mem_cons_self)]

/-- A displacement that no other record shares is the distance to its label. -/
theorem resolveFixups_own {pass : FirstPass} {code result : Bytes}
    {before after : List BranchFixup} {fixup : BranchFixup}
    (ha : ∀ other ∈ after, other.patchOffset ≠ fixup.patchOffset)
    (h : foldAll (resolveFixup pass) code (before ++ [fixup] ++ after) = .ok result) :
    ∃ symbol, pass.lookup fixup.target = some symbol ∧ symbol.sect = .code ∧
      ¬ outOfRange ((symbol.offset : Int) - ((fixup.patchOffset : Int) + 1)) ∧
      result[fixup.patchOffset]? =
        some (UInt8.ofInt ((symbol.offset : Int) - ((fixup.patchOffset : Int) + 1))) := by
  rw [List.append_assoc, foldAll_append] at h
  obtain ⟨start, -, h⟩ := bind_eq_ok.mp h
  obtain ⟨middle, hstep, h⟩ := bind_eq_ok.mp h
  obtain ⟨symbol, hl, hs, hr, hlt, rfl⟩ := resolveFixup_eq_ok hstep
  refine ⟨symbol, hl, hs, hr, ?_⟩
  rw [resolveFixups_other ha h, List.getElem?_set_self hlt]

/-! ## Private symbols -/

/-- A relocation of the finished object: private when its label is. -/
def internalized (pass : FirstPass) (relocation : RelocationEntry) : RelocationEntry :=
  if (pass.lookup relocation.targetSymbolName).isSome = true ∧
      relocation.targetSymbolName ∉ pass.exports then
    { relocation with targetSymbolName := internalName relocation.targetSymbolName }
  else relocation

@[simp] theorem internalized_sectionToPatch (pass : FirstPass) (relocation : RelocationEntry) :
    (internalized pass relocation).sectionToPatch = relocation.sectionToPatch := by
  unfold internalized
  split <;> rfl

@[simp] theorem internalized_patchOffset (pass : FirstPass) (relocation : RelocationEntry) :
    (internalized pass relocation).patchOffset = relocation.patchOffset := by
  unfold internalized
  split <;> rfl

@[simp] theorem internalized_type (pass : FirstPass) (relocation : RelocationEntry) :
    (internalized pass relocation).type = relocation.type := by
  unfold internalized
  split <;> rfl

@[simp] theorem add_relocationTable (state : Internal) (name : Text) (sect : SymbolSection)
    (offset : Nat) : (state.add name sect offset).relocationTable = state.relocationTable := by
  unfold Internal.add
  split <;> rfl

theorem internalizeRelocation_table (pass : FirstPass) (state : Internal)
    (relocation : RelocationEntry) : (internalizeRelocation pass state relocation).relocationTable =
      state.relocationTable ++ [internalized pass relocation] := by
  unfold internalizeRelocation internalized
  cases pass.lookup relocation.targetSymbolName with
  | none => simp
  | some symbol =>
      by_cases he : relocation.targetSymbolName ∈ pass.exports
      · simp [he]
      · simp [he]

theorem internalizeBranch_table (pass : FirstPass) (relaxed : List Nat) (state : Internal)
    (line : ParsedLine) :
    (internalizeBranch pass relaxed state line).relocationTable = state.relocationTable := by
  unfold internalizeBranch
  split
  · split <;> simp
  · rfl

/-- The finished table has the emitted relocations in their order. -/
theorem addInternalSymbols_relocationTable (pass : FirstPass) (relaxed : List Nat)
    (lines : List ParsedLine) (object : ObjectFile) :
    (addInternalSymbols pass relaxed lines object).relocationTable =
      object.relocationTable.map (internalized pass) := by
  have hlines : ∀ (lines : List ParsedLine) (state : Internal),
      (lines.foldl (internalizeBranch pass relaxed) state).relocationTable =
        state.relocationTable := by
    intro lines
    induction lines with
    | nil => simp
    | cons line rest ih =>
        intro state
        rw [List.foldl_cons, ih, internalizeBranch_table]
  have htable : ∀ (table : List RelocationEntry) (state : Internal),
      (table.foldl (internalizeRelocation pass) state).relocationTable =
        state.relocationTable ++ table.map (internalized pass) := by
    intro table
    induction table with
    | nil => simp
    | cons relocation rest ih =>
        intro state
        rw [List.foldl_cons, ih, internalizeRelocation_table, List.map_cons, List.append_assoc]
        rfl
  show Internal.relocationTable (lines.foldl (internalizeBranch pass relaxed)
    (object.relocationTable.foldl (internalizeRelocation pass) _)) = _
  rw [hlines, htable, List.nil_append]

/-- Once a label of CODE is private, its symbol is in the table. -/
def HasSymbol (label : Text) (offset : Nat) (state : Internal) : Prop :=
  label ∈ state.added → ⟨internalName label, .code, UInt32.ofNat offset⟩ ∈ state.symbolTable

theorem hasSymbol_add {label name : Text} {offset other : Nat} {sect : SymbolSection}
    {state : Internal} (h : HasSymbol label offset state)
    (hsame : name = label → sect = .code ∧ other = offset) :
    HasSymbol label offset (state.add name sect other) := by
  unfold Internal.add
  split
  · exact h
  · intro hm
    rcases List.mem_append.mp hm with hm | hm
    · exact List.mem_append_left _ (h hm)
    · have heq := (List.mem_singleton.mp hm).symm
      obtain ⟨rfl, rfl⟩ := hsame heq
      exact List.mem_append_right _ (by rw [heq]; exact List.mem_singleton_self _)

theorem mem_added_add (state : Internal) (name : Text) (sect : SymbolSection) (offset : Nat) :
    name ∈ (state.add name sect offset).added := by
  unfold Internal.add
  split
  · assumption
  · exact List.mem_append_right _ (List.mem_singleton_self _)

theorem added_add_subset (state : Internal) (name : Text) (sect : SymbolSection) (offset : Nat) :
    state.added ⊆ (state.add name sect offset).added := by
  unfold Internal.add
  split
  · exact fun _ h => h
  · exact fun _ h => List.mem_append_left _ h

section Symbols

variable {pass : FirstPass} {label : Text} {symbol : SymbolDefinition}
  (hl : pass.lookup label = some symbol) (hs : symbol.sect = .code)

include hl hs

theorem hasSymbol_relocation {state : Internal} (h : HasSymbol label symbol.offset state)
    (relocation : RelocationEntry) :
    HasSymbol label symbol.offset (internalizeRelocation pass state relocation) := by
  unfold internalizeRelocation
  split
  · exact h
  · rename_i found hfound
    split
    · exact h
    · refine hasSymbol_add h ?_
      rintro rfl
      rw [hl] at hfound
      cases hfound
      exact ⟨hs, rfl⟩

omit hs in
theorem hasSymbol_branch {relaxed : List Nat} {state : Internal}
    (h : HasSymbol label symbol.offset state) (line : ParsedLine) :
    HasSymbol label symbol.offset (internalizeBranch pass relaxed state line) := by
  unfold internalizeBranch
  split
  · split
    · exact h
    · rename_i found hfound
      refine hasSymbol_add h ?_
      intro heq
      rw [heq, hl] at hfound
      cases hfound
      exact ⟨rfl, rfl⟩
  · exact h

/-- The target of every relaxed branch has a private symbol at its offset. -/
theorem mem_addInternalSymbols {relaxed : List Nat} {lines : List ParsedLine}
    {object : ObjectFile} {line : ParsedLine} (hm : line ∈ lines)
    (hr : line.lineNumber ∈ relaxed) (ho : line.operand 0 = label) :
    ⟨internalName label, .code, UInt32.ofNat symbol.offset⟩ ∈
      (addInternalSymbols pass relaxed lines object).symbolTable := by
  have htable : ∀ (table : List RelocationEntry) (state : Internal),
      HasSymbol label symbol.offset state →
        HasSymbol label symbol.offset (table.foldl (internalizeRelocation pass) state) := by
    intro table
    induction table with
    | nil => exact fun _ h => h
    | cons relocation rest ih => exact fun state h => ih _ (hasSymbol_relocation hl hs h relocation)
  have hlines : ∀ (lines : List ParsedLine) (state : Internal),
      HasSymbol label symbol.offset state → (label ∈ state.added ∨ line ∈ lines) →
        ⟨internalName label, .code, UInt32.ofNat symbol.offset⟩ ∈
          (lines.foldl (internalizeBranch pass relaxed) state).symbolTable := by
    intro lines
    induction lines with
    | nil =>
        intro state h hor
        exact h (hor.resolve_right (by simp))
    | cons other rest ih =>
        intro state h hor
        refine ih _ (hasSymbol_branch hl h other) ?_
        by_cases hother : other = line
        · left
          rw [hother, internalizeBranch, if_pos hr, ho, hl]
          exact mem_added_add _ _ _ _
        · rcases hor with hadded | hm
          · left
            unfold internalizeBranch
            split
            · split
              · exact hadded
              · exact added_add_subset _ _ _ _ hadded
            · exact hadded
          · exact Or.inr ((List.mem_cons.mp hm).resolve_left (Ne.symm hother))
  apply hlines
  · apply htable
    intro hnone
    cases hnone
  · exact Or.inr hm

end Symbols

theorem exportSymbols_subset {pass : FirstPass} {names : List Text}
    {table result : List SymbolEntry} (h : foldAll (exportSymbol pass) table names = .ok result) :
    table ⊆ result := by
  apply foldAll_preserves (I := fun entries => table ⊆ entries) ?_ (fun _ h => h) h
  intro entries name next hb hstep
  unfold exportSymbol at hstep
  split at hstep
  · cases hstep
  · cases hstep
    exact fun entry hm => List.mem_append_left _ (hb hm)

/-- Exporting only adds symbols. -/
theorem addExportedSymbols_eq_ok {pass : FirstPass} {object result : ObjectFile}
    (h : addExportedSymbols pass object = .ok result) :
    result.codeSection = object.codeSection ∧ result.relocationTable = object.relocationTable ∧
      object.symbolTable ⊆ result.symbolTable := by
  unfold addExportedSymbols at h
  obtain ⟨table, htable, h⟩ := bind_eq_ok.mp h
  cases h
  exact ⟨rfl, rfl, exportSymbols_subset htable⟩

/-! ## Branches of the finished object -/

/-- A short branch: the displacement fits a signed byte and leads from the byte
behind it to the label. -/
structure ShortBranch (assembly : Assembly) (line : ParsedLine) (offset : Nat) : Prop where
  opcode : assembly.object.codeSection[offset]? = branchOpcode line.operation
  lands : ∃ (symbol : SymbolDefinition) (distance : Int),
    assembly.relaxation.pass.lookup (line.operand 0) = some symbol ∧ symbol.sect = .code ∧
    -128 ≤ distance ∧ distance ≤ 127 ∧ (offset : Int) + 2 + distance = symbol.offset ∧
    assembly.object.codeSection[offset + 1]? = some (UInt8.ofInt distance)

/-- The bytes of a relaxed branch, with the linker's operand left zero. -/
def relaxedBytes (opcode : UInt8) : Bytes :=
  if opcode = 5 then [0xff, 0, 0, 0x01] else [inverseBranch opcode, 5, 0x01, 0xff, 0, 0, 0x01]

/-- Where the IWT of a relaxed branch begins. -/
def jumpOffset (opcode : UInt8) : Nat := if opcode = 5 then 0 else 3

/-- A relaxed branch: an absolute jump to the label, behind the inverse branch
unless it is unconditional, each with a NOP of its own. Only the operand of its
own relocation is left to the linker, which finds the label under a private
name. -/
structure RelaxedBranch (assembly : Assembly) (line : ParsedLine) (offset : Nat) (opcode : UInt8)
    (symbol : SymbolDefinition) : Prop where
  opcode_eq : branchOpcode line.operation = some opcode
  label : assembly.relaxation.pass.lookup (line.operand 0) = some symbol
  sect : symbol.sect = .code
  bytes : ∀ i < (relaxedBytes opcode).length,
    assembly.object.codeSection[offset + i]? = (relaxedBytes opcode)[i]?
  symbol_mem : ⟨internalName (line.operand 0), .code, UInt32.ofNat symbol.offset⟩ ∈
    assembly.object.symbolTable
  relocation : ⟨internalName (line.operand 0), .code,
      UInt32.ofNat (offset + jumpOffset opcode), .addr16Iwt⟩ ∈ assembly.object.relocationTable
  others : ∀ relocation ∈ assembly.object.relocationTable, relocation.sectionToPatch = .code →
    relocation.patchOffset = UInt32.ofNat (offset + jumpOffset opcode) ∨
    ∃ start, relocation.patchOffset = UInt32.ofNat start ∧
      start < assembly.object.codeSection.length ∧
      (start + relocation.type.patchSize ≤ offset ∨
        offset + (relaxedBytes opcode).length ≤ start)

theorem branchOpcode_mem {operation : Text} {opcode : UInt8}
    (h : branchOpcode operation = some opcode) : (operation, opcode) ∈ branchNames := by
  unfold branchOpcode at h
  obtain ⟨entry, hentry, rfl⟩ := Option.map_eq_some_iff.mp h
  have hname : entry.1 = operation := by simpa using List.find?_some hentry
  have hm := List.mem_of_find?_eq_some hentry
  rwa [← hname]

/-- Branch operations are neither directives nor data. -/
theorem branch_operation {operation : Text} {opcode : UInt8}
    (h : branchOpcode operation = some opcode) :
    isDirective operation = false ∧ dataWidth operation = none ∧
      (operation = nameOf "bra" ↔ opcode = 5) ∧ 5 ≤ opcode.toNat ∧ opcode.toNat ≤ 15 := by
  have hall : ∀ entry ∈ branchNames, isDirective entry.1 = false ∧ dataWidth entry.1 = none ∧
      (entry.1 = nameOf "bra" ↔ entry.2 = 5) ∧ 5 ≤ entry.2.toNat ∧ entry.2.toNat ≤ 15 := by
    decide +kernel
  exact hall _ (branchOpcode_mem h)

theorem encodeLine_branch {relaxed : List Nat} {line : ParsedLine} {patch : Nat} {opcode : UInt8}
    (h : branchOpcode line.operation = some opcode) :
    encodeLine relaxed line patch = encodeBranch relaxed line patch opcode := by
  unfold encodeLine
  rw [(branch_operation h).2.1]
  simp only [encodeInstruction, h]

/-- What a branch encodes to. -/
theorem encodeBranch_eq_ok {relaxed : List Nat} {line : ParsedLine} {patch : Nat} {opcode : UInt8}
    {encoded : Encoded} (hop : branchOpcode line.operation = some opcode)
    (h : encodeBranch relaxed line patch opcode = .ok encoded) :
    (line.lineNumber ∈ relaxed ∧ encoded.bytes = relaxedBytes opcode ∧ encoded.fixups = [] ∧
        encoded.relocations = [⟨internalName (line.operand 0), .code,
          UInt32.ofNat (patch + jumpOffset opcode), .addr16Iwt⟩]) ∨
      (line.lineNumber ∉ relaxed ∧ encoded.bytes = [opcode, 0] ∧
        encoded.fixups = [⟨patch + 1, line.operand 0, line.lineNumber⟩]) := by
  have hbra := (branch_operation hop).2.2.1
  unfold encodeBranch at h
  obtain ⟨-, -, h⟩ := bind_eq_ok.mp h
  obtain ⟨-, -, h⟩ := bind_eq_ok.mp h
  dsimp only at h
  split at h
  · rename_i hr
    left
    split at h
    · rename_i hname
      cases h
      simp [hr, relaxedBytes, jumpOffset, hbra.mp hname, wordBytes, byteOf]
    · rename_i hname
      cases h
      have hne : opcode ≠ 5 := fun heq => hname (hbra.mpr heq)
      simp [hr, relaxedBytes, jumpOffset, hne, wordBytes, byteOf]
  · rename_i hr
    cases h
    exact Or.inr ⟨hr, rfl, rfl⟩

theorem Numbered.inj {lines : List ParsedLine} (hn : Numbered lines) {line other : ParsedLine}
    (hl : line ∈ lines) (ho : other ∈ lines) (h : line.lineNumber = other.lineNumber) :
    line = other := by
  induction lines with
  | nil => cases hl
  | cons first rest ih =>
      obtain ⟨hfirst, hrest⟩ := List.pairwise_cons.mp hn
      rcases List.mem_cons.mp hl with rfl | hline
      · rcases List.mem_cons.mp ho with rfl | hother
        · rfl
        · have := hfirst other hother
          omega
      · rcases List.mem_cons.mp ho with rfl | hother
        · have := hfirst line hline
          omega
        · exact ih hrest hline hother

section Branches

variable {assembly : Assembly} (ha : Assembled assembly)

include ha

/-- No label has a private name. -/
theorem Assembled.lookup_internalName (label : Text) :
    assembly.relaxation.pass.lookup (internalName label) = none := by
  cases hl : assembly.relaxation.pass.lookup (internalName label) with
  | none => rfl
  | some symbol =>
      exfalso
      unfold FirstPass.lookup at hl
      obtain ⟨entry, hentry, -⟩ := Option.map_eq_some_iff.mp hl
      have hname : entry.1 = internalName label := by simpa using List.find?_some hentry
      have hm := List.mem_map_of_mem (f := fun entry : Text × SymbolDefinition =>
        (entry.1, entry.2.sect)) (List.mem_of_find?_eq_some hentry)
      rw [firstPassLines_labels ha.relaxed.pass] at hm
      unfold labels at hm
      obtain ⟨line, hline, heq⟩ := List.mem_map.mp hm
      obtain ⟨hmem, hne⟩ := List.mem_filter.mp hline
      have hlabel : line.label = internalName label := (congrArg Prod.fst heq).trans hname
      rcases ha.labelled line hmem with hempty | hident
      · rw [hlabel] at hempty
        cases hempty
      · rw [hlabel] at hident
        have hfirst : isIdentifier (internalName label) = false := rfl
        rw [hfirst] at hident
        cases hident

/-- The finished object in terms of what was emitted. -/
theorem Assembled.finished : ∃ code,
    foldAll (resolveFixup assembly.relaxation.pass) assembly.emitted.object.codeSection
      assembly.emitted.fixups = .ok code ∧
    assembly.object.codeSection = code ∧
    assembly.object.relocationTable =
      assembly.emitted.object.relocationTable.map (internalized assembly.relaxation.pass) ∧
    (addInternalSymbols assembly.relaxation.pass assembly.relaxation.relaxed assembly.parsed.lines
      { assembly.emitted.object with codeSection := code }).symbolTable ⊆
        assembly.object.symbolTable := by
  obtain ⟨code, hcode, hobject⟩ := ha.object
  obtain ⟨hsection, htable, hsymbols⟩ := addExportedSymbols_eq_ok hobject
  refine ⟨code, hcode, hsection, ?_, hsymbols⟩
  rw [htable, addInternalSymbols_relocationTable]

theorem Assembled.shortBranch {before after : List ParsedLine} {line : ParsedLine}
    {pass : FirstPass} {emitted next : Emitted}
    (h : Split assembly before after line pass emitted next)
    (hshort : isShortBranch assembly.relaxation.relaxed line) :
    ShortBranch assembly line emitted.object.codeSection.length := by
  obtain ⟨hsect, hbranch, -, hnot⟩ := hshort
  obtain ⟨opcode, hop⟩ := Option.isSome_iff_exists.mp hbranch
  obtain ⟨encoded, hencode, hplaced⟩ := h.placed (branch_operation hop).1 hsect
  rw [encodeLine_branch hop] at hencode
  rcases encodeBranch_eq_ok hop hencode with ⟨hin, -⟩ | ⟨-, hbytes, hfixups⟩
  · exact absurd hin hnot
  obtain ⟨code, hresolve, hcode, -, -⟩ := ha.finished
  obtain ⟨fixups, fixupsAfter, hsplit, hlow, hhigh⟩ := hplaced.fixups
  rw [hfixups] at hsplit
  have hlength : encoded.bytes.length = 2 := by rw [hbytes]; rfl
  rw [hsplit] at hresolve
  constructor
  · rw [hcode, resolveFixups_other ?_ hresolve]
    · have := hplaced.byte (i := 0) (by omega)
      rw [Nat.add_zero, hbytes] at this
      rw [this, hop]
      rfl
    · intro fixup hm
      rcases List.mem_append.mp hm with hm | hm
      · rcases List.mem_append.mp hm with hm | hm
        · have := hlow fixup hm
          omega
        · rw [List.mem_singleton.mp hm]
          simp
      · have := hhigh fixup hm
        omega
  · have hother : ∀ fixup ∈ fixupsAfter,
        fixup.patchOffset ≠ emitted.object.codeSection.length + 1 := by
      intro fixup hm
      have := hhigh fixup hm
      omega
    obtain ⟨symbol, hl, hs, hrange, hbyte⟩ := resolveFixups_own hother hresolve
    refine ⟨symbol, _, hl, hs, ?_, ?_, ?_, hcode ▸ hbyte⟩
    · unfold outOfRange at hrange
      omega
    · unfold outOfRange at hrange
      omega
    · push_cast
      omega

theorem Assembled.relaxedBranch {before after : List ParsedLine} {line : ParsedLine}
    {pass : FirstPass} {emitted next : Emitted}
    (h : Split assembly before after line pass emitted next)
    (hr : line.lineNumber ∈ assembly.relaxation.relaxed) : ∃ opcode symbol,
      RelaxedBranch assembly line emitted.object.codeSection.length opcode symbol := by
  have hmem : line ∈ assembly.parsed.lines := by
    rw [h.lines]
    simp
  obtain ⟨other, hother, hnumber, hsect, hbranch, -, symbol, hl, hs⟩ :=
    ha.relaxed.branches _ hr
  obtain rfl := ha.numbered.inj hother hmem hnumber
  obtain ⟨opcode, hop⟩ := Option.isSome_iff_exists.mp hbranch
  obtain ⟨encoded, hencode, hplaced⟩ := h.placed (branch_operation hop).1 hsect
  rw [encodeLine_branch hop] at hencode
  rcases encodeBranch_eq_ok hop hencode with ⟨-, hbytes, hfixups, hrelocs⟩ | ⟨hnot, -⟩
  · obtain ⟨code, hresolve, hcode, htable, hsymbols⟩ := ha.finished
    obtain ⟨fixups, fixupsAfter, hsplit, hlow, hhigh⟩ := hplaced.fixups
    obtain ⟨relocs, relocsAfter, hrsplit, hrlow, hrhigh⟩ := hplaced.relocations
    rw [hrelocs] at hrsplit
    refine ⟨opcode, symbol, hop, hl, hs, ?_, ?_, ?_, ?_⟩
    · intro i hi
      rw [← hbytes] at hi ⊢
      rw [hcode, resolveFixups_other ?_ hresolve, hplaced.byte hi]
      intro fixup hm
      rw [hsplit, hfixups, List.append_nil] at hm
      rcases List.mem_append.mp hm with hm | hm
      · have := hlow fixup hm
        omega
      · have := hhigh fixup hm
        omega
    · exact hsymbols (mem_addInternalSymbols hl hs hmem hr rfl)
    · rw [htable, hrsplit]
      simp [internalized, ha.lookup_internalName]
    · intro relocation hm hcodeSect
      rw [htable, hrsplit, List.map_append, List.map_append, List.mem_append,
        List.mem_append] at hm
      have hlength : code.length = assembly.emitted.object.codeSection.length :=
        resolveFixups_length hresolve
      rcases hm with (hm | hm) | hm
      · obtain ⟨original, ho, rfl⟩ := List.mem_map.mp hm
        rw [internalized_sectionToPatch] at hcodeSect
        obtain ⟨start, hstart, hend⟩ := hrlow original ho hcodeSect
        have hle := hplaced.length_le
        have hsize := (RelocationType.patchSize_bounds original.type).1
        refine Or.inr ⟨start, ?_, ?_, Or.inl ?_⟩
        · rw [internalized_patchOffset, hstart]
        · rw [hcode, hlength]
          omega
        · rw [internalized_type]
          exact hend
      · left
        obtain ⟨original, ho, rfl⟩ := List.mem_map.mp hm
        rw [List.mem_singleton] at ho
        rw [internalized_patchOffset, ho]
      · obtain ⟨original, ho, rfl⟩ := List.mem_map.mp hm
        rw [internalized_sectionToPatch] at hcodeSect
        obtain ⟨start, hstart, hbegin, hend⟩ := hrhigh original ho hcodeSect
        refine Or.inr ⟨start, ?_, ?_, Or.inr ?_⟩
        · rw [internalized_patchOffset, hstart]
        · rw [hcode, hlength]
          exact hend
        · rw [← hbytes]
          exact hbegin
  · exact absurd hr hnot

end Branches

end Disco.Assembler
