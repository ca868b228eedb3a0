import Disco.Assembler.Relaxation

/-! # Offsets

The first pass computes offsets, the second one emits bytes. Line by line the
two agree, so a label's offset is the number of bytes emitted before its line,
and every instruction lies in the object where the first pass put it.
-/

namespace Disco.Assembler

open Library Linker

/-! ## One line of the first pass -/

/-- What the first pass does with a line. -/
structure FirstStep (relaxed : List Nat) (line : ParsedLine) (pass next : FirstPass) : Prop where
  symbols : next.symbols = pass.symbols ++ if line.label = [] then []
    else [(line.label, ⟨symbolSection line.sect, pass.currentOffset line.sect⟩)]
  fresh : line.label ≠ [] → pass.lookup line.label = none
  codeOffsets : next.codeOffsets = pass.codeOffsets ++
    if isDirective line.operation = false ∧ line.sect = .code then [(line.lineNumber, pass.code)]
    else []
  quiet : isDirective line.operation = true → ∀ sect, next.currentOffset sect = pass.currentOffset sect
  grows : isDirective line.operation = false → line.sect ≠ .none ∧
    ∃ size, lineSize relaxed line = .ok size ∧ ∀ sect, next.currentOffset sect =
      pass.currentOffset sect + if symbolSection sect = symbolSection line.sect then size else 0

theorem currentOffset_advance (pass : FirstPass) (size : Nat) {line : Section} (h : line ≠ .none)
    (sect : Section) : (pass.advance size line).currentOffset sect =
      pass.currentOffset sect + if symbolSection sect = symbolSection line then size else 0 := by
  cases line <;> cases sect <;>
    simp_all [FirstPass.advance, FirstPass.currentOffset, symbolSection]

theorem defineLabel_eq_ok {line : ParsedLine} {pass next : FirstPass}
    (h : defineLabel line pass = .ok next) :
    (line.label ≠ [] → pass.lookup line.label = none) ∧
      next = { pass with symbols := pass.symbols ++ if line.label = [] then []
        else [(line.label, ⟨symbolSection line.sect, pass.currentOffset line.sect⟩)] } := by
  unfold defineLabel at h
  split at h
  · rename_i hempty
    cases h
    simp [hempty]
  · rename_i hlabel
    unfold failIf at h
    simp only [bind_eq_ok, rejectIf_eq_ok, Bool.not_eq_true, Option.isSome_eq_false_iff,
      Option.isNone_iff_eq_none] at h
    obtain ⟨-, -, -, hfresh, h⟩ := h
    cases h
    exact ⟨fun _ => hfresh, by simp [hlabel]⟩

theorem firstPassLine_eq_ok {relaxed : List Nat} {line : ParsedLine} {pass next : FirstPass}
    (h : firstPassLine relaxed pass line = .ok next) : FirstStep relaxed line pass next := by
  unfold firstPassLine at h
  obtain ⟨labelled, hlabel, h⟩ := bind_eq_ok.mp h
  obtain ⟨hfresh, rfl⟩ := defineLabel_eq_ok hlabel
  by_cases hd : isDirective line.operation = true
  · rw [if_pos hd] at h
    have hexports : ∃ exports, next = { pass with exports := exports, symbols := pass.symbols ++
        if line.label = [] then []
        else [(line.label, ⟨symbolSection line.sect, pass.currentOffset line.sect⟩)] } := by
      split at h
      · obtain ⟨-, -, h⟩ := bind_eq_ok.mp h
        cases h
        exact ⟨_, rfl⟩
      · cases h
        exact ⟨pass.exports, rfl⟩
    obtain ⟨exports, rfl⟩ := hexports
    refine ⟨rfl, hfresh, by simp [hd], ?_, by simp [hd]⟩
    intro _ sect
    cases sect <;> rfl
  · rw [if_neg hd] at h
    rw [Bool.not_eq_true] at hd
    unfold requireSection failIf at h
    rw [rejectIf_bind_eq_ok] at h
    obtain ⟨hsect, h⟩ := h
    obtain ⟨size, hsize, h⟩ := bind_eq_ok.mp h
    cases h
    refine ⟨?_, hfresh, ?_, by simp [hd], ?_⟩
    · cases line.sect <;> simp [FirstPass.advance]
    · cases hs : line.sect <;> simp [FirstPass.advance, hd]
    · intro _
      refine ⟨hsect, size, hsize, fun sect => ?_⟩
      rw [currentOffset_advance _ _ hsect]
      congr 1
      split <;> cases sect <;> rfl

/-! ## Labels and code offsets of a whole pass -/

theorem FirstPass.lookup_append {pass next : FirstPass} {added : List (Text × SymbolDefinition)}
    (h : next.symbols = pass.symbols ++ added) {name : Text} {symbol : SymbolDefinition}
    (hs : pass.lookup name = some symbol) : next.lookup name = some symbol := by
  unfold FirstPass.lookup at *
  rw [h, List.find?_append]
  rw [Option.map_eq_some_iff] at hs ⊢
  obtain ⟨entry, hentry, rfl⟩ := hs
  exact ⟨entry, by rw [hentry]; rfl, rfl⟩

theorem FirstPass.codeOffset_append {pass next : FirstPass} {added : List (Nat × Nat)}
    (h : next.codeOffsets = pass.codeOffsets ++ added) {number offset : Nat}
    (hs : pass.codeOffset number = some offset) : next.codeOffset number = some offset := by
  unfold FirstPass.codeOffset at *
  rw [h, List.find?_append]
  rw [Option.map_eq_some_iff] at hs ⊢
  obtain ⟨entry, hentry, rfl⟩ := hs
  exact ⟨entry, by rw [hentry]; rfl, rfl⟩

section Pass

variable {relaxed : List Nat} {lines : List ParsedLine} {pass next : FirstPass}

/-- What is known about a label stays known. -/
theorem firstPassLines_lookup (h : foldAll (firstPassLine relaxed) pass lines = .ok next)
    {name : Text} {symbol : SymbolDefinition} (hs : pass.lookup name = some symbol) :
    next.lookup name = some symbol :=
  foldAll_preserves (I := fun pass => pass.lookup name = some symbol)
    (fun _ _ _ hb hstep => FirstPass.lookup_append (firstPassLine_eq_ok hstep).symbols hb) hs h

theorem firstPassLines_codeOffset (h : foldAll (firstPassLine relaxed) pass lines = .ok next)
    {number offset : Nat} (hs : pass.codeOffset number = some offset) :
    next.codeOffset number = some offset :=
  foldAll_preserves (I := fun pass => pass.codeOffset number = some offset)
    (fun _ _ _ hb hstep => FirstPass.codeOffset_append (firstPassLine_eq_ok hstep).codeOffsets hb)
    hs h

/-- The labels of the source with their sections. -/
def labels (lines : List ParsedLine) : List (Text × SymbolSection) :=
  (lines.filter fun line => line.label ≠ []).map fun line => (line.label, symbolSection line.sect)

/-- Which labels there are does not depend on any offset. -/
theorem firstPassLines_labels (h : foldAll (firstPassLine relaxed) {} lines = .ok next) :
    next.symbols.map (fun entry => (entry.1, entry.2.sect)) = labels lines := by
  apply foldAll_seen (I := fun seen pass =>
    pass.symbols.map (fun entry => (entry.1, entry.2.sect)) = labels seen) ?_ ?_ h
  · intro seen pass line next hseen hstep
    rw [(firstPassLine_eq_ok hstep).symbols, List.map_append, hseen]
    unfold labels
    by_cases hl : line.label = [] <;> simp [hl]
  · rfl

theorem lookup_sect (h : foldAll (firstPassLine relaxed) {} lines = .ok next) (name : Text) :
    (next.lookup name).map SymbolDefinition.sect =
      ((labels lines).find? fun entry => entry.1 = name).map Prod.snd := by
  rw [← firstPassLines_labels h, FirstPass.lookup, List.find?_map, Option.map_map, Option.map_map]
  rfl

/-- Code offsets are recorded under the numbers of the lines seen. -/
theorem firstPassLines_numbers (h : foldAll (firstPassLine relaxed) {} lines = .ok next) :
    ∀ entry ∈ next.codeOffsets, ∃ line ∈ lines, line.lineNumber = entry.1 := by
  apply foldAll_seen (I := fun seen pass =>
    ∀ entry ∈ pass.codeOffsets, ∃ line ∈ seen, line.lineNumber = entry.1) ?_ ?_ h
  · intro seen pass line next hseen hstep entry hm
    rw [(firstPassLine_eq_ok hstep).codeOffsets] at hm
    rcases List.mem_append.mp hm with hm | hm
    · obtain ⟨other, ho, heq⟩ := hseen entry hm
      exact ⟨other, List.mem_append_left _ ho, heq⟩
    · split at hm
      · rw [List.mem_singleton] at hm
        subst hm
        exact ⟨line, by simp, rfl⟩
      · cases hm
  · simp

end Pass

theorem firstPass_eq_ok {relaxed : List Nat} {lines : List ParsedLine} {pass : FirstPass}
    (h : firstPass relaxed lines = .ok pass) :
    foldAll (firstPassLine relaxed) {} lines = .ok pass := by
  unfold firstPass failIf at h
  obtain ⟨result, hfold, h⟩ := bind_eq_ok.mp h
  rw [rejectIf_bind_eq_ok] at h
  obtain ⟨-, h⟩ := h
  cases h
  exact hfold

/-! ## The relaxed state -/

/-- Where relaxation ends: the offsets belong to the relaxed set, every branch
left short reaches its label, and every relaxed line is a branch to a label in
CODE. -/
structure Relaxed (lines : List ParsedLine) (state : Relaxation) : Prop where
  pass : foldAll (firstPassLine state.relaxed) {} lines = .ok state.pass
  short : ∀ line ∈ lines, isShortBranch state.relaxed line → ∃ symbol source,
    state.pass.lookup (line.operand 0) = some symbol ∧ symbol.sect = .code ∧
    state.pass.codeOffset line.lineNumber = some source ∧
    ¬ outOfRange (branchDistance symbol.offset source)
  branches : ∀ number ∈ state.relaxed, ∃ line ∈ lines, line.lineNumber = number ∧
    line.sect = .code ∧ (branchOpcode line.operation).isSome = true ∧ line.operands.length = 1 ∧
    ∃ symbol, state.pass.lookup (line.operand 0) = some symbol ∧ symbol.sect = .code

/-- A pass that relaxes nothing has seen every branch in reach. -/
theorem relaxLines_stable {pass : FirstPass} {relaxed : List Nat} {lines : List ParsedLine}
    (h : foldAll (relaxLine pass) relaxed lines = .ok relaxed) :
    ∀ line ∈ lines, isShortBranch relaxed line → ∃ symbol source,
      pass.lookup (line.operand 0) = some symbol ∧ symbol.sect = .code ∧
      pass.codeOffset line.lineNumber = some source ∧
      ¬ outOfRange (branchDistance symbol.offset source) := by
  induction lines with
  | nil => simp
  | cons line rest ih =>
      obtain ⟨middle, hline, hrest⟩ := bind_eq_ok.mp h
      have hsame : middle = relaxed :=
        ((relaxLines_grow hrest).eq_of_length_le (relaxLine_grows hline).length_le)
      subst hsame
      intro other hm hshort
      rcases List.mem_cons.mp hm with rfl | hm
      · rcases relaxLine_eq_ok hline with ⟨hnot, -⟩ | ⟨-, symbol, source, hl, hc, hs, hout | hin⟩
        · exact absurd hshort hnot
        · exact absurd hout.2 (by simp)
        · exact ⟨symbol, source, hl, hc, hs, hin.1⟩
      · exact ih hrest other hm hshort

/-- The relaxed lines are branches whose labels stay in CODE. -/
def BranchesOnly (lines : List ParsedLine) (state : Relaxation) : Prop :=
  firstPass state.relaxed lines = .ok state.pass ∧
    ∀ number ∈ state.relaxed, ∃ line ∈ lines, line.lineNumber = number ∧ line.sect = .code ∧
      (branchOpcode line.operation).isSome = true ∧ line.operands.length = 1 ∧
      ∃ symbol, state.pass.lookup (line.operand 0) = some symbol ∧ symbol.sect = .code

theorem lookup_code_of_pass {lines : List ParsedLine} {relaxed other : List Nat}
    {pass next : FirstPass} (hp : firstPass relaxed lines = .ok pass)
    (hn : firstPass other lines = .ok next) {name : Text}
    (h : ∃ symbol, pass.lookup name = some symbol ∧ symbol.sect = .code) :
    ∃ symbol, next.lookup name = some symbol ∧ symbol.sect = .code := by
  obtain ⟨symbol, hs, hc⟩ := h
  have hsame := (lookup_sect (firstPass_eq_ok hp) name).trans
    (lookup_sect (firstPass_eq_ok hn) name).symm
  rw [hs] at hsame
  obtain ⟨found, hfound, heq⟩ := Option.map_eq_some_iff.mp hsame.symm
  exact ⟨found, hfound, heq.trans hc⟩

theorem relaxRound_branchesOnly {lines : List ParsedLine} {state next : Relaxation}
    (hs : BranchesOnly lines state) (h : relaxRound lines state = .ok (some next)) :
    BranchesOnly lines next := by
  obtain ⟨relaxed, hr, ⟨-, hnone⟩ | ⟨-, pass, hpass, hsome⟩⟩ := relaxRound_eq_ok h
  · cases hnone
  · cases hsome
    refine ⟨hpass, ?_⟩
    intro number hm
    by_cases hold : number ∈ state.relaxed
    · obtain ⟨line, hl, hn, hc, hb, ho, hsymbol⟩ := hs.2 number hold
      exact ⟨line, hl, hn, hc, hb, ho, lookup_code_of_pass hs.1 hpass hsymbol⟩
    · obtain ⟨line, hl, hn, ⟨hc, hb, ho, -⟩, hsymbol⟩ := relaxLines_added hr hm hold
      exact ⟨line, hl, hn, hc, hb, ho, lookup_code_of_pass hs.1 hpass hsymbol⟩

theorem relaxBranches_eq_ok {lines : List ParsedLine} {pass : FirstPass} {state : Relaxation}
    (hpass : firstPass [] lines = .ok pass)
    (h : relaxBranches lines ⟨[], pass⟩ = .ok state) : Relaxed lines state := by
  have hstep : ∀ state next, BranchesOnly lines state →
      (relaxRound lines state).mapError Stop.failed = .ok (some next) → BranchesOnly lines next :=
    fun state next hs hround => relaxRound_branchesOnly hs (mapError_eq_ok.mp hround)
  have hstart : BranchesOnly lines ⟨[], pass⟩ := ⟨hpass, by simp⟩
  unfold relaxBranches at h
  obtain ⟨hbranches, hlast⟩ := loop_eq_ok hstep hstart h
  obtain ⟨relaxed, hr, ⟨rfl, -⟩ | ⟨-, pass, -, hsome⟩⟩ := relaxRound_eq_ok (mapError_eq_ok.mp hlast)
  · exact ⟨firstPass_eq_ok hbranches.1, relaxLines_stable hr, hbranches.2⟩
  · cases hsome

/-! ## Sizes do not depend on the offset -/

section Sizes

variable (line : ParsedLine) (patch other : Nat)

theorem encodeBranch_size (relaxed : List Nat) (opcode : UInt8) :
    (encodeBranch relaxed line patch opcode).map Encoded.size =
      (encodeBranch relaxed line other opcode).map Encoded.size := by
  unfold encodeBranch
  cases requireOperands line 1 with
  | error e => rfl
  | ok u =>
      simp only [ok_bind]
      cases failIf (line.sect ≠ .code) "branches are only valid in .segment \"CODE\"."
        line.lineNumber with
      | error e => rfl
      | ok u =>
          simp only [ok_bind]
          split
          · split <;> rfl
          · rfl

/-- A word with its relocation: same size or same failure at any offset. -/
theorem emitImmediateWord_size (register : Nat) (operand : Text) (relocation : RelocationType)
    (lead : Bytes) (size : Nat) :
    (emitImmediateWord line patch register operand relocation >>= fun result =>
        .ok { size := size, bytes := lead ++ result.1, relocations := result.2 }).map Encoded.size =
      (emitImmediateWord line other register operand relocation >>= fun result =>
        .ok { size := size, bytes := lead ++ result.1, relocations := result.2 }).map
          Encoded.size := by
  unfold emitImmediateWord
  split
  · rfl
  · rcases symbolicWord operand relocation with ⟨name, type⟩
    dsimp only
    cases failIf (isIdentifier name = false)
      ("invalid symbolic immediate '" ++ nameText operand ++ "'.") line.lineNumber <;> rfl

theorem bind_size {α : Type} {x : Except Failure α} {first second : α → Except Failure Encoded}
    (h : ∀ a, (first a).map Encoded.size = (second a).map Encoded.size) :
    (x >>= first).map Encoded.size = (x >>= second).map Encoded.size := by
  cases x with
  | error e => rfl
  | ok a => exact h a

theorem encodeIbt_size :
    (encodeIbt line patch).map Encoded.size = (encodeIbt line other).map Encoded.size := by
  unfold encodeIbt
  refine bind_size fun _ => bind_size fun _ => ?_
  split
  · exact bind_size fun _ => rfl
  · rfl

theorem encodeMove_size :
    (encodeMove line patch).map Encoded.size = (encodeMove line other).map Encoded.size := by
  unfold encodeMove
  refine bind_size fun _ => ?_
  dsimp only
  split
  · rfl
  · rfl
  · rfl
  · split
    · refine bind_size fun _ => ?_
      unfold encodeMoveImmediate
      split
      · exact emitImmediateWord_size line patch other _ _ _ [] 3
      · rfl
    · rfl
  · rfl

/-- A table entry with the size of its encoding. -/
def sizedEntry (entry : Text × Except Failure Encoded) : Text × Except Failure Nat :=
  (entry.1, entry.2.map Encoded.size)

theorem otherEncodings_size : (otherEncodings line patch).map sizedEntry =
    (otherEncodings line other).map sizedEntry := by
  have hjal : (encodeJal line patch).map Encoded.size = (encodeJal line other).map Encoded.size :=
    bind_size fun _ => emitImmediateWord_size line _ _ _ _ _ [0x94] 4
  have hiwt : (encodeIwt line patch).map Encoded.size = (encodeIwt line other).map Encoded.size :=
    bind_size fun _ => bind_size fun _ => emitImmediateWord_size line _ _ _ _ _ [] 3
  simp only [otherEncodings, List.map_cons, List.map_nil, sizedEntry, hjal, hiwt,
    encodeIbt_size line patch other, encodeMove_size line patch other]

theorem encodeOther_size :
    (encodeOther line patch).map Encoded.size = (encodeOther line other).map Encoded.size := by
  have hfind : ∀ at_, ((otherEncodings line at_).find? fun entry => entry.1 = line.operation).map
      sizedEntry = ((otherEncodings line at_).map sizedEntry).find?
        fun entry => entry.1 = line.operation := by
    intro at_
    rw [List.find?_map]
    rfl
  have hsame := (hfind patch).trans
    ((congrArg _ (otherEncodings_size line patch other)).trans (hfind other).symm)
  unfold encodeOther
  cases hp : (otherEncodings line patch).find? fun entry => entry.1 = line.operation with
  | none =>
      rw [hp] at hsame
      rw [Option.map_eq_none_iff.mp hsame.symm]
  | some entry =>
      rw [hp] at hsame
      obtain ⟨found, hfound, heq⟩ := Option.map_eq_some_iff.mp hsame.symm
      rw [hfound]
      exact (congrArg Prod.snd heq).symm

theorem encodeInstruction_size (relaxed : List Nat) :
    (encodeInstruction relaxed line patch).map Encoded.size =
      (encodeInstruction relaxed line other).map Encoded.size := by
  unfold encodeInstruction
  split
  · exact encodeBranch_size line patch other relaxed _
  · split
    · rfl
    · split
      · rfl
      · split
        · rfl
        · exact encodeOther_size line patch other

theorem encodeValue_length {width : Nat} {operand : Text} {bytes : Bytes}
    (hw : width = 1 ∨ width = 2) (h : encodeValue width line operand = .ok bytes) :
    bytes.length = width := by
  unfold encodeValue at h
  split at h
  · cases h
  · rcases hw with rfl | rfl
    · obtain ⟨-, -, h⟩ := bind_eq_ok.mp h
      cases h
      rfl
    · obtain ⟨-, -, h⟩ := bind_eq_ok.mp h
      cases h
      rfl

theorem encodeData_length {width : Nat} {bytes : Bytes} (hw : width = 1 ∨ width = 2)
    (h : encodeData width line = .ok bytes) : bytes.length = line.operands.length * width := by
  unfold encodeData at h
  apply foldAll_seen (I := fun (seen : List Text) (bytes : Bytes) =>
    bytes.length = seen.length * width) ?_ (by simp) h
  intro seen before operand after hseen hstep
  obtain ⟨value, hvalue, hafter⟩ := bind_eq_ok.mp hstep
  cases hafter
  simp [hseen, encodeValue_length line hw hvalue, Nat.add_mul]

theorem dataWidth_cases {operation : Text} {width : Nat} (h : dataWidth operation = some width) :
    width = 1 ∨ width = 2 := by
  unfold dataWidth at h
  split_ifs at h <;> cases h <;> simp

/-- The size the first pass counts is the number of bytes the second emits. -/
theorem lineSize_eq {relaxed : List Nat} {size : Nat} {encoded : Encoded}
    (hsize : lineSize relaxed line = .ok size) (h : encodeLine relaxed line patch = .ok encoded) :
    size = encoded.bytes.length := by
  unfold lineSize at hsize
  unfold encodeLine at h
  split at hsize
  · rename_i width hwidth
    rw [hwidth] at h
    obtain ⟨-, -, hsize⟩ := bind_eq_ok.mp hsize
    obtain ⟨bytes, hbytes, h⟩ := bind_eq_ok.mp h
    cases hsize
    cases h
    exact (encodeData_length line (dataWidth_cases hwidth) hbytes).symm
  · rename_i hwidth
    rw [hwidth] at h
    obtain ⟨-, -, hsize⟩ := bind_eq_ok.mp hsize
    obtain ⟨first, hfirst, hsize⟩ := bind_eq_ok.mp hsize
    cases hsize
    replace h : encodeInstruction relaxed line patch = .ok encoded := h
    have hsame := encodeInstruction_size line 0 patch relaxed
    rw [hfirst, h] at hsame
    have heq : first.size = encoded.size := by simpa [Except.map] using hsame
    rw [heq]
    exact ((encodeInstruction_tidy line patch relaxed).of_ok h).size

/-- Data lines are tidy too. -/
theorem encodeLine_tidy {relaxed : List Nat} {encoded : Encoded}
    (h : encodeLine relaxed line patch = .ok encoded) : encoded.Tidy line patch := by
  unfold encodeLine at h
  split at h
  · rename_i width hwidth
    obtain ⟨bytes, hbytes, h⟩ := bind_eq_ok.mp h
    cases h
    exact tidy_plain line patch (encodeData_length line (dataWidth_cases hwidth) hbytes).symm
  · exact (encodeInstruction_tidy line patch relaxed).of_ok h

end Sizes

/-! ## One line of the second pass -/

theorem secondPassLine_eq_ok {relaxed : List Nat} {emitted next : Emitted} {line : ParsedLine}
    (h : secondPassLine relaxed emitted line = .ok next) :
    (isDirective line.operation = true ∧ next = emitted) ∨
      (isDirective line.operation = false ∧ ∃ encoded,
        encodeLine relaxed line (emitted.output line.sect).length = .ok encoded ∧
        next = emitted.emit line.sect encoded) := by
  unfold secondPassLine at h
  split at h
  · rename_i hd
    cases h
    exact Or.inl ⟨hd, rfl⟩
  · rename_i hd
    obtain ⟨-, -, h⟩ := bind_eq_ok.mp h
    obtain ⟨encoded, he, h⟩ := bind_eq_ok.mp h
    cases h
    exact Or.inr ⟨by simpa using hd, encoded, he, rfl⟩

theorem output_emit (emitted : Emitted) (encoded : Encoded) (line sect : Section) :
    (emitted.emit line encoded).output sect = emitted.output sect ++
      if symbolSection sect = symbolSection line then encoded.bytes else [] := by
  unfold Emitted.output Emitted.emit ObjectFile.sectionBytes
  cases hl : symbolSection line <;> cases hs : symbolSection sect <;> simp

/-- Both passes have come equally far. -/
def Agree (pass : FirstPass) (emitted : Emitted) : Prop :=
  ∀ sect, (emitted.output sect).length = pass.currentOffset sect

theorem agree_line {relaxed : List Nat} {line : ParsedLine} {pass pass' : FirstPass}
    {emitted emitted' : Emitted} (h : Agree pass emitted)
    (hfirst : firstPassLine relaxed pass line = .ok pass')
    (hsecond : secondPassLine relaxed emitted line = .ok emitted') : Agree pass' emitted' := by
  have hstep := firstPassLine_eq_ok hfirst
  rcases secondPassLine_eq_ok hsecond with ⟨hd, rfl⟩ | ⟨hd, encoded, he, rfl⟩
  · intro sect
    rw [hstep.quiet hd, h sect]
  · obtain ⟨-, size, hsize, hgrows⟩ := hstep.grows hd
    intro sect
    rw [hgrows sect, output_emit, List.length_append, h sect,
      lineSize_eq line _ hsize he]
    split <;> rfl

/-- The two passes agree after any number of lines. -/
theorem agree_lines {relaxed : List Nat} {lines : List ParsedLine} {pass pass' : FirstPass}
    {emitted emitted' : Emitted} (h : Agree pass emitted)
    (hfirst : foldAll (firstPassLine relaxed) pass lines = .ok pass')
    (hsecond : foldAll (secondPassLine relaxed) emitted lines = .ok emitted') :
    Agree pass' emitted' := by
  induction lines generalizing pass emitted with
  | nil =>
      cases hfirst
      cases hsecond
      exact h
  | cons line rest ih =>
      obtain ⟨passMid, hpass, hfirst⟩ := bind_eq_ok.mp hfirst
      obtain ⟨emittedMid, hemitted, hsecond⟩ := bind_eq_ok.mp hsecond
      exact ih (agree_line h hpass hemitted) hfirst hsecond

/-! ## What later lines add -/

/-- `final` continues `start`: bytes, operands and displacements are added
behind what is there, inside what is added. -/
structure Extends (start final : Emitted) : Prop where
  code : ∃ added, final.object.codeSection = start.object.codeSection ++ added
  fixups : ∃ added, final.fixups = start.fixups ++ added ∧ ∀ fixup ∈ added,
    start.object.codeSection.length ≤ fixup.patchOffset ∧
    fixup.patchOffset < final.object.codeSection.length
  relocations : ∃ added, final.object.relocationTable = start.object.relocationTable ++ added ∧
    ∀ relocation ∈ added, relocation.sectionToPatch = .code →
      ∃ offset, relocation.patchOffset = UInt32.ofNat offset ∧
        start.object.codeSection.length ≤ offset ∧
        offset + relocation.type.patchSize ≤ final.object.codeSection.length
  symbolTable : final.object.symbolTable = start.object.symbolTable

theorem Extends.length_le {start final : Emitted} (h : Extends start final) :
    start.object.codeSection.length ≤ final.object.codeSection.length := by
  obtain ⟨added, hadded⟩ := h.code
  simp [hadded]

theorem Extends.refl (emitted : Emitted) : Extends emitted emitted :=
  ⟨⟨[], by simp⟩, ⟨[], by simp⟩, ⟨[], by simp⟩, rfl⟩

theorem Extends.trans {start middle final : Emitted} (h : Extends start middle)
    (k : Extends middle final) : Extends start final := by
  have hle := h.length_le
  have kle := k.length_le
  obtain ⟨code, hcode⟩ := h.code
  obtain ⟨code', kcode⟩ := k.code
  obtain ⟨fixups, hfixups, hin⟩ := h.fixups
  obtain ⟨fixups', kfixups, kin⟩ := k.fixups
  obtain ⟨table, htable, hwithin⟩ := h.relocations
  obtain ⟨table', ktable, kwithin⟩ := k.relocations
  refine ⟨⟨code ++ code', by rw [kcode, hcode, List.append_assoc]⟩,
    ⟨fixups ++ fixups', by rw [kfixups, hfixups, List.append_assoc], ?_⟩,
    ⟨table ++ table', by rw [ktable, htable, List.append_assoc], ?_⟩,
    k.symbolTable.trans h.symbolTable⟩
  · intro fixup hm
    rcases List.mem_append.mp hm with hm | hm
    · have := hin fixup hm
      omega
    · have := kin fixup hm
      omega
  · intro relocation hm hs
    rcases List.mem_append.mp hm with hm | hm
    · obtain ⟨offset, ho, hlow, hhigh⟩ := hwithin relocation hm hs
      exact ⟨offset, ho, hlow, by omega⟩
    · obtain ⟨offset, ho, hlow, hhigh⟩ := kwithin relocation hm hs
      exact ⟨offset, ho, by omega, hhigh⟩

/-- A tidy instruction extends what was emitted before it. -/
theorem extends_emit {emitted : Emitted} {line : ParsedLine} {encoded : Encoded}
    (h : encoded.Tidy line (emitted.output line.sect).length) :
    Extends emitted (emitted.emit line.sect encoded) := by
  have hcode : (emitted.emit line.sect encoded).object.codeSection =
      emitted.object.codeSection ++
        if symbolSection line.sect = .code then encoded.bytes else [] := by
    unfold Emitted.emit
    cases symbolSection line.sect <;> simp
  have htable : (emitted.emit line.sect encoded).object.relocationTable =
      emitted.object.relocationTable ++ encoded.relocations := by
    unfold Emitted.emit
    cases symbolSection line.sect <;> rfl
  have houtput : symbolSection line.sect = .code →
      emitted.output line.sect = emitted.object.codeSection := by
    intro hs
    simp [Emitted.output, hs, ObjectFile.sectionBytes]
  refine ⟨⟨_, hcode⟩, ⟨encoded.fixups, rfl, ?_⟩, ⟨encoded.relocations, htable, ?_⟩, ?_⟩
  · intro fixup hm
    obtain ⟨hs, hlow, hhigh⟩ := h.fixups fixup hm
    have hsect : symbolSection line.sect = .code := by rw [hs]; rfl
    rw [houtput hsect] at hlow hhigh
    rw [hcode, if_pos hsect, List.length_append]
    exact ⟨hlow, hhigh⟩
  · intro relocation hm hs
    obtain ⟨hsection, offset, ho, hlow, hhigh⟩ := h.relocations relocation hm
    rw [hs] at hsection
    rw [houtput hsection.symm] at hlow hhigh
    rw [hcode, if_pos hsection.symm, List.length_append]
    exact ⟨offset, ho, hlow, hhigh⟩
  · unfold Emitted.emit
    cases symbolSection line.sect <;> rfl

theorem extends_lines {relaxed : List Nat} {lines : List ParsedLine} {start final : Emitted}
    (h : foldAll (secondPassLine relaxed) start lines = .ok final) : Extends start final := by
  apply foldAll_preserves (I := Extends start) ?_ (Extends.refl start) h
  intro emitted line next hstart hstep
  rcases secondPassLine_eq_ok hstep with ⟨-, rfl⟩ | ⟨-, encoded, he, rfl⟩
  · exact hstart
  · exact hstart.trans (extends_emit (encodeLine_tidy line _ he))

end Disco.Assembler
