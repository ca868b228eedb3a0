import Disco.Assembler.Passes

/-! # Relaxation ends, and what it ends with

Line numbers identify lines, so the set of relaxed branches only grows and the
loop stops. Where it stops, the last first pass belongs to the relaxed set and
every branch left short reaches its label.
-/

namespace Disco.Assembler

open Library Linker

/-! ## Line numbers -/

theorem parseStatement_lines {raw : Text} {line : ParsedLine} {parsed result : Parsed}
    (h : parseStatement raw line parsed = .ok result) :
    ∃ added, result.lines = parsed.lines ++ [added] ∧ added.lineNumber = line.lineNumber ∧
      added.label = line.label := by
  unfold parseStatement at h
  simp only [bind_eq_ok] at h
  obtain ⟨settings, -, current, -, h⟩ := h
  cases h
  exact ⟨_, rfl, rfl, rfl⟩

/-- A label is absent or an identifier. -/
def Labelled (line : ParsedLine) : Prop := line.label = [] ∨ isIdentifier line.label = true

/-- One source line adds at most one parsed line, under its own number. -/
theorem parseLine_lines {parsed result : Parsed} {entry : Text × Nat}
    (h : parseLine parsed entry = .ok result) :
    result.lines = parsed.lines ∨ ∃ added, result.lines = parsed.lines ++ [added] ∧
      added.lineNumber = entry.2 ∧ Labelled added := by
  unfold parseLine at h
  dsimp only at h
  split at h
  · cases h
    exact Or.inl rfl
  · split at h
    · unfold failIf at h
      rw [rejectIf_bind_eq_ok, Bool.not_eq_false] at h
      obtain ⟨hlabel, h⟩ := h
      split at h
      · cases h
        exact Or.inr ⟨_, rfl, rfl, Or.inr hlabel⟩
      · obtain ⟨added, hlines, hnumber, hadded⟩ := parseStatement_lines h
        exact Or.inr ⟨added, hlines, hnumber, Or.inr (hadded ▸ hlabel)⟩
    · obtain ⟨added, hlines, hnumber, hadded⟩ := parseStatement_lines h
      exact Or.inr ⟨added, hlines, hnumber, Or.inl hadded⟩

/-- Parsed lines carry increasing numbers. -/
def Numbered (lines : List ParsedLine) : Prop :=
  lines.Pairwise fun first second => first.lineNumber < second.lineNumber

theorem parseLines_numbered {texts : List Text} {next : Nat} {parsed result : Parsed}
    (hn : Numbered parsed.lines) (hlt : ∀ line ∈ parsed.lines, line.lineNumber < next)
    (h : foldAll parseLine parsed (texts.zipIdx next) = .ok result) : Numbered result.lines := by
  induction texts generalizing next parsed with
  | nil =>
      cases h
      exact hn
  | cons text texts ih =>
      rw [List.zipIdx_cons] at h
      obtain ⟨middle, hm, h⟩ := bind_eq_ok.mp h
      apply ih ?_ ?_ h
      · rcases parseLine_lines hm with heq | ⟨added, heq, hadded, -⟩
        · rwa [heq]
        · rw [heq]
          refine List.pairwise_append.mpr ⟨hn, List.pairwise_singleton _ _, ?_⟩
          intro line hline other hother
          rw [List.mem_singleton] at hother
          subst hother
          have := hlt line hline
          omega
      · rcases parseLine_lines hm with heq | ⟨added, heq, hadded, -⟩
        · rw [heq]
          intro line hline
          have := hlt line hline
          omega
        · rw [heq]
          intro line hline
          rcases List.mem_append.mp hline with hline | hline
          · have := hlt line hline
            omega
          · rw [List.mem_singleton] at hline
            subst hline
            omega

theorem parse_numbered {source : Text} {parsed : Parsed} (h : parse source = .ok parsed) :
    Numbered parsed.lines := by
  have hempty : Numbered ({} : Parsed).lines := List.Pairwise.nil
  exact parseLines_numbered hempty (by simp) h

theorem parse_labelled {source : Text} {parsed : Parsed} (h : parse source = .ok parsed) :
    ∀ line ∈ parsed.lines, Labelled line := by
  apply foldAll_preserves (I := fun parsed => ∀ line ∈ parsed.lines, Labelled line) ?_ (by simp) h
  intro parsed entry result hparsed hstep
  rcases parseLine_lines hstep with heq | ⟨added, heq, -, hadded⟩
  · rwa [heq]
  · rw [heq]
    intro line hm
    rcases List.mem_append.mp hm with hm | hm
    · exact hparsed line hm
    · rw [List.mem_singleton.mp hm]
      exact hadded

/-! ## Termination -/

/-- A line is left alone, or relaxed for the first time. -/
theorem relaxLine_eq_ok {pass : FirstPass} {relaxed result : List Nat} {line : ParsedLine}
    (h : relaxLine pass relaxed line = .ok result) :
    (¬ isShortBranch relaxed line ∧ result = relaxed) ∨
      (isShortBranch relaxed line ∧ ∃ symbol source, pass.lookup (line.operand 0) = some symbol ∧
        symbol.sect = .code ∧ pass.codeOffset line.lineNumber = some source ∧
        ((outOfRange (branchDistance symbol.offset source) ∧
            result = relaxed ++ [line.lineNumber]) ∨
          (¬ outOfRange (branchDistance symbol.offset source) ∧ result = relaxed))) := by
  unfold relaxLine at h
  split at h
  · rename_i hshort
    refine Or.inr ⟨hshort, ?_⟩
    split at h
    · cases h
    · rename_i symbol hsymbol
      unfold failIf at h
      rw [rejectIf_bind_eq_ok, not_not] at h
      obtain ⟨hsect, h⟩ := h
      split at h
      · cases h
      · rename_i source hsource
        refine ⟨symbol, source, hsymbol, hsect, hsource, ?_⟩
        split at h
        · rename_i hout
          cases h
          exact Or.inl ⟨hout, rfl⟩
        · rename_i hin
          cases h
          exact Or.inr ⟨hin, rfl⟩
  · rename_i hshort
    cases h
    exact Or.inl ⟨hshort, rfl⟩

theorem relaxLine_grows {pass : FirstPass} {relaxed result : List Nat} {line : ParsedLine}
    (h : relaxLine pass relaxed line = .ok result) : relaxed <+: result := by
  rcases relaxLine_eq_ok h with ⟨-, rfl⟩ | ⟨-, -, -, -, -, -, ⟨-, rfl⟩ | ⟨-, rfl⟩⟩
  · exact List.prefix_rfl
  · exact List.prefix_append _ _
  · exact List.prefix_rfl

theorem relaxLines_grow {pass : FirstPass} {relaxed result : List Nat} {lines : List ParsedLine}
    (h : foldAll (relaxLine pass) relaxed lines = .ok result) : relaxed <+: result := by
  induction lines generalizing relaxed with
  | nil =>
      cases h
      exact List.prefix_rfl
  | cons line rest ih =>
      obtain ⟨middle, hm, h⟩ := bind_eq_ok.mp h
      exact (relaxLine_grows hm).trans (ih h)

/-- What relaxing adds are numbers of branches that were short before. -/
theorem relaxLines_added {pass : FirstPass} {relaxed result : List Nat} {lines : List ParsedLine}
    (h : foldAll (relaxLine pass) relaxed lines = .ok result) {number : Nat}
    (hm : number ∈ result) (hn : number ∉ relaxed) :
    ∃ line ∈ lines, line.lineNumber = number ∧ isShortBranch relaxed line ∧
      ∃ symbol, pass.lookup (line.operand 0) = some symbol ∧ symbol.sect = .code := by
  induction lines generalizing relaxed with
  | nil =>
      cases h
      exact absurd hm hn
  | cons line rest ih =>
      obtain ⟨middle, hline, h⟩ := bind_eq_ok.mp h
      have hgrows := relaxLine_grows hline
      by_cases hmid : number ∈ middle
      · rcases relaxLine_eq_ok hline with ⟨-, rfl⟩ | ⟨hs, symbol, -, hl, hc, -, ⟨-, rfl⟩ | ⟨-, rfl⟩⟩
        · exact absurd hmid hn
        · rcases List.mem_append.mp hmid with hmid | hmid
          · exact absurd hmid hn
          · exact ⟨line, List.mem_cons_self, (List.mem_singleton.mp hmid).symm, hs, symbol, hl, hc⟩
        · exact absurd hmid hn
      · obtain ⟨other, ho, hnumber, ⟨hcode, hbranch, hone, hnot⟩, hsymbol⟩ := ih h hmid
        have hnot' : other.lineNumber ∉ relaxed := fun hin => hnot (hgrows.subset hin)
        exact ⟨other, List.mem_cons_of_mem _ ho, hnumber, ⟨hcode, hbranch, hone, hnot'⟩, hsymbol⟩

/-- A pass over the lines changes nothing, or relaxes one that was not. -/
theorem relaxLines_new {pass : FirstPass} {relaxed result : List Nat} {lines : List ParsedLine}
    (h : foldAll (relaxLine pass) relaxed lines = .ok result) :
    result = relaxed ∨ ∃ line ∈ lines, line.lineNumber ∈ result ∧ line.lineNumber ∉ relaxed := by
  induction lines generalizing relaxed with
  | nil =>
      cases h
      exact Or.inl rfl
  | cons line rest ih =>
      obtain ⟨middle, hline, hrest⟩ := bind_eq_ok.mp h
      rcases relaxLine_eq_ok hline with ⟨-, rfl⟩ | ⟨hs, -, -, -, -, -, ⟨-, rfl⟩ | ⟨-, rfl⟩⟩
      · exact (ih hrest).imp id fun ⟨other, ho, hnew⟩ => ⟨other, List.mem_cons_of_mem _ ho, hnew⟩
      · refine Or.inr ⟨line, List.mem_cons_self, ?_, hs.2.2.2⟩
        exact (relaxLines_grow hrest).subset (by simp)
      · exact (ih hrest).imp id fun ⟨other, ho, hnew⟩ => ⟨other, List.mem_cons_of_mem _ ho, hnew⟩

/-- Lines that are not relaxed yet. -/
def shortCount (lines : List ParsedLine) (state : Relaxation) : Nat :=
  (lines.filter fun line => line.lineNumber ∉ state.relaxed).length

theorem relaxRound_eq_ok {lines : List ParsedLine} {state : Relaxation}
    {result : Option Relaxation} (h : relaxRound lines state = .ok result) :
    ∃ relaxed, foldAll (relaxLine state.pass) state.relaxed lines = .ok relaxed ∧
      ((relaxed = state.relaxed ∧ result = none) ∨
        (relaxed ≠ state.relaxed ∧ ∃ pass, firstPass relaxed lines = .ok pass ∧
          result = some ⟨relaxed, pass⟩)) := by
  unfold relaxRound at h
  obtain ⟨relaxed, hr, h⟩ := bind_eq_ok.mp h
  refine ⟨relaxed, hr, ?_⟩
  split at h
  · rename_i heq
    cases h
    exact Or.inl ⟨heq, rfl⟩
  · rename_i hne
    obtain ⟨pass, hp, h⟩ := bind_eq_ok.mp h
    cases h
    exact Or.inr ⟨hne, pass, hp, rfl⟩

/-- A round that changes anything relaxes a line for good. -/
theorem shortCount_lt {lines : List ParsedLine} {state next : Relaxation}
    (h : relaxRound lines state = .ok (some next)) :
    shortCount lines next < shortCount lines state := by
  obtain ⟨relaxed, hr, ⟨-, hnone⟩ | ⟨hne, pass, -, hsome⟩⟩ := relaxRound_eq_ok h
  · cases hnone
  · cases hsome
    have hsubset := (relaxLines_grow hr).subset
    rcases relaxLines_new hr with heq | ⟨line, hm, hin, hout⟩
    · exact absurd heq hne
    · -- what is still short was short before, except that line
      have hfilter : lines.filter (fun line => line.lineNumber ∉ relaxed) =
          (lines.filter fun line => line.lineNumber ∉ state.relaxed).filter
            fun line => line.lineNumber ∉ relaxed := by
        rw [List.filter_filter]
        apply List.filter_congr
        intro other _
        rw [Bool.eq_iff_iff]
        simp only [decide_eq_true_eq, Bool.and_eq_true]
        exact ⟨fun hnot => ⟨hnot, fun hold => hnot (hsubset hold)⟩, fun hboth => hboth.1⟩
      unfold shortCount
      rw [hfilter, List.length_filter_lt_length_iff_exists]
      exact ⟨line, List.mem_filter.mpr ⟨hm, by simpa using hout⟩, by simpa using hin⟩

/-- The relaxation loop ends, whatever the source. -/
theorem relaxBranches_ends (lines : List ParsedLine) (state : Relaxation) :
    relaxBranches lines state ≠ .error .unending := by
  apply loop_ne_exhausted (shortCount lines)
  · intro state h
    cases hr : relaxRound lines state with
    | error e => simp [hr, Except.mapError] at h
    | ok result => simp [hr, Except.mapError] at h
  · intro state next h
    apply shortCount_lt
    cases hr : relaxRound lines state with
    | error e => simp [hr, Except.mapError] at h
    | ok result => simpa [hr, Except.mapError] using h
  · have hle := List.length_filter_le (fun line => line.lineNumber ∉ state.relaxed) lines
    unfold shortCount
    omega

end Disco.Assembler
