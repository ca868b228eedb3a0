import Disco.Optimizer.Recognized

/-! # Loops that count down

The header of a recognized loop sets its counter to a number, tests it against zero and
takes one off it, and does nothing else; a body that neither touches the counter nor
leaves the loop is therefore run that many times.
-/

namespace Disco.Optimizer

open Frontend IR ScalarFold Library Computation

variable {W : Type} {perform : Perform W} {own : SymbolId → Bool} {plot : Bool} {bound : Nat}

/-! ## Scalar code -/

theorem constant_run (type : Ty) (value : Int) (s : State W) : constant perform plot type value s = (.ok (convert value type), s) := by
  simp [constant, issue, IR.produce, Instruction.effect, Effect.isArithmetic]

theorem combine_run {type leftType : Ty} (hs : scalar type = true) (hleft : leftType.pointerLevel = 0) {operation : BinaryOperator}
    {a b result : Int} (h : Arithmetic.binary operation.lexeme a b = .ok result) (s : State W) :
    combine perform plot type leftType operation 0 a b s = (.ok (convert result type), s) := by
  simp [combine, hleft, issue, IR.produce, Instruction.effect, Effect.isArithmetic, hs, Arithmetic.compute, Arithmetic.raw, h, Except.map]

/-- A literal whose text is a number is no keyword. -/
theorem kind_of_parse {literal : LiteralExpr} (hformed : literal.WellFormed) {value : Int}
    (h : parseIntegerLiteral literal = some value) : literal.kind ≠ .keywordTrue ∧ literal.kind ≠ .keywordFalse := by
  constructor
  · intro hkind
    rw [parseIntegerLiteral, hformed.1 hkind, show DiscoNumeric.parse (nameOf "true") = none by decide] at h
    cases h
  · intro hkind
    rw [parseIntegerLiteral, hformed.2 hkind, show DiscoNumeric.parse (nameOf "false") = none by decide] at h
    cases h

theorem parse_eq_some {literal : LiteralExpr} {value : Int} (h : parseIntegerLiteral literal = some value) :
    DiscoNumeric.parse literal.lexeme = some (value, literal.lexeme.length) := by
  unfold parseIntegerLiteral at h
  split at h
  · next parsed hparse =>
      split at h
      · next hlength =>
          cases h
          rw [hparse, hlength]
      · cases h
  · cases h

theorem literalNumber_of_parse {literal : LiteralExpr} (hformed : literal.WellFormed) {value : Int}
    (h : parseIntegerLiteral literal = some value) : literalNumber literal = some value := by
  have hkind := kind_of_parse hformed h
  unfold literalNumber
  split
  · next hkeyword => exact absurd hkeyword hkind.1
  · next hkeyword => exact absurd hkeyword hkind.2
  · rw [parse_eq_some h]
    rfl

theorem literalValue_of_parse {literal : LiteralExpr} (hformed : literal.WellFormed) {value : Int}
    (h : parseIntegerLiteral literal = some value) : literalValue literal.kind literal.lexeme = some value := by
  have hkind := kind_of_parse hformed h
  unfold literalValue
  split
  · next hkeyword => exact absurd hkeyword hkind.1
  · next hkeyword => exact absurd hkeyword hkind.2
  · simp [parse_eq_some h]

theorem literal_run {literal : LiteralExpr} (hformed : literal.WellFormed) {value : Int} (h : parseIntegerLiteral literal = some value)
    (s : State W) : evalLiteral perform plot literal s = (.ok (convert value literal.note.resultType), s) := by
  rw [evalLiteral, literalNumber_of_parse hformed h]
  exact constant_run _ _ s

theorem convert_zero (type : Ty) : convert 0 type = 0 := by
  unfold convert wrap
  split
  · rfl
  · split
    · simp
    · split <;> simp

theorem convert_one (type : Ty) : convert 1 type = 1 := by
  unfold convert wrap
  split
  · rfl
  · split
    · simp
    · split <;> simp

/-- The numbers up to one that a word type has are in the type. -/
theorem convert_word {type : Ty} (hpointer : type.pointerLevel = 0) (hbase : type.base = .word) {n k : Int} (hn : InRange type n)
    (hk : 0 ≤ k) (hle : k ≤ n) : convert k type = k := by
  unfold InRange at hn
  unfold convert wrap
  simp only [hpointer, hbase, Nat.lt_irrefl, gt_iff_lt, if_false, reduceCtorEq, if_true] at hn ⊢
  cases hu : type.isUnsigned <;> simp [hu] at hn ⊢ <;> omega


/-! ## The header of a loop -/

/-- What the analyzer notes at the header of a recognized loop. -/
structure Counted.Plain (counted : Counted) (locals : SymbolId → Option Ty) : Prop where
  isLocal : locals counted.declaration.symbolId = some counted.declaration.type
  isMutable : counted.declaration.type.isConst = false
  pointerLevel : counted.declaration.type.pointerLevel = 0
  base : counted.declaration.type.base = .word
  formed : counted.count.WellFormed
  countType : counted.count.note.resultType = Analyzer.valueType counted.declaration.type
  inRange : InRange counted.declaration.type counted.iterations
  isGlobal : counted.declaration.isGlobal = false
  isConstexpr : counted.declaration.isConstexpr = false
  single : counted.declaration.aggregateInitializers = []

section Header

variable {locals : SymbolId → Option Ty} {counted : Counted} {initializer : Stmt} {test increment : Expr}

theorem Counted.Header.plain (h : counted.Header initializer test increment) (hinitializer : initializer.Noted locals)
    (htest : test.Noted locals) (hincrement : increment.Noted locals) : counted.Plain locals := by
  obtain ⟨noteTest, strideTest, rfl⟩ := h.tests
  obtain ⟨noteAssign, noteMinus, strideMinus, rfl⟩ := h.steps
  rw [h.declares] at hinitializer
  obtain ⟨hglobal, hlocal, -, -, hconstexpr, hliteral⟩ := hinitializer
  obtain ⟨hsingle, hformed, hpointer, -, hnoted⟩ := hliteral counted.count h.starts
  obtain ⟨htype, value, hvalue, hrange⟩ := hnoted (kind_of_parse hformed h.count)
  rw [literalValue_of_parse hformed h.count] at hvalue
  cases hvalue
  obtain ⟨hbinary, hvariable, -⟩ := htest
  obtain ⟨-, hmutable, htarget, -⟩ := hincrement
  have htargetType : counted.target.note.resultType = counted.declaration.type := (htarget _ (by rw [h.stepped]; exact hlocal)).1
  have htestType : counted.variableOf.note.resultType = counted.declaration.type := (hvariable _ (by rw [h.tested]; exact hlocal)).1
  have hconst : counted.declaration.type.isConst = false := htargetType ▸ hmutable
  have hword := (hbinary ⟨by decide, by decide, by decide, by decide, (congrArg Ty.pointerLevel htestType).trans hpointer⟩).2.1
  exact {
    isLocal := hlocal, isMutable := hconst, pointerLevel := hpointer, base := (congrArg Ty.base htestType).symm.trans hword
    formed := hformed, countType := htype, inRange := hrange, isGlobal := hglobal
    isConstexpr := by
      cases hflag : counted.declaration.isConstexpr with
      | false => rfl
      | true => exact absurd (hconstexpr hflag) (by simp [hconst])
    single := hsingle }

/-- A name of the counter is of its type and stands for no constant. -/
theorem Counted.Plain.named (h : counted.Plain locals) {named : VariableExpr} (hid : named.symbolId = counted.declaration.symbolId)
    (hnoted : VariableNoted locals named) :
    named.note.resultType = counted.declaration.type ∧ named.isArrayDecay = false ∧ named.note.isConstant = false := by
  obtain ⟨htype, hdecay, hconstant⟩ := hnoted _ (by rw [hid]; exact h.isLocal)
  refine ⟨htype, hdecay, ?_⟩
  cases hflag : named.note.isConstant with
  | false => rfl
  | true => exact absurd (hconstant hflag) (by simp [h.isMutable])

theorem Counted.Plain.convert_count (h : counted.Plain locals) {k : Int} (hk : 0 ≤ k) (hle : k ≤ counted.iterations) :
    convert k counted.declaration.type = k := convert_word h.pointerLevel h.base h.inRange hk hle

theorem Counted.Plain.eval_counter (h : counted.Plain locals) {named : VariableExpr} (hid : named.symbolId = counted.declaration.symbolId)
    (hnoted : VariableNoted locals named) (hown : own counted.declaration.symbolId = true) {s : State W} {k : Int}
    (hcell : s.cells counted.declaration.symbolId = k) (hk : 0 ≤ k) (hle : k ≤ counted.iterations) :
    eval perform own plot (.variableExpr named) s = (.ok k, s) := by
  obtain ⟨htype, hdecay, hconstant⟩ := h.named hid hnoted
  simp [eval, hconstant, isOwn, hid, hown, hdecay, readCell, htype, Computation.read, hcell, h.convert_count hk hle]

/-- The declaration puts the number into the counter. -/
theorem Counted.Plain.start_run (h : counted.Plain locals) (hheader : counted.Header initializer test increment)
    (hown : own counted.declaration.symbolId = true) (s : State W) :
    exec perform own bound plot initializer s = (.ok (), s.setCell counted.declaration.symbolId counted.iterations) := by
  have hconvert := h.convert_count hheader.positive.le (Int.le_refl _)
  have hcount : eval perform own plot counted.declaration.initializer s = (.ok counted.iterations, s) := by
    have hvalue : convert counted.iterations (Analyzer.valueType counted.declaration.type) = counted.iterations := hconvert
    rw [hheader.starts, eval, literal_run h.formed hheader.count, h.countType, hvalue]
  have hinit : counted.declaration.initializer.isAbsent = false := by
    rw [hheader.starts]
    rfl
  rw [hheader.declares, exec, declare, if_neg (by simp [h.isGlobal, h.isConstexpr, hinit]), if_pos (by simp [hown, h.single])]
  rw [bind_of_ok (show lift _ s = _ by rw [lift, mapStop, hcount])]
  rw [writeCell, hconvert]
  rfl

/-- The test holds until the counter is zero. -/
theorem Counted.Plain.test_run (h : counted.Plain locals) (hheader : counted.Header initializer test increment) (hnoted : test.Noted locals)
    (hown : own counted.declaration.symbolId = true) {s : State W} {k : Int} (hcell : s.cells counted.declaration.symbolId = k)
    (hk : 0 ≤ k) (hle : k ≤ counted.iterations) : condition perform own plot test s = (.ok (decide (0 < k)), s) := by
  obtain ⟨note, pointerStride, rfl⟩ := hheader.tests
  obtain ⟨hbinary, hvariable, hzero⟩ := hnoted
  obtain ⟨htype, -⟩ := h.named hheader.tested hvariable
  have hpointer : (Expr.variableExpr counted.variableOf).resultType.pointerLevel = 0 := (congrArg Ty.pointerLevel htype).trans h.pointerLevel
  obtain ⟨rfl, -, hresult⟩ := hbinary ⟨by decide, by decide, by decide, by decide, hpointer⟩
  have hscalar : scalar note.resultType = true := by
    rw [hresult]
    rfl
  have hgreater : Arithmetic.binary BinaryOperator.greater.lexeme k 0 = .ok (if 0 < k then 1 else 0) := rfl
  have heval : eval perform own plot (.binaryExpr note .greater (.variableExpr counted.variableOf) (.literalExpr counted.zero) 0) s =
      (.ok (if 0 < k then 1 else 0), s) := by
    rw [eval, bind_of_ok (h.eval_counter hheader.tested hvariable hown hcell hk hle)]
    dsimp only
    rw [eval, bind_of_ok (literal_run hzero hheader.zero s), convert_zero]
    rw [combine_run hscalar hpointer hgreater]
    split
    · rw [convert_one]
    · rw [convert_zero]
  show (do
    let v ← eval perform own plot (.binaryExpr note .greater (.variableExpr counted.variableOf) (.literalExpr counted.zero) 0)
    pure (decide (v ≠ 0)) : Eval W Bool) s = _
  rw [bind_of_ok heval]
  by_cases hpositive : 0 < k <;> simp [hpositive, pure_run]

/-- The increment takes one off the counter. -/
theorem Counted.Plain.step_run (h : counted.Plain locals) (hheader : counted.Header initializer test increment) (hnoted : increment.Noted locals)
    (hown : own counted.declaration.symbolId = true) {s : State W} {k : Int} (hcell : s.cells counted.declaration.symbolId = k)
    (hk : 0 < k) (hle : k ≤ counted.iterations) :
    evalEffect perform own plot increment s = (.ok (), s.setCell counted.declaration.symbolId (k - 1)) := by
  obtain ⟨note, noteMinus, pointerStride, rfl⟩ := hheader.steps
  obtain ⟨hassigned, -, htarget, hbinary, hleft, hone⟩ := hnoted
  obtain ⟨htype, -⟩ := h.named hheader.stepsFrom hleft
  obtain ⟨htargetType, hdecay, -⟩ := h.named hheader.stepped htarget
  have hpointer : (Expr.variableExpr counted.left).resultType.pointerLevel = 0 := (congrArg Ty.pointerLevel htype).trans h.pointerLevel
  obtain ⟨rfl, -, hresult⟩ := hbinary ⟨by decide, by decide, by decide, by decide, hpointer⟩
  have hscalar : scalar noteMinus.resultType = true := by
    rw [hresult]
    rfl
  have hminus : Arithmetic.binary BinaryOperator.minus.lexeme k 1 = .ok (k - 1) := rfl
  have hreduced : convert (k - 1) noteMinus.resultType = k - 1 := by
    have hunsigned : (Expr.variableExpr counted.left).resultType.isUnsigned = counted.declaration.type.isUnsigned := congrArg Ty.isUnsigned htype
    have hrange := h.inRange
    simp only [InRange, h.base, reduceCtorEq, if_false, if_true] at hrange
    refine convert_word (n := counted.iterations) ?_ ?_ ?_ (by omega) (by omega)
    · rw [hresult]
      rfl
    · rw [hresult]
      rfl
    · rw [hresult]
      simpa [InRange, isComparison, hunsigned] using hrange
  have heval : eval perform own plot (.binaryExpr noteMinus .minus (.variableExpr counted.left) (.literalExpr counted.one) 0) s = (.ok (k - 1), s) := by
    rw [eval, bind_of_ok (h.eval_counter hheader.stepsFrom hleft hown hcell hk.le hle)]
    dsimp only
    rw [eval, bind_of_ok (literal_run hone hheader.one s), convert_one]
    rw [combine_run hscalar hpointer hminus, hreduced]
  have hnamed : isOwn own (.variableExpr counted.target) = some counted.declaration.symbolId := by
    simp [isOwn, hheader.stepped, hown, hdecay]
  have hstored : convert (k - 1) note.resultType = k - 1 := by
    rw [hassigned, Expr.resultType, Expr.note, htargetType]
    exact h.convert_count (by omega) (by omega)
  have hassign : eval perform own plot (.assignExpr note (.variableExpr counted.target)
      (.binaryExpr noteMinus .minus (.variableExpr counted.left) (.literalExpr counted.one) 0)) s =
        (.ok (k - 1), s.setCell counted.declaration.symbolId (k - 1)) := by
    rw [eval, hnamed]
    simp only [Expr.asPlotCoordinate]
    rw [bind_of_ok heval, writeCell, hstored]
    rfl
  rw [evalEffect, bind_of_ok (show lift _ s = _ by rw [lift, mapStop, hassign])]
  rfl

end Header

/-! ## Bodies that run to their end -/

/-- A stop of the whole function, as a refused access is. -/
def Halts (stop : Stop) : Prop := ∃ halt, stop = .halted halt

theorem Halts.onBreak {stop : Stop} (h : Halts stop) : onBreak stop = none := by
  obtain ⟨halt, rfl⟩ := h
  rfl

theorem Halts.onContinue {stop : Stop} (h : Halts stop) : onContinue stop = none := by
  obtain ⟨halt, rfl⟩ := h
  rfl

theorem halts_lift {α : Type} (x : Eval W α) : StopsWith Halts (lift x) := .mapStop (fun halt => ⟨halt, rfl⟩) x

theorem halts_emit (i : Instruction) (arguments : List Int) : StopsWith Halts (emit perform i arguments) :=
  (halts_lift _).bind fun _ => .pure _

theorem halts_evalEffect (e : Expr) : StopsWith Halts (evalEffect perform own plot e) := (halts_lift _).bind fun _ => .pure _

theorem halts_storeAggregates (place : Int) (elements : List AggregateInitializer) :
    StopsWith Halts (storeAggregates perform own plot place elements) := by
  induction elements with
  | nil => exact .pure _
  | cons element rest ih => exact (halts_lift _).bind fun _ => (halts_lift _).bind fun _ => (halts_lift _).bind fun _ => ih

theorem halts_declare (declaration : VarDeclStmt) : StopsWith Halts (declare perform own plot declaration) := by
  unfold declare
  split
  · exact .pure _
  · split
    · exact (halts_lift _).bind fun _ => .change _
    · refine (halts_lift _).bind fun place => (halts_storeAggregates _ _).bind fun _ => ?_
      split
      · exact .pure _
      · exact (halts_lift _).bind fun _ => (halts_lift _).bind fun _ => .pure _

mutual

theorem halts_exec (plot : Bool) (s : Stmt) (hbreak : containsBreak s = false) (hreturn : containsReturn s = false) :
    StopsWith Halts (exec perform own bound plot s) := by
  match s with
  | .blockStmt statements =>
      rw [exec]
      exact halts_execFrom plot 0 statements hbreak hreturn
  | .ifStmt test thenBranch elseBranch =>
      rw [containsBreak, Bool.or_eq_false_iff] at hbreak
      rw [containsReturn, Bool.or_eq_false_iff] at hreturn
      rw [exec]
      refine (halts_lift _).bind fun holds => ?_
      cases holds with
      | true => exact halts_exec plot thenBranch hbreak.1 hreturn.1
      | false => exact halts_exec plot elseBranch hbreak.2 hreturn.2
  | .varDeclStmt declaration => exact halts_declare declaration
  | .expressionStmt expression => exact halts_evalEffect expression
  | .plotStmt => exact halts_emit _ _
  | .plotBlockStmt body =>
      rw [exec]
      exact (halts_emit _ _).bind fun _ => (halts_exec true body hbreak hreturn).bind fun _ => halts_emit _ _
  | .setColorStmt colorValue =>
      rw [exec]
      split
      · exact (halts_lift _).bind fun _ => halts_emit _ _
      · exact (halts_lift _).bind fun _ => halts_emit _ _
  | .cmodeStmt optionsValue => exact halts_emit _ _
  | .rpixStmt => exact halts_emit _ _
  | .switchStmt selector body =>
      rw [exec]
      refine (halts_lift _).bind fun value => ?_
      split
      · exact (halts_execFrom plot _ body hbreak hreturn).rescue _
      · exact .pure _
  | .hardwareLoopStmt _ _ | .whileStmt _ _ _ | .forStmt _ _ _ _ _ | .breakStmt | .continueStmt => cases hbreak
  | .returnStmt value => cases hreturn
  | .absent | .fallthroughStmt | .functionDeclStmt _ _ | .caseStmt _ | .defaultStmt | .staticAssertStmt _ | .enumDeclStmt
  | .structDefStmt | .typeAliasDeclStmt | .bitmapDeclStmt | .useBitmapStmt | .constDataStmt _ => exact .pure _

theorem halts_execFrom (plot : Bool) (skipped : Nat) (statements : List Stmt) (hbreak : anyContainsBreak statements = false)
    (hreturn : anyContainsReturn statements = false) : StopsWith Halts (execFrom perform own bound plot skipped statements) := by
  match skipped, statements with
  | _, [] =>
      rw [execFrom]
      exact .pure _
  | 0, s :: rest =>
      rw [anyContainsBreak, Bool.or_eq_false_iff] at hbreak
      rw [anyContainsReturn, Bool.or_eq_false_iff] at hreturn
      rw [execFrom]
      exact (halts_exec plot s hbreak.1 hreturn.1).bind fun _ => halts_execFrom plot 0 rest hbreak.2 hreturn.2
  | skipped + 1, _ :: rest =>
      rw [anyContainsBreak, Bool.or_eq_false_iff] at hbreak
      rw [anyContainsReturn, Bool.or_eq_false_iff] at hreturn
      rw [execFrom]
      exact halts_execFrom plot skipped rest hbreak.2 hreturn.2

end

/-! ## The loop -/

theorem Alike.refl (s : State W) : Alike s s := ⟨rfl, rfl⟩

theorem Alike.setCell {s t : State W} (h : Alike s t) (symbolId : SymbolId) (value : Int) : Alike (s.setCell symbolId value) t := h

section Loop

variable {locals : SymbolId → Option Ty} {counted : Counted} {initializer : Stmt} {test increment : Expr} {body : Exec W Unit}

/-- The states of a loop and of its body alone, with `k` rounds to go. -/
structure Counted.ToGo (counted : Counted) (k : Nat) (s t : State W) : Prop where
  alike : Alike s t
  cell : s.cells counted.declaration.symbolId = k
  le : (k : Int) ≤ counted.iterations

/-- Where the counter is not yet zero, a round is the body and takes one off. -/
theorem Counted.Plain.round_run (h : counted.Plain locals) (hheader : counted.Header initializer test increment) (htest : test.Noted locals)
    (hincrement : increment.Noted locals) (hown : own counted.declaration.symbolId = true) (hhalts : StopsWith Halts body)
    (hkeeps : Keeps State.cells body) {s : State W} {k : Nat} (hcell : s.cells counted.declaration.symbolId = (k + 1 : Nat))
    (hle : (k + 1 : Nat) ≤ counted.iterations) :
    loopRound perform own false plot test body (evalEffect perform own plot increment) s =
      match body s with
      | (.ok (), t) => (.ok true, t.setCell counted.declaration.symbolId k)
      | (.error e, t) => (.error e, t) := by
  have hmore : lift (condition perform own plot test) s = (.ok true, s) := by
    rw [lift, mapStop, h.test_run hheader htest hown hcell (by omega) hle]
    simp
  have hcells := hkeeps s
  rw [loopRound, cacheHint, if_neg (by simp), bind_of_ok (pure_run _ _), bind_of_ok hmore]
  simp only
  rw [rescue_of_stopsWith hhalts fun _ he => he.onContinue]
  rcases hbody : body s with ⟨result, t⟩
  rw [hbody] at hcells
  cases result with
  | error e => rw [bind_of_error hbody]
  | ok a =>
      have hstep : evalEffect perform own plot increment t = (.ok (), t.setCell counted.declaration.symbolId ((k + 1 : Nat) - 1)) :=
        h.step_run hheader hincrement hown ((congrFun hcells _).trans hcell) (by omega) hle
      rw [bind_of_ok hbody, bind_of_ok hstep, pure_run]
      simp

/-- Where it is, the round is the last one. -/
theorem Counted.Plain.round_last (h : counted.Plain locals) (hheader : counted.Header initializer test increment) (htest : test.Noted locals)
    (hown : own counted.declaration.symbolId = true) {next : Exec W Unit} {s : State W} (hcell : s.cells counted.declaration.symbolId = 0) :
    loopRound perform own false plot test body next s = (.ok false, s) := by
  have hdone : lift (condition perform own plot test) s = (.ok false, s) := by
    rw [lift, mapStop, h.test_run hheader htest hown hcell (Int.le_refl _) hheader.positive.le]
    simp
  rw [loopRound, cacheHint, if_neg (by simp), bind_of_ok (pure_run _ _), bind_of_ok hdone]
  rfl

theorem halts_loopRound (hhalts : StopsWith Halts body) (isCached : Bool) :
    StopsWith Halts (loopRound perform own isCached plot test body (evalEffect perform own plot increment)) := by
  unfold loopRound cacheHint
  refine StopsWith.bind ?_ fun _ => (halts_lift _).bind fun more => ?_
  · split
    · exact halts_emit _ _
    · exact .pure _
  · cases more with
    | true => exact (hhalts.rescue _).bind fun _ => (halts_evalEffect _).bind fun _ => .pure _
    | false => exact .pure _

/-- A recognized loop does what its body does, as often as its header says. -/
theorem Counted.Plain.loop_times (h : counted.Plain locals) (hheader : counted.Header initializer test increment) (htest : test.Noted locals)
    (hincrement : increment.Noted locals) (hown : own counted.declaration.symbolId = true) (hhalts : StopsWith Halts body)
    (hkeeps : Keeps State.cells body) (hbound : 0x10000 ≤ bound) {body' : Exec W Unit} (hbody : Related Alike body body') :
    Related Alike (do
      exec perform own bound plot initializer
      (rounds (loopRound perform own false plot test body (evalEffect perform own plot increment)) .unfinished bound).rescue onBreak)
      (times body' counted.iterations.toNat) := by
  intro s t hst
  have hpositive := hheader.positive
  have hbounded := hheader.bounded
  have hrounds : StopsWith (fun e => onBreak e = none)
      (rounds (loopRound perform own false plot test body (evalEffect perform own plot increment)) .unfinished bound) :=
    ((halts_loopRound hhalts false).mono fun _ he => he.onBreak).rounds rfl bound
  rw [bind_of_ok (h.start_run hheader hown s), rescue_of_stopsWith hrounds fun _ he => he]
  refine rounds_times (C := counted.ToGo) ?_ ?_ _ bound _ _ (by omega) ⟨hst.setCell _ _, ?_, by omega⟩
  · intro k s t hgo
    have hle := hgo.le
    rcases hbody.cases hgo.alike with ⟨a, s', t', hs, ht, halike⟩ | ⟨e, s', t', hs, ht, halike⟩
    · refine .inl ⟨s'.setCell counted.declaration.symbolId k, t', ?_, ht, halike.setCell _ _, by simp [State.setCell], by omega⟩
      rw [h.round_run hheader htest hincrement hown hhalts hkeeps hgo.cell hle, hs]
    · refine .inr ⟨e, s', t', ?_, ht, halike⟩
      rw [h.round_run hheader htest hincrement hown hhalts hkeeps hgo.cell hle, hs]
  · exact fun s t hgo => ⟨s, h.round_last hheader htest hown hgo.cell, hgo.alike⟩
  · simp only [State.setCell, Function.update_self]
    omega

/-- And so does the hardware loop. -/
theorem Counted.Plain.hardware_times (h : counted.Plain locals) (hheader : counted.Header initializer test increment) (s : Stmt) (t : State W) :
    exec perform own bound plot (.hardwareLoopStmt counted.count s) t = times (exec perform own bound plot s) counted.iterations.toNat t := by
  have hpositive := hheader.positive
  have hbounded := hheader.bounded
  have hconvert : convert counted.iterations (Analyzer.valueType counted.declaration.type) = counted.iterations :=
    h.convert_count hpositive.le (Int.le_refl _)
  have hcount : hardwareCount counted.iterations = counted.iterations.toNat := by
    unfold hardwareCount
    rw [Int.emod_eq_of_lt hpositive.le (by omega), if_neg (by omega)]
  have hliteral : lift (evalLiteral perform plot counted.count) t = (.ok counted.iterations, t) := by
    rw [lift, mapStop, literal_run h.formed hheader.count, h.countType, hconvert]
  rw [exec, bind_of_ok hliteral, hcount]

end Loop

end Disco.Optimizer
