import Disco.Optimizer.Analyzed

/-! # Code that does not see a variable's own storage

What names none of the variables with storage of their own does the same whatever is
stored there, and leaves it as it is.
-/

namespace Disco.Optimizer

open Frontend IR Library Computation

variable {W : Type}

/-- The same but for the storage of single variables. -/
def Alike (s t : State W) : Prop := s.world = t.world ∧ s.trace = t.trace

/-- A computation that neither reads nor writes the storage of single variables. -/
def Silent {ε α : Type} (x : Computation (State W) ε α) : Prop := Related Alike x x ∧ Keeps State.cells x

namespace Silent

variable {ε ε' α β : Type} {x : Computation (State W) ε α}

theorem pure (a : α) : Silent (Pure.pure a : Computation (State W) ε α) := ⟨.pure a, .pure a⟩

theorem stop (e : ε) : Silent (Computation.stop e : Computation (State W) ε α) := ⟨.stop e, .stop e⟩

theorem bind (h : Silent x) {f : α → Computation (State W) ε β} (hf : ∀ a, Silent (f a)) : Silent (x >>= f) :=
  ⟨h.1.bind fun a => (hf a).1, h.2.bind fun a => (hf a).2⟩

theorem mapStop (h : Silent x) (f : ε → ε') : Silent (x.mapStop f) := ⟨h.1.mapStop f, h.2.mapStop f⟩

theorem rescue (h : Silent x) (handler : ε → Option α) : Silent (x.rescue handler) := ⟨h.1.rescue handler, h.2.rescue handler⟩

theorem rounds {round : Computation (State W) ε Bool} (h : Silent round) (exhausted : ε) (bound : Nat) :
    Silent (Computation.rounds round exhausted bound) := ⟨h.1.rounds exhausted bound, h.2.rounds exhausted bound⟩

theorem times {x : Computation (State W) ε Unit} (h : Silent x) (n : Nat) : Silent (x.times n) := ⟨h.1.times n, h.2.times n⟩

end Silent

section Evaluation

variable {perform : Perform W} {own : SymbolId → Bool} {plot : Bool}

theorem silent_issue (i : Instruction) (arguments : List Int) : Silent (issue perform i arguments) := by
  constructor
  · rintro s t ⟨hworld, htrace⟩
    unfold issue
    rw [hworld]
    cases produce perform i.effect arguments 0 t.world with
    | error halt => exact ⟨rfl, hworld, htrace⟩
    | ok p => exact ⟨rfl, rfl, congrArg (· ++ p.events) htrace⟩
  · intro s
    unfold issue
    cases produce perform i.effect arguments 0 s.world with
    | error halt => rfl
    | ok p => rfl

theorem silent_evalLiteral (literal : LiteralExpr) : Silent (evalLiteral perform plot literal) := by
  unfold evalLiteral
  cases literalNumber literal with
  | none => exact .stop _
  | some value => exact silent_issue _ _

theorem silent_castTo (source into : Ty) (value : Int) : Silent (castTo perform plot source into value) := by
  unfold castTo
  split
  · exact .pure _
  · exact silent_issue _ _

theorem silent_updated {type targetType operationType : Ty} {operation : BinaryOperator} {pointerStride old : Int}
    {value : Eval W Int} (h : Silent value) :
    Silent (updated perform plot type targetType operationType operation pointerStride old value) := by
  unfold updated
  exact (silent_castTo _ _ _).bind fun operand => h.bind fun rhs => (silent_issue _ _).bind fun result => silent_castTo _ _ _

/-- None of these variables has storage of its own. -/
def Foreign (own : SymbolId → Bool) (names : List SymbolId) : Prop := ∀ x ∈ names, own x = false

theorem Foreign.left {left right : List SymbolId} (h : Foreign own (left ++ right)) : Foreign own left :=
  fun x hx => h x (List.mem_append_left _ hx)

theorem Foreign.right {left right : List SymbolId} (h : Foreign own (left ++ right)) : Foreign own right :=
  fun x hx => h x (List.mem_append_right _ hx)

theorem Foreign.isOwn {e : Expr} (h : Foreign own e.mentions) : isOwn own e = none := by
  cases e with
  | variableExpr named => simp [Optimizer.isOwn, h named.symbolId (by simp [Expr.mentions])]
  | _ => rfl

mutual

theorem silent_eval (e : Expr) (h : Foreign own e.mentions) : Silent (eval perform own plot e) := by
  match e with
  | .absent => exact .stop _
  | .literalExpr literal => exact silent_evalLiteral literal
  | .variableExpr named =>
      rw [eval, h.isOwn]
      split
      · exact silent_issue _ _
      · refine (silent_issue _ _).bind fun place => ?_
        split
        · exact .pure _
        · exact silent_issue _ _
  | .plotCoordinateExpr note isY => exact silent_issue _ _
  | .readPixelExpr note x y =>
      rw [eval]
      split
      · exact silent_issue _ _
      · next hx =>
          rw [Expr.mentions, if_neg hx] at h
          refine (silent_eval x h.left).bind fun px => (silent_issue _ _).bind fun _ => ?_
          exact (silent_eval y h.right).bind fun py => (silent_issue _ _).bind fun _ => silent_issue _ _
  | .initializerListExpr note elements => exact .stop _
  | .stringExpr note lexeme => exact .stop _
  | .nullExpr note => exact silent_issue _ _
  | .updateExpr note target value operation operationType pointerStride returnsOld =>
      have hvalue := silent_eval value h.right
      rw [eval, Foreign.isOwn h.left]
      split
      · exact (silent_issue _ _).bind fun old => (silent_updated hvalue).bind fun new => (silent_issue _ _).bind fun _ => .pure _
      · rename_i hnone
        cases hnone
      · refine (silent_address target h.left).bind fun place => (silent_issue _ _).bind fun old => ?_
        exact (silent_updated hvalue).bind fun new => (silent_issue _ _).bind fun _ => .pure _
  | .binaryExpr note operation left right pointerStride =>
      have hright := silent_eval right h.right
      rw [eval]
      refine (silent_eval left h.left).bind fun a => ?_
      split
      · split
        · exact hright
        · exact silent_issue _ _
      · split
        · exact silent_issue _ _
        · exact hright
      · exact hright.bind fun b => silent_issue _ _
  | .assignExpr note name value =>
      have hvalue := silent_eval value h.right
      rw [eval, Foreign.isOwn h.left]
      split
      · exact hvalue.bind fun v => (silent_issue _ _).bind fun _ => .pure _
      · rename_i hnone
        cases hnone
      · exact (silent_address name h.left).bind fun place => hvalue.bind fun v => (silent_issue _ _).bind fun _ => .pure _
  | .unaryExpr note operation right =>
      rw [eval]
      split
      · split
        · exact silent_issue _ _
        · exact .stop _
      · exact (silent_eval right h).bind fun v => silent_issue _ _
  | .addressOfExpr note right =>
      rw [eval]
      exact silent_address right h
  | .dereferenceExpr note right => exact (silent_eval right h).bind fun place => silent_issue _ _
  | .subscriptExpr note array index elementSize =>
      rw [eval]
      refine Silent.bind ?_ fun base => (silent_eval index h.right).bind fun i => (silent_issue _ _).bind fun place => silent_issue _ _
      split
      · exact silent_address array h.left
      · exact silent_eval array h.left
  | .memberAccessExpr note object memberOffset =>
      rw [eval]
      exact (silent_address object h).bind fun base => (silent_issue _ _).bind fun place => silent_issue _ _
  | .callExpr note callee resolvedSymbol arguments =>
      rw [eval]
      exact (silent_evalAll arguments h).bind fun values => silent_issue _ _
  | .castExpr note expression => exact (silent_eval expression h).bind fun v => silent_issue _ _
  | .layoutQueryExpr note => exact silent_issue _ _

theorem silent_address (e : Expr) (h : Foreign own e.mentions) : Silent (address perform own plot e) := by
  match e with
  | .variableExpr named => exact silent_issue _ _
  | .dereferenceExpr note right =>
      rw [address]
      exact silent_eval right h
  | .subscriptExpr note array index elementSize =>
      rw [address]
      refine Silent.bind ?_ fun base => (silent_eval index h.right).bind fun i => silent_issue _ _
      split
      · exact silent_address array h.left
      · exact silent_eval array h.left
  | .memberAccessExpr note object memberOffset =>
      rw [address]
      exact (silent_address object h).bind fun base => silent_issue _ _
  | .absent | .literalExpr _ | .plotCoordinateExpr _ _ | .readPixelExpr _ _ _ | .initializerListExpr _ _ | .stringExpr _ _
  | .nullExpr _ | .updateExpr _ _ _ _ _ _ _ | .binaryExpr _ _ _ _ _ | .assignExpr _ _ _ | .unaryExpr _ _ _ | .addressOfExpr _ _
  | .callExpr _ _ _ _ | .castExpr _ _ | .layoutQueryExpr _ => exact .stop _

theorem silent_evalAll (es : List Expr) (h : Foreign own (mentionsAll es)) : Silent (evalAll perform own plot es) := by
  match es with
  | [] => exact .pure _
  | e :: rest =>
      rw [evalAll]
      exact (silent_eval e h.left).bind fun v => (silent_evalAll rest h.right).bind fun others => .pure _

end

theorem silent_truth {x : Eval W Int} (h : Silent x) : Silent (do
    let v ← x
    Pure.pure (decide (v ≠ 0)) : Eval W Bool) := h.bind fun _ => .pure _

theorem silent_condition (e : Expr) (h : Foreign own e.mentions) : Silent (condition perform own plot e) := by
  match e with
  | .binaryExpr note operation left right pointerStride =>
      cases operation with
      | andAnd =>
          refine (silent_condition left h.left).bind fun holds => ?_
          cases holds with
          | true => exact silent_condition right h.right
          | false => exact .pure _
      | orOr =>
          refine (silent_condition left h.left).bind fun holds => ?_
          cases holds with
          | true => exact .pure _
          | false => exact silent_condition right h.right
      | _ => exact silent_truth (silent_eval _ h)
  | .unaryExpr note operation right =>
      cases operation with
      | bang => exact (silent_condition right h).bind fun holds => .pure _
      | _ => exact silent_truth (silent_eval _ h)
  | .castExpr note expression =>
      rw [condition]
      split
      · exact silent_condition expression h
      · exact silent_truth (silent_eval _ h)
  | .absent | .literalExpr _ | .variableExpr _ | .plotCoordinateExpr _ _ | .readPixelExpr _ _ _ | .initializerListExpr _ _
  | .stringExpr _ _ | .nullExpr _ | .updateExpr _ _ _ _ _ _ _ | .assignExpr _ _ _ | .addressOfExpr _ _ | .dereferenceExpr _ _
  | .subscriptExpr _ _ _ _ | .memberAccessExpr _ _ _ | .callExpr _ _ _ _ | .layoutQueryExpr _ => exact silent_truth (silent_eval _ h)

/-! ## Statements -/

theorem silent_lift {α : Type} {x : Eval W α} (h : Silent x) : Silent (lift x) := h.mapStop _

theorem silent_emit (i : Instruction) (arguments : List Int) : Silent (emit perform i arguments) :=
  (silent_lift (silent_issue i arguments)).bind fun _ => .pure _

theorem silent_evalEffect (e : Expr) (h : Foreign own e.mentions) : Silent (evalEffect perform own plot e) :=
  (silent_lift (silent_eval e h)).bind fun _ => .pure _

theorem silent_loopRound {isCached : Bool} {test : Expr} {body next : Exec W Unit} (htest : Foreign own test.mentions)
    (hbody : Silent body) (hnext : Silent next) : Silent (loopRound perform own isCached plot test body next) := by
  unfold loopRound
  refine Silent.bind ?_ fun _ => (silent_lift (silent_condition test htest)).bind fun more => ?_
  · unfold cacheHint
    split
    · exact silent_emit _ _
    · exact .pure _
  · cases more with
    | true => exact (hbody.rescue onContinue).bind fun _ => hnext.bind fun _ => .pure _
    | false => exact .pure _

theorem silent_storeAggregates {place : Int} (elements : List AggregateInitializer)
    (h : Foreign own (mentionsAll (elements.map AggregateInitializer.value))) : Silent (storeAggregates perform own plot place elements) := by
  induction elements with
  | nil => exact .pure _
  | cons element rest ih =>
      refine (silent_lift (silent_issue _ _)).bind fun target => (silent_lift (silent_eval element.value h.left)).bind fun value => ?_
      exact (silent_lift (silent_issue _ _)).bind fun _ => ih h.right

theorem silent_declare {declaration : VarDeclStmt} (h : Foreign own (declaration.symbolId :: declaration.evaluates)) :
    Silent (declare perform own plot declaration) := by
  have hself : own declaration.symbolId = false := h declaration.symbolId List.mem_cons_self
  have hevaluates : Foreign own declaration.evaluates := fun x hx => h x (List.mem_cons_of_mem _ hx)
  unfold declare
  split
  · exact .pure _
  · rw [hself, if_neg (by simp)]
    refine (silent_lift (silent_issue _ _)).bind fun place => (silent_storeAggregates _ hevaluates.right).bind fun _ => ?_
    split
    · exact .pure _
    · refine (silent_lift (silent_eval _ hevaluates.left)).bind fun value => ?_
      exact (silent_lift (silent_issue _ _)).bind fun _ => .pure _

theorem silent_next {increment : Expr} (h : Foreign own increment.mentions) :
    Silent (if increment.isAbsent then Pure.pure () else evalEffect perform own plot increment : Exec W Unit) := by
  split
  · exact .pure _
  · exact silent_evalEffect increment h

variable {bound : Nat}

mutual

theorem silent_exec (plot : Bool) (s : Stmt) (h : Foreign own s.mentions) : Silent (exec perform own bound plot s) := by
  match s with
  | .blockStmt statements =>
      rw [exec]
      exact silent_execFrom plot 0 statements h
  | .ifStmt test thenBranch elseBranch =>
      rw [exec]
      refine (silent_lift (silent_condition test h.left)).bind fun holds => ?_
      cases holds with
      | true => exact silent_exec plot thenBranch h.right.left
      | false => exact silent_exec plot elseBranch h.right.right
  | .hardwareLoopStmt count body =>
      rw [exec]
      exact (silent_lift (silent_evalLiteral count)).bind fun n => (silent_exec plot body h).times _
  | .whileStmt isCached test body =>
      rw [exec]
      exact ((silent_loopRound h.left (silent_exec plot body h.right) (.pure _)).rounds _ _).rescue _
  | .forStmt isCached initializer test increment body =>
      have htail : Foreign own (test.mentions ++ (body.mentions ++ increment.mentions)) := Foreign.right h
      rw [exec]
      refine (silent_exec plot initializer (Foreign.left h)).bind fun _ => ?_
      exact ((silent_loopRound htail.left (silent_exec plot body htail.right.left) (silent_next htail.right.right)).rounds _ _).rescue _
  | .breakStmt => exact .stop _
  | .continueStmt => exact .stop _
  | .returnStmt value =>
      rw [exec]
      split
      · exact .stop _
      · exact (silent_lift (silent_eval value h)).bind fun v => .stop _
  | .varDeclStmt declaration => exact silent_declare h
  | .expressionStmt expression => exact silent_evalEffect expression h
  | .plotStmt => exact silent_emit _ _
  | .plotBlockStmt body =>
      rw [exec]
      exact (silent_emit _ _).bind fun _ => (silent_exec true body h).bind fun _ => silent_emit _ _
  | .setColorStmt colorValue =>
      rw [exec]
      split
      · exact (silent_lift (silent_address colorValue h)).bind fun place => silent_emit _ _
      · exact (silent_lift (silent_eval colorValue h)).bind fun v => silent_emit _ _
  | .cmodeStmt optionsValue => exact silent_emit _ _
  | .rpixStmt => exact silent_emit _ _
  | .switchStmt selector body =>
      rw [exec]
      refine (silent_lift (silent_eval selector h.left)).bind fun value => ?_
      split
      · exact (silent_execFrom plot _ body h.right).rescue _
      · exact .pure _
  | .absent | .fallthroughStmt | .functionDeclStmt _ _ | .caseStmt _ | .defaultStmt | .staticAssertStmt _ | .enumDeclStmt
  | .structDefStmt | .typeAliasDeclStmt | .bitmapDeclStmt | .useBitmapStmt | .constDataStmt _ => exact .pure _

theorem silent_execFrom (plot : Bool) (skipped : Nat) (statements : List Stmt) (h : Foreign own (mentionsEach statements)) :
    Silent (execFrom perform own bound plot skipped statements) := by
  match skipped, statements with
  | _, [] =>
      rw [execFrom]
      exact .pure _
  | 0, s :: rest =>
      rw [execFrom]
      exact (silent_exec plot s h.left).bind fun _ => silent_execFrom plot 0 rest h.right
  | skipped + 1, _ :: rest =>
      rw [execFrom]
      exact silent_execFrom plot skipped rest h.right

end

end Evaluation

end Disco.Optimizer
