import Disco.Frontend.Folded
import Disco.Frontend.Typing
import Disco.IR.Arithmetic

/-! # Constants agree with the code

`ConstantEvaluator` and the code of an expression give the same value, except
where a `bool` is made from a literal that does not fit a word.
-/

namespace Disco.Frontend

open IR Library Lowerer Analyzer
open ConstantEvaluator (evaluate operate negate)
open ScalarFold (Operand scalar truth unsigned evaluateBinary evaluateUnary)

/-! ## Operations -/

theorem evaluateBinary_lexeme {operation : BinaryOperator} (h : ¬ (operation = .andAnd ∨ operation = .orOr))
    (a b : Int) : evaluateBinary operation.lexeme a b = (operate operation a b).toOption := by
  cases operation with
  | andAnd => simp at h
  | orOr => simp at h
  | slash | percent =>
      unfold operate
      by_cases hb : b = 0
      · simp [evaluateBinary, BinaryOperator.lexeme, hb, Except.toOption]
      · simp [evaluateBinary, BinaryOperator.lexeme, hb, Except.toOption]
  | shiftLeft =>
      unfold operate
      by_cases hb : b < 0 ∨ b > 15
      · simp [evaluateBinary, BinaryOperator.lexeme, hb, Except.toOption]
      · simp [evaluateBinary, BinaryOperator.lexeme, hb, Except.toOption, Nat.shiftLeft_eq]
  | shiftRight =>
      unfold operate
      by_cases hb : b < 0 ∨ b > 15
      · simp [evaluateBinary, BinaryOperator.lexeme, hb, Except.toOption]
      · by_cases ha : 0 ≤ a <;> simp [evaluateBinary, BinaryOperator.lexeme, hb, ha, Except.toOption]
  | _ => rfl

theorem evaluateUnary_lexeme (operation : UnaryOperator) (a : Int) :
    evaluateUnary operation.lexeme a = some (negate operation a) := by
  cases operation <;> rfl

section Fold

variable {i : Instruction} {x y : Operand}

theorem fold_one (hs : scalar i.type = true) (hx : scalar x.type = true) :
    ScalarFold.evaluate i [x] =
      (ScalarFold.evaluateRaw i (convert x.value x.type) 0).map fun result => convert result i.type := by
  unfold ScalarFold.evaluate
  rw [if_neg (by simp [hs, hx])]
  rfl

theorem fold_two (hs : scalar i.type = true) (hx : scalar x.type = true) (hy : scalar y.type = true) :
    ScalarFold.evaluate i [x, y] =
      (ScalarFold.evaluateRaw i (convert x.value x.type) (convert y.value y.type)).map fun result =>
        convert result i.type := by
  unfold ScalarFold.evaluate
  rw [if_neg (by simp [hs, hx, hy])]
  rfl

/-- Folding an instruction on operands that are known. -/
theorem produce_fold {s : FoldState} (hop : i.opcode = .cast ∨ i.opcode = .unary ∨ i.opcode = .binary)
    (hall : i.operands.all (fun id => (s.values id).isSome) = true) :
    produce s i = match ScalarFold.evaluate i (s.operands i) with
      | some value => .ok ⟨i.type, value⟩
      | none => .error .fault := by
  unfold produce
  rcases hop with hop | hop | hop <;> simp only [hop, hall, if_true] <;>
    cases ScalarFold.evaluate i (s.operands i) <;> rfl

theorem produce_one {s : FoldState} {a : Nat} (hop : i.opcode = .cast ∨ i.opcode = .unary)
    (hi : i.operands = [a]) (ha : s.values a = some x) (hs : scalar i.type = true) (hx : scalar x.type = true) :
    produce s i = match ScalarFold.evaluateRaw i (convert x.value x.type) 0 with
      | some result => .ok ⟨i.type, convert result i.type⟩
      | none => .error .fault := by
  have hoperands : s.operands i = [x] := by simp [FoldState.operands, hi, ha]
  rw [produce_fold (hop.imp id .inl) (by simp [hi, ha]), hoperands, fold_one hs hx]
  cases ScalarFold.evaluateRaw i (convert x.value x.type) 0 <;> rfl

theorem produce_two {s : FoldState} {a b : Nat} (hop : i.opcode = .binary) (hi : i.operands = [a, b])
    (ha : s.values a = some x) (hb : s.values b = some y) (hs : scalar i.type = true) (hx : scalar x.type = true)
    (hy : scalar y.type = true) :
    produce s i = match ScalarFold.evaluateRaw i (convert x.value x.type) (convert y.value y.type) with
      | some result => .ok ⟨i.type, convert result i.type⟩
      | none => .error .fault := by
  have hoperands : s.operands i = [x, y] := by simp [FoldState.operands, hi, ha, hb]
  rw [produce_fold (.inr (.inr hop)) (by simp [hi, ha, hb]), hoperands, fold_two hs hx hy]
  cases ScalarFold.evaluateRaw i (convert x.value x.type) (convert y.value y.type) <;> rfl

end Fold

/-! ## Literals of any size -/

theorem convert_loose (value : Int) : convert value (wordType false) = wrap (2 ^ 16) false value := rfl

/-- A unary operation sees the low sixteen bits only. -/
theorem negate_emod (operation : UnaryOperator) (hbang : operation ≠ .bang) {left right : Int}
    (h : left % 2 ^ 16 = right % 2 ^ 16) : negate operation left % 2 ^ 16 = negate operation right % 2 ^ 16 := by
  cases operation with
  | bang => exact absurd rfl hbang
  | minus =>
      unfold negate
      dsimp only
      omega
  | tilde =>
      unfold negate
      dsimp only
      have hmask : ∀ value : Int, Int.ofNat ((2 ^ 64 - 1 - unsigned value) &&& 0xffff) = (-value - 1) % 2 ^ 16 := by
        intro value
        rw [and_mask]
        unfold unsigned
        have hlow := Int.emod_nonneg value (show (2 : Int) ^ 64 ≠ 0 by norm_num)
        have hhigh := Int.emod_lt_of_pos value (show (0 : Int) < 2 ^ 64 by norm_num)
        rw [Int.ofNat_eq_natCast]
        omega
      rw [hmask, hmask]
      omega

/-- Unless it fits its type, the value of a typed expression belongs to a signed word. -/
theorem Typed.fits_or_loose {e : Expr} {v : Int} (h : Typed e) (hv : evaluate e = .ok (some v)) :
    convert v e.resultType = v ∨ e.resultType = wordType false := by
  cases e with
  | literal note kind lexeme =>
      rw [evaluate, h.2.1.eq] at hv
      rcases h with ⟨-, -, w, hw, hfit⟩
      rw [hw] at hv
      cases hv
      exact hfit
  | named => exact .inl (h.fits trivial hv)
  | layoutType => exact .inl (h.fits trivial hv)
  | layoutObject => exact .inl (h.fits trivial hv)
  | unary => exact .inl (h.fits trivial hv)
  | binary => exact .inl (h.fits trivial hv)
  | cast => exact .inl (h.fits trivial hv)

theorem convert_negate {operation : UnaryOperator} {type : Ty} {v : Int} (hbang : operation ≠ .bang)
    (h : convert v type = v ∨ type = wordType false) :
    convert (negate operation (convert v type)) type = convert (negate operation v) type := by
  rcases h with hfit | rfl
  · rw [hfit]
  · rw [convert_loose, convert_loose, convert_loose]
    exact wrap_congr (negate_emod operation hbang (wrap_emod _ _ _))

/-! ## Runs -/

section Run

variable {l l1 l' : Lowerer} {g : Function} {s s1 : FoldState} {id observed n : Nat} {type : Ty} {value : Int}

theorem Arrives.after {m : Nat} {s' : FoldState} (hruns : Machine.Runs (folding g observed) n s s1)
    (hkeeps : Keeps l.function.valueCount s s1) (hle : l.function.valueCount ≤ l1.function.valueCount)
    (h : Arrives g observed l1 l' s1 id type value m s') : Arrives g observed l l' s id type value (n + m) s' where
  runs := hruns.append h.runs
  place := h.place
  holds := h.holds
  keeps := hkeeps.trans h.keeps hle

theorem Evaluates.after {result : Except String (Option Int)} (hruns : Machine.Runs (folding g observed) n s s1)
    (hkeeps : Keeps l.function.valueCount s s1) (hle : l.function.valueCount ≤ l1.function.valueCount)
    (h : Evaluates g observed l1 l' s1 id type result) : Evaluates g observed l l' s id type result := by
  cases result with
  | error message =>
      rcases h with ⟨m, s', hruns', hfault⟩
      exact ⟨n + m, s', hruns.append hruns', hfault⟩
  | ok constant =>
      cases constant with
      | none => trivial
      | some v =>
          rcases h with ⟨m, s', harrives⟩
          exact ⟨n + m, s', harrives.after hruns hkeeps hle⟩

/-- Only the value in its type matters. -/
theorem Evaluates.congr {v w : Int} (h : Evaluates g observed l l' s id type (.ok (some v)))
    (hvw : convert v type = convert w type) : Evaluates g observed l l' s id type (.ok (some w)) := by
  rcases h with ⟨m, s', hruns, hplace, ⟨raw, hraw, hconvert⟩, hkeeps⟩
  exact ⟨m, s', hruns, hplace, ⟨raw, hraw, hconvert.trans hvw⟩, hkeeps⟩

/-- The last instruction of an expression, on operands that have been evaluated. -/
theorem evaluates_of_produce {i : Instruction} (raw : Except String Int) (h : l.emitValue i = .ok (id, l'))
    (hvalue : isValueOpcode i.opcode = true) (hg : Extends l'.function g) (hs : At l s)
    (hproduce : produce s { i with
      result := id
      inPlotContext := l.plotContext } = match raw with
        | .ok v => .ok ⟨i.type, convert v i.type⟩
        | .error _ => .error .fault) :
    Evaluates g observed l l' s id i.type (raw.map fun v => some (convert v i.type)) := by
  have hstep := foldStep_of_emitValue h hvalue hg hs
  rw [hproduce] at hstep
  cases raw with
  | error message => exact ⟨0, s, Machine.Runs.refl (A := folding g observed) s, hstep⟩
  | ok v =>
      exact ⟨1, _, {
        runs := .single hstep
        place := hs.assign h _
        holds := ⟨convert v i.type, Function.update_self _ _ _, rfl⟩
        keeps := .assign h _ }⟩

end Run

/-! ## Expressions -/

section Lower

variable {g : Function} {observed : Nat} {l l' : Lowerer} {s : FoldState} {id : Nat}

/-- The code of an expression, run from wherever it is appended. -/
def Runnable (g : Function) (observed : Nat) (e : Expr) : Prop :=
  ∀ l id l' s, lowerExpression e l = .ok (id, l') → Extends l'.function g → At l s →
    Evaluates g observed l l' s id e.resultType (evaluate e)

theorem literalNumber_eq {note : Note} {kind : LiteralKind} {lexeme : Text} {number : Int}
    (ht : Typed (.literal note kind lexeme)) (h : literalNumber kind lexeme = .ok number) :
    literalValue kind lexeme = some number := by
  rcases ht with ⟨-, -, v, hv, -⟩
  rw [hv]
  unfold literalValue at hv
  unfold literalNumber at h
  cases kind with
  | keywordTrue =>
      cases h
      exact hv.symm
  | keywordFalse =>
      cases h
      exact hv.symm
  | integer | character =>
      dsimp only at h hv
      split at hv
      · cases hv
      · rename_i parsed consumed hparse
        rw [hparse] at h
        cases h
        split at hv
        · exact hv.symm
        · cases hv

theorem runnable_literal {note : Note} {kind : LiteralKind} {lexeme : Text} (ht : Typed (.literal note kind lexeme)) :
    Runnable g observed (.literal note kind lexeme) := by
  intro l id l' s h hg hs
  rw [lowerExpression] at h
  obtain ⟨number, hnumber, h⟩ := bind_eq_ok.mp h
  rw [evaluate, ht.2.1.eq, literalNumber_eq ht hnumber]
  exact emitConstant_evaluates h hg hs

theorem runnable_named {note : Note} {name : String} {symbolId : Nat} {storage : AddressSpace} :
    Runnable g observed (.named note name symbolId storage) := by
  intro l id l' s h hg hs
  rw [lowerExpression] at h
  unfold evaluate ConstantEvaluator.noted
  split at h
  · rename_i hconst
    rw [if_pos hconst]
    exact emitConstant_evaluates h hg hs
  · rename_i hconst
    rw [if_neg hconst]
    trivial

/-- A noted constant is the immediate of an instruction. -/
theorem runnable_noted {e : Expr} (hnoted : evaluate e = .ok (some e.note.constantValue))
    (hlower : ∀ l, lowerExpression e l = l.emitConstant e.resultType e.note.constantValue) : Runnable g observed e := by
  intro l id l' s h hg hs
  rw [hlower] at h
  rw [hnoted]
  exact emitConstant_evaluates h hg hs

/-- A cast converts what its operand is at run time. -/
theorem cast_evaluates {note : Note} {target : PlainType} {e : Expr} (hscalar : scalar note.resultType = true)
    (hsource : scalar e.resultType = true) (he : Runnable g observed e) {v : Int} (hv : evaluate e = .ok (some v))
    (h : lowerExpression (.cast note target e) l = .ok (id, l')) (hg : Extends l'.function g) (hs : At l s) :
    Evaluates g observed l l' s id note.resultType (.ok (some (convert v e.resultType))) := by
  rw [lowerExpression] at h
  obtain ⟨⟨operand, l1⟩, hlower, h⟩ := bind_eq_ok.mp h
  rcases emitValue_emits h with ⟨-, -, hgrows, -⟩
  have hoperand := he l operand l1 s hlower (hgrows.extends.trans hg) hs
  rw [hv] at hoperand
  rcases hoperand with ⟨n, s1, hruns, hplace, ⟨raw, hraw, hconvert⟩, hkeeps⟩
  apply Evaluates.after hruns hkeeps (lowerExpression_grows hlower).1.values
  have hproduced : Evaluates g observed l1 l' s1 id note.resultType
      (.ok (some (convert (convert v e.resultType) note.resultType))) := by
    apply evaluates_of_produce (.ok (convert v e.resultType)) h rfl hg hplace
    rw [produce_one (.inl rfl) rfl hraw hscalar hsource]
    simp only [ScalarFold.evaluateRaw, hconvert]
  exact hproduced.congr (convert_convert _ _)

theorem runnable_cast {note : Note} {target : PlainType} {e : Expr} (ht : Typed (.cast note target e))
    (ih : Runnable g observed e) : Runnable g observed (.cast note target e) := by
  intro l id l' s h hg hs
  rw [ht.evaluate_cast, fresh]
  rcases ht with ⟨hscalar, hsource, hte, htight, -⟩
  cases he : evaluate e with
  | error message =>
      rw [lowerExpression] at h
      obtain ⟨⟨operand, l1⟩, hlower, h⟩ := bind_eq_ok.mp h
      rcases emitValue_emits h with ⟨-, -, hgrows, -⟩
      have hoperand := ih l operand l1 s hlower (hgrows.extends.trans hg) hs
      rw [he] at hoperand
      exact hoperand
  | ok constant =>
      cases constant with
      | none => trivial
      | some v =>
          have hvalue := cast_evaluates hscalar hsource ih he h hg hs
          rw [hte.fits htight he] at hvalue
          exact hvalue.congr (convert_convert _ _).symm

theorem runnable_unary {note : Note} {operation : UnaryOperator} {right : Expr} (ht : Typed (.unary note operation right))
    (ih : Runnable g observed right) : Runnable g observed (.unary note operation right) := by
  intro l id l' s h hg hs
  rw [ht.evaluate_unary, fresh]
  rcases ht with ⟨hscalar, hsource, htr, -, hcases⟩
  unfold lowerExpression at h
  split at h
  · rename_i literalNote lexeme
    obtain ⟨number, hnumber, h⟩ := bind_eq_ok.mp h
    have heval : evaluate (.literal literalNote .integer lexeme) = .ok (some number) := by
      rw [evaluate, htr.2.1.eq, literalNumber_eq htr hnumber]
    rw [heval]
    exact (emitConstant_evaluates h hg hs).congr (convert_convert _ _).symm
  · rename_i hshape
    obtain ⟨⟨operand, l1⟩, hlower, h⟩ := bind_eq_ok.mp h
    rcases emitValue_emits h with ⟨-, -, hgrows, -⟩
    have hoperand := ih l operand l1 s hlower (hgrows.extends.trans hg) hs
    cases he : evaluate right with
    | error message =>
        rw [he] at hoperand
        exact hoperand
    | ok constant =>
        rw [he] at hoperand
        cases constant with
        | none => trivial
        | some v =>
            rcases hoperand with ⟨n, s1, hruns, hplace, ⟨raw, hraw, hconvert⟩, hkeeps⟩
            apply Evaluates.after hruns hkeeps (lowerExpression_grows hlower).1.values
            apply evaluates_of_produce (.ok (negate operation v)) h rfl hg hplace
            rw [produce_one (.inr rfl) rfl hraw hscalar hsource]
            have hnegate : convert (negate operation (convert raw right.resultType)) note.resultType =
                convert (negate operation v) note.resultType := by
              rw [hconvert]
              rcases hcases with hnegative | ⟨-, htight⟩ | ⟨hbang, htype⟩
              · rcases hnegative with ⟨hminus, literalNote, lexeme, hliteral⟩
                exact (hshape literalNote lexeme hminus hliteral).elim
              · rw [htr.fits htight he]
              · rw [htype]
                exact convert_negate hbang (htr.fits_or_loose he)
            simp only [ScalarFold.evaluateRaw, evaluateUnary_lexeme, hnegate]

theorem runnable_binary {note : Note} {operation : BinaryOperator} {left right : Expr}
    (ht : Typed (.binary note operation left right)) (hlogical : ¬ (operation = .andAnd ∨ operation = .orOr))
    (ihl : Runnable g observed left) (ihr : Runnable g observed right) :
    Runnable g observed (.binary note operation left right) := by
  intro l id l' s h hg hs
  rw [lowerExpression, if_neg hlogical] at h
  obtain ⟨⟨first, l1⟩, hfirst, h⟩ := bind_eq_ok.mp h
  obtain ⟨⟨second, l2⟩, hsecond, h⟩ := bind_eq_ok.mp h
  rcases emitValue_emits h with ⟨-, -, hgrows, -⟩
  rcases lowerExpression_grows hfirst with ⟨hgrows1, hid1⟩
  have hgrows2 := (lowerExpression_grows hsecond).1
  have hg2 := hgrows.extends.trans hg
  have hleft := ihl l first l1 s hfirst (hgrows2.extends.trans hg2) hs
  rw [ht.evaluate_binary, fresh]
  rcases ht with ⟨hscalar, hsl, hsr, htl, htr, htil, htir, -, -⟩
  cases hel : evaluate left with
  | error message =>
      rw [hel] at hleft
      exact hleft
  | ok constant =>
      rw [hel] at hleft
      cases constant with
      | none => trivial
      | some a =>
          rcases hleft with ⟨n, s1, hruns1, hplace1, ⟨rawa, hrawa, hconverta⟩, hkeeps1⟩
          have ha : convert rawa left.resultType = a := hconverta.trans (htl.fits htil hel)
          have hright := ihr l1 second l2 s1 hsecond hg2 hplace1
          apply Evaluates.after hruns1 hkeeps1 hgrows1.values
          simp only [ok_bind]
          rw [if_neg fun hand => hlogical (.inl hand.1), if_neg fun hor => hlogical (.inr hor.1)]
          cases her : evaluate right with
          | error message =>
              rw [her] at hright
              exact hright
          | ok constant =>
              rw [her] at hright
              cases constant with
              | none => trivial
              | some b =>
                  rcases hright with ⟨m, s2, hruns2, hplace2, ⟨rawb, hrawb, hconvertb⟩, hkeeps2⟩
                  have hb : convert rawb right.resultType = b := hconvertb.trans (htr.fits htir her)
                  have hrawa2 : s2.values first = some ⟨left.resultType, rawa⟩ := by
                    rw [hkeeps2 first hid1.le]
                    exact hrawa
                  apply Evaluates.after hruns2 hkeeps2 hgrows2.values
                  have hbind : (operate operation a b >>= fun value => pure (some (convert value note.resultType))) =
                      (operate operation a b).map fun value => some (convert value note.resultType) := by
                    cases operate operation a b <;> rfl
                  simp only [ok_bind, hbind]
                  apply evaluates_of_produce (operate operation a b) h rfl hg hplace2
                  rw [produce_two rfl rfl hrawa2 hrawb hscalar hsl hsr, ha, hb]
                  simp only [ScalarFold.evaluateRaw, evaluateBinary_lexeme hlogical]
                  cases operate operation a b <;> rfl

/-- The way from the value of an operand to the value of the operator. -/
theorem Logical.finish {operation : BinaryOperator} {left right : Expr} (p : Logical operation left right l id l')
    (hdone : p.l8.function.code p.ids.2.2 = []) (hg : Extends l'.function g) {before after : Lowerer} {x : Nat}
    (h : before.finishBranch p.address x p.ids.2.2 = .ok after) (hafter : Extends after.function g) (hs : At before s)
    {pointer operand : Operand} (haddress : s.values p.address = some pointer) (hx : s.values x = some operand) :
    ∃ s', Machine.Runs (folding g observed) 3 s s' ∧ At l' s' ∧
      s'.values id = some ⟨boolean.type, convert (convert operand.value operand.type) boolean.type⟩ ∧
      ∀ other ≠ id, s'.values other = s.values other := by
  rcases finishBranch_emits h with ⟨mid, hstore, hbranch⟩
  have hmid := hbranch.grows.extends.trans hafter
  have hs1 := foldStep_of_emits hstore hmid hs
  let s1 := s.store pointer.value (convert (convert operand.value operand.type) boolean.type)
  have hperform : foldStep g s = .ok s1 := by
    rw [hs1]
    simp [performFold, FoldState.operands, haddress, hx, s1]
  have hplace1 : At mid s1 := hs.next hstore.current hstore.code rfl rfl
  have hs2 : foldStep g s1 = .ok (s1.goto p.ids.2.2) := foldStep_of_emits hbranch hafter hplace1
  have hplace2 : At (p.l8.inBlock p.ids.2.2) (s1.goto p.ids.2.2) := ⟨rfl, by
    change 0 = (p.l8.function.code p.ids.2.2).length
    rw [hdone]
    rfl⟩
  have hs3 := foldStep_of_emitValue p.loads rfl hg hplace2
  have hload : produce (s1.goto p.ids.2.2)
      { opcode := .loadIndirect
        type := boolean.type
        operands := [p.address]
        result := id
        inPlotContext := (p.l8.inBlock p.ids.2.2).plotContext } =
      .ok ⟨boolean.type, convert (convert operand.value operand.type) boolean.type⟩ := by
    simp [produce, FoldState.operands, FoldState.goto, s1, FoldState.store, haddress]
  rw [hload] at hs3
  refine ⟨_, .head hperform (.head hs2 (.single hs3)), hplace2.assign p.loads _, Function.update_self _ _ _, ?_⟩
  intro other hother
  exact Function.update_of_ne hother _ _

theorem Logical.values_l8 {operation : BinaryOperator} {left right : Expr} (p : Logical operation left right l id l')
    (hleft : Grows p.l1 p.l2) (hright : Grows (p.l6.inBlock p.ids.1) p.l7) :
    l.function.valueCount ≤ p.l8.function.valueCount := by
  rcases finishBranch_emits p.finishesValue with ⟨l71, hstore, hbranch⟩
  have hvalues : p.l6.function.valueCount ≤ p.l7.function.valueCount := hright.values
  calc l.function.valueCount ≤ p.l2.function.valueCount := (p.opened hleft).values
    _ ≤ p.l6.function.valueCount := p.values_l6
    _ ≤ p.l8.function.valueCount := by
        rw [hbranch.values, hstore.values]
        exact hvalues

/-- The operator has the truth value of the operand that decides it. -/
theorem Logical.evaluates {operation : BinaryOperator} {left right : Expr} (p : Logical operation left right l id l')
    (hleft : Grows p.l1 p.l2) (hright : Grows (p.l6.inBlock p.ids.1) p.l7) (hg : Extends l'.function g)
    {before after : Lowerer} {x n : Nat} {s1 : FoldState}
    (h : before.finishBranch p.address x p.ids.2.2 = .ok after) (hafter : Extends after.function g)
    (hruns : Machine.Runs (folding g observed) n s s1) (hkeeps : Keeps l.function.valueCount s s1)
    (hplace : At before s1) {pointer operand : Operand} (haddress : s1.values p.address = some pointer)
    (hx : s1.values x = some operand) :
    Evaluates g observed l l' s id boolean.type (.ok (some (convert operand.value operand.type))) := by
  rcases p.finish (p.code_done hleft hright) hg h hafter hplace haddress hx with ⟨s2, hruns2, hplace2, hvalue, hothers⟩
  rcases emitValue_emits p.loads with ⟨hid, -⟩
  change id = p.l8.function.valueCount + 1 at hid
  have hvalues := p.values_l8 hleft hright
  refine ⟨n + 3, s2, hruns.append hruns2, hplace2, ⟨_, hvalue, convert_convert _ _⟩, ?_⟩
  intro other hother
  rw [hothers other (by omega), hkeeps other hother]

/-- A temporary is reserved and its address known. -/
theorem emitTemporary_run {address : Nat} (h : l.emitTemporary = .ok (address, l')) (hg : Extends l'.function g)
    (hs : At l s) : ∃ pointer, foldStep g s = .ok (s.assign address pointer) ∧ At l' (s.assign address pointer) ∧
      Keeps l.function.valueCount s (s.assign address pointer) := by
  rcases emitTemporary_eq h with ⟨size, l1, rfl, hvalue⟩
  have hplace : At { l with function := { l.function with totalLocalAllocSize := size } } s := ⟨hs.block, hs.position⟩
  have hstep := foldStep_of_emitValue hvalue rfl hg hplace
  exact ⟨⟨pointerTo boolean.type .ram, -(size - 2)⟩, hstep.trans rfl, hplace.assign hvalue _, .assign hvalue _⟩

/-- Whether the right operand is skipped. -/
def Skips (operation : BinaryOperator) (a : Int) : Prop :=
  (operation = .andAnd ∧ a = 0) ∨ (operation = .orOr ∧ a ≠ 0)

/-- Where the right operand is evaluated it decides. -/
theorem operate_logical {operation : BinaryOperator} (hlogical : operation = .andAnd ∨ operation = .orOr) {a b : Int}
    (hskips : ¬ Skips operation a) : operate operation a b = .ok (truth (b ≠ 0)) := by
  unfold Skips at hskips
  rcases hlogical with rfl | rfl
  · have ha : a ≠ 0 := fun ha => hskips (.inl ⟨rfl, ha⟩)
    simp [operate, ha]
  · have ha : a = 0 := by
      by_contra ha
      exact hskips (.inr ⟨rfl, ha⟩)
    simp [operate, ha]

theorem convert_truth_value (b : Int) : convert (truth (b ≠ 0)) boolean.type = convert b boolean.type := by
  by_cases hb : b = 0 <;> simp [convert, boolean, truth, hb]

theorem Logical.step_branch {operation : BinaryOperator} {left right : Expr} (p : Logical operation left right l id l')
    (hlogical : operation = .andAnd ∨ operation = .orOr) (hg : Extends p.l4.function g) (hs : At p.l3 s)
    {condition : Operand} (hcondition : s.values p.condition = some condition) :
    (Skips operation (convert condition.value condition.type) → foldStep g s = .ok (s.goto p.ids.2.1)) ∧
      (¬ Skips operation (convert condition.value condition.type) → foldStep g s = .ok (s.goto p.ids.1)) := by
  rw [foldStep_of_emits p.branches hg hs]
  unfold Skips
  rcases hlogical with rfl | rfl <;>
    by_cases hvalue : convert condition.value condition.type = 0 <;>
    simp [performFold, FoldState.operands, hcondition, hvalue]

/-- The skipped operator has the value that its left operand decides. -/
theorem Logical.evaluates_skip {operation : BinaryOperator} {left right : Expr}
    (p : Logical operation left right l id l') (hleft : Grows p.l1 p.l2) (hright : Grows (p.l6.inBlock p.ids.1) p.l7)
    (hg : Extends l'.function g) {n : Nat} {s1 : FoldState}
    (hruns : Machine.Runs (folding g observed) n s (s1.goto p.ids.2.1)) (hkeeps : Keeps l.function.valueCount s s1)
    {pointer : Operand} (haddress : s1.values p.address = some pointer)
    (hle : p.address ≤ p.l4.function.valueCount) (hle' : l.function.valueCount ≤ p.l4.function.valueCount) :
    Evaluates g observed l l' s id boolean.type (.ok (some (if operation = .andAnd then 0 else 1))) := by
  have hg6 := (p.extends_l7 hright).trans (p.extends_l8.trans (p.extends_end.trans hg))
  have hplace : At (p.l4.inBlock p.ids.2.1) (s1.goto p.ids.2.1) := ⟨rfl, by
    change 0 = (p.l4.function.code p.ids.2.1).length
    rw [p.code_skip hleft]
    rfl⟩
  have hknown : Evaluates g observed _ p.l5 _ p.known boolean.type (.ok (some _)) :=
    emitConstant_evaluates p.emitsKnown (p.extends_l6.trans hg6) hplace
  rcases hknown with ⟨m, s2, hruns2, hplace2, ⟨raw, hraw, hconvert⟩, hkeeps2⟩
  change Keeps p.l4.function.valueCount s1 s2 at hkeeps2
  have haddress2 : s2.values p.address = some pointer := by
    rw [hkeeps2 p.address hle]
    exact haddress
  have hresult := p.evaluates hleft hright hg p.finishesKnown hg6 (hruns.append hruns2) (hkeeps.trans hkeeps2 hle')
    hplace2 haddress2 hraw
  exact hresult.congr (by rw [convert_convert, hconvert])

theorem runnable_logical {note : Note} {operation : BinaryOperator} {left right : Expr}
    (ht : Typed (.binary note operation left right)) (hlogical : operation = .andAnd ∨ operation = .orOr)
    (ihl : Runnable g observed left) (ihr : Runnable g observed right) :
    Runnable g observed (.binary note operation left right) := by
  intro l id l' s h hg hs
  obtain ⟨p⟩ := lowerExpression_logical hlogical h
  rcases lowerExpression_grows p.lowersLeft with ⟨hleft, hid⟩
  have hright := (lowerExpression_grows p.lowersRight).1
  have hg8 := p.extends_end.trans hg
  have hg7 := p.extends_l8.trans hg8
  have hg6 := (p.extends_l7 hright).trans hg7
  have hg5 := p.extends_l6.trans hg6
  have hg4 := p.extends_l5.trans hg5
  have hg2 := p.extends_l4.trans hg4
  have haddressId := (emitTemporary_grows p.emitsAddress).2.1
  have hvalues1 := (emitTemporary_grows p.emitsAddress).1.values
  rcases emitTemporary_run p.emitsAddress (hleft.extends.trans hg2) hs with ⟨pointer, hstep, hplace1, hkeeps1⟩
  have hfirst := ihl p.l1 p.condition p.l2 _ p.lowersLeft hg2 hplace1
  rw [ht.evaluate_binary, fresh]
  rcases ht with ⟨-, hsl, hsr, htl, htr, htil, htir, -, hboolean⟩
  change Evaluates g observed l l' s id note.resultType _
  rw [hboolean hlogical]
  cases hel : evaluate left with
  | error message =>
      rw [hel] at hfirst
      rcases hfirst with ⟨n, s2, hruns2, hfault⟩
      exact ⟨n + 1, s2, .head hstep hruns2, hfault⟩
  | ok constant =>
      rw [hel] at hfirst
      cases constant with
      | none => trivial
      | some a =>
          rcases hfirst with ⟨n, s2, hruns2, hplace2, ⟨rawa, hrawa, hconverta⟩, hkeeps2⟩
          have ha : convert rawa left.resultType = a := hconverta.trans (htl.fits htil hel)
          have haddress2 : s2.values p.address = some pointer := by
            rw [hkeeps2 p.address haddressId.le]
            exact Function.update_self _ _ _
          have hkeeps : Keeps l.function.valueCount s s2 := hkeeps1.trans hkeeps2 hvalues1
          have hplace3 : At p.l3 s2 := ⟨hplace2.block.trans p.opens.current.symm, by
            rw [hplace2.position, p.opens.current, p.opens.code]⟩
          have hvalues2 := hleft.values
          have hvalues4 : p.l4.function.valueCount = p.l2.function.valueCount :=
            p.branches.values.trans p.opens.values
          have hbranch := p.step_branch hlogical hg4 hplace3 hrawa
          dsimp only at hbranch
          rw [ha] at hbranch
          have hruns : Machine.Runs (folding g observed) (n + 1) s s2 := .head hstep hruns2
          simp only [ok_bind]
          by_cases hskips : Skips operation a
          · have hresult := p.evaluates_skip hleft hright hg (hruns.append (.single (hbranch.1 hskips))) hkeeps
              haddress2 (by omega) (by omega)
            rcases hskips with ⟨rfl, hzero⟩ | ⟨rfl, hone⟩
            · rw [if_pos ⟨rfl, hzero⟩]
              exact hresult
            · rw [if_neg (by simp), if_pos ⟨rfl, hone⟩]
              exact hresult
          · rw [if_neg fun hand => hskips (.inl hand), if_neg fun hor => hskips (.inr hor)]
            have hplace : At (p.l6.inBlock p.ids.1) (s2.goto p.ids.1) := ⟨rfl, by
              change 0 = (p.l6.function.code p.ids.1).length
              rw [p.code_rhs hleft]
              rfl⟩
            have hsecond := ihr (p.l6.inBlock p.ids.1) p.value p.l7 _ p.lowersRight hg7 hplace
            have hruns3 := hruns.append (.single (hbranch.2 hskips))
            cases her : evaluate right with
            | error message =>
                rw [her] at hsecond
                rcases hsecond with ⟨m, s4, hruns4, hfault⟩
                exact ⟨_, s4, hruns3.append hruns4, hfault⟩
            | ok constant =>
                rw [her] at hsecond
                cases constant with
                | none => trivial
                | some b =>
                    rcases hsecond with ⟨m, s4, hruns4, hplace4, ⟨rawb, hrawb, hconvertb⟩, hkeeps4⟩
                    have hb : convert rawb right.resultType = b := hconvertb.trans (htr.fits htir her)
                    change Keeps p.l6.function.valueCount s2 s4 at hkeeps4
                    have hvalues6 := p.values_l6
                    have haddress4 : s4.values p.address = some pointer := by
                      rw [hkeeps4 p.address (by omega)]
                      exact haddress2
                    have hresult := p.evaluates hleft hright hg p.finishesValue hg8 (hruns3.append hruns4)
                      (hkeeps.trans hkeeps4 (by omega)) hplace4 haddress4 hrawb
                    rw [hb] at hresult
                    simp only [ok_bind, operate_logical hlogical hskips]
                    exact hresult.congr (by rw [convert_convert, convert_truth_value])

/-- The code of a typed expression has its value, or faults where it has none. -/
theorem Typed.runnable {e : Expr} (h : Typed e) : Runnable g observed e := by
  induction e with
  | literal note kind lexeme => exact runnable_literal h
  | named note name symbolId storage => exact runnable_named
  | layoutType note query type member => exact runnable_noted (if_pos h.1) fun _ => rfl
  | layoutObject note query object ih => exact runnable_noted (if_pos h.1) fun _ => rfl
  | unary note operation right ih => exact runnable_unary h (ih h.2.2.1)
  | binary note operation left right ihl ihr =>
      have hl := ihl h.2.2.2.1
      have hr := ihr h.2.2.2.2.1
      by_cases hlogical : operation = .andAnd ∨ operation = .orOr
      · exact runnable_logical h hlogical hl hr
      · exact runnable_binary h hlogical hl hr
  | cast note target expression ih => exact runnable_cast h (ih h.2.2.1)

end Lower

/-! ## Agreement -/

/-- What the evaluator says of an expression is what the run of its code does, wherever the
code is appended: the value, in the type of the expression, and no fault; or a fault. -/
def Agrees (t : Expr) : Prop :=
  ∀ l id l' s, lowerExpression t l = .ok (id, l') → At l s →
    (∀ v, evaluate t = .ok (some v) →
      (folding l'.function id).Finishes s .ended (some ⟨t.resultType, convert v t.resultType⟩)) ∧
    ∀ message, evaluate t = .error message → ∃ o, (folding l'.function id).Finishes s .fault o

/-- A truth value made from a literal that is no zero but a multiple of `2 ^ 16`. -/
def Oversized (t : Expr) : Prop :=
  ∃ note target literalNote kind lexeme v, t = .cast note target (.literal literalNote kind lexeme) ∧
    target.type.base = .bool ∧ literalValue kind lexeme = some v ∧ v ≠ 0 ∧ v % 2 ^ 16 = 0

/-- The expressions whose code runs inside the code of an expression. -/
def Expr.parts : Expr → List Expr
  | e@(.cast _ _ expression) => e :: expression.parts
  | e@(.unary _ _ right) => e :: right.parts
  | e@(.binary _ _ left right) => e :: (left.parts ++ right.parts)
  | e => [e]

/-- The expressions that the analyzer types, on their own or where a type is wanted. -/
inductive Types (env : Env) (e t : Expr) : Prop where
  | free (context : Option PlainType) (hcontext : ScalarContext context) (h : analyzeExpr env e context = .ok t)
  | wanted (type : PlainType) (hs : scalar type.type = true) (h : analyzeAs env e type = .ok t)

theorem At.ended {l : Lowerer} {s : FoldState} (hs : At l s) : foldStep l.function s = .error .ended := by
  unfold foldStep
  rw [hs.block, hs.position, List.getElem?_eq_none le_rfl]

/-- A run to the end of the code finishes with the value. -/
theorem Evaluates.finishes {l l' : Lowerer} {s : FoldState} {id : Nat} {type : Ty} {v : Int}
    (h : Evaluates l'.function id l l' s id type (.ok (some v))) :
    (folding l'.function id).Finishes s .ended (some ⟨type, convert v type⟩) := by
  rcases h with ⟨n, s', hruns, hplace, ⟨raw, hraw, hconvert⟩, -⟩
  refine ⟨n, s', hruns, hplace.ended, ?_⟩
  change (s'.values id).map _ = _
  rw [hraw, Option.map_some, hconvert]

theorem agrees_of_runnable {t : Expr} (h : ∀ g observed, Runnable g observed t) : Agrees t := by
  intro l id l' s hlower hs
  have hrun := h l'.function id l id l' s hlower (.refl _) hs
  refine ⟨?_, ?_⟩
  · intro v hv
    rw [hv] at hrun
    exact hrun.finishes
  · intro message herror
    rw [herror] at hrun
    rcases hrun with ⟨n, s', hruns, hfault⟩
    exact ⟨_, n, s', hruns, hfault, rfl⟩

theorem Typed.parts {t part : Expr} (h : Typed t) (hpart : part ∈ t.parts) : Typed part := by
  induction t with
  | literal | named | layoutType | layoutObject =>
      rw [List.mem_singleton.mp hpart]
      exact h
  | cast note target expression ih =>
      rcases List.mem_cons.mp hpart with rfl | hpart
      · exact h
      · exact ih h.2.2.1 hpart
  | unary note operation right ih =>
      rcases List.mem_cons.mp hpart with rfl | hpart
      · exact h
      · exact ih h.2.2.1 hpart
  | binary note operation left right ihl ihr =>
      rcases List.mem_cons.mp hpart with rfl | hpart
      · exact h
      · rcases List.mem_append.mp hpart with hpart | hpart
        · exact ihl h.2.2.2.1 hpart
        · exact ihr h.2.2.2.2.1 hpart

/-- A literal within its type is no multiple of `2 ^ 16` but zero. -/
theorem Typed.not_oversized {t : Expr} (h : Typed t) : ¬ Oversized t := by
  rintro ⟨note, target, literalNote, kind, lexeme, v, rfl, -, hv, hne, hmultiple⟩
  rcases bounds_of_convert_eq h.2.1 (h.2.2.2.1 v hv) with ⟨hlow, hhigh⟩
  omega

/-- A function with one block that is still empty. -/
def emptyLowerer : Lowerer where
  function := { blocks := [{ id := 0 }] }
  current := 0

/-- The code that a truth value is made with from a literal. -/
theorem lowerExpression_fromLiteral (note literalNote : Note) (target : PlainType) {kind : LiteralKind}
    {lexeme : Text} {v : Int} (h : literalNumber kind lexeme = .ok v) :
    ∃ l', lowerExpression (.cast note target (.literal literalNote kind lexeme)) emptyLowerer = .ok (2, l') := by
  rw [lowerExpression, lowerExpression, h]
  exact ⟨_, rfl⟩

theorem literalNumber_of_value {kind : LiteralKind} {lexeme : Text} {v : Int}
    (h : literalValue kind lexeme = some v) : literalNumber kind lexeme = .ok v := by
  unfold literalValue at h
  unfold literalNumber
  cases kind with
  | keywordTrue =>
      cases h
      rfl
  | keywordFalse =>
      cases h
      rfl
  | integer | character =>
      dsimp only at h ⊢
      split at h
      · cases h
      · rename_i parsed consumed hparse
        rw [hparse]
        split at h
        · cases h
          rfl
        · cases h

theorem convert_bool {type : Ty} (hlevel : type.pointerLevel = 0) (hbool : type.base = .bool) (v : Int) :
    convert v type = if v ≠ 0 then 1 else 0 := by
  unfold convert
  rw [if_neg (by omega), if_pos hbool]

/-- A signed word keeps none of the bits of a multiple of `2 ^ 16`. -/
theorem convert_loose_eq_zero (v : Int) : convert v (wordType false) = 0 ↔ v % 2 ^ 16 = 0 := by
  rw [convert_loose]
  constructor
  · intro h
    rw [← wrap_emod (2 ^ 16) false v, h]
    rfl
  · intro h
    unfold wrap
    rw [h]
    rfl

/-- Whether a literal that has a type becomes zero in it. -/
theorem convert_literal_eq_zero {type : Ty} {v : Int} (hs : scalar type = true)
    (hfit : convert v type = v ∨ type = wordType false) : convert v type = 0 ↔ v % 2 ^ 16 = 0 := by
  rcases hfit with hfit | rfl
  · rcases bounds_of_convert_eq hs hfit with ⟨hlow, hhigh⟩
    rw [hfit]
    omega
  · exact convert_loose_eq_zero v

/-- A truth value made from a literal agrees unless the literal loses its bits. -/
theorem FromLiteral.agrees_iff {t : Expr} (h : FromLiteral t) : Agrees t ↔ ¬ Oversized t := by
  rcases h with ⟨note, target, literalNote, kind, lexeme, rfl, hconst, hresult, hbool, hs, hliteral, hsource⟩
  rcases hliteral with ⟨hscalar, hnoted, v, hv, hfit⟩
  have hnumber := literalNumber_of_value hv
  have hinner : evaluate (.literal literalNote kind lexeme) = .ok (some v) := by
    rw [evaluate, hnoted.eq, hv]
  have houter : evaluate (.cast note target (.literal literalNote kind lexeme)) =
      .ok (some (convert v note.resultType)) := by
    rw [evaluate, hinner]
    unfold ConstantEvaluator.noted
    rw [hconst]
    rfl
  have hrunnable : ∀ g observed, Runnable g observed (.literal literalNote kind lexeme) :=
    fun g observed => runnable_literal ⟨hscalar, hnoted, v, hv, hfit⟩
  have hzero := convert_literal_eq_zero hscalar hfit
  have htruth : ∀ x, convert x note.resultType = if x ≠ 0 then 1 else 0 := by
    rw [hresult]
    exact convert_bool target.level hbool
  have hs' : scalar note.resultType = true := hresult ▸ hs
  have hsource' : scalar (Expr.literal literalNote kind lexeme).resultType = true := hsource
  constructor
  · intro hagrees hoversized
    rcases hoversized with ⟨note', target', literalNote', kind', lexeme', w, heq, -, hw, hne, hmultiple⟩
    cases heq
    rw [hv] at hw
    cases hw
    rcases lowerExpression_fromLiteral note literalNote target hnumber with ⟨l', hlower⟩
    have hplace : At emptyLowerer ⟨0, 0, fun _ => none, fun _ => none⟩ := ⟨rfl, rfl⟩
    have hagreed := (hagrees _ _ _ _ hlower hplace).1 _ houter
    have hdoes := (cast_evaluates hs' hsource' (hrunnable l'.function 2) hinner hlower (.refl _) hplace).finishes
    have hsame := Option.some.inj (hagreed.observed hdoes)
    have hvalues := congrArg Operand.value hsame
    change convert (convert v note.resultType) note.resultType =
      convert (convert v literalNote.resultType) note.resultType at hvalues
    rw [hzero.mpr hmultiple, convert_convert, htruth, htruth, if_pos hne] at hvalues
    exact absurd hvalues (by decide)
  · intro hfine
    apply agrees_of_runnable
    intro g observed l id l' s hlower hg hplace
    have hdoes := cast_evaluates hs' hsource' (hrunnable g observed) hinner hlower hg hplace
    rw [houter]
    apply hdoes.congr
    change convert (convert v literalNote.resultType) note.resultType = convert (convert v note.resultType) note.resultType
    rw [convert_convert, htruth, htruth]
    have hiff : convert v literalNote.resultType = 0 ↔ v = 0 := by
      rw [hzero]
      constructor
      · intro hmultiple
        by_contra hne
        exact hfine ⟨note, target, literalNote, kind, lexeme, v, rfl, hbool, hv, hne, hmultiple⟩
      · rintro rfl
        rfl
    simp only [ne_eq, hiff]

/-! ## Analyzed expressions -/

theorem Types.typed {env : Env} {e t : Expr} (henv : Declared env) (h : Types env e t) : Typed t ∨ FromLiteral t := by
  cases h with
  | free context hcontext h => exact .inl (analyzeExpr_typed henv.fits e hcontext h).typed
  | wanted type hs h => exact (analyzeAs_typed henv.fits hs h).imp (fun hoperable => hoperable.1.1) id

theorem Typed.agrees_iff {t : Expr} (h : Typed t) : Agrees t ↔ ¬ Oversized t :=
  iff_of_true (agrees_of_runnable fun _ _ => h.runnable) h.not_oversized

/-- Evaluating an expression before the program runs gives what its code gives, exactly
when no truth value is made from a literal that is a multiple of `2 ^ 16` and not zero. -/
theorem evaluation_agrees_iff {env : Env} {e t part : Expr} (henv : Declared env) (ht : Types env e t)
    (hpart : part ∈ t.parts) : Agrees part ↔ ¬ Oversized part := by
  rcases ht.typed henv with htyped | hliteral
  · exact (htyped.parts hpart).agrees_iff
  · rcases hliteral with ⟨note, target, literalNote, kind, lexeme, rfl, hconst, hresult, hbool, hs, htyped, hsource⟩
    rcases List.mem_cons.mp hpart with rfl | hpart
    · exact FromLiteral.agrees_iff
        ⟨note, target, literalNote, kind, lexeme, rfl, hconst, hresult, hbool, hs, htyped, hsource⟩
    · exact (htyped.parts hpart).agrees_iff

/-- An analyzed integer literal. -/
def number (value : Int) (type : Ty) (lexeme : Text) : Expr := .literal ⟨true, value, type⟩ .integer lexeme

/-- `7 / 2` -/
def quotient : Expr :=
  .binary ⟨true, 3, (promoted false).type⟩ .slash
    (.cast { resultType := (promoted false).type } (promoted false) (number 7 (byteType false) [55]))
    (.cast { resultType := (promoted false).type } (promoted false) (number 2 (byteType false) [50]))

theorem evaluation_agrees_quotient : Agrees quotient ↔ ¬ Oversized quotient :=
  evaluation_agrees_iff (.start .gsu)
    (.free none noContext (e := .binary {} .slash (.literal {} .integer [55]) (.literal {} .integer [50])) rfl)
    List.mem_cons_self

/-- The initializer of `bool b = 65536;` -/
def oversizedBool : Expr :=
  .cast { resultType := boolean.type } boolean (number 65536 (wordType false) [54, 53, 53, 51, 54])

/-- The evaluator takes the literal for true and the code takes it for false. -/
theorem evaluation_disagrees : Types {} (.literal {} .integer [54, 53, 53, 51, 54]) oversizedBool ∧
    evaluate oversizedBool = .ok (some 1) ∧ ¬ Agrees oversizedBool := by
  refine ⟨.wanted boolean rfl rfl, rfl, ?_⟩
  have hliteral : FromLiteral oversizedBool :=
    ⟨_, boolean, _, .integer, _, rfl, rfl, rfl, rfl, rfl, ⟨rfl, fun _ => rfl, 65536, rfl, .inr rfl⟩, rfl⟩
  rw [hliteral.agrees_iff, not_not]
  exact ⟨_, boolean, _, .integer, _, 65536, rfl, rfl, rfl, by decide, by decide⟩

end Disco.Frontend
