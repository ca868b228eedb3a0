import Disco.Frontend.Lowering
import Disco.Library.Transition

/-! # Folding lowered code

The code of a lowered expression is evaluated with `IRScalarFold` one instruction
at a time. Branches are taken as lowered, and the temporaries of logical operators
are cells of the frame.
-/

namespace Disco.Frontend

open IR Library Lowerer
open ScalarFold (Operand scalar truth evaluateBinary evaluateUnary)

/-! ## The machine -/

inductive FoldHalt where
  | ended
  | fault
  | unknown
  deriving DecidableEq, Repr

structure FoldState where
  block : Nat
  position : Nat
  values : Nat → Option Operand := fun _ => none
  memory : Int → Option Int := fun _ => none

namespace FoldState

def operands (s : FoldState) (i : Instruction) : List Operand := i.operands.filterMap s.values

def next (s : FoldState) : FoldState := { s with position := s.position + 1 }

def assign (s : FoldState) (id : Nat) (operand : Operand) : FoldState := { s with
  position := s.position + 1
  values := Function.update s.values id (some operand) }

def store (s : FoldState) (address value : Int) : FoldState := { s with
  position := s.position + 1
  memory := Function.update s.memory address (some value) }

def goto (s : FoldState) (block : Nat) : FoldState := { s with
  block := block
  position := 0 }

end FoldState

/-- The value of an instruction whose operands are constants. -/
def produce (s : FoldState) (i : Instruction) : Except FoldHalt Operand :=
  match i.opcode with
  | .constant => .ok ⟨i.type, i.immediate⟩
  | .address => if i.operation = "temporary" then .ok ⟨i.type, i.immediate⟩ else .error .unknown
  | .loadIndirect =>
      match (s.operands i).head?.bind fun address => s.memory address.value with
      | some value => .ok ⟨i.type, value⟩
      | none => .error .unknown
  | .cast | .unary | .binary =>
      if i.operands.all (fun id => (s.values id).isSome) = true then
        match ScalarFold.evaluate i (s.operands i) with
        | some value => .ok ⟨i.type, value⟩
        | none => .error .fault
      else .error .unknown
  | _ => .error .unknown

def performFold (s : FoldState) (i : Instruction) : Except FoldHalt FoldState :=
  match i.opcode with
  | .storeIndirect =>
      match s.operands i with
      | [address, value] => .ok (s.store address.value (convert (convert value.value value.type) i.type))
      | _ => .error .unknown
  | .branch =>
      match i.targets with
      | [target] => .ok (s.goto target)
      | _ => .error .unknown
  | .condBranch =>
      match s.operands i, i.targets with
      | [condition], [yes, no] =>
          .ok (s.goto (if convert condition.value condition.type ≠ 0 then yes else no))
      | _, _ => .error .unknown
  | _ => (produce s i).map (s.assign i.result)

def foldStep (g : Function) (s : FoldState) : Except FoldHalt FoldState :=
  match (g.code s.block)[s.position]? with
  | none => .error .ended
  | some i => performFold s i

/-- The run of a function; a value of it is observed. -/
def folding (g : Function) (id : Nat) : Machine FoldHalt (Option Operand) Unit where
  State := FoldState
  step := foldStep g
  observe s := (s.values id).map fun operand => ⟨operand.type, convert operand.value operand.type⟩
  trace _ := []
  grows _ _ _ := List.prefix_rfl

/-! ## Growing functions -/

/-- Code is only ever appended. -/
def Extends (f g : Function) : Prop := ∀ b, f.code b <+: g.code b

theorem Extends.refl (f : Function) : Extends f f := fun _ => List.prefix_rfl

theorem Extends.trans {f g h : Function} (hfg : Extends f g) (hgh : Extends g h) : Extends f h :=
  fun b => (hfg b).trans (hgh b)

/-- Lowering appends to the current block and to blocks of its own. -/
structure Grows (l l' : Lowerer) : Prop where
  present : l.current < l.function.blocks.length
  present' : l'.current < l'.function.blocks.length
  blocks : l.function.blocks.length ≤ l'.function.blocks.length
  values : l.function.valueCount ≤ l'.function.valueCount
  current : l'.current = l.current ∨ l.function.blocks.length ≤ l'.current
  code : l.function.code l.current <+: l'.function.code l.current
  others : ∀ b < l.function.blocks.length, b ≠ l.current → l'.function.code b = l.function.code b

theorem code_of_le {f : Function} {b : Nat} (h : f.blocks.length ≤ b) : f.code b = [] := by
  unfold Function.code
  rw [List.getElem?_eq_none h]
  rfl

theorem Grows.extends {l l' : Lowerer} (h : Grows l l') : Extends l.function l'.function := by
  intro b
  by_cases hb : b < l.function.blocks.length
  · by_cases hcurrent : b = l.current
    · rw [hcurrent]
      exact h.code
    · rw [h.others b hb hcurrent]
  · rw [code_of_le (by omega)]
    exact List.nil_prefix

theorem Grows.trans {l l' l'' : Lowerer} (h : Grows l l') (k : Grows l' l'') : Grows l l'' where
  present := h.present
  present' := k.present'
  blocks := h.blocks.trans k.blocks
  values := h.values.trans k.values
  current := by
    have hblocks := h.blocks
    rcases h.current with hsame | hnew
    · rcases k.current with hsame' | hnew'
      · exact .inl (hsame'.trans hsame)
      · exact .inr (hblocks.trans hnew')
    · rcases k.current with hsame' | hnew'
      · exact .inr (hsame' ▸ hnew)
      · exact .inr (hblocks.trans hnew')
  code := h.code.trans (k.extends l.current)
  others b hb hcurrent := by
    have hblocks := h.blocks
    have hother : b ≠ l'.current := by
      rcases h.current with hsame | hnew
      · rw [hsame]
        exact hcurrent
      · omega
    rw [k.others b (by omega) hother, h.others b hb hcurrent]

/-- One instruction more in the current block. -/
structure Emits (l l' : Lowerer) (i : Instruction) : Prop where
  present : l.current < l.function.blocks.length
  blocks : l'.function.blocks.length = l.function.blocks.length
  values : l'.function.valueCount = l.function.valueCount
  current : l'.current = l.current
  code : l'.function.code l.current = l.function.code l.current ++ [{ i with inPlotContext := l.plotContext }]
  others : ∀ b ≠ l.current, l'.function.code b = l.function.code b

theorem emitInstruction_emits {l l' : Lowerer} {i : Instruction} (h : l.emitInstruction i = .ok l') : Emits l l' i := by
  unfold emitInstruction at h
  split at h
  · cases h
  · rename_i block hblock
    split at h
    · cases h
    · cases h
      rcases List.getElem?_eq_some_iff.mp hblock with ⟨hpresent, hget⟩
      refine ⟨hpresent, ?_, rfl, rfl, ?_, ?_⟩
      · simp
      · unfold Function.code
        simp [hpresent, hget]
      · intro b hb
        unfold Function.code
        simp [List.getElem?_set_ne hb.symm]

theorem Emits.grows {l l' : Lowerer} {i : Instruction} (h : Emits l l' i) : Grows l l' where
  present := h.present
  present' := by
    rw [h.current, h.blocks]
    exact h.present
  blocks := h.blocks.ge
  values := h.values.ge
  current := .inl h.current
  code := by
    rw [h.code]
    exact List.prefix_append _ _
  others b _ hb := h.others b hb

/-- What a new value means for the function it is created in. -/
theorem emitValue_emits {l l' : Lowerer} {i : Instruction} {id : Nat} (h : l.emitValue i = .ok (id, l')) :
    id = l.function.valueCount + 1 ∧ l'.function.valueCount = id ∧ Grows l l' ∧
      l'.current = l.current ∧ l'.function.blocks.length = l.function.blocks.length ∧
      l'.function.code l.current = l.function.code l.current ++
        [{ i with
            result := id
            inPlotContext := l.plotContext }] := by
  unfold emitValue createValue at h
  obtain ⟨created, hcreated, h⟩ := bind_eq_ok.mp h
  simp only [rejectIf_bind_eq_ok] at hcreated
  rcases hcreated with ⟨-, hcreated⟩
  cases hcreated
  obtain ⟨emitted, hemitted, h⟩ := bind_eq_ok.mp h
  cases h
  have hemits := emitInstruction_emits hemitted
  refine ⟨rfl, hemits.values, ⟨hemits.present, hemits.grows.present', hemits.grows.blocks, ?_,
    hemits.grows.current, hemits.grows.code, hemits.grows.others⟩, hemits.current, hemits.blocks, hemits.code⟩
  rw [hemits.values]
  exact Nat.le_succ _

/-! ## Logical operators -/

theorem code_createBlock {f : Function} {block : BasicBlock} (h : block.instructions = []) (b : Nat) :
    ({ f with blocks := f.blocks ++ [block] } : Function).code b = f.code b := by
  unfold Function.code
  dsimp only
  by_cases hb : b < f.blocks.length
  · rw [List.getElem?_append_left hb]
  · rw [List.getElem?_append_right (by omega), List.getElem?_eq_none (l := f.blocks) (by omega)]
    cases hrest : b - f.blocks.length with
    | zero => simp [h]
    | succ n => simp

theorem createBlock_eq {l l' : Lowerer} {label : String} {id : Nat} (h : l.createBlock label = .ok (id, l')) :
    id = l.function.blocks.length ∧ l'.function.blocks.length = l.function.blocks.length + 1 ∧
      l'.function.valueCount = l.function.valueCount ∧ l'.current = l.current ∧
      ∀ b, l'.function.code b = l.function.code b := by
  unfold createBlock at h
  simp only [rejectIf_bind_eq_ok] at h
  rcases h with ⟨-, h⟩
  cases h
  exact ⟨rfl, by simp, rfl, rfl, code_createBlock rfl⟩

/-- Three empty blocks more. -/
structure Opens (l l' : Lowerer) (ids : Nat × Nat × Nat) : Prop where
  rhs : ids.1 = l.function.blocks.length
  skip : ids.2.1 = l.function.blocks.length + 1
  done : ids.2.2 = l.function.blocks.length + 2
  blocks : l'.function.blocks.length = l.function.blocks.length + 3
  values : l'.function.valueCount = l.function.valueCount
  current : l'.current = l.current
  code : ∀ b, l'.function.code b = l.function.code b

theorem logicalBlocks_opens {l l' : Lowerer} {ids : Nat × Nat × Nat} (h : l.logicalBlocks = .ok (ids, l')) :
    Opens l l' ids := by
  unfold logicalBlocks at h
  obtain ⟨⟨rhs, l1⟩, hrhs, h⟩ := bind_eq_ok.mp h
  obtain ⟨⟨skip, l2⟩, hskip, h⟩ := bind_eq_ok.mp h
  obtain ⟨⟨done, l3⟩, hdone, h⟩ := bind_eq_ok.mp h
  cases h
  dsimp only at hskip hdone ⊢
  rcases createBlock_eq hrhs with ⟨hid1, hblocks1, hvalues1, hcurrent1, hcode1⟩
  rcases createBlock_eq hskip with ⟨hid2, hblocks2, hvalues2, hcurrent2, hcode2⟩
  rcases createBlock_eq hdone with ⟨hid3, hblocks3, hvalues3, hcurrent3, hcode3⟩
  rw [hblocks1] at hid2 hblocks2
  rw [hblocks2] at hid3 hblocks3
  refine ⟨hid1, hid2, hid3, hblocks3, by omega, ?_, ?_⟩
  · rw [hcurrent3, hcurrent2, hcurrent1]
  · intro b
    rw [hcode3, hcode2, hcode1]

/-- The result of a logical operator is stored and its end is gone to. -/
theorem finishBranch_emits {l l' : Lowerer} {address value done : Nat} (h : l.finishBranch address value done = .ok l') :
    ∃ l1, Emits l l1
        { opcode := .storeIndirect
          type := Analyzer.boolean.type
          operands := [address, value] } ∧
      Emits l1 l'
        { opcode := .branch
          targets := [done] } := by
  obtain ⟨l1, hstore, h⟩ := bind_eq_ok.mp h
  exact ⟨l1, emitInstruction_emits hstore, emitInstruction_emits h⟩

theorem emitTemporary_eq {l l' : Lowerer} {id : Nat} (h : l.emitTemporary = .ok (id, l')) :
    ∃ (size : Int) (l1 : Lowerer), l1 = { l with function := { l.function with totalLocalAllocSize := size } } ∧
      l1.emitValue
        { opcode := .address
          type := pointerTo Analyzer.boolean.type .ram
          operation := "temporary"
          immediate := -(l1.function.totalLocalAllocSize - 2) } = .ok (id, l') := by
  obtain ⟨l1, hreserve, h⟩ := bind_eq_ok.mp h
  unfold reserveTemporary at hreserve
  simp only [rejectIf_bind_eq_ok] at hreserve
  rcases hreserve with ⟨-, hreserve⟩
  cases hreserve
  exact ⟨_, _, rfl, h⟩

theorem emitTemporary_grows {l l' : Lowerer} {id : Nat} (h : l.emitTemporary = .ok (id, l')) :
    Grows l l' ∧ id = l'.function.valueCount ∧ l'.current = l.current := by
  rcases emitTemporary_eq h with ⟨size, l1, rfl, h⟩
  rcases emitValue_emits h with ⟨-, hid, hgrows, hcurrent, -⟩
  exact ⟨⟨hgrows.present, hgrows.present', hgrows.blocks, hgrows.values, hgrows.current, hgrows.code, hgrows.others⟩,
    hid.symm, hcurrent⟩

/-- The parts of a lowered logical operator. -/
structure Logical (operation : BinaryOperator) (left right : Expr) (l : Lowerer) (id : Nat) (l9 : Lowerer) where
  address : Nat
  condition : Nat
  ids : Nat × Nat × Nat
  known : Nat
  value : Nat
  l1 : Lowerer
  l2 : Lowerer
  l3 : Lowerer
  l4 : Lowerer
  l5 : Lowerer
  l6 : Lowerer
  l7 : Lowerer
  l8 : Lowerer
  emitsAddress : l.emitTemporary = .ok (address, l1)
  lowersLeft : lowerExpression left l1 = .ok (condition, l2)
  opens : Opens l2 l3 ids
  branches : Emits l3 l4
    { opcode := .condBranch
      operands := [condition]
      targets := [if operation = .andAnd then ids.1 else ids.2.1, if operation = .andAnd then ids.2.1 else ids.1] }
  emitsKnown : (l4.inBlock ids.2.1).emitConstant Analyzer.boolean.type (if operation = .andAnd then 0 else 1) =
    .ok (known, l5)
  finishesKnown : l5.finishBranch address known ids.2.2 = .ok l6
  lowersRight : lowerExpression right (l6.inBlock ids.1) = .ok (value, l7)
  finishesValue : l7.finishBranch address value ids.2.2 = .ok l8
  loads : (l8.inBlock ids.2.2).emitValue
    { opcode := .loadIndirect
      type := Analyzer.boolean.type
      operands := [address] } = .ok (id, l9)

theorem lowerExpression_logical {note : Note} {operation : BinaryOperator} {left right : Expr} {l l' : Lowerer} {id : Nat}
    (hlogical : operation = .andAnd ∨ operation = .orOr)
    (h : lowerExpression (.binary note operation left right) l = .ok (id, l')) :
    Nonempty (Logical operation left right l id l') := by
  rw [lowerExpression, if_pos hlogical] at h
  obtain ⟨⟨address, l1⟩, haddress, h⟩ := bind_eq_ok.mp h
  obtain ⟨⟨condition, l2⟩, hleft, h⟩ := bind_eq_ok.mp h
  obtain ⟨⟨ids, l3⟩, hblocks, h⟩ := bind_eq_ok.mp h
  obtain ⟨l4, hbranch, h⟩ := bind_eq_ok.mp h
  obtain ⟨⟨known, l5⟩, hknown, h⟩ := bind_eq_ok.mp h
  obtain ⟨l6, hfinish, h⟩ := bind_eq_ok.mp h
  obtain ⟨⟨value, l7⟩, hright, h⟩ := bind_eq_ok.mp h
  obtain ⟨l8, hfinish', h⟩ := bind_eq_ok.mp h
  simp only [decide_eq_true_eq] at hbranch hknown
  exact ⟨⟨address, condition, ids, known, value, l1, l2, l3, l4, l5, l6, l7, l8, haddress, hleft,
    logicalBlocks_opens hblocks, emitInstruction_emits hbranch, hknown, hfinish, hright, hfinish', h⟩⟩

namespace Logical

variable {operation : BinaryOperator} {left right : Expr} {l l' : Lowerer} {id : Nat}

theorem blocks_l6 (p : Logical operation left right l id l') :
    p.l6.function.blocks.length = p.l2.function.blocks.length + 3 := by
  rcases finishBranch_emits p.finishesKnown with ⟨l51, hstore, hbranch⟩
  rcases emitValue_emits p.emitsKnown with ⟨-, -, -, -, hblocks, -⟩
  rw [hbranch.blocks, hstore.blocks, hblocks]
  change p.l4.function.blocks.length = _
  rw [p.branches.blocks, p.opens.blocks]

theorem values_l6 (p : Logical operation left right l id l') :
    p.l2.function.valueCount ≤ p.l6.function.valueCount := by
  rcases finishBranch_emits p.finishesKnown with ⟨l51, hstore, hbranch⟩
  rcases emitValue_emits p.emitsKnown with ⟨-, -, hgrows, -⟩
  rw [hbranch.values, hstore.values, ← p.opens.values, ← p.branches.values]
  exact hgrows.values

theorem code_l5 (p : Logical operation left right l id l') {b : Nat} (hb : b < p.l2.function.blocks.length + 3)
    (hskip : b ≠ p.ids.2.1) : p.l5.function.code b = p.l4.function.code b := by
  rcases emitValue_emits p.emitsKnown with ⟨-, -, hgrows, -⟩
  apply hgrows.others b _ hskip
  change b < p.l4.function.blocks.length
  rw [p.branches.blocks, p.opens.blocks]
  exact hb

/-- Up to the right operand, only the block the left one ends in and the one
that is skipped to have grown. -/
theorem code_l6 (p : Logical operation left right l id l') {b : Nat} (hb : b < p.l2.function.blocks.length + 3)
    (hcurrent : b ≠ p.l2.current) (hskip : b ≠ p.ids.2.1) : p.l6.function.code b = p.l2.function.code b := by
  rcases finishBranch_emits p.finishesKnown with ⟨l51, hstore, hbranch⟩
  rcases emitValue_emits p.emitsKnown with ⟨-, -, -, hcurrent5, -⟩
  change p.l5.current = p.ids.2.1 at hcurrent5
  rw [hbranch.others b (by rwa [hstore.current, hcurrent5]), hstore.others b (by rwa [hcurrent5]),
    p.code_l5 hb hskip, p.branches.others b (by rwa [p.opens.current]), p.opens.code]

/-- A block that does not exist yet has no code. -/
theorem code_new (p : Logical operation left right l id l') {b : Nat} (hb : p.l2.function.blocks.length ≤ b) :
    p.l2.function.code b = [] := code_of_le hb

theorem opened (p : Logical operation left right l id l') (hleft : Grows p.l1 p.l2) : Grows l p.l2 :=
  (emitTemporary_grows p.emitsAddress).1.trans hleft

theorem code_skip (p : Logical operation left right l id l') (hleft : Grows p.l1 p.l2) :
    p.l4.function.code p.ids.2.1 = [] := by
  have hpresent := hleft.present'
  have hskip := p.opens.skip
  rw [p.branches.others _ (by rw [p.opens.current]; omega), p.opens.code, code_of_le (by omega)]

theorem code_rhs (p : Logical operation left right l id l') (hleft : Grows p.l1 p.l2) :
    p.l6.function.code p.ids.1 = [] := by
  have hpresent := hleft.present'
  have hrhs := p.opens.rhs
  have hskip := p.opens.skip
  rw [p.code_l6 (by omega) (by omega) (by omega), code_of_le (by omega)]

/-- The right operand ends in its block or in one of its own. -/
theorem current_l7 (p : Logical operation left right l id l') (hright : Grows (p.l6.inBlock p.ids.1) p.l7) :
    p.l7.current = p.ids.1 ∨ p.l2.function.blocks.length + 3 ≤ p.l7.current := by
  rw [← p.blocks_l6]
  exact hright.current

theorem code_l8 (p : Logical operation left right l id l') (hright : Grows (p.l6.inBlock p.ids.1) p.l7) {b : Nat}
    (hb : b < p.l2.function.blocks.length + 3) (hrhs : b ≠ p.ids.1) :
    p.l8.function.code b = p.l6.function.code b := by
  rcases finishBranch_emits p.finishesValue with ⟨l71, hstore, hbranch⟩
  have hother : b ≠ p.l7.current := by
    rcases p.current_l7 hright with hsame | hnew
    · rwa [hsame]
    · omega
  rw [hbranch.others b (by rwa [hstore.current]), hstore.others b hother]
  exact hright.others b (by rw [← p.blocks_l6] at hb; exact hb) hrhs

theorem code_done (p : Logical operation left right l id l') (hleft : Grows p.l1 p.l2)
    (hright : Grows (p.l6.inBlock p.ids.1) p.l7) : p.l8.function.code p.ids.2.2 = [] := by
  have hpresent := hleft.present'
  have hrhs := p.opens.rhs
  have hskip := p.opens.skip
  have hdone := p.opens.done
  rw [p.code_l8 hright (by omega) (by omega), p.code_l6 (by omega) (by omega) (by omega), code_of_le (by omega)]

theorem extends_l4 (p : Logical operation left right l id l') : Extends p.l2.function p.l4.function := by
  intro b
  rw [← p.opens.code]
  exact p.branches.grows.extends b

theorem extends_l5 (p : Logical operation left right l id l') : Extends p.l4.function p.l5.function := by
  rcases emitValue_emits p.emitsKnown with ⟨-, -, hgrows, -⟩
  exact hgrows.extends

theorem extends_l6 (p : Logical operation left right l id l') : Extends p.l5.function p.l6.function := by
  rcases finishBranch_emits p.finishesKnown with ⟨l51, hstore, hbranch⟩
  exact hstore.grows.extends.trans hbranch.grows.extends

theorem extends_l7 (p : Logical operation left right l id l') (hright : Grows (p.l6.inBlock p.ids.1) p.l7) :
    Extends p.l6.function p.l7.function := hright.extends

theorem extends_l8 (p : Logical operation left right l id l') : Extends p.l7.function p.l8.function := by
  rcases finishBranch_emits p.finishesValue with ⟨l71, hstore, hbranch⟩
  exact hstore.grows.extends.trans hbranch.grows.extends

theorem extends_end (p : Logical operation left right l id l') : Extends p.l8.function l'.function := by
  rcases emitValue_emits p.loads with ⟨-, -, hgrows, -⟩
  exact hgrows.extends

theorem grows (p : Logical operation left right l id l') (hleft : Grows p.l1 p.l2)
    (hright : Grows (p.l6.inBlock p.ids.1) p.l7) : Grows l l' := by
  rcases finishBranch_emits p.finishesValue with ⟨l71, hstore, hbranch⟩
  rcases emitValue_emits p.loads with ⟨-, -, hload, hcurrent, -⟩
  change l'.current = p.ids.2.2 at hcurrent
  have hopened := p.opened hleft
  have hblocks := p.blocks_l6
  have hrhs := p.opens.rhs
  have hskip := p.opens.skip
  have hdone := p.opens.done
  have hblocks7 : p.l6.function.blocks.length ≤ p.l7.function.blocks.length := hright.blocks
  have hblocks8 : p.l8.function.blocks.length = p.l7.function.blocks.length := hbranch.blocks.trans hstore.blocks
  have hblocks9 : p.l8.function.blocks.length ≤ l'.function.blocks.length := hload.blocks
  have hvalues7 : p.l6.function.valueCount ≤ p.l7.function.valueCount := hright.values
  have hvalues8 : p.l8.function.valueCount = p.l7.function.valueCount := hbranch.values.trans hstore.values
  have hvalues9 : p.l8.function.valueCount ≤ l'.function.valueCount := hload.values
  have hextends : Extends p.l2.function l'.function :=
    p.extends_l4.trans (p.extends_l5.trans (p.extends_l6.trans ((p.extends_l7 hright).trans
      (p.extends_l8.trans p.extends_end))))
  have hopens := hopened.blocks
  refine ⟨hopened.present, hload.present', by omega, ?_, ?_, hopened.code.trans (hextends _), ?_⟩
  · calc l.function.valueCount ≤ p.l2.function.valueCount := hopened.values
      _ ≤ p.l6.function.valueCount := p.values_l6
      _ ≤ l'.function.valueCount := by omega
  · right
    omega
  · intro b hb hother
    have hother2 : b ≠ p.l2.current := by
      rcases hopened.current with hsame | hnew
      · rwa [hsame]
      · omega
    have hlast : l'.function.code b = p.l8.function.code b :=
      hload.others b (by change b < p.l8.function.blocks.length; omega) (by change b ≠ p.ids.2.2; omega)
    rw [hlast, p.code_l8 hright (by omega) (by omega), p.code_l6 (by omega) hother2 (by omega),
      hopened.others b hb hother]

end Logical

/-- Lowering an expression appends code; its value is one of the new ones. -/
theorem lowerExpression_grows {e : Expr} {l l' : Lowerer} {id : Nat} (h : lowerExpression e l = .ok (id, l')) :
    Grows l l' ∧ id = l'.function.valueCount := by
  induction e generalizing l id l' with
  | literal note kind lexeme =>
      rw [lowerExpression] at h
      obtain ⟨value, -, h⟩ := bind_eq_ok.mp h
      rcases emitValue_emits h with ⟨-, hid, hgrows, -⟩
      exact ⟨hgrows, hid.symm⟩
  | named note name symbolId storage =>
      rw [lowerExpression] at h
      split at h
      · rcases emitValue_emits h with ⟨-, hid, hgrows, -⟩
        exact ⟨hgrows, hid.symm⟩
      · obtain ⟨⟨address, l1⟩, haddress, h⟩ := bind_eq_ok.mp h
        rcases emitValue_emits haddress with ⟨-, -, hgrows1, -⟩
        rcases emitValue_emits h with ⟨-, hid, hgrows, -⟩
        exact ⟨hgrows1.trans hgrows, hid.symm⟩
  | layoutType note query type member =>
      rcases emitValue_emits h with ⟨-, hid, hgrows, -⟩
      exact ⟨hgrows, hid.symm⟩
  | layoutObject note query object =>
      rcases emitValue_emits h with ⟨-, hid, hgrows, -⟩
      exact ⟨hgrows, hid.symm⟩
  | unary note operation right ih =>
      unfold lowerExpression at h
      split at h
      · obtain ⟨value, -, h⟩ := bind_eq_ok.mp h
        rcases emitValue_emits h with ⟨-, hid, hgrows, -⟩
        exact ⟨hgrows, hid.symm⟩
      · obtain ⟨⟨value, l1⟩, hvalue, h⟩ := bind_eq_ok.mp h
        rcases emitValue_emits h with ⟨-, hid, hgrows, -⟩
        exact ⟨(ih hvalue).1.trans hgrows, hid.symm⟩
  | binary note operation left right ihl ihr =>
      by_cases hlogical : operation = .andAnd ∨ operation = .orOr
      · obtain ⟨p⟩ := lowerExpression_logical hlogical h
        rcases emitValue_emits p.loads with ⟨-, hid, -⟩
        exact ⟨p.grows (ihl p.lowersLeft).1 (ihr p.lowersRight).1, hid.symm⟩
      · rw [lowerExpression, if_neg hlogical] at h
        obtain ⟨⟨first, l1⟩, hfirst, h⟩ := bind_eq_ok.mp h
        obtain ⟨⟨second, l2⟩, hsecond, h⟩ := bind_eq_ok.mp h
        rcases emitValue_emits h with ⟨-, hid, hgrows, -⟩
        exact ⟨(ihl hfirst).1.trans ((ihr hsecond).1.trans hgrows), hid.symm⟩
  | cast note target expression ih =>
      rw [lowerExpression] at h
      obtain ⟨⟨value, l1⟩, hvalue, h⟩ := bind_eq_ok.mp h
      rcases emitValue_emits h with ⟨-, hid, hgrows, -⟩
      exact ⟨(ih hvalue).1.trans hgrows, hid.symm⟩

/-! ## Running emitted code -/

/-- The run is where the lowering appends its next instruction. -/
structure At (l : Lowerer) (s : FoldState) : Prop where
  block : s.block = l.current
  position : s.position = (l.function.code l.current).length

/-- Values that were there before keep what they are. -/
def Keeps (count : Nat) (s s' : FoldState) : Prop := ∀ id ≤ count, s'.values id = s.values id

theorem Keeps.refl (count : Nat) (s : FoldState) : Keeps count s s := fun _ _ => rfl

theorem Keeps.trans {count count' : Nat} {s s' s'' : FoldState} (h : Keeps count s s') (k : Keeps count' s' s'')
    (hle : count ≤ count') : Keeps count s s'' := by
  intro id hid
  rw [k id (hid.trans hle), h id hid]

theorem getElem?_of_isPrefix {α : Type} {xs ys : List α} {x : α} (h : xs ++ [x] <+: ys) : ys[xs.length]? = some x := by
  rcases h with ⟨rest, rfl⟩
  simp

theorem foldStep_of_emits {l l' : Lowerer} {i : Instruction} {g : Function} {s : FoldState} (h : Emits l l' i)
    (hg : Extends l'.function g) (hs : At l s) :
    foldStep g s = performFold s { i with inPlotContext := l.plotContext } := by
  have hprefix := hg l.current
  rw [h.code] at hprefix
  unfold foldStep
  rw [hs.block, hs.position, getElem?_of_isPrefix hprefix]

theorem At.next {l l' : Lowerer} {s s' : FoldState} {i : Instruction} (hs : At l s) (hcurrent : l'.current = l.current)
    (hcode : l'.function.code l.current = l.function.code l.current ++ [i]) (hblock : s'.block = s.block)
    (hposition : s'.position = s.position + 1) : At l' s' where
  block := by rw [hblock, hs.block, hcurrent]
  position := by
    rw [hposition, hs.position, hcurrent, hcode]
    simp

section Run

variable {l l' : Lowerer} {g : Function} {s : FoldState} {id observed : Nat} {i : Instruction}

/-- The value of an expression is where its lowering says. -/
def Holds (s : FoldState) (id : Nat) (type : Ty) (value : Int) : Prop :=
  ∃ raw, s.values id = some ⟨type, raw⟩ ∧ convert raw type = convert value type

/-- A run behind the code of an expression. -/
structure Arrives (g : Function) (observed : Nat) (l l' : Lowerer) (s : FoldState) (id : Nat) (type : Ty)
    (value : Int) (n : Nat) (s' : FoldState) : Prop where
  runs : Machine.Runs (folding g observed) n s s'
  place : At l' s'
  holds : Holds s' id type value
  keeps : Keeps l.function.valueCount s s'

/-- The run of the code of an expression has its value or faults. -/
def Evaluates (g : Function) (observed : Nat) (l l' : Lowerer) (s : FoldState) (id : Nat) (type : Ty) :
    Except String (Option Int) → Prop
  | .ok (some value) => ∃ n s', Arrives g observed l l' s id type value n s'
  | .ok none => True
  | .error _ => ∃ n s', Machine.Runs (folding g observed) n s s' ∧ foldStep g s' = .error .fault

theorem performFold_value (i : Instruction) (hvalue : isValueOpcode i.opcode = true) (s : FoldState) :
    performFold s i = (produce s i).map (s.assign i.result) := by
  unfold performFold
  split <;> simp_all [isValueOpcode]

/-- The step at an instruction that produces a value. -/
theorem foldStep_of_emitValue (h : l.emitValue i = .ok (id, l')) (hvalue : isValueOpcode i.opcode = true)
    (hg : Extends l'.function g) (hs : At l s) :
    foldStep g s = (produce s { i with
      result := id
      inPlotContext := l.plotContext }).map (s.assign id) := by
  rcases emitValue_emits h with ⟨-, -, -, -, -, hcode⟩
  have hprefix := hg l.current
  rw [hcode] at hprefix
  unfold foldStep
  rw [hs.block, hs.position, getElem?_of_isPrefix hprefix]
  apply performFold_value
  exact hvalue

theorem At.assign (h : l.emitValue i = .ok (id, l')) (hs : At l s) (operand : Operand) :
    At l' (s.assign id operand) := by
  rcases emitValue_emits h with ⟨-, -, -, hcurrent, -, hcode⟩
  exact hs.next hcurrent hcode rfl rfl

theorem Keeps.assign (h : l.emitValue i = .ok (id, l')) (operand : Operand) :
    Keeps l.function.valueCount s (s.assign id operand) := by
  rcases emitValue_emits h with ⟨hid, -⟩
  intro other hother
  exact Function.update_of_ne (by omega) _ _

/-- A constant evaluates to its immediate. -/
theorem emitConstant_evaluates {type : Ty} {value : Int} (h : l.emitConstant type value = .ok (id, l'))
    (hg : Extends l'.function g) (hs : At l s) : Evaluates g observed l l' s id type (.ok (some value)) :=
  ⟨1, _, {
    runs := .single (foldStep_of_emitValue h rfl hg hs)
    place := hs.assign h _
    holds := ⟨value, Function.update_self _ _ _, rfl⟩
    keeps := .assign h _ }⟩

end Run

end Disco.Frontend
