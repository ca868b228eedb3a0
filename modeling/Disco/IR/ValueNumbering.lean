import Disco.IR.DivModFusion
import Disco.IR.SimplifyFacts

/-! # Numbering of pure expressions

`numberValues`: a pure instruction with the operands of one that dominates it
gets the value of that one as its alias. What is available is scoped by the
dominator tree: behind the subtree of a block its expressions are taken out
again.

The source resolves the operands of every instruction in place on its way;
`rewrite` resolves them again to the same ends, so that only what an expression
is looked up under depends on it.
-/

namespace Disco.IR.ValueNumbering

open Library Verifier ScalarFold

/-- `to_string` of a scalar type. -/
def typeText (type : Ty) : String :=
  (if type.isConst then "const " else "") ++ (if type.isVolatile then "volatile " else "") ++
    (if type.space = .rom then "rom " else "") ++ (if type.isUnsigned then "unsigned " else "") ++
    match type.base with
    | .byte => "byte"
    | .bool => "bool"
    | .word => "word"
    | .struct => "struct " ++ type.structName
    | .void => "void"
    | .none => ""

def isCommutative (operation : String) : Bool :=
  decide (operation = "+" ∨ operation = "*" ∨ operation = "&" ∨ operation = "|" ∨ operation = "^" ∨
    operation = "==" ∨ operation = "!=")

structure Key where
  opcode : Opcode
  type : String
  size : Int
  operation : String
  left : Nat
  right : Nat
  literal : Int
  deriving DecidableEq

/-- The operands of a commutative operation are looked up in ascending order. -/
def key (i : Instruction) : Key :=
  let a := i.operands.getD 0 0
  let b := i.operands.getD 1 0
  let swapped := decide (i.opcode = .binary) && isCommutative i.operation && decide (b < a)
  { opcode := i.opcode
    type := typeText i.type
    size := i.type.sizeInBytes
    operation := i.type.enumName ++ ":" ++ i.operation
    left := if swapped then b else a
    right := if swapped then a else b
    literal := if i.opcode = .constant then convert i.immediate i.type else i.immediate }

/-- The instruction with the ends of the alias chains of its operands. -/
def resolved (f : Function) (aliases : Nat → Nat) (i : Instruction) : Instruction :=
  { i with operands := i.operands.map fun v => (resolve aliases (f.valueCount + 1) v).getD 0 }

structure Numbering where
  available : Key → Option Nat := fun _ => none
  aliases : Nat → Nat := fun _ => 0
  entries : Nat := 0

def maxEntries : Nat := 8192

/-- One instruction, and the expressions that are new in its block. -/
def number (f : Function) (s : Numbering × List Key) (i : Instruction) : Numbering × List Key :=
  let i := resolved f s.1.aliases i
  if isPure f i = true then
    match s.1.available (key i) with
    | some previous => ({ s.1 with aliases := Function.update s.1.aliases i.result previous }, s.2)
    | none =>
        if s.1.entries < maxEntries then
          ({ s.1 with
            available := Function.update s.1.available (key i) (some i.result)
            entries := s.1.entries + 1 }, s.2 ++ [key i])
        else s
  else s

def numberBlock (f : Function) (s : Numbering) (b : Nat) : Numbering × List Key :=
  (f.code b).foldl (number f) (s, [])

structure Visit where
  block : Nat
  leave : Bool := false
  inserted : List Key := []

def Numbering.erase (s : Numbering) (keys : List Key) : Numbering :=
  { s with available := fun key => if key ∈ keys then none else s.available key }

/-- The work stack. A block is entered and left once, which bounds the walk. -/
def walk (f : Function) (children : Nat → List Nat) : Nat → List Visit → Numbering → Numbering
  | 0, _, s => s
  | _ + 1, [], s => s
  | fuel + 1, visit :: rest, s =>
      if visit.leave then walk f children fuel rest (s.erase visit.inserted)
      else
        let next := numberBlock f s visit.block
        let left := { visit with
          leave := true
          inserted := next.2 }
        let below := (children visit.block).map fun c => { block := c }
        walk f children fuel (below ++ left :: rest) next.1

/-- The aliases of a function. -/
def numbered (f : Function) (cfg : FlowAnalysis) : Nat → Nat :=
  (walk f cfg.children (2 * f.blocks.length) [{ block := f.entry }] {}).aliases

/-- `numberValues`; nothing for a cycle of aliases. -/
def numberValues (f : Function) : Except String (Option Function) := do
  let cfg ← flowAnalysis f
  pure (rewrite f (numbered f cfg))

/-! ## Keys -/

section Keys

variable {f : Function} {i j : Instruction} {env : Nat → Slot}

/-- The last letter of a scalar type's text. -/
def lastLetter : BaseType → Char
  | .byte => 'e'
  | .bool => 'l'
  | _ => 'd'

/-- Among the words of a scalar type only `unsigned` has a `u`. -/
theorem typeText_letters :
    ∀ (const volatile rom unsigned : Bool), ∀ base ∈ [BaseType.byte, .bool, .word],
      decide ('u' ∈ (typeText { base := base
                                isConst := const
                                isVolatile := volatile
                                space := if rom then .rom else .none
                                isUnsigned := unsigned }).toList) = unsigned ∧
        (typeText { base := base
                    isConst := const
                    isVolatile := volatile
                    space := if rom then .rom else .none
                    isUnsigned := unsigned }).toList.getLast? = some (lastLetter base) := by
  decide +kernel

theorem lastLetter_injective : ∀ base ∈ [BaseType.byte, .bool, .word], ∀ base' ∈ [BaseType.byte, .bool, .word],
    lastLetter base = lastLetter base' → base = base' := by
  decide

/-- The text of a scalar type says how its values are reduced. -/
theorem typeText_scalar {left right : Ty} (hl : scalar left = true) (hr : scalar right = true)
    (h : typeText left = typeText right) : left.isUnsigned = right.isUnsigned ∧ left.base = right.base := by
  have hbase : ∀ {type : Ty}, scalar type = true → type.base ∈ [BaseType.byte, .bool, .word] := by
    intro type hs
    simp only [scalar, Bool.and_eq_true, decide_eq_true_eq] at hs
    simp
    tauto
  have htext : ∀ type : Ty, scalar type = true → typeText type = typeText
      { base := type.base
        isConst := type.isConst
        isVolatile := type.isVolatile
        space := if decide (type.space = .rom) then .rom else .none
        isUnsigned := type.isUnsigned } := by
    intro type hs
    have hkind := hbase hs
    unfold typeText
    by_cases hrom : type.space = .rom
    · simp only [hrom, decide_true, if_true]
      simp at hkind
      rcases hkind with hkind | hkind | hkind <;> rw [hkind]
    · simp only [hrom, decide_false, Bool.false_eq_true, if_false]
      simp at hkind
      rcases hkind with hkind | hkind | hkind <;> (rw [hkind]; simp)
  rw [htext left hl, htext right hr] at h
  have hleft := typeText_letters left.isConst left.isVolatile (decide (left.space = .rom)) left.isUnsigned _ (hbase hl)
  have hright := typeText_letters right.isConst right.isVolatile (decide (right.space = .rom)) right.isUnsigned _ (hbase hr)
  rw [h] at hleft
  have hletter : lastLetter left.base = lastLetter right.base := Option.some.inj (hleft.2.symm.trans hright.2)
  exact ⟨hleft.1.symm.trans hright.1, lastLetter_injective _ (hbase hl) _ (hbase hr) hletter⟩

theorem convert_of_typeText {left right : Ty} (hl : scalar left = true) (hr : scalar right = true)
    (h : typeText left = typeText right) (value : Int) : convert value left = convert value right := by
  have hsame := typeText_scalar hl hr h
  simp only [scalar, Bool.and_eq_true, decide_eq_true_eq] at hl hr
  unfold convert
  rw [hsame.1, hsame.2, hl.1.1, hr.1.1]

/-- What is behind the last colon. -/
theorem suffix_of_colon {left right a b : List Char} (ha : ':' ∉ a) (hb : ':' ∉ b)
    (h : left ++ ':' :: a = right ++ ':' :: b) : a = b := by
  cases List.append_eq_append_iff.mp h with
  | inl hlonger =>
      obtain ⟨middle, -, hrest⟩ := hlonger
      cases middle with
      | nil => simpa using hrest
      | cons c middle =>
          have hmem : ':' ∈ a := by
            rw [(List.cons.inj hrest).2]
            simp
          exact absurd hmem ha
  | inr hlonger =>
      obtain ⟨middle, -, hrest⟩ := hlonger
      cases middle with
      | nil => simpa using hrest.symm
      | cons c middle =>
          have hmem : ':' ∈ b := by
            rw [(List.cons.inj hrest).2]
            simp
          exact absurd hmem hb

theorem operation_of_text {name name' operation operation' : String} (ha : ':' ∉ operation.toList)
    (hb : ':' ∉ operation'.toList) (h : name ++ ":" ++ operation = name' ++ ":" ++ operation') : operation = operation' := by
  have hlist := congrArg String.toList h
  simp only [String.toList_append] at hlist
  have hcolon : (":" : String).toList = [':'] := rfl
  rw [hcolon, List.append_assoc, List.append_assoc] at hlist
  exact String.toList_inj.mp (suffix_of_colon ha hb hlist)

/-- What the verifier makes sure of for pure instructions. -/
structure Shaped (i : Instruction) : Prop where
  binary : i.opcode = .binary → i.operands.length = 2 ∧ isLegalBinaryOperation i.operation = true
  single : i.opcode = .unary ∨ i.opcode = .cast ∨ i.opcode = .bitExtract → 0 < i.operands.length

theorem shaped (h : checkOpcode f i = .ok ()) : Shaped i := by
  unfold checkOpcode at h
  refine ⟨?_, ?_⟩
  · intro hop
    rw [hop] at h
    dsimp only at h
    rw [rejectIf_eq_ok] at h
    simp only [not_or, not_not, Bool.not_eq_false] at h
    exact ⟨h.1, h.2.2.2.2.1⟩
  · intro hop
    rcases hop with hop | hop | hop
    all_goals
      rw [hop] at h
      dsimp only at h
      rw [rejectIf_eq_ok] at h
      simp only [not_or, not_not] at h
      rw [h.1]
      decide

theorem Shaped.resolved {aliases : Nat → Nat} (h : Shaped i) : Shaped (resolved f aliases i) := by
  refine ⟨fun hop => ?_, fun hop => ?_⟩
  · have hbinary := h.binary hop
    unfold ValueNumbering.resolved
    rw [List.length_map]
    exact hbinary
  · have hsingle := h.single hop
    unfold ValueNumbering.resolved
    rw [List.length_map]
    exact hsingle

/-- A legal operation has no colon. -/
theorem Shaped.no_colon (hi : Shaped i) (h : PureShape f i) (hop : i.opcode = .binary ∨ i.opcode = .unary) :
    ':' ∉ i.operation.toList := by
  cases hop with
  | inl hop =>
      have hlegal := (hi.binary hop).2
      unfold isLegalBinaryOperation at hlegal
      rw [decide_eq_true_eq] at hlegal
      revert hlegal
      generalize i.operation = operation
      revert operation
      decide +kernel
  | inr hop =>
      have hoperation : i.operation = "-" ∨ i.operation = "~" ∨ i.operation = "!" := by
        have hshape := h.opcode
        rw [hop] at hshape
        simpa using hshape
      rcases hoperation with heq | heq | heq <;> (rw [heq]; decide)

theorem binary_comm {operation : String} (h : isCommutative operation = true) (a b : Int) :
    Arithmetic.binary operation a b = Arithmetic.binary operation b a := by
  have hcases := of_decide_eq_true h
  rcases hcases with heq | heq | heq | heq | heq | heq | heq
  all_goals
    rw [heq]
    simp only [Arithmetic.binary]
  · rw [Int.add_comm]
  · rw [Int.mul_comm]
  · rw [BitVec.and_comm]
  · rw [BitVec.or_comm]
  · rw [BitVec.xor_comm]
  · simp only [eq_comm]
  · simp only [eq_comm]

/-- Operands that are looked up under one key are equal up to their order. -/
theorem operands_of_key (h : key i = key j) (hoperation : i.operation = j.operation) :
    (i.operands.getD 0 0 = j.operands.getD 0 0 ∧ i.operands.getD 1 0 = j.operands.getD 1 0) ∨
      (i.opcode = .binary ∧ isCommutative i.operation = true ∧
        i.operands.getD 0 0 = j.operands.getD 1 0 ∧ i.operands.getD 1 0 = j.operands.getD 0 0) := by
  have hopcode : i.opcode = j.opcode := congrArg Key.opcode h
  have hleft := congrArg Key.left h
  have hright := congrArg Key.right h
  simp only [key, ← hopcode, ← hoperation] at hleft hright
  by_cases hcommutes : i.opcode = .binary ∧ isCommutative i.operation = true
  · simp only [hcommutes.1, hcommutes.2, decide_true, Bool.true_and, decide_eq_true_eq] at hleft hright
    generalize i.operands.getD 0 0 = a at hleft hright ⊢
    generalize i.operands.getD 1 0 = b at hleft hright ⊢
    generalize j.operands.getD 0 0 = a' at hleft hright ⊢
    generalize j.operands.getD 1 0 = b' at hleft hright ⊢
    by_cases hi : b < a
    · by_cases hj : b' < a'
      · simp only [if_pos hi, if_pos hj] at hleft hright
        exact .inl ⟨hright, hleft⟩
      · simp only [if_pos hi, if_neg hj] at hleft hright
        exact .inr ⟨hcommutes.1, hcommutes.2, hright, hleft⟩
    · by_cases hj : b' < a'
      · simp only [if_neg hi, if_pos hj] at hleft hright
        exact .inr ⟨hcommutes.1, hcommutes.2, hleft, hright⟩
      · simp only [if_neg hi, if_neg hj] at hleft hright
        exact .inl ⟨hleft, hright⟩
  · left
    have hfalse : (decide (i.opcode = .binary) && isCommutative i.operation) = false := by
      simpa using hcommutes
    simp only [hfalse, Bool.false_and, Bool.false_eq_true, if_false] at hleft hright
    exact ⟨hleft, hright⟩

/-- An arithmetic instruction computes from its first two operands. -/
theorem evaluate_congr (pi : PureShape f i) (pj : PureShape f j) (hopcode : i.opcode = j.opcode)
    (hop : i.opcode = .binary ∨ i.opcode = .unary ∨ i.opcode = .cast ∨ i.opcode = .bitExtract)
    {left right : List Int} (other other' : Int)
    (h : Arithmetic.compute i.effect (left.getD 0 0) (left.getD 1 0) =
      Arithmetic.compute j.effect (right.getD 0 0) (right.getD 1 0)) :
    i.effect.evaluate left other = j.effect.evaluate right other' := by
  have harithmetic : ∀ {k : Instruction}, PureShape f k → k.opcode = i.opcode → k.effect.isArithmetic = true := by
    intro k pk hk
    rw [← hk] at hop
    simp only [Effect.isArithmetic, Instruction.effect, pk.scalar, Bool.and_true]
    exact decide_eq_true hop
  unfold Effect.evaluate
  rw [if_pos (harithmetic pi rfl), if_pos (harithmetic pj hopcode.symm), h]

/-- Expressions with one key have one value. -/
theorem evaluate_of_key (hi : Shaped i) (hj : Shaped j) (pi : PureShape f i) (pj : PureShape f j) (h : key i = key j)
    (env : Nat → Slot) (other other' : Int) :
    i.effect.evaluate (i.operandWords env) other = j.effect.evaluate (j.operandWords env) other' := by
  have hopcode : i.opcode = j.opcode := congrArg Key.opcode h
  have hconvert := convert_of_typeText pi.scalar pj.scalar (congrArg Key.type h)
  have hliteral := congrArg Key.literal h
  have htext := congrArg Key.operation h
  have hoperation : i.opcode = .binary ∨ i.opcode = .unary → i.operation = j.operation := fun hop =>
    operation_of_text (hi.no_colon pi hop) (hj.no_colon pj (hopcode ▸ hop)) htext
  have hword : ∀ {k : Instruction} {n : Nat}, n < k.operands.length →
      (k.operandWords env).getD n 0 = (env (k.operands.getD n 0)).word := getD_operandWords
  have hcompute : ∀ {a b a' b' : Int}, Arithmetic.raw i.effect a b = Arithmetic.raw j.effect a' b' →
      Arithmetic.compute i.effect a b = Arithmetic.compute j.effect a' b' := by
    intro a b a' b' hraw
    have hfun : (fun result => convert result i.effect.type) = fun result => convert result j.effect.type :=
      funext hconvert
    unfold Arithmetic.compute
    rw [hraw, hfun]
  have hfirst : (i.operands.getD 0 0 = j.operands.getD 0 0) → 0 < i.operands.length → 0 < j.operands.length →
      (i.operandWords env).getD 0 0 = (j.operandWords env).getD 0 0 := by
    intro hsame hilength hjlength
    rw [hword hilength, hword hjlength, hsame]
  have hsingle : i.opcode = .unary ∨ i.opcode = .cast ∨ i.opcode = .bitExtract →
      (i.operandWords env).getD 0 0 = (j.operandWords env).getD 0 0 := by
    intro hop
    have hleft := congrArg Key.left h
    have hnot : i.opcode ≠ .binary := by
      intro heq
      rw [heq] at hop
      simp at hop
    simp only [key, ← hopcode, decide_eq_false hnot, Bool.false_and, Bool.false_eq_true, if_false] at hleft
    exact hfirst hleft (hi.single hop) (hj.single (hopcode ▸ hop))
  rcases pi.opcode with hop | hop | hop | hop | hop
  · have hop' := hopcode.symm.trans hop
    simp only [key, hop, hop', if_true] at hliteral
    unfold Effect.evaluate Effect.isArithmetic Instruction.effect
    rw [hop, hop']
    simp [hliteral]
  · have hop' := hopcode.symm.trans hop
    refine evaluate_congr pi pj hopcode (by simp [hop]) other other' (hcompute ?_)
    simp only [Arithmetic.raw, Instruction.effect, hop, hop']
    rw [hsingle (by simp [hop])]
  · have hop' := hopcode.symm.trans hop
    simp only [key, hop, hop'] at hliteral
    refine evaluate_congr pi pj hopcode (by simp [hop]) other other' (hcompute ?_)
    simp only [Arithmetic.raw, Instruction.effect, hop, hop']
    rw [hsingle (by simp [hop])]
    simp at hliteral
    rw [hliteral]
  · have hop' := hopcode.symm.trans hop.1
    refine evaluate_congr pi pj hopcode (by simp [hop]) other other' (hcompute ?_)
    simp only [Arithmetic.raw, Instruction.effect, hop.1, hop']
    rw [hsingle (by simp [hop.1]), hoperation (by simp [hop.1])]
  · have hop' := hopcode.symm.trans hop.1
    have hsame := hoperation (by simp [hop.1])
    have hilength := (hi.binary hop.1).1
    have hjlength := (hj.binary hop').1
    refine evaluate_congr pi pj hopcode (by simp [hop]) other other' (hcompute ?_)
    simp only [Arithmetic.raw, Instruction.effect, hop.1, hop']
    rw [hword (by omega), hword (by omega), hword (by omega), hword (by omega), hsame]
    cases operands_of_key h hsame with
    | inl horder => rw [horder.1, horder.2]
    | inr hswapped =>
        rw [hswapped.2.2.1, hswapped.2.2.2]
        rw [hsame] at hswapped
        exact binary_comm hswapped.2.1 _ _

end Keys

/-! ## One block -/

section Block

variable {f : Function} {aliases : Nat → Nat} {done : Site → Prop} {b n : Nat} {seen : List Nat} {c d e : Site}
  {K : Key} {s : Numbering}

/-- A pure instruction and what it is looked up under. -/
structure Names (f : Function) (aliases : Nat → Nat) (d : Site) (K : Key) : Prop where
  mem : d ∈ f.sites
  pure : isPure f (resolved f aliases d.instruction) = true
  key : key (resolved f aliases d.instruction) = K

/-- Aliases of sites that are done name expressions that are done and available. -/
structure Sound (f : Function) (done : Site → Prop) (aliases : Nat → Nat) : Prop where
  expression : ∀ v, aliases v ≠ 0 → ∃ d c K, done d ∧ done c ∧ d.instruction.result = v ∧
    c.instruction.result = aliases v ∧ Available f c d.block d.position ∧ Names f aliases d K ∧ Names f aliases c K

/-- What is visited: whole blocks, and the current one up to a position. -/
def Visited (seen : List Nat) (b n : Nat) (d : Site) : Prop := d.block ∈ seen ∨ (d.block = b ∧ d.position < n)

/-- With a site everything available there is done. -/
def Closed (f : Function) (done : Site → Prop) : Prop :=
  ∀ d, done d → ∀ c ∈ f.sites, Available f c d.block d.position → done c

theorem Names.shape (h : Names f aliases d K) : PureShape f (resolved f aliases d.instruction) := isPure_shape h.pure

theorem Names.not_phi (h : Names f aliases d K) : d.instruction.opcode ≠ .phi := by
  have hshape := h.shape.opcode
  intro hop
  simp only [resolved, hop] at hshape
  simp at hshape

theorem Names.result_ne_zero (hv : Verified f) (h : Names f aliases d K) : d.instruction.result ≠ 0 := by
  obtain ⟨_, -, hscanned⟩ := hv.scanned h.mem
  apply hscanned.produces.mp
  have hshape := h.shape.opcode
  simp only [resolved] at hshape
  unfold Instruction.producesValue
  rcases hshape with hop | hop | hop | hop | hop
  · simp [hop, isValueOpcode]
  · simp [hop, isValueOpcode]
  · simp [hop, isValueOpcode]
  · simp [hop.1, isValueOpcode]
  · simp [hop.1, isValueOpcode]

/-- An alias of a value outside a set that the chains stay in changes no chain in it. -/
theorem resolve_update (values : Nat → Prop) {x w : Nat} (hclosed : ∀ v, values v → aliases v ≠ 0 → values (aliases v))
    (hx : ¬ values x) : ∀ {fuel v}, values v → resolve (Function.update aliases x w) fuel v = resolve aliases fuel v := by
  intro fuel
  induction fuel with
  | zero => intros; rfl
  | succ fuel ih =>
      intro v hvalue
      have hne : v ≠ x := fun heq => hx (heq ▸ hvalue)
      rw [resolve, resolve, Function.update_of_ne hne]
      split
      · rfl
      · rename_i halias
        exact ih (hclosed v hvalue halias)

/-- A new alias leaves the expressions that are done as they are. -/
theorem Names.update (h : Names f aliases d K) (hv : Verified f) (hs : Sound f done aliases) (hclosed : Closed f done)
    (hd : done d ∨ d = e) (hbefore : ∀ c ∈ f.sites, Available f c e.block e.position → done c)
    (he : e ∈ f.sites) (hresult : e.instruction.result ≠ 0) (hnew : ¬ done e) (hdone : ∀ c, done c → c ∈ f.sites) (w : Nat) :
    Names f (Function.update aliases e.instruction.result w) d K := by
  have hsame : resolved f (Function.update aliases e.instruction.result w) d.instruction =
      resolved f aliases d.instruction := by
    unfold resolved
    congr 1
    apply List.map_congr_left
    intro v hmem
    have hr := reached_of_result hv h.mem (h.result_ne_zero hv)
    obtain ⟨c, -, hc, hcresult, -, havailable⟩ := available_operand hv h.mem h.not_phi hr hmem
    have hcdone : done c := by
      cases hd with
      | inl hd => exact hclosed d hd c hc havailable
      | inr heq => exact hbefore c hc (heq ▸ havailable)
    have hkept : resolve (Function.update aliases e.instruction.result w) (f.valueCount + 1) v =
        resolve aliases (f.valueCount + 1) v :=
      resolve_update (fun v => ∃ c, done c ∧ c.instruction.result = v) ?_ ?_ ⟨c, hcdone, hcresult⟩
    · rw [hkept]
    · intro v _ halias
      obtain ⟨_, c, _, _, hc, _, hcresult, -⟩ := hs.expression v halias
      exact ⟨c, hc, hcresult⟩
    · intro hvalue
      obtain ⟨c, hc, hcresult⟩ := hvalue
      rw [site_unique hv (hdone c hc) he hresult hcresult] at hc
      exact hnew hc
  exact ⟨h.mem, hsame ▸ h.pure, hsame ▸ h.key⟩

/-- The blocks visited before are those that dominate, and others. -/
structure Ordered (f : Function) (seen : List Nat) (b : Nat) : Prop where
  fresh : b ∉ seen
  reached : Reached (flow f) f.entry b
  dominators : ∀ p, p = b ∨ p ∈ seen → ∀ a, Dominates (flow f) f.entry a p → a = p ∨ a ∈ seen

theorem Ordered.before (h : Ordered f seen b) (hd : d.block = b ∨ d.block ∈ seen) (hc : Available f c d.block d.position) :
    Visited seen d.block d.position c := by
  cases h.dominators d.block hd c.block hc.dominates with
  | inl heq => exact .inr ⟨heq, hc.before heq⟩
  | inr hmem => exact .inl hmem

theorem Ordered.closed (h : Ordered f seen b) (n : Nat) : Closed f fun d => d ∈ f.sites ∧ Visited seen b n d := by
  intro d hd c hc havailable
  refine ⟨hc, ?_⟩
  cases hd.2 with
  | inl hmem =>
      cases h.before (.inr hmem) havailable with
      | inl hseen => exact .inl hseen
      | inr hsame => exact .inl (hsame.1 ▸ hmem)
  | inr hblock =>
      cases h.before (.inl hblock.1) havailable with
      | inl hseen => exact .inl hseen
      | inr hsame => exact .inr ⟨hsame.1.trans hblock.1, hsame.2.trans hblock.2⟩

theorem Visited.next (h : Visited seen b n d) : Visited seen b (n + 1) d :=
  h.imp_right (And.imp_right Nat.lt_succ_of_lt)

/-- Where an available expression was entered: in the current block, or in one
that is still to be left. -/
def Entered (stack : List Visit) (b : Nat) (inserted : List Key) (K : Key) (c : Site) : Prop :=
  (K ∈ inserted ∧ c.block = b) ∨ ∃ visit ∈ stack, visit.leave = true ∧ K ∈ visit.inserted ∧ c.block = visit.block

/-- How far the walk has got inside a block. -/
structure Progress (f : Function) (seen : List Nat) (stack : List Visit) (b n : Nat) (s : Numbering)
    (inserted : List Key) : Prop where
  sound : Sound f (fun d => d ∈ f.sites ∧ Visited seen b n d) s.aliases
  available : ∀ K v, s.available K = some v → ∃ c, Visited seen b n c ∧ c.instruction.result = v ∧
    Names f s.aliases c K ∧ Entered stack b inserted K c

theorem Sound.mono {done' : Site → Prop} (h : Sound f done aliases) (hsub : ∀ d, done d → done' d) : Sound f done' aliases where
  expression v halias := by
    obtain ⟨d, c, K, hd, hc, hrest⟩ := h.expression v halias
    exact ⟨d, c, K, hsub d hd, hsub c hc, hrest⟩

theorem Progress.next {stack : List Visit} {inserted : List Key} (h : Progress f seen stack b n s inserted) :
    Progress f seen stack b (n + 1) s inserted where
  sound := h.sound.mono fun _ hd => ⟨hd.1, hd.2.next⟩
  available K v hv := by
    obtain ⟨c, hc, hrest⟩ := h.available K v hv
    exact ⟨c, hc.next, hrest⟩

/-- One instruction more. -/
theorem Progress.number {stack : List Visit} {inserted : List Key} (h : Progress f seen stack b n s inserted)
    (hv : Verified f) (ho : Ordered f seen b)
    (hstack : ∀ visit ∈ stack, visit.leave = true → Dominates (flow f) f.entry visit.block b)
    (hd : d ∈ f.sites) (hblock : d.block = b) (hposition : d.position = n) :
    Progress f seen stack b (n + 1) (number f (s, inserted) d.instruction).1 (number f (s, inserted) d.instruction).2 := by
  have hnew : ¬ (d ∈ f.sites ∧ Visited seen b n d) := by
    intro hvisited
    cases hvisited.2 with
    | inl hseen => exact ho.fresh (hblock ▸ hseen)
    | inr hbefore => omega
  have hhere : Visited seen b (n + 1) d := .inr ⟨hblock, by omega⟩
  unfold ValueNumbering.number
  dsimp only
  by_cases hpure : isPure f (resolved f s.aliases d.instruction) = true
  · rw [if_pos hpure]
    have hnames : Names f s.aliases d (key (resolved f s.aliases d.instruction)) := ⟨hd, hpure, rfl⟩
    have hresult := hnames.result_ne_zero hv
    cases hfound : s.available (key (resolved f s.aliases d.instruction)) with
    | some previous =>
        obtain ⟨c, hc, hcresult, hcnames, hentered⟩ := h.available _ _ hfound
        have hdominates : Dominates (flow f) f.entry c.block b := by
          cases hentered with
          | inl hsame => exact hsame.2 ▸ .refl _
          | inr hvisit =>
              obtain ⟨visit, hvisit, hleave, -, heq⟩ := hvisit
              exact heq ▸ hstack visit hvisit hleave
        have havailable : Available f c d.block d.position := by
          refine ⟨hblock ▸ hdominates, fun heq => ?_⟩
          cases hc with
          | inl hseen => exact absurd (hblock ▸ heq ▸ hseen) ho.fresh
          | inr hbefore => omega
        have hkeep : ∀ {e : Site} {K : Key}, Names f s.aliases e K → (e ∈ f.sites ∧ Visited seen b n e) ∨ e = d →
            Names f (Function.update s.aliases d.instruction.result previous) e K := by
          intro e K he hedone
          refine he.update hv h.sound (ho.closed n) hedone ?_ hd hresult hnew (fun _ hc => hc.1) previous
          intro a ha hbefore
          have hvisited := ho.before (.inl hblock) hbefore
          rw [hblock, hposition] at hvisited
          exact ⟨ha, hvisited⟩
        show Progress f seen stack b (n + 1)
          { s with aliases := Function.update s.aliases d.instruction.result previous } inserted
        refine ⟨⟨?_⟩, ?_⟩
        · intro v halias
          dsimp only at halias ⊢
          by_cases hv' : v = d.instruction.result
          · rw [hv', Function.update_self]
            exact ⟨d, c, _, ⟨hd, hhere⟩, ⟨hcnames.mem, hc.next⟩, rfl, hcresult, havailable, hkeep hnames (.inr rfl),
              hkeep hcnames (.inl ⟨hcnames.mem, hc⟩)⟩
          · rw [Function.update_of_ne hv'] at halias ⊢
            obtain ⟨x, y, K, hx, hy, hxresult, hyresult, hxy, hxnames, hynames⟩ := h.sound.expression v halias
            exact ⟨x, y, K, ⟨hx.1, hx.2.next⟩, ⟨hy.1, hy.2.next⟩, hxresult, hyresult, hxy, hkeep hxnames (.inl hx),
              hkeep hynames (.inl hy)⟩
        · intro K v hK
          obtain ⟨x, hx, hxresult, hxnames, hxentered⟩ := h.available K v hK
          exact ⟨x, hx.next, hxresult, hkeep hxnames (.inl ⟨hxnames.mem, hx⟩), hxentered⟩
    | none =>
        dsimp only
        split
        · refine ⟨h.next.sound, ?_⟩
          intro K v hK
          dsimp only at hK
          by_cases heq : K = key (resolved f s.aliases d.instruction)
          · rw [heq, Function.update_self] at hK
            refine ⟨d, hhere, Option.some.inj hK, heq ▸ hnames, .inl ⟨?_, hblock⟩⟩
            rw [heq]
            simp
          · rw [Function.update_of_ne heq] at hK
            obtain ⟨x, hx, hxresult, hxnames, hxentered⟩ := h.available K v hK
            refine ⟨x, hx.next, hxresult, hxnames, hxentered.imp_left ?_⟩
            exact And.imp_left (List.mem_append_left _)
        · exact h.next
  · rw [if_neg hpure]
    exact h.next

end Block

/-! ## The stack -/

section Stack

variable {f : Function} {cfg : FlowAnalysis} {visited : List Nat} {stack rest : List Visit} {visit : Visit} {s : Numbering}

/-- The blocks that wait on the stack. -/
def entering (stack : List Visit) : List Nat := (stack.filter fun visit => !visit.leave).map Visit.block

theorem entering_leave (h : visit.leave = true) : entering (visit :: rest) = entering rest := by
  simp [entering, h]

theorem entering_enter (h : visit.leave = false) : entering (visit :: rest) = visit.block :: entering rest := by
  simp [entering, h]

theorem entering_below (blocks : List Nat) :
    entering ((blocks.map fun c => { block := c }) ++ stack) = blocks ++ entering stack := by
  induction blocks with
  | nil => rfl
  | cons c blocks ih => simpa [entering] using ih

/-- What holds between two visits. -/
structure Walking (f : Function) (cfg : FlowAnalysis) (visited : List Nat) (stack : List Visit) (s : Numbering) :
    Prop where
  walked : Walked cfg.children f.entry visited (entering stack)
  ordered : ∀ b ∈ entering stack, Ordered f visited b
  nested : stack.Pairwise fun above below => below.leave = true → Dominates (flow f) f.entry below.block above.block
  sound : Sound f (fun d => d ∈ f.sites ∧ d.block ∈ visited) s.aliases
  available : ∀ K v, s.available K = some v → ∃ c, c.block ∈ visited ∧ c.instruction.result = v ∧
    Names f s.aliases c K ∧ ∃ visit ∈ stack, visit.leave = true ∧ K ∈ visit.inserted ∧ c.block = visit.block

theorem Walking.start (f : Function) (cfg : FlowAnalysis) : Walking f cfg [] [{ block := f.entry }] {} where
  walked := .start
  ordered b hb := by
    have heq : b = f.entry := by simpa [entering] using hb
    rw [heq]
    refine ⟨List.not_mem_nil, .start, ?_⟩
    intro p hp a ha
    have hentry : p = f.entry := by simpa using hp
    left
    by_contra hne
    rw [hentry] at ha hne
    exact ha (.start (Ne.symm hne))
  nested := List.pairwise_singleton _ _
  sound := ⟨fun v hv => absurd rfl hv⟩
  available K v hv := nomatch hv

/-- Leaving a block takes out what was entered there. -/
theorem Walking.leave (h : Walking f cfg visited (visit :: rest) s) (hleave : visit.leave = true) :
    Walking f cfg visited rest (s.erase visit.inserted) where
  walked := entering_leave hleave ▸ h.walked
  ordered := entering_leave hleave ▸ h.ordered
  nested := (List.pairwise_cons.mp h.nested).2
  sound := h.sound
  available K v hv := by
    unfold Numbering.erase at hv
    dsimp only at hv
    split at hv
    · cases hv
    · rename_i hout
      obtain ⟨c, hc, hresult, hnames, frame, hframe, hleaves, hin, hblock⟩ := h.available K v hv
      refine ⟨c, hc, hresult, hnames, frame, ?_, hleaves, hin, hblock⟩
      cases List.mem_cons.mp hframe with
      | inl heq => exact absurd (heq ▸ hin) hout
      | inr hrest => exact hrest

/-- The instructions of a block that is entered. -/
theorem Walking.block (h : Walking f cfg visited (visit :: rest) s) (hv : Verified f) (henter : visit.leave = false) :
    Progress f visited rest visit.block (f.code visit.block).length (numberBlock f s visit.block).1
      (numberBlock f s visit.block).2 := by
  have ho : Ordered f visited visit.block := h.ordered _ (by rw [entering_enter henter]; exact List.mem_cons_self)
  have hnested := List.pairwise_cons.mp h.nested
  have hstart : Progress f visited rest visit.block 0 s [] := by
    refine ⟨h.sound.mono fun d hd => ⟨hd.1, .inl hd.2⟩, ?_⟩
    intro K v hK
    obtain ⟨c, hc, hresult, hnames, frame, hframe, hleaves, hin, hblock⟩ := h.available K v hK
    refine ⟨c, .inl hc, hresult, hnames, .inr ⟨frame, ?_, hleaves, hin, hblock⟩⟩
    cases List.mem_cons.mp hframe with
    | inl heq =>
        rw [heq, henter] at hleaves
        cases hleaves
    | inr hrest => exact hrest
  have hnumber : ∀ n i (t : Numbering × List Key), (f.code visit.block)[n]? = some i →
      Progress f visited rest visit.block n t.1 t.2 →
      Progress f visited rest visit.block (n + 1) (number f t i).1 (number f t i).2 := by
    intro n i t hi ht
    cases t with
    | mk t inserted =>
        have hsite : (⟨visit.block, n, i⟩ : Site) ∈ f.sites := mem_sites.mpr hi
        have hnext := Progress.number ht hv ho hnested.1 hsite rfl rfl
        exact hnext
  exact foldl_positions (I := fun n (t : Numbering × List Key) => Progress f visited rest visit.block n t.1 t.2) hnumber hstart

/-- Entering a block. -/
theorem Walking.enter (h : Walking f cfg visited (visit :: rest) s) (hv : Verified f) (hcfg : flowAnalysis f = .ok cfg)
    (henter : visit.leave = false) :
    Walking f cfg (visited ++ [visit.block])
      (((cfg.children visit.block).map fun c => { block := c }) ++
        { visit with
          leave := true
          inserted := (numberBlock f s visit.block).2 } :: rest)
      (numberBlock f s visit.block).1 := by
  have ht := textbook_of_flowAnalysis hv hcfg
  have hprogress := h.block hv henter
  have ho : Ordered f visited visit.block := h.ordered _ (by rw [entering_enter henter]; exact List.mem_cons_self)
  have hwalked := h.walked
  rw [entering_enter henter] at hwalked
  have hnext := hwalked.next (nodeTree hv hcfg)
  have hchild : ∀ c ∈ cfg.children visit.block, Reached (flow f) f.entry c ∧
      ImmediatelyDominates (flow f) f.entry visit.block c := fun c hc =>
    (ht.parent _ _).mp ((ht.children _ _).mp hc)
  have hentering : entering (((cfg.children visit.block).map fun c => { block := c }) ++
      { visit with
        leave := true
        inserted := (numberBlock f s visit.block).2 } :: rest) = cfg.children visit.block ++ entering rest := by
    rw [entering_below, entering_leave rfl]
  have hseen : ∀ d, Visited visited visit.block (f.code visit.block).length d → d.block ∈ visited ++ [visit.block] := by
    intro d hd
    cases hd with
    | inl hmem => exact List.mem_append_left _ hmem
    | inr hsame => simp [hsame.1]
  refine ⟨hentering ▸ hnext, ?_, ?_, ?_, ?_⟩
  · rw [hentering]
    intro c hc
    have hfresh : c ∉ visited ++ [visit.block] := fun hmem => List.disjoint_of_nodup_append hnext.nodup hmem hc
    have hdominators : ∀ p, p ∈ visited ++ [visit.block] → ∀ a, Dominates (flow f) f.entry a p →
        a = p ∨ a ∈ visited ++ [visit.block] := by
      intro p hp a ha
      have hold : p = visit.block ∨ p ∈ visited := by
        simpa [or_comm] using hp
      exact (ho.dominators p hold a ha).imp_right (List.mem_append_left _)
    cases List.mem_append.mp hc with
    | inl hmem =>
        have himmediate := hchild c hmem
        refine ⟨hfresh, himmediate.1, ?_⟩
        intro p hp a ha
        cases hp with
        | inr hp => exact hdominators p hp a ha
        | inl heq =>
            rw [heq] at ha ⊢
            by_cases hsame : a = c
            · exact .inl hsame
            · have hnearest := himmediate.2.nearest a ⟨ha, hsame⟩
              cases ho.dominators visit.block (.inl rfl) a hnearest with
              | inl hblock => exact .inr (by simp [hblock])
              | inr hmem => exact .inr (List.mem_append_left _ hmem)
    | inr hmem =>
        have hold := h.ordered c (by rw [entering_enter henter]; exact List.mem_cons_of_mem _ hmem)
        refine ⟨hfresh, hold.reached, ?_⟩
        intro p hp a ha
        cases hp with
        | inr hp => exact hdominators p hp a ha
        | inl heq => exact (hold.dominators p (.inl heq) a ha).imp_right (List.mem_append_left _)
  · have hnested := List.pairwise_cons.mp h.nested
    rw [List.pairwise_append]
    refine ⟨?_, List.pairwise_cons.mpr ⟨hnested.1, hnested.2⟩, ?_⟩
    · rw [List.pairwise_map]
      exact List.pairwise_of_forall fun _ _ hfalse => nomatch hfalse
    · intro above habove below hbelow hleaves
      obtain ⟨c, hc, rfl⟩ := List.mem_map.mp habove
      have hdominates := (hchild c hc).2.strict.1
      cases List.mem_cons.mp hbelow with
      | inl heq => exact heq ▸ hdominates
      | inr hrest => exact (hnested.1 below hrest hleaves).trans hdominates
  · exact hprogress.sound.mono fun d hd => ⟨hd.1, hseen d hd.2⟩
  · intro K v hK
    obtain ⟨c, hc, hresult, hnames, hentered⟩ := hprogress.available K v hK
    refine ⟨c, hseen c hc, hresult, hnames, ?_⟩
    cases hentered with
    | inl hsame => exact ⟨_, List.mem_append_right _ List.mem_cons_self, rfl, hsame.1, hsame.2⟩
    | inr hframe =>
        obtain ⟨frame, hframe, hrest⟩ := hframe
        exact ⟨frame, List.mem_append_right _ (List.mem_cons_of_mem _ hframe), hrest⟩

/-- The aliases are sound wherever the walk ends. -/
theorem Walking.walk (hv : Verified f) (hcfg : flowAnalysis f = .ok cfg) (fuel : Nat) :
    ∀ {visited : List Nat} {stack : List Visit} {s : Numbering}, Walking f cfg visited stack s →
      Sound f (fun d => d ∈ f.sites) (walk f cfg.children fuel stack s).aliases := by
  induction fuel with
  | zero =>
      intro visited stack s h
      exact h.sound.mono fun _ hd => hd.1
  | succ fuel ih =>
      intro visited stack s h
      cases stack with
      | nil => exact h.sound.mono fun _ hd => hd.1
      | cons visit rest =>
          rw [ValueNumbering.walk]
          cases hleave : visit.leave with
          | true => exact ih (h.leave hleave)
          | false => exact ih (h.enter hv hcfg hleave)

theorem sound_numbered (hv : Verified f) (hcfg : flowAnalysis f = .ok cfg) :
    Sound f (fun d => d ∈ f.sites) (numbered f cfg) :=
  Walking.walk hv hcfg _ (Walking.start f cfg)

theorem walk_bound_from (ht : NodeTree cfg.children f.entry f.blocks.length) (more fuel : Nat) :
    ∀ {visited : List Nat} {stack : List Visit} {s : Numbering}, Walked cfg.children f.entry visited (entering stack) →
      2 * (f.blocks.length - visited.length) + (stack.filter Visit.leave).length ≤ fuel →
      ValueNumbering.walk f cfg.children (fuel + more) stack s = ValueNumbering.walk f cfg.children fuel stack s := by
  induction fuel with
  | zero =>
      intro visited stack s h hfuel
      cases stack with
      | nil => cases more <;> rfl
      | cons visit rest =>
          have hle := h.length_le ht
          cases hleave : visit.leave with
          | true =>
              rw [List.filter_cons_of_pos hleave, List.length_cons] at hfuel
              omega
          | false =>
              rw [entering_enter hleave, List.length_cons] at hle
              omega
  | succ fuel ih =>
      intro visited stack s h hfuel
      rw [Nat.succ_add]
      cases stack with
      | nil => rfl
      | cons visit rest =>
          rw [ValueNumbering.walk, ValueNumbering.walk]
          cases hleave : visit.leave with
          | true =>
              rw [List.filter_cons_of_pos hleave, List.length_cons] at hfuel
              exact ih (entering_leave hleave ▸ h) (by omega)
          | false =>
              have hle := h.length_le ht
              rw [entering_enter hleave] at h hle
              rw [List.length_cons] at hle
              rw [List.filter_cons_of_neg (by rw [hleave]; decide)] at hfuel
              have hnone : ∀ blocks : List Nat,
                  ((blocks.map fun c => ({ block := c } : Visit)).filter Visit.leave).length = 0 := by
                intro blocks
                induction blocks with
                | nil => rfl
                | cons c blocks _ => simp
              refine @ih (visited ++ [visit.block]) _ _ ?_ ?_
              · rw [entering_below, entering_leave rfl]
                exact h.next ht
              · rw [List.filter_append, List.filter_cons_of_pos rfl, List.length_append, List.length_append, List.length_cons,
                  hnone, List.length_cons, List.length_nil]
                omega

/-- The stack is empty before the bound is reached. -/
theorem walk_bound (hv : Verified f) (hcfg : flowAnalysis f = .ok cfg) (more : Nat) :
    ValueNumbering.walk f cfg.children (2 * f.blocks.length + more) [{ block := f.entry }] {} =
      ValueNumbering.walk f cfg.children (2 * f.blocks.length) [{ block := f.entry }] {} :=
  walk_bound_from (nodeTree hv hcfg) more _ .start (by simp)

end Stack

/-! ## The values -/

section Values

variable {W : Type} {perform : Perform W} {f g : Function} {aliases : Nat → Nat} {c d : Site} {K : Key} {env : Nat → Slot}
  {b k : Nat}

/-- The end of the alias chain of a value. -/
def root (f : Function) (aliases : Nat → Nat) (v : Nat) : Nat := (resolve aliases (f.valueCount + 1) v).getD 0

theorem Sound.aliased (h : Sound f (fun d => d ∈ f.sites) aliases) (hv : Verified f) (hd : d ∈ f.sites)
    (halias : aliases d.instruction.result ≠ 0) : ∃ c K, c.instruction.result = aliases d.instruction.result ∧
      Available f c d.block d.position ∧ Names f aliases d K ∧ Names f aliases c K := by
  obtain ⟨x, c, K, hx, _, hxresult, hcresult, havailable, hxnames, hcnames⟩ := h.expression _ halias
  have hsame : x = d := (site_unique hv hd hx (hxnames.result_ne_zero hv) hxresult.symm).symm
  rw [hsame] at havailable hxnames
  exact ⟨c, K, hcresult, havailable, hxnames, hcnames⟩

theorem aliased_of_sound (h : Sound f (fun d => d ∈ f.sites) aliases) (hv : Verified f) : Aliased f aliases := by
  intro d hd halias _
  obtain ⟨c, K, hcresult, havailable, -, hcnames⟩ := h.aliased hv hd halias
  exact ⟨c, hcnames.mem, hcresult, havailable⟩

theorem Names.computed (h : Names f aliases d K) : d.instruction.effect.isComputed = true := by
  have hshape := h.shape
  have hop := hshape.opcode
  simp only [resolved] at hop
  have hscalar : scalar d.instruction.type = true := hshape.scalar
  unfold Effect.isComputed Effect.isArithmetic Instruction.effect
  rcases hop with hop | hop | hop | hop | hop
  · simp [hop]
  · simp [hop, hscalar]
  · simp [hop, hscalar]
  · simp [hop.1, hscalar]
  · simp [hop.1, hscalar]

/-- The words of the operands are those of their roots. -/
theorem Names.words (h : Names f aliases d K) (hv : Verified f)
    (hroots : ∀ c ∈ f.sites, c.instruction.result ≠ 0 → Available f c d.block d.position →
      (env c.instruction.result).word = (env (root f aliases c.instruction.result)).word) :
    (resolved f aliases d.instruction).operandWords env = d.instruction.operandWords env := by
  unfold Instruction.operandWords resolved
  rw [List.map_map]
  apply List.map_congr_left
  intro v hmem
  have hr := reached_of_result hv h.mem (h.result_ne_zero hv)
  obtain ⟨c, -, hc, hcresult, hne, havailable⟩ := available_operand hv h.mem h.not_phi hr hmem
  have hword := hroots c hc (by rw [hcresult]; exact hne) havailable
  rw [hcresult] at hword
  exact hword.symm

/-- Sites with one name evaluate to one slot. -/
theorem Names.evaluate (hd : Names f aliases d K) (hc : Names f aliases c K) (hv : Verified f)
    (hdroots : ∀ x ∈ f.sites, x.instruction.result ≠ 0 → Available f x d.block d.position →
      (env x.instruction.result).word = (env (root f aliases x.instruction.result)).word)
    (hcroots : ∀ x ∈ f.sites, x.instruction.result ≠ 0 → Available f x c.block c.position →
      (env x.instruction.result).word = (env (root f aliases x.instruction.result)).word) (other other' : Int) :
    d.instruction.effect.evaluate (d.instruction.operandWords env) other =
      c.instruction.effect.evaluate (c.instruction.operandWords env) other' := by
  have hvalue := evaluate_of_key (shaped (hv.opcode d hd.mem)).resolved (shaped (hv.opcode c hc.mem)).resolved hd.shape
    hc.shape (hd.key.trans hc.key.symm) env other other'
  rw [hd.words hv hdroots, hc.words hv hcroots] at hvalue
  exact hvalue

/-- Values have the words of their roots. -/
theorem root_word (hv : Verified f) (hs : Sound f (fun d => d ∈ f.sites) aliases) (hr : Reached (flow f) f.entry b)
    (hknown : Asserted f Known env b k) (n : Nat) : ∀ d ∈ f.sites, d.instruction.result ≠ 0 → Available f d b k →
      (availableValues f d).card < n →
      (env d.instruction.result).word = (env (root f aliases d.instruction.result)).word := by
  induction n with
  | zero =>
      intro d _ _ _ hcard
      omega
  | succ n ih =>
      intro d hd hresult havailable hcard
      by_cases halias : aliases d.instruction.result = 0
      · unfold root
        rw [resolve, if_pos halias]
        rfl
      · obtain ⟨c, K, hcresult, hbefore, hdnames, hcnames⟩ := hs.aliased hv hd halias
        have hdr := havailable.dominates.reached hr
        have hcne := hcnames.result_ne_zero hv
        have hcavailable := hbefore.trans havailable hr
        have hless : ∀ x ∈ f.sites, x.instruction.result ≠ 0 → Available f x d.block d.position →
            (env x.instruction.result).word = (env (root f aliases x.instruction.result)).word := by
          intro x hx hxresult hxd
          have hlt := card_availableValues_lt hv hx hxresult hxd hdr
          exact ih x hx hxresult (hxd.trans havailable hr) (by omega)
        have hless' : ∀ x ∈ f.sites, x.instruction.result ≠ 0 → Available f x c.block c.position →
            (env x.instruction.result).word = (env (root f aliases x.instruction.result)).word :=
          fun x hx hxresult hxc => hless x hx hxresult (hxc.trans hbefore hdr)
        have hsame := hdnames.evaluate hcnames hv hless hless' (d.instruction.operandOther env) (c.instruction.operandOther env)
        rw [(hknown d hd hresult havailable).equation hdnames.computed,
          (hknown c hcnames.mem hcne hcavailable).equation hcnames.computed] at hsame
        have hend := (aliased_of_sound hs hv).resolve_alias hv hd hresult hdr halias
        have hroot : root f aliases d.instruction.result = root f aliases c.instruction.result := by
          unfold root
          rw [hend, hcresult]
        rw [hroot, ← hless c hcnames.mem hcne hbefore, Except.ok.inj hsame]

/-- Numbering is a substitution. -/
theorem Sound.substitution (hs : Sound f (fun d => d ∈ f.sites) aliases) (hv : Verified f) :
    Substitution perform f Known aliases id where
  asserts := known_preserved perform hv
  aliased := aliased_of_sound hs hv
  result _ := rfl
  plain := by
    intro d hd hchange
    have halias : aliases d.instruction.result ≠ 0 := hchange.resolve_right fun hne => hne rfl
    obtain ⟨c, K, -, -, hnames, -⟩ := hs.aliased hv hd halias
    exact ⟨hnames.result_ne_zero hv, hnames.shape.isPlain⟩
  equal := by
    intro d hd halias env hknown world
    obtain ⟨c, K, hcresult, hbefore, hdnames, hcnames⟩ := hs.aliased hv hd halias
    have hr := reached_of_result hv hd (hdnames.result_ne_zero hv)
    have hroots : ∀ x ∈ f.sites, x.instruction.result ≠ 0 → Available f x d.block d.position →
        (env x.instruction.result).word = (env (root f aliases x.instruction.result)).word :=
      fun x hx hxresult hxd => root_word hv hs hr hknown _ x hx hxresult hxd (Nat.lt_succ_self _)
    have hsame := hdnames.evaluate hcnames hv hroots (fun x hx hxresult hxc => hroots x hx hxresult (hxc.trans hbefore hr))
      (d.instruction.operandOther env) (c.instruction.operandOther env)
    rw [(hknown c hcnames.mem (hcnames.result_ne_zero hv) hbefore).equation hcnames.computed] at hsame
    refine ⟨env c.instruction.result, ?_, by rw [hcresult]⟩
    rw [produce_computed perform hdnames.computed, hsame]
    rfl
  constant := fun d _ hne => absurd rfl hne

theorem changed_id (f : Function) : f.changed id = f := by
  simp [Function.changed]

end Values

/-- A sum and its square, and under a condition both again with the operands of
the sum exchanged. -/
def squaredTwice : Function where
  name := "f"
  returnType := DivModFusion.signedWord
  entry := 0
  valueCount := 6
  blocks :=
    [{ id := 0
       instructions :=
        [{ opcode := .call
           type := DivModFusion.signedWord
           result := 1
           symbol := "x" },
          { opcode := .call
            type := DivModFusion.signedWord
            result := 2
            symbol := "y" },
          { opcode := .binary
            type := DivModFusion.signedWord
            result := 3
            operands := [1, 2]
            operation := "+" },
          { opcode := .binary
            type := DivModFusion.signedWord
            result := 4
            operands := [3, 3]
            operation := "*" },
          { opcode := .condBranch
            operands := [1]
            targets := [1, 2] }] },
      { id := 1
        instructions :=
        [{ opcode := .binary
           type := DivModFusion.signedWord
           result := 5
           operands := [2, 1]
           operation := "+" },
          { opcode := .binary
            type := DivModFusion.signedWord
            result := 6
            operands := [5, 5]
            operation := "*" },
          { opcode := .ret
            operands := [6] }] },
      { id := 2
        instructions :=
        [{ opcode := .ret
           operands := [4] }] }]

end Disco.IR.ValueNumbering
