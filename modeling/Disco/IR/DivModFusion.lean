import Disco.IR.FlowAnalysis
import Disco.IR.Rewrite
import Disco.Library.TreeWalk

/-! # Fusing quotients and remainders

`IRDivModFusion`: a division and a remainder of the same operands become one
pair and a projection from it, when the first of them dominates the second. The
first computes both components and stops at a zero divisor where it always did;
the second only selects.

The search for a partner gives up at a work limit and leaves the function as it
is by then, so whatever it has fused so far has to stand on its own.
-/

namespace Disco.IR.DivModFusion

open Library Verifier

def maxWork : Nat := 25000000
def maxPairs : Nat := 256

/-- `word`. -/
def isWord (type : Ty) : Bool :=
  decide (type.base = .word) && decide (type.pointerLevel = 0) && decide (type.arraySize = 0) &&
    decide (type.sizeInBytes = 2)

structure Position where
  block : Nat
  index : Nat
  deriving DecidableEq, Repr

/-- Where a value is defined. -/
def position (f : Function) (v : Nat) : Position :=
  ((f.site v).map fun d => ⟨d.block, d.position⟩).getD ⟨0, 0⟩

def isDivision (operation : String) : Bool := decide (operation = "/" ∨ operation = "%")

/-- Equal constants need not share an id. -/
def constantKey (i : Instruction) : Option (Bool × String × Int) :=
  if i.opcode = .constant ∧ isWord i.type = true then
    some (i.type.isUnsigned, i.type.enumName, convert i.immediate i.type)
  else none

def keyOf (f : Function) (v : Nat) : Option (Bool × String × Int) := (f.definition v).bind constantKey

/-- The first of the equal constants; of any other value the value itself. -/
def identity (f : Function) (v : Nat) : Nat :=
  if (keyOf f v).isSome then ((List.range' 1 v).find? fun w => keyOf f w == keyOf f v).getD v else v

abbrev Key := Nat × Nat × Bool × String

def key (f : Function) (i : Instruction) : Key :=
  (identity f (i.operands.getD 0 0), identity f (i.operands.getD 1 0), i.type.isUnsigned, i.type.enumName)

/-- The function as it is by now, and the divisions seen so far, newest first. -/
structure Fusion where
  function : Function
  available : List (Key × Position) := []
  work : Nat := 0
  pairs : Nat := 0

/-- The instruction at a position. -/
def Fusion.read (s : Fusion) (p : Position) : Instruction :=
  (s.function.code p.block)[p.index]?.getD {}

def setInstruction (f : Function) (p : Position) (i : Instruction) : Function :=
  { f with
    blocks := f.blocks.modify p.block fun b => { b with instructions := b.instructions.set p.index i } }

/-- The operands are words like the result. -/
def sameWords (i operand : Instruction) : Bool :=
  isWord operand.type && decide (operand.type.isUnsigned = i.type.isUnsigned) &&
    decide (operand.type.enumName = i.type.enumName)

/-- A literal divisor for which shifts, masks or a fault are selected. -/
def isCheapDivisor (d : Instruction) : Bool :=
  let magnitude := (convert d.immediate d.type).natAbs
  decide (d.opcode = .constant) && decide (magnitude = 0 ∨ magnitude &&& (magnitude - 1) = 0)

/-- A division that may be fused. -/
def isCandidate (f : Function) (s : Fusion) (i : Instruction) : Bool :=
  let dividend := s.read (position f (i.operands.getD 0 0))
  let divisor := s.read (position f (i.operands.getD 1 0))
  decide (i.opcode = .binary) && isDivision i.operation && isWord i.type &&
    decide (i.operands.length = 2) && sameWords i dividend && sameWords i divisor &&
    !isCheapDivisor divisor

/-- The newest division of the other kind that dominates, if there is one;
nothing at all once the work is used up. -/
def partner (cfg : FlowAnalysis) (b : Nat) (i : Instruction) :
    List Position → Fusion → Option (Fusion × Option Position)
  | [], s => some (s, none)
  | p :: rest, s =>
      if s.work + 1 > maxWork then none
      else
        let s := { s with work := s.work + 1 }
        let first := s.read p
        if first.operation = i.operation ∨ cfg.dominates p.block b = false then partner cfg b i rest s
        else if first.opcode = .binary ∧ s.pairs ≥ maxPairs then partner cfg b i rest s
        else some (s, some p)

/-- Make a pair of a division that is none yet. -/
def Fusion.pair (s : Fusion) (p : Position) : Fusion :=
  let first := s.read p
  if first.opcode = .binary then
    { s with
      function := setInstruction s.function p { first with opcode := .divMod }
      pairs := s.pairs + 1 }
  else s

/-- Select the other component of a pair. -/
def Fusion.project (s : Fusion) (here p : Position) : Fusion :=
  { s with
    function := setInstruction s.function here { s.read here with
      opcode := .divModResult
      operands := [(s.read p).result] } }

/-- One instruction; the failure carries the function as it is left. -/
def visit (f : Function) (cfg : FlowAnalysis) (b : Nat) (s : Fusion) (n : Nat) : Except Function Fusion :=
  let here : Position := ⟨b, n⟩
  let i := s.read here
  if isCandidate f s i = true then
    match partner cfg b i ((s.available.filter fun entry => entry.1 = key f i).map Prod.snd) s with
    | none => .error s.function
    | some (s, none) => .ok { s with available := (key f i, here) :: s.available }
    | some (s, some p) => .ok ((s.pair p).project here p)
  else .ok s

def visitBlock (f : Function) (cfg : FlowAnalysis) (s : Fusion) (b : Nat) : Except Function Fusion :=
  foldAll (visit f cfg b) s (List.range (s.function.code b).length)

def countPairs (f : Function) : Nat := f.instructions.countP fun i => i.opcode = .divMod

/-- `fuse`. -/
def fuse (f : Function) : Except String Function := do
  let cfg ← flowAnalysis f
  match foldAll (visitBlock f cfg) { function := f, pairs := countPairs f }
      (preorder cfg.children f.blocks.length [f.entry]) with
  | .ok s => pure s.function
  | .error g => pure g

def fuseAll : List Function → Except String (List Function)
  | [] => .ok []
  | f :: rest => do
      let g ← fuse f
      let others ← fuseAll rest
      pure (g :: others)

/-- `IRDivModFusion::run`. -/
def run (module : Module) : Except String Module := do
  verify module
  let functions ← fuseAll module.functions
  let result := { module with functions := functions }
  verify result
  pure result

/-! ## Constants with one identity -/

section Identity

variable {f : Function} {v w : Nat}

theorem keyOf_identity (h : (keyOf f v).isSome = true) : keyOf f (identity f v) = keyOf f v := by
  unfold identity
  rw [if_pos h]
  cases hfind : (List.range' 1 v).find? fun w => keyOf f w == keyOf f v with
  | none => rfl
  | some w => simpa using List.find?_some hfind

/-- Values with one identity are one value, or equal constants. -/
theorem identity_eq (h : identity f v = identity f w) :
    v = w ∨ ((keyOf f v).isSome = true ∧ keyOf f v = keyOf f w) := by
  by_cases hkey : (keyOf f v).isSome = true
  · have hleft := keyOf_identity hkey
    by_cases hkey' : (keyOf f w).isSome = true
    · exact .inr ⟨hkey, hleft.symm.trans ((congrArg (keyOf f) h).trans (keyOf_identity hkey'))⟩
    · have hsame : identity f w = w := if_neg hkey'
      rw [h, hsame] at hleft
      exact absurd (hleft ▸ hkey) hkey'
  · have hself : identity f v = v := if_neg hkey
    by_cases hkey' : (keyOf f w).isSome = true
    · have hright := keyOf_identity hkey'
      rw [← h, hself] at hright
      exact absurd (hright ▸ hkey') hkey
    · have hsame : identity f w = w := if_neg hkey'
      exact .inl (hself.symm.trans (h.trans hsame))

theorem isWord_eq {type : Ty} (h : isWord type = true) :
    type.base = .word ∧ type.pointerLevel = 0 ∧ type.arraySize = 0 := by
  simp only [isWord, Bool.and_eq_true, decide_eq_true_eq] at h
  exact ⟨h.1.1.1, h.1.1.2, h.1.2⟩

theorem scalar_of_isWord {type : Ty} (h : isWord type = true) : ScalarFold.scalar type = true := by
  have hword := isWord_eq h
  simp [ScalarFold.scalar, hword.1, hword.2.1, hword.2.2]

/-- Words of one signedness are reduced alike. -/
theorem convert_of_isWord {left right : Ty} (hl : isWord left = true) (hr : isWord right = true)
    (h : left.isUnsigned = right.isUnsigned) (value : Int) : convert value left = convert value right := by
  have hleft := isWord_eq hl
  have hright := isWord_eq hr
  simp [convert, hleft.1, hleft.2.1, hright.1, hright.2.1, h]

theorem word_of_keyOf {d : Site} {env : Nat → Slot} (hd : f.site v = some d) (hknown : Known d env)
    {known : Bool × String × Int} (h : keyOf f v = some known) : (env v).word = known.2.2 := by
  unfold keyOf at h
  rw [definition_of_site hd, Option.bind_some] at h
  have hresult := (of_site_eq_some hd).2
  unfold constantKey at h
  split at h
  · rename_i hconstant
    cases h
    have hcomputed : d.instruction.effect.isComputed = true := by
      simp [Effect.isComputed, Instruction.effect, hconstant.1]
    have hequation := hknown.equation hcomputed
    have hplain : d.instruction.effect.isArithmetic = false := by
      simp [Effect.isArithmetic, Instruction.effect, hconstant.1]
    unfold Effect.evaluate at hequation
    rw [hplain] at hequation
    simp only [Bool.false_eq_true, if_false, Instruction.effect, hconstant.1] at hequation
    rw [← hresult, ← Except.ok.inj hequation]
  · cases h

/-- Values with one identity have one word. -/
theorem words_of_identity {c d : Site} {env : Nat → Slot} (hc : f.site v = some c) (hd : f.site w = some d)
    (hcknown : Known c env) (hdknown : Known d env) (h : identity f v = identity f w) : (env v).word = (env w).word := by
  cases identity_eq h with
  | inl heq => rw [heq]
  | inr hkeys =>
      cases hkey : keyOf f v with
      | none =>
          rw [hkey] at hkeys
          cases hkeys.1
      | some known =>
          rw [word_of_keyOf hc hcknown hkey, word_of_keyOf hd hdknown (hkeys.2 ▸ hkey)]

end Identity

/-! ## Components -/

section Components

variable {W : Type} {perform : Perform W} {effect effect' : Effect} {arguments : List Int} {other : Int}
  {world : W} {slot : Slot}

/-- A quotient or remainder is the selected component. -/
theorem produce_division (hop : effect.opcode = .binary) (hd : isDivision effect.operation = true)
    (hw : isWord effect.type = true) : produce perform effect arguments other world =
      (divide effect (arguments.getD 0 0) (arguments.getD 1 0)).map fun slot =>
        ⟨{ word := slot.word }, world, []⟩ := by
  have harithmetic : effect.isArithmetic = true := by
    simp [Effect.isArithmetic, hop, scalar_of_isWord hw]
  unfold produce divide
  rw [if_pos harithmetic]
  unfold Arithmetic.compute Arithmetic.raw
  rw [hop]
  generalize arguments.getD 0 0 = a
  generalize arguments.getD 1 0 = b
  cases of_decide_eq_true hd with
  | inl hdivision =>
      rw [hdivision]
      by_cases hzero : b = 0
      · simp [Arithmetic.binary, hzero, Except.map]
      · simp [Arithmetic.binary, hzero, Except.map]
  | inr hremainder =>
      rw [hremainder]
      by_cases hzero : b = 0
      · simp [Arithmetic.binary, hzero, Except.map]
      · simp [Arithmetic.binary, hzero, Except.map]

/-- A pair computes both components. -/
theorem produce_pair (hop : effect.opcode = .divMod) : produce perform effect arguments other world =
    (divide effect (arguments.getD 0 0) (arguments.getD 1 0)).map fun slot => ⟨slot, world, []⟩ := by
  have harithmetic : effect.isArithmetic = false := by simp [Effect.isArithmetic, hop]
  unfold produce
  rw [harithmetic, hop]
  cases divide effect (arguments.getD 0 0) (arguments.getD 1 0) <;> rfl

theorem produce_projection (hop : effect.opcode = .divModResult) :
    produce perform effect arguments other world = .ok ⟨{ word := other }, world, []⟩ := by
  have harithmetic : effect.isArithmetic = false := by simp [Effect.isArithmetic, hop]
  unfold produce
  rw [harithmetic, hop]
  rfl

/-- The other kind of division selects the other component. -/
theorem divide_other {a b : Int} (hd : isDivision effect.operation = true)
    (hd' : isDivision effect'.operation = true) (hne : effect.operation ≠ effect'.operation)
    (htype : ∀ value, convert value effect.type = convert value effect'.type)
    (h : divide effect a b = .ok slot) : divide effect' a b = .ok ⟨slot.other, slot.word⟩ := by
  unfold divide at h ⊢
  by_cases hzero : b = 0
  · rw [if_pos hzero] at h
    cases h
  · rw [if_neg hzero] at h ⊢
    rw [← Except.ok.inj h]
    cases of_decide_eq_true hd with
    | inl hdivision =>
        have hremainder : effect'.operation = "%" := by
          cases of_decide_eq_true hd' with
          | inl heq => exact absurd (hdivision.trans heq.symm) hne
          | inr heq => exact heq
        simp [hdivision, hremainder, htype]
    | inr hremainder =>
        have hdivision : effect'.operation = "/" := by
          cases of_decide_eq_true hd' with
          | inl heq => exact heq
          | inr heq => exact absurd (hremainder.trans heq.symm) hne
        simp [hdivision, hremainder, htype]

end Components

/-! ## What a function becomes -/

/-- A division of words. -/
structure Divides (d : Site) : Prop where
  opcode : d.instruction.opcode = .binary
  division : isDivision d.instruction.operation = true
  word : isWord d.instruction.type = true
  operands : d.instruction.operands.length = 2

/-- The pair a division is made to. -/
def pairOf (i : Instruction) : Instruction := { i with opcode := .divMod }

/-- The projection a division is made to. -/
def projectionOf (i : Instruction) (pair : Nat) : Instruction :=
  { i with opcode := .divModResult, operands := [pair] }

def Paired (g : Function) (d : Site) : Prop :=
  Divides d ∧ (g.code d.block)[d.position]? = some (pairOf d.instruction)

/-- A division whose other component has been computed before. -/
structure Shares (f g : Function) (c d : Site) : Prop where
  mem : c ∈ f.sites
  divides : Divides d
  paired : Paired g c
  available : Available f c d.block d.position
  operation : c.instruction.operation ≠ d.instruction.operation
  key : key f c.instruction = key f d.instruction

inductive Became (f g : Function) (d : Site) : Instruction → Prop where
  | same : Became f g d d.instruction
  | pair (divides : Divides d) : Became f g d (pairOf d.instruction)
  | projection {c : Site} (shares : Shares f g c d) :
      Became f g d (projectionOf d.instruction c.instruction.result)

/-- Every instruction stands where it stood, as it was or fused. -/
structure Fused (f g : Function) : Prop where
  entry : g.entry = f.entry
  length : ∀ b, (g.code b).length = (f.code b).length
  became : ∀ d ∈ f.sites, ∃ i, (g.code d.block)[d.position]? = some i ∧ Became f g d i

section Shape

variable {f g h : Function} {p q : Position} {i j : Instruction} {c d : Site}

theorem Fused.refl (f : Function) : Fused f f where
  entry := rfl
  length _ := rfl
  became d hd := ⟨d.instruction, mem_sites.mp hd, .same⟩

theorem code_setInstruction (b : Nat) :
    (setInstruction f p i).code b = if b = p.block then (f.code b).set p.index i else f.code b := by
  unfold Function.code setInstruction
  rw [List.getElem?_modify]
  by_cases hb : b = p.block
  · subst hb
    cases f.blocks[p.block]? <;> simp
  · have hb' : p.block ≠ b := fun heq => hb heq.symm
    cases f.blocks[b]? <;> simp [hb, hb']

theorem length_setInstruction (b : Nat) :
    ((setInstruction f p i).code b).length = (f.code b).length := by
  rw [code_setInstruction]
  split <;> simp

theorem getElem?_setInstruction (hj : (f.code p.block)[p.index]? = some j) (b k : Nat) :
    ((setInstruction f p i).code b)[k]? =
      if b = p.block ∧ k = p.index then some i else (f.code b)[k]? := by
  have hlt := (List.getElem?_eq_some_iff.mp hj).1
  rw [code_setInstruction]
  by_cases hb : b = p.block
  · subst hb
    by_cases hk : k = p.index
    · subst hk
      simp [hlt]
    · have hk' : p.index ≠ k := fun heq => hk heq.symm
      simp [hk, hk']
  · simp [hb]

theorem Became.mono (hpaired : ∀ c ∈ f.sites, Paired g c → Paired h c) (hi : Became f g d i) :
    Became f h d i := by
  cases hi with
  | same => exact .same
  | pair divides => exact .pair divides
  | projection shares =>
      exact .projection { shares with paired := hpaired _ shares.mem shares.paired }

/-- Only what is no division any more has changed. -/
theorem Became.of_binary (hi : Became f g d i) (hop : i.opcode = .binary) : i = d.instruction := by
  cases hi with
  | same => rfl
  | pair divides => cases hop
  | projection shares => cases hop

theorem eq_of_position (hc : c ∈ f.sites) (hd : d ∈ f.sites) (hblock : c.block = d.block)
    (hposition : c.position = d.position) : c = d := by
  have hleft := mem_sites.mp hc
  have hright := mem_sites.mp hd
  rw [hblock, hposition, hright] at hleft
  cases c
  cases d
  cases hblock
  cases hposition
  cases Option.some.inj hleft
  rfl

end Shape

/-! ## The search -/

section Search

variable {f : Function} {cfg : FlowAnalysis} {b n : Nat} {i : Instruction} {s t : Fusion}
  {list : List Position} {found : Option Position}

/-- What the search for a partner may change, and what it finds. -/
structure Searched (cfg : FlowAnalysis) (b : Nat) (i : Instruction) (list : List Position) (s t : Fusion)
    (found : Option Position) : Prop where
  function : t.function = s.function
  available : t.available = s.available
  found : ∀ p, found = some p → p ∈ list ∧ (s.read p).operation ≠ i.operation ∧ cfg.dominates p.block b = true

theorem searched_of_partner (h : partner cfg b i list s = some (t, found)) :
    Searched cfg b i list s t found := by
  induction list generalizing s with
  | nil =>
      cases h
      exact ⟨rfl, rfl, fun p hp => nomatch hp⟩
  | cons p rest ih =>
      have hskip : ∀ u : Fusion, u.function = s.function → u.available = s.available →
          partner cfg b i rest u = some (t, found) → Searched cfg b i (p :: rest) s t found := by
        intro u hfunction havailable hu
        have hrest := ih hu
        have hread : ∀ q, u.read q = s.read q := by
          intro q
          unfold Fusion.read
          rw [hfunction]
        refine ⟨hrest.function.trans hfunction, hrest.available.trans havailable, ?_⟩
        intro q hq
        have hfound := hrest.found q hq
        rw [hread q] at hfound
        exact ⟨List.mem_cons_of_mem _ hfound.1, hfound.2⟩
      rw [partner] at h
      split at h
      · cases h
      · dsimp only at h
        split at h
        · exact hskip { s with work := s.work + 1 } rfl rfl h
        · rename_i hdiffers
          split at h
          · exact hskip { s with work := s.work + 1 } rfl rfl h
          · cases h
            refine ⟨rfl, rfl, ?_⟩
            intro q hq
            cases hq
            rw [not_or] at hdiffers
            exact ⟨List.mem_cons_self, hdiffers.1, by simpa using hdiffers.2⟩

/-- The blocks visited before, and how much of the current one. -/
structure Progress (f : Function) (seen : List Nat) (b n : Nat) (s : Fusion) : Prop where
  fused : Fused f s.function
  candidates : ∀ entry ∈ s.available, ∃ c ∈ f.sites, c.block = entry.2.block ∧ c.position = entry.2.index ∧
    Divides c ∧ entry.1 = key f c.instruction ∧ (c.block ∈ seen ∨ (c.block = b ∧ c.position < n)) ∧
    (s.read entry.2 = c.instruction ∨ s.read entry.2 = pairOf c.instruction)

theorem Fused.read (h : Fused f s.function) {d : Site} (hd : d ∈ f.sites) :
    (s.function.code d.block)[d.position]? = some (s.read ⟨d.block, d.position⟩) ∧
      Became f s.function d (s.read ⟨d.block, d.position⟩) := by
  obtain ⟨i, hi, hbecame⟩ := h.became d hd
  have hread : s.read ⟨d.block, d.position⟩ = i := by
    unfold Fusion.read
    rw [hi]
    rfl
  rw [hread]
  exact ⟨hi, hbecame⟩

/-- Two positions are rewritten: the pair and its projection. -/
theorem getElem?_fused (h : Fused f s.function) {c d : Site} (hc : c ∈ f.sites) (hd : d ∈ f.sites)
    (hread : s.read ⟨c.block, c.position⟩ = c.instruction ∨ s.read ⟨c.block, c.position⟩ = pairOf c.instruction)
    (hdivides : Divides c) (hself : s.read ⟨d.block, d.position⟩ = d.instruction) (hne : c ≠ d) (b k : Nat) :
    ((((s.pair ⟨c.block, c.position⟩).project ⟨d.block, d.position⟩ ⟨c.block, c.position⟩).function.code b)[k]?) =
      if b = d.block ∧ k = d.position then some (projectionOf d.instruction c.instruction.result)
      else if b = c.block ∧ k = c.position then some (pairOf c.instruction)
      else (s.function.code b)[k]? := by
  have hcget := (h.read hc).1
  have hdget := (h.read hd).1
  have hapart : ¬ (d.block = c.block ∧ d.position = c.position) :=
    fun heq => hne (eq_of_position hc hd heq.1.symm heq.2.symm)
  have hpair : ∀ b k, ((s.pair ⟨c.block, c.position⟩).function.code b)[k]? =
      if b = c.block ∧ k = c.position then some (pairOf c.instruction) else (s.function.code b)[k]? := by
    intro b k
    unfold Fusion.pair
    cases hread with
    | inl horiginal =>
        rw [horiginal] at hcget ⊢
        rw [if_pos hdivides.opcode]
        exact getElem?_setInstruction hcget b k
    | inr hpaired =>
        rw [hpaired] at hcget ⊢
        rw [if_neg (by simp [pairOf])]
        split
        · rename_i heq
          rw [heq.1, heq.2, hcget]
        · rfl
  have hread' : ∀ q : Position, (s.pair ⟨c.block, c.position⟩).read q =
      if q.block = c.block ∧ q.index = c.position then pairOf c.instruction else s.read q := by
    intro q
    unfold Fusion.read
    rw [hpair]
    split <;> rfl
  have hhere : ((s.pair ⟨c.block, c.position⟩).function.code d.block)[d.position]? =
      some d.instruction := by
    rw [hpair, if_neg hapart, hdget, hself]
  unfold Fusion.project
  rw [hread', hread', if_neg hapart, if_pos ⟨rfl, rfl⟩, hself]
  rw [getElem?_setInstruction hhere, hpair]
  rfl

theorem length_fused (s : Fusion) (here p : Position) (b : Nat) :
    (((s.pair p).project here p).function.code b).length = (s.function.code b).length := by
  unfold Fusion.project
  rw [length_setInstruction]
  unfold Fusion.pair
  dsimp only
  split
  · exact length_setInstruction b
  · rfl

theorem entry_fused (s : Fusion) (here p : Position) :
    ((s.pair p).project here p).function.entry = s.function.entry := by
  unfold Fusion.project Fusion.pair setInstruction
  dsimp only
  split <;> rfl

/-- Fusing a division with one that shares its operands. -/
theorem Fused.fuse (h : Fused f s.function) {c d : Site} (hc : c ∈ f.sites) (hd : d ∈ f.sites)
    (hread : s.read ⟨c.block, c.position⟩ = c.instruction ∨ s.read ⟨c.block, c.position⟩ = pairOf c.instruction)
    (hcdivides : Divides c) (hddivides : Divides d) (hself : s.read ⟨d.block, d.position⟩ = d.instruction)
    (havailable : Available f c d.block d.position)
    (hoperation : c.instruction.operation ≠ d.instruction.operation) (hkey : key f c.instruction = key f d.instruction) :
    Fused f ((s.pair ⟨c.block, c.position⟩).project ⟨d.block, d.position⟩ ⟨c.block, c.position⟩).function := by
  have hne : c ≠ d := by
    intro heq
    rw [heq] at hoperation
    exact hoperation rfl
  have hget := getElem?_fused h hc hd hread hcdivides hself hne
  have hkept : ∀ e ∈ f.sites, Paired s.function e → Paired
      ((s.pair ⟨c.block, c.position⟩).project ⟨d.block, d.position⟩ ⟨c.block, c.position⟩).function e := by
    intro e he hpaired
    refine ⟨hpaired.1, ?_⟩
    rw [hget]
    split
    · rename_i heq
      have hpair := hpaired.2
      rw [eq_of_position he hd heq.1 heq.2, (h.read hd).1, hself] at hpair
      have hop := congrArg Instruction.opcode (Option.some.inj hpair)
      rw [hddivides.opcode] at hop
      cases hop
    · split
      · rename_i heq
        rw [eq_of_position he hc heq.1 heq.2]
      · exact hpaired.2
  refine ⟨(entry_fused s _ _).trans h.entry, fun b => (length_fused s _ _ b).trans (h.length b), ?_⟩
  intro e he
  rw [hget]
  split
  · rename_i heq
    rw [eq_of_position he hd heq.1 heq.2]
    refine ⟨_, rfl, .projection ⟨hc, hddivides, ⟨hcdivides, ?_⟩, havailable, hoperation, hkey⟩⟩
    rw [hget, if_neg, if_pos ⟨rfl, rfl⟩]
    exact fun heq => hne (eq_of_position hc hd heq.1 heq.2)
  · split
    · rename_i heq
      rw [eq_of_position he hc heq.1 heq.2]
      exact ⟨_, rfl, .pair hcdivides⟩
    · obtain ⟨i, hi, hbecame⟩ := h.became e he
      exact ⟨i, hi, hbecame.mono hkept⟩

/-- Nothing but the function and the divisions seen counts. -/
theorem Progress.congr {seen : List Nat} (h : Progress f seen b n s) (hfunction : t.function = s.function)
    (havailable : t.available = s.available) : Progress f seen b n t := by
  have hread : ∀ p, t.read p = s.read p := by
    intro p
    unfold Fusion.read
    rw [hfunction]
  refine ⟨hfunction ▸ h.fused, ?_⟩
  intro entry hentry
  rw [havailable] at hentry
  rw [hread]
  exact h.candidates entry hentry

theorem Progress.next {seen : List Nat} (h : Progress f seen b n s) : Progress f seen b (n + 1) s where
  fused := h.fused
  candidates entry hentry := by
    obtain ⟨c, hc, hblock, hindex, hdivides, hkey, hbefore, hread⟩ := h.candidates entry hentry
    exact ⟨c, hc, hblock, hindex, hdivides, hkey, hbefore.imp_right (And.imp_right Nat.lt_succ_of_lt), hread⟩

theorem divides_of_isCandidate {d : Site} (h : isCandidate f s d.instruction = true) : Divides d := by
  simp only [isCandidate, Bool.and_eq_true, decide_eq_true_eq] at h
  exact ⟨h.1.1.1.1.1.1, h.1.1.1.1.1.2, h.1.1.1.1.2, h.1.1.1.2⟩

/-- A division without a partner is a candidate from then on. -/
theorem Progress.push {seen : List Nat} (h : Progress f seen b n s) {d : Site} (hd : d ∈ f.sites)
    (hblock : d.block = b) (hposition : d.position = n) (hdivides : Divides d) (hself : s.read ⟨b, n⟩ = d.instruction) :
    Progress f seen b (n + 1) { s with available := (key f d.instruction, ⟨b, n⟩) :: s.available } := by
  refine ⟨h.fused, ?_⟩
  intro entry hentry
  cases List.mem_cons.mp hentry with
  | inl hnew =>
      rw [hnew]
      exact ⟨d, hd, hblock, hposition, hdivides, rfl, .inr ⟨hblock, by omega⟩, .inl hself⟩
  | inr hold => exact h.next.candidates entry hold

/-- A division with a partner becomes a projection. -/
theorem Progress.fuse {seen : List Nat} (h : Progress f seen b n s) (hb : b ∉ seen) {d : Site} (hd : d ∈ f.sites)
    (hblock : d.block = b) (hposition : d.position = n) (hdivides : Divides d) (hself : s.read ⟨b, n⟩ = d.instruction)
    {p : Position} (hp : (key f d.instruction, p) ∈ s.available) (hoperation : (s.read p).operation ≠ d.instruction.operation)
    (hdominates : Dominates (flow f) f.entry p.block b) : Progress f seen b (n + 1) ((s.pair p).project ⟨b, n⟩ p) := by
  obtain ⟨c, hc, hcblock, hcindex, hcdivides, hkey, hbefore, hread⟩ := h.candidates _ hp
  dsimp only at hcblock hcindex hkey hread
  have hhere : (⟨b, n⟩ : Position) = ⟨d.block, d.position⟩ := by rw [hblock, hposition]
  have hthere : p = ⟨c.block, c.position⟩ := by rw [hcblock, hcindex]
  have hearlier : ∀ e : Site, (e.block ∈ seen ∨ (e.block = b ∧ e.position < n)) → e.block = d.block →
      e.position < d.position := by
    intro e hebefore hsame
    cases hebefore with
    | inl hseen => exact absurd (hblock ▸ hsame ▸ hseen) hb
    | inr hbehind => omega
  have havailable : Available f c d.block d.position := by
    refine ⟨?_, hearlier c hbefore⟩
    rw [hblock, hcblock]
    exact hdominates
  have hcoperation : c.instruction.operation ≠ d.instruction.operation := by
    cases hread with
    | inl heq => rwa [heq] at hoperation
    | inr heq => rwa [heq] at hoperation
  have hne : c ≠ d := by
    intro heq
    rw [heq] at hcoperation
    exact hcoperation rfl
  rw [hhere] at hself ⊢
  rw [hthere] at hread ⊢
  refine ⟨h.fused.fuse hc hd hread hcdivides hdivides hself havailable hcoperation hkey.symm, ?_⟩
  intro entry hentry
  have hold : entry ∈ s.available := by
    unfold Fusion.project Fusion.pair at hentry
    dsimp only at hentry
    split at hentry <;> exact hentry
  obtain ⟨e, he, heblock, heindex, hedivides, hekey, hebefore, heread⟩ := h.candidates entry hold
  refine ⟨e, he, heblock, heindex, hedivides, hekey, hebefore.imp_right (And.imp_right Nat.lt_succ_of_lt), ?_⟩
  have hplace : entry.2 = ⟨e.block, e.position⟩ := by rw [heblock, heindex]
  have hapart : ¬ (e.block = d.block ∧ e.position = d.position) := by
    intro hsame
    have hlt := hearlier e hebefore hsame.1
    omega
  rw [hplace] at heread ⊢
  unfold Fusion.read
  rw [getElem?_fused h.fused hc hd hread hcdivides hself hne, if_neg hapart]
  split
  · rename_i hsame
    rw [eq_of_position he hc hsame.1 hsame.2]
    exact .inr rfl
  · exact heread

/-- One instruction more. -/
theorem Progress.visit {seen : List Nat} (h : Progress f seen b n s) (ht : Textbook f cfg) (hb : b ∉ seen)
    (hn : n < (f.code b).length) :
    Ends (Progress f seen b (n + 1)) (Fused f) (visit f cfg b s n) := by
  have hd : (⟨b, n, (f.code b)[n]⟩ : Site) ∈ f.sites := mem_sites.mpr (List.getElem?_eq_getElem hn)
  generalize hsite : (⟨b, n, (f.code b)[n]⟩ : Site) = d at hd
  have hblock : d.block = b := by rw [← hsite]
  have hposition : d.position = n := by rw [← hsite]
  have hread := h.fused.read hd
  rw [hblock, hposition] at hread
  unfold DivModFusion.visit
  dsimp only
  by_cases hcandidate : isCandidate f s (s.read ⟨b, n⟩) = true
  · rw [if_pos hcandidate]
    have hop : (s.read ⟨b, n⟩).opcode = .binary := by
      simp only [isCandidate, Bool.and_eq_true, decide_eq_true_eq] at hcandidate
      exact hcandidate.1.1.1.1.1.1
    have hself := hread.2.of_binary hop
    rw [hself] at hcandidate ⊢
    have hdivides := divides_of_isCandidate hcandidate
    cases hpartner : partner cfg b d.instruction
        ((s.available.filter fun entry => entry.1 = key f d.instruction).map Prod.snd) s with
    | none => exact h.fused
    | some result =>
        have hsearched := searched_of_partner hpartner
        have hsame := h.congr hsearched.function hsearched.available
        have hread' : ∀ p, result.1.read p = s.read p := by
          intro p
          unfold Fusion.read
          rw [hsearched.function]
        cases hfound : result.2 with
        | none =>
            have hpushed := hsame.push hd hblock hposition hdivides ((hread' _).trans hself)
            cases result
            cases hfound
            exact hpushed
        | some p =>
            have hp := hsearched.found p hfound
            have hmem : (key f d.instruction, p) ∈ result.1.available := by
              rw [hsearched.available]
              simpa using hp.1
            have hdominates := ((ht.dominates _ _).mp hp.2.2).2
            have hfused := hsame.fuse hb hd hblock hposition hdivides ((hread' _).trans hself) hmem
              (by rw [hread']; exact hp.2.1) hdominates
            cases result
            cases hfound
            exact hfused
  · rw [if_neg hcandidate]
    exact h.next

/-- A block more. -/
theorem Progress.visitBlock {seen : List Nat} (h : Progress f seen b 0 s) (ht : Textbook f cfg) (hb : b ∉ seen) :
    Ends (fun t => ∀ c, Progress f (seen ++ [b]) c 0 t) (Fused f) (visitBlock f cfg s b) := by
  unfold DivModFusion.visitBlock
  rw [h.fused.length]
  have hend := foldAll_range_ends (Q := Fused f) (I := fun n t => Progress f seen b n t)
    (fun n hn t ht' => ht'.visit ht hb hn) h
  refine hend.mono fun t hlast c => ⟨hlast.fused, ?_⟩
  intro entry hentry
  obtain ⟨e, he, heblock, heindex, hedivides, hekey, hebefore, heread⟩ := hlast.candidates entry hentry
  refine ⟨e, he, heblock, heindex, hedivides, hekey, .inl ?_, heread⟩
  cases hebefore with
  | inl hseen => exact List.mem_append_left _ hseen
  | inr hbehind => simp [hbehind.1]

end Search

/-! ## The tree -/

/-- The stack is empty before the bound is reached. -/
theorem preorder_children {f : Function} {cfg : FlowAnalysis} (hv : Verified f) (h : flowAnalysis f = .ok cfg) (more : Nat) :
    preorder cfg.children (f.blocks.length + more) [f.entry] = preorder cfg.children f.blocks.length [f.entry] :=
  preorder_bound (nodeTree hv h) more

/-- However far it gets, `fuse` only fuses. -/
theorem fused_of_fuse {f g : Function} (hv : Verified f) (h : fuse f = .ok g) : Fused f g := by
  obtain ⟨cfg, hcfg, h⟩ := bind_eq_ok.mp h
  have ht := textbook_of_flowAnalysis hv hcfg
  have hnodup : (preorder cfg.children f.blocks.length [f.entry]).Nodup := preorder_nodup (nodeTree hv hcfg)
  have hstart : ∀ c, Progress f [] c 0 { function := f, pairs := countPairs f } :=
    fun c => ⟨.refl f, fun entry hentry => nomatch hentry⟩
  have hend := foldAll_ends_fresh (Q := Fused f) (I := fun seen s => ∀ c, Progress f seen c 0 s) hnodup
    (fun seen s b _ hb hs => (hs b).visitBlock ht hb) hstart
  split at h
  · rename_i s hs
    cases h
    rw [hs] at hend
    exact (hend 0).fused
  · rename_i g hg
    cases h
    rw [hg] at hend
    exact hend

/-! ## The values -/

section Values

variable {W : Type} {perform : Perform W} {f g : Function} {c d : Site} {i : Instruction} {e : Values}

def fusing (g : Function) : Thinning where
  emit d := (g.code d.block)[d.position]?
  rename := id

/-- Values stay; what is a pair now has the other component besides. -/
structure Fuses (g : Function) (d : Site) (env : Nat → Slot) (slot : Slot) : Prop where
  value : SameValue d env slot
  pair : Paired g d → divide d.instruction.effect ((d.instruction.operandWords env).getD 0 0)
    ((d.instruction.operandWords env).getD 1 0) = .ok slot

theorem Divides.not_phi (h : Divides d) : d.instruction.opcode ≠ .phi := by
  rw [h.opcode]
  decide

theorem Fused.emit (h : Fused f g) (hd : d ∈ f.sites) :
    ∃ i, (fusing g).emit d = some i ∧ Became f g d i := h.became d hd

theorem Fused.emit_became (h : Fused f g) (hd : d ∈ f.sites) (hemit : (fusing g).emit d = some i) : Became f g d i := by
  obtain ⟨j, hj, hbecame⟩ := h.emit hd
  rw [hemit] at hj
  cases hj
  exact hbecame

/-- What is no division stays as it is. -/
theorem Became.eq_self (h : Became f g d i) (hop : d.instruction.opcode ≠ .binary) : i = d.instruction := by
  cases h with
  | same => rfl
  | pair divides => exact absurd divides.opcode hop
  | projection shares => exact absurd shares.divides.opcode hop

theorem thins_fusing (h : Fused f g) : Thins (fusing g) f g := by
  refine ⟨h.entry, ?_, ?_⟩
  · intro b
    have hdrop : ∀ n k, (f.code b).length = n + k → (g.code b).drop k = (fusing g).behind f b k := by
      intro n
      induction n with
      | zero =>
          intro k hk
          have hnone : (f.codeSites b).drop k = [] := List.drop_eq_nil_of_le (by rw [length_codeSites]; omega)
          unfold Thinning.behind
          rw [hnone, List.drop_eq_nil_of_le (by rw [h.length]; omega)]
          rfl
      | succ n ih =>
          intro k hk
          have hlt : k < (f.code b).length := by omega
          have hi := List.getElem?_eq_getElem hlt
          obtain ⟨j, hj, -⟩ := h.became ⟨b, k, (f.code b)[k]⟩ (mem_sites.mpr hi)
          have hget := (List.getElem?_eq_some_iff.mp hj)
          rw [behind_some hi hj, ← ih (k + 1) (by omega), ← hget.2]
          exact List.drop_eq_getElem_cons hget.1
    exact hdrop (f.code b).length 0 rfl
  · intro d hd i hi
    cases h.emit_became hd hi with
    | same => exact Iff.rfl
    | pair divides => exact ⟨fun hop => (nomatch hop), fun hop => absurd hop divides.not_phi⟩
    | projection shares => exact ⟨fun hop => (nomatch hop), fun hop => absurd hop shares.divides.not_phi⟩

theorem fuses_local (hv : Verified f) (slot : Slot) : Local f fun d env => Fuses g d env slot := by
  intro d hd hresult hr env env' hsame h
  refine ⟨sameValue_local slot d hd hresult hr env env' hsame h.value, ?_⟩
  intro hpaired
  have hwords : d.instruction.operandWords env = d.instruction.operandWords env' :=
    operandWords_congr fun v hmem => hsame v (Settled.operand hv hd hpaired.1.not_phi hr hmem)
  rw [← hwords]
  exact h.pair hpaired

/-- The words of the operands are where they were. -/
theorem words_fusing (hv : Verified f) (hd : d ∈ f.sites) (hphi : d.instruction.opcode ≠ .phi)
    (hr : Reached (flow f) f.entry d.block) (h : Asserted f (Related (fusing g) Known (Fuses g)) e d.block d.position) :
    d.instruction.operandWords e.2 = d.instruction.operandWords e.1 := by
  apply List.map_congr_left
  intro v hmem
  obtain ⟨c, -, hc, hcresult, hne, havailable⟩ := available_operand hv hd hphi hr hmem
  have hvalue := (h c hc (by rw [hcresult]; exact hne) havailable).2.value.1
  rw [hcresult] at hvalue
  exact hvalue

theorem words_update (hv : Verified f) (hd : d ∈ f.sites) (hphi : d.instruction.opcode ≠ .phi)
    (hr : Reached (flow f) f.entry d.block) (hresult : d.instruction.result ≠ 0) (env : Nat → Slot) (slot : Slot) :
    d.instruction.operandWords (Function.update env d.instruction.result slot) = d.instruction.operandWords env :=
  operandWords_congr fun _ hmem => Function.update_of_ne (operand_ne_result hv hd hphi hr hmem hresult) _ _

/-- The word of an operand, and what is known of its definition. -/
theorem operand_known (hv : Verified f) (hd : Divides d) (hmem : d ∈ f.sites) (hr : Reached (flow f) f.entry d.block)
    {b k : Nat} (hbefore : d.block = b ∧ d.position = k ∨ Available f d b k) (hrb : Reached (flow f) f.entry b)
    (h : Asserted f (Related (fusing g) Known (Fuses g)) e b k) {n : Nat} (hn : n < 2) :
    ∃ c, f.site (d.instruction.operands.getD n 0) = some c ∧ Known c e.1 ∧
      (d.instruction.operandWords e.1).getD n 0 = (e.1 (d.instruction.operands.getD n 0)).word := by
  have hlt : n < d.instruction.operands.length := by rw [hd.operands]; exact hn
  have hoperand : d.instruction.operands.getD n 0 ∈ d.instruction.operands := by
    rw [List.getD_eq_getElem _ _ hlt]
    exact List.getElem_mem hlt
  obtain ⟨c, hsite, hc, hcresult, hne, havailable⟩ := available_operand hv hmem hd.not_phi hr hoperand
  have hthere : Available f c b k := by
    cases hbefore with
    | inl heq => rw [← heq.1, ← heq.2]; exact havailable
    | inr hd' => exact havailable.trans hd' hrb
  refine ⟨c, hsite, (h c hc (by rw [hcresult]; exact hne) hthere).1, ?_⟩
  unfold Instruction.operandWords
  simp [List.getD_eq_getElem?_getD, List.getElem?_map, List.getElem?_eq_getElem hlt]

theorem key_eq (h : key f c.instruction = key f d.instruction) :
    (identity f (c.instruction.operands.getD 0 0) = identity f (d.instruction.operands.getD 0 0) ∧
      identity f (c.instruction.operands.getD 1 0) = identity f (d.instruction.operands.getD 1 0)) ∧
    c.instruction.type.isUnsigned = d.instruction.type.isUnsigned := by
  simp only [key, Prod.mk.injEq] at h
  exact ⟨⟨h.1, h.2.1⟩, h.2.2.1⟩

/-- What the pair has computed for a division that shares it. -/
theorem Shares.divide (h : Shares f g c d) (hv : Verified f) (hd : d ∈ f.sites)
    (hr : Reached (flow f) f.entry d.block)
    (hasserted : Asserted f (Related (fusing g) Known (Fuses g)) e d.block d.position) :
    divide d.instruction.effect ((d.instruction.operandWords e.1).getD 0 0) ((d.instruction.operandWords e.1).getD 1 0) =
      .ok ⟨(e.2 c.instruction.result).other, (e.2 c.instruction.result).word⟩ := by
  have hcr := h.available.dominates.reached hr
  have hcresult : c.instruction.result ≠ 0 := by
    obtain ⟨_, -, hscanned⟩ := hv.scanned h.mem
    apply hscanned.produces.mp
    unfold Instruction.producesValue
    rw [h.paired.1.opcode]
    rfl
  have hpair := (hasserted c h.mem hcresult h.available).2.pair h.paired
  have hkey := key_eq h.key
  have hwords : ∀ n, n < 2 → identity f (c.instruction.operands.getD n 0) = identity f (d.instruction.operands.getD n 0) →
      (c.instruction.operandWords e.1).getD n 0 = (d.instruction.operandWords e.1).getD n 0 := by
    intro n hn hidentity
    obtain ⟨l, hl, hlknown, hlword⟩ := operand_known hv h.paired.1 h.mem hcr (.inr h.available) hr hasserted hn
    obtain ⟨r, hr', hrknown, hrword⟩ := operand_known hv h.divides hd hr (.inl ⟨rfl, rfl⟩) hr hasserted hn
    rw [hlword, hrword]
    exact words_of_identity hl hr' hlknown hrknown hidentity
  rw [hwords 0 (by decide) hkey.1.1, hwords 1 (by decide) hkey.1.2] at hpair
  exact divide_other h.paired.1.division h.divides.division h.operation
    (convert_of_isWord h.paired.1.word h.divides.word hkey.2) hpair

/-- Every instruction is answered by what it became. -/
theorem Fused.answers (h : Fused f g) (hv : Verified f) (hd : d ∈ f.sites) (hphi : d.instruction.opcode ≠ .phi)
    (hr : Reached (flow f) f.entry d.block) (hemit : (fusing g).emit d = some i)
    (hasserted : Asserted f (Related (fusing g) Known (Fuses g)) e d.block d.position) :
    Answers perform (fusing g) (Fuses g) d i e := by
  have hwords := words_fusing hv hd hphi hr hasserted
  have hbinary : d.instruction.opcode = .binary → isTerminatorOpcode d.instruction.opcode = false ∧
      isLoopOpcode d.instruction.opcode = false := by
    intro hop
    rw [hop]
    exact ⟨rfl, rfl⟩
  cases h.emit_became hd hemit with
  | same =>
      refine ⟨rfl, rfl, fun hzero => hzero, fun hne => ⟨hne, rfl⟩, fun _ => ⟨rfl, rfl, rfl, hwords⟩, ?_⟩
      intro _ world
      have hother : d.instruction.effect.opcode = .divModResult →
          d.instruction.operandOther e.2 = d.instruction.operandOther e.1 := by
        intro hop
        obtain ⟨v, pair, hshape, hpair, hpresult, hpop, -⟩ := divModResult_shape hv hd hop
        have hoperand : v ∈ d.instruction.operands := by
          rw [hshape]
          exact List.mem_singleton_self v
        obtain ⟨c, -, hc, hcresult, hne, havailable⟩ := available_operand hv hd hphi hr hoperand
        have hpne : pair.instruction.result ≠ 0 := by
          rw [hpresult]
          exact hne
        rw [site_unique hv hc hpair hpne (hcresult.trans hpresult.symm)] at havailable
        have hsecond := (hasserted pair hpair hpne havailable).2.value.2 hpop
        unfold Instruction.operandOther
        rw [hshape, List.getD_cons_zero, ← hpresult]
        exact hsecond
      rw [hwords, produce_other hother]
      cases produce perform d.instruction.effect (d.instruction.operandWords e.1) (d.instruction.operandOther e.1) world with
      | error halt => exact rfl
      | ok p =>
          refine ⟨rfl, rfl, fun _ => ⟨?_, ?_⟩⟩
          · unfold SameValue
            rw [Function.update_self]
            exact ⟨rfl, fun _ => rfl⟩
          · intro hpaired
            have hsame : d.instruction = pairOf d.instruction := Option.some.inj (hemit.symm.trans hpaired.2)
            have hop := congrArg Instruction.opcode hsame
            rw [hpaired.1.opcode] at hop
            cases hop
  | pair divides =>
      have hplain := hbinary divides.opcode
      refine ⟨hplain.1.symm, hplain.2.symm, fun hzero => hzero, fun hne => ⟨hne, rfl⟩, ?_, ?_⟩
      · intro hcontrol
        rw [hplain.1, hplain.2] at hcontrol
        simp at hcontrol
      · intro _ world
        have hwords' : (pairOf d.instruction).operandWords e.2 = d.instruction.operandWords e.1 := hwords
        rw [hwords', produce_division divides.opcode divides.division divides.word,
          produce_pair rfl]
        have hdivide : ∀ a b, IR.divide (pairOf d.instruction).effect a b = IR.divide d.instruction.effect a b := fun _ _ => rfl
        rw [hdivide]
        cases hslot : IR.divide d.instruction.effect ((d.instruction.operandWords e.1).getD 0 0)
            ((d.instruction.operandWords e.1).getD 1 0) with
        | error halt => exact rfl
        | ok slot =>
            refine ⟨rfl, rfl, fun hresult => ⟨?_, fun _ => ?_⟩⟩
            · unfold SameValue
              rw [Function.update_self]
              exact ⟨rfl, fun hop => by rw [divides.opcode] at hop; cases hop⟩
            · rw [words_update hv hd hphi hr hresult]
              exact hslot
  | projection shares =>
      have hplain := hbinary shares.divides.opcode
      refine ⟨hplain.1.symm, hplain.2.symm, fun hzero => hzero, fun hne => ⟨hne, rfl⟩, ?_, ?_⟩
      · intro hcontrol
        rw [hplain.1, hplain.2] at hcontrol
        simp at hcontrol
      · intro _ world
        rw [produce_division shares.divides.opcode shares.divides.division
          shares.divides.word, shares.divide hv hd hr hasserted, produce_projection rfl]
        refine ⟨rfl, rfl, fun hresult => ⟨?_, fun hpaired => ?_⟩⟩
        · unfold SameValue
          rw [Function.update_self]
          exact ⟨rfl, fun hop => absurd (hop.symm.trans shares.divides.opcode) (by decide)⟩
        · have hsame := Option.some.inj (hemit.symm.trans hpaired.2)
          have hop := congrArg Instruction.opcode hsame
          cases hop

/-- Fusing is faithful. -/
theorem Fused.faithful (h : Fused f g) (hv : Verified f) : Faithful perform (fusing g) f g Known (Fuses g) where
  thins := thins_fusing h
  asserts := known_preserved perform hv
  localized := fuses_local hv
  apart := by
    intro here hhere d hd _ hresult _ _ _ hsettles heq
    exact hsettles (.inl (site_unique hv hhere hd hresult heq.symm))
  distinct := by
    intro c hc d hd _ hresult _ _ heq
    exact site_unique hv hc hd hresult heq
  keeps := by
    intro here hhere hphi hr i hemit e hasserted
    exact h.answers hv hhere hphi hr hemit hasserted
  drops := by
    intro here hhere _ _ hemit
    obtain ⟨i, hi, -⟩ := h.emit hhere
    rw [hemit] at hi
    cases hi
  results := by
    intro phi hphi hop i hemit
    have hself := (h.emit_became hphi hemit).eq_self (by rw [hop]; decide)
    rw [hself]
    rfl
  selects := by
    intro a phi hphi hop hr hedge i hemit e hasserted
    have hself := (h.emit_became hphi hemit).eq_self (by rw [hop]; decide)
    obtain ⟨c, -, hc, hcresult, hne, havailable, -⟩ := available_incoming hv hphi hop hedge
    have hword := (hasserted c hc (by rw [hcresult]; exact hne) havailable).2.value.1
    rw [hcresult] at hword
    have hselected := selectPhis_self hv hphi hop (phi_result_ne_zero hv hphi hop) a e.1
    refine ⟨⟨?_, fun hdiv => by rw [hop] at hdiv; cases hdiv⟩, fun hpaired => absurd hop hpaired.1.not_phi⟩
    rw [hselected, hself]
    exact hword
  forgets := by
    intro phi hphi _ hemit
    obtain ⟨i, hi, -⟩ := h.emit hphi
    rw [hemit] at hi
    cases hi

end Values

/-! ## The whole module -/

theorem fuseAll_sound {m : Module} (h : verify m = .ok ()) {functions fused : List Function}
    (hsub : ∀ f ∈ functions, f ∈ m.functions) (hfuse : fuseAll functions = .ok fused) :
    List.Forall₂ (fun f g => ∀ (W : Type) (perform : Perform W) (world : W),
      Machine.SameBehavior (machine perform g) (machine perform f) (start g world) (start f world)) functions fused := by
  induction functions generalizing fused with
  | nil =>
      cases hfuse
      exact .nil
  | cons f rest ih =>
      obtain ⟨g, hg, hfuse⟩ := bind_eq_ok.mp hfuse
      obtain ⟨others, hothers, hfuse⟩ := bind_eq_ok.mp hfuse
      cases hfuse
      have hfunction := verifyFunction_of_verify h (hsub f List.mem_cons_self)
      have hv := verified_of_verifyFunction hfunction
      obtain ⟨hl, scopes, hs⟩ := scoped_of_verifyFunction hfunction
      refine .cons ?_ (ih (fun x hx => hsub x (List.mem_cons_of_mem _ hx)) hothers)
      intro W perform world
      exact ((fused_of_fuse hv hg).faithful hv).sameBehavior hv hl hs world

/-- The pass keeps the behavior of every function, and what it makes is valid. -/
theorem run_sound {m m' : Module} (h : run m = .ok m') : verify m' = .ok () ∧
    List.Forall₂ (fun f g => ∀ (W : Type) (perform : Perform W) (world : W),
      Machine.SameBehavior (machine perform g) (machine perform f) (start g world) (start f world))
      m.functions m'.functions := by
  obtain ⟨_, hm, h⟩ := bind_eq_ok.mp h
  obtain ⟨fused, hfused, h⟩ := bind_eq_ok.mp h
  obtain ⟨_, hm', h⟩ := bind_eq_ok.mp h
  cases h
  exact ⟨hm', fuseAll_sound hm (fun _ hf => hf) hfused⟩

def signedWord : Ty := { base := .word
                         sizeInBytes := 2 }

/-- `x / y`, and `x % y` under a condition. -/
def quotientRemainder : Function where
  name := "f"
  returnType := signedWord
  entry := 0
  valueCount := 4
  blocks :=
    [{ id := 0
       instructions :=
        [{ opcode := .call
           type := signedWord
           result := 1
           symbol := "x" },
          { opcode := .call
            type := signedWord
            result := 2
            symbol := "y" },
          { opcode := .binary
            type := signedWord
            result := 3
            operands := [1, 2]
            operation := "/" },
          { opcode := .condBranch
            operands := [3]
            targets := [1, 2] }] },
      { id := 1
        instructions :=
        [{ opcode := .binary
           type := signedWord
           result := 4
           operands := [1, 2]
           operation := "%" },
          { opcode := .ret
            operands := [4] }] },
      { id := 2
        instructions :=
        [{ opcode := .ret
           operands := [3] }] }]

def fusedQuotientRemainder : Function :=
  setInstruction
    (setInstruction quotientRemainder ⟨0, 2⟩
      { opcode := .divMod
        type := signedWord
        result := 3
        operands := [1, 2]
        operation := "/" })
    ⟨1, 0⟩
    { opcode := .divModResult
      type := signedWord
      result := 4
      operands := [3]
      operation := "%" }

/-- The remainder is read off the pair of the quotient. -/
theorem run_sound_quotientRemainder :
    run { functions := [quotientRemainder] } = .ok { functions := [fusedQuotientRemainder] } ∧
    verify { functions := [fusedQuotientRemainder] } = .ok () ∧
    List.Forall₂ (fun f g => ∀ (W : Type) (perform : Perform W) (world : W),
      Machine.SameBehavior (machine perform g) (machine perform f) (start g world) (start f world))
      [quotientRemainder] [fusedQuotientRemainder] := by
  have hrun : run { functions := [quotientRemainder] } = .ok { functions := [fusedQuotientRemainder] } := by
    decide +kernel
  exact ⟨hrun, run_sound hrun⟩

end Disco.IR.DivModFusion
