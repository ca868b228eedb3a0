import Disco.IR.Facts
import Disco.IR.Rewrite

/-! # Simplification by facts

`simplifyFacts`: rounds over all instructions narrow the facts from what the
types say; then a pure instruction whose fact leaves one value becomes that
constant, and a conjunction or disjunction whose constant changes no unknown bit
becomes its other operand.
-/

namespace Disco.IR

open Library Verifier ScalarFold

/-- `pure`: no memory, no fault, scalar operands and result. -/
def isPure (f : Function) (i : Instruction) : Bool :=
  scalar i.type && !i.memoryVolatile && !i.isLiveRangeSplit &&
    i.operands.all (fun v => scalar (f.typeOf v)) &&
    match i.opcode with
    | .constant | .cast | .bitExtract => true
    | .unary => decide (i.operation = "-" ∨ i.operation = "~" ∨ i.operation = "!")
    | .binary =>
        if i.operation = "/" ∨ i.operation = "%" then false
        else if i.operation = "<<" ∨ i.operation = ">>" then
          (f.definition (i.operands.getD 1 0)).any fun count =>
            decide (count.opcode = .constant ∧ 0 ≤ count.immediate ∧ count.immediate < 16)
        else true
    | _ => false

/-- `same`: scalar types of one representation. -/
def same (a b : Ty) : Bool :=
  scalar a && scalar b && decide (a.base = b.base ∧ a.sizeInBytes = b.sizeInBytes ∧
    a.isUnsigned = b.isUnsigned ∧ a.enumName = b.enumName)

/-! ## The rounds -/

def initialFacts (f : Function) : Nat → Fact := fun v =>
  if scalar (f.typeOf v) then Fact.unknown (f.typeOf v) else {}

/-- One instruction of a round, and whether a fact changed. -/
def deriveNext (f : Function) (entry : (Nat → Fact) × Bool) (i : Instruction) : (Nat → Fact) × Bool :=
  if i.result = 0 ∨ scalar i.type = false then entry
  else
    let next := derive f entry.1 i
    if entry.1 i.result = next then entry else (Function.update entry.1 i.result next, true)

def deriveRound (f : Function) (facts : Nat → Fact) : (Nat → Fact) × Bool :=
  f.instructions.foldl (deriveNext f) (facts, false)

/-- Rounds up to a bound or the first one that changes nothing. -/
def deriveRounds (f : Function) : Nat → (Nat → Fact) → Nat → Fact
  | 0, facts => facts
  | rounds + 1, facts =>
      let round := deriveRound f facts
      if round.2 then deriveRounds f rounds round.1 else round.1

/-- The facts behind a number of rounds. -/
def roundFacts (f : Function) (rounds : Nat) : Nat → Fact := deriveRounds f rounds (initialFacts f)

def simplifyRounds : Nat := 24

/-! ## The replacements -/

/-- The value a fact leaves. -/
def Fact.pinned (fact : Fact) (type : Ty) : Option Int :=
  if fact.low = fact.high then some fact.low
  else if fact.zero ||| fact.one = Fact.mask type then some (convert fact.one.toNat type)
  else none

/-- The constant that replaces an instruction. -/
def pinnedValue (f : Function) (facts : Nat → Fact) (i : Instruction) : Option Int :=
  if i.result ≠ 0 ∧ isPure f i = true then (facts i.result).pinned i.type else none

def pin (f : Function) (facts : Nat → Fact) (i : Instruction) : Instruction :=
  match pinnedValue f facts i with
  | some value => { i with
      opcode := .constant
      immediate := value
      operands := []
      operation := "" }
  | none => i

/-- Whether the constant `c` leaves `other` as it is. -/
def absorbs (f : Function) (facts : Nat → Fact) (i : Instruction) (other c : Nat) : Bool :=
  same i.type (f.typeOf other) && (f.definition c).any fun d =>
    let bits := BitVec.ofInt 32 d.immediate &&& Fact.mask i.type
    decide (d.opcode = .constant) &&
      if i.operation = "&" then decide (Fact.mask i.type &&& ~~~(facts other).zero &&& ~~~bits = 0)
      else decide (bits &&& ~~~(facts other).one = 0)

/-- The operand a conjunction or disjunction is the same as; zero for none. -/
def absorbedOperand (f : Function) (facts : Nat → Fact) (i : Instruction) : Nat :=
  let left := i.operands.getD 0 0
  let right := i.operands.getD 1 0
  if i.result ≠ 0 ∧ isPure f i = true ∧ pinnedValue f facts i = none ∧ i.opcode = .binary ∧
      (i.operation = "&" ∨ i.operation = "|") then
    if absorbs f facts i left right then left else if absorbs f facts i right left then right else 0
  else 0

def absorbedBy (f : Function) (facts : Nat → Fact) (v : Nat) : Nat :=
  ((f.definition v).map (absorbedOperand f facts)).getD 0

/-- `simplifyFacts`, with any number of rounds. -/
def simplifyWithin (rounds : Nat) (f : Function) : Option Function :=
  let facts := roundFacts f rounds
  rewrite (f.changed (pin f facts)) (absorbedBy f facts)

def simplifyFacts (f : Function) : Option Function := simplifyWithin simplifyRounds f

/-! ## The type discipline of the lowerer -/

/-- Arithmetic on operands of the type of its first one, and no complement of a
boolean. -/
structure LoweredTypes (f : Function) : Prop where
  binary : ∀ d ∈ f.sites, d.instruction.opcode = .binary →
    Fact.BinaryTyped d.instruction.operation (f.typeOf (d.instruction.operands.getD 0 0))
      d.instruction.type
  complement : ∀ d ∈ f.sites, d.instruction.opcode = .unary → d.instruction.operation = "~" →
    d.instruction.type.base ≠ .bool

/-! ## One instruction -/

section Derive

variable {f : Function} {d : Site} {env : Nat → Slot} {facts : Nat → Fact}

/-- The operands have values their facts admit. -/
def OperandsAdmitted (f : Function) (facts : Nat → Fact) (i : Instruction) (env : Nat → Slot) : Prop :=
  ∀ v ∈ i.operands, scalar (f.typeOf v) = true → Fits (env v).word (f.typeOf v) ∧
    Fact.Admits (facts v) (f.typeOf v) (env v).word

theorem getD_operandWords {i : Instruction} {n : Nat} (hn : n < i.operands.length) :
    (i.operandWords env).getD n 0 = (env (i.operands.getD n 0)).word := by
  unfold Instruction.operandWords
  simp only [List.getD_eq_getElem?_getD, List.getElem?_map, List.getElem?_eq_getElem hn, Option.map_some,
    Option.getD_some]

theorem getD_mem {operands : List Nat} {n : Nat} (hn : n < operands.length) :
    operands.getD n 0 ∈ operands := by
  rw [List.getD_eq_getElem _ _ hn]
  exact List.getElem_mem hn

/-- The value of an arithmetic instruction. -/
theorem arithmetic_word (h : Equation d env) (harithmetic : d.instruction.effect.isArithmetic = true) :
    ∃ result, Arithmetic.raw d.instruction.effect ((d.instruction.operandWords env).getD 0 0)
      ((d.instruction.operandWords env).getD 1 0) = .ok result ∧
      (env d.instruction.result).word = convert result d.instruction.type := by
  have hcomputed : d.instruction.effect.isComputed = true := by
    unfold Effect.isComputed
    rw [harithmetic, Bool.true_or]
  have hvalue := h hcomputed
  unfold Effect.evaluate Arithmetic.compute at hvalue
  rw [if_pos harithmetic] at hvalue
  cases hraw : Arithmetic.raw d.instruction.effect ((d.instruction.operandWords env).getD 0 0)
      ((d.instruction.operandWords env).getD 1 0) with
  | error trap =>
      rw [hraw] at hvalue
      cases hvalue
  | ok result =>
      rw [hraw] at hvalue
      refine ⟨result, rfl, ?_⟩
      rw [← Except.ok.inj hvalue]
      rfl

/-- The fact that is derived admits the value of the instruction. -/
theorem derive_admits (hv : Verified f) (ht : LoweredTypes f) (hd : d ∈ f.sites)
    (hphi : d.instruction.opcode ≠ .phi) (hs : scalar d.instruction.type = true)
    (hknown : Known d env) (hoperands : OperandsAdmitted f facts d.instruction env) :
    Fact.Admits (derive f facts d.instruction) d.instruction.type (env d.instruction.result).word := by
  have hfits := (hknown.ranged hs).1
  have hcheck := hv.opcode d hd
  unfold checkOpcode at hcheck
  unfold derive
  split
  · rename_i hop
    have hvalue := hknown.equation (by unfold Effect.isComputed Instruction.effect; rw [hop]; simp)
    unfold Effect.evaluate Effect.isArithmetic Instruction.effect at hvalue
    rw [hop] at hvalue
    rw [← Except.ok.inj hvalue]
    exact Fact.literal_admits hs _
  · rename_i hop
    exact absurd hop hphi
  · rename_i hconstant _
    split
    · exact Fact.unknown_admits' hs hfits
    rename_i hscalars
    simp only [not_or, not_exists, not_and, Bool.not_eq_false] at hscalars
    rcases hscalars with ⟨hsome, hscalar⟩
    have hlength : 0 < d.instruction.operands.length := List.length_pos_of_ne_nil hsome
    have hfirst := hscalar _ (getD_mem hlength)
    rcases hoperands _ (getD_mem hlength) hfirst with ⟨hfits₁, hadmits₁⟩
    have hword₁ := @getD_operandWords env d.instruction 0 hlength
    have harithmetic : ∀ opcode, (opcode = .binary ∨ opcode = .unary ∨ opcode = .cast ∨ opcode = .bitExtract) →
        d.instruction.opcode = opcode → d.instruction.effect.isArithmetic = true := by
      intro opcode hkind hop
      unfold Effect.isArithmetic Instruction.effect
      rw [hs, Bool.and_true, decide_eq_true_eq, hop]
      exact hkind
    dsimp only
    by_cases hcast : d.instruction.opcode = .cast
    · obtain ⟨result, hraw, hvalue⟩ := arithmetic_word hknown.equation (harithmetic _ (by simp) hcast)
      unfold Arithmetic.raw Instruction.effect at hraw
      rw [hcast] at hraw
      rw [if_pos hcast, hvalue, ← Except.ok.inj hraw, hword₁]
      exact Fact.deriveCast_admits hs hfirst hfits₁ hadmits₁
    rw [if_neg hcast]
    by_cases hbit : d.instruction.opcode = .bitExtract
    · obtain ⟨result, hraw, hvalue⟩ := arithmetic_word hknown.equation (harithmetic _ (by simp) hbit)
      unfold Arithmetic.raw Instruction.effect at hraw
      rw [hbit] at hraw hcheck
      dsimp only at hcheck
      rw [rejectIf_eq_ok] at hcheck
      simp only [not_or, not_not] at hcheck
      have hrange := hcheck.2.1
      have hrange' := hcheck.2.2.1
      rw [if_pos hbit, hvalue, ← Except.ok.inj hraw, hword₁]
      exact Fact.deriveBitExtract_admits hs (by omega) (by rw [hcheck.2.2.2.2.2.2.2.2.1]; decide) hadmits₁
    rw [if_neg hbit]
    by_cases hcomplement : d.instruction.opcode = .unary ∧ d.instruction.operation = "~"
    · rcases hcomplement with ⟨hop, hoperation⟩
      obtain ⟨result, hraw, hvalue⟩ := arithmetic_word hknown.equation (harithmetic _ (by simp) hop)
      unfold Arithmetic.raw Instruction.effect Arithmetic.unary at hraw
      rw [hop] at hraw
      dsimp only at hraw
      rw [hoperation] at hraw
      rw [if_pos ⟨hop, hoperation⟩, hvalue, ← Except.ok.inj hraw, hword₁]
      exact Fact.complement_admits hs (ht.complement d hd hop hoperation) hadmits₁
    rw [if_neg hcomplement]
    by_cases hbinary : d.instruction.opcode = .binary
    · obtain ⟨result, hraw, hvalue⟩ := arithmetic_word hknown.equation (harithmetic _ (by simp) hbinary)
      unfold Arithmetic.raw Instruction.effect at hraw
      rw [hbinary] at hraw hcheck
      dsimp only at hcheck hraw
      rw [rejectIf_eq_ok] at hcheck
      simp only [not_or, not_not] at hcheck
      have hlength₂ : 1 < d.instruction.operands.length := by
        rw [hcheck.1]
        decide
      have hsecond := hscalar _ (getD_mem hlength₂)
      rcases hoperands _ (getD_mem hlength₂) hsecond with ⟨-, hadmits₂⟩
      rw [hword₁, getD_operandWords hlength₂] at hraw
      rw [if_pos hbinary, hvalue]
      refine Fact.deriveBinary_admits hs hfirst hfits₁ (ht.binary d hd hbinary) hadmits₁ hadmits₂ ?_ hraw
      intro hsame
      rw [of_decide_eq_true hsame]
    rw [if_neg hbinary]
    exact Fact.unknown_admits hs hfits

/-- A PHI has one of the values that are joined. -/
theorem derive_phi_admits {i : Instruction} (hop : i.opcode = .phi) {v : Nat} (hmem : v ∈ i.operands)
    {value : Int} (h : Fact.Admits (facts v) i.type value) :
    Fact.Admits (derive f facts i) i.type value := by
  unfold derive
  rw [hop]
  dsimp only
  have hfact : facts v ∈ i.operands.map facts := List.mem_map_of_mem hmem
  cases hfacts : i.operands.map facts with
  | nil =>
      rw [hfacts] at hfact
      cases hfact
  | cons first rest =>
      rw [hfacts] at hfact
      dsimp only
      apply Fact.foldl_join_admits
      rcases List.mem_cons.mp hfact with heq | hrest
      · left
        rw [← heq]
        exact h
      · exact .inr ⟨_, hrest, h⟩

end Derive

/-! ## The rounds keep what is admitted -/

section Rounds

variable {W : Type} {perform : Perform W} {f : Function} {facts : Nat → Fact} {d : Site}
  {P : Site → (Nat → Slot) → Prop}

/-- What is known of a definition, and that its fact admits its value. -/
structure Admitted (f : Function) (facts : Nat → Fact) (d : Site) (env : Nat → Slot) : Prop where
  known : Known d env
  admits : scalar d.instruction.type = true →
    Fact.Admits (facts d.instruction.result) d.instruction.type (env d.instruction.result).word

/-- Facts that every execution bears out: they follow from an assertion that
executions keep. -/
def Justified (perform : Perform W) (f : Function) (facts : Nat → Fact) : Prop :=
  ∃ P, Preserved f P (Computes perform) (Chooses f) ∧
    ∀ d ∈ f.sites, d.instruction.result ≠ 0 → ∀ env, P d env → Admitted f facts d env

theorem justified_initial (perform : Perform W) (hv : Verified f) :
    Justified perform f (initialFacts f) := by
  refine ⟨Known, known_preserved perform hv, ?_⟩
  intro d hd hresult env hknown
  refine ⟨hknown, ?_⟩
  intro hs
  have htype : f.typeOf d.instruction.result = d.instruction.type :=
    typeOf_of_site (site_eq_some hv.single hd hresult)
  unfold initialFacts
  rw [htype, if_pos hs]
  exact Fact.unknown_admits' hs (hknown.ranged hs).1

/-- The operands of a site have values their facts admit. -/
theorem operandsAdmitted (hv : Verified f) (hd : d ∈ f.sites) (hphi : d.instruction.opcode ≠ .phi)
    (hr : Reached (flow f) f.entry d.block) {env : Nat → Slot}
    (h : Asserted f (Admitted f facts) env d.block d.position) :
    OperandsAdmitted f facts d.instruction env := by
  intro v hmem hs
  obtain ⟨c, hfound, hc, hcresult, hne, havailable⟩ := available_operand hv hd hphi hr hmem
  have hadmitted := h c hc (by rw [hcresult]; exact hne) havailable
  have htype : f.typeOf v = c.instruction.type := typeOf_of_site hfound
  rw [htype] at hs ⊢
  rw [← hcresult]
  exact ⟨(hadmitted.known.ranged hs).1, hadmitted.admits hs⟩

theorem Asserted.imp {Q : Site → (Nat → Slot) → Prop} {env : Nat → Slot} {b k : Nat}
    (h : Asserted f P env b k)
    (himp : ∀ d ∈ f.sites, d.instruction.result ≠ 0 → ∀ env, P d env → Q d env) :
    Asserted f Q env b k :=
  fun d hd hresult havailable => himp d hd hresult env (h d hd hresult havailable)

theorem Fact.Admits.sameValueType {fact : Fact} {left right : Ty} {value : Int}
    (h : Fact.Admits fact left value) (hsame : sameValueType left right = true) :
    Fact.Admits fact right value := by
  have hwidth : Fact.width left = Fact.width right := by
    unfold Fact.width
    rw [(sameValueType_fields hsame).1]
  refine ⟨h.low, h.high, fun n hn => ?_, fun n hn => ?_⟩
  · rw [← hwidth]
    exact h.zero n hn
  · rw [← hwidth]
    exact h.one n hn

/-- One derived fact is as justified as the facts it is derived from. -/
theorem Justified.update (h : Justified perform f facts) (hv : Verified f) (ht : LoweredTypes f)
    (hd : d ∈ f.sites) (hresult : d.instruction.result ≠ 0) (hs : scalar d.instruction.type = true) :
    Justified perform f
      (Function.update facts d.instruction.result (derive f facts d.instruction)) := by
  obtain ⟨P, hpreserved, hadmitted⟩ := h
  -- the old facts stay part of the assertion: other facts were derived from them
  let P' : Site → (Nat → Slot) → Prop := fun c env => P c env ∧ (c = d →
    Fact.Admits (derive f facts d.instruction) d.instruction.type (env d.instruction.result).word)
  have hlocal : Local f fun c env => c = d →
      Fact.Admits (derive f facts d.instruction) d.instruction.type (env d.instruction.result).word := by
    intro c hc hcresult _ env env' hsame hadmits heq
    subst heq
    rw [← hsame _ (Settled.self hc hcresult)]
    exact hadmits rfl
  have hasserted : ∀ {env : Nat → Slot} {b k : Nat}, Asserted f P' env b k → Asserted f P env b k :=
    fun hassert => hassert.imp fun _ _ _ _ hboth => hboth.1
  refine ⟨P', ?_, ?_⟩
  · constructor
    · intro here c env env' hhere hc hcresult hr hsettles hwrites hboth
      exact ⟨hpreserved.frame hhere hc hcresult hr hsettles hwrites hboth.1,
        hlocal.frame hv hhere hc hcresult hr hsettles (fun _ hne => computes_other hwrites hne) hboth.2⟩
    · intro here env env' hhere hphi hhresult hr hassert hwrites
      have hdefined := hpreserved.define hhere hphi hhresult hr (hasserted hassert) hwrites
      refine ⟨hdefined, ?_⟩
      intro heq
      subst heq
      apply derive_admits hv ht hhere hphi hs (hadmitted _ hhere hhresult _ hdefined).known
      intro v hmem hscalar
      have hkeep : env' v = env v := by
        apply computes_other hwrites
        intro heq
        obtain ⟨c, -, hc, hcresult, -, havailable⟩ := available_operand hv hhere hphi hr hmem
        rw [site_unique hv hc hhere hhresult (hcresult.trans heq)] at havailable
        exact not_available_self here havailable
      rw [hkeep]
      exact operandsAdmitted hv hhere hphi hr ((hasserted hassert).imp hadmitted) v hmem hscalar
    · intro a target c env env' hc hcresult hr hsettles hselects hboth
      have hchoose : env' = selectPhis (phis (f.code target)) a env := hselects
      refine ⟨hpreserved.frameEdge hc hcresult hr hsettles hselects hboth.1, ?_⟩
      rw [hchoose]
      exact hlocal.frameEdge hv hc hcresult hr hsettles hboth.2
    · intro a phi env env' hphi hop hr hedge hassert hselects
      have hchoose : env' = selectPhis (phis (f.code phi.block)) a env := hselects
      refine ⟨hpreserved.select hphi hop hr hedge (hasserted hassert) hselects, ?_⟩
      intro heq
      subst heq
      obtain ⟨c, -, hc, hcresult, hne, havailable, htype⟩ := available_incoming hv hphi hop hedge
      have hverified := hv.phi phi hphi hop
      have hmem : phi.instruction.incoming a ∈ phi.instruction.operands :=
        (List.of_mem_zip (incoming_mem hverified.lengths (hverified.covers a hedge))).1
      have hadmits := (hadmitted c hc (by rw [hcresult]; exact hne) env
        (hassert c hc (by rw [hcresult]; exact hne) havailable).1).admits
        (scalar_of_sameValueType htype hs)
      rw [hcresult] at hadmits
      rw [hchoose, selectPhis_self hv hphi hop hresult]
      apply derive_phi_admits hop hmem
      exact hadmits.sameValueType (sameValueType_symm htype hs)
  · intro c hc hcresult env hboth
    have hold := hadmitted c hc hcresult env hboth.1
    refine ⟨hold.known, ?_⟩
    intro hscalar
    by_cases heq : c.instruction.result = d.instruction.result
    · have hsame := site_unique hv hc hd hresult heq
      subst hsame
      rw [Function.update_self]
      exact hboth.2 rfl
    · rw [Function.update_of_ne heq]
      exact hold.admits hscalar

theorem Justified.round (h : Justified perform f facts) (hv : Verified f) (ht : LoweredTypes f) :
    Justified perform f (deriveRound f facts).1 := by
  unfold deriveRound
  have hfold : ∀ (code : List Instruction), (∀ i ∈ code, ∃ d ∈ f.sites, d.instruction = i) →
      ∀ entry : (Nat → Fact) × Bool, Justified perform f entry.1 →
        Justified perform f (code.foldl (deriveNext f) entry).1 := by
    intro code
    induction code with
    | nil => exact fun _ _ hentry => hentry
    | cons i rest ih =>
        intro hcode entry hentry
        rw [List.foldl_cons]
        refine ih (fun j hj => hcode j (List.mem_cons_of_mem _ hj)) _ ?_
        obtain ⟨d, hd, rfl⟩ := hcode i List.mem_cons_self
        unfold deriveNext
        split
        · exact hentry
        · rename_i hskip
          rw [not_or, Bool.not_eq_false] at hskip
          dsimp only
          split
          · exact hentry
          · exact hentry.update hv ht hd hskip.1 hskip.2
  apply hfold _ _ _ h
  intro i hi
  obtain ⟨b, hb⟩ := mem_instructions.mp hi
  obtain ⟨d, hd, -, hsame⟩ := mem_sites_of_mem_code hb
  exact ⟨d, hd, hsame⟩

theorem Justified.rounds (hv : Verified f) (ht : LoweredTypes f) (rounds : Nat) :
    ∀ facts, Justified perform f facts → Justified perform f (deriveRounds f rounds facts) := by
  induction rounds with
  | zero => exact fun _ h => h
  | succ rounds ih =>
      intro facts h
      unfold deriveRounds
      dsimp only
      split
      · exact ih _ (h.round hv ht)
      · exact h.round hv ht

end Rounds

/-! ## What the replacements compute -/

section Values

variable {type : Ty} {value : Int} {fact : Fact}

/-- A fact that leaves one value leaves the one it admits. -/
theorem pinned_value (hs : scalar type = true) (hf : Fits value type) (h : Fact.Admits fact type value)
    {x : Int} (hpinned : fact.pinned type = some x) : convert x type = value := by
  unfold Fact.pinned at hpinned
  split at hpinned
  · rename_i hsame
    have hlow := h.low
    have hhigh := h.high
    have heq : fact.low = value := by omega
    rw [← Option.some.inj hpinned, heq]
    exact hf
  · split at hpinned
    · rename_i hmask
      rw [← Option.some.inj hpinned, convert_convert]
      -- every bit of the value is known
      have hbits : ∀ n, fact.one.getLsbD n = (decide (n < Fact.width type) && bit value n) := by
        intro n
        have hboth := congrArg (fun m => m.getLsbD n) hmask
        simp only [BitVec.getLsbD_or, Fact.getLsbD_mask] at hboth
        cases hone : fact.one.getLsbD n with
        | true =>
            rcases h.one n hone with ⟨hlt, hbit⟩
            rw [decide_eq_true hlt, hbit]
            rfl
        | false =>
            rw [hone, Bool.or_false] at hboth
            by_cases hlt : n < Fact.width type
            · rw [decide_eq_true hlt] at hboth ⊢
              rw [(h.zero n hboth).2]
              rfl
            · rw [decide_eq_false hlt, Bool.false_and]
      have hnat : fact.one.toNat = (value % 2 ^ Fact.width type).toNat := by
        apply Nat.eq_of_testBit_eq
        intro n
        rw [Fact.testBit_residue, BitVec.testBit_toNat]
        exact hbits n
      rcases Fact.residue_of_fits hs hf with ⟨-, hplain⟩
      by_cases hsigned : type.isUnsigned = false ∧ type.base ≠ .bool
      · have hmod : ((fact.one.toNat : Int)) % 2 ^ Fact.width type = value % 2 ^ Fact.width type := by
          rw [hnat, Int.toNat_of_nonneg (Int.emod_nonneg _ (by positivity)), Int.emod_emod]
        exact (Fact.convert_of_residue hs hsigned.2 hmod).trans hf
      · rw [hnat, hplain hsigned]
        exact hf
    · cases hpinned

/-- The sixteen-bit pattern of a word is the word. -/
theorem convert_pattern (hs : scalar type = true) (hword : type.base = .word) (hf : Fits value type) :
    convert (Arithmetic.pattern value).toNat type = value := by
  refine Eq.trans (Fact.convert_of_residue hs (by rw [hword]; decide) ?_) hf
  have hwidth : Fact.width type = 16 := if_pos hword
  unfold Arithmetic.pattern
  rw [hwidth, BitVec.toNat_ofInt]
  omega

/-- The bits of a constant of a word type. -/
theorem bit_constant {other : Ty} {immediate : Int} (hs : scalar other = true) (hword : other.base = .word)
    (hmask : type.base = .word) {n : Nat} (hn : n < 16) :
    (BitVec.ofInt 32 immediate &&& Fact.mask type).getLsbD n = bit (convert immediate other) n := by
  have hwidth : Fact.width other = 16 := if_pos hword
  have hwidth' : Fact.width type = 16 := if_pos hmask
  rw [BitVec.getLsbD_and, Fact.getLsbD_mask, hwidth', decide_eq_true hn, Bool.and_true,
    Fact.getLsbD_ofInt _ (by omega), Fact.bit_convert hs (by rw [hword]; decide) (by omega)]

variable {source other : Ty} {a immediate : Int}

/-- A mask that only clears bits known to be clear. -/
theorem absorbed_and (hs : scalar other = true) (hother : other.base = .word) (hword : type.base = .word)
    (ha : Fact.Admits fact source a)
    (h : Fact.mask type &&& ~~~fact.zero &&& ~~~(BitVec.ofInt 32 immediate &&& Fact.mask type) = 0) :
    Arithmetic.pattern a &&& Arithmetic.pattern (convert immediate other) = Arithmetic.pattern a := by
  apply BitVec.eq_of_getLsbD_eq
  intro n hn
  rw [BitVec.getLsbD_and, bit_pattern hn, bit_pattern hn]
  cases hbit : bit a n with
  | false => rfl
  | true =>
      rw [Bool.true_and, ← bit_constant hs hother hword hn]
      have hzero : fact.zero.getLsbD n = false := by
        by_contra hset
        rw [(ha.zero n (by simpa using hset)).2] at hbit
        cases hbit
      have hclear := congrArg (fun m => m.getLsbD n) h
      have hwidth : Fact.width type = 16 := if_pos hword
      simp only [BitVec.getLsbD_and, BitVec.getLsbD_not, Fact.getLsbD_mask, hwidth, hzero, decide_eq_true hn,
        BitVec.getLsbD_zero, show n < 32 by omega] at hclear ⊢
      simpa using hclear

/-- A mask that only sets bits known to be set. -/
theorem absorbed_or (hs : scalar other = true) (hother : other.base = .word) (hword : type.base = .word)
    (ha : Fact.Admits fact source a)
    (h : BitVec.ofInt 32 immediate &&& Fact.mask type &&& ~~~fact.one = 0) :
    Arithmetic.pattern a ||| Arithmetic.pattern (convert immediate other) = Arithmetic.pattern a := by
  apply BitVec.eq_of_getLsbD_eq
  intro n hn
  rw [BitVec.getLsbD_or, bit_pattern hn, bit_pattern hn]
  cases hbit : bit a n with
  | true => rfl
  | false =>
      rw [Bool.false_or, ← bit_constant hs hother hword hn]
      have hone : fact.one.getLsbD n = false := by
        by_contra hset
        rw [(ha.one n (by simpa using hset)).2] at hbit
        cases hbit
      have hclear := congrArg (fun m => m.getLsbD n) h
      simp only [BitVec.getLsbD_and, BitVec.getLsbD_not, hone, BitVec.getLsbD_zero,
        show n < 32 by omega] at hclear ⊢
      simpa using hclear

end Values

/-! ## Pure instructions -/

section Pure

variable {W : Type} {perform : Perform W} {f : Function} {d : Site} {env : Nat → Slot}

/-- A pure instruction is a constant or arithmetic that does not fault. -/
structure PureShape (f : Function) (i : Instruction) : Prop where
  scalar : scalar i.type = true
  operands : ∀ v ∈ i.operands, ScalarFold.scalar (f.typeOf v) = true
  opcode : i.opcode = .constant ∨ i.opcode = .cast ∨ i.opcode = .bitExtract ∨
    (i.opcode = .unary ∧ (i.operation = "-" ∨ i.operation = "~" ∨ i.operation = "!")) ∨
    (i.opcode = .binary ∧ i.operation ≠ "/" ∧ i.operation ≠ "%" ∧
      (i.operation = "<<" ∨ i.operation = ">>" → ∃ count, f.definition (i.operands.getD 1 0) = some count ∧
        count.opcode = .constant ∧ 0 ≤ count.immediate ∧ count.immediate < 16))

theorem isPure_shape {i : Instruction} (h : isPure f i = true) : PureShape f i := by
  unfold isPure at h
  simp only [Bool.and_eq_true, Bool.not_eq_true', List.all_eq_true] at h
  rcases h with ⟨⟨⟨⟨hs, -⟩, -⟩, hoperands⟩, hop⟩
  refine ⟨hs, hoperands, ?_⟩
  split at hop
  · rename_i hopcode
    exact .inl hopcode
  · rename_i hopcode
    exact .inr (.inl hopcode)
  · rename_i hopcode
    exact .inr (.inr (.inl hopcode))
  · rename_i hopcode
    exact .inr (.inr (.inr (.inl ⟨hopcode, of_decide_eq_true hop⟩)))
  · rename_i hopcode
    split at hop
    · cases hop
    · rename_i hdivision
      rw [not_or] at hdivision
      refine .inr (.inr (.inr (.inr ⟨hopcode, hdivision.1, hdivision.2, ?_⟩)))
      intro hshift
      rw [if_pos hshift, Option.any_eq_true] at hop
      obtain ⟨count, hcount, hrange⟩ := hop
      exact ⟨count, hcount, of_decide_eq_true hrange⟩
  · cases hop

theorem PureShape.isPlain {i : Instruction} (h : PureShape f i) : i.isPlain = true := by
  rw [isPlain_iff]
  rcases h.opcode with hop | hop | hop | ⟨hop, -⟩ | ⟨hop, -⟩ <;>
    (rw [hop]; exact ⟨rfl, rfl, by decide, by decide⟩)

theorem constant_word (h : Equation d env) (hop : d.instruction.opcode = .constant) :
    (env d.instruction.result).word = convert d.instruction.immediate d.instruction.type := by
  have hvalue := h (by unfold Effect.isComputed Instruction.effect; rw [hop]; simp)
  unfold Effect.evaluate Effect.isArithmetic Instruction.effect at hvalue
  rw [hop] at hvalue
  rw [← Except.ok.inj hvalue]

theorem convert_count {type : Ty} (hs : scalar type = true) {count : Int} (hlow : 0 ≤ count)
    (hhigh : count < 16) : 0 ≤ convert count type ∧ convert count type ≤ 15 := by
  rcases Fact.scalar_base hs with ⟨hlevel, -⟩
  by_cases hbool : type.base = .bool
  · unfold convert
    rw [if_neg (by omega), if_pos hbool]
    split <;> omega
  · have hbounds : (Fact.unknown type).low ≤ count ∧ count ≤ (Fact.unknown type).high := by
      unfold Fact.unknown
      rw [if_neg hbool]
      dsimp only
      rcases Fact.width_cases type with ⟨-, hwidth⟩ | ⟨-, hwidth⟩ <;>
        (rw [hwidth]; cases type.isUnsigned <;> simp <;> omega)
    rw [Fact.convert_of_bounds hs hbounds.1 hbounds.2]
    omega

/-- Executing a pure instruction succeeds and changes nothing but its value. -/
theorem pure_produces (hv : Verified f) (hd : d ∈ f.sites) (hr : Reached (flow f) f.entry d.block)
    (h : PureShape f d.instruction) (hknown : Asserted f Known env d.block d.position) (world : W) :
    ∃ slot, produce perform d.instruction.effect (d.instruction.operandWords env)
      (d.instruction.operandOther env) world = .ok ⟨slot, world, []⟩ := by
  have hcheck := hv.opcode d hd
  unfold checkOpcode at hcheck
  have harithmetic : ∀ result, d.instruction.effect.isArithmetic = true →
      Arithmetic.raw d.instruction.effect ((d.instruction.operandWords env).getD 0 0)
        ((d.instruction.operandWords env).getD 1 0) = .ok result →
      ∃ slot, produce perform d.instruction.effect (d.instruction.operandWords env)
        (d.instruction.operandOther env) world = .ok ⟨slot, world, []⟩ := by
    intro result harith hraw
    refine ⟨{ word := convert result d.instruction.type }, ?_⟩
    unfold produce Arithmetic.compute
    rw [if_pos harith, hraw]
    rfl
  have hkind : (d.instruction.opcode = .binary ∨ d.instruction.opcode = .unary ∨
      d.instruction.opcode = .cast ∨ d.instruction.opcode = .bitExtract) →
      d.instruction.effect.isArithmetic = true := by
    intro hkind
    unfold Effect.isArithmetic Instruction.effect
    rw [h.scalar, Bool.and_true, decide_eq_true_eq]
    exact hkind
  rcases h.opcode with hop | hop | hop | ⟨hop, hoperation⟩ | ⟨hop, hdiv, hmod, hshift⟩
  · refine ⟨{ word := convert d.instruction.immediate d.instruction.type }, ?_⟩
    unfold produce Effect.isArithmetic Instruction.effect
    rw [hop]
    rfl
  · have hraw : ∃ result, Arithmetic.raw d.instruction.effect ((d.instruction.operandWords env).getD 0 0)
        ((d.instruction.operandWords env).getD 1 0) = .ok result := by
      unfold Arithmetic.raw Instruction.effect
      rw [hop]
      exact ⟨_, rfl⟩
    obtain ⟨result, hraw⟩ := hraw
    exact harithmetic result (hkind (.inr (.inr (.inl hop)))) hraw
  · have hraw : ∃ result, Arithmetic.raw d.instruction.effect ((d.instruction.operandWords env).getD 0 0)
        ((d.instruction.operandWords env).getD 1 0) = .ok result := by
      unfold Arithmetic.raw Instruction.effect
      rw [hop]
      exact ⟨_, rfl⟩
    obtain ⟨result, hraw⟩ := hraw
    exact harithmetic result (hkind (.inr (.inr (.inr hop)))) hraw
  · have hraw : ∃ result, Arithmetic.raw d.instruction.effect ((d.instruction.operandWords env).getD 0 0)
        ((d.instruction.operandWords env).getD 1 0) = .ok result := by
      unfold Arithmetic.raw Instruction.effect
      rw [hop]
      dsimp only
      rcases hoperation with hoperation | hoperation | hoperation <;>
        (rw [hoperation]; exact ⟨_, rfl⟩)
    obtain ⟨result, hraw⟩ := hraw
    exact harithmetic result (hkind (.inr (.inl hop))) hraw
  · rw [hop] at hcheck
    dsimp only at hcheck
    rw [rejectIf_eq_ok] at hcheck
    simp only [not_or, not_not, Bool.not_eq_false] at hcheck
    have hlength : 1 < d.instruction.operands.length := by
      rw [hcheck.1]
      decide
    have hcount : d.instruction.operation = "<<" ∨ d.instruction.operation = ">>" →
        0 ≤ (d.instruction.operandWords env).getD 1 0 ∧ (d.instruction.operandWords env).getD 1 0 ≤ 15 := by
      intro hoperation
      obtain ⟨count, hdefinition, hconstant, hlow, hhigh⟩ := hshift hoperation
      have hmem := getD_mem hlength
      obtain ⟨c, hfound, hc, hcresult, hne, havailable⟩ := available_operand hv hd
        (by rw [hop]; decide) hr hmem
      have hcount : c.instruction = count := by
        unfold Function.definition at hdefinition
        rw [hfound] at hdefinition
        exact Option.some.inj hdefinition
      have hs := h.operands _ hmem
      rw [typeOf_of_site hfound, hcount] at hs
      have hword := constant_word (hknown c hc (by rw [hcresult]; exact hne) havailable).equation
        (by rw [hcount]; exact hconstant)
      rw [hcresult] at hword
      rw [getD_operandWords hlength, hword, hcount]
      exact convert_count hs hlow hhigh
    have hraw : ∃ result, Arithmetic.raw d.instruction.effect ((d.instruction.operandWords env).getD 0 0)
        ((d.instruction.operandWords env).getD 1 0) = .ok result := by
      have hlegal := hcheck.2.2.2.2.1
      unfold isLegalBinaryOperation at hlegal
      rw [decide_eq_true_eq] at hlegal
      unfold Arithmetic.raw Instruction.effect
      rw [hop]
      dsimp only
      simp only [List.mem_cons, List.not_mem_nil, or_false] at hlegal
      rcases hlegal with hoperation | hoperation | hoperation | hoperation | hoperation | hoperation |
        hoperation | hoperation | hoperation | hoperation | hoperation | hoperation | hoperation |
        hoperation | hoperation | hoperation
      case inr.inr.inr.inl => exact absurd hoperation hmod
      case inr.inr.inr.inr.inr.inr.inr.inl =>
        rw [hoperation]
        exact ⟨_, if_pos (hcount (.inl hoperation))⟩
      case inr.inr.inr.inr.inr.inr.inr.inr.inl =>
        rw [hoperation]
        exact ⟨_, if_pos (hcount (.inr hoperation))⟩
      case inr.inr.inr.inr.inr.inr.inr.inr.inr.inl => exact absurd hoperation hdiv
      all_goals
        rw [hoperation]
        exact ⟨_, rfl⟩
    obtain ⟨result, hraw⟩ := hraw
    exact harithmetic result (hkind (.inl hop)) hraw

theorem produce_arithmetic {effect : Effect} {arguments : List Int} {other : Int} {world : W}
    {p : Produced W} (harithmetic : effect.isArithmetic = true)
    (h : produce perform effect arguments other world = .ok p) : ∃ result,
      Arithmetic.raw effect (arguments.getD 0 0) (arguments.getD 1 0) = .ok result ∧
      p.slot.word = convert result effect.type := by
  unfold produce Arithmetic.compute at h
  rw [if_pos harithmetic] at h
  cases hraw : Arithmetic.raw effect (arguments.getD 0 0) (arguments.getD 1 0) with
  | error trap =>
      rw [hraw] at h
      cases h
  | ok result =>
      rw [hraw] at h
      cases h
      exact ⟨result, rfl, rfl⟩

/-- What a site produces from values that satisfy an assertion satisfies it. -/
theorem asserted_produced {P : Site → (Nat → Slot) → Prop}
    (hp : Preserved f P (Computes perform) (Chooses f)) (hd : d ∈ f.sites)
    (hphi : d.instruction.opcode ≠ .phi) (hresult : d.instruction.result ≠ 0)
    (hr : Reached (flow f) f.entry d.block) (h : Asserted f P env d.block d.position) {world : W}
    {p : Produced W} (hproduce : produce perform d.instruction.effect (d.instruction.operandWords env)
      (d.instruction.operandOther env) world = .ok p) :
    P d (Function.update env d.instruction.result p.slot) := by
  apply hp.define hd hphi hresult hr h
  let s : State W := { start f world with env := env }
  refine ⟨s, s.record d.instruction.result p, rfl, if_neg hresult, ?_⟩
  unfold execute
  rw [show produce perform d.instruction.effect (s.arguments d.instruction)
    (s.env (d.instruction.operands.getD 0 0)).other s.world = .ok p from hproduce]
  rfl

end Pure

/-! ## The replacements keep the behavior -/

section Replacements

variable {W : Type} {perform : Perform W} {f : Function} {facts : Nat → Fact} {d : Site}

theorem pin_result (i : Instruction) : (pin f facts i).result = i.result := by
  unfold pin
  split <;> rfl

theorem pinnedValue_of_pin {i : Instruction} (h : pin f facts i ≠ i) :
    ∃ x, pinnedValue f facts i = some x ∧ i.result ≠ 0 ∧ isPure f i = true ∧
      (facts i.result).pinned i.type = some x ∧
      pin f facts i = { i with opcode := .constant, immediate := x, operands := [], operation := "" } := by
  unfold pin at h ⊢
  cases hvalue : pinnedValue f facts i with
  | none =>
      rw [hvalue] at h
      exact absurd rfl h
  | some x =>
      have hpinned := hvalue
      unfold pinnedValue at hpinned
      split at hpinned
      · rename_i hcondition
        exact ⟨x, rfl, hcondition.1, hcondition.2, hpinned, rfl⟩
      · cases hpinned

/-- What an absorbed instruction looks like. -/
structure Absorbed (f : Function) (facts : Nat → Fact) (i : Instruction) (other c : Nat) : Prop where
  result : i.result ≠ 0
  pureInstruction : isPure f i = true
  opcode : i.opcode = .binary
  operation : i.operation = "&" ∨ i.operation = "|"
  operands : (other = i.operands.getD 0 0 ∧ c = i.operands.getD 1 0) ∨
    (other = i.operands.getD 1 0 ∧ c = i.operands.getD 0 0)
  unchanged : absorbs f facts i other c = true

theorem absorbed_of_ne_zero {i : Instruction} (h : absorbedOperand f facts i ≠ 0) :
    ∃ c, Absorbed f facts i (absorbedOperand f facts i) c := by
  unfold absorbedOperand at h ⊢
  dsimp only at h ⊢
  split at h
  · rename_i hcondition
    rcases hcondition with ⟨hresult, hpure, hfree, hop, hoperation⟩
    rw [if_pos ⟨hresult, hpure, hfree, hop, hoperation⟩]
    split at h
    · rename_i hleft
      rw [if_pos hleft]
      exact ⟨_, hresult, hpure, hop, hoperation, .inl ⟨rfl, rfl⟩, hleft⟩
    · rename_i hleft
      rw [if_neg hleft]
      split at h
      · rename_i hright
        rw [if_pos hright]
        exact ⟨_, hresult, hpure, hop, hoperation, .inr ⟨rfl, rfl⟩, hright⟩
      · exact absurd rfl h
  · exact absurd rfl h

theorem absorbedBy_site (hv : Verified f) (hd : d ∈ f.sites) (hresult : d.instruction.result ≠ 0) :
    absorbedBy f facts d.instruction.result = absorbedOperand f facts d.instruction := by
  unfold absorbedBy Function.definition
  rw [site_eq_some hv.single hd hresult]
  rfl

theorem absorbed_of_absorbedBy (hv : Verified f) (hd : d ∈ f.sites)
    (h : absorbedBy f facts d.instruction.result ≠ 0) :
    ∃ c, Absorbed f facts d.instruction (absorbedBy f facts d.instruction.result) c := by
  have hresult : d.instruction.result ≠ 0 := by
    intro hzero
    rw [hzero] at h
    unfold absorbedBy Function.definition at h
    cases hsite : f.site 0 with
    | none =>
        rw [hsite] at h
        exact h rfl
    | some c =>
        rw [hsite] at h
        obtain ⟨_, habsorbed⟩ := absorbed_of_ne_zero (show absorbedOperand f facts c.instruction ≠ 0 from h)
        exact habsorbed.result (of_site_eq_some hsite).2
  rw [absorbedBy_site hv hd hresult] at h ⊢
  exact absorbed_of_ne_zero h

/-- An absorbed instruction computes the value of the operand it is the same as. -/
theorem Absorbed.word (hv : Verified f) (ht : LoweredTypes f) (hd : d ∈ f.sites)
    (hr : Reached (flow f) f.entry d.block) {other c : Nat} (h : Absorbed f facts d.instruction other c)
    {env : Nat → Slot} (hadmitted : Asserted f (Admitted f facts) env d.block d.position)
    {result : Int} (hraw : Arithmetic.raw d.instruction.effect
      ((d.instruction.operandWords env).getD 0 0) ((d.instruction.operandWords env).getD 1 0) = .ok result) :
    convert result d.instruction.type = (env other).word := by
  have hcheck := hv.opcode d hd
  have hphi : d.instruction.opcode ≠ .phi := by
    rw [h.opcode]
    decide
  unfold checkOpcode at hcheck
  rw [h.opcode] at hcheck
  dsimp only at hcheck
  rw [rejectIf_eq_ok] at hcheck
  simp only [not_or, not_not, Bool.not_eq_false, not_and] at hcheck
  have hlength := hcheck.1
  have hsame₂ := hcheck.2.2.2.2.2.2.2.1
  have hshape := isPure_shape h.pureInstruction
  have hcompare : d.instruction.operation ∉ ["==", "!=", "<", "<=", ">", ">="] := by
    rcases h.operation with hoperation | hoperation <;> (rw [hoperation]; decide)
  rcases (ht.binary d hd h.opcode).result.resolve_left hcompare with ⟨hword, hsame₁⟩
  have hfirst := getD_mem (show 0 < d.instruction.operands.length by omega)
  have hsecond := getD_mem (show 1 < d.instruction.operands.length by omega)
  have hsames : sameValueType (f.typeOf (d.instruction.operands.getD 0 0))
      (f.typeOf (d.instruction.operands.getD 1 0)) = true := by
    rw [List.headD_eq_getD] at hsame₂
    apply hsame₂
    · rcases h.operation with hoperation | hoperation <;> (rw [hoperation]; decide)
    · rcases h.operation with hoperation | hoperation <;> (rw [hoperation]; decide)
  have hword₁ : (f.typeOf (d.instruction.operands.getD 0 0)).base = .word :=
    (sameValueType_fields hsame₁).1.symm.trans hword
  have hword₂ : (f.typeOf (d.instruction.operands.getD 1 0)).base = .word :=
    (sameValueType_fields hsames).1.symm.trans hword₁
  have hoperands := operandsAdmitted hv hd hphi hr hadmitted
  have habsorbs := h.unchanged
  unfold absorbs at habsorbs
  rw [Bool.and_eq_true, Option.any_eq_true] at habsorbs
  rcases habsorbs with ⟨hsame, constant, hdefinition, hmask⟩
  dsimp only at hmask
  rw [Bool.and_eq_true, decide_eq_true_eq] at hmask
  rcases hmask with ⟨hconstant, hmask⟩
  -- the operands, whichever side the constant stands on
  have hsides : other ∈ d.instruction.operands ∧ c ∈ d.instruction.operands ∧
      (f.typeOf other).base = .word ∧ (f.typeOf c).base = .word := by
    rcases h.operands with ⟨rfl, rfl⟩ | ⟨rfl, rfl⟩
    · exact ⟨hfirst, hsecond, hword₁, hword₂⟩
    · exact ⟨hsecond, hfirst, hword₂, hword₁⟩
  rcases hsides with ⟨hotherMem, hcMem, hotherWord, hcWord⟩
  rcases hoperands other hotherMem (hshape.operands other hotherMem) with ⟨hfits, hadmits⟩
  have hfits' : Fits (env other).word d.instruction.type := by
    unfold same at hsame
    simp only [Bool.and_eq_true, decide_eq_true_eq] at hsame
    have hconvert : convert (env other).word (f.typeOf other) = (env other).word := hfits
    have heq : convert (env other).word d.instruction.type = convert (env other).word (f.typeOf other) := by
      have hlevel := (Fact.scalar_base hsame.1.1).1
      have hlevel' := (Fact.scalar_base hsame.1.2).1
      unfold convert
      rw [hlevel, hlevel', hsame.2.1, hsame.2.2.2.1]
    exact heq.trans hconvert
  have hconstantWord : (env c).word = convert constant.immediate (f.typeOf c) := by
    obtain ⟨site, hfound, hsite, hresult, hne, havailable⟩ := available_operand hv hd hphi hr hcMem
    have hinstruction : site.instruction = constant := by
      unfold Function.definition at hdefinition
      rw [hfound] at hdefinition
      exact Option.some.inj hdefinition
    have hequation := constant_word
      (hadmitted site hsite (by rw [hresult]; exact hne) havailable).known.equation
      (by rw [hinstruction]; exact hconstant)
    rw [hresult, hinstruction] at hequation
    rw [hequation, typeOf_of_site hfound, hinstruction]
  have hpattern : Arithmetic.pattern (env c).word = Arithmetic.pattern
      (convert constant.immediate (f.typeOf c)) := by rw [hconstantWord]
  rw [getD_operandWords (by omega), getD_operandWords (by omega)] at hraw
  unfold Arithmetic.raw Instruction.effect at hraw
  rw [h.opcode] at hraw
  dsimp only at hraw
  rcases h.operation with hoperation | hoperation
  · rw [hoperation] at hraw hmask
    rw [if_pos rfl, decide_eq_true_eq] at hmask
    have habsorbed := absorbed_and (hshape.operands c hcMem) hcWord hword hadmits hmask
    have hresult : result = (Arithmetic.pattern (env other).word).toNat := by
      rw [← Except.ok.inj hraw, ← habsorbed, ← hpattern]
      rcases h.operands with ⟨rfl, rfl⟩ | ⟨rfl, rfl⟩
      · rfl
      · rw [BitVec.and_comm]
    rw [hresult]
    exact convert_pattern hshape.scalar hword hfits'
  · rw [hoperation] at hraw hmask
    rw [if_neg (by decide), decide_eq_true_eq] at hmask
    have habsorbed := absorbed_or (hshape.operands c hcMem) hcWord hword hadmits hmask
    have hresult : result = (Arithmetic.pattern (env other).word).toNat := by
      rw [← Except.ok.inj hraw, ← habsorbed, ← hpattern]
      rcases h.operands with ⟨rfl, rfl⟩ | ⟨rfl, rfl⟩
      · rfl
      · rw [BitVec.or_comm]
    rw [hresult]
    exact convert_pattern hshape.scalar hword hfits'

/-- Replacing instructions as justified facts say is a substitution. -/
theorem Justified.substitution (h : Justified perform f facts) (hv : Verified f) (ht : LoweredTypes f) :
    ∃ A, Substitution perform f A (absorbedBy f facts) (pin f facts) := by
  obtain ⟨P, hpreserved, hadmitted⟩ := h
  have hreached : ∀ d ∈ f.sites, d.instruction.result ≠ 0 → Reached (flow f) f.entry d.block :=
    fun d hd hresult => reached_of_result hv hd hresult
  -- a pure instruction succeeds, and its fact admits what it produces
  have hproduce : ∀ d ∈ f.sites, d.instruction.result ≠ 0 → isPure f d.instruction = true →
      ∀ env, Asserted f P env d.block d.position → ∀ world, ∃ slot,
        produce perform d.instruction.effect (d.instruction.operandWords env)
          (d.instruction.operandOther env) world = .ok ⟨slot, world, []⟩ ∧
        Admitted f facts d (Function.update env d.instruction.result slot) := by
    intro d hd hresult hpure env hasserted world
    have hshape := isPure_shape hpure
    have hknown : Asserted f Known env d.block d.position :=
      hasserted.imp fun c hc hcresult env hc' => (hadmitted c hc hcresult env hc').known
    obtain ⟨slot, hslot⟩ := @pure_produces _ perform _ _ _ hv hd (hreached d hd hresult) hshape hknown world
    have hphi := (isPlain_iff.mp hshape.isPlain).2.2.1
    exact ⟨slot, hslot, hadmitted d hd hresult _
      (asserted_produced hpreserved hd hphi hresult (hreached d hd hresult) hasserted hslot)⟩
  refine ⟨P, hpreserved, ?_, pin_result, ?_, ?_, ?_⟩
  · intro d hd halias hr
    obtain ⟨c, habsorbed⟩ := absorbed_of_absorbedBy hv hd halias
    have hcheck := hv.opcode d hd
    unfold checkOpcode at hcheck
    rw [habsorbed.opcode] at hcheck
    dsimp only at hcheck
    rw [rejectIf_eq_ok] at hcheck
    simp only [not_or, not_not] at hcheck
    have hlength := hcheck.1
    have hmem : absorbedBy f facts d.instruction.result ∈ d.instruction.operands := by
      rcases habsorbed.operands with ⟨hother, -⟩ | ⟨hother, -⟩
      · rw [hother]
        exact getD_mem (by omega)
      · rw [hother]
        exact getD_mem (by omega)
    obtain ⟨site, -, hsite, hresult, -, havailable⟩ := available_operand hv hd
      (by rw [habsorbed.opcode]; decide) hr hmem
    exact ⟨site, hsite, hresult, havailable⟩
  · intro d hd hreplaced
    rcases hreplaced with halias | hpin
    · obtain ⟨c, habsorbed⟩ := absorbed_of_absorbedBy hv hd halias
      exact ⟨habsorbed.result, (isPure_shape habsorbed.pureInstruction).isPlain⟩
    · obtain ⟨_, -, hresult, hpure, -⟩ := pinnedValue_of_pin hpin
      exact ⟨hresult, (isPure_shape hpure).isPlain⟩
  · intro d hd halias env hasserted world
    obtain ⟨c, habsorbed⟩ := absorbed_of_absorbedBy hv hd halias
    obtain ⟨slot, hslot, -⟩ := hproduce d hd habsorbed.result habsorbed.pureInstruction env hasserted world
    refine ⟨slot, hslot, ?_⟩
    have harithmetic : d.instruction.effect.isArithmetic = true := by
      unfold Effect.isArithmetic Instruction.effect
      rw [(isPure_shape habsorbed.pureInstruction).scalar, habsorbed.opcode]
      rfl
    obtain ⟨result, hraw, hword⟩ := produce_arithmetic harithmetic hslot
    exact hword.trans (habsorbed.word hv ht hd (hreached d hd habsorbed.result)
      (hasserted.imp hadmitted) hraw)
  · intro d hd hpin
    obtain ⟨x, -, hresult, hpure, hpinned, hchange⟩ := pinnedValue_of_pin hpin
    rw [hchange]
    refine ⟨rfl, rfl, ?_⟩
    intro env hasserted world other
    obtain ⟨slot, hslot, hadmits⟩ := hproduce d hd hresult hpure env hasserted world
    have hs := (isPure_shape hpure).scalar
    refine ⟨slot, { word := convert x d.instruction.type }, hslot, rfl, ?_⟩
    have hranged := (hadmits.known.ranged hs).1
    have hfact := hadmits.admits hs
    rw [Function.update_self] at hranged hfact
    exact pinned_value hs hranged hfact hpinned

/-- A value that an execution has computed, and what its facts say. -/
structure FactSound (f : Function) (facts : Nat → Fact) (d : Site) (value : Int) : Prop where
  admits : Fact.Admits (facts d.instruction.result) d.instruction.type value
  pinned : ∀ x, pinnedValue f facts d.instruction = some x → convert x d.instruction.type = value

theorem Justified.sound (h : Justified perform f facts) (hv : Verified f) (hl : LoopsMatched f)
    {scopes : Nat → List Nat} (hs : Scoped f scopes) {world : W} {s : State W} {history : History}
    (hexecution : Execution perform f world s history) (hd : d ∈ f.sites)
    (hscalar : scalar d.instruction.type = true) (hresult : d.instruction.result ≠ 0)
    (hdefined : d.instruction.result ∈ history.defined) :
    FactSound f facts d (s.env d.instruction.result).word := by
  obtain ⟨P, hpreserved, hadmitted⟩ := h
  have hvalue := hexecution.values hpreserved hv hl hs
    (Q := fun d slot => scalar d.instruction.type = true → Fits slot.word d.instruction.type ∧
      Fact.Admits (facts d.instruction.result) d.instruction.type slot.word)
    (fun d hd hresult env hholds hscalar =>
      ⟨((hadmitted d hd hresult env hholds).known.ranged hscalar).1,
        (hadmitted d hd hresult env hholds).admits hscalar⟩) d hd hresult hdefined hscalar
  refine ⟨hvalue.2, ?_⟩
  intro x hpinned
  unfold pinnedValue at hpinned
  split at hpinned
  · exact pinned_value hscalar hvalue.1 hvalue.2 hpinned
  · cases hpinned

end Replacements

/-- The facts behind any number of rounds admit every value an execution
computes, so replacing instructions as they say keeps the behavior. -/
theorem simplifyFacts_sound {m : Module} {f : Function} (h : verify m = .ok ()) (hf : f ∈ m.functions)
    (ht : LoweredTypes f) (rounds : Nat) :
    (∀ (W : Type) (perform : Perform W) (world : W) (s : State W) (history : History),
      Execution perform f world s history → ∀ d ∈ f.sites, scalar d.instruction.type = true →
        d.instruction.result ≠ 0 → d.instruction.result ∈ history.defined →
        FactSound f (roundFacts f rounds) d (s.env d.instruction.result).word) ∧
    ∃ g, simplifyWithin rounds f = some g ∧
      ∀ (W : Type) (perform : Perform W) (world : W), Machine.SameBehavior (machine perform g)
        (machine perform f) (start g world) (start f world) := by
  have hfunction := verifyFunction_of_verify h hf
  have hv := verified_of_verifyFunction hfunction
  obtain ⟨hl, scopes, hs⟩ := scoped_of_verifyFunction hfunction
  have hjustified : ∀ (W : Type) (perform : Perform W), Justified perform f (roundFacts f rounds) :=
    fun _ perform => Justified.rounds hv ht rounds _ (justified_initial perform hv)
  refine ⟨?_, ?_⟩
  · intro W perform world s history hexecution d hd hscalar hresult hdefined
    exact (hjustified W perform).sound hv hl hs hexecution hd hscalar hresult hdefined
  · let idle : Perform Unit := fun _ _ world => some (0, world)
    obtain ⟨_, hidle⟩ := (hjustified Unit idle).substitution hv ht
    obtain ⟨g, hg⟩ := rewrite_eq_some hidle hv
    refine ⟨g, hg, ?_⟩
    intro W perform world
    obtain ⟨_, hsubstitution⟩ := (hjustified W perform).substitution hv ht
    exact hsubstitution.sameBehavior hv hl hs hg world

def unsignedWord : Ty := { base := .word
                           sizeInBytes := 2
                           isUnsigned := true }

/-- A byte, extended and masked with what it has anyway. -/
def maskedByte : Function where
  name := "f"
  returnType := unsignedWord
  entry := 0
  valueCount := 4
  blocks :=
    [{ id := 0
       instructions :=
        [{ opcode := .call
           type := { base := .byte
                     sizeInBytes := 1
                     isUnsigned := true }
           result := 1
           symbol := "g" },
          { opcode := .cast
            type := unsignedWord
            result := 2
            operands := [1] },
          { opcode := .constant
            type := unsignedWord
            result := 3
            immediate := 255 },
          { opcode := .binary
            type := unsignedWord
            result := 4
            operands := [2, 3]
            operation := "&" },
          { opcode := .ret
            operands := [4] }] }]

/-- The mask is left out. -/
theorem simplifyFacts_sound_maskedByte :
    absorbedBy maskedByte (roundFacts maskedByte 24) 4 = 2 ∧
    (∀ (W : Type) (perform : Perform W) (world : W) (s : State W) (history : History),
      Execution perform maskedByte world s history → ∀ d ∈ maskedByte.sites,
        scalar d.instruction.type = true → d.instruction.result ≠ 0 →
        d.instruction.result ∈ history.defined →
        FactSound maskedByte (roundFacts maskedByte 24) d (s.env d.instruction.result).word) ∧
    ∃ g, simplifyWithin 24 maskedByte = some g ∧
      ∀ (W : Type) (perform : Perform W) (world : W), Machine.SameBehavior (machine perform g)
        (machine perform maskedByte) (start g world) (start maskedByte world) :=
  ⟨by decide +kernel, simplifyFacts_sound (m := { functions := [maskedByte] }) (by decide +kernel)
    List.mem_cons_self ⟨by decide +kernel, by decide +kernel⟩ 24⟩

end Disco.IR
