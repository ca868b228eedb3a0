import Disco.IR.Available

/-! # The equations of an execution

Arithmetic, constants and division pairs compute their value from their operands
alone. Wherever such a definition is available its value is still what it
computes from the values its operands have there, and every scalar value is in
the range of its type.
-/

namespace Disco.IR

open Library Verifier ScalarFold

/-! ## Computed values -/

/-- An instruction whose value depends on its operands only. -/
def Effect.isComputed (effect : Effect) : Bool :=
  effect.isArithmetic ||
    decide (effect.opcode = .constant ∨ effect.opcode = .divMod ∨ effect.opcode = .divModResult)

/-- What a computed instruction makes of its operands. -/
def Effect.evaluate (effect : Effect) (arguments : List Int) (other : Int) : Except Halt Slot :=
  if effect.isArithmetic then
    match Arithmetic.compute effect (arguments.getD 0 0) (arguments.getD 1 0) with
    | .error trap => .error (.trapped trap)
    | .ok value => .ok { word := value }
  else
    match effect.opcode with
    | .constant => .ok { word := convert effect.immediate effect.type }
    | .divMod => divide effect (arguments.getD 0 0) (arguments.getD 1 0)
    | .divModResult => .ok { word := other }
    | _ => .error .stuck

theorem produce_computed {W : Type} (perform : Perform W) {effect : Effect} {arguments : List Int}
    {other : Int} {world : W} (h : effect.isComputed = true) :
    produce perform effect arguments other world =
      (effect.evaluate arguments other).map fun slot => ⟨slot, world, []⟩ := by
  unfold produce Effect.evaluate
  by_cases harithmetic : effect.isArithmetic = true
  · rw [if_pos harithmetic, if_pos harithmetic]
    cases Arithmetic.compute effect (arguments.getD 0 0) (arguments.getD 1 0) <;> rfl
  · rw [if_neg harithmetic, if_neg harithmetic]
    unfold Effect.isComputed at h
    rw [Bool.not_eq_true _ |>.mp harithmetic, Bool.false_or, decide_eq_true_eq] at h
    rcases h with hop | hop | hop
    · rw [hop]
      rfl
    · rw [hop]
      dsimp only
      cases divide effect (arguments.getD 0 0) (arguments.getD 1 0) <;> rfl
    · rw [hop]
      rfl

/-- Only the second component of a pair depends on the pair. -/
theorem evaluate_other {effect : Effect} {arguments : List Int} {other other' : Int}
    (h : effect.opcode = .divModResult → other = other') :
    effect.evaluate arguments other = effect.evaluate arguments other' := by
  unfold Effect.evaluate
  split
  · rfl
  · split
    · rfl
    · rfl
    · rename_i hop
      rw [h hop]
    · rfl

/-! ## Ranges and equations -/

/-- A value in the range of a type. -/
def Fits (value : Int) (type : Ty) : Prop := convert value type = value

instance (value : Int) (type : Ty) : Decidable (Fits value type) := inferInstanceAs (Decidable (_ = _))

theorem fits_convert (value : Int) (type : Ty) : Fits (convert value type) type := convert_convert value type

theorem Fits.sameValueType {value : Int} {left right : Ty} (h : Fits value left)
    (hsame : sameValueType left right = true) : Fits value right :=
  (convert_of_sameValueType hsame value).symm.trans h

theorem scalar_of_sameValueType {left right : Ty} (hsame : sameValueType left right = true)
    (h : scalar left = true) : scalar right = true := by
  obtain ⟨hbase, -, hlevel, hsize⟩ := sameValueType_fields hsame
  unfold scalar at h ⊢
  rw [← hbase, ← hlevel, ← hsize]
  exact h

theorem sameValueType_symm {left right : Ty} (hsame : sameValueType left right = true)
    (h : scalar left = true) : sameValueType right left = true := by
  have hright := scalar_of_sameValueType hsame h
  unfold scalar at hright
  unfold sameValueType at hsame ⊢
  simp only [Bool.and_eq_true, Bool.or_eq_true, decide_eq_true_eq] at hsame hright ⊢
  exact ⟨⟨⟨⟨⟨hsame.1.1.1.1.1.symm, hsame.1.1.1.1.2.symm⟩, hsame.1.1.1.2.symm⟩, hsame.1.1.2.symm⟩,
    hsame.1.2.symm⟩, .inl hright.1.1⟩

section Known

variable {f : Function} {d : Site} {env env' : Nat → Slot}

/-- The values of a scalar definition are in the range of its type. -/
def Ranged (d : Site) (env : Nat → Slot) : Prop :=
  scalar d.instruction.type = true → Fits (env d.instruction.result).word d.instruction.type ∧
    (d.instruction.opcode = .divMod → Fits (env d.instruction.result).other d.instruction.type)

/-- The operands of an instruction under an environment. -/
def Instruction.operandWords (i : Instruction) (env : Nat → Slot) : List Int :=
  i.operands.map fun v => (env v).word

def Instruction.operandOther (i : Instruction) (env : Nat → Slot) : Int :=
  (env (i.operands.getD 0 0)).other

/-- A computed definition has the value it computes. -/
def Equation (d : Site) (env : Nat → Slot) : Prop :=
  d.instruction.effect.isComputed = true →
    d.instruction.effect.evaluate (d.instruction.operandWords env) (d.instruction.operandOther env) =
      .ok (env d.instruction.result)

/-- What is known of a definition. -/
structure Known (d : Site) (env : Nat → Slot) : Prop where
  ranged : Ranged d env
  equation : Equation d env

theorem operandWords_congr {i : Instruction} (h : ∀ v ∈ i.operands, env v = env' v) :
    i.operandWords env = i.operandWords env' :=
  List.map_congr_left fun v hv => congrArg Slot.word (h v hv)

theorem isComputed_phi {effect : Effect} (h : effect.opcode = .phi) : effect.isComputed = false := by
  unfold Effect.isComputed Effect.isArithmetic
  rw [h]
  rfl

/-- The shape of a division result. -/
theorem divModResult_shape (hv : Verified f) (hd : d ∈ f.sites)
    (hop : d.instruction.opcode = .divModResult) : ∃ v pair, d.instruction.operands = [v] ∧
      pair ∈ f.sites ∧ pair.instruction.result = v ∧ pair.instruction.opcode = .divMod ∧
      pair.instruction.operation ≠ d.instruction.operation ∧
      sameValueType d.instruction.type pair.instruction.type = true := by
  have hcheck := hv.opcode d hd
  unfold checkOpcode at hcheck
  rw [hop] at hcheck
  dsimp only at hcheck
  unfold checkDivModResult at hcheck
  rw [rejectIf_bind_eq_ok, rejectIf_eq_ok] at hcheck
  rcases hcheck with ⟨hlength, hpair⟩
  rw [not_or, not_not] at hlength
  obtain ⟨v, hoperands⟩ := List.length_eq_one_iff.mp hlength.1
  rw [hoperands, List.headD_cons] at hpair
  unfold Function.definition at hpair
  cases hsite : f.site v with
  | none =>
      rw [hsite] at hpair
      exact absurd rfl hpair
  | some pair =>
      rw [hsite] at hpair
      rcases of_site_eq_some hsite with ⟨hmem, hresult⟩
      simp only [Option.map_some, Option.all_some, Bool.or_eq_true, not_or, decide_eq_true_eq,
        Bool.not_eq_true', Bool.not_eq_false, not_not] at hpair
      exact ⟨v, pair, hoperands, hmem, hresult, hpair.1.1.1, hpair.1.1.2, hpair.1.2⟩

theorem known_local (hv : Verified f) : Local f Known := by
  intro d hd hresult hr env env' hsame h
  have hself := hsame _ (Settled.self hd hresult)
  refine ⟨?_, ?_⟩
  · intro hs
    rw [← hself]
    exact h.ranged hs
  · intro hcomputed
    have hphi : d.instruction.opcode ≠ .phi := by
      intro hop
      rw [isComputed_phi hop] at hcomputed
      cases hcomputed
    have hoperands : ∀ v ∈ d.instruction.operands, env v = env' v :=
      fun v hmem => hsame v (Settled.operand hv hd hphi hr hmem)
    rw [← hself, ← operandWords_congr hoperands, ← h.equation hcomputed]
    apply evaluate_other
    intro hop
    obtain ⟨v, _, hshape, -⟩ := divModResult_shape hv hd hop
    unfold Instruction.operandOther
    rw [hshape]
    exact congrArg Slot.other (hoperands v (by rw [hshape]; exact List.mem_singleton_self v)).symm

/-! ## They hold along executions -/

theorem divide_fits {effect : Effect} {a b : Int} {slot : Slot} (h : divide effect a b = .ok slot) :
    Fits slot.word effect.type ∧ Fits slot.other effect.type := by
  unfold divide at h
  by_cases hzero : b = 0
  · rw [if_pos hzero] at h
    cases h
  · rw [if_neg hzero] at h
    cases h
    split
    · exact ⟨fits_convert _ _, fits_convert _ _⟩
    · exact ⟨fits_convert _ _, fits_convert _ _⟩

/-- What an instruction produces is in range; for a division result, when its
pair is. -/
theorem produce_fits {W : Type} {perform : Perform W} {effect : Effect} {arguments : List Int}
    {other : Int} {world : W} {p : Produced W}
    (hother : effect.opcode = .divModResult → Fits other effect.type)
    (h : produce perform effect arguments other world = .ok p) :
    Fits p.slot.word effect.type ∧ (effect.opcode = .divMod → Fits p.slot.other effect.type) := by
  unfold produce at h
  split at h
  · rename_i harithmetic
    have hdiv : effect.opcode ≠ .divMod := by
      intro hop
      unfold Effect.isArithmetic at harithmetic
      rw [hop] at harithmetic
      cases harithmetic
    split at h
    · cases h
    · rename_i value hvalue
      cases h
      refine ⟨?_, fun hop => absurd hop hdiv⟩
      unfold Arithmetic.compute at hvalue
      cases hraw : Arithmetic.raw effect (arguments.getD 0 0) (arguments.getD 1 0) with
      | error trap =>
          rw [hraw] at hvalue
          cases hvalue
      | ok result =>
          rw [hraw] at hvalue
          cases hvalue
          exact fits_convert _ _
  · split at h
    · cases h
    · rename_i hop
      cases h
      exact ⟨fits_convert _ _, fun heq => by rw [hop] at heq; cases heq⟩
    · obtain ⟨slot, hslot, hp⟩ := bind_eq_ok.mp h
      cases hp
      rcases divide_fits hslot with ⟨hword, hsecond⟩
      exact ⟨hword, fun _ => hsecond⟩
    · rename_i hop
      cases h
      exact ⟨hother hop, fun heq => by rw [hop] at heq; cases heq⟩
    · rename_i hdiv _
      unfold request at h
      split at h
      · cases h
      · cases h
        exact ⟨fits_convert _ _, fun heq => absurd heq hdiv⟩

theorem record_result {W : Type} (s : State W) {result : Nat} (p : Produced W) (h : result ≠ 0) :
    (s.record result p).env result = p.slot := by
  unfold State.record
  dsimp only
  rw [if_neg h, Function.update_self]

/-- Executing a definition makes its equation true. -/
theorem known_define {W : Type} {perform : Perform W} (hv : Verified f) {here : Site} {s u : State W}
    (hhere : here ∈ f.sites) (hphi : here.instruction.opcode ≠ .phi)
    (hresult : here.instruction.result ≠ 0) (hr : Reached (flow f) f.entry here.block)
    (h : Asserted f Known s.env here.block here.position)
    (hu : execute perform here.instruction s = .ok u) : Known here u.env := by
  have hkeep : ∀ v ∈ here.instruction.operands, u.env v = s.env v := by
    intro v hmem
    apply execute_other hu
    intro heq
    obtain ⟨c, -, hc, hcresult, -, havailable⟩ := available_operand hv hhere hphi hr hmem
    rw [site_unique hv hc hhere hresult (hcresult.trans heq)] at havailable
    exact not_available_self here havailable
  obtain ⟨p, hp, hdone⟩ := bind_eq_ok.mp hu
  have hslot : u.env here.instruction.result = p.slot := by
    cases hdone
    exact record_result s p hresult
  refine ⟨?_, ?_⟩
  · intro hs
    rw [hslot]
    refine produce_fits ?_ hp
    intro hop
    obtain ⟨v, pair, hshape, hmem, hpair, hpop, -, htype⟩ := divModResult_shape hv hhere hop
    have hoperand : v ∈ here.instruction.operands := by
      rw [hshape]
      exact List.mem_singleton_self v
    obtain ⟨c, -, hc, hcresult, hne, havailable⟩ := available_operand hv hhere hphi hr hoperand
    have hunique := site_unique hv hmem hc (by rw [hcresult]; exact hne) (hpair.trans hcresult.symm)
    rw [← hunique] at havailable
    have hknown := (h pair hmem (by rw [hpair]; exact hne) havailable).ranged
      (scalar_of_sameValueType htype hs)
    rw [hshape, List.getD_cons_zero, ← hpair]
    exact (hknown.2 hpop).sameValueType (sameValueType_symm htype hs)
  · intro hcomputed
    rw [produce_computed perform hcomputed] at hp
    rw [hslot]
    have hwords : here.instruction.operandWords u.env = s.arguments here.instruction :=
      operandWords_congr hkeep
    have hvalue : here.instruction.effect.evaluate (s.arguments here.instruction)
        (s.env (here.instruction.operands.getD 0 0)).other = .ok p.slot := by
      cases hevaluate : here.instruction.effect.evaluate (s.arguments here.instruction)
          (s.env (here.instruction.operands.getD 0 0)).other with
      | error halt =>
          rw [hevaluate] at hp
          cases hp
      | ok slot =>
          rw [hevaluate] at hp
          cases hp
          rfl
    rw [hwords, ← hvalue]
    apply evaluate_other
    intro hop
    obtain ⟨v, _, hshape, -⟩ := divModResult_shape hv hhere hop
    unfold Instruction.operandOther
    rw [hshape]
    exact congrArg Slot.other (hkeep v (by rw [hshape]; exact List.mem_singleton_self v))

theorem selectPhis_self (hv : Verified f) {phi : Site} (hphi : phi ∈ f.sites)
    (hop : phi.instruction.opcode = .phi) (hresult : phi.instruction.result ≠ 0) (source : Nat)
    (env : Nat → Slot) : selectPhis (phis (f.code phi.block)) source env phi.instruction.result =
      { word := (env (phi.instruction.incoming source)).word } := by
  have hmem : phi.instruction ∈ phis (f.code phi.block) := by
    have hget := mem_sites.mp hphi
    rw [← phis_append_body (f.code phi.block)] at hget
    by_cases hlt : phi.position < (phis (f.code phi.block)).length
    · rw [List.getElem?_append_left hlt] at hget
      exact List.mem_of_getElem? hget
    · rw [List.getElem?_append_right (by omega)] at hget
      exact absurd hop (hv.not_phi_of_mem_body (List.mem_of_getElem? hget))
  unfold selectPhis
  cases hfind : (phis (f.code phi.block)).find? fun i => i.result == phi.instruction.result with
  | none =>
      have hnone := List.find?_eq_none.mp hfind _ hmem
      exact absurd (beq_self_eq_true _) hnone
  | some i =>
      have heq : i.result = phi.instruction.result := by simpa using List.find?_some hfind
      obtain ⟨c, hc, -, rfl⟩ := mem_sites_of_mem_code
        ((List.takeWhile_prefix _).subset (List.mem_of_find?_eq_some hfind))
      rw [site_unique hv hc hphi hresult heq]

/-- Equations and ranges are kept along executions. -/
theorem known_preserved {W : Type} (perform : Perform W) (hv : Verified f) :
    Preserved f Known (Computes perform) (Chooses f) := by
  refine preserved_of_local hv (known_local hv) ?_ ?_
  · intro here hhere hphi hresult hr s u hasserted hu
    exact known_define hv hhere hphi hresult hr hasserted hu
  · intro source env phi hphi hop hr hedge hasserted
    obtain ⟨_, -, hscanned⟩ := hv.scanned hphi
    obtain ⟨c, -, hc, hcresult, hne, havailable, htype⟩ := available_incoming hv hphi hop hedge
    refine ⟨?_, fun hcomputed => ?_⟩
    · intro hs
      have hresult : phi.instruction.result ≠ 0 := by
        apply hscanned.produces.mp
        unfold Instruction.producesValue
        rw [hop]
        rfl
      rw [selectPhis_self hv hphi hop hresult]
      refine ⟨?_, fun heq => by rw [hop] at heq; cases heq⟩
      have hknown := (hasserted c hc (by rw [hcresult]; exact hne) havailable).ranged
        (scalar_of_sameValueType htype hs)
      rw [hcresult] at hknown
      exact (convert_of_sameValueType htype _).trans hknown.1
    · rw [isComputed_phi hop] at hcomputed
      cases hcomputed

theorem Execution.known {W : Type} {perform : Perform W} {scopes : Nat → List Nat} (hv : Verified f)
    (hl : LoopsMatched f) (hs : Scoped f scopes) {world : W} {s : State W} {history : History}
    (h : Execution perform f world s history) {k : Nat} (hat : At f s.block k s.code) :
    Asserted f Known s.env s.block k :=
  (h.holding (known_preserved perform hv) hv hl hs).here k hat

end Known

end Disco.IR
