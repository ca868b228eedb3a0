import Disco.IR.ConditionalAnalysis
import Disco.IR.FlowAnalysis
import Disco.IR.Thinning

/-! # What the conditional analysis says about executions

The queue is empty and no value of a reachable block is left without a fact when
`analyze` returns, so every instruction of such a block agrees with the facts.
Executions then stay in reachable blocks, take executable edges, and every value
whose fact is a constant has that constant.
-/

namespace Disco.IR.ConditionalOptimizer

open Library Verifier

namespace Fact

theorem meet_ne_unknown {a b : Fact} (h : a ≠ .unknown ∨ b ≠ .unknown) : a.meet b ≠ .unknown := by
  cases a <;> cases b <;> simp [meet] at h ⊢
  split <;> simp

/-- A constant meet is the constant of each part that has a fact. -/
theorem parts_of_meet {a b : Fact} {value : Int} (h : a.meet b = .constant value) :
    (a ≠ .unknown → a = .constant value) ∧ (b ≠ .unknown → b = .constant value) := by
  cases a with
  | unknown => exact ⟨fun hne => absurd rfl hne, fun _ => h⟩
  | varying => simp at h
  | constant x =>
      cases b with
      | unknown => simpa using h
      | varying => simp at h
      | constant y =>
          by_cases hxy : x = y
          · simp [meet, hxy] at h ⊢
            exact h
          · simp [meet, hxy] at h

end Fact

variable {f : Function}

/-! ## The result of the analysis -/

/-- What the facts satisfy in the end. -/
structure Finished (f : Function) (a : Analysis) : Prop where
  entry : f.entry ∈ a.reachable
  targets : ∀ e ∈ a.executable, e.2 ∈ a.reachable
  canonical : Canonical f a.facts
  settled : ∀ (b k : Nat) (i : Instruction), b ∈ a.reachable → (f.code b)[k]? = some i → Settled f a b i
  resolved : ∀ v, v ≠ 0 → v ≤ f.valueCount → ¬ unresolved f a v

theorem stable_start (f : Function) {start : Analysis}
    (h : foldAll enqueue { reachable := {f.entry} } (blockNodes f f.entry) = .ok start) : Stable f start := by
  have hq := queued_of_foldAll h
  have hreach : start.reachable = {f.entry} := hq.reachable
  refine ⟨?_, ?_, ?_, ?_⟩
  · rw [hreach]
    exact Finset.mem_singleton_self _
  · intro e he
    rw [hq.executable] at he
    simp at he
  · intro v value hv
    rw [hq.facts] at hv
    cases hv
  · intro b k i hb hi
    rw [hreach, Finset.mem_singleton] at hb
    subst hb
    exact .inr (.inl (hq.adds _ (mem_blockNodes hi)))

/-- Giving up on a value keeps the rest consistent. -/
theorem Stable.varying (hf : Verified f) {a a' : Analysis} {v : Nat} (h : Stable f a) (hv : v ≠ 0)
    (hu : update f v .varying a = .ok a') : Stable f a' := by
  have hupdated := updated_of_update hu
  refine Consistent.update h hupdated hv (fun _ hvalue => nomatch hvalue) ?_
  intro b k i _ hi hresult
  refine .inr (.inr ⟨fun _ => ?_, fun hterm => ?_⟩)
  · have hvarying : a'.facts i.result = .varying := by
      rw [hupdated.facts, hresult, Function.update_self]
      simp
    rw [hvarying]
    simp
  · have hzero := result_eq_zero_of_isTerminator hf hi hterm
    exact absurd (hresult.symm.trans hzero) hv

/-- A pass over the values that were left without a fact. -/
structure Swept (f : Function) (seen : List Nat) (state : Analysis × Bool) : Prop where
  stable : Stable f state.1
  quiet : state.2 = false → state.1.pending = [] ∧ ∀ v ∈ seen, ¬ unresolved f state.1 v

theorem Swept.settle (hf : Verified f) {seen : List Nat} {state state' : Analysis × Bool} {v : Nat} (h : Swept f seen state)
    (hv : v ≠ 0) (hs : settle f state v = .ok state') : Swept f (seen ++ [v]) state' := by
  obtain ⟨work, -, hs⟩ := bind_eq_ok.mp hs
  have hcharged : Stable f { state.1 with work := work } := by
    refine ⟨h.stable.entry, h.stable.targets, h.stable.canonical, ?_⟩
    intro b k i hb hi
    cases h.stable.nodes b k i hb hi with
    | inl hskip => exact .inl hskip
    | inr hrest => exact .inr (hrest.imp_right fun hsettled => ⟨hsettled.value, hsettled.edges⟩)
  dsimp only at hs
  split at hs
  · obtain ⟨a, ha, hs⟩ := bind_eq_ok.mp hs
    cases hs
    exact ⟨hcharged.varying hf hv ha, fun hquiet => nomatch hquiet⟩
  · rename_i hresolved
    cases hs
    refine ⟨hcharged, fun hquiet => ?_⟩
    have hbefore := h.quiet hquiet
    refine ⟨hbefore.1, ?_⟩
    intro w hw
    cases List.mem_append.mp hw with
    | inl hold => exact hbefore.2 w hold
    | inr hnew =>
        rw [List.mem_singleton.mp hnew]
        exact hresolved

theorem finished_of_analyzeFrom (hf : Verified f) {fuel : Nat} {a r : Analysis} (h : Stable f a)
    (hr : analyzeFrom f fuel a = .ok r) : Finished f r := by
  induction fuel generalizing a with
  | zero => cases hr
  | succ fuel ih =>
      obtain ⟨b, hb, hr⟩ := bind_eq_ok.mp hr
      obtain ⟨state, hstate, hr⟩ := bind_eq_ok.mp hr
      have hloop := loop_eq_ok (fun _ _ ha hvisit => visit_stable hf ha hvisit) h hb
      have hpending : b.pending = [] := by
        have hend := hloop.2
        unfold visit at hend
        split at hend
        · assumption
        · obtain ⟨_, -, hend⟩ := bind_eq_ok.mp hend
          split at hend
          · cases hend
          · obtain ⟨_, -, hend⟩ := bind_eq_ok.mp hend
            obtain ⟨_, -, hend⟩ := bind_eq_ok.mp hend
            cases hend
      have hends : Ends (Swept f ([] ++ List.range' 1 f.valueCount)) (fun _ => True)
          (foldAll (settle f) (b, false) (List.range' 1 f.valueCount)) :=
        foldAll_ends_seen (fun seen state v hv hs => by
          have hne : v ≠ 0 := by
            have hrange := List.mem_range'_1.mp hv
            omega
          cases hnext : settle f state v with
          | error e => trivial
          | ok state' => exact hs.settle hf hne hnext) ⟨hloop.1, fun _ => ⟨hpending, fun _ hv => nomatch hv⟩⟩
      have hswept := hends.of_ok hstate
      cases state with
      | mk c again =>
      dsimp only at hr
      split at hr
      · exact ih hswept.stable hr
      · rename_i hquiet
        cases hr
        have hend := hswept.quiet (by simpa using hquiet)
        refine ⟨hswept.stable.entry, hswept.stable.targets, hswept.stable.canonical, ?_, ?_⟩
        · intro c k i hc hi
          cases hswept.stable.nodes c k i hc hi with
          | inl hskip => exact hskip.elim
          | inr hrest =>
              cases hrest with
              | inl hqueued =>
                  rw [hend.1] at hqueued
                  cases hqueued
              | inr hsettled => exact hsettled
        · intro v hv hle
          apply hend.2
          rw [List.nil_append, List.mem_range'_1]
          omega

/-- The analysis ends with facts that all instructions agree with. -/
theorem finished_of_analyze (hf : Verified f) {a : Analysis} (h : analyze f = .ok a) : Finished f a := by
  obtain ⟨start, hstart, h⟩ := bind_eq_ok.mp h
  exact finished_of_analyzeFrom hf (stable_start f hstart) h

/-! ## What a fact says about a value -/

section Values

variable {W : Type} {perform : Perform W} {a : Analysis} {d here : Site} {env env' : Nat → Slot}

/-- A value of a reachable block, which is its constant if its fact is one. -/
structure Borne (f : Function) (a : Analysis) (d : Site) (env : Nat → Slot) : Prop where
  reachable : d.block ∈ a.reachable
  known : Known d env
  constant : ∀ value, a.facts d.instruction.result = .constant value → (env d.instruction.result).word = value

/-- Instructions of reachable blocks. -/
def ComputesIn (perform : Perform W) (a : Analysis) (here : Site) (env env' : Nat → Slot) : Prop :=
  Computes perform here env env' ∧ here.block ∈ a.reachable

/-- Edges that are executable. -/
def ChoosesIn (f : Function) (a : Analysis) (source target : Nat) (env env' : Nat → Slot) : Prop :=
  Chooses f source target env env' ∧ (source, target) ∈ a.executable

theorem borne_local (hf : Verified f) : Local f (Borne f a) := by
  intro d hd hresult hr env env' hsame h
  refine ⟨h.reachable, known_local hf d hd hresult hr env env' hsame h.known, ?_⟩
  intro value hvalue
  rw [← hsame _ (Settled.self hd hresult)]
  exact h.constant value hvalue

/-- A value of a reachable block has a fact. -/
theorem Finished.fact_ne_unknown (h : Finished f a) (hf : Verified f) (hd : d ∈ f.sites) (hresult : d.instruction.result ≠ 0)
    (hreach : d.block ∈ a.reachable) : a.facts d.instruction.result ≠ .unknown := by
  intro hunknown
  obtain ⟨_, -, hscanned⟩ := hf.scanned hd
  refine h.resolved _ hresult hscanned.result_le ⟨hunknown, ?_⟩
  rw [site_eq_some hf.single hd hresult]
  simpa using hreach

/-- The operands of an instruction, their facts and their words. -/
structure Supplied (f : Function) (a : Analysis) (i : Instruction) (env : Nat → Slot) : Prop where
  known : ∀ v ∈ i.operands, a.facts v ≠ .unknown
  words : ∀ v ∈ i.operands, ∀ value, a.facts v = .constant value → (env v).word = value

theorem supplied (h : Finished f a) (hf : Verified f) (hd : d ∈ f.sites) (hphi : d.instruction.opcode ≠ .phi)
    (hr : Reached (flow f) f.entry d.block) {k : Nat} (hk : d.position ≤ k)
    (hasserted : Asserted f (Borne f a) env d.block k) : Supplied f a d.instruction env := by
  have hoperand : ∀ v ∈ d.instruction.operands, ∃ c ∈ f.sites, c.instruction.result = v ∧ v ≠ 0 ∧ Borne f a c env := by
    intro v hmem
    obtain ⟨c, -, hc, hcresult, hne, havailable⟩ := available_operand hf hd hphi hr hmem
    exact ⟨c, hc, hcresult, hne, hasserted c hc (by rw [hcresult]; exact hne) (havailable.mono hk)⟩
  refine ⟨?_, ?_⟩
  · intro v hmem
    obtain ⟨c, hc, hcresult, hne, hborne⟩ := hoperand v hmem
    rw [← hcresult]
    exact h.fact_ne_unknown hf hc (by rw [hcresult]; exact hne) hborne.reachable
  · intro v hmem value hvalue
    obtain ⟨c, hc, hcresult, hne, hborne⟩ := hoperand v hmem
    rw [← hcresult] at hvalue ⊢
    exact hborne.constant value hvalue

/-- A fold over constant operands is the value of the instruction. -/
theorem foldFact_word (hc : Canonical f a.facts) {i : Instruction} (hs : Supplied f a i env)
    (hop : i.opcode = .binary ∨ i.opcode = .unary ∨ i.opcode = .cast ∨ i.opcode = .bitExtract)
    (hscalar : ScalarFold.scalar i.type = true) {other value : Int} {slot : Slot}
    (hvalue : i.effect.evaluate (i.operandWords env) other = .ok slot) (h : foldFact f a.facts i = .constant value) :
    slot.word = value := by
  unfold foldFact at h
  split at h
  · cases h
  · rename_i hvaries
    split at h
    · cases h
    · split at h
      · rename_i result hfold
        cases h
        have hconstant : ∀ v ∈ i.operands, a.facts v = .constant (a.facts v).value := by
          intro v hmem
          cases hfact : a.facts v with
          | unknown => exact absurd hfact (hs.known v hmem)
          | constant value => rfl
          | varying => exact absurd (.inr ⟨v, hmem, hfact⟩) hvaries
        have hwords : (i.operands.map fun v => (⟨f.typeOf v, (a.facts v).value⟩ : ScalarFold.Operand)).map
            ScalarFold.Operand.value = i.operandWords env := by
          rw [List.map_map]
          exact List.map_congr_left fun v hmem => (hs.words v hmem _ (hconstant v hmem)).symm
        have hcompute := evaluate_sound (i := i) ?_ hfold
        · rw [hwords] at hcompute
          have harithmetic : i.effect.isArithmetic = true := by
            simp only [Effect.isArithmetic, Instruction.effect, hscalar, Bool.and_true]
            exact decide_eq_true hop
          unfold Effect.evaluate at hvalue
          rw [if_pos harithmetic, hcompute] at hvalue
          rw [← Except.ok.inj hvalue]
        · intro operand hmem
          obtain ⟨v, hv, rfl⟩ := List.mem_map.mp hmem
          exact hc v _ (hconstant v hv)
      · cases h

/-- No instruction but a PHI waits for its operands. -/
theorem evaluate_ne_unknown {i : Instruction} {b : Nat} (hs : Supplied f a i env) (hphi : i.opcode ≠ .phi) :
    evaluate f a.facts a.executable i b ≠ .unknown := by
  have hfold : foldFact f a.facts i ≠ .unknown := by
    intro h
    unfold foldFact at h
    split at h
    · cases h
    · split at h
      · rename_i hunknown
        obtain ⟨v, hmem, hfact⟩ := hunknown
        exact hs.known v hmem hfact
      · split at h <;> cases h
  unfold evaluate
  split
  · exact fun h => nomatch h
  · split
    · exact fun h => nomatch h
    · rename_i hop
      exact absurd hop hphi
    all_goals first | exact hfold | exact fun h => nomatch h

/-- An instruction that evaluates to a constant has it as its value. -/
theorem evaluate_word (hc : Canonical f a.facts) (hs : Supplied f a d.instruction env) (hphi : d.instruction.opcode ≠ .phi)
    (hknown : Known d env) {b : Nat} {value : Int} (h : evaluate f a.facts a.executable d.instruction b = .constant value) :
    (env d.instruction.result).word = value := by
  unfold evaluate at h
  split at h
  · cases h
  · rename_i hscalar
    rw [Bool.not_eq_false] at hscalar
    have hfold : ∀ opcode, d.instruction.opcode = opcode →
        (opcode = .binary ∨ opcode = .unary ∨ opcode = .cast ∨ opcode = .bitExtract) →
        foldFact f a.facts d.instruction = .constant value → (env d.instruction.result).word = value := by
      intro opcode hop hkind hfact
      rw [← hop] at hkind
      have hcomputed : d.instruction.effect.isComputed = true := by
        unfold Effect.isComputed Effect.isArithmetic Instruction.effect
        rw [hscalar, decide_eq_true hkind]
        rfl
      exact foldFact_word hc hs hkind hscalar (hknown.equation hcomputed) hfact
    split at h
    · rename_i hop
      have hcomputed : d.instruction.effect.isComputed = true := by
        simp [Effect.isComputed, Instruction.effect, hop]
      have hvalue := hknown.equation hcomputed
      have hplain : d.instruction.effect.isArithmetic = false := by
        simp [Effect.isArithmetic, Instruction.effect, hop]
      unfold Effect.evaluate at hvalue
      rw [hplain] at hvalue
      simp only [Bool.false_eq_true, if_false, Instruction.effect, hop] at hvalue
      rw [← Except.ok.inj hvalue]
      cases h
      rfl
    · rename_i hop
      exact absurd hop hphi
    · rename_i hop
      exact hfold _ hop (by simp) h
    · rename_i hop
      exact hfold _ hop (by simp) h
    · rename_i hop
      exact hfold _ hop (by simp) h
    · rename_i hop
      exact hfold _ hop (by simp) h
    · cases h

/-- What the edges of a PHI add to a fact. -/
def joined (facts : Nat → Fact) (executable : Finset (Nat × Nat)) (b : Nat) (edges : List (Nat × Nat)) (start : Fact) : Fact :=
  edges.foldl (fun result edge => if (edge.2, b) ∈ executable then result.meet (facts edge.1) else result) start

section Joined

variable {facts : Nat → Fact} {executable : Finset (Nat × Nat)} {b : Nat} {edges : List (Nat × Nat)} {edge : Nat × Nat}
  {start : Fact} {value : Int}

theorem joined_cons : joined facts executable b (edge :: edges) start =
    joined facts executable b edges (if (edge.2, b) ∈ executable then start.meet (facts edge.1) else start) := rfl

theorem joined_ne_unknown (hstart : start ≠ .unknown) : joined facts executable b edges start ≠ .unknown := by
  induction edges generalizing start with
  | nil => exact hstart
  | cons edge edges ih =>
      rw [joined_cons]
      apply ih
      split
      · exact Fact.meet_ne_unknown (.inl hstart)
      · exact hstart

theorem start_of_joined (hstart : start ≠ .unknown) (h : joined facts executable b edges start = .constant value) :
    start = .constant value := by
  induction edges generalizing start with
  | nil => exact h
  | cons edge edges ih =>
      rw [joined_cons] at h
      split at h
      · exact (Fact.parts_of_meet (ih (Fact.meet_ne_unknown (.inl hstart)) h)).1 hstart
      · exact ih hstart h

theorem joined_edge_ne_unknown (hedge : edge ∈ edges) (hexecutable : (edge.2, b) ∈ executable)
    (hfact : facts edge.1 ≠ .unknown) : joined facts executable b edges start ≠ .unknown := by
  induction edges generalizing start with
  | nil => cases hedge
  | cons first edges ih =>
      rw [joined_cons]
      cases List.mem_cons.mp hedge with
      | inl heq =>
          rw [← heq, if_pos hexecutable]
          exact joined_ne_unknown (Fact.meet_ne_unknown (.inr hfact))
      | inr hrest => exact ih hrest

/-- A PHI that is a constant has it along every executable edge. -/
theorem edge_of_joined (hedge : edge ∈ edges) (hexecutable : (edge.2, b) ∈ executable) (hfact : facts edge.1 ≠ .unknown)
    (h : joined facts executable b edges start = .constant value) : facts edge.1 = .constant value := by
  induction edges generalizing start with
  | nil => cases hedge
  | cons first edges ih =>
      rw [joined_cons] at h
      cases List.mem_cons.mp hedge with
      | inl heq =>
          rw [← heq, if_pos hexecutable] at h
          have hmeet := start_of_joined (Fact.meet_ne_unknown (.inr hfact)) h
          exact (Fact.parts_of_meet hmeet).2 hfact
      | inr hrest => exact ih hrest h

end Joined

/-- What is borne out by the instructions and edges taken so far. -/
theorem borne_preserved (hf : Verified f) (h : Finished f a) :
    Preserved f (Borne f a) (ComputesIn perform a) (ChoosesIn f a) where
  frame hhere hd hresult hr hsettles hwrites hborne :=
    (borne_local hf).frame hf hhere hd hresult hr hsettles (fun _ hne => computes_other hwrites.1 hne) hborne
  define := by
    intro here env env' hhere hphi hresult hr hasserted hwrites
    have hknown : Known here env' := (known_preserved perform hf).define hhere hphi hresult hr
      (fun d hd hne havailable => (hasserted d hd hne havailable).known) hwrites.1
    refine ⟨hwrites.2, hknown, ?_⟩
    intro value hvalue
    have hbefore := supplied h hf hhere hphi hr le_rfl hasserted
    have hsupplied : Supplied f a here.instruction env' := by
      refine ⟨hbefore.known, ?_⟩
      intro v hmem value hvalue
      rw [computes_other hwrites.1 (operand_ne_result hf hhere hphi hr hmem hresult)]
      exact hbefore.words v hmem value hvalue
    have hsettled := (h.settled here.block here.position here.instruction hwrites.2 (mem_sites.mp hhere)).value hresult
    have hevaluate := Fact.of_meet_eq_left hsettled hvalue (evaluate_ne_unknown hbefore hphi)
    exact evaluate_word h.canonical hsupplied hphi hknown hevaluate
  frameEdge := by
    intro source target d env env' hd hresult hr hsettles hselects hborne
    rw [hselects.1]
    exact (borne_local hf).frameEdge hf hd hresult hr hsettles hborne
  select := by
    intro source phi env env' hphi hop hr hedge hasserted hselects
    have hknown : Known phi env' := (known_preserved perform hf).select hphi hop hr hedge
      (fun d hd hne havailable => (hasserted d hd hne havailable).known) hselects.1
    have hreach : phi.block ∈ a.reachable := h.targets _ hselects.2
    refine ⟨hreach, hknown, ?_⟩
    intro value hvalue
    have hresult := phi_result_ne_zero hf hphi hop
    have hverified := hf.phi phi hphi hop
    obtain ⟨c, -, hc, hcresult, hne, havailable, -⟩ := available_incoming hf hphi hop hedge
    have hcne : c.instruction.result ≠ 0 := by rw [hcresult]; exact hne
    have hborne := hasserted c hc hcne havailable
    have hfact := h.fact_ne_unknown hf hc hcne hborne.reachable
    have hsettled := (h.settled phi.block phi.position phi.instruction hreach (mem_sites.mp hphi)).value hresult
    rw [hvalue] at hsettled
    have hmem := incoming_mem hverified.lengths (hverified.covers source hedge)
    have hconstant : a.facts (phi.instruction.incoming source) = .constant value := by
      rw [hcresult] at hfact
      unfold evaluate at hsettled
      split at hsettled
      · simp at hsettled
      · rw [hop] at hsettled
        have hjoined := Fact.of_meet_eq_left hsettled rfl (joined_edge_ne_unknown hmem hselects.2 hfact)
        exact edge_of_joined hmem hselects.2 hfact hjoined
    rw [hselects.1, selectPhis_self hf hphi hop hresult]
    rw [← hcresult] at hconstant ⊢
    exact hborne.constant value hconstant

end Values

/-! ## Executions -/

section Executions

variable {W : Type} {perform : Perform W} {a : Analysis} {scopes : Nat → List Nat} {world : W} {s t : State W}
  {history : History} {i : Instruction} {rest : List Instruction}

/-- The edge a terminator takes is one its condition leaves open. -/
theorem openTargets_taken (hf : Verified f) {b k : Nat} (hi : (f.code b)[k]? = some i) (hcode : s.code = i :: rest)
    (hstep : step perform f s = .ok t) (htarget : t.block ∈ i.targets) (hs : Supplied f a i s.env) :
    t.block ∈ openTargets a.facts i := by
  by_cases hop : i.opcode = .condBranch ∨ i.opcode = .switch
  · have hlength : 0 < i.operands.length := by
      have hcheck := hf.opcode ⟨b, k, i⟩ (mem_sites.mpr hi)
      unfold checkOpcode at hcheck
      cases hop with
      | inl hop =>
          simp only [hop] at hcheck
          rw [rejectIf_eq_ok] at hcheck
          omega
      | inr hop =>
          simp only [hop] at hcheck
          rw [rejectIf_eq_ok] at hcheck
          omega
    have hhead : i.operands.headD 0 ∈ i.operands := by
      cases hoperands : i.operands with
      | nil =>
          rw [hoperands] at hlength
          cases hlength
      | cons v rest => simp
    have hargument : (s.arguments i).getD 0 0 = (s.env (i.operands.headD 0)).word := by
      unfold State.arguments State.word
      cases hoperands : i.operands with
      | nil =>
          rw [hoperands] at hlength
          cases hlength
      | cons v rest => rfl
    have hterm : isTerminatorOpcode i.opcode = true := by
      cases hop with
      | inl hop => rw [hop]; rfl
      | inr hop => rw [hop]; rfl
    unfold step at hstep
    rw [hcode] at hstep
    dsimp only at hstep
    rw [if_pos hterm] at hstep
    obtain ⟨selected, hleave, hjump⟩ := bind_eq_ok.mp hstep
    have htaken : i.targets[selected]? = some t.block := by
      unfold jump at hjump
      cases hselected : i.targets[selected]? with
      | none =>
          rw [hselected] at hjump
          cases hjump
      | some target =>
          rw [hselected] at hjump
          cases hjump
          rfl
    unfold openTargets
    rw [if_pos hop]
    cases hfact : a.facts (i.operands.headD 0) with
    | unknown => exact absurd hfact (hs.known _ hhead)
    | varying => exact htarget
    | constant value =>
        have hword := hs.words _ hhead value hfact
        rw [← hargument] at hword
        unfold Instruction.leave at hleave
        dsimp only
        cases hop with
        | inl hop =>
            rw [hop] at hleave
            dsimp only at hleave
            rw [if_pos hop]
            cases hleave
            by_cases hzero : value = 0
            · rw [hword, if_pos hzero] at htaken
              rw [if_neg (by simpa using hzero), htaken]
              simp
            · rw [hword, if_neg hzero] at htaken
              rw [if_pos hzero, htaken]
              simp
        | inr hop =>
            rw [hop] at hleave
            dsimp only at hleave
            rw [if_neg (by rw [hop]; decide)]
            split at hleave
            · cases hleave
              rw [hword] at htaken
              have hsame : i.targets[selectedCase i value]? = some t.block := htaken
              rw [hsame]
              simp
            · cases hleave
  · unfold openTargets
    rw [if_neg hop]
    exact htarget

/-- What is known of an execution. -/
structure Tracked (f : Function) (a : Analysis) (s : State W) (history : History) : Prop where
  block : s.block ∈ a.reachable
  holding : Holding f (Borne f a) s history s.env
  values : ∀ d ∈ f.sites, d.instruction.result ≠ 0 → d.instruction.result ∈ history.defined →
    d.block ∈ a.reachable ∧
      ∀ value, a.facts d.instruction.result = .constant value → (s.env d.instruction.result).word = value

/-- Control takes an executable edge, to a target that is left open. -/
theorem Tracked.edge (h : Tracked f a s history) (hf : Verified f) (hl : LoopsMatched f) (hs : Scoped f scopes)
    (ha : Finished f a) (hexecution : Execution perform f world s history) (hcode : s.code = i :: rest)
    (hterm : i.isTerminator = true) (htarget : t.block ∈ i.targets) (hstep : step perform f s = .ok t) :
    t.block ∈ openTargets a.facts i ∧ (s.block, t.block) ∈ a.executable := by
  obtain ⟨k, hat, -, -⟩ := (hexecution.invariant hf hl hs).position
  have hi := (hat.instruction hcode).1
  have hsite : (⟨s.block, k, i⟩ : Site) ∈ f.sites := mem_sites.mpr hi
  have hphi := hf.not_phi_of_mem_body (hat.mem_body hcode)
  have hsupplied : Supplied f a i s.env := supplied ha hf hsite hphi hat.reached le_rfl (h.holding.here k hat)
  have hopen := openTargets_taken hf hi hcode hstep htarget hsupplied
  exact ⟨hopen, (ha.settled s.block k i h.block hi).edges hterm t.block hopen⟩

/-- One step more. -/
theorem Tracked.next (h : Tracked f a s history) (hf : Verified f) (hl : LoopsMatched f) (hs : Scoped f scopes)
    (ha : Finished f a) (he : ExposedLoops f) (hexecution : Execution perform f world s history) (hcode : s.code = i :: rest)
    (hstep : step perform f s = .ok t) : Tracked f a t (history.after f i s.loops t.block) := by
  have hp : Preserved f (Borne f a) (ComputesIn perform a) (ChoosesIn f a) := borne_preserved hf ha
  have hi := hexecution.invariant hf hl hs
  have hmove := step_moves hcode hstep
  have hnext := hi.move hf hl hs hcode hmove
  have hpassage := hi.passage hf hl hs hcode hmove
  obtain ⟨k, hat, -, -⟩ := hi.position
  obtain ⟨l, hat', -, -⟩ := hnext.position
  have hget := (hat.instruction hcode).1
  have hsite : (⟨s.block, k, i⟩ : Site) ∈ f.sites := mem_sites.mpr hget
  obtain ⟨_, -, hscanned⟩ := hf.scannedAt hget
  have htarget : i.isTerminator = true → t.block ∈ i.targets := by
    intro hterm
    cases hpassage with
    | line hplain _ _ _ => exact absurd (hterm.symm.trans hplain) (by decide)
    | edge _ htarget _ _ => exact htarget
    | again hplain _ _ _ _ _ _ _ _ => exact absurd (hterm.symm.trans hplain) (by decide)
  have hline : i.isTerminator = false → t.block = s.block := by
    intro hplain
    cases hpassage with
    | line _ hblock _ _ => exact hblock
    | edge hterm _ _ _ => exact absurd (hterm.symm.trans hplain) (by decide)
    | again _ setup hsetup hop hhidden _ _ _ _ =>
        have hmem := mem_instructions.mpr ⟨_, List.mem_of_getElem? (mem_sites.mp hsetup)⟩
        exact absurd hhidden (he _ hmem (.inl hop))
  have hholding : Holding f (Borne f a) t (history.after f i s.loops t.block) t.env := by
    refine h.holding.step hp hf hl hs hi hnext hcode hpassage ?_ ?_
    · intro hplain m hat''
      obtain ⟨u, hu, henv⟩ := step_env_line hcode hstep hplain
      rw [hat''.unique hat]
      exact ⟨⟨s, u, rfl, henv.symm, hu⟩, h.block⟩
    · intro hterm
      exact ⟨step_env_edge hcode hstep hterm (terminator_result hscanned hterm),
        (h.edge hf hl hs ha hexecution hcode hterm (htarget hterm) hstep).2⟩
  refine ⟨?_, hholding, ?_⟩
  · cases hterm : i.isTerminator with
    | false => exact hline hterm ▸ h.block
    | true => exact ha.targets _ (h.edge hf hl hs ha hexecution hcode hterm (htarget hterm) hstep).2
  · intro d hd hresult hdefined
    have hhere : Available f d t.block l → d.block ∈ a.reachable ∧
        ∀ value, a.facts d.instruction.result = .constant value → (t.env d.instruction.result).word = value := by
      intro havailable
      have hborne := hholding.here l hat' d hd hresult havailable
      exact ⟨hborne.reachable, hborne.constant⟩
    cases hterm : i.isTerminator with
    | false =>
        obtain ⟨u, hu, henv⟩ := step_env_line hcode hstep hterm
        rw [after_defined_plain hterm] at hdefined
        by_cases hsame : d.instruction.result = i.result
        · have heq := site_unique hf hsite hd hresult hsame.symm
          have hphi := hf.not_phi_of_mem_body (hat.mem_body hcode)
          subst heq
          have hborne := hp.define hd hphi hresult hat.reached (h.holding.here k hat)
            ⟨⟨s, u, rfl, henv.symm, hu⟩, h.block⟩
          exact ⟨hborne.reachable, hborne.constant⟩
        · rw [henv, execute_other hu hsame]
          exact h.values d hd hresult ((List.mem_cons.mp hdefined).resolve_left hsame)
    | true =>
        have hzero := terminator_result hscanned hterm
        have henv := step_env_edge hcode hstep hterm hzero
        rw [after_defined_edge hterm] at hdefined
        by_cases hphi : ∃ phi ∈ phis (f.code t.block), phi.result = d.instruction.result
        · obtain ⟨phi, hmem, hsame⟩ := hphi
          obtain ⟨c, hc, hblock, heq⟩ := mem_sites_of_mem_code ((List.takeWhile_prefix _).subset hmem)
          rw [← heq] at hmem hsame
          have hcd := site_unique hf hc hd hresult hsame
          subst hcd
          have hlt : c.position < (phis (f.code t.block)).length := by
            by_contra hge
            have hposition := mem_sites.mp hc
            rw [hblock, ← phis_append_body (f.code t.block), List.getElem?_append_right (by omega)] at hposition
            exact hf.not_phi_of_mem_body (List.mem_of_getElem? hposition) (by simpa using List.mem_takeWhile_imp hmem)
          exact hhere (available_of_lt hblock (lt_of_lt_of_le hlt hat'.behind))
        · rw [henv, selectPhis_other fun phi hmem hsame => hphi ⟨phi, hmem, hsame⟩]
          refine h.values d hd hresult ?_
          cases List.mem_append.mp hdefined with
          | inl hmem =>
              obtain ⟨phi, hphi', hsame⟩ := List.mem_map.mp hmem
              exact absurd ⟨phi, hphi', hsame⟩ hphi
          | inr hmem => exact (List.mem_cons.mp hmem).resolve_left (by rw [hzero]; exact hresult)

/-- Every execution is tracked. -/
theorem tracked (hf : Verified f) (hl : LoopsMatched f) (hs : Scoped f scopes) (ha : Finished f a) (he : ExposedLoops f)
    (h : Execution perform f world s history) : Tracked f a s history := by
  induction h with
  | start => exact ⟨ha.entry, holding_start hf world _, fun _ _ _ hmem => absurd hmem List.not_mem_nil⟩
  | next before hcode hstep ih => exact ih.next hf hl hs ha he before hcode hstep

theorem exposed_of_countResources {code : List Instruction} {state state' : Nat × Nat}
    (h : foldAll countResources state code = .ok state') :
    ∀ i ∈ code, i.opcode = .hardwareLoop ∨ i.opcode = .hardwareLoopEnd → i.targets ≠ [] := by
  induction code generalizing state with
  | nil => exact fun _ hi => nomatch hi
  | cons j rest ih =>
      obtain ⟨next, hnext, hrest⟩ := bind_eq_ok.mp h
      intro i hi hop hnone
      cases List.mem_cons.mp hi with
      | inl heq =>
          rw [heq] at hop hnone
          unfold countResources at hnext
          rw [rejectIf_bind_eq_ok] at hnext
          exact hnext.1 ⟨hop, hnone⟩
      | inr hmem => exact ih hrest i hmem hop hnone

theorem exposed_of_validateResources (h : validateResources f = .ok ()) : ExposedLoops f := by
  unfold validateResources at h
  rw [rejectIf_bind_eq_ok] at h
  obtain ⟨_, hcount, -⟩ := bind_eq_ok.mp h.2
  exact exposed_of_countResources hcount

/-- Executions never leave the reachable blocks and executable edges, and every
value with a constant fact is that constant. -/
theorem analyze_sound {m : Module} (hm : Verifier.verify m = .ok ()) (hmem : f ∈ m.functions)
    (hr : validateResources f = .ok ()) (ha : analyze f = .ok a) (h : Execution perform f world s history) :
    s.block ∈ a.reachable ∧
    (∀ d ∈ f.sites, d.instruction.result ≠ 0 → d.instruction.result ∈ history.defined → d.block ∈ a.reachable ∧
      ∀ value, a.facts d.instruction.result = .constant value → (s.env d.instruction.result).word = value) ∧
    ∀ i rest t, s.code = i :: rest → i.isTerminator = true → step perform f s = .ok t →
      t.block ∈ openTargets a.facts i ∧ (s.block, t.block) ∈ a.executable := by
  have hfunction := verifyFunction_of_verify hm hmem
  have hf := verified_of_verifyFunction hfunction
  obtain ⟨hl, scopes, hs⟩ := scoped_of_verifyFunction hfunction
  have hfinished := finished_of_analyze hf ha
  have htracked := tracked hf hl hs hfinished (exposed_of_validateResources hr) h
  refine ⟨htracked.block, htracked.values, ?_⟩
  intro i rest t hcode hterm hstep
  have hinvariant := h.invariant hf hl hs
  have hpassage := hinvariant.passage hf hl hs hcode (step_moves hcode hstep)
  refine htracked.edge hf hl hs hfinished h hcode hterm ?_ hstep
  cases hpassage with
  | line hplain _ _ _ => exact absurd (hterm.symm.trans hplain) (by decide)
  | edge _ htarget _ _ => exact htarget
  | again hplain _ _ _ _ _ _ _ _ => exact absurd (hterm.symm.trans hplain) (by decide)

end Executions

def unsignedWord : Ty := { base := .word
                           sizeInBytes := 2
                           isUnsigned := true }

/-- A branch on a literal, behind it a join of the values of both sides. -/
def knownBranch : Function where
  name := "f"
  returnType := unsignedWord
  entry := 0
  valueCount := 5
  blocks :=
    [{ id := 0
       instructions :=
        [{ opcode := .constant
           type := unsignedWord
           result := 1
           immediate := 1 },
          { opcode := .condBranch
            operands := [1]
            targets := [1, 2] }] },
      { id := 1
        instructions :=
        [{ opcode := .binary
           type := unsignedWord
           result := 2
           operands := [1, 1]
           operation := "+" },
          { opcode := .branch
            targets := [3] }] },
      { id := 2
        instructions :=
        [{ opcode := .call
           type := unsignedWord
           result := 3
           symbol := "g" },
          { opcode := .branch
            targets := [3] }] },
      { id := 3
        instructions :=
        [{ opcode := .phi
           type := unsignedWord
           result := 4
           operands := [2, 3]
           targets := [1, 2] },
          { opcode := .binary
            type := unsignedWord
            result := 5
            operands := [4, 1]
            operation := "+" },
          { opcode := .ret
            operands := [5] }] }]

/-- The call is never executed and the sum behind the join is three. -/
theorem analyze_sound_knownBranch :
    ∃ a, analyze knownBranch = .ok a ∧ ∀ (W : Type) (perform : Perform W) (world : W) (s : State W) (history : History),
      Execution perform knownBranch world s history → s.block ≠ 2 ∧
        (5 ∈ history.defined → (s.env 5).word = 3) := by
  have hm : Verifier.verify { functions := [knownBranch] } = .ok () := by decide +kernel
  have hr : validateResources knownBranch = .ok () := by decide +kernel
  have hfacts : (analyze knownBranch).map (fun a => (decide (2 ∈ a.reachable), a.facts 5)) =
      .ok (false, .constant 3) := by
    decide +kernel
  cases ha : analyze knownBranch with
  | error e =>
      rw [ha] at hfacts
      cases hfacts
  | ok a =>
      rw [ha] at hfacts
      have hpair := Prod.mk.inj (Except.ok.inj hfacts)
      have hunreached : 2 ∉ a.reachable := by simpa using hpair.1
      refine ⟨a, rfl, ?_⟩
      intro W perform world s history h
      have hsound := analyze_sound hm List.mem_cons_self hr ha h
      refine ⟨fun hblock => hunreached (hblock ▸ hsound.1), fun hdefined => ?_⟩
      have hsite : (⟨3, 1, { opcode := .binary
                             type := unsignedWord
                             result := 5
                             operands := [4, 1]
                             operation := "+" }⟩ : Site) ∈ knownBranch.sites := by decide +kernel
      exact (hsound.2.1 _ hsite (by decide) hdefined).2 3 hpair.2

end Disco.IR.ConditionalOptimizer
