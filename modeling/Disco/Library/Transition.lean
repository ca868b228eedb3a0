import Disco.Library.Checked

/-! # Deterministic machines and their behaviour

A machine takes one step at a time, or halts; along the way it extends a trace.
Its behaviour is what an observer sees of a whole run: every finite part of the
trace, and how the run halts if it does. Two machines whose states are related
so that each step of the first is answered by at least one step of the second
have the same behaviour, halting or not.
-/

namespace Disco.Library

universe u

structure Machine (H O E : Type) where
  State : Type u
  step : State → Except H State
  observe : State → O
  trace : State → List E
  grows : ∀ s t, step s = .ok t → trace s <+: trace t

namespace Machine

variable {H O E : Type} {A B C : Machine.{u} H O E}

/-- `n` steps lead from one state to another. -/
inductive Runs (A : Machine.{u} H O E) : Nat → A.State → A.State → Prop where
  | refl (s : A.State) : Runs A 0 s s
  | head {n : Nat} {s t v : A.State} (first : A.step s = .ok t) (rest : Runs A n t v) :
      Runs A (n + 1) s v

/-- The run from `s` halts with `h`, observed as `o` at its last state. -/
def Finishes (A : Machine.{u} H O E) (s : A.State) (h : H) (o : O) : Prop :=
  ∃ n v, Runs A n s v ∧ A.step v = .error h ∧ A.observe v = o

/-- The run from `s` gets as far as producing `events`. -/
def Emits (A : Machine.{u} H O E) (s : A.State) (events : List E) : Prop :=
  ∃ n v, Runs A n s v ∧ events <+: A.trace v

/-- The same finite observations, and the same way of halting if any. -/
structure SameBehavior (A B : Machine.{u} H O E) (s : A.State) (t : B.State) : Prop where
  finishes : ∀ h o, Finishes A s h o ↔ Finishes B t h o
  emits : ∀ events, Emits A s events ↔ Emits B t events

theorem SameBehavior.refl (A : Machine.{u} H O E) (s : A.State) : SameBehavior A A s s :=
  ⟨fun _ _ => Iff.rfl, fun _ => Iff.rfl⟩

theorem SameBehavior.symm {s : A.State} {t : B.State} (h : SameBehavior A B s t) :
    SameBehavior B A t s :=
  ⟨fun e o => (h.finishes e o).symm, fun events => (h.emits events).symm⟩

theorem SameBehavior.trans {s : A.State} {t : B.State} {v : C.State}
    (h : SameBehavior A B s t) (k : SameBehavior B C t v) : SameBehavior A C s v :=
  ⟨fun e o => (h.finishes e o).trans (k.finishes e o),
    fun events => (h.emits events).trans (k.emits events)⟩

/-! ## Runs -/

theorem Runs.single {s t : A.State} (h : A.step s = .ok t) : Runs A 1 s t :=
  .head h (.refl t)

theorem Runs.append {n m : Nat} {s t v : A.State} (h : Runs A n s t) (k : Runs A m t v) :
    Runs A (n + m) s v := by
  induction h with
  | refl => simpa using k
  | head first _ ih =>
      rw [Nat.add_right_comm]
      exact .head first (ih k)

theorem Runs.trace_grows {n : Nat} {s t : A.State} (h : Runs A n s t) :
    A.trace s <+: A.trace t := by
  induction h with
  | refl => exact List.prefix_rfl
  | head first _ ih => exact (A.grows _ _ first).trans ih

/-- Two runs from one state: the longer one continues the shorter one. -/
theorem Runs.continue {n m : Nat} {s t v : A.State} (h : Runs A n s t) (k : Runs A m s v)
    (hle : n ≤ m) : Runs A (m - n) t v := by
  induction h generalizing m with
  | refl => simpa using k
  | @head n s t w first _ ih =>
      cases k with
      | refl => omega
      | @head m _ t' _ first' rest' =>
          rw [first] at first'
          cases first'
          have := ih rest' (by omega)
          rwa [Nat.add_sub_add_right]

/-- A run that halts is the longest one. -/
theorem Runs.le_of_halts {n m : Nat} {s t v : A.State} {e : H} (h : Runs A n s t)
    (k : Runs A m s v) (halts : A.step v = .error e) : n ≤ m := by
  by_contra hlt
  have hrest := k.continue h (by omega)
  cases hn : n - m with
  | zero => omega
  | succ r =>
      rw [hn] at hrest
      cases hrest with
      | head first _ =>
          rw [halts] at first
          cases first

/-- A run halts in one state at most. -/
theorem Runs.halts_unique {n m : Nat} {s v w : A.State} {e e' : H} (h : Runs A n s v) (halt : A.step v = .error e)
    (k : Runs A m s w) (halt' : A.step w = .error e') : v = w := by
  have hnm : n = m := le_antisymm (h.le_of_halts k halt') (k.le_of_halts h halt)
  subst hnm
  have hsame := h.continue k le_rfl
  rw [Nat.sub_self] at hsame
  cases hsame
  rfl

/-- A way to halt is the only one. -/
theorem Finishes.unique {s : A.State} {e e' : H} {o o' : O} (h : Finishes A s e o)
    (k : Finishes A s e' o') : e = e' := by
  obtain ⟨n, v, hrun, hhalt, -⟩ := h
  obtain ⟨m, w, hrun', hhalt', -⟩ := k
  cases hrun.halts_unique hhalt hrun' hhalt'
  rw [hhalt] at hhalt'
  exact Except.error.inj hhalt'

/-- What is observed at the halt is the only observation. -/
theorem Finishes.observed {s : A.State} {e e' : H} {o o' : O} (h : Finishes A s e o)
    (k : Finishes A s e' o') : o = o' := by
  obtain ⟨n, v, hrun, hhalt, hobserve⟩ := h
  obtain ⟨m, w, hrun', hhalt', hobserve'⟩ := k
  cases hrun.halts_unique hhalt hrun' hhalt'
  rw [← hobserve, ← hobserve']

/-- A number of steps, computed. -/
def iterate (A : Machine.{u} H O E) : Nat → A.State → Except H A.State
  | 0, s => .ok s
  | n + 1, s =>
      match A.step s with
      | .ok t => A.iterate n t
      | .error e => .error e

theorem runs_iff_iterate {n : Nat} {s t : A.State} : Runs A n s t ↔ A.iterate n s = .ok t := by
  constructor
  · intro h
    induction h with
    | refl => rfl
    | head first _ ih =>
        unfold iterate
        rw [first]
        exact ih
  · intro h
    induction n generalizing s with
    | zero =>
        cases h
        exact .refl t
    | succ n ih =>
        unfold iterate at h
        split at h
        · rename_i middle hfirst
          exact .head hfirst (ih h)
        · cases h

/-! ## Simulation -/

/-- Every step of `A` is answered by one or more steps of `B`; related states
show the same trace, and halting is answered by halting alike. -/
structure Simulation (A B : Machine.{u} H O E) (R : A.State → B.State → Prop) : Prop where
  trace : ∀ s t, R s t → A.trace s = B.trace t
  step : ∀ s t s', R s t → A.step s = .ok s' → ∃ n t', Runs B (n + 1) t t' ∧ R s' t'
  halt : ∀ s t e, R s t → A.step s = .error e →
    ∃ n t', Runs B n t t' ∧ B.step t' = .error e ∧ A.observe s = B.observe t' ∧
      A.trace s = B.trace t'

namespace Simulation

variable {R : A.State → B.State → Prop}

theorem finishes_of_finishes (sim : Simulation A B R) {s : A.State} {t : B.State} (hr : R s t)
    {e : H} {o : O} (h : Finishes A s e o) : Finishes B t e o := by
  obtain ⟨n, v, hrun, hhalt, ho⟩ := h
  induction hrun generalizing t with
  | refl s =>
      obtain ⟨m, t', hrun', hhalt', ho', -⟩ := sim.halt s t e hr hhalt
      exact ⟨m, t', hrun', hhalt', ho' ▸ ho⟩
  | head first _ ih =>
      obtain ⟨m, t', hrun', hr'⟩ := sim.step _ _ _ hr first
      obtain ⟨k, v', hrun'', hhalt', ho'⟩ := ih hr' hhalt ho
      exact ⟨_, v', hrun'.append hrun'', hhalt', ho'⟩

theorem emits_of_emits (sim : Simulation A B R) {s : A.State} {t : B.State} (hr : R s t)
    {events : List E} (h : Emits A s events) : Emits B t events := by
  obtain ⟨n, v, hrun, hp⟩ := h
  induction hrun generalizing t with
  | refl s => exact ⟨0, t, .refl t, sim.trace s t hr ▸ hp⟩
  | head first _ ih =>
      obtain ⟨m, t', hrun', hr'⟩ := sim.step _ _ _ hr first
      obtain ⟨k, v', hrun'', hp'⟩ := ih hr' hp
      exact ⟨_, v', hrun'.append hrun'', hp'⟩

/-- The converse of `finishes_of_finishes`: the steps of `B` are used up. -/
theorem finishes_of_finishes_right (sim : Simulation A B R) {e : H} {o : O} (m : Nat) :
    ∀ {s : A.State} {t v : B.State}, R s t → Runs B m t v → B.step v = .error e →
      B.observe v = o → Finishes A s e o := by
  induction m using Nat.strong_induction_on with
  | _ m ih =>
      intro s t v hr hrun hhalt ho
      cases hs : A.step s with
      | error e' =>
          obtain ⟨n, t', hrun', hhalt', ho', -⟩ := sim.halt s t e' hr hs
          -- both halting states end the same run
          have hnm : n = m :=
            le_antisymm (hrun'.le_of_halts hrun hhalt) (hrun.le_of_halts hrun' hhalt')
          subst hnm
          have hsame := hrun.continue hrun' le_rfl
          rw [Nat.sub_self] at hsame
          cases hsame
          rw [hhalt] at hhalt'
          cases hhalt'
          exact ⟨0, s, .refl s, hs, ho'.trans ho⟩
      | ok s' =>
          obtain ⟨n, t', hrun', hr'⟩ := sim.step s t s' hr hs
          have hle := hrun'.le_of_halts hrun hhalt
          obtain ⟨k, w, hk, hw, hwo⟩ :=
            ih (m - (n + 1)) (by omega) hr' (hrun'.continue hrun hle) hhalt ho
          exact ⟨k + 1, w, .head hs hk, hw, hwo⟩

theorem emits_of_emits_right (sim : Simulation A B R) {events : List E} (m : Nat) :
    ∀ {s : A.State} {t v : B.State}, R s t → Runs B m t v → events <+: B.trace v →
      Emits A s events := by
  induction m using Nat.strong_induction_on with
  | _ m ih =>
      intro s t v hr hrun hp
      cases hs : A.step s with
      | error e =>
          obtain ⟨n, t', hrun', hhalt', -, ht'⟩ := sim.halt s t e hr hs
          have hle := hrun.le_of_halts hrun' hhalt'
          have hpre := (hrun.continue hrun' hle).trace_grows
          exact ⟨0, s, .refl s, hp.trans (ht' ▸ hpre)⟩
      | ok s' =>
          obtain ⟨n, t', hrun', hr'⟩ := sim.step s t s' hr hs
          rcases Nat.lt_or_ge m (n + 1) with hlt | hge
          · have hpre := (hrun.continue hrun' (Nat.le_of_lt hlt)).trace_grows
            exact ⟨1, s', .single hs, hp.trans (sim.trace s' t' hr' ▸ hpre)⟩
          · obtain ⟨k, w, hk, hw⟩ := ih (m - (n + 1)) (by omega) hr' (hrun'.continue hrun hge) hp
            exact ⟨k + 1, w, .head hs hk, hw⟩

theorem sameBehavior (sim : Simulation A B R) {s : A.State} {t : B.State} (hr : R s t) :
    SameBehavior A B s t where
  finishes _ _ := ⟨sim.finishes_of_finishes hr,
    fun ⟨m, _, hrun, hhalt, ho⟩ => sim.finishes_of_finishes_right m hr hrun hhalt ho⟩
  emits _ := ⟨sim.emits_of_emits hr,
    fun ⟨m, _, hrun, hp⟩ => sim.emits_of_emits_right m hr hrun hp⟩

end Simulation

/-- A property that holds at the start and survives every step holds in every
state of the run. -/
theorem Runs.invariant {P : A.State → Prop} (hstep : ∀ s t, P s → A.step s = .ok t → P t)
    {n : Nat} {s t : A.State} (h : Runs A n s t) (hs : P s) : P t := by
  induction h with
  | refl => exact hs
  | head first _ ih => exact ih (hstep _ _ hs first)

end Machine

end Disco.Library
