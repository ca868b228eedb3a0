import Disco.Library.Checked

/-! # Computations with a state

A computation changes a state and returns a value or stops; the state is kept where it
stops. Two computations are related when they do the same up to a relation between
their states, and the relation is carried through sequences, loops and handlers.
-/

namespace Disco.Library

/-- A computation on states `σ` that may stop with an `ε`. -/
def Computation (σ ε α : Type) : Type := σ → Except ε α × σ

namespace Computation

variable {σ ε ε' α β : Type}

def done (a : α) : Computation σ ε α := fun s => (.ok a, s)

def stop (e : ε) : Computation σ ε α := fun s => (.error e, s)

def andThen (x : Computation σ ε α) (f : α → Computation σ ε β) : Computation σ ε β := fun s =>
  match x s with
  | (.ok a, t) => f a t
  | (.error e, t) => (.error e, t)

instance : Monad (Computation σ ε) where
  pure := done
  bind := andThen

def read (f : σ → α) : Computation σ ε α := fun s => (.ok (f s), s)

def change (f : σ → σ) : Computation σ ε Unit := fun s => (.ok (), f s)

/-- The same computation with other names for where it stops. -/
def mapStop (f : ε → ε') (x : Computation σ ε α) : Computation σ ε' α := fun s =>
  match x s with
  | (.ok a, t) => (.ok a, t)
  | (.error e, t) => (.error (f e), t)

/-- Go on where the handler says so. -/
def rescue (handler : ε → Option α) (x : Computation σ ε α) : Computation σ ε α := fun s =>
  match x s with
  | (.ok a, t) => (.ok a, t)
  | (.error e, t) =>
      match handler e with
      | some a => (.ok a, t)
      | none => (.error e, t)

/-- Rounds until one says that it was the last; a bound ends those that never do. -/
def rounds (round : Computation σ ε Bool) (exhausted : ε) : Nat → Computation σ ε Unit
  | 0 => stop exhausted
  | bound + 1 => do
      let more ← round
      match more with
      | true => rounds round exhausted bound
      | false => pure ()

def times (x : Computation σ ε Unit) : Nat → Computation σ ε Unit
  | 0 => pure ()
  | n + 1 => do
      x
      times x n

/-! ## What is run -/

theorem pure_run (a : α) (s : σ) : (pure a : Computation σ ε α) s = (.ok a, s) := rfl

theorem bind_run (x : Computation σ ε α) (f : α → Computation σ ε β) (s : σ) :
    (x >>= f) s = match x s with
      | (.ok a, t) => f a t
      | (.error e, t) => (.error e, t) := rfl

theorem bind_of_ok {x : Computation σ ε α} {f : α → Computation σ ε β} {s t : σ} {a : α} (h : x s = (.ok a, t)) : (x >>= f) s = f a t := by
  rw [bind_run, h]

theorem bind_of_error {x : Computation σ ε α} {f : α → Computation σ ε β} {s t : σ} {e : ε} (h : x s = (.error e, t)) :
    (x >>= f) s = (.error e, t) := by
  rw [bind_run, h]

theorem rescue_of_ok {handler : ε → Option α} {x : Computation σ ε α} {s t : σ} {a : α} (h : x s = (.ok a, t)) :
    rescue handler x s = (.ok a, t) := by
  simp [rescue, h]

theorem rescue_of_error {handler : ε → Option α} {x : Computation σ ε α} {s t : σ} {e : ε} (h : x s = (.error e, t))
    (hhandler : handler e = none) : rescue handler x s = (.error e, t) := by
  simp [rescue, h, hhandler]

/-! ## Related computations -/

/-- The same results and related states, from related states. -/
def Related (R : σ → σ → Prop) (x y : Computation σ ε α) : Prop := ∀ s t, R s t → (x s).1 = (y t).1 ∧ R (x s).2 (y t).2

section Related

variable {R : σ → σ → Prop} {x y : Computation σ ε α}

theorem Related.pure (a : α) : Related R (Pure.pure a : Computation σ ε α) (Pure.pure a) := fun _ _ h => ⟨rfl, h⟩

theorem Related.stop (e : ε) : Related R (Computation.stop e : Computation σ ε α) (Computation.stop e) := fun _ _ h => ⟨rfl, h⟩

theorem Related.read {f : σ → α} (h : ∀ s t, R s t → f s = f t) : Related R (Computation.read f : Computation σ ε α) (Computation.read f) := by
  intro s t hst
  exact ⟨congrArg Except.ok (h s t hst), hst⟩

/-- How related computations end. -/
theorem Related.cases (h : Related R x y) {s t : σ} (hst : R s t) :
    (∃ a s' t', x s = (.ok a, s') ∧ y t = (.ok a, t') ∧ R s' t') ∨
      ∃ e s' t', x s = (.error e, s') ∧ y t = (.error e, t') ∧ R s' t' := by
  obtain ⟨hresult, hstate⟩ := h s t hst
  rcases hx : x s with ⟨result, s'⟩
  rcases hy : y t with ⟨result', t'⟩
  rw [hx, hy] at hresult hstate
  obtain rfl : result = result' := hresult
  cases result with
  | ok a => exact .inl ⟨a, s', t', rfl, rfl, hstate⟩
  | error e => exact .inr ⟨e, s', t', rfl, rfl, hstate⟩

theorem Related.bind (h : Related R x y) {f g : α → Computation σ ε β} (hf : ∀ a, Related R (f a) (g a)) :
    Related R (x >>= f) (y >>= g) := by
  intro s t hst
  rcases h.cases hst with ⟨a, s', t', hx, hy, hst'⟩ | ⟨e, s', t', hx, hy, hst'⟩
  · rw [bind_of_ok hx, bind_of_ok hy]
    exact hf a s' t' hst'
  · rw [bind_of_error hx, bind_of_error hy]
    exact ⟨rfl, hst'⟩

theorem Related.mapStop (h : Related R x y) (f : ε → ε') : Related R (x.mapStop f) (y.mapStop f) := by
  intro s t hst
  rcases h.cases hst with ⟨a, s', t', hx, hy, hst'⟩ | ⟨e, s', t', hx, hy, hst'⟩
  · simp only [Computation.mapStop, hx, hy]
    exact ⟨trivial, hst'⟩
  · simp only [Computation.mapStop, hx, hy]
    exact ⟨trivial, hst'⟩

theorem Related.rescue (h : Related R x y) (handler : ε → Option α) : Related R (x.rescue handler) (y.rescue handler) := by
  intro s t hst
  rcases h.cases hst with ⟨a, s', t', hx, hy, hst'⟩ | ⟨e, s', t', hx, hy, hst'⟩
  · rw [rescue_of_ok hx, rescue_of_ok hy]
    exact ⟨rfl, hst'⟩
  · simp only [Computation.rescue, hx, hy]
    cases handler e with
    | none => exact ⟨rfl, hst'⟩
    | some a => exact ⟨rfl, hst'⟩

theorem Related.rounds {round round' : Computation σ ε Bool} (h : Related R round round') (exhausted : ε) (bound : Nat) :
    Related R (Computation.rounds round exhausted bound) (Computation.rounds round' exhausted bound) := by
  induction bound with
  | zero => exact .stop exhausted
  | succ bound ih =>
      refine h.bind fun more => ?_
      cases more with
      | true => exact ih
      | false => exact .pure ()

theorem Related.times {x y : Computation σ ε Unit} (h : Related R x y) (n : Nat) : Related R (x.times n) (y.times n) := by
  induction n with
  | zero => exact .pure ()
  | succ n ih => exact h.bind fun _ => ih

end Related

/-! ## What a computation keeps -/

/-- A part of the state that stays as it is. -/
def Keeps (f : σ → β) (x : Computation σ ε α) : Prop := ∀ s, f (x s).2 = f s

section Keeps

variable {γ : Type} {f : σ → γ} {x : Computation σ ε α}

theorem Keeps.pure (a : α) : Keeps f (Pure.pure a : Computation σ ε α) := fun _ => rfl

theorem Keeps.stop (e : ε) : Keeps f (Computation.stop e : Computation σ ε α) := fun _ => rfl

theorem Keeps.read (g : σ → α) : Keeps f (Computation.read g : Computation σ ε α) := fun _ => rfl

theorem Keeps.change {g : σ → σ} (h : ∀ s, f (g s) = f s) : Keeps f (Computation.change g : Computation σ ε Unit) := h

theorem Keeps.bind (h : Keeps f x) {k : α → Computation σ ε β} (hk : ∀ a, Keeps f (k a)) : Keeps f (x >>= k) := by
  intro s
  have hs := h s
  rw [bind_run]
  rcases hx : x s with ⟨result, t⟩
  rw [hx] at hs
  cases result with
  | ok a => exact (hk a t).trans hs
  | error e => exact hs

theorem Keeps.mapStop (h : Keeps f x) (g : ε → ε') : Keeps f (x.mapStop g) := by
  intro s
  have hs := h s
  unfold Computation.mapStop
  rcases hx : x s with ⟨result, t⟩
  rw [hx] at hs
  cases result <;> exact hs

theorem Keeps.rescue (h : Keeps f x) (handler : ε → Option α) : Keeps f (x.rescue handler) := by
  intro s
  have hs := h s
  unfold Computation.rescue
  rcases hx : x s with ⟨result, t⟩
  rw [hx] at hs
  cases result with
  | ok a => exact hs
  | error e =>
      simp only
      cases handler e with
      | none => exact hs
      | some a => exact hs

theorem Keeps.rounds {round : Computation σ ε Bool} (h : Keeps f round) (exhausted : ε) (bound : Nat) :
    Keeps f (Computation.rounds round exhausted bound) := by
  induction bound with
  | zero => exact .stop exhausted
  | succ bound ih =>
      refine h.bind fun more => ?_
      cases more with
      | true => exact ih
      | false => exact .pure ()

theorem Keeps.times {x : Computation σ ε Unit} (h : Keeps f x) (n : Nat) : Keeps f (x.times n) := by
  induction n with
  | zero => exact .pure ()
  | succ n ih => exact h.bind fun _ => ih

end Keeps

/-! ## Where a computation stops -/

/-- Wherever it stops, it is for one of these reasons. -/
def StopsWith (P : ε → Prop) (x : Computation σ ε α) : Prop := ∀ s t e, x s = (.error e, t) → P e

section StopsWith

variable {P : ε → Prop} {x : Computation σ ε α}

theorem StopsWith.pure (a : α) : StopsWith P (Pure.pure a : Computation σ ε α) := fun _ _ _ h => nomatch h

theorem StopsWith.stop {e : ε} (h : P e) : StopsWith P (Computation.stop e : Computation σ ε α) := by
  rintro s t e' heq
  cases heq
  exact h

theorem StopsWith.change (g : σ → σ) : StopsWith P (Computation.change g : Computation σ ε Unit) := fun _ _ _ h => nomatch h

theorem StopsWith.bind (h : StopsWith P x) {f : α → Computation σ ε β} (hf : ∀ a, StopsWith P (f a)) : StopsWith P (x >>= f) := by
  intro s t e heq
  rw [bind_run] at heq
  split at heq
  · exact hf _ _ _ _ heq
  · rename_i hx
    cases heq
    exact h _ _ _ hx

/-- Stops that come from another kind of stop. -/
theorem StopsWith.mapStop {Q : ε' → Prop} {f : ε → ε'} (h : ∀ e, Q (f e)) (x : Computation σ ε α) : StopsWith Q (x.mapStop f) := by
  intro s t e heq
  unfold Computation.mapStop at heq
  split at heq
  · cases heq
  · cases heq
    exact h _

theorem StopsWith.rescue (h : StopsWith P x) (handler : ε → Option α) : StopsWith P (x.rescue handler) := by
  intro s t e heq
  unfold Computation.rescue at heq
  split at heq
  · cases heq
  · rename_i hx
    split at heq
    · cases heq
    · cases heq
      exact h _ _ _ hx

theorem StopsWith.mono {Q : ε → Prop} (h : StopsWith P x) (hPQ : ∀ e, P e → Q e) : StopsWith Q x :=
  fun s t e heq => hPQ e (h s t e heq)

theorem StopsWith.rounds {round : Computation σ ε Bool} (h : StopsWith P round) {exhausted : ε} (hexhausted : P exhausted) (bound : Nat) :
    StopsWith P (Computation.rounds round exhausted bound) := by
  induction bound with
  | zero => exact .stop hexhausted
  | succ bound ih =>
      refine h.bind fun more => ?_
      cases more with
      | true => exact ih
      | false => exact .pure ()

/-- A handler that is for other stops has nothing to do. -/
theorem rescue_of_stopsWith {P : ε → Prop} {x : Computation σ ε α} {handler : ε → Option α} (h : StopsWith P x)
    (hhandler : ∀ e, P e → handler e = none) : x.rescue handler = x := by
  funext s
  rcases hx : x s with ⟨result, t⟩
  cases result with
  | ok a => exact rescue_of_ok hx
  | error e => exact rescue_of_error hx (hhandler e (h s t e hx))

end StopsWith

/-! ## Rounds that are counted -/

/-- Rounds that count down from `n` do what their body does `n` times. -/
theorem rounds_times {C : Nat → σ → σ → Prop} {R : σ → σ → Prop} {round : Computation σ ε Bool} {body : Computation σ ε Unit}
    {exhausted : ε}
    (hround : ∀ n s t, C (n + 1) s t →
      (∃ s' t', round s = (.ok true, s') ∧ body t = (.ok (), t') ∧ C n s' t') ∨
        ∃ e s' t', round s = (.error e, s') ∧ body t = (.error e, t') ∧ R s' t')
    (hlast : ∀ s t, C 0 s t → ∃ s', round s = (.ok false, s') ∧ R s' t) (n : Nat) :
    ∀ bound s t, n < bound → C n s t →
      (rounds round exhausted bound s).1 = (times body n t).1 ∧ R (rounds round exhausted bound s).2 (times body n t).2 := by
  induction n with
  | zero =>
      intro bound s t hbound hC
      obtain ⟨s', hround', hR⟩ := hlast s t hC
      obtain ⟨bound, rfl⟩ := Nat.exists_eq_add_of_lt hbound
      rw [Nat.zero_add, rounds, bind_of_ok hround']
      exact ⟨rfl, hR⟩
  | succ n ih =>
      intro bound s t hbound hC
      obtain ⟨bound, rfl⟩ : ∃ bound', bound = bound' + 1 := ⟨bound - 1, by omega⟩
      rcases hround n s t hC with ⟨s', t', hround', hbody, hC'⟩ | ⟨e, s', t', hround', hbody, hR⟩
      · rw [rounds, times, bind_of_ok hround', bind_of_ok hbody]
        exact ih bound s' t' (by omega) hC'
      · rw [rounds, times, bind_of_error hround', bind_of_error hbody]
        exact ⟨rfl, hR⟩

end Computation

end Disco.Library
