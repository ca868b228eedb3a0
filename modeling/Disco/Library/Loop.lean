import Disco.Library.Checked

/-! # Loops

A `while` loop is a body that says how to go on, iterated under a bound. The
bound is not part of the program: either the program itself gives up at a work
limit, or a measure shows that the bound is never reached.
-/

namespace Disco.Library

variable {ε α β : Type}

/-- Iterate `next` until it says stop. -/
def loop (next : α → Except ε (Option α)) (exhausted : ε) : Nat → α → Except ε α
  | 0, _ => .error exhausted
  | fuel + 1, a =>
      match next a with
      | .error e => .error e
      | .ok none => .ok a
      | .ok (some b) => loop next exhausted fuel b

section Rules

variable {next : α → Except ε (Option α)} {exhausted : ε} {I : α → Prop}

/-- An invariant of the body holds where the loop stops. -/
theorem loop_eq_ok (hstep : ∀ a b, I a → next a = .ok (some b) → I b) {fuel : Nat} {a r : α}
    (ha : I a) (h : loop next exhausted fuel a = .ok r) : I r ∧ next r = .ok none := by
  induction fuel generalizing a with
  | zero => cases h
  | succ fuel ih =>
      unfold loop at h
      split at h
      · cases h
      · next hn =>
          cases h
          exact ⟨ha, hn⟩
      · next b hn => exact ih (hstep a b ha hn) h

/-- A body that never fails and decreases a measure reaches its end. -/
theorem loop_terminates (μ : α → Nat) (htotal : ∀ a, I a → ∃ r, next a = .ok r)
    (hstep : ∀ a b, I a → next a = .ok (some b) → I b ∧ μ b < μ a) {fuel : Nat} {a : α}
    (ha : I a) (hfuel : μ a < fuel) : ∃ r, loop next exhausted fuel a = .ok r := by
  induction fuel generalizing a with
  | zero => omega
  | succ fuel ih =>
      obtain ⟨r, hr⟩ := htotal a ha
      cases r with
      | none => exact ⟨a, by simp [loop, hr]⟩
      | some b =>
          obtain ⟨hb, hlt⟩ := hstep a b ha hr
          obtain ⟨r, hloop⟩ := ih hb (by omega)
          exact ⟨r, by simp [loop, hr, hloop]⟩

/-- A body that may fail but decreases a measure ends before the bound. -/
theorem loop_ne_exhausted (μ : α → Nat) (hnext : ∀ a, next a ≠ .error exhausted)
    (hstep : ∀ a b, next a = .ok (some b) → μ b < μ a) {fuel : Nat} {a : α} (hfuel : μ a < fuel) :
    loop next exhausted fuel a ≠ .error exhausted := by
  induction fuel generalizing a with
  | zero => omega
  | succ fuel ih =>
      unfold loop
      split
      · next e he =>
          intro h
          cases h
          exact hnext a he
      · simp
      · next b hb =>
          have := hstep a b hb
          exact ih (by omega)

/-- A bound that a measure does not reach has no influence. -/
theorem loop_bound (μ : α → Nat) (hstep : ∀ a b, next a = .ok (some b) → μ b < μ a) {fuel fuel' : Nat} {a : α}
    (hfuel : μ a < fuel) (hfuel' : μ a < fuel') : loop next exhausted fuel a = loop next exhausted fuel' a := by
  induction fuel generalizing fuel' a with
  | zero => omega
  | succ fuel ih =>
      obtain ⟨bound, rfl⟩ := Nat.exists_eq_succ_of_ne_zero (show fuel' ≠ 0 by omega)
      unfold loop
      split
      · rfl
      · rfl
      · next b hb =>
          have := hstep a b hb
          exact ih (by omega) (by omega)

end Rules

/-- Check every element in order. -/
def checkAll (check : α → Except ε Unit) : List α → Except ε Unit
  | [] => .ok ()
  | a :: rest => do
      check a
      checkAll check rest

@[simp] theorem checkAll_eq_ok {check : α → Except ε Unit} {list : List α} {u : Unit} :
    checkAll check list = .ok u ↔ ∀ a ∈ list, check a = .ok () := by
  induction list with
  | nil => simp [checkAll]
  | cons a rest ih =>
      simp only [checkAll, bind_eq_ok, exists_unit, ih, List.forall_mem_cons]

/-- Thread a state through a list, stopping at the first failure. -/
def foldAll (next : β → α → Except ε β) : β → List α → Except ε β
  | b, [] => .ok b
  | b, a :: rest => do
      let b ← next b a
      foldAll next b rest

theorem foldAll_append (next : β → α → Except ε β) (b : β) (left right : List α) :
    foldAll next b (left ++ right) = (foldAll next b left >>= fun b => foldAll next b right) := by
  induction left generalizing b with
  | nil => rfl
  | cons a rest ih =>
      simp only [List.cons_append, foldAll]
      cases next b a with
      | error e => rfl
      | ok b => exact ih b

/-- An invariant indexed by the elements already seen. -/
theorem foldAll_eq_ok {next : β → α → Except ε β} {I : List α → β → Prop}
    (hstep : ∀ seen b a c, I seen b → next b a = .ok c → I (seen ++ [a]) c)
    {seen list : List α} {b r : β} (hb : I seen b) (h : foldAll next b list = .ok r) :
    I (seen ++ list) r := by
  induction list generalizing seen b with
  | nil =>
      cases h
      simpa using hb
  | cons a rest ih =>
      obtain ⟨c, hc, h⟩ := bind_eq_ok.mp h
      have := ih (hstep seen b a c hb hc) h
      simpa using this

/-- The same from the start of a list. -/
theorem foldAll_seen {next : β → α → Except ε β} {I : List α → β → Prop}
    (hstep : ∀ seen b a c, I seen b → next b a = .ok c → I (seen ++ [a]) c)
    {list : List α} {b r : β} (hb : I [] b) (h : foldAll next b list = .ok r) : I list r :=
  foldAll_eq_ok hstep hb h

/-- An invariant of every step. -/
theorem foldAll_preserves {next : β → α → Except ε β} {I : β → Prop}
    (hstep : ∀ b a c, I b → next b a = .ok c → I c) {list : List α} {b r : β} (hb : I b)
    (h : foldAll next b list = .ok r) : I r :=
  foldAll_seen (I := fun _ b => I b) (fun _ b a c => hstep b a c) hb h

/-- Steps that never fail make a run that does not. -/
theorem foldAll_total {next : β → α → Except ε β} {list : List α}
    (hstep : ∀ b, ∀ a ∈ list, ∃ c, next b a = .ok c) (b : β) :
    ∃ r, foldAll next b list = .ok r := by
  induction list generalizing b with
  | nil => exact ⟨b, rfl⟩
  | cons a rest ih =>
      obtain ⟨c, hc⟩ := hstep b a List.mem_cons_self
      obtain ⟨r, hr⟩ := ih (fun d x hx => hstep d x (List.mem_cons_of_mem _ hx)) c
      exact ⟨r, bind_eq_ok.mpr ⟨c, hc, hr⟩⟩

/-- What holds at a normal end, and what holds at a stop. -/
def Ends (P : β → Prop) (Q : ε → Prop) : Except ε β → Prop
  | .ok b => P b
  | .error e => Q e

theorem Ends.bind {P : α → Prop} {P' : β → Prop} {Q : ε → Prop} {x : Except ε α}
    {next : α → Except ε β} (h : Ends P Q x) (hnext : ∀ a, P a → Ends P' Q (next a)) :
    Ends P' Q (x >>= next) := by
  cases x with
  | error e => exact h
  | ok a => exact hnext a h

theorem Ends.mono {P P' : β → Prop} {Q : ε → Prop} {x : Except ε β} (h : Ends P Q x) (himp : ∀ b, P b → P' b) : Ends P' Q x := by
  cases x with
  | error e => exact h
  | ok b => exact himp b h

/-- Where stops do not matter, only the last part of a sequence does. -/
theorem Ends.last {P : β → Prop} {x : Except ε α} {next : α → Except ε β}
    (h : ∀ a, Ends P (fun _ => True) (next a)) : Ends P (fun _ => True) (x >>= next) := by
  cases x with
  | error e => exact trivial
  | ok a => exact h a

theorem Ends.of_ok {P : β → Prop} {Q : ε → Prop} {x : Except ε β} {b : β} (h : Ends P Q x)
    (hx : x = .ok b) : P b := by
  subst hx
  exact h

/-- Two computations that stop alike or end in related results. -/
def Alike {γ : Type} (R : β → γ → Prop) : Except ε β → Except ε γ → Prop
  | .ok b, .ok c => R b c
  | .error e, .error f => e = f
  | _, _ => False

section Alike

variable {γ δ : Type} {R : α → γ → Prop} {S : β → δ → Prop}

theorem Alike.bind {x : Except ε α} {y : Except ε γ} {f : α → Except ε β} {g : γ → Except ε δ}
    (h : Alike R x y) (hnext : ∀ a c, R a c → Alike S (f a) (g c)) :
    Alike S (x >>= f) (y >>= g) := by
  cases x with
  | error e =>
      cases y with
      | error e' => exact h
      | ok c => exact h.elim
  | ok a =>
      cases y with
      | error e' => exact h.elim
      | ok c => exact hnext a c h

theorem Alike.mapError {ε' : Type} {x : Except ε α} {y : Except ε γ} (h : Alike R x y)
    (f : ε → ε') : Alike R (x.mapError f) (y.mapError f) := by
  cases x with
  | error e =>
      cases y with
      | error e' => exact congrArg f h
      | ok c => exact h.elim
  | ok a =>
      cases y with
      | error e' => exact h.elim
      | ok c => exact h

theorem Alike.mono {R' : α → γ → Prop} {x : Except ε α} {y : Except ε γ} (h : Alike R x y)
    (himp : ∀ a c, R a c → R' a c) : Alike R' x y := by
  cases x with
  | error e =>
      cases y with
      | error e' => exact h
      | ok c => exact h.elim
  | ok a =>
      cases y with
      | error e' => exact h.elim
      | ok c => exact himp a c h

end Alike

/-- An invariant of every step holds wherever a run through a list ends. -/
theorem foldAll_ends {next : β → α → Except ε β} {P : β → Prop} {Q : ε → Prop} {list : List α}
    (hstep : ∀ b, ∀ a ∈ list, P b → Ends P Q (next b a)) {b : β} (hb : P b) :
    Ends P Q (foldAll next b list) := by
  induction list generalizing b with
  | nil => exact hb
  | cons a rest ih =>
      refine (hstep b a List.mem_cons_self hb).bind fun c hc => ?_
      exact ih (fun d x hx => hstep d x (List.mem_cons_of_mem _ hx)) hc

/-- The same with the elements that have been seen. -/
theorem foldAll_ends_seen {next : β → α → Except ε β} {I : List α → β → Prop} {Q : ε → Prop} {list : List α}
    (hstep : ∀ seen b, ∀ a ∈ list, I seen b → Ends (I (seen ++ [a])) Q (next b a)) {seen : List α} {b : β} (hb : I seen b) :
    Ends (I (seen ++ list)) Q (foldAll next b list) := by
  induction list generalizing seen b with
  | nil => simpa [foldAll, Ends] using hb
  | cons a rest ih =>
      refine (hstep seen b a List.mem_cons_self hb).bind fun c hc => ?_
      have hrest := ih (fun seen d x hx => hstep seen d x (List.mem_cons_of_mem _ hx)) hc
      rwa [List.append_assoc, List.singleton_append] at hrest

end Disco.Library
