import Disco.Backend.FramePlan
import Disco.Backend.PhiCopies

/-! # Edges without copies, edges without R6

Branches are chosen before the copies of an edge are emitted, so two predicates
foretell them: whether there are any, and whether they need R6. The second one
removes copies of registers in the order of the emission, without emitting.
-/

namespace Disco.Backend.PhiCopies

open IR Library FramePlan

section Predicates

variable (f : Function) (homes : Homes)

def sameRegister (a b : Nat) : Bool :=
  match homes.register a, homes.register b with
  | some x, some y => decide (x = y)
  | _, _ => false

def sameSlot (a b : Nat) : Bool :=
  match homes.slot a, homes.slot b with
  | some x, some y => decide (x = y)
  | _, _ => false

/-- The PHI results and operands of an edge that differ in place. -/
def unequalEdges (source target : Nat) : List (Nat × Nat) :=
  (phis (f.code target)).flatMap fun phi =>
    if useCount f phi.result = 0 then []
    else ((phi.targets.zip phi.operands).filter fun edge =>
        !(decide (edge.1 ≠ source) || decide (phi.result = edge.2) || sameRegister homes phi.result edge.2 ||
          sameSlot homes phi.result edge.2)).map fun edge => (phi.result, edge.2)

def phiCopiesEmpty (source target : Nat) : Bool := (unequalEdges f homes source target).isEmpty

/-- The first copy whose destination no other pending one reads. -/
def readyCopy (moves : List (Nat × Nat)) : Option ((Nat × Nat) × Nat) :=
  moves.zipIdx.find? fun entry => !moves.zipIdx.any fun other => decide (other.2 ≠ entry.2) && decide (entry.1.1 = other.1.2)

/-- Remove copies until none is left or all are blocked; each round removes one. -/
def blocked : Nat → List (Nat × Nat) → Bool
  | _, [] => false
  | 0, _ => false
  | rounds + 1, moves =>
      match readyCopy moves with
      | none => true
      | some (_, index) => blocked rounds (moves.eraseIdx index)

def phiCopiesUseR6 (source target : Nat) : Bool :=
  let edges := unequalEdges f homes source target
  if edges.any fun edge => (homes.register edge.1).isNone || (homes.register edge.2).isNone then false
  else
    let moves := edges.map fun edge => ((homes.register edge.1).getD 0, (homes.register edge.2).getD 0)
    decide (moves.length > 64) || blocked moves.length moves

end Predicates

/-- The copy reads or writes R6. -/
def Copy.usesR6 : Copy → Bool
  | .literal reg _ => decide (reg = 6)
  | .move destination source => decide (destination = 6) || decide (source = 6)
  | .store _ source => decide (source = 6)
  | _ => false

section Prediction

variable {f : Function} {homes : Homes} {source target : Nat}

theorem same_eq (hp : homes.Proper) (a b : Nat) :
    homes.same a b = (decide (a = b) || sameRegister homes a b || sameSlot homes a b) := by
  unfold Homes.same sameRegister sameSlot
  cases hra : homes.register a with
  | none => cases homes.slot a <;> cases homes.slot b <;> simp
  | some x =>
      rw [hp.exclusive a x hra]
      cases hrb : homes.register b with
      | none => simp
      | some y => simp

theorem edgeMoves_unequal (hp : homes.Proper) (f : Function) (source target : Nat) :
    (edgeMoves f homes source target).map Move.ends = unequalEdges f homes source target := by
  unfold edgeMoves unequalEdges
  rw [List.map_flatMap]
  apply List.flatMap_congr
  intro phi _
  split
  · rfl
  · rw [List.map_map]
    have hfilter : (fun edge : Nat × Nat => decide (edge.1 = source) && !homes.same phi.result edge.2) =
        fun edge => !(decide (edge.1 ≠ source) || decide (phi.result = edge.2) || sameRegister homes phi.result edge.2 ||
          sameSlot homes phi.result edge.2) := by
      funext edge
      rw [same_eq hp]
      by_cases hsource : edge.1 = source <;> simp [hsource]
    rw [hfilter]
    rfl

/-- The registers a copy reads and writes. -/
def registersOf (homes : Homes) (move : Move) : Nat × Nat :=
  ((homes.register move.destination).getD 0, (homes.register move.source).getD 0)

/-- Pending copies between registers, none of them set aside. -/
structure Simple (homes : Homes) (moves : List Move) : Prop where
  registers : ∀ m ∈ moves, inRegisters homes m = true
  fresh : ∀ m ∈ moves, m.saved = false

theorem Simple.erase {moves : List Move} (h : Simple homes moves) (index : Nat) : Simple homes (moves.eraseIdx index) where
  registers := fun m hm => h.registers m (List.mem_of_mem_eraseIdx hm)
  fresh := fun m hm => h.fresh m (List.mem_of_mem_eraseIdx hm)

theorem same_registers {a b : Nat} (ha : (homes.register a).isSome = true) (hb : (homes.register b).isSome = true) :
    homes.same a b = decide ((homes.register a).getD 0 = (homes.register b).getD 0) := by
  obtain ⟨x, hx⟩ := Option.isSome_iff_exists.mp ha
  obtain ⟨y, hy⟩ := Option.isSome_iff_exists.mp hb
  unfold Homes.same
  rw [hx, hy]
  by_cases heq : a = b
  · rw [heq, hy] at hx
    cases hx
    simp [heq]
  · simp [heq]

/-- Without saved copies the prediction finds the copy the emission finds. -/
theorem readyCopy_eq {moves : List Move} (h : Simple homes moves) :
    readyCopy (moves.map (registersOf homes)) = (ready homes moves).map fun entry => (registersOf homes entry.1, entry.2) := by
  have hregisters : ∀ m ∈ moves, (homes.register m.destination).isSome = true ∧ (homes.register m.source).isSome = true :=
    fun m hm => Bool.and_eq_true_iff.mp (h.registers m hm)
  unfold readyCopy ready
  rw [List.zipIdx_map, List.find?_map]
  have hmap : Prod.map (registersOf homes) id = fun entry : Move × Nat => (registersOf homes entry.1, entry.2) := rfl
  rw [hmap]
  congr 1
  apply List.find?_congr
  intro entry hentry
  have hmem := List.fst_mem_of_mem_zipIdx hentry
  unfold needed
  rw [Function.comp_apply, List.any_map]
  congr 1
  rw [Bool.eq_iff_iff, List.any_eq_true, List.any_eq_true]
  apply exists_congr
  intro other
  apply and_congr_right
  intro hother
  have hmem' := List.fst_mem_of_mem_zipIdx hother
  rw [h.fresh _ hmem', same_registers (hregisters _ hmem).1 (hregisters _ hmem').2, Bool.not_false, Bool.and_true]
  rfl

variable {registerOnly : Bool} {move : Move} {code : List Copy}

/-- Only a saved register comes out of R6. -/
theorem emitCopy_avoids (hp : homes.Proper) (hsaved : ¬ (move.saved = true ∧ registerOnly = true))
    (h : emitCopy f homes registerOnly move = .ok code) : ∀ c ∈ code, c.usesR6 = false := by
  have hfree : ∀ {v : Nat}, (homes.register v).isSome = true → (homes.register v).getD 0 ≠ 6 := by
    intro v hv
    obtain ⟨reg, hreg⟩ := Option.isSome_iff_exists.mp hv
    rw [hreg]
    exact (hp.free v reg hreg).2
  unfold emitCopy at h
  dsimp only at h
  split at h
  · next hliteral =>
      cases h
      simp [Copy.usesR6, hfree hliteral.2.1]
  · split at h
    · next hmove =>
        cases h
        cases hmove.2 with
        | inl hheld => exact absurd hheld hsaved
        | inr hfresh => simp [Copy.usesR6, hfresh.1, hfree hmove.1, hfree hfresh.2]
    · split at h
      · next hstore =>
          cases h
          simp [Copy.usesR6, hfree hstore.2.1]
      · have hfetch : (if move.saved = true then Copy.pop else Copy.materialize move.source).usesR6 = false := by
          split <;> rfl
        generalize (if move.saved = true then Copy.pop else Copy.materialize move.source) = fetch at hfetch h
        split at h
        · next reg hreg =>
            cases h
            have hne := (hp.free _ reg hreg).2
            have hmove : (Copy.move reg 0).usesR6 = false := by simp [Copy.usesR6, hne]
            simp [hfetch, hmove]
        · next offset _ _ =>
            cases h
            have hspill : (Copy.spill offset).usesR6 = false := rfl
            simp [hfetch, hspill]
        · cases h

theorem emitCopy_ne_nil (h : emitCopy f homes registerOnly move = .ok code) : code ≠ [] := by
  unfold emitCopy at h
  dsimp only at h
  split at h
  · cases h
    exact List.cons_ne_nil _ _
  · split at h
    · cases h
      exact List.cons_ne_nil _ _
    · split at h
      · cases h
        exact List.cons_ne_nil _ _
      · split at h
        · cases h
          exact List.cons_ne_nil _ _
        · cases h
          exact List.cons_ne_nil _ _
        · cases h

/-- A round: every copy it emits stands after the ones before. -/
theorem emitNext_code {emission next : Emission} (h : emitNext f homes registerOnly emission = .ok (some next)) :
    ∃ code, code ≠ [] ∧ next.code = emission.code ++ code := by
  unfold emitNext at h
  split at h
  · cases h
  · split at h
    · cases h
      refine ⟨_, ?_, rfl⟩
      unfold save
      dsimp only
      split <;> exact List.cons_ne_nil _ _
    · obtain ⟨code, hcode, h⟩ := bind_eq_ok.mp h
      cases h
      exact ⟨code, emitCopy_ne_nil hcode, rfl⟩

theorem loop_code {fuel : Nat} {emission result : Emission}
    (h : loop (emitNext f homes registerOnly) unending fuel emission = .ok result) :
    emission.code ⊆ result.code := by
  have hend := loop_eq_ok (I := fun e : Emission => emission.code ⊆ e.code) (fun e next hsub hnext => by
    obtain ⟨code, _, hcode⟩ := emitNext_code hnext
    rw [hcode]
    exact List.subset_append_of_subset_left _ hsub) (List.Subset.refl _) h
  exact hend.1

/-- Copies between registers: the prediction follows the rounds. -/
theorem blocked_spec (hp : homes.Proper) {fuel : Nat} (emission : Emission) {result : Emission} (hsimple : Simple homes emission.moves)
    (h : loop (emitNext f homes true) unending fuel emission = .ok result) :
    (blocked emission.moves.length (emission.moves.map (registersOf homes)) = true → ∃ c ∈ result.code, c.usesR6 = true) ∧
      (blocked emission.moves.length (emission.moves.map (registersOf homes)) = false →
        ∀ c ∈ result.code, c.usesR6 = true → c ∈ emission.code) := by
  induction fuel generalizing emission with
  | zero => cases h
  | succ fuel ih =>
      unfold loop at h
      split at h
      · cases h
      · next hstop =>
          cases h
          have hnil := emitNext_none hstop
          rw [hnil]
          exact ⟨nofun, fun _ c hc _ => hc⟩
      · next next hnext =>
          have hready := readyCopy_eq hsimple
          unfold emitNext at hnext
          split at hnext
          · cases hnext
          · next first rest hmoves =>
              have hlength : emission.moves.length = rest.length + 1 := by simp [hmoves]
              have hblocked : ∀ n, blocked (n + 1) (emission.moves.map (registersOf homes)) =
                  match readyCopy (emission.moves.map (registersOf homes)) with
                  | none => true
                  | some (_, index) => blocked n ((emission.moves.map (registersOf homes)).eraseIdx index) := by
                intro n
                rw [hmoves]
                rfl
              rw [hlength, hblocked, hready]
              split at hnext
              · next hnone =>
                  cases hnext
                  rw [hnone]
                  refine ⟨fun _ => ?_, nofun⟩
                  have hsub := loop_code h
                  refine ⟨.move 6 ((homes.register first.destination).getD 0), hsub ?_, rfl⟩
                  simp [save]
              · next move index hsome =>
                  obtain ⟨code, hcode, hpure⟩ := bind_eq_ok.mp hnext
                  cases hpure
                  rw [hsome]
                  obtain ⟨hat, _⟩ := ready_spec hsome
                  have hfresh : move.saved = false :=
                    hsimple.fresh move (List.mem_iff_getElem?.mpr ⟨index, hat⟩)
                  have hrest := ih _ (hsimple.erase index) h
                  have hshorter : (emission.moves.eraseIdx index).length = rest.length := by
                    have hlt := (List.getElem?_eq_some_iff.mp hat).1
                    rw [List.length_eraseIdx_of_lt hlt]
                    omega
                  dsimp only at hrest ⊢
                  rw [hshorter, ← List.eraseIdx_map] at hrest
                  refine ⟨hrest.1, ?_⟩
                  intro hclear c hc huses
                  cases List.mem_append.mp (hrest.2 hclear c hc huses) with
                  | inl hold => exact hold
                  | inr hnew =>
                      rw [emitCopy_avoids hp (by simp [hfresh]) hcode c hnew] at huses
                      cases huses

/-- With memory involved R6 is left alone. -/
theorem mixed_avoids (hp : homes.Proper) {fuel : Nat} {emission result : Emission}
    (hcode : ∀ c ∈ emission.code, c.usesR6 = false)
    (h : loop (emitNext f homes false) unending fuel emission = .ok result) : ∀ c ∈ result.code, c.usesR6 = false := by
  have hend := loop_eq_ok (I := fun e : Emission => ∀ c ∈ e.code, c.usesR6 = false) (fun e next hall hnext => by
    unfold emitNext at hnext
    split at hnext
    · cases hnext
    · split at hnext
      · cases hnext
        intro c hc
        cases List.mem_append.mp hc with
        | inl hold => exact hall c hold
        | inr hsave =>
            unfold save at hsave
            dsimp only at hsave
            rw [if_neg Bool.false_ne_true, List.mem_cons, List.mem_replicate] at hsave
            rcases hsave with rfl | ⟨_, rfl⟩ <;> rfl
      · obtain ⟨code, hcopy, hpure⟩ := bind_eq_ok.mp hnext
        cases hpure
        intro c hc
        cases List.mem_append.mp hc with
        | inl hold => exact hall c hold
        | inr hnew => exact emitCopy_avoids hp (by simp) hcopy c hnew) hcode h
  exact hend.1

theorem mem_edgeMoves_fresh : ∀ m ∈ edgeMoves f homes source target, m.saved = false := by
  intro m hm
  obtain ⟨phi, _, hm⟩ := List.mem_flatMap.mp hm
  split at hm
  · cases hm
  · obtain ⟨edge, _, rfl⟩ := List.mem_map.mp hm
    rfl

end Prediction

/-- Homes in two registers. -/
def twoRegisters : Homes where
  register := fun v => if v = 3 then some 5 else if v = 4 then some 7 else none
  slot := fun _ => none

end Disco.Backend.PhiCopies
