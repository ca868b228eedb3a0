import Disco.IR.Semantics

/-! # Functions with renamed blocks

Renaming the blocks of a function by an injection renames the blocks in its
states, and nothing else: every step of the one function is the step of the
other under the new names.
-/

namespace Disco.IR

open Library

def Instruction.relocate (ids : Nat → Nat) (i : Instruction) : Instruction :=
  { i with
    targets := i.targets.map ids
    loopTarget := if i.loopTarget = invalidBlock then invalidBlock else ids i.loopTarget }

/-- One function is the other with its blocks at new places. -/
structure Relocated (ids : Nat → Nat) (f g : Function) : Prop where
  injective : Function.Injective ids
  entry : g.entry = ids f.entry
  code : ∀ b, g.code (ids b) = (f.code b).map (Instruction.relocate ids)

def LoopFrame.relocate (ids : Nat → Nat) (frame : LoopFrame) : LoopFrame :=
  { frame with
    resume := frame.resume.map fun place => (ids place.1, place.2.map (Instruction.relocate ids)) }

section Relocate

variable {W : Type} {perform : Perform W} {ids : Nat → Nat} {f g : Function} {i : Instruction}
  {rest : List Instruction}

def State.relocate (ids : Nat → Nat) (s : State W) : State W :=
  { s with
    block := ids s.block
    code := s.code.map (Instruction.relocate ids)
    loops := s.loops.map (LoopFrame.relocate ids) }

theorem phis_relocate (code : List Instruction) :
    phis (code.map (Instruction.relocate ids)) = (phis code).map (Instruction.relocate ids) := by
  unfold phis
  rw [List.takeWhile_map]
  rfl

theorem body_relocate (code : List Instruction) :
    body (code.map (Instruction.relocate ids)) = (body code).map (Instruction.relocate ids) := by
  unfold body
  rw [List.dropWhile_map]
  rfl

theorem incoming_relocate (hinj : Function.Injective ids) (source : Nat) :
    (i.relocate ids).incoming (ids source) = i.incoming source := by
  unfold Instruction.incoming Instruction.relocate
  dsimp only
  rw [List.zip_map_left, List.find?_map, Option.map_map]
  have hsame : ((fun edge : Nat × Nat => edge.1 == ids source) ∘ Prod.map ids id) =
      fun edge : Nat × Nat => edge.1 == source := by
    funext edge
    simp [hinj.eq_iff]
  rw [hsame]
  rfl

theorem selectPhis_relocate (hinj : Function.Injective ids) (code : List Instruction) (source : Nat)
    (env : Nat → Slot) :
    selectPhis (code.map (Instruction.relocate ids)) (ids source) env = selectPhis code source env := by
  funext v
  unfold selectPhis
  rw [List.find?_map]
  have hsame : ((fun i : Instruction => i.result == v) ∘ Instruction.relocate ids) = fun i => i.result == v := rfl
  rw [hsame]
  cases code.find? fun i => i.result == v with
  | none => rfl
  | some i =>
      simp only [Option.map_some]
      rw [incoming_relocate hinj]

theorem enter_relocate (h : Relocated ids f g) (s : State W) (target : Nat) :
    enter g (s.relocate ids) (ids target) = (enter f s target).relocate ids := by
  unfold enter State.relocate
  dsimp only
  rw [h.code, phis_relocate, body_relocate, selectPhis_relocate h.injective]

theorem jump_relocate (h : Relocated ids f g) (selected : Nat) (s : State W) :
    jump g (i.relocate ids) selected (s.relocate ids) = (jump f i selected s).map (State.relocate ids) := by
  unfold jump
  have htargets : (i.relocate ids).targets[selected]? = (i.targets[selected]?).map ids := List.getElem?_map
  rw [htargets]
  cases i.targets[selected]? with
  | none => rfl
  | some target =>
      rw [Option.map_some]
      exact congrArg Except.ok (enter_relocate h s target)

theorem leave_relocate (arguments : List Int) : (i.relocate ids).leave arguments = i.leave arguments := by
  have hlength : (i.relocate ids).targets.length = i.targets.length := List.length_map _
  unfold Instruction.leave Instruction.selectedCase
  rw [hlength]
  rfl

theorem execute_relocate (s : State W) :
    execute perform (i.relocate ids) (s.relocate ids) = (execute perform i s).map (State.relocate ids) := by
  have hproduce : produce perform (i.relocate ids).effect ((s.relocate ids).arguments (i.relocate ids))
      ((s.relocate ids).env ((i.relocate ids).operands.getD 0 0)).other (s.relocate ids).world =
      produce perform i.effect (s.arguments i) (s.env (i.operands.getD 0 0)).other s.world := rfl
  unfold execute
  rw [hproduce]
  cases produce perform i.effect (s.arguments i) (s.env (i.operands.getD 0 0)).other s.world with
  | error e => rfl
  | ok p => rfl

theorem relocate_targets_isEmpty : (i.relocate ids).targets.isEmpty = i.targets.isEmpty := List.isEmpty_map

theorem enterLoop_relocate (h : Relocated ids f g) (count : Int) (s : State W) :
    enterLoop g (i.relocate ids) (rest.map (Instruction.relocate ids)) count (s.relocate ids) =
      (enterLoop f i rest count s).map (State.relocate ids) := by
  unfold enterLoop
  dsimp only
  rw [relocate_targets_isEmpty]
  cases i.targets.isEmpty with
  | true => rfl
  | false => exact jump_relocate h 0 { s with loops := ⟨(count % 0x10000).toNat, none⟩ :: s.loops }

theorem repeatLoop_relocate (h : Relocated ids f g) (s : State W) :
    repeatLoop g (i.relocate ids) (rest.map (Instruction.relocate ids)) (s.relocate ids) =
      (repeatLoop f i rest s).map (State.relocate ids) := by
  unfold repeatLoop
  have hloops : (s.relocate ids).loops = s.loops.map (LoopFrame.relocate ids) := rfl
  rw [hloops]
  cases s.loops with
  | nil => rfl
  | cons frame outer =>
      rw [List.map_cons]
      have hcount : (frame.relocate ids).count = frame.count := rfl
      have hresume : (frame.relocate ids).resume =
          frame.resume.map fun place => (ids place.1, place.2.map (Instruction.relocate ids)) := rfl
      dsimp only
      rw [relocate_targets_isEmpty, hcount, hresume]
      cases i.targets.isEmpty with
      | true =>
          simp only [if_true]
          split
          · rfl
          · cases hframe : frame.resume with
            | none => rfl
            | some place =>
                simp only [Option.map_some, Except.map, State.relocate, List.map_cons, LoopFrame.relocate]
      | false => exact jump_relocate h _ { s with loops := { frame with count := countDown frame.count } :: outer }

theorem proceed_relocate (h : Relocated ids f g) (count : Int) (s : State W) :
    proceed g (i.relocate ids) (rest.map (Instruction.relocate ids)) count (s.relocate ids) =
      (proceed f i rest count s).map (State.relocate ids) := by
  unfold proceed
  have hopcode : (i.relocate ids).opcode = i.opcode := rfl
  rw [hopcode]
  split
  · exact enterLoop_relocate h count s
  · exact repeatLoop_relocate h s
  · unfold State.relocate
    simp [Except.map, List.map_tail]
  · rfl

/-- One instruction does the same at the new places. -/
theorem step_relocate (perform : Perform W) (h : Relocated ids f g) (s : State W) :
    step perform g (s.relocate ids) = (step perform f s).map (State.relocate ids) := by
  unfold step
  have hcode : (s.relocate ids).code = s.code.map (Instruction.relocate ids) := rfl
  rw [hcode]
  cases s.code with
  | nil => rfl
  | cons i rest =>
      rw [List.map_cons]
      have hopcode : (i.relocate ids).opcode = i.opcode := rfl
      have harguments : (s.relocate ids).arguments (i.relocate ids) = s.arguments i := rfl
      dsimp only
      rw [hopcode, harguments, leave_relocate]
      split
      · cases i.leave (s.arguments i) with
        | error e => rfl
        | ok selected => exact jump_relocate h selected s
      · rw [execute_relocate]
        cases execute perform i s with
        | error e => rfl
        | ok t => exact proceed_relocate h _ t

theorem start_relocate (h : Relocated ids f g) (world : W) : start g world = (start f world).relocate ids := by
  unfold start State.relocate
  dsimp only
  rw [h.entry, h.code, body_relocate]
  rfl

/-- A function behaves the same wherever its blocks are. -/
theorem Relocated.sameBehavior (h : Relocated ids f g) (perform : Perform W) (world : W) :
    Machine.SameBehavior (machine perform f) (machine perform g) (start f world) (start g world) := by
  refine Machine.Simulation.sameBehavior (R := fun s t => t = State.relocate ids s) ⟨?_, ?_, ?_⟩
    (start_relocate h world)
  · intro s t hr
    subst hr
    rfl
  · intro s t s' hr hstep
    subst hr
    refine ⟨0, s'.relocate ids, .single ?_, rfl⟩
    have hsame := step_relocate perform h s
    have hok : step perform f s = .ok s' := hstep
    rw [hok] at hsame
    exact hsame
  · intro s t e hr hstep
    subst hr
    refine ⟨0, s.relocate ids, .refl _, ?_, rfl, rfl⟩
    have hsame := step_relocate perform h s
    have herror : step perform f s = .error e := hstep
    rw [herror] at hsame
    exact hsame

end Relocate

end Disco.IR
