import Disco.Backend.LocalPlan
import Disco.Library.Loop
import Disco.Library.ParallelCopy

/-! # Copies on an edge

PHIs read their operands at the end of the block before, all at once. The
generator turns them into single copies: a copy is emitted once nothing pending
reads its destination; when every copy is in the way of another, one destination
is saved, in R6 if only registers are involved and on the stack otherwise.
-/

namespace Disco.Backend.PhiCopies

open IR Library FramePlan

abbrev Word := BitVec 16

/-- Where values live: in an allocated register or in a word of the frame. -/
structure Homes where
  register : Nat → Option Nat
  slot : Nat → Option Int

structure Move where
  destination : Nat
  source : Nat
  saved : Bool := false
  deriving DecidableEq, Repr

/-- What the generator emits for a copy. R0 is the accumulator. -/
inductive Copy where
  | literal (reg : Nat) (value : Int)
  | move (destination source : Nat)
  | store (slot : Int) (source : Nat)
  | materialize (value : Nat)
  | spill (slot : Int)
  | push
  | pop
  deriving DecidableEq, Repr

def Homes.same (homes : Homes) (a b : Nat) : Bool :=
  decide (a = b) ||
    match homes.register a, homes.register b with
    | some x, some y => decide (x = y)
    | _, _ =>
        match homes.slot a, homes.slot b with
        | some x, some y => decide (x = y)
        | _, _ => false

section Emit

variable (f : Function) (homes : Homes)

/-- The copies of the used PHIs of `target` on the edge from `source`. -/
def edgeMoves (source target : Nat) : List Move :=
  (phis (f.code target)).flatMap fun phi =>
    if useCount f phi.result = 0 then []
    else ((phi.targets.zip phi.operands).filter fun edge =>
        decide (edge.1 = source) && !homes.same phi.result edge.2).map fun edge =>
      { destination := phi.result
        source := edge.2 }

def inRegisters (move : Move) : Bool :=
  (homes.register move.destination).isSome && (homes.register move.source).isSome

/-- Another pending copy still reads what this one overwrites. -/
def needed (moves : List Move) (entry : Move × Nat) : Bool :=
  moves.zipIdx.any fun other =>
    decide (other.2 ≠ entry.2) && !other.1.saved && homes.same entry.1.destination other.1.source

def ready (moves : List Move) : Option (Move × Nat) := moves.zipIdx.find? fun entry => !needed homes moves entry

def missingHome : String := "IR codegen: live phi has no register or spill slot."

def emitCopy (registerOnly : Bool) (move : Move) : Except String (List Copy) :=
  let destination := homes.register move.destination
  let input := homes.register move.source
  let home := homes.slot move.destination
  let literal := constantValue f move.source
  if move.saved = false ∧ destination.isSome ∧ isFarPointer (f.typeOf move.source) = false ∧ literal.isSome then
    .ok [.literal (destination.getD 0) (literal.getD 0)]
  else if destination.isSome ∧ ((move.saved = true ∧ registerOnly = true) ∨ (move.saved = false ∧ input.isSome)) then
    .ok [.move (destination.getD 0) (if move.saved then 6 else input.getD 0)]
  else if move.saved = false ∧ input.isSome ∧ home.isSome ∧ isFarPointer (f.typeOf move.destination) = false then
    .ok [.store (home.getD 0) (input.getD 0)]
  else
    let fetch : Copy := if move.saved then .pop else .materialize move.source
    match destination, home with
    | some reg, _ => .ok [fetch, .move reg 0]
    | none, some slot => .ok [fetch, .spill slot]
    | none, none => .error missingHome

/-- Set aside what a blocked copy is going to overwrite. -/
def save (registerOnly : Bool) (moves : List Move) (saved : Nat) : List Move × List Copy :=
  let reads (move : Move) : Bool := !move.saved && homes.same saved move.source
  (moves.map fun move => if reads move then { move with saved := true } else move,
    if registerOnly then [.move 6 ((homes.register saved).getD 0)]
    else .materialize saved :: List.replicate (moves.countP reads) .push)

/-- The pending copies and what has been emitted. -/
structure Emission where
  moves : List Move
  code : List Copy := []

def emitNext (registerOnly : Bool) (emission : Emission) : Except String (Option Emission) :=
  match emission.moves with
  | [] => .ok none
  | first :: _ =>
      match ready homes emission.moves with
      | none =>
          let saved := save homes registerOnly emission.moves first.destination
          .ok (some ⟨saved.1, emission.code ++ saved.2⟩)
      | some (move, index) => do
          let copies ← emitCopy f homes registerOnly move
          pure (some ⟨emission.moves.eraseIdx index, emission.code ++ copies⟩)

def unending : String := "IR codegen: unending copies."

/-- Twice the number of copies bounds the rounds. -/
def sequence (moves : List Move) : Except String Emission :=
  loop (emitNext f homes (moves.all (inRegisters homes))) unending (2 * moves.length + 1) { moves := moves }

def emitPhiCopies (source target : Nat) : Except String (List Copy) :=
  (sequence f homes (edgeMoves f homes source target)).map Emission.code

end Emit

/-! ## What the copies do -/

structure Cells where
  register : Nat → Word
  slot : Int → Word
  stack : List Word

inductive Home where
  | register (reg : Nat)
  | slot (offset : Int)
  deriving DecidableEq, Repr

def Homes.home (homes : Homes) (v : Nat) : Option Home :=
  match homes.slot v with
  | some offset => some (.slot offset)
  | none => (homes.register v).map .register

def Cells.content (cells : Cells) : Home → Word
  | .register reg => cells.register reg
  | .slot offset => cells.slot offset

section Run

variable (homes : Homes) (made : Nat → Word)

/-- The value of an id: what its home holds, or what is made anew without one. -/
def Cells.value (cells : Cells) (v : Nat) : Word := ((homes.home v).map cells.content).getD (made v)

def Copy.run (cells : Cells) : Copy → Cells
  | .literal reg value => { cells with register := Function.update cells.register reg (BitVec.ofInt 16 value) }
  | .move destination source =>
      { cells with register := Function.update cells.register destination (cells.register source) }
  | .store offset source => { cells with slot := Function.update cells.slot offset (cells.register source) }
  | .materialize value => { cells with register := Function.update cells.register 0 (cells.value homes made value) }
  | .spill offset => { cells with slot := Function.update cells.slot offset (cells.register 0) }
  | .push => { cells with stack := cells.register 0 :: cells.stack }
  | .pop =>
      { cells with
        register := Function.update cells.register 0 (cells.stack.headD 0)
        stack := cells.stack.tail }

def run (cells : Cells) (code : List Copy) : Cells := code.foldl (Copy.run homes made) cells

end Run

/-- No value has two homes, and none is in the accumulator or in R6. -/
structure Homes.Proper (homes : Homes) : Prop where
  exclusive : ∀ v reg, homes.register v = some reg → homes.slot v = none
  free : ∀ v reg, homes.register v = some reg → reg ≠ 0 ∧ reg ≠ 6

section Proper

variable {f : Function} {homes : Homes} {made : Nat → Word} {cells start : Cells} {v : Nat} {h : Home}

theorem Homes.Proper.home_register (hp : homes.Proper) {reg : Nat} (hreg : homes.register v = some reg) :
    homes.home v = some (.register reg) := by
  unfold Homes.home
  rw [hp.exclusive v reg hreg, hreg]
  rfl

theorem Homes.Proper.home_free (hp : homes.Proper) (hh : homes.home v = some h) :
    h ≠ .register 0 ∧ h ≠ .register 6 := by
  unfold Homes.home at hh
  cases hslot : homes.slot v with
  | some offset =>
      rw [hslot] at hh
      cases hh
      exact ⟨nofun, nofun⟩
  | none =>
      rw [hslot] at hh
      obtain ⟨reg, hreg, rfl⟩ := Option.map_eq_some_iff.mp hh
      have hfree := hp.free v reg hreg
      exact ⟨fun heq => hfree.1 (Home.register.inj heq), fun heq => hfree.2 (Home.register.inj heq)⟩

theorem Homes.Proper.same_iff (hp : homes.Proper) {a b : Nat} :
    homes.same a b = true ↔ a = b ∨ ∃ h, homes.home a = some h ∧ homes.home b = some h := by
  have hexclusive := hp.exclusive
  unfold Homes.same Homes.home
  rw [Bool.or_eq_true, decide_eq_true_eq]
  apply or_congr Iff.rfl
  cases hra : homes.register a with
  | some x =>
      rw [hexclusive a x hra]
      cases hrb : homes.register b with
      | some y =>
          rw [hexclusive b y hrb]
          simp [eq_comm]
      | none => cases homes.slot b <;> simp
  | none =>
      cases hsa : homes.slot a <;> cases hsb : homes.slot b <;> simp [eq_comm]

theorem value_home (hh : homes.home v = some h) : cells.value homes made v = cells.content h := by
  unfold Cells.value
  rw [hh]
  rfl

/-- Values whose homes hold what they held have the value they had. -/
theorem value_congr (hsame : ∀ h, homes.home v = some h → cells.content h = start.content h) :
    cells.value homes made v = start.value homes made v := by
  unfold Cells.value
  cases hh : homes.home v with
  | none => rfl
  | some h => exact hsame h hh

/-! ### One copy -/

/-- The word a copy carries: the saved one, or what its source holds. -/
structure Carries (homes : Homes) (made : Nat → Word) (registerOnly : Bool) (move : Move) (x : Word) (rest : List Word)
    (cells : Cells) : Prop where
  fresh : move.saved = false → cells.value homes made move.source = x ∧ cells.stack = rest
  register : move.saved = true → registerOnly = true → cells.register 6 = x ∧ cells.stack = rest
  stack : move.saved = true → registerOnly = false → cells.stack = x :: rest

/-- After a copy its destination holds the word, and nothing else has changed but the accumulator. -/
structure Copied (cells cells' : Cells) (h : Home) (x : Word) (rest : List Word) : Prop where
  written : cells'.content h = x
  kept : ∀ h', h' ≠ h → h' ≠ .register 0 → cells'.content h' = cells.content h'
  stack : cells'.stack = rest

variable {registerOnly : Bool} {move : Move} {x : Word} {rest : List Word} {code : List Copy}

theorem copied_register (reg : Nat) (x : Word) (hstack : cells.stack = rest) :
    Copied cells { cells with register := Function.update cells.register reg x } (.register reg) x rest := by
  refine ⟨Function.update_self .., ?_, hstack⟩
  intro h' hne _
  cases h' with
  | slot offset => rfl
  | register other => exact Function.update_of_ne (fun heq => hne (congrArg Home.register heq)) ..

theorem copied_slot (offset : Int) (x : Word) (hstack : cells.stack = rest) :
    Copied cells { cells with slot := Function.update cells.slot offset x } (.slot offset) x rest := by
  refine ⟨Function.update_self .., ?_, hstack⟩
  intro h' hne _
  cases h' with
  | register reg => rfl
  | slot other => exact Function.update_of_ne (fun heq => hne (congrArg Home.slot heq)) ..

/-- The word is in the accumulator. -/
structure Fetched (cells between : Cells) (x : Word) (rest : List Word) : Prop where
  fetched : between.register 0 = x
  kept : ∀ h', h' ≠ .register 0 → between.content h' = cells.content h'
  stack : between.stack = rest

theorem fetched_update {stack : List Word} :
    Fetched cells { cells with register := Function.update cells.register 0 x, stack := stack } x stack := by
  refine ⟨Function.update_self (0 : Nat) x cells.register, ?_, rfl⟩
  intro h' hne
  cases h' with
  | slot offset => rfl
  | register reg => exact Function.update_of_ne (fun heq => hne (congrArg Home.register heq)) ..

theorem fetched_pop (hstack : cells.stack = x :: rest) : Fetched cells (Copy.run homes made cells .pop) x rest := by
  have hrun : Copy.run homes made cells .pop =
      { cells with register := Function.update cells.register 0 x, stack := rest } := by simp [Copy.run, hstack]
  rw [hrun]
  exact fetched_update

theorem fetched_materialize (hvalue : cells.value homes made v = x) (hstack : cells.stack = rest) :
    Fetched cells (Copy.run homes made cells (.materialize v)) x rest := by
  have hrun : Copy.run homes made cells (.materialize v) =
      { cells with register := Function.update cells.register 0 x } := by simp [Copy.run, hvalue]
  rw [hrun, ← hstack]
  exact fetched_update

theorem Fetched.moved (homes : Homes) (made : Nat → Word) {between : Cells} (hf : Fetched cells between x rest) (reg : Nat) :
    Copied cells (Copy.run homes made between (.move reg 0)) (.register reg) x rest := by
  have hend := copied_register reg x hf.stack
  rw [Copy.run, hf.fetched]
  exact ⟨hend.written, fun h' hne hzero => (hend.kept h' hne hzero).trans (hf.kept h' hzero), hend.stack⟩

theorem Fetched.spilled (homes : Homes) (made : Nat → Word) {between : Cells} (hf : Fetched cells between x rest) (offset : Int) :
    Copied cells (Copy.run homes made between (.spill offset)) (.slot offset) x rest := by
  have hend := copied_slot offset x hf.stack
  rw [Copy.run, hf.fetched]
  exact ⟨hend.written, fun h' hne hzero => (hend.kept h' hne hzero).trans (hf.kept h' hzero), hend.stack⟩

theorem emitCopy_run (hp : homes.Proper) (hh : homes.home move.destination = some h)
    (hconst : ∀ literal, constantValue f move.source = some literal → x = BitVec.ofInt 16 literal)
    (honly : registerOnly = true → (homes.register move.destination).isSome)
    (hcarries : Carries homes made registerOnly move x rest cells)
    (hcode : emitCopy f homes registerOnly move = .ok code) :
    Copied cells (run homes made cells code) h x rest := by
  have hregister : ∀ {reg}, homes.register move.destination = some reg → h = .register reg := by
    intro reg hreg
    rw [hp.home_register hreg] at hh
    exact (Option.some.inj hh).symm
  have hslot : ∀ {offset}, homes.slot move.destination = some offset → h = .slot offset := by
    intro offset hoffset
    unfold Homes.home at hh
    rw [hoffset] at hh
    exact (Option.some.inj hh).symm
  have hinput : ∀ {reg}, homes.register move.source = some reg → move.saved = false → cells.register reg = x := by
    intro reg hreg hfresh
    rw [← (hcarries.fresh hfresh).1, value_home (hp.home_register hreg)]
    rfl
  unfold emitCopy at hcode
  dsimp only at hcode
  split at hcode
  · next hliteral =>
      obtain ⟨reg, hreg⟩ := Option.isSome_iff_exists.mp hliteral.2.1
      obtain ⟨literal, hvalue⟩ := Option.isSome_iff_exists.mp hliteral.2.2.2
      cases hcode
      rw [hregister hreg, hreg, hvalue, hconst literal hvalue]
      exact copied_register _ _ (hcarries.fresh hliteral.1).2
  · split at hcode
    · next hmove =>
        obtain ⟨reg, hreg⟩ := Option.isSome_iff_exists.mp hmove.1
        cases hcode
        rw [hregister hreg, hreg]
        cases hmove.2 with
        | inl hsaved =>
            have hheld := hcarries.register hsaved.1 hsaved.2
            rw [hsaved.1, if_pos rfl, ← hheld.1]
            exact copied_register _ _ hheld.2
        | inr hfresh =>
            obtain ⟨from_, hfrom⟩ := Option.isSome_iff_exists.mp hfresh.2
            rw [hfresh.1, hfrom, ← hinput hfrom hfresh.1]
            exact copied_register _ _ (hcarries.fresh hfresh.1).2
    · next hnot =>
        split at hcode
        · next hstore =>
            obtain ⟨from_, hfrom⟩ := Option.isSome_iff_exists.mp hstore.2.1
            obtain ⟨offset, hoffset⟩ := Option.isSome_iff_exists.mp hstore.2.2.1
            cases hcode
            rw [hslot hoffset, hoffset, hfrom, ← hinput hfrom hstore.1]
            exact copied_slot _ _ (hcarries.fresh hstore.1).2
        · -- the word goes through the accumulator
          have hfetched : Fetched cells
              (Copy.run homes made cells (if move.saved then .pop else .materialize move.source)) x rest := by
            cases hsaved : move.saved with
            | true =>
                have hmixed : registerOnly = false := by
                  cases honly' : registerOnly with
                  | false => rfl
                  | true => exact absurd ⟨honly honly', .inl ⟨hsaved, honly'⟩⟩ hnot
                exact fetched_pop (hcarries.stack hsaved hmixed)
            | false => exact fetched_materialize (hcarries.fresh hsaved).1 (hcarries.fresh hsaved).2
          split at hcode
          · next reg hreg =>
              cases hcode
              rw [hregister hreg]
              exact hfetched.moved homes made reg
          · next offset _ hoffset =>
              cases hcode
              rw [hslot hoffset]
              exact hfetched.spilled homes made offset
          · cases hcode

/-- A destination with a home gets its copy. -/
theorem emitCopy_total (f : Function) (registerOnly : Bool) (hh : homes.home move.destination = some h) :
    ∃ code, emitCopy f homes registerOnly move = .ok code := by
  unfold emitCopy
  dsimp only
  split
  · exact ⟨_, rfl⟩
  · split
    · exact ⟨_, rfl⟩
    · split
      · exact ⟨_, rfl⟩
      · split
        · exact ⟨_, rfl⟩
        · exact ⟨_, rfl⟩
        · next hreg hslot =>
            unfold Homes.home at hh
            rw [hreg, hslot] at hh
            cases hh

/-! ### All of them -/

/-- What a copy moves, whether its source has been set aside or not. -/
def Move.ends (move : Move) : Nat × Nat := (move.destination, move.source)

/-- Copies into distinct homes, with a home for every destination. -/
structure Separate (f : Function) (homes : Homes) (made : Nat → Word) (start : Cells) (moves : List Move) : Prop where
  nodup : (moves.map Move.destination).Nodup
  apart : ∀ a ∈ moves, ∀ b ∈ moves, homes.home a.destination = homes.home b.destination → a.destination = b.destination
  housed : ∀ m ∈ moves, ∃ h, homes.home m.destination = some h
  constants : ∀ m ∈ moves, ∀ literal, constantValue f m.source = some literal →
    start.value homes made m.source = BitVec.ofInt 16 literal

/-- At most one copy is set aside, and its word waits for it. -/
inductive Waiting (homes : Homes) (made : Nat → Word) (registerOnly : Bool) (start : Cells) (moves : List Move)
    (cells : Cells) : Prop where
  | none (fresh : ∀ m ∈ moves, m.saved = false) (stack : cells.stack = start.stack)
  | register (move : Move) (only : ∀ m ∈ moves, m.saved = true → m = move) (hregister : registerOnly = true)
      (held : cells.register 6 = start.value homes made move.source) (stack : cells.stack = start.stack)
  | stack (move : Move) (mem : move ∈ moves) (saved : move.saved = true)
      (only : ∀ m ∈ moves, m.saved = true → m = move) (mixed : registerOnly = false)
      (held : cells.stack = start.value homes made move.source :: start.stack)

/-- Between two rounds: finished copies have arrived, pending ones can still be made. -/
structure Progress (homes : Homes) (made : Nat → Word) (registerOnly : Bool) (all : List Move) (start : Cells)
    (moves : List Move) (cells : Cells) : Prop where
  sublist : (moves.map Move.ends).Sublist (all.map Move.ends)
  written : ∀ m ∈ all, m.ends ∉ moves.map Move.ends →
    cells.value homes made m.destination = start.value homes made m.source
  kept : ∀ h, h ≠ .register 0 → h ≠ .register 6 →
    (∀ m ∈ all, homes.home m.destination = some h → m.ends ∈ moves.map Move.ends) →
    cells.content h = start.content h
  fresh : ∀ m ∈ moves, m.saved = false → cells.value homes made m.source = start.value homes made m.source
  waiting : Waiting homes made registerOnly start moves cells

variable {all moves : List Move}

theorem progress_start (hfresh : ∀ m ∈ all, m.saved = false) :
    Progress homes made registerOnly all start all start where
  sublist := List.Sublist.refl _
  written := fun _ hm hnot => absurd (List.mem_map_of_mem hm) hnot
  kept := fun _ _ _ _ => rfl
  fresh := fun _ _ _ => rfl
  waiting := .none hfresh rfl

theorem run_append (code code' : List Copy) :
    run homes made cells (code ++ code') = run homes made (run homes made cells code) code' := List.foldl_append

theorem ready_spec {index : Nat} (h : ready homes moves = some (move, index)) :
    moves[index]? = some move ∧ ∀ j other, moves[j]? = some other → j ≠ index → other.saved = false →
      homes.same move.destination other.source = false := by
  have hmem := List.mem_of_find?_eq_some h
  have hneeded := List.find?_some h
  refine ⟨List.mem_zipIdx_iff_getElem?.mp hmem, ?_⟩
  intro j other hother hne hfresh
  cases hsame : homes.same move.destination other.source with
  | false => rfl
  | true =>
      have hany : needed homes moves (move, index) = true := by
        unfold needed
        rw [List.any_eq_true]
        exact ⟨(other, j), List.mem_zipIdx_iff_getElem?.mpr hother, by simp [hne, hfresh, hsame]⟩
      simp [hany] at hneeded

theorem ready_none (h : ready homes moves = none) : ∀ m ∈ moves, ∃ o ∈ moves, o.saved = false ∧
    homes.same m.destination o.source = true := by
  intro m hm
  have hnone := List.find?_eq_none.mp h
  obtain ⟨index, hindex⟩ := List.mem_iff_getElem?.mp hm
  have hneeded := hnone (m, index) (List.mem_zipIdx_iff_getElem?.mpr hindex)
  rw [Bool.not_eq_true, Bool.not_eq_false'] at hneeded
  unfold needed at hneeded
  rw [List.any_eq_true] at hneeded
  obtain ⟨⟨o, j⟩, hmem, hread⟩ := hneeded
  have ho := List.mem_iff_getElem?.mpr ⟨j, List.mem_zipIdx_iff_getElem?.mp hmem⟩
  simp only [Bool.and_eq_true, Bool.not_eq_true', decide_eq_true_eq] at hread
  exact ⟨o, ho, hread.1.2, hread.2⟩

theorem Progress.origin (hprog : Progress homes made registerOnly all start moves cells) (hm : move ∈ moves) :
    ∃ m ∈ all, m.destination = move.destination ∧ m.source = move.source := by
  have hmem := hprog.sublist.subset (List.mem_map_of_mem hm)
  obtain ⟨m, hm, hends⟩ := List.mem_map.mp hmem
  exact ⟨m, hm, congrArg Prod.fst hends, congrArg Prod.snd hends⟩

theorem Separate.nodup_ends (hsep : Separate f homes made start all) : (all.map Move.ends).Nodup := by
  apply List.Nodup.of_map Prod.fst
  rw [List.map_map]
  exact hsep.nodup

/-- Pending copies with one destination are one copy. -/
theorem Progress.apart (hprog : Progress homes made registerOnly all start moves cells)
    (hsep : Separate f homes made start all) {a b : Move} (ha : a ∈ moves) (hb : b ∈ moves)
    (hhome : homes.home a.destination = homes.home b.destination) : a = b := by
  obtain ⟨a', ha', hdesta, hsourcea⟩ := hprog.origin ha
  obtain ⟨b', hb', hdestb, hsourceb⟩ := hprog.origin hb
  rw [← hdesta, ← hdestb] at hhome
  have heq := List.inj_on_of_nodup_map hsep.nodup ha' hb' (hsep.apart a' ha' b' hb' hhome)
  have hnodup := hprog.sublist.nodup hsep.nodup_ends
  apply List.inj_on_of_nodup_map hnodup ha hb
  unfold Move.ends
  rw [← hdesta, ← hdestb, ← hsourcea, ← hsourceb, heq]

theorem Progress.carries (hprog : Progress homes made registerOnly all start moves cells) (hm : move ∈ moves) :
    Carries homes made registerOnly move (start.value homes made move.source)
      (if move.saved then start.stack else cells.stack) cells := by
  refine ⟨?_, ?_, ?_⟩
  · intro hfresh
    exact ⟨hprog.fresh move hm hfresh, by simp [hfresh]⟩
  · intro hsaved honly
    rw [if_pos hsaved]
    cases hprog.waiting with
    | none hfresh _ => simp [hfresh move hm] at hsaved
    | register p hp _ hheld hstack =>
        rw [hp move hm hsaved]
        exact ⟨hheld, hstack⟩
    | stack _ _ _ _ hmixed _ => simp [honly] at hmixed
  · intro hsaved hmixed
    rw [if_pos hsaved]
    cases hprog.waiting with
    | none hfresh _ => simp [hfresh move hm] at hsaved
    | register _ _ honly _ _ => simp [honly] at hmixed
    | stack p _ _ hp _ hheld =>
        rw [hp move hm hsaved]
        exact hheld

theorem map_eraseIdx_ends (moves : List Move) (index : Nat) :
    (moves.eraseIdx index).map Move.ends = (moves.map Move.ends).eraseIdx index := by
  rw [List.eraseIdx_map]

/-- A finished copy leaves the others pending. -/
theorem mem_pending {index : Nat} (hat : moves[index]? = some move) {m : Move} (hm : m ∈ moves) :
    m = move ∨ m ∈ moves.eraseIdx index := by
  obtain ⟨j, hj⟩ := List.mem_iff_getElem?.mp hm
  cases eq_or_ne j index with
  | inl heq =>
      rw [heq, hat] at hj
      exact .inl (Option.some.inj hj).symm
  | inr hne => exact .inr (List.mem_eraseIdx_iff_getElem?.mpr ⟨j, hne, hj⟩)

theorem Progress.finished (hprog : Progress homes made registerOnly all start moves cells)
    (hsep : Separate f homes made start all) {index : Nat} (hat : moves[index]? = some move) :
    move.ends ∉ (moves.eraseIdx index).map Move.ends := by
  intro hmem
  have hnodup := hprog.sublist.nodup hsep.nodup_ends
  rw [map_eraseIdx_ends] at hmem
  obtain ⟨j, hne, hj⟩ := List.mem_eraseIdx_iff_getElem?.mp hmem
  have hlt : j < (moves.map Move.ends).length := (List.getElem?_eq_some_iff.mp hj).1
  apply hne
  apply (List.getElem?_inj hlt hnodup).mp
  rw [hj, List.getElem?_map, hat]
  rfl

/-- A copy that nothing waits for. -/
theorem progress_copy (hp : homes.Proper) (hsep : Separate f homes made start all)
    (honly : registerOnly = true → ∀ m ∈ all, (homes.register m.destination).isSome)
    (hprog : Progress homes made registerOnly all start moves cells) {index : Nat}
    (hready : ready homes moves = some (move, index)) (hcode : emitCopy f homes registerOnly move = .ok code) :
    Progress homes made registerOnly all start (moves.eraseIdx index) (run homes made cells code) := by
  obtain ⟨hat, hclear⟩ := ready_spec hready
  have hmem : move ∈ moves := List.mem_iff_getElem?.mpr ⟨index, hat⟩
  obtain ⟨origin, horigin, hdest, hsource⟩ := hprog.origin hmem
  obtain ⟨h, hhome⟩ := hsep.housed origin horigin
  have hfinished := hprog.finished hsep hat
  have hcopied : Copied cells (run homes made cells code) h (start.value homes made move.source)
      (if move.saved then start.stack else cells.stack) := by
    apply emitCopy_run hp (hdest ▸ hhome) _ _ (hprog.carries hmem) hcode
    · rw [← hsource]
      exact hsep.constants origin horigin
    · intro hregister
      rw [← hdest]
      exact honly hregister origin horigin
  have hfree := hp.home_free hhome
  have hcontent : ∀ {h'}, h' ≠ h → h' ≠ .register 0 →
      (run homes made cells code).content h' = cells.content h' := fun hne hzero => hcopied.kept _ hne hzero
  have hpending : ∀ {m : Move}, m.ends ∈ moves.map Move.ends → m.ends ≠ move.ends →
      m.ends ∈ (moves.eraseIdx index).map Move.ends := by
    intro m hm hne
    obtain ⟨m', hm', hends⟩ := List.mem_map.mp hm
    cases mem_pending hat hm' with
    | inl heq => exact absurd (heq ▸ hends.symm) hne
    | inr herased => exact hends ▸ List.mem_map_of_mem herased
  refine ⟨?_, ?_, ?_, ?_, ?_⟩
  · exact ((moves.eraseIdx_sublist index).map Move.ends).trans hprog.sublist
  · intro m hm hdone
    by_cases heq : m.ends = move.ends
    · have hdestm : m.destination = move.destination := congrArg Prod.fst heq
      have hsourcem : m.source = move.source := congrArg Prod.snd heq
      rw [hdestm, hsourcem, value_home (hdest ▸ hhome)]
      exact hcopied.written
    · have hold := hprog.written m hm fun hold => hdone (hpending hold heq)
      rw [← hold]
      apply value_congr
      intro h' hhome'
      apply hcontent
      · intro hsame
        apply heq
        have hdestm := hsep.apart m hm origin horigin (by rw [hhome', hhome, hsame])
        have horigin' := List.inj_on_of_nodup_map hsep.nodup hm horigin hdestm
        rw [horigin']
        exact Prod.ext hdest hsource
      · exact (hp.home_free hhome').1
  · intro h' hzero hsix hdone
    have hne : h' ≠ h := by
      intro hsame
      apply hfinished
      have hmem := hdone origin horigin (hsame ▸ hhome)
      have hends : origin.ends = move.ends := Prod.ext hdest hsource
      exact hends ▸ hmem
    rw [hcontent hne hzero]
    apply hprog.kept h' hzero hsix
    intro m hm hhome'
    exact ((moves.eraseIdx_sublist index).map Move.ends).subset (hdone m hm hhome')
  · intro m hm hfresh
    obtain ⟨j, hne, hj⟩ := List.mem_eraseIdx_iff_getElem?.mp hm
    rw [← hprog.fresh m (List.mem_of_mem_eraseIdx hm) hfresh]
    apply value_congr
    intro h' hhome'
    apply hcontent
    · intro hsame
      have hread := hclear j m hj hne hfresh
      rw [hp.same_iff.mpr (.inr ⟨h, hdest ▸ hhome, hsame ▸ hhome'⟩)] at hread
      cases hread
    · exact (hp.home_free hhome').1
  · cases hsaved : move.saved with
    | true =>
        refine .none ?_ (by simpa [hsaved] using hcopied.stack)
        intro m hm
        cases hm' : m.saved with
        | false => rfl
        | true =>
            have honly' : m = move := by
              have hmem' := List.mem_of_mem_eraseIdx hm
              cases hprog.waiting with
              | none hfresh _ => simp [hfresh m hmem'] at hm'
              | register p hp _ _ _ => rw [hp m hmem' hm', hp move hmem hsaved]
              | stack p _ _ hp _ _ => rw [hp m hmem' hm', hp move hmem hsaved]
            exact absurd (honly' ▸ List.mem_map_of_mem hm) hfinished
    | false =>
        have hstack := hcopied.stack
        rw [hsaved] at hstack
        cases hprog.waiting with
        | none hfresh hold => exact .none (fun m hm => hfresh m (List.mem_of_mem_eraseIdx hm)) (hstack.trans hold)
        | register p hp honly hheld hold =>
            refine .register p (fun m hm => hp m (List.mem_of_mem_eraseIdx hm)) honly ?_ (hstack.trans hold)
            rw [← hheld]
            exact hcontent hfree.2.symm (fun h => nomatch h)
        | stack p hmem' hsaved' hp hmixed hheld =>
            refine .stack p ?_ hsaved' (fun m hm => hp m (List.mem_of_mem_eraseIdx hm)) hmixed (hstack.trans hheld)
            cases mem_pending hat hmem' with
            | inl heq => simp [heq, hsaved] at hsaved'
            | inr herased => exact herased

/-- The copy that reads what the first one overwrites, when all of them are blocked. -/
structure Blocking (homes : Homes) (moves : List Move) (first reader : Move) : Prop where
  fresh : ∀ m ∈ moves, m.saved = false
  mem : reader ∈ moves
  reads : homes.same first.destination reader.source = true
  only : ∀ m ∈ moves, homes.same first.destination m.source = true → m = reader

theorem Progress.housed (hprog : Progress homes made registerOnly all start moves cells)
    (hsep : Separate f homes made start all) (hm : move ∈ moves) : ∃ h, homes.home move.destination = some h := by
  obtain ⟨origin, horigin, hdest, _⟩ := hprog.origin hm
  rw [← hdest]
  exact hsep.housed origin horigin

theorem Homes.Proper.home_eq (hp : homes.Proper) {w : Nat} (hsame : homes.same v w = true) :
    homes.home w = homes.home v := by
  cases hp.same_iff.mp hsame with
  | inl heq => rw [heq]
  | inr hshared =>
      obtain ⟨h, hv, hw⟩ := hshared
      rw [hv, hw]

theorem blocking_of_blocked (hp : homes.Proper) (hsep : Separate f homes made start all)
    (hprog : Progress homes made registerOnly all start moves cells) (hready : ready homes moves = none)
    {first : Move} (hfirst : first ∈ moves) : ∃ reader, Blocking homes moves first reader := by
  let reads (o m : Move) : Prop := homes.same m.destination o.source = true
  let pending (o : Move) : Prop := o.saved = false
  have hunique : ∀ m ∈ moves, ∀ m' ∈ moves, ∀ o, reads o m → reads o m' → m = m' := by
    intro m hm m' hm' o hread hread'
    apply hprog.apart hsep hm hm'
    rw [← hp.home_eq hread, ← hp.home_eq hread']
  have hblocked : ∀ m ∈ moves, ∃ o ∈ moves, pending o ∧ reads o m := ready_none hready
  obtain ⟨reader, hmem, _, hread⟩ := hblocked first hfirst
  exact ⟨reader, blocked_pending hunique hblocked, hmem, hread, fun m hm hother =>
    blocked_reader_unique hunique hblocked hfirst hm hmem hother hread⟩

section Save

variable {first reader : Move}

theorem save_ends (saved : Nat) : (save homes registerOnly moves saved).1.map Move.ends = moves.map Move.ends := by
  unfold save
  rw [List.map_map]
  apply List.map_congr_left
  intro m _
  simp only [Function.comp_apply]
  split <;> rfl

theorem mem_save (hblock : Blocking homes moves first reader) {m : Move}
    (hm : m ∈ (save homes registerOnly moves first.destination).1) :
    (m.saved = false ∧ m ∈ moves) ∨ m = { reader with saved := true } := by
  obtain ⟨old, hold, rfl⟩ := List.mem_map.mp hm
  split
  · next hread =>
      rw [Bool.and_eq_true] at hread
      rw [hblock.only old hold hread.2]
      exact .inr rfl
  · exact .inl ⟨hblock.fresh old hold, hold⟩

theorem reader_mem_save (hblock : Blocking homes moves first reader) :
    { reader with saved := true } ∈ (save homes registerOnly moves first.destination).1 := by
  apply List.mem_map.mpr
  refine ⟨reader, hblock.mem, ?_⟩
  simp [hblock.fresh reader hblock.mem, hblock.reads]

/-- One word is set aside. -/
theorem countP_reads (hblock : Blocking homes moves first reader) (hnodup : moves.Nodup) :
    moves.countP (fun m => !m.saved && homes.same first.destination m.source) = 1 := by
  rw [← List.count_eq_one_of_mem hnodup hblock.mem]
  apply List.countP_congr
  intro m hm
  rw [beq_iff_eq, hblock.fresh m hm, Bool.not_false, Bool.true_and]
  constructor
  · intro hread
    exact hblock.only m hm hread
  · intro heq
    exact heq ▸ hblock.reads

/-- What setting a word aside does. -/
structure SetAside (registerOnly : Bool) (cells cells' : Cells) (x : Word) : Prop where
  kept : ∀ h, h ≠ .register 0 → h ≠ .register 6 → cells'.content h = cells.content h
  register : registerOnly = true → cells'.register 6 = x ∧ cells'.stack = cells.stack
  stack : registerOnly = false → cells'.stack = x :: cells.stack

theorem save_run (hp : homes.Proper) (hblock : Blocking homes moves first reader) (hnodup : moves.Nodup)
    (honly : registerOnly = true → (homes.register first.destination).isSome) :
    SetAside registerOnly cells (run homes made cells (save homes registerOnly moves first.destination).2)
      (cells.value homes made first.destination) := by
  unfold save
  dsimp only
  rw [countP_reads hblock hnodup]
  cases registerOnly with
  | true =>
      obtain ⟨reg, hreg⟩ := Option.isSome_iff_exists.mp (honly rfl)
      have hvalue : cells.value homes made first.destination = cells.register reg := value_home (hp.home_register hreg)
      rw [if_pos rfl, hreg, hvalue]
      refine ⟨?_, fun _ => ⟨?_, rfl⟩, nofun⟩
      · intro h _ hsix
        cases h with
        | slot offset => rfl
        | register other => exact Function.update_of_ne (fun heq => hsix (congrArg Home.register heq)) ..
      · exact Function.update_self (6 : Nat) _ cells.register
  | false =>
      rw [if_neg Bool.false_ne_true]
      refine ⟨?_, nofun, fun _ => ?_⟩
      · intro h hzero _
        cases h with
        | slot offset => rfl
        | register other => exact Function.update_of_ne (fun heq => hzero (congrArg Home.register heq)) ..
      · simp [run, Copy.run]

theorem progress_save (hp : homes.Proper) (hsep : Separate f homes made start all)
    (honly : registerOnly = true → ∀ m ∈ all, (homes.register m.destination).isSome)
    (hprog : Progress homes made registerOnly all start moves cells) (hfirst : first ∈ moves)
    (hblock : Blocking homes moves first reader) :
    Progress homes made registerOnly all start (save homes registerOnly moves first.destination).1
      (run homes made cells (save homes registerOnly moves first.destination).2) := by
  have hnodup : moves.Nodup := List.Nodup.of_map _ (hprog.sublist.nodup hsep.nodup_ends)
  have hfirstOnly : registerOnly = true → (homes.register first.destination).isSome := by
    intro hregister
    obtain ⟨origin, horigin, hdest, _⟩ := hprog.origin hfirst
    rw [← hdest]
    exact honly hregister origin horigin
  have haside : SetAside registerOnly cells (run homes made cells (save homes registerOnly moves first.destination).2)
      (cells.value homes made first.destination) := save_run hp hblock hnodup hfirstOnly
  have hvalue : ∀ v, (run homes made cells (save homes registerOnly moves first.destination).2).value homes made v =
      cells.value homes made v := by
    intro v
    apply value_congr
    intro h hhome
    have hfree := hp.home_free hhome
    exact haside.kept h hfree.1 hfree.2
  -- the reader's source shares the home of the first destination
  have hword : cells.value homes made first.destination = start.value homes made reader.source := by
    have hshared := hp.home_eq hblock.reads
    obtain ⟨h, hhome⟩ := hprog.housed hsep hfirst
    rw [← hprog.fresh reader hblock.mem (hblock.fresh reader hblock.mem), value_home hhome,
      value_home (hshared.trans hhome)]
  have hstack : cells.stack = start.stack := by
    cases hprog.waiting with
    | none _ hstack => exact hstack
    | register _ _ _ _ hstack => exact hstack
    | stack p hmem hsaved _ _ _ => simp [hblock.fresh p hmem] at hsaved
  refine ⟨?_, ?_, ?_, ?_, ?_⟩
  · rw [save_ends]
    exact hprog.sublist
  · intro m hm hdone
    rw [save_ends] at hdone
    rw [hvalue]
    exact hprog.written m hm hdone
  · intro h hzero hsix hdone
    rw [haside.kept h hzero hsix]
    simp only [save_ends] at hdone
    exact hprog.kept h hzero hsix hdone
  · intro m hm hfresh
    rw [hvalue]
    cases mem_save hblock hm with
    | inl hold => exact hprog.fresh m hold.2 hfresh
    | inr hsaved => simp [hsaved] at hfresh
  · have hreader : ∀ m ∈ (save homes registerOnly moves first.destination).1, m.saved = true →
        m = { reader with saved := true } := by
      intro m hm hsaved
      cases mem_save hblock hm with
      | inl hold => simp [hold.1] at hsaved
      | inr heq => exact heq
    cases hregister : registerOnly with
    | true =>
        have hheld := haside.register hregister
        subst hregister
        exact .register _ hreader rfl (hheld.1.trans hword) (hheld.2.trans hstack)
    | false =>
        have hheld := haside.stack hregister
        subst hregister
        exact .stack _ (reader_mem_save hblock) rfl hreader rfl (by rw [hheld, hword, hstack])

end Save

/-- Rounds still to come: one for each copy, one more for each that may be set aside. -/
def Emission.remaining (emission : Emission) : Nat :=
  emission.moves.length + emission.moves.countP fun m => !m.saved

def Emission.Good (homes : Homes) (made : Nat → Word) (registerOnly : Bool) (all : List Move) (start : Cells)
    (emission : Emission) : Prop :=
  Progress homes made registerOnly all start emission.moves (run homes made start emission.code)

theorem remaining_erase {index : Nat} (hat : moves[index]? = some move) (code code' : List Copy) :
    Emission.remaining ⟨moves.eraseIdx index, code'⟩ < Emission.remaining ⟨moves, code⟩ := by
  have hlt := (List.getElem?_eq_some_iff.mp hat).1
  have hlength := List.length_eraseIdx_of_lt hlt
  have hcount := (moves.eraseIdx_sublist index).countP_le (p := fun m => !m.saved)
  unfold Emission.remaining
  dsimp only
  omega

theorem remaining_save {first reader : Move} (hblock : Blocking homes moves first reader) (code code' : List Copy) :
    Emission.remaining ⟨(save homes registerOnly moves first.destination).1, code'⟩ <
      Emission.remaining ⟨moves, code⟩ := by
  have hbefore : moves.countP (fun m => !m.saved) = moves.length := by
    rw [List.countP_eq_length]
    intro m hm
    rw [hblock.fresh m hm]
    rfl
  have hlength : (save homes registerOnly moves first.destination).1.length = moves.length := List.length_map ..
  have hafter : (save homes registerOnly moves first.destination).1.countP (fun m => !m.saved) < moves.length := by
    rw [← hlength]
    apply lt_of_le_of_ne List.countP_le_length
    intro hall
    have hreader := List.countP_eq_length.mp hall _ (reader_mem_save hblock)
    cases hreader
  unfold Emission.remaining
  dsimp only
  omega

theorem emitNext_good (hp : homes.Proper) (hsep : Separate f homes made start all)
    (honly : registerOnly = true → ∀ m ∈ all, (homes.register m.destination).isSome) {emission next : Emission}
    (hgood : emission.Good homes made registerOnly all start)
    (hnext : emitNext f homes registerOnly emission = .ok (some next)) :
    next.Good homes made registerOnly all start ∧ next.remaining < emission.remaining := by
  unfold emitNext at hnext
  split at hnext
  · cases hnext
  · next first rest hmoves =>
      split at hnext
      · next hready =>
          cases hnext
          have hfirst : first ∈ emission.moves := by simp [hmoves]
          obtain ⟨reader, hblock⟩ := blocking_of_blocked hp hsep hgood hready hfirst
          refine ⟨?_, remaining_save hblock _ _⟩
          unfold Emission.Good
          rw [run_append]
          exact progress_save hp hsep honly hgood hfirst hblock
      · next move index hready =>
          obtain ⟨code, hcode, hnext⟩ := bind_eq_ok.mp hnext
          cases hnext
          refine ⟨?_, remaining_erase (ready_spec hready).1 _ _⟩
          unfold Emission.Good
          rw [run_append]
          exact progress_copy hp hsep honly hgood hready hcode

theorem emitNext_total (hsep : Separate f homes made start all) {emission : Emission}
    (hgood : emission.Good homes made registerOnly all start) :
    ∃ next, emitNext f homes registerOnly emission = .ok next := by
  unfold emitNext
  split
  · exact ⟨_, rfl⟩
  · split
    · exact ⟨_, rfl⟩
    · next move index hready =>
        have hmem := List.mem_iff_getElem?.mpr ⟨index, (ready_spec hready).1⟩
        obtain ⟨h, hhome⟩ := Progress.housed hgood hsep hmem
        obtain ⟨code, hcode⟩ := emitCopy_total f registerOnly hhome
        exact ⟨_, bind_eq_ok.mpr ⟨code, hcode, rfl⟩⟩

theorem emitNext_none {emission : Emission} (h : emitNext f homes registerOnly emission = .ok none) :
    emission.moves = [] := by
  unfold emitNext at h
  split at h
  · next hmoves => exact hmoves
  · split at h
    · cases h
    · obtain ⟨code, _, hpure⟩ := bind_eq_ok.mp h
      cases hpure

/-- What the copies of an edge do together. -/
structure Parallel (homes : Homes) (made : Nat → Word) (moves : List Move) (start cells : Cells) : Prop where
  written : ∀ m ∈ moves, cells.value homes made m.destination = start.value homes made m.source
  kept : ∀ h, h ≠ .register 0 → h ≠ .register 6 → (∀ m ∈ moves, homes.home m.destination ≠ some h) →
    cells.content h = start.content h
  stack : cells.stack = start.stack

/-- The sequence of copies is the parallel assignment. -/
theorem sequence_parallel (hp : homes.Proper) (hsep : Separate f homes made start moves)
    (hfresh : ∀ m ∈ moves, m.saved = false) :
    ∃ emission, sequence f homes moves = .ok emission ∧
      Parallel homes made moves start (run homes made start emission.code) := by
  let registerOnly := moves.all (inRegisters homes)
  have honly : registerOnly = true → ∀ m ∈ moves, (homes.register m.destination).isSome := by
    intro hall m hm
    have hregisters := List.all_eq_true.mp hall m hm
    exact (Bool.and_eq_true_iff.mp hregisters).1
  let good (emission : Emission) : Prop := emission.Good homes made registerOnly moves start
  have hstart : good { moves := moves } := progress_start hfresh
  have hstep : ∀ a b, good a → emitNext f homes registerOnly a = .ok (some b) → good b ∧ b.remaining < a.remaining :=
    fun a b ha hb => emitNext_good hp hsep honly ha hb
  have hbound : Emission.remaining { moves := moves } < 2 * moves.length + 1 := by
    have hcount : moves.countP (fun m => !m.saved) ≤ moves.length := List.countP_le_length
    unfold Emission.remaining
    dsimp only
    omega
  obtain ⟨emission, hloop⟩ : ∃ emission, loop (emitNext f homes registerOnly) unending (2 * moves.length + 1)
      { moves := moves } = .ok emission :=
    loop_terminates Emission.remaining (fun a ha => emitNext_total hsep ha) hstep hstart hbound
  have hend := loop_eq_ok (fun a b ha hb => (hstep a b ha hb).1) hstart hloop
  refine ⟨emission, hloop, ?_⟩
  have hnil := emitNext_none hend.2
  have hprog : Progress homes made registerOnly moves start [] (run homes made start emission.code) := hnil ▸ hend.1
  refine ⟨fun m hm => hprog.written m hm List.not_mem_nil, ?_, ?_⟩
  · intro h hzero hsix hnot
    exact hprog.kept h hzero hsix fun m hm hhome => absurd hhome (hnot m hm)
  · cases hprog.waiting with
    | none _ hstack => exact hstack
    | register _ _ _ _ hstack => exact hstack
    | stack p hmem _ _ _ _ => cases hmem

end Proper

end Disco.Backend.PhiCopies
