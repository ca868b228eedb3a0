import Disco.Gsu.Code

/-! # Straight code without a pipeline

What bytes without branches do, one instruction after the other, as if there
were neither a pipeline nor a cache. The machine arrives where straight code
says, as long as the code stays in memory.
-/

namespace Disco.Gsu

open Library

/-- How straight code ends. -/
inductive Outcome where
  /-- Behind its last byte. -/
  | falls (core : Core)
  /-- R15 has been written; the first of the bytes behind is in the delay slot. -/
  | jumps (core : Core) (slot : List Byte)
  | faults (fault : Fault)
  /-- At an opcode that is not straight code, or in the middle of an instruction. -/
  | other

namespace Outcome

/-- What one instruction makes of R15. -/
def of (slot : List Byte) (pc : Word) : Except Fault Core → Outcome
  | .error fault => .faults fault
  | .ok after =>
      if after.pcWritten then .jumps after slot else if after.pc = pc then .falls after else .other

def next (outcome : Outcome) (k : Core → Outcome) : Outcome :=
  match outcome with
  | .falls core => k core
  | outcome => outcome

/-- More bytes behind the code. -/
def before (outcome : Outcome) (bytes : List Byte) : Outcome :=
  match outcome with
  | .jumps core slot => .jumps core (slot ++ bytes)
  | outcome => outcome

theorem of_before (slot bytes : List Byte) (pc : Word) (result : Except Fault Core) :
    (of slot pc result).before bytes = of (slot ++ bytes) pc result := by
  unfold of
  cases result with
  | error fault => rfl
  | ok after =>
      dsimp only
      split_ifs <;> rfl

theorem next_before {bytes : List Byte} {k k' l : Core → Outcome}
    (h : ∀ core, k core ≠ .other → k' core = ((k core).before bytes).next l) (outcome : Outcome)
    (ho : outcome.next k ≠ .other) :
    (outcome.before bytes).next k' = ((outcome.next k).before bytes).next l := by
  cases outcome with
  | falls core => exact h core ho
  | jumps core slot => rfl
  | faults fault => rfl
  | other => exact absurd rfl ho

end Outcome

/-- An immediate load. -/
def Core.load (core : Core) (pc : Word) (opcode : Byte) (value : Word) : Core :=
  ((core.setPc pc).write (Fin.ofNat 16 opcode.toNat) value).resetSelectors

def straight (program : Program) : List Byte → Word → Core → Outcome
  | [], pc, core => .falls (core.setPc pc)
  | opcode :: rest, pc, core =>
      if Simple opcode then
        (Outcome.of rest (pc + 1) (perform program opcode (core.setPc (pc + 1)))).next
          (straight program rest (pc + 1))
      else if 0xa0 ≤ opcode.toNat ∧ opcode.toNat ≤ 0xaf ∧ core.alt1 = false ∧ core.alt2 = false then
        match rest with
        | value :: rest =>
            (Outcome.of rest (pc + 1 + 1)
              (.ok (core.load (pc + 1 + 1) opcode (value.signExtend 16)))).next
              (straight program rest (pc + 1 + 1))
        | _ => .other
      else if 0xf0 ≤ opcode.toNat ∧ core.alt1 = false ∧ core.alt2 = false then
        match rest with
        | low :: high :: rest =>
            (Outcome.of rest (pc + 1 + 1 + 1)
              (.ok (core.load (pc + 1 + 1 + 1) opcode
                (low.setWidth 16 ||| (high.setWidth 16 <<< 8))))).next
              (straight program rest (pc + 1 + 1 + 1))
        | _ => .other
      else .other

section Straight

variable {program : Program} {held : Word → Byte → Prop} {core : Core}

section Equations

variable {opcode : Byte}

attribute [local simp] straight

theorem straight_simple (hs : Simple opcode) (rest : List Byte) (pc : Word) (core : Core) :
    straight program (opcode :: rest) pc core =
      (Outcome.of rest (pc + 1) (perform program opcode (core.setPc (pc + 1)))).next
        (straight program rest (pc + 1)) := by
  unfold straight
  exact if_pos hs

theorem straight_ibt (h : 0xa0 ≤ opcode.toNat ∧ opcode.toNat ≤ 0xaf) (halt1 : core.alt1 = false)
    (halt2 : core.alt2 = false) (value : Byte) (rest : List Byte) (pc : Word) :
    straight program (opcode :: value :: rest) pc core =
      (Outcome.of rest (pc + 1 + 1) (.ok (core.load (pc + 1 + 1) opcode (value.signExtend 16)))).next
        (straight program rest (pc + 1 + 1)) := by
  have hs : ¬ Simple opcode := fun hs => hs.2.2.2.1 h
  rw [straight, if_neg hs, if_pos ⟨h.1, h.2, halt1, halt2⟩]

theorem straight_iwt (h : 0xf0 ≤ opcode.toNat) (halt1 : core.alt1 = false)
    (halt2 : core.alt2 = false) (low high : Byte) (rest : List Byte) (pc : Word) :
    straight program (opcode :: low :: high :: rest) pc core =
      (Outcome.of rest (pc + 1 + 1 + 1) (.ok (core.load (pc + 1 + 1 + 1) opcode
        (low.setWidth 16 ||| (high.setWidth 16 <<< 8))))).next
        (straight program rest (pc + 1 + 1 + 1)) := by
  have hs : ¬ Simple opcode := fun hs => absurd hs.2.2.2.2 (by omega)
  rw [straight, if_neg hs, if_neg (by omega), if_pos ⟨h, halt1, halt2⟩]

end Equations

/-- Straight code knows where it is. -/
theorem straight_setPc (bytes : List Byte) (pc other : Word) (core : Core) :
    straight program bytes pc (core.setPc other) = straight program bytes pc core := by
  cases bytes with
  | nil =>
      unfold straight
      rw [setPc_setPc]
  | cons opcode rest =>
      unfold straight Core.load
      simp only [setPc_setPc]
      rfl

theorem word_shift (pc : Word) (length : Nat) :
    pc + 1 + BitVec.ofNat 16 length = pc + BitVec.ofNat 16 (length + 1) := by
  rw [Nat.add_comm length 1, BitVec.ofNat_add, BitVec.add_assoc]
  rfl

theorem straight_append_of_le (second : List Byte) (n : Nat) : ∀ first : List Byte,
    first.length ≤ n → ∀ pc core, straight program first pc core ≠ .other →
    straight program (first ++ second) pc core =
      ((straight program first pc core).before second).next
        (straight program second (pc + BitVec.ofNat 16 first.length)) := by
  induction n with
  | zero =>
      intro first hle pc core _
      rw [List.length_eq_zero_iff.mp (Nat.le_zero.mp hle)]
      show straight program second pc core =
        straight program second (pc + BitVec.ofNat 16 0) (core.setPc pc)
      rw [straight_setPc]
      simp
  | succ n ih =>
      intro first hle pc core hne
      cases first with
      | nil => exact ih [] (Nat.zero_le n) pc core hne
      | cons opcode rest =>
          rw [List.length_cons] at hle
          rw [List.cons_append, List.length_cons, ← word_shift]
          unfold straight at hne ⊢
          by_cases hs : Simple opcode
          · rw [if_pos hs] at hne
            rw [if_pos hs, if_pos hs, ← Outcome.of_before]
            exact Outcome.next_before (fun core => ih rest (by omega) _ core) _ hne
          rw [if_neg hs] at hne
          rw [if_neg hs, if_neg hs]
          split_ifs at hne ⊢ with hibt hiwt
          · cases rest with
            | nil => exact absurd rfl hne
            | cons value rest =>
                rw [List.length_cons] at hle
                rw [List.length_cons, ← word_shift]
                dsimp only [List.cons_append]
                rw [← Outcome.of_before]
                exact Outcome.next_before (fun core => ih rest (by omega) _ core) _ hne
          · match rest, hle, hne with
            | low :: high :: rest, hle, hne =>
                rw [List.length_cons, List.length_cons] at hle
                rw [List.length_cons, List.length_cons, ← word_shift, ← word_shift]
                dsimp only [List.cons_append]
                rw [← Outcome.of_before]
                exact Outcome.next_before (fun core => ih rest (by omega) _ core) _ hne
            | [_], _, hne => exact absurd rfl hne
            | [], _, hne => exact absurd rfl hne
          · exact absurd rfl hne

/-- Straight code follows straight code. -/
theorem straight_append (first second : List Byte) (pc : Word) (core : Core)
    (h : straight program first pc core ≠ .other) :
    straight program (first ++ second) pc core =
      ((straight program first pc core).before second).next
        (straight program second (pc + BitVec.ofNat 16 first.length)) :=
  straight_append_of_le second first.length first le_rfl pc core h

/-! ## The machine arrives -/

/-- The machine reaches the end of straight code, as long as the code stays. -/
def Arrives (program : Program) (held : Word → Byte → Prop) (stop : Word) (next : Byte) (cpu : Cpu) :
    Outcome → Prop
  | .falls after => ∃ n last, Machine.Runs (cpuMachine program) n cpu last ∧
      Stands program held stop after last
  | .jumps after slot => ∃ n last, Machine.Runs (cpuMachine program) n cpu last ∧
      last.state.core = after ∧ last.state.pipeline = slot.headD next
  | .faults fault => ∃ n last, Machine.Runs (cpuMachine program) n cpu last ∧
      step program last = .error (.fault fault)
  | .other => True

/-- Code that is in memory whenever the machine is between two of its instructions. -/
def Stays (program : Program) (held : Word → Byte → Prop) (bytes : List Byte) (pc : Word)
    (core : Core) : Prop :=
  ∀ k after, straight program (bytes.take k) pc core = .falls after → Intact program held after

theorem Arrives.head {stop : Word} {next : Byte} {cpu following : Cpu} {outcome : Outcome}
    (hstep : step program cpu = .ok following) (h : Arrives program held stop next following outcome) :
    Arrives program held stop next cpu outcome := by
  cases outcome with
  | falls after =>
      rcases h with ⟨n, last, hruns, hlast⟩
      exact ⟨n + 1, last, .head hstep hruns, hlast⟩
  | jumps after slot =>
      rcases h with ⟨n, last, hruns, hlast⟩
      exact ⟨n + 1, last, .head hstep hruns, hlast⟩
  | faults fault =>
      rcases h with ⟨n, last, hruns, hlast⟩
      exact ⟨n + 1, last, .head hstep hruns, hlast⟩
  | other => trivial

/-- One instruction, and then the rest. -/
theorem Arrives.of_step {stop goal : Word} {next slot : Byte} {cpu : Cpu} {cache : Cache}
    {address : Option Word} {result : Except Fault Core} {rest : List Byte} {k : Core → Outcome}
    (hstep : step program cpu = (result.mapError Halt.fault >>= fun after =>
      .ok (advance ⟨⟨after, slot, address⟩, cache⟩)))
    (hc : Coherent held cache) (hslot : held stop slot) (hrest : slot = rest.headD next)
    (hi : ∀ after, Outcome.of rest stop result = .falls after → Intact program held after)
    (hk : ∀ after, Outcome.of rest stop result = .falls after → ∀ following,
      Stands program held stop after following → Arrives program held goal next following (k after)) :
    Arrives program held goal next cpu ((Outcome.of rest stop result).next k) := by
  cases result with
  | error fault => exact ⟨0, cpu, .refl (A := cpuMachine program) cpu, hstep⟩
  | ok after =>
      have hstep' : step program cpu = .ok (advance ⟨⟨after, slot, address⟩, cache⟩) := hstep
      by_cases hwritten : after.pcWritten = true
      · have hof : Outcome.of rest stop (.ok after) = .jumps after rest := if_pos hwritten
        have hadvance : advance ⟨⟨after, slot, address⟩, cache⟩ = ⟨⟨after, slot, address⟩, cache⟩ :=
          if_pos hwritten
        rw [hof]
        rw [hadvance] at hstep'
        exact ⟨1, _, .single hstep', rfl, hrest⟩
      · have hclear : after.pcWritten = false := by simpa using hwritten
        by_cases hpc : after.pc = stop
        · have hof : Outcome.of rest stop (.ok after) = .falls after :=
            (if_neg hwritten).trans (if_pos hpc)
          have hadvance : advance ⟨⟨after, slot, address⟩, cache⟩ =
              ⟨⟨after.setPc (stop + 1), slot, address⟩, cache⟩ := by
            rw [advance_clear hclear, ← hpc]
            rfl
          rw [hadvance] at hstep'
          rw [hof]
          apply Arrives.head hstep'
          apply hk after hof
          exact ⟨settle_of_clear hclear _, fun byte hbyte => (hi after hof).unique hslot hbyte, hc,
            hi after hof⟩
        · have hof : Outcome.of rest stop (.ok after) = .other :=
            (if_neg hwritten).trans (if_neg hpc)
          rw [hof]
          trivial

/-- Behind each byte of the code comes the next one. -/
theorem Reads.slot {address : Word} {bytes : List Byte} {next : Byte}
    (hr : Reads program held address (bytes ++ [next])) :
    ∃ rest, Reads program held address (bytes.headD next :: rest) := by
  cases bytes with
  | nil => exact ⟨[], hr⟩
  | cons byte rest => exact ⟨_, hr⟩

theorem Outcome.of_falls {slot other : List Byte} {pc : Word} {result : Except Fault Core}
    {after : Core} (h : Outcome.of slot pc result = .falls after) :
    Outcome.of other pc result = .falls after := by
  unfold Outcome.of at *
  cases result with
  | error fault => cases h
  | ok core =>
      dsimp only at *
      split_ifs at h ⊢ with hwritten hpc
      exact h

theorem Stays.intact {bytes : List Byte} {pc : Word} (h : Stays program held bytes pc core) :
    Intact program held core :=
  (h 0 (core.setPc pc) (by rw [List.take_zero]; rfl)).of_ram rfl

section Opcodes

variable {opcode : Byte}

theorem stays_simple {rest : List Byte} {pc : Word} {after : Core} (hs : Simple opcode)
    (h : Stays program held (opcode :: rest) pc core)
    (hof : Outcome.of rest (pc + 1) (perform program opcode (core.setPc (pc + 1))) = .falls after) :
    Stays program held rest (pc + 1) after := by
  intro k last hlast
  apply h (k + 1)
  rw [List.take_succ_cons, straight_simple hs, Outcome.of_falls hof]
  exact hlast

theorem stays_ibt {value : Byte} {rest : List Byte} {pc : Word} {after : Core}
    (hibt : 0xa0 ≤ opcode.toNat ∧ opcode.toNat ≤ 0xaf) (halt1 : core.alt1 = false)
    (halt2 : core.alt2 = false) (h : Stays program held (opcode :: value :: rest) pc core)
    (hof : Outcome.of rest (pc + 1 + 1) (.ok (core.load (pc + 1 + 1) opcode
      (value.signExtend 16))) = .falls after) : Stays program held rest (pc + 1 + 1) after := by
  intro k last hlast
  apply h (k + 1 + 1)
  rw [List.take_succ_cons, List.take_succ_cons, straight_ibt hibt halt1 halt2, Outcome.of_falls hof]
  exact hlast

theorem stays_iwt {low high : Byte} {rest : List Byte} {pc : Word} {after : Core}
    (hiwt : 0xf0 ≤ opcode.toNat) (halt1 : core.alt1 = false)
    (halt2 : core.alt2 = false) (h : Stays program held (opcode :: low :: high :: rest) pc core)
    (hof : Outcome.of rest (pc + 1 + 1 + 1) (.ok (core.load (pc + 1 + 1 + 1) opcode
      (low.setWidth 16 ||| (high.setWidth 16 <<< 8)))) = .falls after) :
    Stays program held rest (pc + 1 + 1 + 1) after := by
  intro k last hlast
  apply h (k + 1 + 1 + 1)
  rw [List.take_succ_cons, List.take_succ_cons, List.take_succ_cons, straight_iwt hiwt halt1 halt2,
    Outcome.of_falls hof]
  exact hlast

theorem opcode_eq {base : Nat} (hbase : base ≤ 0xf0) (hdvd : 16 ∣ base) (hge : base ≤ opcode.toNat)
    (hle : opcode.toNat ≤ base + 15) :
    opcode = registerOpcodeOf base (Fin.ofNat 16 opcode.toNat) := by
  apply BitVec.eq_of_toNat_eq
  rw [registerOpcodeOf_toNat hbase]
  show opcode.toNat = base + opcode.toNat % 16
  omega

end Opcodes

theorem straight_arrives_of_le (next : Byte) (n : Nat) : ∀ bytes : List Byte, bytes.length ≤ n →
    ∀ pc core, Reads program held pc (bytes ++ [next]) → Stays program held bytes pc core →
    ∀ cpu, Stands program held pc core cpu →
    Arrives program held (pc + BitVec.ofNat 16 bytes.length) next cpu
      (straight program bytes pc core) := by
  induction n with
  | zero =>
      intro bytes hle pc core _ _ cpu hcpu
      rw [List.length_eq_zero_iff.mp (Nat.le_zero.mp hle)]
      have hhere : pc + BitVec.ofNat 16 ([] : List Byte).length = pc := by simp
      rw [hhere]
      refine ⟨0, cpu, .refl (A := cpuMachine program) cpu, ?_, hcpu.fetched, hcpu.coherent,
        hcpu.intact.of_ram rfl⟩
      rw [setPc_setPc]
      exact hcpu.settled
  | succ n ih =>
      intro bytes hle pc core hreads hstays cpu hcpu
      cases bytes with
      | nil => exact ih [] (Nat.zero_le n) pc core hreads hstays cpu hcpu
      | cons opcode rest =>
          rw [List.length_cons] at hle
          rw [List.length_cons, ← word_shift]
          have hw : core.pcWritten = false := (congrArg Core.pcWritten hcpu.settled).symm
          unfold straight
          by_cases hs : Simple opcode
          · rw [if_pos hs]
            rcases hreads.2.2.slot with ⟨tail, hslot⟩
            rcases hslot.get hcpu.intact hcpu.coherent with ⟨cache, hfetch, hcoherent⟩
            have hstep := step_simple (core.setPc (pc + 1)) cpu.state.address hs hfetch
            rw [settle_of_clear hw, ← hcpu.step hreads.2.1] at hstep
            refine Arrives.of_step hstep hcoherent hslot.2.1 rfl ?_ ?_
            · intro after hof
              exact (stays_simple hs hstays hof).intact
            · intro after hof following hfollowing
              exact ih rest (by omega) (pc + 1) after hreads.2.2 (stays_simple hs hstays hof)
                following hfollowing
          rw [if_neg hs]
          split_ifs with hibt hiwt
          · cases rest with
            | nil => trivial
            | cons value rest =>
                rw [List.length_cons] at hle
                rw [List.length_cons, ← word_shift]
                have hrange := And.intro hibt.1 hibt.2.1
                have halt := hibt.2.2
                have hopcode : opcode = registerOpcodeOf 0xa0 (Fin.ofNat 16 opcode.toNat) :=
                  opcode_eq (by decide) (by decide) hibt.1 hibt.2.1
                rcases hreads.2.2.get hcpu.intact hcpu.coherent with ⟨first, hvalue, hfirst⟩
                rcases hreads.2.2.2.2.slot with ⟨tail, hslot⟩
                rcases hslot.get hcpu.intact hfirst with ⟨second, hfetch, hsecond⟩
                have hfetch' : fetch program ((core.setPc (pc + 1)).setPc
                    ((core.setPc (pc + 1)).pc + 1)) first = .ok (rest.headD next, second) := by
                  rw [setPc_pc, setPc_setPc]
                  exact hfetch
                have hstep := step_ibt (core.setPc (pc + 1)) (Fin.ofNat 16 opcode.toNat)
                  cpu.state.address halt.1 halt.2 hw hvalue hfetch'
                rw [← hopcode, ← hcpu.step hreads.2.1, setPc_pc, setPc_setPc] at hstep
                refine Arrives.of_step hstep hsecond hslot.2.1 rfl ?_ ?_
                · intro after hof
                  exact (stays_ibt hrange halt.1 halt.2 hstays hof).intact
                · intro after hof following hfollowing
                  exact ih rest (by omega) _ after hreads.2.2.2.2
                    (stays_ibt hrange halt.1 halt.2 hstays hof) following hfollowing
          · match rest, hle, hreads, hstays with
            | low :: high :: rest, hle, hreads, hstays =>
                rw [List.length_cons, List.length_cons] at hle
                rw [List.length_cons, List.length_cons, ← word_shift, ← word_shift]
                have halt := hiwt.2
                have hle' := opcode.isLt
                have hopcode : opcode = registerOpcodeOf 0xf0 (Fin.ofNat 16 opcode.toNat) :=
                  opcode_eq (by decide) (by decide) hiwt.1 (by omega)
                rcases hreads.2.2.get hcpu.intact hcpu.coherent with ⟨first, hlow, hfirst⟩
                rcases hreads.2.2.2.2.get hcpu.intact hfirst with ⟨second, hhigh, hsecond⟩
                rcases hreads.2.2.2.2.2.2.slot with ⟨tail, hslot⟩
                rcases hslot.get hcpu.intact hsecond with ⟨third, hfetch, hthird⟩
                have hhigh' : fetch program ((core.setPc (pc + 1)).setPc
                    ((core.setPc (pc + 1)).pc + 1)) first = .ok (high, second) := by
                  rw [setPc_pc, setPc_setPc]
                  exact hhigh
                have hfetch' : fetch program ((core.setPc (pc + 1)).setPc
                    ((core.setPc (pc + 1)).pc + 1 + 1)) second = .ok (rest.headD next, third) := by
                  rw [setPc_pc, setPc_setPc]
                  exact hfetch
                have hstep := step_iwt_register (core.setPc (pc + 1)) (Fin.ofNat 16 opcode.toNat)
                  cpu.state.address halt.1 halt.2 hw hlow hhigh' hfetch'
                rw [← hopcode, ← hcpu.step hreads.2.1, setPc_pc, setPc_setPc] at hstep
                refine Arrives.of_step hstep hthird hslot.2.1 rfl ?_ ?_
                · intro after hof
                  exact (stays_iwt hiwt.1 halt.1 halt.2 hstays hof).intact
                · intro after hof following hfollowing
                  exact ih rest (by omega) _ after hreads.2.2.2.2.2.2
                    (stays_iwt hiwt.1 halt.1 halt.2 hstays hof) following hfollowing
            | [_], _, _, _ => trivial
            | [], _, _, _ => trivial
          · trivial

/-- The machine does what straight code does, through its pipeline and its cache. -/
theorem straight_arrives {bytes : List Byte} {pc : Word} {next : Byte}
    (hreads : Reads program held pc (bytes ++ [next])) (hstays : Stays program held bytes pc core)
    {cpu : Cpu} (hcpu : Stands program held pc core cpu) :
    Arrives program held (pc + BitVec.ofNat 16 bytes.length) next cpu
      (straight program bytes pc core) :=
  straight_arrives_of_le next bytes.length bytes le_rfl pc core hreads hstays cpu hcpu

end Straight

end Disco.Gsu
