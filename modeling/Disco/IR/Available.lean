import Disco.IR.Soundness

/-! # What holds of the values at a position

A definition is available where it dominates. A statement about the value of a
definition, the values it was computed from and the PHIs beside it, once true
behind the definition, stays true wherever the definition is available: a new
execution of one of those values has to pass the definition again before control
is back at such a position. This also holds inside hidden hardware loops, whose
backedges are no edges of the graph.
-/

namespace Disco.IR

open Library Verifier

/-! ## Positions where a definition is available -/

section Positions

variable {f : Function} {b k : Nat} {c d : Site}

/-- Every walk to a position has executed the site. -/
structure Available (f : Function) (d : Site) (b k : Nat) : Prop where
  dominates : Dominates (flow f) f.entry d.block b
  before : d.block = b → d.position < k

/-- Sites whose values are fixed when a site is executed: the site, what is
available there, and the PHIs that are assigned together with it. -/
def Settles (f : Function) (c d : Site) : Prop :=
  c = d ∨ Available f c d.block d.position ∨
    (c.instruction.opcode = .phi ∧ d.instruction.opcode = .phi ∧ c.block = d.block)

theorem Available.mono {l : Nat} (h : Available f d b k) (hle : k ≤ l) : Available f d b l :=
  ⟨h.dominates, fun hblock => lt_of_lt_of_le (h.before hblock) hle⟩

theorem not_available_self (d : Site) : ¬ Available f d d.block d.position :=
  fun h => lt_irrefl _ (h.before rfl)

theorem available_of_lt (hblock : d.block = b) (hlt : d.position < k) : Available f d b k := by
  subst hblock
  exact ⟨.refl _, fun _ => hlt⟩

theorem Available.trans (h : Available f c d.block d.position) (hd : Available f d b k)
    (hr : Reached (flow f) f.entry b) : Available f c b k := by
  refine ⟨h.dominates.trans hd.dominates, ?_⟩
  intro hblock
  -- in one block with `b`, the site between them is there as well
  have hsame : d.block = b := by
    refine hd.dominates.antisymm ?_ (hd.dominates.reached hr)
    rw [← hblock]
    exact h.dominates
  have hbefore := h.before (hblock.trans hsame.symm)
  have hbehind := hd.before hsame
  omega

/-- The operands of an instruction are available where it is executed. -/
theorem available_operand (hv : Verified f) (hd : d ∈ f.sites) (hphi : d.instruction.opcode ≠ .phi)
    (hr : Reached (flow f) f.entry d.block) {v : Nat} (hmem : v ∈ d.instruction.operands) :
    ∃ c, f.site v = some c ∧ c ∈ f.sites ∧ c.instruction.result = v ∧ v ≠ 0 ∧
      Available f c d.block d.position := by
  obtain ⟨c, hfound, hsame, hother⟩ := hv.operand d hd hphi v hmem
  rcases of_site_eq_some hfound with ⟨hc, hresult⟩
  obtain ⟨_, -, hscanned⟩ := hv.scanned hd
  refine ⟨c, hfound, hc, hresult, (hscanned.operands v hmem).1, ?_, hsame⟩
  by_cases hblock : c.block = d.block
  · rw [hblock]
    exact .refl _
  · exact hother hblock hr

/-- The value a PHI takes along an edge is available at the end of its block. -/
theorem available_incoming (hv : Verified f) (hd : d ∈ f.sites) (hphi : d.instruction.opcode = .phi)
    {source : Nat} (hedge : flow f source d.block) :
    ∃ c, f.site (d.instruction.incoming source) = some c ∧ c ∈ f.sites ∧
      c.instruction.result = d.instruction.incoming source ∧ d.instruction.incoming source ≠ 0 ∧
      Available f c source (f.code source).length ∧
      sameValueType d.instruction.type c.instruction.type = true := by
  have hverified := hv.phi d hd hphi
  have hzip := incoming_mem hverified.lengths (hverified.covers source hedge)
  obtain ⟨-, -, c, hfound, hdom, htype⟩ := hverified.edges _ hzip
  rcases of_site_eq_some hfound with ⟨hc, hresult⟩
  obtain ⟨_, -, hscanned⟩ := hv.scanned hd
  refine ⟨c, hfound, hc, hresult, (hscanned.operands _ (List.of_mem_zip hzip).1).1, ⟨hdom, ?_⟩, htype⟩
  intro hblock
  have hget := mem_sites.mp hc
  rw [hblock] at hget
  exact (List.getElem?_eq_some_iff.mp hget).1

/-- What is available at the start of a block is available behind every block
before it. -/
theorem Available.predecessor {a : Nat} (h : Available f d b 0) (hd : d ∈ f.sites)
    (hedge : flow f a b) : Available f d a (f.code a).length := by
  have hne : b ≠ d.block := fun heq => absurd (h.before heq.symm) (Nat.not_lt_zero _)
  refine ⟨h.dominates.predecessor hedge hne, ?_⟩
  intro hblock
  have hget := mem_sites.mp hd
  rw [hblock] at hget
  exact (List.getElem?_eq_some_iff.mp hget).1

/-- Behind the PHIs of a block: one of them, or available before it. -/
theorem Available.start (h : Available f d b (phis (f.code b)).length) (hd : d ∈ f.sites) :
    (d.block = b ∧ d.instruction.opcode = .phi) ∨ Available f d b 0 := by
  by_cases hblock : d.block = b
  · left
    have hlt := h.before hblock
    have hget := mem_sites.mp hd
    rw [hblock, ← phis_append_body (f.code b), List.getElem?_append_left hlt] at hget
    exact ⟨hblock, by simpa using List.mem_takeWhile_imp (List.mem_of_getElem? hget)⟩
  · exact .inr ⟨h.dominates, fun heq => absurd heq hblock⟩

/-- What settles an available site is available too, between instructions. -/
theorem Available.settles (h : Available f d b k) (hk : d.block = b → (phis (f.code b)).length ≤ k)
    (hc : c ∈ f.sites) (hv : Verified f) (hr : Reached (flow f) f.entry b) (hsettles : Settles f c d) :
    Available f c b k := by
  rcases hsettles with rfl | hbefore | ⟨hphi, -, hblock⟩
  · exact h
  · exact hbefore.trans h hr
  · refine ⟨by rw [hblock]; exact h.dominates, ?_⟩
    intro heq
    by_contra hge
    -- a PHI stands before the rest of its block
    have hle := hk (hblock.symm.trans heq)
    have hget := mem_sites.mp hc
    rw [heq, ← phis_append_body (f.code b), List.getElem?_append_right (by omega)] at hget
    exact hv.not_phi_of_mem_body (List.mem_of_getElem? hget) hphi

end Positions

/-! ## Hidden loops -/

section Hidden

variable {f : Function} {scopes : Nat → List Nat} {opened : List Nat}

/-- Only its setup opens a loop. -/
theorem activeLoops_fresh {i : Instruction} {active after : List Nat} {loopId : Nat}
    (h : activeLoops active i = .ok after) (hfresh : loopId ∉ active)
    (hsetup : i.opcode = .hardwareLoop → i.loopId ≠ loopId) : loopId ∉ after := by
  by_cases hloop : isLoopOpcode i.opcode = true
  · unfold isLoopOpcode at hloop
    rcases of_decide_eq_true hloop with hop | hop | hop
    · obtain rfl := activeLoops_setup hop h
      intro hmem
      rcases List.mem_cons.mp hmem with heq | hmem
      · exact hsetup hop heq.symm
      · exact hfresh hmem
    · rw [(activeLoops_end hop h).2]
      split
      · exact fun hmem => hfresh (List.mem_of_mem_tail hmem)
      · exact hfresh
    · rw [(activeLoops_leave hop h).2]
      exact fun hmem => hfresh (List.mem_of_mem_tail hmem)
  · rw [activeLoops_other (by simpa using hloop)] at h
    cases h
    exact hfresh

theorem foldAll_activeLoops_fresh {code : List Instruction} {active after : List Nat} {loopId : Nat}
    (h : foldAll activeLoops active code = .ok after) (hfresh : loopId ∉ active)
    (hsetup : ∀ i ∈ code, i.opcode = .hardwareLoop → i.loopId ≠ loopId) : loopId ∉ after := by
  induction code generalizing active with
  | nil =>
      cases h
      exact hfresh
  | cons i rest ih =>
      obtain ⟨between, hfirst, h⟩ := bind_eq_ok.mp h
      exact ih h (activeLoops_fresh hfirst hfresh (hsetup i List.mem_cons_self))
        fun j hj => hsetup j (List.mem_cons_of_mem _ hj)

/-- Two setups of one loop are one site. -/
theorem setup_unique (hl : LoopsMatched f) {a b : Site} (ha : a ∈ f.sites) (hb : b ∈ f.sites)
    (hopa : a.instruction.opcode = .hardwareLoop) (hopb : b.instruction.opcode = .hardwareLoop)
    (hid : a.instruction.loopId = b.instruction.loopId) : a = b := by
  have hfirst := loopSite_eq_some hl.single ha (by rw [hopa]; rfl)
  have hsecond := loopSite_eq_some hl.single hb (by rw [hopb]; rfl)
  rw [hopa, hid] at hfirst
  rw [hopb, hfirst] at hsecond
  exact Option.some.inj hsecond

/-- A loop is open only behind its setup. -/
theorem closed_before_setup (hl : LoopsMatched f) (hs : Scoped f scopes) {setup : Site}
    (hmem : setup ∈ f.sites) (hop : setup.instruction.opcode = .hardwareLoop) {x : Nat}
    (h : Avoids (flow f) f.entry setup.block x) : setup.instruction.loopId ∉ scopes x := by
  have hother : ∀ a, a ≠ setup.block → ∀ i ∈ f.code a, i.opcode = .hardwareLoop →
      i.loopId ≠ setup.instruction.loopId := by
    intro a ha i hi hopen hid
    obtain ⟨site, hsite, hblock, rfl⟩ := mem_sites_of_mem_code hi
    rw [setup_unique hl hsite hmem hopen hop hid] at hblock
    exact ha hblock.symm
  induction h with
  | start =>
      rw [hs.entry]
      exact List.not_mem_nil
  | @next a c before hstep hne ih =>
      obtain ⟨active, hfold, hsuccessors, -⟩ := hs.ends a before.reached
      rw [hsuccessors c hstep]
      refine foldAll_activeLoops_fresh hfold ih (hother a ?_)
      rintro rfl
      exact Dominates.refl _ before

/-- While a loop is open, nothing that precedes its body is executed. -/
theorem not_available_in_loop (hl : LoopsMatched f) (hs : Scoped f scopes) {setup : Site}
    (hmem : setup ∈ f.sites) (hop : setup.instruction.opcode = .hardwareLoop) {d : Site} {k : Nat}
    (hr : Reached (flow f) f.entry d.block) (hr' : Reached (flow f) f.entry setup.block)
    (hk : k ≤ d.position) (hopen : OpenAt f scopes d.block k opened)
    (hloop : setup.instruction.loopId ∈ opened) :
    ¬ Available f d setup.block (setup.position + 1) := by
  intro h
  have hother : ∀ i ∈ (f.code d.block).take k, i.opcode = .hardwareLoop →
      i.loopId ≠ setup.instruction.loopId ∨ (setup.block = d.block ∧ setup.position < k) := by
    intro i hi hopen
    by_cases hid : i.loopId = setup.instruction.loopId
    · right
      obtain ⟨n, hn⟩ := List.mem_iff_getElem?.mp hi
      have hlt : n < k := by
        by_contra hge
        rw [List.getElem?_take_eq_none (by omega)] at hn
        cases hn
      rw [List.getElem?_take_of_lt hlt] at hn
      have hsite : (⟨d.block, n, i⟩ : Site) ∈ f.sites := mem_sites.mpr hn
      have heq := setup_unique hl hsite hmem hopen hop hid
      rw [← heq]
      exact ⟨rfl, hlt⟩
    · exact .inl hid
  have hscope : setup.instruction.loopId ∉ scopes d.block := by
    by_cases hblock : d.block = setup.block
    · rcases reached_first hr' setup.block with havoids | hentry | ⟨a, havoids, hstep⟩
      · exact absurd havoids (Dominates.refl _)
      · rw [hblock, hentry, hs.entry]
        exact List.not_mem_nil
      · obtain ⟨active, hfold, hsuccessors, -⟩ := hs.ends a havoids.reached
        rw [hblock, hsuccessors _ hstep]
        refine foldAll_activeLoops_fresh hfold (closed_before_setup hl hs hmem hop havoids) ?_
        intro i hi hopen hid
        obtain ⟨site, hsite, hsame, rfl⟩ := mem_sites_of_mem_code hi
        rw [setup_unique hl hsite hmem hopen hop hid] at hsame
        rw [← hsame] at havoids
        exact Dominates.refl _ havoids
    · apply closed_before_setup hl hs hmem hop
      by_contra hdom
      exact hblock (h.dominates.antisymm hdom hr)
  refine foldAll_activeLoops_fresh hopen hscope ?_ hloop
  intro i hi hopen
  rcases hother i hi hopen with hne | ⟨hblock, hlt⟩
  · exact hne
  · have hbefore := h.before hblock.symm
    omega

end Hidden

/-! ## Passages -/

section Passages

variable {W : Type} {perform : Perform W} {f : Function} {scopes : Nat → List Nat} {s t : State W}
  {history : History} {i : Instruction} {rest : List Instruction}

/-- Where an instruction takes control, and which loops are open there. -/
inductive Passage (f : Function) (s : State W) (history : History) (i : Instruction)
    (rest : List Instruction) (t : State W) (opened : List Nat) : Prop where
  | line (plain : i.isTerminator = false) (block : t.block = s.block) (code : t.code = rest)
      (loops : ∀ loopId ∈ opened, loopId ∈ history.opened ∨
        (i.opcode = .hardwareLoop ∧ loopId = i.loopId))
  | edge (terminator : i.isTerminator = true) (target : t.block ∈ i.targets)
      (code : t.code = body (f.code t.block))
      (loops : ∀ loopId ∈ opened, loopId ∈ history.opened ∨
        (i.opcode = .hardwareLoop ∧ loopId = i.loopId))
  | again (plain : i.isTerminator = false) (setup : Site) (mem : setup ∈ f.sites)
      (opcode : setup.instruction.opcode = .hardwareLoop) (hidden : setup.instruction.targets = [])
      (loop : setup.instruction.loopId ∈ history.opened) (block : t.block = setup.block)
      (code : t.code = (f.code setup.block).drop (setup.position + 1))
      (loops : opened = history.opened)

theorem after_opened_sub (loops : List LoopFrame) (target : Nat) :
    ∀ loopId ∈ (history.after f i loops target).opened, loopId ∈ history.opened ∨
      (i.opcode = .hardwareLoop ∧ loopId = i.loopId) := by
  intro loopId hmem
  unfold History.after at hmem
  dsimp only at hmem
  split at hmem
  · rename_i hop
    rcases List.mem_cons.mp hmem with rfl | hmem
    · exact .inr ⟨hop, rfl⟩
    · exact .inl hmem
  · split at hmem
    · exact .inl (List.mem_of_mem_tail hmem)
    · exact .inl hmem

/-- A move is a passage. -/
theorem Invariant.passage (hv : Verified f) (hl : LoopsMatched f) (hs : Scoped f scopes)
    (h : Invariant f scopes s history) (hcode : s.code = i :: rest) (hmove : Move f s i rest t) :
    Passage f s history i rest t (history.after f i s.loops t.block).opened := by
  have hloops := @after_opened_sub f history i s.loops t.block
  cases hmove with
  | falls hplain hterm hblock hcode' =>
      refine .line (isTerminator_plain hterm ?_) hblock hcode' hloops
      rintro (hop | hop) <;> (rw [hop] at hplain; cases hplain)
  | jumps hterm htarget hcode' =>
      exact .edge (isTerminator_edge htarget (.inl hterm)) htarget hcode' hloops
  | hides count hop hhidden hblock hcode' =>
      refine .line (isTerminator_plain ?_ fun _ => hhidden) hblock hcode' hloops
      rw [hop]
      rfl
  | exposes count hop htarget hcode' =>
      exact .edge (isTerminator_edge htarget (.inr (.inl hop))) htarget hcode' hloops
  | runsOut frame hop hhidden hbefore hzero hblock hcode' =>
      refine .line (isTerminator_plain ?_ fun _ => hhidden) hblock hcode' hloops
      rw [hop]
      rfl
  | repeats frame outer hop hhidden hbefore hnonzero hresume hloops' =>
      have hline : i.isTerminator = false := by
        refine isTerminator_plain ?_ fun _ => hhidden
        rw [hop]
        rfl
      have hcloses : closes i s.loops = false := by
        rw [hbefore, closes_hidden hop hhidden]
        exact decide_eq_false hnonzero
      obtain ⟨k, after, -, -, hafter, -, hi, -⟩ := h.inLine hv hs hcode hline
      have hhead := (activeLoops_end hop hafter).1
      have hframes := h.frames
      rw [hbefore] at hframes
      obtain ⟨setup, hmem, hsetup, htop, hresumes⟩ := hframes.top
      rw [hhead] at htop
      have hid := (Option.some.inj htop).symm
      have hmatched := hl.matched setup hmem ⟨s.block, _, i⟩ (mem_sites.mpr hi) hsetup hop hid
      have hframe := hresumes (hmatched.mpr hhidden)
      have hplace := hframe.resume.symm.trans hresume
      obtain ⟨hblock, hbehind⟩ := Prod.mk.inj (Option.some.inj hplace)
      refine .again hline setup hmem hsetup (hmatched.mpr hhidden) ?_ hblock.symm hbehind.symm
        (after_opened_stays (by rw [hop]; decide) hcloses t.block)
      rw [hid]
      exact List.mem_of_head? hhead
  | turns frame outer hop hbefore htarget hcode' =>
      exact .edge (isTerminator_edge htarget (.inr (.inr hop))) htarget hcode' hloops
  | leaves hop hblock hcode' =>
      refine .line (isTerminator_plain ?_ ?_) hblock hcode' hloops
      · rw [hop]
        rfl
      · rw [hop]
        rintro (heq | heq) <;> cases heq

theorem jump_env {selected : Nat} (h : jump f i selected s = .ok t) :
    t.env = selectPhis (phis (f.code t.block)) s.block s.env := by
  unfold jump at h
  cases htarget : i.targets[selected]? with
  | none =>
      rw [htarget] at h
      cases h
  | some target =>
      rw [htarget] at h
      cases h
      rfl

theorem execute_env {u : State W} (h : execute perform i s = .ok u) (hresult : i.result = 0) :
    u.env = s.env := by
  obtain ⟨p, -, hdone⟩ := bind_eq_ok.mp h
  cases hdone
  exact if_pos hresult

theorem execute_other {u : State W} (h : execute perform i s = .ok u) {v : Nat} (hne : v ≠ i.result) :
    u.env v = s.env v := by
  obtain ⟨p, -, hdone⟩ := bind_eq_ok.mp h
  cases hdone
  unfold State.record
  dsimp only
  split
  · rfl
  · exact Function.update_of_ne hne _ _

/-- Within a block the values are those of the instruction. -/
theorem step_env_line (hcode : s.code = i :: rest) (h : step perform f s = .ok t)
    (hline : i.isTerminator = false) : ∃ u, execute perform i s = .ok u ∧ t.env = u.env := by
  unfold Instruction.isTerminator at hline
  rw [Bool.or_eq_false_iff] at hline
  unfold step at h
  rw [hcode] at h
  dsimp only at h
  rw [if_neg (by rw [hline.1]; decide)] at h
  obtain ⟨u, hu, h⟩ := bind_eq_ok.mp h
  refine ⟨u, hu, ?_⟩
  have hhidden : i.opcode = .hardwareLoop ∨ i.opcode = .hardwareLoopEnd → i.targets.isEmpty = true := by
    intro hop
    rw [decide_eq_true hop, Bool.true_and, Bool.not_eq_false'] at hline
    exact hline.2
  unfold proceed at h
  split at h
  · rename_i hop
    unfold enterLoop at h
    dsimp only at h
    rw [if_pos (hhidden (.inl hop))] at h
    cases h
    rfl
  · rename_i hop
    unfold repeatLoop at h
    split at h
    · cases h
    · dsimp only at h
      rw [if_pos (hhidden (.inr hop))] at h
      split at h
      · cases h
        rfl
      · split at h
        · cases h
          rfl
        · cases h
  · cases h
    rfl
  · cases h
    rfl

/-- Along an edge the PHIs of the target are assigned. -/
theorem step_env_edge (hcode : s.code = i :: rest) (h : step perform f s = .ok t)
    (hterm : i.isTerminator = true) (hresult : i.result = 0) :
    t.env = selectPhis (phis (f.code t.block)) s.block s.env := by
  unfold Instruction.isTerminator at hterm
  unfold step at h
  rw [hcode] at h
  dsimp only at h
  by_cases hplain : isTerminatorOpcode i.opcode = true
  · rw [if_pos hplain] at h
    obtain ⟨selected, -, h⟩ := bind_eq_ok.mp h
    exact jump_env h
  · rw [if_neg hplain] at h
    rw [Bool.not_eq_true _ |>.mp hplain, Bool.false_or, Bool.and_eq_true, decide_eq_true_eq,
      Bool.not_eq_true'] at hterm
    obtain ⟨u, hu, h⟩ := bind_eq_ok.mp h
    have henv := execute_env hu hresult
    rcases execute_keeps hu with ⟨hblock, -⟩
    unfold proceed at h
    rcases hterm with ⟨hop | hop, hsome⟩
    · rw [hop] at h
      dsimp only at h
      unfold enterLoop at h
      dsimp only at h
      rw [if_neg (by rw [hsome]; decide)] at h
      rw [jump_env h, henv, hblock]
    · rw [hop] at h
      dsimp only at h
      unfold repeatLoop at h
      split at h
      · cases h
      · dsimp only at h
        rw [if_neg (by rw [hsome]; decide)] at h
        rw [jump_env h, henv, hblock]

end Passages

/-! ## Assertions -/

section Assertions

variable {E : Type} {f : Function} {scopes : Nat → List Nat} {P : Site → E → Prop}
  {Writes : Site → E → E → Prop} {Selects : Nat → Nat → E → E → Prop}

/-- It holds of every definition that is available at a position. -/
def Asserted (f : Function) (P : Site → E → Prop) (e : E) (b k : Nat) : Prop :=
  ∀ d ∈ f.sites, d.instruction.result ≠ 0 → Available f d b k → P d e

/-- Every definition makes it true of itself, and only what settles a site can
make it false there. `Writes` is what an instruction does to an environment,
`Selects` what an edge does. -/
structure Preserved (f : Function) (P : Site → E → Prop) (Writes : Site → E → E → Prop)
    (Selects : Nat → Nat → E → E → Prop) : Prop where
  frame : ∀ {here d : Site} {e e' : E}, here ∈ f.sites → d ∈ f.sites → d.instruction.result ≠ 0 →
    Reached (flow f) f.entry d.block → ¬ Settles f here d → Writes here e e' → P d e → P d e'
  define : ∀ {here : Site} {e e' : E}, here ∈ f.sites → here.instruction.opcode ≠ .phi →
    here.instruction.result ≠ 0 → Reached (flow f) f.entry here.block →
    Asserted f P e here.block here.position → Writes here e e' → P here e'
  frameEdge : ∀ {a target : Nat} {d : Site} {e e' : E}, d ∈ f.sites → d.instruction.result ≠ 0 →
    Reached (flow f) f.entry d.block →
    (∀ here ∈ f.sites, here.block = target → here.instruction.opcode = .phi → ¬ Settles f here d) →
    Selects a target e e' → P d e → P d e'
  select : ∀ {a : Nat} {phi : Site} {e e' : E}, phi ∈ f.sites → phi.instruction.opcode = .phi →
    Reached (flow f) f.entry a → flow f a phi.block → Asserted f P e a (f.code a).length →
    Selects a phi.block e e' → P phi e'

theorem At.unique {b k l : Nat} {code : List Instruction} (h : At f b k code) (h' : At f b l code) :
    k = l := by
  have hlength := congrArg List.length (h.code.symm.trans h'.code)
  rw [List.length_drop, List.length_drop] at hlength
  have hinside := h.inside
  have hinside' := h'.inside
  omega

theorem phis_length_le {d : Site} (hd : d ∈ f.sites) (hphi : d.instruction.opcode ≠ .phi) :
    (phis (f.code d.block)).length ≤ d.position := by
  by_contra hlt
  have hget := mem_sites.mp hd
  rw [← phis_append_body (f.code d.block), List.getElem?_append_left (by omega)] at hget
  exact hphi (by simpa using List.mem_takeWhile_imp (List.mem_of_getElem? hget))

theorem openAt_phis {b : Nat} {opened : List Nat}
    (h : OpenAt f scopes b (phis (f.code b)).length opened) : OpenAt f scopes b 0 opened := by
  unfold OpenAt at h ⊢
  rw [take_phis] at h
  rw [← h]
  symm
  apply foldAll_activeLoops_other
  intro i hi
  have hphi : i.opcode = .phi := by simpa using List.mem_takeWhile_imp hi
  rw [hphi]
  rfl

section Instructions

variable {here : Site} {k : Nat} {e e' : E}

/-- Executing an instruction keeps what is asserted behind an open loop's setup. -/
theorem Asserted.inLoop (hp : Preserved f P Writes Selects) (hv : Verified f) (hl : LoopsMatched f)
    (hs : Scoped f scopes) {setup : Site} {opened : List Nat} (hsetup : setup ∈ f.sites)
    (hop : setup.instruction.opcode = .hardwareLoop) (hloop : setup.instruction.loopId ∈ opened)
    (hr : Reached (flow f) f.entry setup.block) (hhere : here ∈ f.sites)
    (hr' : Reached (flow f) f.entry here.block) (hk : k ≤ here.position)
    (hopen : OpenAt f scopes here.block k opened) (hwrites : Writes here e e')
    (h : Asserted f P e setup.block (setup.position + 1)) :
    Asserted f P e' setup.block (setup.position + 1) := by
  intro d hd hresult havailable
  refine hp.frame hhere hd hresult (havailable.dominates.reached hr) ?_ hwrites
    (h d hd hresult havailable)
  intro hsettles
  have hle := phis_length_le hsetup (by rw [hop]; decide)
  exact not_available_in_loop hl hs hsetup hop hr' hr hk hopen hloop
    (havailable.settles (fun _ => by omega) hhere hv hr hsettles)

/-- Executing an instruction of a block. -/
theorem Asserted.next (hp : Preserved f P Writes Selects) (hv : Verified f) (hhere : here ∈ f.sites)
    (hphi : here.instruction.opcode ≠ .phi) (hr : Reached (flow f) f.entry here.block)
    (hwrites : Writes here e e') (h : Asserted f P e here.block here.position) :
    Asserted f P e' here.block (here.position + 1) := by
  intro d hd hresult havailable
  by_cases hsame : d.block = here.block ∧ d.position = here.position
  · have heq : d = here := by
      have hget := mem_sites.mp hd
      rw [hsame.1, hsame.2, mem_sites.mp hhere] at hget
      rcases d with ⟨_, _, _⟩
      rcases here with ⟨_, _, _⟩
      rcases hsame with ⟨rfl, rfl⟩
      cases hget
      rfl
    subst heq
    exact hp.define hhere hphi hresult hr h hwrites
  · have hbefore : Available f d here.block here.position := by
      refine ⟨havailable.dominates, ?_⟩
      intro hblock
      have hlt := havailable.before hblock
      have hne : d.position ≠ here.position := fun heq => hsame ⟨hblock, heq⟩
      omega
    refine hp.frame hhere hd hresult (hbefore.dominates.reached hr) ?_ hwrites
      (h d hd hresult hbefore)
    intro hsettles
    exact not_available_self here
      (hbefore.settles (fun _ => phis_length_le hhere hphi) hhere hv hr hsettles)

/-- Taking an edge out of a block. -/
theorem Asserted.edge (hp : Preserved f P Writes Selects) (hv : Verified f) {a target : Nat}
    (hr : Reached (flow f) f.entry a) (hedge : flow f a target) (hselects : Selects a target e e')
    (h : Asserted f P e a (f.code a).length) :
    Asserted f P e' target (phis (f.code target)).length := by
  intro d hd hresult havailable
  rcases havailable.start hd with ⟨rfl, hphi⟩ | hbefore
  · exact hp.select hd hphi hr hedge h hselects
  · have hne : d.block ≠ target := fun heq => absurd (hbefore.before heq) (Nat.not_lt_zero _)
    refine hp.frameEdge hd hresult (havailable.dominates.reached (.next hr hedge)) ?_ hselects
      (h d hd hresult (hbefore.predecessor hd hedge))
    intro phi hphi hblock _ hsettles
    have hstart := hbefore.settles (fun heq => absurd heq hne) hphi hv (.next hr hedge) hsettles
    exact absurd (hstart.before hblock) (Nat.not_lt_zero _)

end Instructions

variable {W : Type} {s t : State W} {history after : History} {i : Instruction}
  {rest : List Instruction} {e e' : E}

/-- An assertion along an execution: where control is, and where the open hidden
loops resume. -/
structure Holding (f : Function) (P : Site → E → Prop) (s : State W) (history : History) (e : E) :
    Prop where
  here : ∀ k, At f s.block k s.code → Asserted f P e s.block k
  loops : ∀ setup ∈ f.sites, setup.instruction.opcode = .hardwareLoop →
    setup.instruction.targets = [] → setup.instruction.loopId ∈ history.opened →
    Reached (flow f) f.entry setup.block → Asserted f P e setup.block (setup.position + 1)

theorem holding_start (hv : Verified f) (world : W) (e : E) : Holding f P (start f world) {} e := by
  refine ⟨?_, fun _ _ _ _ hmem => absurd hmem List.not_mem_nil⟩
  intro k hat d hd _ havailable
  rw [hat.unique (at_start hv hv.entry_lt .start)] at havailable
  rcases havailable.start hd with ⟨hblock, hphi⟩ | hbefore
  · exact absurd hblock (hv.phi d hd hphi).not_entry
  · refine absurd (Avoids.start ?_) hbefore.dominates
    intro heq
    exact absurd (hbefore.before heq.symm) (Nat.not_lt_zero _)

/-- One step keeps an assertion. -/
theorem Holding.step (hp : Preserved f P Writes Selects) (hv : Verified f) (hl : LoopsMatched f)
    (hs : Scoped f scopes) (hi : Invariant f scopes s history) (hnext : Invariant f scopes t after)
    (hcode : s.code = i :: rest) (hpassage : Passage f s history i rest t after.opened)
    (hwrites : i.isTerminator = false → ∀ k, At f s.block k s.code → Writes ⟨s.block, k, i⟩ e e')
    (hselects : i.isTerminator = true → Selects s.block t.block e e')
    (h : Holding f P s history e) : Holding f P t after e' := by
  obtain ⟨k, hat, -, hopen⟩ := hi.position
  rcases hat.instruction hcode with ⟨hget, hrest⟩
  have hsite : (⟨s.block, k, i⟩ : Site) ∈ f.sites := mem_sites.mpr hget
  have hphi := hv.not_phi_of_mem_body (hat.mem_body hcode)
  have hhere := h.here k hat
  cases hpassage with
  | line hplain hblock hcode' hloops =>
      have hwrite := hwrites hplain k hat
      have hafter := hhere.next hp hv hsite hphi hat.reached hwrite
      refine ⟨?_, ?_⟩
      · intro l hat'
        rw [hblock, hcode'] at hat'
        rw [hat'.unique (hat.next hv hcode hplain), hblock]
        exact hafter
      · intro setup hsetup hop hhidden hloop hr
        rcases hloops _ hloop with hold | ⟨hopen', hid⟩
        · exact (h.loops setup hsetup hop hhidden hold hr).inLoop hp hv hl hs hsetup hop hold hr
            hsite hat.reached le_rfl hopen hwrite
        · rw [setup_unique hl hsetup hsite hop hopen' hid]
          exact hafter
  | edge hterm htarget hcode' hloops =>
      have hselect := hselects hterm
      obtain ⟨block, -, hscanned⟩ := hv.scannedAt hget
      have hresult := terminator_result hscanned hterm
      have hedge : flow f s.block t.block :=
        mem_successors.mpr ⟨i, List.mem_of_getElem? hget, hphi, htarget⟩
      have hend : Asserted f P e s.block (f.code s.block).length := by
        intro d hd hne havailable
        refine hhere d hd hne ⟨havailable.dominates, ?_⟩
        intro hsame
        have hlt := havailable.before hsame
        have hlast := (hat.terminator_iff hv hget).mp hterm
        have hdiff : d.position ≠ k := by
          intro heq
          have hget' := mem_sites.mp hd
          rw [hsame, heq, hget] at hget'
          rw [← Option.some.inj hget', hresult] at hne
          exact hne rfl
        omega
      have hstart := at_start hv (hscanned.targets _ htarget) (.next hat.reached hedge)
      refine ⟨?_, ?_⟩
      · intro l hat'
        rw [hcode'] at hat'
        rw [hat'.unique hstart]
        exact hend.edge hp hv hat.reached hedge hselect
      · intro setup hsetup hop hhidden hloop hr
        rcases hloops _ hloop with hold | ⟨hopen', hid⟩
        · obtain ⟨l, hat', -, hopened⟩ := hnext.position
          rw [hcode'] at hat'
          rw [hat'.unique hstart] at hopened
          have hscope := openAt_phis hopened
          intro d hd hne havailable
          refine hp.frameEdge hd hne (havailable.dominates.reached hr) ?_ hselect
            (h.loops setup hsetup hop hhidden hold hr d hd hne havailable)
          intro phi hphi' hblock _ hsettles
          have hle := phis_length_le hsetup (by rw [hop]; decide)
          rw [← hblock] at hscope
          exact not_available_in_loop hl hs hsetup hop (by rw [hblock]; exact hstart.reached) hr
            (Nat.zero_le _) hscope hloop (havailable.settles (fun _ => by omega) hphi' hv hr hsettles)
        · rw [setup_unique hl hsetup hsite hop hopen' hid] at hhidden
          have hnone : i.targets = [] := hhidden
          rw [hnone] at htarget
          cases htarget
  | again hplain setup hsetup hop hhidden hloop hblock hcode' hopened =>
      have hkeep : ∀ other ∈ f.sites, other.instruction.opcode = .hardwareLoop →
          other.instruction.targets = [] → other.instruction.loopId ∈ history.opened →
          Reached (flow f) f.entry other.block →
          Asserted f P e' other.block (other.position + 1) :=
        fun other hother hop' hhidden' hloop' hr =>
          (h.loops other hother hop' hhidden' hloop' hr).inLoop hp hv hl hs hother hop' hloop' hr
            hsite hat.reached le_rfl hopen (hwrites hplain k hat)
      refine ⟨?_, ?_⟩
      · intro l hat'
        rw [hcode', hblock] at hat'
        have hl' : l = setup.position + 1 := by
          have hlength := congrArg List.length hat'.code
          rw [List.length_drop, List.length_drop] at hlength
          have hinside := hat'.inside
          omega
        rw [hl', hblock]
        exact hkeep setup hsetup hop hhidden hloop hat'.reached
      · intro other hother hop' hhidden' hloop' hr
        rw [hopened] at hloop'
        exact hkeep other hother hop' hhidden' hloop' hr

end Assertions

/-! ## Assertions about values -/

section Values

variable {W : Type} {perform : Perform W} {f : Function} {scopes : Nat → List Nat}
  {P : Site → (Nat → Slot) → Prop}

/-- What executing a site does to the values. -/
def Computes (perform : Perform W) (here : Site) (env env' : Nat → Slot) : Prop :=
  ∃ s u : State W, s.env = env ∧ u.env = env' ∧ execute perform here.instruction s = .ok u

/-- What an edge does to the values. -/
def Chooses (f : Function) (source target : Nat) (env env' : Nat → Slot) : Prop :=
  env' = selectPhis (phis (f.code target)) source env

/-- A value that is fixed where a site is executed. -/
def Settled (f : Function) (v : Nat) (d : Site) : Prop :=
  ∃ c ∈ f.sites, c.instruction.result = v ∧ v ≠ 0 ∧ Settles f c d

/-- What is said about a site is about settled values. -/
def Local (f : Function) (P : Site → (Nat → Slot) → Prop) : Prop :=
  ∀ d ∈ f.sites, d.instruction.result ≠ 0 → Reached (flow f) f.entry d.block →
    ∀ env env' : Nat → Slot, (∀ v, Settled f v d → env v = env' v) → P d env → P d env'

theorem Settled.self {d : Site} (hd : d ∈ f.sites) (hresult : d.instruction.result ≠ 0) :
    Settled f d.instruction.result d :=
  ⟨d, hd, rfl, hresult, .inl rfl⟩

theorem Settled.operand (hv : Verified f) {d : Site} (hd : d ∈ f.sites)
    (hphi : d.instruction.opcode ≠ .phi) (hr : Reached (flow f) f.entry d.block) {v : Nat}
    (hmem : v ∈ d.instruction.operands) : Settled f v d := by
  obtain ⟨c, -, hc, hresult, hne, havailable⟩ := available_operand hv hd hphi hr hmem
  exact ⟨c, hc, hresult, hne, .inr (.inl havailable)⟩

/-- Sites with one result are one. -/
theorem site_unique (hv : Verified f) {c d : Site} (hc : c ∈ f.sites) (hd : d ∈ f.sites)
    (hne : d.instruction.result ≠ 0) (heq : c.instruction.result = d.instruction.result) : c = d := by
  have hfirst := site_eq_some hv.single hc (by rw [heq]; exact hne)
  have hsecond := site_eq_some hv.single hd hne
  rw [heq, hsecond] at hfirst
  exact (Option.some.inj hfirst).symm

/-- The operands of a site are other values than its result. -/
theorem operand_ne_result (hv : Verified f) {d : Site} (hd : d ∈ f.sites) (hphi : d.instruction.opcode ≠ .phi)
    (hr : Reached (flow f) f.entry d.block) {v : Nat} (hmem : v ∈ d.instruction.operands)
    (hresult : d.instruction.result ≠ 0) : v ≠ d.instruction.result := by
  intro heq
  obtain ⟨c, -, hc, hcresult, -, havailable⟩ := available_operand hv hd hphi hr hmem
  rw [site_unique hv hc hd hresult (hcresult.trans heq)] at havailable
  exact not_available_self d havailable

theorem selectPhis_other {list : List Instruction} {source v : Nat} {env : Nat → Slot}
    (h : ∀ i ∈ list, i.result ≠ v) : selectPhis list source env v = env v := by
  unfold selectPhis
  have hnone : list.find? (fun i => i.result == v) = none := by
    rw [List.find?_eq_none]
    intro i hi
    simpa using h i hi
  rw [hnone]

theorem computes_other {here : Site} {env env' : Nat → Slot} (h : Computes perform here env env')
    {v : Nat} (hne : v ≠ here.instruction.result) : env' v = env v := by
  obtain ⟨s, u, rfl, rfl, hu⟩ := h
  exact execute_other hu hne

/-- Assigning values that are not settled keeps what is said. -/
theorem Local.frame (hlocal : Local f P) (hv : Verified f) {here d : Site} {env env' : Nat → Slot}
    (hhere : here ∈ f.sites) (hd : d ∈ f.sites) (hresult : d.instruction.result ≠ 0)
    (hr : Reached (flow f) f.entry d.block) (hsettles : ¬ Settles f here d)
    (hother : ∀ v, v ≠ here.instruction.result → env' v = env v) (h : P d env) : P d env' := by
  refine hlocal d hd hresult hr env env' ?_ h
  rintro v ⟨c, hc, rfl, hne, hc'⟩
  refine (hother _ fun heq => hsettles ?_).symm
  rwa [site_unique hv hhere hc hne heq.symm]

/-- The PHIs of a block assign nothing else. -/
theorem Local.frameEdge (hlocal : Local f P) (hv : Verified f) {source target : Nat} {d : Site}
    {env : Nat → Slot} (hd : d ∈ f.sites) (hresult : d.instruction.result ≠ 0)
    (hr : Reached (flow f) f.entry d.block)
    (hsettles : ∀ here ∈ f.sites, here.block = target → here.instruction.opcode = .phi →
      ¬ Settles f here d)
    (h : P d env) : P d (selectPhis (phis (f.code target)) source env) := by
  refine hlocal d hd hresult hr env _ ?_ h
  rintro v ⟨c, hc, rfl, hne, hc'⟩
  refine (selectPhis_other ?_).symm
  intro i hi heq
  have hphi : i.opcode = .phi := by simpa using List.mem_takeWhile_imp hi
  obtain ⟨here, hhere, hblock, rfl⟩ := mem_sites_of_mem_code ((List.takeWhile_prefix _).subset hi)
  refine hsettles here hhere hblock hphi ?_
  rwa [site_unique hv hhere hc hne heq]

/-- What every definition makes true of itself, of settled values. -/
theorem preserved_of_local (hv : Verified f) (hlocal : Local f P)
    (hdefine : ∀ here ∈ f.sites, here.instruction.opcode ≠ .phi → here.instruction.result ≠ 0 →
      Reached (flow f) f.entry here.block → ∀ s u : State W,
        Asserted f P s.env here.block here.position →
        execute perform here.instruction s = .ok u → P here u.env)
    (hselect : ∀ (source : Nat) (env : Nat → Slot), ∀ phi ∈ f.sites, phi.instruction.opcode = .phi →
      Reached (flow f) f.entry source → flow f source phi.block →
      Asserted f P env source (f.code source).length →
      P phi (selectPhis (phis (f.code phi.block)) source env)) :
    Preserved f P (Computes perform) (Chooses f) where
  frame hhere hd hresult hr hsettles hwrites h :=
    hlocal.frame hv hhere hd hresult hr hsettles (fun _ hne => computes_other hwrites hne) h
  define := by
    rintro here _ _ hhere hphi hresult hr hasserted ⟨s, u, rfl, rfl, hu⟩
    exact hdefine here hhere hphi hresult hr s u hasserted hu
  frameEdge := by
    rintro source target d env _ hd hresult hr hsettles rfl h
    exact hlocal.frameEdge hv hd hresult hr hsettles h
  select := by
    rintro source phi env _ hphi hop hr hedge hasserted rfl
    exact hselect source env phi hphi hop hr hedge hasserted

/-- An assertion about values holds along every execution. -/
theorem Execution.holding (hp : Preserved f P (Computes perform) (Chooses f)) (hv : Verified f)
    (hl : LoopsMatched f) (hs : Scoped f scopes) {world : W} {s : State W} {history : History}
    (h : Execution perform f world s history) : Holding f P s history s.env := by
  induction h with
  | start => exact holding_start hv world _
  | @next s t history i rest before hcode hstep ih =>
      have hi := before.invariant hv hl hs
      have hmove := step_moves hcode hstep
      refine ih.step hp hv hl hs hi (hi.move hv hl hs hcode hmove) hcode
        (hi.passage hv hl hs hcode hmove) ?_ ?_
      · intro hplain k _
        obtain ⟨u, hu, henv⟩ := step_env_line hcode hstep hplain
        exact ⟨s, u, rfl, henv.symm, hu⟩
      · intro hterm
        obtain ⟨k, hat, -, -⟩ := hi.position
        obtain ⟨block, -, hscanned⟩ := hv.scannedAt (hat.instruction hcode).1
        exact step_env_edge hcode hstep hterm (terminator_result hscanned hterm)

/-- What an assertion says about the value of a definition alone holds of every
value an execution has computed. -/
theorem Execution.values (hp : Preserved f P (Computes perform) (Chooses f)) (hv : Verified f)
    (hl : LoopsMatched f) (hs : Scoped f scopes) {Q : Site → Slot → Prop}
    (himp : ∀ d ∈ f.sites, d.instruction.result ≠ 0 → ∀ env, P d env → Q d (env d.instruction.result))
    {world : W} {s : State W} {history : History} (h : Execution perform f world s history) :
    ∀ d ∈ f.sites, d.instruction.result ≠ 0 → d.instruction.result ∈ history.defined →
      Q d (s.env d.instruction.result) := by
  induction h with
  | start => exact fun _ _ _ hmem => absurd hmem List.not_mem_nil
  | @next s t history i rest before hcode hstep ih =>
      intro d hd hresult hdefined
      have hi := before.invariant hv hl hs
      have hafter := (Execution.next before hcode hstep).holding hp hv hl hs
      have hinvariant := (Execution.next before hcode hstep).invariant hv hl hs
      obtain ⟨k, hat, -, -⟩ := hi.position
      obtain ⟨l, hat', -, -⟩ := hinvariant.position
      have hget := (hat.instruction hcode).1
      have hsite : (⟨s.block, k, i⟩ : Site) ∈ f.sites := mem_sites.mpr hget
      obtain ⟨block, -, hscanned⟩ := hv.scannedAt hget
      cases hterm : i.isTerminator with
      | false =>
          obtain ⟨u, hu, henv⟩ := step_env_line hcode hstep hterm
          rw [after_defined_plain hterm] at hdefined
          by_cases hhere : d.instruction.result = i.result
          · have hsame := site_unique hv hsite hd hresult hhere.symm
            subst hsame
            have hphi := hv.not_phi_of_mem_body (hat.mem_body hcode)
            exact himp _ hd hresult _ (hp.define hd hphi hresult hat.reached
              ((before.holding hp hv hl hs).here k hat) ⟨s, u, rfl, henv.symm, hu⟩)
          · rw [henv, execute_other hu hhere]
            exact ih d hd hresult ((List.mem_cons.mp hdefined).resolve_left hhere)
      | true =>
          have hzero := terminator_result hscanned hterm
          have henv := step_env_edge hcode hstep hterm hzero
          rw [after_defined_edge hterm] at hdefined
          by_cases hphi : ∃ phi ∈ phis (f.code t.block), phi.result = d.instruction.result
          · obtain ⟨phi, hmem, hsame⟩ := hphi
            have hop : phi.opcode = .phi := by simpa using List.mem_takeWhile_imp hmem
            obtain ⟨c, hc, hblock, rfl⟩ := mem_sites_of_mem_code ((List.takeWhile_prefix _).subset hmem)
            have hcd := site_unique hv hc hd hresult hsame
            subst hcd
            -- control is behind the PHIs of the block
            have hlt : c.position < l := by
              by_contra hge
              have hbehind := hat'.behind
              have hposition := mem_sites.mp hc
              rw [hblock, ← phis_append_body (f.code t.block),
                List.getElem?_append_right (by omega)] at hposition
              exact hv.not_phi_of_mem_body (List.mem_of_getElem? hposition) hop
            exact himp c hc hresult _ (hafter.here l hat' c hc hresult (available_of_lt hblock hlt))
          · rw [henv, selectPhis_other fun phi hmem hsame => hphi ⟨phi, hmem, hsame⟩]
            refine ih d hd hresult ?_
            rcases List.mem_append.mp hdefined with hmem | hmem
            · obtain ⟨phi, hphi', hsame⟩ := List.mem_map.mp hmem
              exact absurd ⟨phi, hphi', hsame⟩ hphi
            · exact (List.mem_cons.mp hmem).resolve_left (by rw [hzero]; exact hresult)

end Values

end Disco.IR
