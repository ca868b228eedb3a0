import Disco.Optimizer.Counted

/-! # Replacing loops preserves what a function does

The variables that lose their storage are the counters of the loops that are replaced.
Outside the headers of these loops no code names them, so that the rest of a function
does the same with and without them; the loops themselves do as many rounds as before.
-/

namespace Disco.Optimizer

open Frontend IR Library Computation

/-! ## Where the removed counters are -/

/-- The variables with storage of their own, around code with these names: none that is
in sight is among the names, and those declared in it count the loops that are replaced. -/
structure Confined (own : SymbolId → Bool) (scope after : Scope) (names : List SymbolId) (loops : List Replaced) : Prop where
  unseen : ∀ x ∈ names, own x = true → x ∉ scope.visible
  inside : ∀ x, own x = true → scope.next ≤ x → x < after.next → x ∈ loops.map Replaced.counter
  owned : ∀ loop ∈ loops, own loop.counter = true

namespace Confined

variable {own : SymbolId → Bool} {scope middle after inner : Scope} {names names' : List SymbolId} {loops first second : List Replaced}

theorem foreign_of_visible (h : Confined own scope after names loops) (hnames : names' ⊆ names) (hvisible : ∀ x ∈ names', x ∈ scope.visible) :
    Foreign own names' := by
  intro x hx
  rw [← Bool.not_eq_true]
  exact fun hown => h.unseen x (hnames hx) hown (hvisible x hx)

/-- Code without such loops does not see these variables. -/
theorem foreign_of_nil (h : Confined own scope after names []) (hbetween : ∀ x ∈ names, Between scope after x) : Foreign own names := by
  intro x hx
  rw [← Bool.not_eq_true]
  intro hown
  rcases hbetween x hx with hvisible | ⟨hle, hlt⟩
  · exact h.unseen x hx hown hvisible
  · exact absurd (h.inside x hown hle hlt) List.not_mem_nil

theorem leave (h : Confined own scope (scope.leave inner) names loops) : Confined own scope inner names loops :=
  ⟨h.unseen, h.inside, h.owned⟩

/-- The first of two pieces of code. -/
theorem left (h : Confined own scope after names (first ++ second)) (hnames : names' ⊆ names) (hle : middle.next ≤ after.next)
    (hsecond : ∀ loop ∈ second, middle.next ≤ loop.counter) : Confined own scope middle names' first where
  unseen x hx := h.unseen x (hnames hx)
  inside x hown hnext hlt := by
    have hmem := h.inside x hown hnext (hlt.trans_le hle)
    rw [List.map_append, List.mem_append] at hmem
    refine hmem.resolve_right fun hmem => ?_
    obtain ⟨loop, hloop, rfl⟩ := List.mem_map.mp hmem
    exact hlt.not_ge (hsecond loop hloop)
  owned loop hloop := h.owned loop (List.mem_append_left _ hloop)

/-- The second one, where the counters of the first are out of sight. -/
theorem right (h : Confined own scope after names (first ++ second)) (hnames : names' ⊆ names) (hmiddle : Extends scope middle)
    (hle : middle.next ≤ after.next) (hfirst : ∀ loop ∈ first, Gone scope middle loop.counter)
    (hsecond : ∀ loop ∈ second, middle.next ≤ loop.counter) : Confined own middle after names' second where
  unseen x hx hown hvisible := by
    rcases hmiddle.added x hvisible with hscope | ⟨hnext, hlt⟩
    · exact h.unseen x (hnames hx) hown hscope
    · have hmem := h.inside x hown hnext (hlt.trans_le hle)
      rw [List.map_append, List.mem_append] at hmem
      rcases hmem with hmem | hmem
      · obtain ⟨loop, hloop, rfl⟩ := List.mem_map.mp hmem
        exact (hfirst loop hloop).hidden hvisible
      · obtain ⟨loop, hloop, rfl⟩ := List.mem_map.mp hmem
        exact hlt.not_ge (hsecond loop hloop)
  inside x hown hnext hlt := by
    have hmem := h.inside x hown (hmiddle.next_le.trans hnext) hlt
    rw [List.map_append, List.mem_append] at hmem
    refine hmem.resolve_left fun hmem => ?_
    obtain ⟨loop, hloop, rfl⟩ := List.mem_map.mp hmem
    exact (hfirst loop hloop).lt_next.not_ge hnext
  owned loop hloop := h.owned loop (List.mem_append_right _ hloop)

/-- The body of a replaced loop, which does not use the counter. -/
theorem counted {loop : Replaced} {body : Stmt} (h : Confined own scope (scope.leave after) names (loop :: loops))
    (hdeclares : scopeAfter scope (.varDeclStmt loop.counted.declaration) = some inner) (hbody : scopeAfter inner body = some after)
    (hnames : body.mentions ⊆ names) (huses : statementUsesSymbol loop.counter body = false) :
    Confined own inner after body.mentions loops := by
  obtain ⟨hinner, hid, hnext, -⟩ := Extends.declare hdeclares
  have hlt : loop.counter < inner.next := by
    rw [Replaced.counter, hid, hnext]
    exact Nat.lt_succ_self _
  refine ⟨fun x hx hown hvisible => ?_, fun x hown hle hltx => ?_, fun other hother => h.owned other (List.mem_cons_of_mem _ hother)⟩
  · have hmentions : loop.counter ∉ body.mentions := by
      intro hmem
      rw [statementUses_of_mentions body hbody hlt hmem] at huses
      cases huses
    rcases hinner.added x hvisible with hscope | ⟨hge, hltx⟩
    · exact h.unseen x (hnames hx) hown hscope
    · rw [hnext] at hltx
      have heq : x = loop.counter := (Nat.le_antisymm (Nat.le_of_lt_succ hltx) hge).trans hid.symm
      exact hmentions (heq ▸ hx)
  · have hmem := h.inside x hown (hinner.next_le.trans hle) hltx
    rw [List.map_cons, List.mem_cons] at hmem
    exact hmem.resolve_left fun heq => hlt.not_ge (heq ▸ hle)

end Confined

/-! ## Labels -/

theorem isLabel_rewrite (target : TargetKind) (replace : Bool) (value : Int) (s : Stmt) :
    isLabel value (rewrite target replace s) = isLabel value s := by
  cases s with
  | forStmt isCached initializer condition increment body =>
      rw [rewrite]
      split <;> rfl
  | _ => rfl

theorem isDefault_rewrite (target : TargetKind) (replace : Bool) (s : Stmt) : isDefault (rewrite target replace s) = isDefault s := by
  cases s with
  | forStmt isCached initializer condition increment body =>
      rw [rewrite]
      split <;> rfl
  | _ => rfl

theorem optimizeAll_eq_map (target : TargetKind) (statements : List Stmt) :
    optimizeAll target statements = statements.map (rewrite target true) := by
  induction statements with
  | nil => rfl
  | cons s rest ih => rw [optimizeAll, ih, List.map_cons]

/-- The labels of a switch stay where they are. -/
theorem selectArm_optimizeAll (target : TargetKind) (value : Int) (body : List Stmt) :
    selectArm value (optimizeAll target body) = selectArm value body := by
  unfold selectArm
  rw [optimizeAll_eq_map, List.findIdx?_map, List.findIdx?_map]
  simp only [Function.comp_def, isLabel_rewrite, isDefault_rewrite]

/-! ## The simulation -/

section Simulation

variable {W : Type} {perform : Perform W} {own : SymbolId → Bool} {bound : Nat} {target : TargetKind} {locals : SymbolId → Option Ty}

theorem related_loopRound {isCached plot : Bool} {test : Expr} {body body' next : Exec W Unit} (htest : Foreign own test.mentions)
    (hbody : Related Alike body body') (hnext : Related Alike next next) :
    Related Alike (loopRound perform own isCached plot test body next) (loopRound perform own isCached plot test body' next) := by
  unfold loopRound
  refine Related.bind ?_ fun _ => (silent_lift (silent_condition test htest)).1.bind fun more => ?_
  · unfold cacheHint
    split
    · exact (silent_emit _ _).1
    · exact .pure _
  · cases more with
    | true => exact (hbody.rescue onContinue).bind fun _ => hnext.bind fun _ => .pure _
    | false => exact .pure _

mutual

/-- A statement does the same before and after its loops are replaced. -/
theorem related_exec (hbound : 0x10000 ≤ bound) (plot replace : Bool) {scope after : Scope} (s : Stmt) (h : scopeAfter scope s = some after)
    (hfresh : ∀ x ∈ scope.visible, x < scope.next) (hnoted : s.Noted locals)
    (hown : Confined own scope after s.mentions (replaced target replace s)) :
    Related Alike (exec perform own bound plot s) (exec perform own bound plot (rewrite target replace s)) := by
  match s with
  | .blockStmt statements =>
      rw [scopeAfter, Option.map_eq_some_iff] at h
      obtain ⟨inner, hinner, rfl⟩ := h
      rw [exec, rewrite, exec]
      exact related_execFrom hbound plot 0 statements hinner hfresh hnoted hown.leave
  | .ifStmt test thenBranch elseBranch =>
      rw [scopeAfter] at h
      simp only [Option.bind_eq_bind, Option.bind_eq_some_iff] at h
      obtain ⟨checked, hcheck, middle, hthen, helse⟩ := h
      obtain ⟨rfl, htest⟩ := Extends.check hcheck
      have hmiddle := extends_of_scopeAfter thenBranch hthen
      have hle := (extends_of_scopeAfter elseBranch helse).next_le
      have hfirst : ∀ loop ∈ replaced target true thenBranch, Gone checked middle loop.counter := replaced_gone true thenBranch hthen hfresh
      have hsecond : ∀ loop ∈ replaced target true elseBranch, middle.next ≤ loop.counter :=
        fun loop hloop => (replaced_gone true elseBranch helse (hmiddle.fresh hfresh) loop hloop).next_le
      rw [exec, rewrite, exec]
      have hbranches : thenBranch.mentions ++ elseBranch.mentions ⊆ (Stmt.ifStmt test thenBranch elseBranch).mentions := List.subset_append_right _ _
      have hthenNames := List.Subset.trans (List.subset_append_left thenBranch.mentions elseBranch.mentions) hbranches
      have helseNames := List.Subset.trans (List.subset_append_right thenBranch.mentions elseBranch.mentions) hbranches
      refine (silent_lift (silent_condition test (hown.foreign_of_visible (List.subset_append_left _ _) htest))).1.bind fun holds => ?_
      cases holds with
      | true => exact related_exec hbound plot true thenBranch hthen hfresh hnoted.2.1 (hown.left hthenNames hle hsecond)
      | false =>
          exact related_exec hbound plot true elseBranch helse (hmiddle.fresh hfresh) hnoted.2.2
            (hown.right helseNames hmiddle hle hfirst hsecond)
  | .hardwareLoopStmt count body =>
      rw [scopeAfter, Option.map_eq_some_iff] at h
      obtain ⟨inner, hinner, rfl⟩ := h
      rw [exec, rewrite, exec]
      exact (silent_lift (silent_evalLiteral count)).1.bind fun n =>
        (related_exec hbound plot false body hinner hfresh hnoted.2 hown.leave).times _
  | .whileStmt isCached test body =>
      rw [scopeAfter] at h
      simp only [Option.bind_eq_bind, Option.bind_eq_some_iff] at h
      obtain ⟨checked, hcheck, hbody⟩ := h
      obtain ⟨rfl, htest⟩ := Extends.check hcheck
      rw [exec, rewrite, exec]
      refine ((related_loopRound (hown.foreign_of_visible (List.subset_append_left _ _) htest) ?_ (.pure _)).rounds _ _).rescue _
      exact related_exec hbound plot true body hbody hfresh hnoted.2 ⟨fun x hx => hown.unseen x (List.mem_append_right _ hx), hown.inside, hown.owned⟩
  | .forStmt isCached initializer test increment body =>
      rw [scopeAfter] at h
      simp only [Option.bind_eq_bind, Option.bind_eq_some_iff, Option.pure_def, Option.some.injEq] at h
      obtain ⟨inner, hinit, checked, hcheck, middle, hbody, behind, hlast, rfl⟩ := h
      obtain ⟨rfl, htest⟩ := Extends.check hcheck
      obtain ⟨rfl, hincrement⟩ := Extends.check hlast
      have hinner := extends_of_scopeAfter initializer hinit
      have hlater := extends_of_scopeAfter body hbody
      have hgone : ∀ loop ∈ replaced target true body, Gone checked behind loop.counter := replaced_gone true body hbody (hinner.fresh hfresh)
      have htail : test.mentions ++ (body.mentions ++ increment.mentions) ⊆ (Stmt.forStmt isCached initializer test increment body).mentions :=
        List.subset_append_right _ _
      have hloop := List.Subset.trans (List.subset_append_right test.mentions (body.mentions ++ increment.mentions)) htail
      have hbodyNames := List.Subset.trans (List.subset_append_left body.mentions increment.mentions) hloop
      rw [replaced] at hown
      rw [rewrite]
      split at hown
      · next counted hcounted =>
          obtain ⟨rfl, hheader, huses, hbreak, hreturn⟩ := recognizeIf_eq_some hcounted
          have hplain := hheader.plain hnoted.1 hnoted.2.1 hnoted.2.2.1
          have hself : own counted.declaration.symbolId = true := hown.owned _ List.mem_cons_self
          have hconfined := hown.counted (by rw [hheader.declares] at hinit; exact hinit) hbody hbodyNames huses
          have hforeign : Foreign own body.mentions := by
            rw [replaced_of_containsBreak true body hbreak] at hconfined
            exact hconfined.foreign_of_nil (mentions_between body hbody)
          have hround := related_exec hbound plot true body hbody (hinner.fresh hfresh) hnoted.2.2.2 hconfined
          intro s t hst
          rw [hplain.hardware_times hheader]
          obtain ⟨note, difference, pointerStride, rfl⟩ := hheader.steps
          rw [exec]
          exact hplain.loop_times hheader hnoted.2.1 hnoted.2.2.1 hself (halts_exec plot body hbreak hreturn) (silent_exec plot body hforeign).2
            hbound hround s t hst
      · next hnone =>
          rw [exec, exec]
          -- in the order of the code: the counters are those of the body
          have hinside : Confined own scope behind (Stmt.forStmt isCached initializer test increment body).mentions ([] ++ replaced target true body) := hown.leave
          have houtside : Confined own scope behind (Stmt.forStmt isCached initializer test increment body).mentions (replaced target true body ++ []) := by
            rw [List.append_nil]
            exact hown.leave
          have hnext : ∀ loop ∈ replaced target true body, checked.next ≤ loop.counter := fun loop hloop => (hgone loop hloop).next_le
          have hfirst := (hinside.left (List.subset_append_left _ _) hlater.next_le hnext).foreign_of_nil (mentions_between initializer hinit)
          have hright := hinside.right (List.Subset.refl _) hinner hlater.next_le (fun _ hloop => absurd hloop List.not_mem_nil) hnext
          have hlast := houtside.right (List.Subset.refl _) (hinner.trans hlater) (Nat.le_refl _) (fun loop hloop => .earlier hinner (hgone loop hloop))
            (fun _ hloop => absurd hloop List.not_mem_nil)
          have htestForeign := hright.foreign_of_visible (List.Subset.trans (List.subset_append_left _ _) htail) htest
          have hincrementForeign := hlast.foreign_of_visible (List.Subset.trans (List.subset_append_right _ _) hloop) hincrement
          have hround := related_exec hbound plot true body hbody (hinner.fresh hfresh) hnoted.2.2.2
            ⟨fun x hx => hright.unseen x (hbodyNames hx), hright.inside, hright.owned⟩
          exact (silent_exec plot initializer hfirst).1.bind fun _ =>
            ((related_loopRound htestForeign hround (silent_next hincrementForeign).1).rounds _ _).rescue _
  | .plotBlockStmt body =>
      rw [exec, rewrite, exec]
      exact (silent_emit _ _).1.bind fun _ => (related_exec hbound true false body h hfresh hnoted hown).bind fun _ => (silent_emit _ _).1
  | .switchStmt selector body =>
      rw [scopeAfter] at h
      simp only [Option.bind_eq_bind, Option.bind_eq_some_iff] at h
      obtain ⟨checked, hcheck, hbody⟩ := h
      obtain ⟨rfl, hselector⟩ := Extends.check hcheck
      rw [exec, rewrite, exec]
      refine (silent_lift (silent_eval selector (hown.foreign_of_visible (List.subset_append_left _ _) hselector))).1.bind fun value => ?_
      rw [selectArm_optimizeAll]
      split
      · exact (related_execFrom hbound plot _ body hbody hfresh hnoted.2
          ⟨fun x hx => hown.unseen x (List.mem_append_right _ hx), hown.inside, hown.owned⟩).rescue _
      · exact .pure _
  | .returnStmt _ | .varDeclStmt _ | .expressionStmt _ | .setColorStmt _ | .absent | .breakStmt | .continueStmt | .fallthroughStmt
  | .functionDeclStmt _ _ | .plotStmt | .cmodeStmt _ | .rpixStmt | .caseStmt _ | .defaultStmt | .staticAssertStmt _ | .enumDeclStmt
  | .structDefStmt | .typeAliasDeclStmt | .bitmapDeclStmt | .useBitmapStmt | .constDataStmt _ =>
      exact (silent_exec plot _ (hown.foreign_of_nil (mentions_between _ h))).1

theorem related_execFrom (hbound : 0x10000 ≤ bound) (plot : Bool) (skipped : Nat) {scope after : Scope} (statements : List Stmt)
    (h : scopeAfterAll scope statements = some after) (hfresh : ∀ x ∈ scope.visible, x < scope.next) (hnoted : EachNoted locals statements)
    (hown : Confined own scope after (mentionsEach statements) (replacedAll target statements)) :
    Related Alike (execFrom perform own bound plot skipped statements) (execFrom perform own bound plot skipped (optimizeAll target statements)) := by
  match skipped, statements with
  | _, [] =>
      rw [optimizeAll, execFrom]
      exact .pure _
  | skipped, s :: rest =>
      rw [scopeAfterAll] at h
      simp only [Option.bind_eq_bind, Option.bind_eq_some_iff] at h
      obtain ⟨middle, hs, hrest⟩ := h
      have hmiddle := extends_of_scopeAfter s hs
      have hle := (extends_of_scopeAfterAll rest hrest).next_le
      have hfirst : ∀ loop ∈ replaced target true s, Gone scope middle loop.counter := replaced_gone true s hs hfresh
      have hsecond : ∀ loop ∈ replacedAll target rest, middle.next ≤ loop.counter :=
        fun loop hloop => (replacedAll_gone rest hrest (hmiddle.fresh hfresh) loop hloop).next_le
      have hlater := hown.right (List.subset_append_right _ _) hmiddle hle hfirst hsecond
      rw [optimizeAll]
      cases skipped with
      | zero =>
          rw [execFrom, execFrom]
          exact (related_exec hbound plot true s hs hfresh hnoted.1 (hown.left (List.subset_append_left _ _) hle hsecond)).bind fun _ =>
            related_execFrom hbound plot 0 rest hrest (hmiddle.fresh hfresh) hnoted.2 hlater
      | succ skipped =>
          rw [execFrom, execFrom]
          exact related_execFrom hbound plot skipped rest hrest (hmiddle.fresh hfresh) hnoted.2 hlater

end

end Simulation

/-! ## The loops that are replaced -/

/-- A replaced loop as the optimizer has found it. -/
structure Replaced.Found (locals : SymbolId → Option Ty) (loop : Replaced) : Prop where
  header : loop.counted.Header loop.initializer loop.condition loop.increment
  plain : loop.counted.Plain locals
  condition_noted : loop.condition.Noted locals
  increment_noted : loop.increment.Noted locals
  unused : statementUsesSymbol loop.counter loop.body = false
  unbroken : containsBreak loop.body = false
  unreturned : containsReturn loop.body = false
  unmentioned : loop.counter ∉ loop.body.mentions

section Found

variable {target : TargetKind} {locals : SymbolId → Option Ty}

mutual

theorem replaced_found (replace : Bool) {scope after : Scope} (s : Stmt) (h : scopeAfter scope s = some after) (hnoted : s.Noted locals) :
    ∀ loop ∈ replaced target replace s, loop.Found locals := by
  match s with
  | .blockStmt statements =>
      rw [scopeAfter, Option.map_eq_some_iff] at h
      obtain ⟨inner, hinner, -⟩ := h
      exact replacedAll_found statements hinner hnoted
  | .ifStmt condition thenBranch elseBranch =>
      rw [scopeAfter] at h
      simp only [Option.bind_eq_bind, Option.bind_eq_some_iff] at h
      obtain ⟨checked, -, middle, hthen, helse⟩ := h
      exact List.forall_mem_append.mpr ⟨replaced_found true thenBranch hthen hnoted.2.1, replaced_found true elseBranch helse hnoted.2.2⟩
  | .hardwareLoopStmt count body =>
      rw [scopeAfter, Option.map_eq_some_iff] at h
      obtain ⟨inner, hinner, -⟩ := h
      exact replaced_found false body hinner hnoted.2
  | .whileStmt isCached condition body =>
      rw [scopeAfter] at h
      simp only [Option.bind_eq_bind, Option.bind_eq_some_iff] at h
      obtain ⟨checked, -, hbody⟩ := h
      exact replaced_found true body hbody hnoted.2
  | .forStmt isCached initializer condition increment body =>
      rw [scopeAfter] at h
      simp only [Option.bind_eq_bind, Option.bind_eq_some_iff, Option.pure_def, Option.some.injEq] at h
      obtain ⟨inner, hinit, checked, hcheck, behind, hbody, -⟩ := h
      obtain ⟨rfl, -⟩ := Extends.check hcheck
      have hin := replaced_found true body hbody hnoted.2.2.2
      rw [replaced]
      split
      · next counted hcounted =>
          obtain ⟨-, hheader, huses, hbreak, hreturn⟩ := recognizeIf_eq_some hcounted
          rw [hheader.declares, scopeAfter] at hinit
          obtain ⟨-, hid, hnext, -⟩ := Extends.declare hinit
          have hlt : counted.declaration.symbolId < checked.next := by
            rw [hid, hnext]
            exact Nat.lt_succ_self _
          have hmentions : counted.declaration.symbolId ∉ body.mentions := by
            intro hmem
            rw [statementUses_of_mentions body hbody hlt hmem] at huses
            cases huses
          exact List.forall_mem_cons.mpr ⟨⟨hheader, hheader.plain hnoted.1 hnoted.2.1 hnoted.2.2.1, hnoted.2.1, hnoted.2.2.1, huses, hbreak,
            hreturn, hmentions⟩, hin⟩
      · exact hin
  | .plotBlockStmt body => exact replaced_found false body h hnoted
  | .switchStmt condition body =>
      rw [scopeAfter] at h
      simp only [Option.bind_eq_bind, Option.bind_eq_some_iff] at h
      obtain ⟨checked, -, hbody⟩ := h
      exact replacedAll_found body hbody hnoted.2
  | .absent | .breakStmt | .continueStmt | .fallthroughStmt | .functionDeclStmt _ _ | .plotStmt | .cmodeStmt _ | .rpixStmt
  | .caseStmt _ | .defaultStmt | .staticAssertStmt _ | .enumDeclStmt | .structDefStmt | .typeAliasDeclStmt | .bitmapDeclStmt
  | .useBitmapStmt | .constDataStmt _ | .returnStmt _ | .varDeclStmt _ | .expressionStmt _ | .setColorStmt _ =>
      exact fun loop hloop => absurd hloop List.not_mem_nil

theorem replacedAll_found {scope after : Scope} (statements : List Stmt) (h : scopeAfterAll scope statements = some after)
    (hnoted : EachNoted locals statements) : ∀ loop ∈ replacedAll target statements, loop.Found locals := by
  match statements with
  | [] => exact fun loop hloop => absurd hloop List.not_mem_nil
  | s :: rest =>
      rw [scopeAfterAll] at h
      simp only [Option.bind_eq_bind, Option.bind_eq_some_iff] at h
      obtain ⟨middle, hs, hrest⟩ := h
      exact List.forall_mem_append.mpr ⟨replaced_found true s hs hnoted.1, replacedAll_found rest hrest hnoted.2⟩

end

/-- Only the counter of one loop has storage of its own. -/
def Replaced.owns (loop : Replaced) (x : SymbolId) : Bool := x == loop.counter

/-- A replaced loop does what its body does, as often as it counts. -/
theorem Replaced.Found.times {loop : Replaced} (h : loop.Found locals) {W : Type} (perform : Perform W) (plot : Bool) {bound : Nat}
    (hbound : 0x10000 ≤ bound) :
    Related Alike (exec perform loop.owns bound plot loop.statement)
      (Computation.times (exec perform loop.owns bound plot loop.body) loop.counted.iterations.toNat) := by
  have hforeign : Foreign loop.owns loop.body.mentions := by
    intro x hx
    rw [Replaced.owns, beq_eq_false_iff_ne]
    rintro rfl
    exact h.unmentioned hx
  have hsilent : Silent (exec perform loop.owns bound plot loop.body) := silent_exec plot loop.body hforeign
  obtain ⟨note, difference, pointerStride, hsteps⟩ := h.header.steps
  rw [Replaced.statement, exec, if_neg (by rw [hsteps]; simp [Expr.isAbsent])]
  have hself : loop.owns loop.counted.declaration.symbolId = true := beq_self_eq_true _
  exact h.plain.loop_times h.header h.condition_noted h.increment_noted hself
    (halts_exec plot loop.body h.unbroken h.unreturned) hsilent.2 hbound hsilent.1

end Found

/-! ## Function bodies -/

/-- The counters that a function body loses. -/
def counters (target : TargetKind) (body : List Stmt) (x : SymbolId) : Bool := decide (x ∈ (replacedAll target body).map Replaced.counter)

theorem Analyzed.confined {locals : SymbolId → Option Ty} {scope after : Scope} {body : List Stmt} (h : Analyzed locals scope body)
    (hafter : scopeAfterAll scope body = some after) (target : TargetKind) :
    Confined (counters target body) scope after (mentionsEach body) (replacedAll target body) where
  unseen x _ hown hvisible := by
    obtain ⟨loop, hloop, rfl⟩ := List.mem_map.mp (of_decide_eq_true hown)
    exact (h.fresh _ hvisible).not_ge (replacedAll_gone body hafter h.fresh loop hloop).next_le
  inside x hown _ _ := of_decide_eq_true hown
  owned loop hloop := decide_eq_true (List.mem_map_of_mem hloop)

/-- In every function body that the analyzer has accepted, replacing loops by hardware
loops keeps the results, what is asked of the machine, and in which order; only the storage of
the counters is gone. Each of these loops has run its body as often as it counts, and
the counter is named neither in the body nor behind the loop. -/
theorem optimize_preserves {locals : SymbolId → Option Ty} {scope : Scope} {body : List Stmt} (h : Analyzed locals scope body)
    (target : TargetKind) (name : String) :
    ∃ body', optimize target (.functionDeclStmt name body) = .functionDeclStmt name body' ∧
      (∀ (W : Type) (perform : Perform W) (plot : Bool) (bound : Nat), 0x10000 ≤ bound →
        Related Alike (execFrom perform (counters target body) bound plot 0 body)
          (execFrom perform (counters target body) bound plot 0 body')) ∧
      ∀ loop ∈ replacedAll target body,
        (1 ≤ loop.counted.iterations ∧ loop.counted.iterations ≤ 0xffff) ∧
        (∀ (W : Type) (perform : Perform W) (plot : Bool) (bound : Nat), 0x10000 ≤ bound →
          Related Alike (exec perform loop.owns bound plot loop.statement)
            (Computation.times (exec perform loop.owns bound plot loop.body) loop.counted.iterations.toNat)) ∧
        loop.counter ∉ loop.body.mentions ∧ loop.body.disturbsLoop = false ∧
        ∀ after, scopeAfterAll scope body = some after → loop.counter ∉ after.visible := by
  obtain ⟨after, hafter⟩ := h.resolved
  refine ⟨optimizeAll target body, rfl, fun W perform plot bound hbound => ?_, fun loop hloop => ?_⟩
  · exact related_execFrom hbound plot 0 body hafter h.fresh h.noted (h.confined hafter target)
  · have hfound := replacedAll_found body hafter h.noted loop hloop
    refine ⟨⟨hfound.header.positive, hfound.header.bounded⟩, fun W perform plot bound hbound => hfound.times perform plot hbound,
      hfound.unmentioned, disturbsLoop_of_walks loop.body hfound.unused hfound.unbroken hfound.unreturned, fun behind hbehind => ?_⟩
    exact (replacedAll_gone body hbehind h.fresh loop hloop).hidden

/-- `for (word i = 3; i > 0; i = i - 1) plot;` -/
def plotThree : List Stmt :=
  let word : Ty := { base := .word, sizeInBytes := 2, isUnsigned := true, space := .ram }
  let named : VariableExpr := ⟨{ resultType := word }, "i", 1, false⟩
  let number (digit : String) : LiteralExpr := ⟨{ resultType := word, isConstant := true }, .integer, nameOf digit⟩
  [.forStmt false
    (.varDeclStmt { name := "i", type := word, symbolId := 1, initializer := .literalExpr (number "3") })
    (.binaryExpr { resultType := { base := .bool, sizeInBytes := 1 } } .greater (.variableExpr named) (.literalExpr (number "0")) 0)
    (.assignExpr { resultType := word } (.variableExpr named)
      (.binaryExpr { resultType := word } .minus (.variableExpr named) (.literalExpr (number "1")) 0))
    .plotStmt]

def plotThreeLocals (x : SymbolId) : Option Ty :=
  if x = 1 then some { base := .word, sizeInBytes := 2, isUnsigned := true, space := .ram } else none

theorem plotThree_analyzed : Analyzed plotThreeLocals ⟨[], 1⟩ plotThree where
  noted := by
    simp [plotThree, EachNoted, Stmt.Noted, VarDeclStmt.Noted, Expr.Noted, AllNoted, VariableNoted, BinaryNoted, InitializerNoted,
      LiteralExpr.WellFormed, plotThreeLocals, isComparison, Expr.resultType, Expr.note]
    exact ⟨rfl, 3, by decide, by decide⟩
  resolved := ⟨_, rfl⟩
  fresh := by simp

theorem optimize_preserves_plotThree :
    (replacedAll .gsu plotThree).map (fun loop => loop.counted.iterations) = [3] ∧
      ∃ body', optimize .gsu (.functionDeclStmt "main" plotThree) = .functionDeclStmt "main" body' ∧
        Related Alike (execFrom (fun _ _ world => some (0, world) : Perform Unit) (counters .gsu plotThree) 0x10000 false 0 plotThree)
          (execFrom (fun _ _ world => some (0, world) : Perform Unit) (counters .gsu plotThree) 0x10000 false 0 body') := by
  obtain ⟨body', hbody, hrun, -⟩ := optimize_preserves plotThree_analyzed .gsu "main"
  exact ⟨rfl, body', hbody, hrun Unit _ false 0x10000 (Nat.le_refl _)⟩

end Disco.Optimizer
