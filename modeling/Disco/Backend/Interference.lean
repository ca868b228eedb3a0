import Disco.Backend.LinearScan

/-! # What the backward walks find

The allocator goes back through every block three times: for calls, for the
interference graph and for spare registers. Each walk carries the values live
after the instruction it looks at; here they are tied to liveness at points.
-/

namespace Disco.Backend.LinearScan

open IR Library ControlFlow Verifier

/-! ## Walks -/

/-- Each entry of a backward walk with the values live after it. -/
def annotate : List (Instruction × Nat) → Finset Nat → List ((Instruction × Nat) × Finset Nat)
  | [], _ => []
  | entry :: rest, live => (entry, live) :: annotate rest (transfer entry.1 live)

theorem annotate_append (left right : List (Instruction × Nat)) (live : Finset Nat) :
    annotate (left ++ right) live =
      annotate left live ++ annotate right (left.foldl (fun live entry => transfer entry.1 live) live) := by
  induction left generalizing live with
  | nil => rfl
  | cons entry rest ih =>
      rw [List.cons_append, annotate, ih]
      rfl

theorem foldl_reverse_transfer (list : List (Instruction × Nat)) (out : Finset Nat) :
    list.reverse.foldl (fun live entry => transfer entry.1 live) out =
      liveBefore (list.map Prod.fst) out := by
  rw [List.foldl_reverse]
  unfold liveBefore
  rw [List.foldr_map]

/-- A backward walk sees each entry with what is live before the entries after it. -/
theorem mem_annotate_reverse {list : List (Instruction × Nat)} {out live : Finset Nat}
    {entry : Instruction × Nat} : (entry, live) ∈ annotate list.reverse out ↔
      ∃ left right, list = left ++ entry :: right ∧ live = liveBefore (right.map Prod.fst) out := by
  induction list with
  | nil => simp [annotate]
  | cons first rest ih =>
      rw [List.reverse_cons, annotate_append, List.mem_append, ih, foldl_reverse_transfer]
      simp only [annotate, List.mem_singleton, Prod.mk.injEq]
      constructor
      · rintro (⟨left, right, rfl, rfl⟩ | ⟨rfl, rfl⟩)
        · exact ⟨first :: left, right, rfl, rfl⟩
        · exact ⟨[], rest, rfl, rfl⟩
      · rintro ⟨left, right, hsplit, rfl⟩
        cases left with
        | nil =>
            cases hsplit
            exact .inr ⟨rfl, rfl⟩
        | cons head left =>
            cases hsplit
            exact .inl ⟨left, right, rfl, rfl⟩

/-- The values live after instruction `k` of a block, as the walks compute them. -/
def liveAfter (f : Function) (cfg : ControlFlow) (b k : Nat) : Finset Nat :=
  liveBefore ((f.code b).drop (k + 1)) (cfg.liveOut b)

theorem mem_annotate_placed {f : Function} {cfg : ControlFlow} {b : Nat} {live : Finset Nat}
    {entry : Instruction × Nat} :
    (entry, live) ∈ annotate (placed f b).reverse (cfg.liveOut b) ↔
      ∃ k, (f.code b)[k]? = some entry.1 ∧ entry.2 = blockStart f b + k ∧
        live = liveAfter f cfg b k := by
  have hfst : (placed f b).map Prod.fst = f.code b := List.zipIdx_map_fst _ _
  rw [mem_annotate_reverse]
  constructor
  · rintro ⟨left, right, hsplit, rfl⟩
    have hat : (placed f b)[left.length]? = some entry := by
      rw [hsplit]
      simp
    obtain ⟨i, position⟩ := entry
    unfold placed at hat
    rw [List.getElem?_zipIdx, Option.map_eq_some_iff] at hat
    obtain ⟨j, hj, hpair⟩ := hat
    cases hpair
    refine ⟨left.length, hj, rfl, ?_⟩
    have hright : right = (placed f b).drop (left.length + 1) := by
      rw [hsplit, List.drop_append]
      simp
    rw [hright, List.map_drop, hfst]
    rfl
  · rintro ⟨k, hk, hposition, rfl⟩
    obtain ⟨i, position⟩ := entry
    simp only at hk hposition
    have hlt := (List.getElem?_eq_some_iff.mp hk).1
    have hat : (placed f b)[k]? = some (i, position) := by
      unfold placed
      rw [List.getElem?_zipIdx, hk, hposition]
      rfl
    obtain ⟨hlen, hget⟩ := List.getElem?_eq_some_iff.mp hat
    refine ⟨(placed f b).take k, (placed f b).drop (k + 1), ?_, ?_⟩
    · rw [← hget, ← List.drop_eq_getElem_cons hlen, List.take_append_drop]
    · rw [List.map_drop, hfst]
      rfl

theorem mem_liveAfter {f : Function} (hf : Verified f) {cfg : ControlFlow}
    (hcfg : controlFlow f = .ok cfg) {b k v : Nat} {i : Instruction}
    (hi : (f.code b)[k]? = some i) : v ∈ liveAfter f cfg b k ↔ LiveAt f b (k + 1) v :=
  mem_liveBefore_iff hf hcfg (List.getElem?_eq_some_iff.mp hi).1

/-! ## Positions -/

theorem blockStart_succ {f : Function} {b : Nat} (hb : b < f.blocks.length) :
    blockStart f (b + 1) = blockStart f b + (f.code b).length := by
  unfold blockStart
  rw [List.take_add_one, List.getElem?_eq_getElem hb,
    code_eq_of_getElem? (List.getElem?_eq_getElem hb), List.map_append, List.sum_append]
  rfl

theorem blockStart_mono {f : Function} {a b : Nat} (h : a < b) (hb : b ≤ f.blocks.length) :
    blockStart f a + (f.code a).length ≤ blockStart f b := by
  induction b, h using Nat.le_induction with
  | base => exact (blockStart_succ (by omega)).ge
  | succ b hab ih =>
      rw [blockStart_succ (by omega)]
      have := ih (by omega)
      omega

/-- A position belongs to one instruction of one block. -/
theorem position_injective {f : Function} {a b k l : Nat} {i j : Instruction}
    (hi : (f.code a)[k]? = some i) (hj : (f.code b)[l]? = some j)
    (h : blockStart f a + k = blockStart f b + l) : a = b ∧ k = l := by
  have hk := (List.getElem?_eq_some_iff.mp hi).1
  have hl := (List.getElem?_eq_some_iff.mp hj).1
  have ha := lt_of_mem_code (List.mem_of_getElem? hi)
  have hb := lt_of_mem_code (List.mem_of_getElem? hj)
  rcases Nat.lt_trichotomy a b with hlt | heq | hlt
  · have := blockStart_mono hlt hb.le
    omega
  · subst heq
    omega
  · have := blockStart_mono hlt ha.le
    omega

/-! ## Located values -/

theorem le_foldr_max {list : List Nat} {v : Nat} (h : v ∈ list) : v ≤ list.foldr max 0 := by
  induction list with
  | nil => cases h
  | cons a rest ih =>
      rw [List.foldr_cons]
      rcases List.mem_cons.mp h with rfl | h
      · exact le_max_left _ _
      · exact (ih h).trans (le_max_right _ _)

theorem mem_locatedValues {f : Function} {v : Nat} :
    v ∈ locatedValues f ↔ v ≠ 0 ∧ ∃ i ∈ f.instructions, i.result = v := by
  unfold locatedValues
  rw [List.mem_filter, List.mem_range, decide_eq_true_eq, and_iff_right_iff_imp]
  rintro ⟨-, i, hi, rfl⟩
  exact Nat.lt_succ_of_le (le_foldr_max (List.mem_map_of_mem hi))

theorem sites_map_instruction (f : Function) : f.sites.map Site.instruction = f.instructions := by
  have hblock : ∀ block index, (Function.blockSites block index).map Site.instruction =
      block.instructions := by
    intro block index
    unfold Function.blockSites
    rw [List.map_map]
    exact List.zipIdx_map_fst 0 block.instructions
  unfold Function.sites Function.instructions
  rw [List.map_flatMap]
  simp only [hblock]
  rw [← List.flatMap_map, List.zipIdx_map_fst]

theorem find?_zipIdx {α : Type} (p : α → Bool) (list : List α) (n : Nat) :
    ((list.zipIdx n).find? fun entry => p entry.1).map Prod.fst = list.find? p := by
  induction list generalizing n with
  | nil => rfl
  | cons a rest ih =>
      rw [List.zipIdx_cons, List.find?_cons, List.find?_cons]
      cases p a with
      | true => rfl
      | false => exact ih (n + 1)

/-- What a value's definition says about keeping it. -/
def Rematerializable (f : Function) (v : Nat) : Prop :=
  ∃ i, f.definition v = some i ∧ isRematerializable i = true

/-- A value that needs a register or a slot when it is used. -/
structure NearScalar (f : Function) (v : Nat) : Prop where
  near : CostModel.farValue f v = false
  keeps : ¬ Rematerializable f v

theorem initialLocations_rematerializable {f : Function} {v : Nat} (hv : v ≠ 0) :
    (initialLocations f v).map Location.rematerializable =
      (f.definition v).map isRematerializable := by
  unfold initialLocations Function.definition Function.site
  rw [if_neg hv, Option.map_map]
  have hleft := find?_zipIdx (fun i : Instruction => i.result == v) f.instructions 0
  have hright : (f.sites.find? fun site => site.instruction.result == v).map Site.instruction =
      f.instructions.find? fun i => i.result == v := by
    rw [← sites_map_instruction, List.find?_map]
    rfl
  rw [hright, ← hleft, Option.map_map]
  rfl

/-! ## Weights and calls -/

/-- A scan changes nothing but the interval of a location. -/
def Kept (locations locations' : Locations) : Prop :=
  ∀ v, (locations' v).map (fun place => (place.hasRegister, place.rematerializable, place.spillSlot)) =
    (locations v).map fun place => (place.hasRegister, place.rematerializable, place.spillSlot)

theorem Kept.refl (locations : Locations) : Kept locations locations := fun _ => rfl

theorem Kept.trans {a b c : Locations} (hab : Kept a b) (hbc : Kept b c) : Kept a c :=
  fun v => (hbc v).trans (hab v)

/-- Locations and weights of a later scan: intervals may widen, weights stay. -/
structure Later (scan scan' : Scan) : Prop where
  locations : Kept scan.locations scan'.locations
  weight : ∀ v, (scan.weight v).isSome → (scan'.weight v).isSome

theorem Later.refl (scan : Scan) : Later scan scan := ⟨Kept.refl _, fun _ h => h⟩

theorem Later.trans {a b c : Scan} (hab : Later a b) (hbc : Later b c) : Later a c :=
  ⟨hab.locations.trans hbc.locations, fun v h => hbc.weight v (hab.weight v h)⟩

theorem isSome_update {weight : Nat → Option Nat} {v w n : Nat} (h : (weight w).isSome) :
    (Function.update weight v (some n) w).isSome := by
  by_cases hw : w = v
  · subst hw
    rw [Function.update_self]
    rfl
  · rw [Function.update_of_ne hw]
    exact h

theorem later_touch (scan : Scan) (point v : Nat) : Later scan (touch scan point v) := by
  refine ⟨fun w => ?_, fun _ h => h⟩
  simp only [touch, modify]
  by_cases hw : w = v
  · subst hw
    rw [Function.update_self, Option.map_map]
    rfl
  · rw [Function.update_of_ne hw]

theorem later_touchUse (priority : Priority) (depth : Nat) (scan : Scan) (point v : Nat) :
    Later scan (touchUse priority depth scan point v) ∧
      ((touchUse priority depth scan point v).weight v).isSome := by
  refine ⟨⟨(later_touch scan point v).locations, fun w h => isSome_update h⟩, ?_⟩
  simp [touchUse]

theorem later_foldl {α : Type} {step : Scan → α → Scan} (hstep : ∀ scan a, Later scan (step scan a))
    (list : List α) (scan : Scan) : Later scan (list.foldl step scan) := by
  induction list generalizing scan with
  | nil => exact Later.refl scan
  | cons a rest ih => exact (hstep scan a).trans (ih _)

/-- A fold that gives every listed value a weight. -/
theorem weight_foldl {α : Type} {step : Scan → α → Scan} {value : α → Nat}
    (hstep : ∀ scan a, Later scan (step scan a) ∧ ((step scan a).weight (value a)).isSome)
    {list : List α} {a : α} (ha : a ∈ list) (scan : Scan) :
    ((list.foldl step scan).weight (value a)).isSome := by
  induction list generalizing scan with
  | nil => cases ha
  | cons first rest ih =>
      rw [List.foldl_cons]
      rcases List.mem_cons.mp ha with rfl | ha
      · exact (later_foldl (fun s b => (hstep s b).1) rest _).weight _ (hstep scan a).2
      · exact ih ha _

theorem later_touchOperands (f : Function) (cfg : ControlFlow) (priority : Priority) (b : Nat)
    (scan : Scan) (entry : Instruction × Nat) :
    Later scan (touchOperands f cfg priority b scan entry) := by
  unfold touchOperands
  split
  · exact later_foldl (fun s edge => (later_touchUse _ _ s _ _).1) _ _
  · exact later_foldl (fun s v => (later_touchUse _ _ s _ _).1) _ _

theorem weight_touchOperands {f : Function} (cfg : ControlFlow) (priority : Priority) (b : Nat)
    (scan : Scan) {entry : Instruction × Nat} {v : Nat} (hv : v ∈ entry.1.operands)
    (hlen : entry.1.opcode = .phi → entry.1.operands.length = entry.1.targets.length) :
    ((touchOperands f cfg priority b scan entry).weight v).isSome := by
  unfold touchOperands
  split
  · next hphi =>
      obtain ⟨n, hn⟩ := List.mem_iff_getElem?.mp hv
      have hlt : n < entry.1.targets.length := by
        rw [← hlen hphi]
        exact (List.getElem?_eq_some_iff.mp hn).1
      have hedge : (v, entry.1.targets[n]) ∈ entry.1.operands.zip entry.1.targets := by
        apply List.mem_of_getElem? (i := n)
        rw [List.getElem?_zip_eq_some]
        exact ⟨hn, List.getElem?_eq_getElem hlt⟩
      exact weight_foldl (fun s edge => later_touchUse priority (cfg.loopDepth edge.2) s
        (blockEnd f edge.2) edge.1) hedge _
  · exact weight_foldl (fun s w => later_touchUse priority (cfg.loopDepth b) s entry.2 w) hv _

theorem callLive_touch (scan : Scan) (point v : Nat) :
    (touch scan point v).callLive = scan.callLive := rfl

theorem callLive_foldl {α : Type} {step : Scan → α → Scan}
    (hstep : ∀ s a, (step s a).callLive = s.callLive) (list : List α) (s : Scan) :
    (list.foldl step s).callLive = s.callLive := by
  induction list generalizing s with
  | nil => rfl
  | cons a rest ih => exact (ih _).trans (hstep s a)

theorem callLive_touchOperands (f : Function) (cfg : ControlFlow) (priority : Priority) (b : Nat)
    (scan : Scan) (entry : Instruction × Nat) :
    (touchOperands f cfg priority b scan entry).callLive = scan.callLive := by
  unfold touchOperands
  split
  · apply callLive_foldl
    intro s edge
    rfl
  · apply callLive_foldl
    intro s v
    rfl

theorem weight_placed {f : Function} {cfg : ControlFlow} {priority : Priority} {b v : Nat}
    {list : List (Instruction × Nat)} {entry : Instruction × Nat} (hentry : entry ∈ list)
    (hstep : ∀ s, ((touchOperands f cfg priority b s entry).weight v).isSome) (scan : Scan) :
    ((list.foldl (touchOperands f cfg priority b) scan).weight v).isSome := by
  induction list generalizing scan with
  | nil => cases hentry
  | cons first rest ih =>
      rw [List.foldl_cons]
      rcases List.mem_cons.mp hentry with rfl | hentry
      · exact (later_foldl (later_touchOperands f cfg priority b) rest _).weight v (hstep scan)
      · exact ih hentry _

theorem Kept.rematerializable {a b : Locations} (h : Kept a b) (v : Nat) :
    (b v).any Location.rematerializable = (a v).any Location.rematerializable := by
  have hv := h v
  cases ha : a v <;> cases hb : b v <;> simp_all

theorem recordLives_eq_ok {f : Function} {cfg : ControlFlow} {priority : Priority}
    {b position : Nat} {list : List Nat} {scan scan' : Scan}
    (h : foldAll (recordLive f cfg priority b position) scan list = .ok scan') :
    Later scan scan' ∧ scan'.locations = scan.locations ∧
      ∀ p v, v ∈ scan'.callLive p ↔ v ∈ scan.callLive p ∨ (p = position ∧ v ∈ list ∧
        ((scan.locations v).any Location.rematerializable || CostModel.farValue f v) = false) := by
  induction list generalizing scan with
  | nil =>
      cases h
      exact ⟨Later.refl _, rfl, by simp⟩
  | cons a rest ih =>
      obtain ⟨next, hnext, h⟩ := bind_eq_ok.mp h
      obtain ⟨hlater, hsame, hlive⟩ := ih h
      unfold recordLive at hnext
      split at hnext
      · next hskip =>
          cases hnext
          refine ⟨hlater, hsame, fun p v => ?_⟩
          rw [hlive, List.mem_cons]
          by_cases hv : v = a
          · subst hv
            simp [hskip]
          · simp [hv]
      · next hkeep =>
          simp only [rejectIf_bind_eq_ok, pure_eq_ok] at hnext
          obtain ⟨-, rfl⟩ := hnext
          refine ⟨?_, hsame, fun p v => ?_⟩
          · refine Later.trans ?_ hlater
            refine ⟨Kept.refl _, fun w hw => ?_⟩
            simp only
            split
            · exact isSome_update hw
            · exact hw
          · rw [hlive]
            simp only [List.mem_cons]
            have hkeep' : ((scan.locations a).any Location.rematerializable ||
                CostModel.farValue f a) = false := by simpa using hkeep
            by_cases hp : p = position
            · subst hp
              rw [Function.update_self, Finset.mem_insert]
              by_cases hv : v = a
              · subst hv
                simp [hkeep']
              · simp [hv]
            · rw [Function.update_of_ne hp]
              simp [hp]

/-- What is live across an instruction: live after it, and not its result. -/
def across (i : Instruction) (live : Finset Nat) : Finset Nat :=
  if i.result = 0 then live else live.erase i.result

/-- The values that must survive the instruction at an entry. -/
def Keeps (f : Function) (entry : Instruction × Nat) (live : Finset Nat) (v : Nat) : Prop :=
  entry.1.opcode = .call ∧ v ∈ locatedValues f ∧ v ∈ across entry.1 live ∧
    ((initialLocations f v).any Location.rematerializable || CostModel.farValue f v) = false

theorem recordCall_eq_ok {f : Function} {cfg : ControlFlow} {priority : Priority} {b : Nat}
    {entry : Instruction × Nat} {live : Finset Nat} {scan scan' : Scan}
    (hkept : Kept (initialLocations f) scan.locations)
    (h : recordCall f cfg priority b entry (across entry.1 live) scan = .ok scan') :
    Later scan scan' ∧ ∀ p v, v ∈ scan'.callLive p ↔
      v ∈ scan.callLive p ∨ (p = entry.2 ∧ Keeps f entry live v) := by
  unfold recordCall at h
  split at h
  · next hcall =>
      obtain ⟨hlater, -, hlive⟩ := recordLives_eq_ok h
      refine ⟨hlater, fun p v => ?_⟩
      rw [hlive, List.mem_filter, decide_eq_true_eq, hkept.rematerializable]
      simp only [Keeps, hcall, true_and, and_assoc]
  · next hcall =>
      cases h
      refine ⟨Later.refl _, fun p v => ?_⟩
      simp [Keeps, hcall]

theorem callsBackward_eq_ok {f : Function} {cfg : ControlFlow} {priority : Priority} {b : Nat}
    {list : List (Instruction × Nat)} {live : Finset Nat} {scan scan' : Scan}
    (hkept : Kept (initialLocations f) scan.locations)
    (h : callsBackward f cfg priority b list live scan = .ok scan') :
    Later scan scan' ∧ ∀ p v, v ∈ scan'.callLive p ↔
      v ∈ scan.callLive p ∨ ∃ entry after, (entry, after) ∈ annotate list live ∧
        p = entry.2 ∧ Keeps f entry after v := by
  induction list generalizing live scan with
  | nil =>
      cases h
      exact ⟨Later.refl _, by simp [annotate]⟩
  | cons entry rest ih =>
      obtain ⟨next, hnext, h⟩ := bind_eq_ok.mp h
      obtain ⟨hlater, hcall⟩ := recordCall_eq_ok hkept hnext
      obtain ⟨hlater', hcalls⟩ := ih (hkept.trans hlater.locations) h
      refine ⟨hlater.trans hlater', fun p v => ?_⟩
      rw [hcalls, hcall, or_assoc]
      simp only [annotate, List.mem_cons, Prod.mk.injEq]
      constructor
      · rintro (hold | ⟨hp, hkeep⟩ | ⟨e, after, hmem, hp, hkeep⟩)
        · exact .inl hold
        · exact .inr ⟨entry, live, .inl ⟨rfl, rfl⟩, hp, hkeep⟩
        · exact .inr ⟨e, after, .inr hmem, hp, hkeep⟩
      · rintro (hold | ⟨e, after, ⟨rfl, rfl⟩ | hmem, hp, hkeep⟩)
        · exact .inl hold
        · exact .inr (.inl ⟨hp, hkeep⟩)
        · exact .inr (.inr ⟨e, after, hmem, hp, hkeep⟩)

/-- The calls of one block, found at their positions. -/
def KeptInBlock (f : Function) (cfg : ControlFlow) (b p v : Nat) : Prop :=
  ∃ k i, (f.code b)[k]? = some i ∧ p = blockStart f b + k ∧
    Keeps f (i, p) (liveAfter f cfg b k) v

theorem scanBlock_eq_ok {f : Function} (hf : Verified f) {cfg : ControlFlow} {priority : Priority}
    {b : Nat} {scan scan' : Scan} (hkept : Kept (initialLocations f) scan.locations)
    (h : scanBlock f cfg priority scan b = .ok scan') :
    Later scan scan' ∧ (∀ i ∈ f.code b, ∀ v ∈ i.operands, (scan'.weight v).isSome) ∧
      ∀ p v, v ∈ scan'.callLive p ↔ v ∈ scan.callLive p ∨ KeptInBlock f cfg b p v := by
  unfold scanBlock at h
  set used := (placed f b).foldl (touchOperands f cfg priority b) scan with hused
  set entered := ((locatedValues f).filter (· ∈ cfg.liveIn b)).foldl
    (fun scan v => touch scan (blockStart f b) v) used with hentered
  set left := ((locatedValues f).filter (· ∈ cfg.liveOut b)).foldl
    (fun scan v => touch scan (blockEnd f b) v) entered with hleft
  have hlater : Later scan used := later_foldl (later_touchOperands f cfg priority b) _ _
  have hlater' : Later used left :=
    (later_foldl (fun s v => later_touch s _ v) _ _).trans (later_foldl (fun s v => later_touch s _ v) _ _)
  have hcallLive : left.callLive = scan.callLive := by
    rw [hleft, callLive_foldl (fun s v => callLive_touch s (blockEnd f b) v), hentered,
      callLive_foldl (fun s v => callLive_touch s (blockStart f b) v), hused,
      callLive_foldl (callLive_touchOperands f cfg priority b)]
  obtain ⟨hlater'', hcalls⟩ := callsBackward_eq_ok
    ((hkept.trans hlater.locations).trans hlater'.locations) h
  refine ⟨(hlater.trans hlater').trans hlater'', ?_, ?_⟩
  · intro i hi v hv
    obtain ⟨k, hk⟩ := List.mem_iff_getElem?.mp hi
    have hentry : (i, blockStart f b + k) ∈ placed f b := by
      apply List.mem_of_getElem? (i := k)
      unfold placed
      rw [List.getElem?_zipIdx, hk]
      rfl
    refine hlater''.weight v (hlater'.weight v ?_)
    rw [hused]
    refine weight_placed hentry ?_ scan
    exact fun s => weight_touchOperands cfg priority b s hv
      fun hphi => (hf.phi_of_mem (hf.mem_phis hi hphi)).lengths
  · intro p v
    rw [hcalls, hcallLive]
    unfold KeptInBlock
    constructor
    · rintro (hold | ⟨⟨i, position⟩, after, hmem, hp, hkeep⟩)
      · exact .inl hold
      · obtain ⟨k, hk, hposition, rfl⟩ := mem_annotate_placed.mp hmem
        simp only at hk hposition hp
        refine .inr ⟨k, i, hk, hp.trans hposition, ?_⟩
        rw [hp]
        exact hkeep
    · rintro (hold | ⟨k, i, hk, hp, hkeep⟩)
      · exact .inl hold
      · exact .inr ⟨(i, p), _, mem_annotate_placed.mpr ⟨k, hk, hp, rfl⟩, rfl, hkeep⟩

theorem scanBlocks_eq_ok {f : Function} (hf : Verified f) {cfg : ControlFlow}
    {priority : Priority} {scan : Scan} (h : scanBlocks f cfg priority = .ok scan) :
    Kept (initialLocations f) scan.locations ∧ (∀ v, Used f v → (scan.weight v).isSome) ∧
      ∀ p v, v ∈ scan.callLive p ↔ ∃ b < f.blocks.length, KeptInBlock f cfg b p v := by
  have hall : Kept (initialLocations f) scan.locations ∧
      (∀ b ∈ List.range f.blocks.length, ∀ i ∈ f.code b, ∀ v ∈ i.operands,
        (scan.weight v).isSome) ∧
      ∀ p v, v ∈ scan.callLive p ↔ ∃ b ∈ List.range f.blocks.length, KeptInBlock f cfg b p v := by
    refine foldAll_seen (I := fun seen s => Kept (initialLocations f) s.locations ∧
      (∀ b ∈ seen, ∀ i ∈ f.code b, ∀ v ∈ i.operands, (s.weight v).isSome) ∧
      ∀ p v, v ∈ s.callLive p ↔ ∃ b ∈ seen, KeptInBlock f cfg b p v) ?_ ?_ h
    · intro seen s b s' ⟨hkept, hweight, hlive⟩ hn
      obtain ⟨hlater, hblock, hcalls⟩ := scanBlock_eq_ok hf hkept hn
      refine ⟨hkept.trans hlater.locations, ?_, ?_⟩
      · intro c hc i hi v hv
        rcases List.mem_append.mp hc with hc | hc
        · exact hlater.weight v (hweight c hc i hi v hv)
        · rw [List.mem_singleton.mp hc] at hi
          exact hblock i hi v hv
      · intro p v
        rw [hcalls, hlive]
        simp [or_and_right, exists_or]
    · exact ⟨Kept.refl _, by simp, by simp⟩
  obtain ⟨hkept, hweight, hlive⟩ := hall
  refine ⟨hkept, ?_, ?_⟩
  · rintro v ⟨i, hi, hv⟩
    obtain ⟨b, hb⟩ := mem_instructions.mp hi
    exact hweight b (List.mem_range.mpr (lt_of_mem_code hb)) i hb v hv
  · simpa using hlive

/-! Only values that are read get a weight. -/

def Weighted (f : Function) (scan : Scan) : Prop := ∀ v, (scan.weight v).isSome → Used f v

theorem Weighted.update {f : Function} {scan scan' : Scan} (h : Weighted f scan) {v n : Nat}
    (hv : Used f v) (hw : scan'.weight = Function.update scan.weight v (some n)) :
    Weighted f scan' := by
  intro w hsome
  rw [hw] at hsome
  by_cases hwv : w = v
  · exact hwv ▸ hv
  · rw [Function.update_of_ne hwv] at hsome
    exact h w hsome

theorem Weighted.touch {f : Function} {scan : Scan} (h : Weighted f scan) (point v : Nat) :
    Weighted f (LinearScan.touch scan point v) := h

theorem Weighted.foldl {α : Type} {f : Function} {step : Scan → α → Scan} {list : List α}
    (hstep : ∀ s, ∀ a ∈ list, Weighted f s → Weighted f (step s a)) {scan : Scan}
    (h : Weighted f scan) : Weighted f (list.foldl step scan) := by
  induction list generalizing scan with
  | nil => exact h
  | cons a rest ih =>
      refine ih (fun s b hb => hstep s b (List.mem_cons_of_mem _ hb)) ?_
      exact hstep scan a List.mem_cons_self h

theorem Weighted.touchOperands {f : Function} {cfg : ControlFlow} {priority : Priority} {b : Nat}
    {scan : Scan} {entry : Instruction × Nat} (h : Weighted f scan)
    (hentry : entry.1 ∈ f.instructions) :
    Weighted f (LinearScan.touchOperands f cfg priority b scan entry) := by
  unfold LinearScan.touchOperands
  split
  · refine Weighted.foldl (fun s edge hedge hs => ?_) h
    exact hs.update ⟨entry.1, hentry, (List.of_mem_zip hedge).1⟩ rfl
  · refine Weighted.foldl (fun s v hv hs => ?_) h
    exact hs.update ⟨entry.1, hentry, hv⟩ rfl

theorem Weighted.recordLives {f : Function} {cfg : ControlFlow} {priority : Priority}
    {b position : Nat} {list : List Nat} {scan scan' : Scan} (h : Weighted f scan)
    (hlist : ∀ v ∈ list, Used f v)
    (hr : foldAll (recordLive f cfg priority b position) scan list = .ok scan') :
    Weighted f scan' := by
  induction list generalizing scan with
  | nil =>
      cases hr
      exact h
  | cons v rest ih =>
      obtain ⟨next, hnext, hr⟩ := bind_eq_ok.mp hr
      refine ih ?_ (fun w hw => hlist w (List.mem_cons_of_mem _ hw)) hr
      unfold recordLive at hnext
      split at hnext
      · cases hnext
        exact h
      · simp only [rejectIf_bind_eq_ok, pure_eq_ok] at hnext
        obtain ⟨-, rfl⟩ := hnext
        by_cases hcost : priority.cost = true
        · exact h.update (hlist v List.mem_cons_self) (if_pos hcost)
        · intro w hw
          simp only [hcost] at hw
          exact h w hw

theorem Weighted.callsBackward {f : Function} {cfg : ControlFlow} {priority : Priority} {b : Nat}
    {list : List (Instruction × Nat)} {live : Finset Nat} {scan scan' : Scan} (h : Weighted f scan)
    (hlive : ∀ entry after, (entry, after) ∈ annotate list live → ∀ v ∈ after, Used f v)
    (hc : LinearScan.callsBackward f cfg priority b list live scan = .ok scan') :
    Weighted f scan' := by
  induction list generalizing live scan with
  | nil =>
      cases hc
      exact h
  | cons entry rest ih =>
      obtain ⟨next, hnext, hc⟩ := bind_eq_ok.mp hc
      refine ih ?_ (fun e after he => hlive e after (List.mem_cons_of_mem _ he)) hc
      unfold recordCall at hnext
      split at hnext
      · refine h.recordLives (fun v hv => ?_) hnext
        have hacross : v ∈ (if entry.1.result = 0 then live else live.erase entry.1.result) := by
          simpa using (List.mem_filter.mp hv).2
        refine hlive entry live List.mem_cons_self v ?_
        split at hacross
        · exact hacross
        · exact Finset.mem_of_mem_erase hacross
      · cases hnext
        exact h

theorem weighted_of_scanBlocks {f : Function} (hf : Verified f) {cfg : ControlFlow}
    (hcfg : controlFlow f = .ok cfg) {priority : Priority} {scan : Scan}
    (h : scanBlocks f cfg priority = .ok scan) : Weighted f scan := by
  refine foldAll_preserves (I := Weighted f) ?_ ?_ h
  · intro s b s' hs hn
    unfold scanBlock at hn
    refine Weighted.callsBackward ?_ ?_ hn
    · apply Weighted.foldl (fun s v _ hs => hs.touch _ v)
      apply Weighted.foldl (fun s v _ hs => hs.touch _ v)
      refine Weighted.foldl (fun s entry hentry hs => hs.touchOperands ?_) hs
      have hmem : entry.1 ∈ (placed f b).map Prod.fst := List.mem_map_of_mem hentry
      unfold placed at hmem
      rw [List.zipIdx_map_fst] at hmem
      exact mem_instructions.mpr ⟨b, hmem⟩
    · intro entry after hentry v hv
      obtain ⟨k, hk, -, rfl⟩ := mem_annotate_placed.mp hentry
      exact ((mem_liveAfter hf hcfg hk).mp hv).used
  · intro v hv
    cases hv

/-! ## Interference -/

/-- A simple graph on located values. -/
structure Graph.Simple (f : Function) (g : Graph) : Prop where
  symm : ∀ a b, b ∈ g.interference a → a ∈ g.interference b
  irrefl : ∀ a, a ∉ g.interference a
  located : ∀ a b, b ∈ g.interference a → b ∈ locatedValues f

theorem Graph.mem_join {edges : Nat → Finset Nat} {a b x y : Nat} (hab : a ≠ b) :
    y ∈ Graph.join edges a b x ↔ y ∈ edges x ∨ (x = a ∧ y = b) ∨ (x = b ∧ y = a) := by
  unfold Graph.join
  by_cases hxb : x = b
  · subst hxb
    rw [Function.update_self, Function.update_of_ne (Ne.symm hab), Finset.mem_insert]
    constructor
    · rintro (rfl | h)
      · exact .inr (.inr ⟨rfl, rfl⟩)
      · exact .inl h
    · rintro (h | ⟨rfl, -⟩ | ⟨-, rfl⟩)
      · exact .inr h
      · exact absurd rfl hab
      · exact .inl rfl
  · rw [Function.update_of_ne hxb]
    by_cases hxa : x = a
    · subst hxa
      rw [Function.update_self, Finset.mem_insert]
      constructor
      · rintro (rfl | h)
        · exact .inr (.inl ⟨rfl, rfl⟩)
        · exact .inl h
      · rintro (h | ⟨-, rfl⟩ | ⟨rfl, -⟩)
        · exact .inr h
        · exact .inl rfl
        · exact absurd rfl hxb
    · rw [Function.update_of_ne hxa]
      simp [hxa, hxb]

section Graph

variable {f : Function} {isEligible : Nat → Bool}

/-- What one conflict adds. -/
theorem conflict_eq_ok {a b : Nat} {g g' : Graph} (hg : g.Simple f) (ha : a ∈ locatedValues f)
    (hb : b ∈ locatedValues f) (h : conflict isEligible a g b = .ok g') :
    g'.Simple f ∧ (∀ x, g.interference x ⊆ g'.interference x) ∧
      (a ≠ b → isEligible a = true → isEligible b = true → b ∈ g'.interference a) := by
  unfold conflict at h
  split at h
  · next hskip =>
      cases h
      refine ⟨hg, fun x => Finset.Subset.refl _, fun hab hea heb => ?_⟩
      rcases hskip with h | h | h | h
      · exact absurd h hab
      · rw [hea] at h; cases h
      · rw [heb] at h; cases h
      · exact h
  · next hskip =>
      simp only [not_or] at hskip
      obtain ⟨hab, -⟩ := hskip
      simp only [rejectIf_bind_eq_ok, pure_eq_ok] at h
      obtain ⟨-, rfl⟩ := h
      refine ⟨⟨?_, ?_, ?_⟩, ?_, ?_⟩
      · intro x y hy
        rw [Graph.mem_join hab] at hy ⊢
        rcases hy with hy | ⟨rfl, rfl⟩ | ⟨rfl, rfl⟩
        · exact .inl (hg.symm x y hy)
        · exact .inr (.inr ⟨rfl, rfl⟩)
        · exact .inr (.inl ⟨rfl, rfl⟩)
      · intro x hx
        rw [Graph.mem_join hab] at hx
        rcases hx with hx | ⟨rfl, h⟩ | ⟨rfl, h⟩
        · exact hg.irrefl x hx
        · exact hab h
        · exact hab h.symm
      · intro x y hy
        rw [Graph.mem_join hab] at hy
        rcases hy with hy | ⟨-, rfl⟩ | ⟨-, rfl⟩
        · exact hg.located x y hy
        · exact hb
        · exact ha
      · intro x y hy
        rw [Graph.mem_join hab]
        exact .inl hy
      · intro _ _ _
        rw [Graph.mem_join hab]
        exact .inr (.inl ⟨rfl, rfl⟩)

theorem conflicts_eq_ok {i : Instruction} {live : Finset Nat} {g g' : Graph} (hg : g.Simple f)
    (hi : i ∈ f.instructions) (h : conflicts f isEligible i live g = .ok g') :
    g'.Simple f ∧ (∀ x, g.interference x ⊆ g'.interference x) ∧
      (i.result ≠ 0 → isEligible i.result = true → ∀ v ∈ live, v ∈ locatedValues f →
        v ≠ i.result → isEligible v = true → v ∈ g'.interference i.result) := by
  unfold conflicts at h
  split at h
  · next hres =>
      have hloc : i.result ∈ locatedValues f := mem_locatedValues.mpr ⟨hres.1, i, hi, rfl⟩
      generalize hlist : (locatedValues f).filter (· ∈ live) = list at h
      have hmem : ∀ v ∈ list, v ∈ locatedValues f := by
        intro v hv
        rw [← hlist] at hv
        exact List.mem_of_mem_filter hv
      have key : g'.Simple f ∧ (∀ x, g.interference x ⊆ g'.interference x) ∧
          ∀ v ∈ list, v ≠ i.result → isEligible v = true → v ∈ g'.interference i.result := by
        clear hlist
        induction list generalizing g with
        | nil =>
            cases h
            exact ⟨hg, fun _ => Finset.Subset.refl _, by simp⟩
        | cons v rest ih =>
            obtain ⟨next, hnext, h⟩ := bind_eq_ok.mp h
            obtain ⟨hsimple, hsub, hedge⟩ :=
              conflict_eq_ok hg hloc (hmem v List.mem_cons_self) hnext
            obtain ⟨hsimple', hsub', hall⟩ :=
              ih hsimple h fun w hw => hmem w (List.mem_cons_of_mem _ hw)
            refine ⟨hsimple', fun x => (hsub x).trans (hsub' x), ?_⟩
            intro w hw hne hew
            rcases List.mem_cons.mp hw with rfl | hw
            · exact hsub' _ (hedge (Ne.symm hne) hres.2 hew)
            · exact hall w hw hne hew
      obtain ⟨hsimple, hsub, hall⟩ := key
      refine ⟨hsimple, hsub, fun _ _ v hv hloc hne he => hall v ?_ hne he⟩
      rw [← hlist]
      exact List.mem_filter.mpr ⟨hloc, by simpa using hv⟩
  · next hres =>
      cases h
      refine ⟨hg, fun _ => Finset.Subset.refl _, fun hne he => ?_⟩
      exact absurd ⟨hne, he⟩ hres

variable {cfg : ControlFlow} {size : Bool}

/-- Preferences and affinities leave the interference alone. -/
theorem interference_preferencesOf (b : Nat) (i : Instruction) (g : Graph) :
    (preferencesOf cfg size isEligible b i g).interference = g.interference := by
  unfold preferencesOf
  split
  · unfold phiPreferences
    generalize i.operands.zip i.targets = edges
    induction edges generalizing g with
    | nil => rfl
    | cons edge rest ih =>
        rw [List.foldl_cons, ih]
        dsimp only
        split <;> rfl
  · unfold tiedPreferences
    split
    · rfl
    · split <;> rfl

theorem filter_transfer (i : Instruction) (live : Finset Nat) :
    (transfer i live).filter (fun v => isEligible v) =
      if i.opcode = .phi then
        if i.result = 0 then live.filter (fun v => isEligible v)
        else (live.filter (fun v => isEligible v)).erase i.result
      else
        (if i.result = 0 then live.filter (fun v => isEligible v)
          else (live.filter (fun v => isEligible v)).erase i.result) ∪
        (i.operands.filter fun v => isEligible v).toFinset := by
  ext v
  unfold transfer
  by_cases hres : i.result = 0
  · by_cases hphi : i.opcode = .phi
    · simp [hres, hphi]
    · simp [hres, hphi, or_and_right]
  · by_cases hphi : i.opcode = .phi
    · simp [hres, hphi, and_assoc]
    · simp [hres, hphi, or_and_right, and_assoc]

/-- Going back through code finds the conflicts of every definition in it. -/
theorem graphBackward_eq_ok {b : Nat} {list : List (Instruction × Nat)} {live : Finset Nat}
    {g g' : Graph} (hg : g.Simple f) (hlist : ∀ entry ∈ list, entry.1 ∈ f.instructions)
    (h : graphBackward f cfg size isEligible b (list.map Prod.fst)
      (live.filter fun v => isEligible v) g = .ok g') :
    g'.Simple f ∧ (∀ x, g.interference x ⊆ g'.interference x) ∧
      ∀ entry after, (entry, after) ∈ annotate list live → entry.1.result ≠ 0 →
        isEligible entry.1.result = true → ∀ v ∈ after, v ∈ locatedValues f →
          v ≠ entry.1.result → isEligible v = true → v ∈ g'.interference entry.1.result := by
  induction list generalizing live g with
  | nil =>
      cases h
      exact ⟨hg, fun _ => Finset.Subset.refl _, by simp [annotate]⟩
  | cons entry rest ih =>
      rw [List.map_cons, graphBackward] at h
      obtain ⟨next, hnext, h⟩ := bind_eq_ok.mp h
      obtain ⟨hsimple, hsub, hedges⟩ := conflicts_eq_ok hg (hlist entry List.mem_cons_self) hnext
      have hsame : (preferencesOf cfg size isEligible b entry.1 next).interference =
          next.interference := interference_preferencesOf b entry.1 next
      have hsimple' : (preferencesOf cfg size isEligible b entry.1 next).Simple f :=
        ⟨hsame ▸ hsimple.symm, hsame ▸ hsimple.irrefl, hsame ▸ hsimple.located⟩
      have hlive : (transfer entry.1 live).filter (fun v => isEligible v) = _ :=
        filter_transfer entry.1 live
      obtain ⟨hdone, hsub', hall⟩ := @ih (transfer entry.1 live) _ hsimple'
        (fun e he => hlist e (List.mem_cons_of_mem _ he)) (by
          rw [hlive]
          exact h)
      rw [hsame] at hsub'
      refine ⟨hdone, fun x => (hsub x).trans (hsub' x), ?_⟩
      intro e after hmem hne he v hv hloc hvne hev
      rw [annotate, List.mem_cons, Prod.mk.injEq] at hmem
      rcases hmem with ⟨rfl, rfl⟩ | hmem
      · exact hsub' _ (hedges hne he v (Finset.mem_filter.mpr ⟨hv, hev⟩) hloc hvne hev)
      · exact hall e after hmem hne he v hv hloc hvne hev

/-- Every definition conflicts with the eligible values live after it. -/
theorem buildGraph_eq_ok {g : Graph} (h : buildGraph f cfg size isEligible = .ok g) :
    g.Simple f ∧ ∀ b k i, (f.code b)[k]? = some i → i.result ≠ 0 →
      isEligible i.result = true → ∀ v ∈ liveAfter f cfg b k, v ∈ locatedValues f →
        v ≠ i.result → isEligible v = true → v ∈ g.interference i.result := by
  have hall : g.Simple f ∧ ∀ b ∈ List.range f.blocks.length, ∀ k i, (f.code b)[k]? = some i →
      i.result ≠ 0 → isEligible i.result = true → ∀ v ∈ liveAfter f cfg b k,
        v ∈ locatedValues f → v ≠ i.result → isEligible v = true →
          v ∈ g.interference i.result := by
    refine foldAll_seen (I := fun seen g => g.Simple f ∧ ∀ b ∈ seen, ∀ k i,
      (f.code b)[k]? = some i → i.result ≠ 0 → isEligible i.result = true →
        ∀ v ∈ liveAfter f cfg b k, v ∈ locatedValues f → v ≠ i.result → isEligible v = true →
          v ∈ g.interference i.result) ?_ ?_ h
    · intro seen g b g' ⟨hsimple, hseen⟩ hn
      have hplaced : (f.code b).reverse = ((placed f b).reverse).map Prod.fst := by
        rw [List.map_reverse]
        unfold placed
        rw [List.zipIdx_map_fst]
      unfold graphBlock at hn
      rw [hplaced] at hn
      have hin : ∀ entry ∈ (placed f b).reverse, entry.1 ∈ f.instructions := by
        intro entry hentry
        have hmem : entry.1 ∈ (placed f b).map Prod.fst :=
          List.mem_map_of_mem (List.mem_reverse.mp hentry)
        unfold placed at hmem
        rw [List.zipIdx_map_fst] at hmem
        exact mem_instructions.mpr ⟨b, hmem⟩
      obtain ⟨hdone, hsub, hedges⟩ := graphBackward_eq_ok hsimple hin hn
      refine ⟨hdone, ?_⟩
      intro c hc k i hi hne he v hv hloc hvne hev
      rcases List.mem_append.mp hc with hc | hc
      · exact hsub _ (hseen c hc k i hi hne he v hv hloc hvne hev)
      · rw [List.mem_singleton.mp hc] at hi hv
        exact hedges (i, blockStart f b + k) _ (mem_annotate_placed.mpr ⟨k, hi, rfl, rfl⟩) hne he v
          hv hloc hvne hev
    · refine ⟨⟨?_, ?_, ?_⟩, by simp⟩ <;> simp [Graph.empty]
  refine ⟨hall.1, fun b k i hi => ?_⟩
  exact hall.2 b (List.mem_range.mpr (lt_of_mem_code (List.mem_of_getElem? hi))) k i hi

end Graph

/-! ## Spare registers -/

section Spare

variable {f : Function} {cfg : ControlFlow} {locations : Locations} {allocatable : List Nat}

/-- No spare register belongs to a value that is busy at its position. -/
def SpareOk (f : Function) (cfg : ControlFlow) (locations : Locations)
    (registers : Nat → List Nat) : Prop :=
  ∀ b k i, (f.code b)[k]? = some i → ∀ reg ∈ registers (blockStart f b + k),
    ∀ v ∈ busyValues i (liveAfter f cfg b k), registerOf locations v ≠ some reg

theorem mem_busyValues {i : Instruction} {live : Finset Nat} {v : Nat} :
    v ∈ busyValues i live ↔ v ∈ live ∨ Reads i v ∨ Defines i v := by
  unfold busyValues Reads Defines
  by_cases hres : i.result = 0
  · by_cases hphi : i.opcode = .phi <;> simp [hres, hphi]
  · by_cases hphi : i.opcode = .phi <;> simp [hres, hphi, eq_comm, or_comm, or_assoc, or_left_comm]

theorem busy_erase {i : Instruction} (live : Finset Nat)
    (hown : i.opcode ≠ .phi → i.result ∉ i.operands) :
    (if i.result = 0 then busyValues i live else (busyValues i live).erase i.result) =
      transfer i live := by
  ext v
  rw [mem_transfer]
  by_cases hres : i.result = 0
  · have hdef : ¬ Defines i v := fun h => h.1 hres
    simp [hres, hdef, mem_busyValues]
  · rw [if_neg hres, Finset.mem_erase, mem_busyValues]
    constructor
    · rintro ⟨hv, hlive | hread | hdef⟩
      · exact .inl ⟨hlive, fun hdef => hv hdef.2.symm⟩
      · exact .inr hread
      · exact absurd hdef.2.symm hv
    · rintro (⟨hlive, hdef⟩ | hread)
      · exact ⟨fun hv => hdef ⟨hres, hv.symm⟩, .inl hlive⟩
      · refine ⟨?_, .inr (.inl hread)⟩
        rintro rfl
        exact hown hread.1 hread.2

theorem SpareOk.update {registers : Nat → List Nat} (h : SpareOk f cfg locations registers)
    {b k : Nat} {i : Instruction} (hi : (f.code b)[k]? = some i) {free : List Nat}
    (hfree : ∀ reg ∈ free, ∀ v ∈ busyValues i (liveAfter f cfg b k),
      registerOf locations v ≠ some reg) :
    SpareOk f cfg locations (Function.update registers (blockStart f b + k) free) := by
  intro c l j hj reg hreg
  by_cases hp : blockStart f c + l = blockStart f b + k
  · obtain ⟨rfl, rfl⟩ := position_injective hj hi hp
    rw [hi] at hj
    cases hj
    rw [Function.update_self] at hreg
    exact hfree reg hreg
  · rw [Function.update_of_ne hp] at hreg
    exact h c l j hj reg hreg

theorem spareBackward_ok {b : Nat} {list : List (Instruction × Nat)} {live : Finset Nat}
    {spare spare' : Spare}
    (hown : ∀ entry ∈ list, entry.1.opcode ≠ .phi → entry.1.result ∉ entry.1.operands)
    (hlive : ∀ entry after, (entry, after) ∈ annotate list live →
      ∃ k, (f.code b)[k]? = some entry.1 ∧ entry.2 = blockStart f b + k ∧
        after = liveAfter f cfg b k)
    (hok : SpareOk f cfg locations spare.registers)
    (h : spareBackward f locations allocatable list live spare = .ok spare') :
    SpareOk f cfg locations spare'.registers := by
  induction list generalizing live spare with
  | nil =>
      cases h
      exact hok
  | cons entry rest ih =>
      obtain ⟨i, point⟩ := entry
      rw [spareBackward] at h
      dsimp only at h
      split at h
      · cases h
      · obtain ⟨k, hk, hpoint, hafter⟩ := hlive _ _ List.mem_cons_self
        simp only at hk hpoint
        have hmatch := busy_erase live (hown _ List.mem_cons_self)
        simp only at hmatch
        rw [hmatch] at h
        refine ih (fun e he => hown e (List.mem_cons_of_mem _ he)) (fun e after he =>
          hlive e after (List.mem_cons_of_mem _ he)) ?_ h
        rw [hpoint]
        refine hok.update hk fun reg hreg v hv hsame => ?_
        have hnot := (List.mem_filter.mp hreg).2
        simp only [decide_eq_true_eq] at hnot
        rw [← hafter] at hv
        exact hnot ⟨v, hv, hsame⟩

theorem spareRegisters_ok (hf : Verified f) :
    SpareOk f cfg locations (spareRegisters f cfg locations allocatable) := by
  have hstart : SpareOk f cfg locations fun _ => [] := by
    intro b k i _ reg hreg
    cases hreg
  unfold spareRegisters
  split
  · next spare hfold =>
      refine foldAll_preserves (I := fun s => SpareOk f cfg locations s.registers) ?_ hstart hfold
      intro s b s' hs hn
      refine spareBackward_ok ?_ (fun entry after he => mem_annotate_placed.mp he) hs hn
      intro entry hentry hphi hmem
      -- an instruction does not read its own result
      obtain ⟨⟨i, position⟩, after, he, rfl⟩ : ∃ e after,
          (e, after) ∈ annotate (placed f b).reverse (cfg.liveOut b) ∧ e = entry := by
        obtain ⟨left, right, hsplit⟩ := List.append_of_mem (List.mem_reverse.mp hentry)
        exact ⟨entry, _, mem_annotate_reverse.mpr ⟨left, right, hsplit, rfl⟩, rfl⟩
      obtain ⟨k, hk, -, -⟩ := mem_annotate_placed.mp he
      simp only at hk hphi hmem
      have hne := hf.operand_ne_zero (List.mem_of_getElem? hk) hmem
      have hsite := hf.site_of_code hk hne
      obtain ⟨site, hsite', hpos, -⟩ := hf.defined_of_liveAt (.use hk hphi hmem)
      rw [hsite] at hsite'
      cases hsite'
      exact absurd (hpos rfl) (Nat.lt_irrefl k)
  · exact hstart

end Spare

end Disco.Backend.LinearScan
