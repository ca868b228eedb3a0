import Disco.Backend.FramePlan
import Disco.Backend.PhiCopies
import Disco.IR.Soundness

/-! # Edges of allocated functions

On an edge between blocks of an allocated function, the copies are possible and
carry out the PHIs: values live after the PHIs have in their homes what the
parallel assignment gives them.
-/

namespace Disco.Backend.PhiCopies

open IR Library LinearScan FramePlan Verifier

/-- The homes the allocator and the frame give. -/
def allocatedHomes (a : Allocator) (frame : Frame) : Homes where
  register := registerOf a.locations
  slot := frame.spillOffset

/-- Constants are made anew from their literals, addresses from the frame. -/
def remade (f : Function) (address : Nat → Word) (v : Nat) : Word :=
  match constantValue f v with
  | some literal => BitVec.ofInt 16 literal
  | none => address v

section Edge

variable {f : Function} {homes : Homes} {source target : Nat}

theorem filter_key {α : Type} {list : List (Nat × α)} (hnodup : (list.map Prod.fst).Nodup) {key : Nat} {x : α}
    (hmem : (key, x) ∈ list) (p : Nat × α → Bool) :
    list.filter (fun entry => decide (entry.1 = key) && p entry) = if p (key, x) then [(key, x)] else [] := by
  induction list with
  | nil => cases hmem
  | cons entry rest ih =>
      rw [List.map_cons, List.nodup_cons] at hnodup
      have hrest : ∀ e ∈ rest, e.1 ≠ entry.1 := by
        intro e he heq
        exact hnodup.1 (heq ▸ List.mem_map_of_mem he)
      cases List.mem_cons.mp hmem with
      | inl heq =>
          have hnone : rest.filter (fun e => decide (e.1 = key) && p e) = [] := by
            rw [List.filter_eq_nil_iff]
            intro e he
            have hne := hrest e he
            rw [← heq] at hne
            simp [hne]
          rw [List.filter_cons, hnone, ← heq]
          simp
      | inr hin =>
          have hne : entry.1 ≠ key := (hrest (key, x) hin).symm
          rw [List.filter_cons, ih hnodup.2 hin]
          simp [hne]

/-- Which PHIs need a copy. -/
def copied (f : Function) (homes : Homes) (source : Nat) (phi : Instruction) : Bool :=
  !decide (useCount f phi.result = 0) && !homes.same phi.result (phi.incoming source)

theorem edgeMoves_eq (hv : Verified f) (hedge : flow f source target) :
    edgeMoves f homes source target = ((phis (f.code target)).filter (copied f homes source)).map fun phi =>
      { destination := phi.result
        source := phi.incoming source } := by
  have hone : ∀ phi ∈ phis (f.code target),
      (if useCount f phi.result = 0 then []
        else ((phi.targets.zip phi.operands).filter fun edge =>
            decide (edge.1 = source) && !homes.same phi.result edge.2).map fun edge =>
          ({ destination := phi.result
             source := edge.2 } : Move)) =
        (if copied f homes source phi = true then
          [({ destination := phi.result
              source := phi.incoming source } : Move)]
        else []) := by
    intro phi hphi
    have hverified := hv.phi_of_mem hphi
    have hmem := incoming_mem hverified.lengths (hverified.covers source hedge)
    have hentry : (source, phi.incoming source) ∈ phi.targets.zip phi.operands := by
      rw [← List.zip_swap, List.mem_map]
      exact ⟨_, hmem, rfl⟩
    have hnodup : ((phi.targets.zip phi.operands).map Prod.fst).Nodup := by
      rw [List.map_fst_zip hverified.lengths.ge]
      exact hverified.nodup
    rw [filter_key hnodup hentry fun edge => !homes.same phi.result edge.2]
    unfold copied
    by_cases huse : useCount f phi.result = 0
    · simp [huse]
    · cases homes.same phi.result (phi.incoming source) <;> simp [huse]
  unfold edgeMoves
  rw [List.flatMap_congr hone]
  generalize phis (f.code target) = list
  induction list with
  | nil => rfl
  | cons phi rest ih =>
      rw [List.flatMap_cons, ih, List.filter_cons]
      cases copied f homes source phi <;> rfl

theorem mem_edgeMoves (hv : Verified f) (hedge : flow f source target) {move : Move} :
    move ∈ edgeMoves f homes source target ↔ ∃ phi ∈ phis (f.code target), copied f homes source phi = true ∧
      move = { destination := phi.result
               source := phi.incoming source } := by
  rw [edgeMoves_eq hv hedge, List.mem_map]
  constructor
  · intro h
    obtain ⟨phi, hphi, heq⟩ := h
    exact ⟨phi, (List.mem_filter.mp hphi).1, (List.mem_filter.mp hphi).2, heq.symm⟩
  · intro h
    obtain ⟨phi, hphi, hcopied, heq⟩ := h
    exact ⟨phi, List.mem_filter.mpr ⟨hphi, hcopied⟩, heq.symm⟩

theorem used_of_copied {phi : Instruction} (h : copied f homes source phi = true) : Used f phi.result := by
  unfold copied at h
  rw [Bool.and_eq_true, Bool.not_eq_true', decide_eq_false_iff_not] at h
  exact useCount_pos.mp (Nat.pos_of_ne_zero h.1)

theorem ne_zero_of_used (hv : Verified f) {v : Nat} (h : Used f v) : v ≠ 0 := by
  obtain ⟨b, k, hlive⟩ := hv.liveAt_of_used h
  exact hv.ne_zero_of_liveAt hlive

/-- PHIs that something reads have results of their own. -/
theorem phi_unique (hv : Verified f) {i j : Instruction} (hi : i ∈ phis (f.code target)) (hj : j ∈ phis (f.code target))
    (hne : i.result ≠ 0) (heq : i.result = j.result) : i = j := by
  obtain ⟨m, hm⟩ := List.mem_iff_getElem?.mp (mem_code_of_mem_phis hi).1
  obtain ⟨n, hn⟩ := List.mem_iff_getElem?.mp (mem_code_of_mem_phis hj).1
  have hsite := hv.site_of_code hm hne
  rw [heq, hv.site_of_code hn (heq ▸ hne)] at hsite
  cases hsite
  rfl

theorem edgeMoves_nodup (hv : Verified f) (hedge : flow f source target) :
    ((edgeMoves f homes source target).map Move.destination).Nodup := by
  have hlength : (phis (f.code target)).length ≤ (f.code target).length := (List.takeWhile_sublist _).length_le
  have hat : ∀ n (h : n < (phis (f.code target)).length), (f.code target)[n]? = some (phis (f.code target))[n] := by
    intro n h
    have hsplit := phis_append_body (f.code target)
    calc (f.code target)[n]? = (phis (f.code target) ++ body (f.code target))[n]? := by rw [hsplit]
      _ = (phis (f.code target))[n]? := List.getElem?_append_left h
      _ = some (phis (f.code target))[n] := List.getElem?_eq_getElem h
  have hpairwise : (phis (f.code target)).Pairwise fun i j => Used f i.result → i.result ≠ j.result := by
    rw [List.pairwise_iff_getElem]
    intro m n hm hn hlt hused heq
    have hne := ne_zero_of_used hv hused
    have hsite := hv.site_of_code (hat m hm) hne
    rw [heq, hv.site_of_code (hat n hn) (heq ▸ hne)] at hsite
    cases hsite
    omega
  rw [edgeMoves_eq hv hedge, List.map_map, List.Nodup, List.pairwise_map]
  apply List.Pairwise.imp_of_mem _ (hpairwise.filter _)
  intro i j hi _ hne
  exact hne (used_of_copied (List.mem_filter.mp hi).2)

/-- A PHI that something reads is live after the PHIs. -/
theorem live_after_phis (hv : Verified f) {phi : Instruction} (hphi : phi ∈ phis (f.code target))
    (hused : Used f phi.result) : LiveAt f target (phis (f.code target)).length phi.result := by
  obtain ⟨n, hlt, heq⟩ := List.mem_iff_getElem.mp hphi
  have hat : (f.code target)[n]? = some phi := by
    have hsplit := phis_append_body (f.code target)
    calc (f.code target)[n]? = (phis (f.code target) ++ body (f.code target))[n]? := by rw [hsplit]
      _ = (phis (f.code target))[n]? := List.getElem?_append_left hlt
      _ = some phi := by rw [List.getElem?_eq_getElem hlt, heq]
  obtain ⟨b, k, hlive⟩ := hv.liveAt_of_used hused
  obtain ⟨site, hsite, hafter⟩ := hv.liveAt_after_definition hlive
  rw [hv.site_of_code hat (ne_zero_of_used hv hused)] at hsite
  cases hsite
  exact hafter.later_phi hlt le_rfl

/-- What is live after the PHIs and not made by them is live before them. -/
theorem live_before_phis {v : Nat} (hnot : ∀ phi ∈ phis (f.code target), phi.result ≠ v)
    (hlive : LiveAt f target (phis (f.code target)).length v) : LiveAt f target 0 v := by
  have hback : ∀ k, k ≤ (phis (f.code target)).length → LiveAt f target k v → LiveAt f target 0 v := by
    intro k
    induction k with
    | zero => exact fun _ h => h
    | succ k ih =>
        intro hle hk
        have hlt : k < (phis (f.code target)).length := hle
        apply ih (Nat.le_of_lt hlt)
        have hsplit := phis_append_body (f.code target)
        have hat : (f.code target)[k]? = some (phis (f.code target))[k] := by
          calc (f.code target)[k]? = (phis (f.code target) ++ body (f.code target))[k]? := by rw [hsplit]
            _ = (phis (f.code target))[k]? := List.getElem?_append_left hlt
            _ = some (phis (f.code target))[k] := List.getElem?_eq_getElem hlt
        exact .pass hat (hnot _ (List.getElem_mem hlt)) hk
  exact hback _ le_rfl hlive

/-- The value a PHI reads is live at the end of the block before. -/
theorem live_incoming (hv : Verified f) (hedge : flow f source target) {phi : Instruction}
    (hphi : phi ∈ phis (f.code target)) : LiveAt f source (f.code source).length (phi.incoming source) := by
  have hverified := hv.phi_of_mem hphi
  exact .phi hedge ⟨phi, hphi, incoming_mem hverified.lengths (hverified.covers source hedge)⟩

end Edge

theorem isFarPointer_normalized (type : Ty) (h : 0 < type.pointerLevel) :
    isFarPointer type = (normalizePointerLayers type).pointerReach.getLastD false := by
  have hne : type.pointerLevel ≠ 0 := by omega
  unfold isFarPointer normalizePointerLayers
  cases hreach : type.pointerReach with
  | nil => simp [h, hne]
  | cons first rest => simp [h, hne]

theorem isFarPointer_sameValueType {left right : Ty} (h : sameValueType left right = true) :
    isFarPointer left = isFarPointer right := by
  have hlevel := (sameValueType_fields h).2.2.1
  by_cases hpointer : 0 < left.pointerLevel
  · unfold sameValueType samePointerLayers at h
    simp only [Bool.and_eq_true, Bool.or_eq_true, decide_eq_true_eq] at h
    have hlayers := h.2.resolve_left (by omega)
    rw [isFarPointer_normalized left hpointer, isFarPointer_normalized right (hlevel ▸ hpointer), hlayers.1.1.1]
  · have hright : ¬ 0 < right.pointerLevel := hlevel ▸ hpointer
    simp [isFarPointer, hpointer, hright]

/-! ## Homes of an allocated function -/

section Allocated

variable {f : Function} {a : Allocator} {frame : Frame} {source target : Nat}

theorem allocatedHomes_proper (hhousing : Housing f a) (hstorage : SeparateStorage f a frame) :
    (allocatedHomes a frame).Proper where
  exclusive := hstorage.exclusive
  free := by
    intro v reg hreg
    have hmem := hhousing.registers v reg hreg
    constructor
    · rintro rfl
      simp at hmem
    · rintro rfl
      simp at hmem

theorem home_isSome {v : Nat} (h : (registerOf a.locations v).isSome ∨ (frame.spillOffset v).isSome) :
    ∃ home, (allocatedHomes a frame).home v = some home := by
  rw [← Option.isSome_iff_exists]
  unfold Homes.home allocatedHomes
  dsimp only
  cases hslot : frame.spillOffset v with
  | some offset => rfl
  | none =>
      rw [hslot] at h
      simpa using h

/-- Values needed together have different homes. -/
theorem home_apart (hstorage : SeparateStorage f a frame) {v w : Nat} (hne : v ≠ w) (htogether : Together f v w) {h : Home}
    (hv : (allocatedHomes a frame).home v = some h) : (allocatedHomes a frame).home w ≠ some h := by
  intro hw
  unfold Homes.home allocatedHomes at hv hw
  dsimp only at hv hw
  cases hslotv : frame.spillOffset v with
  | some o =>
      rw [hslotv] at hv
      cases hv
      cases hslotw : frame.spillOffset w with
      | none => simp [hslotw] at hw
      | some o' =>
          rw [hslotw] at hw
          cases hw
          have hapart := hstorage.words v w hne htogether o o hslotv hslotw
          have hwidthv := width_pos f v
          have hwidthw := width_pos f w
          unfold Apart at hapart
          omega
  | none =>
      rw [hslotv] at hv
      obtain ⟨reg, hreg, rfl⟩ := Option.map_eq_some_iff.mp hv
      cases hslotw : frame.spillOffset w with
      | some o => simp [hslotw] at hw
      | none =>
          rw [hslotw] at hw
          obtain ⟨reg', hreg', heq⟩ := Option.map_eq_some_iff.mp hw
          cases heq
          exact hstorage.registers v w hne htogether reg hreg hreg'

theorem not_rematerializable_of_phi (hv : Verified f) {phi : Instruction} (hphi : phi ∈ phis (f.code target))
    (hne : phi.result ≠ 0) : ¬ Rematerializable f phi.result := by
  rintro ⟨i, hi, hremat⟩
  obtain ⟨hcode, hop⟩ := mem_code_of_mem_phis hphi
  obtain ⟨m, hm⟩ := List.mem_iff_getElem?.mp hcode
  rw [definition_of_site (hv.site_of_code hm hne)] at hi
  cases hi
  unfold isRematerializable at hremat
  simp [hop] at hremat

theorem phi_housed (hv : Verified f) (hstorage : SeparateStorage f a frame) {phi : Instruction}
    (hphi : phi ∈ phis (f.code target)) (hused : Used f phi.result) :
    ∃ home, (allocatedHomes a frame).home phi.result = some home := by
  apply home_isSome
  exact hstorage.housed phi.result (.inr ⟨hused, target, phi, hphi, rfl⟩)
    (not_rematerializable_of_phi hv hphi (ne_zero_of_used hv hused))

/-- Constants have no home. -/
theorem home_of_constant (hhousing : Housing f a) (hstorage : SeparateStorage f a frame) {v : Nat} {literal : Int}
    (hconst : constantValue f v = some literal) : (allocatedHomes a frame).home v = none := by
  obtain ⟨i, hi, hliteral⟩ := Option.bind_eq_some_iff.mp hconst
  have hop : i.opcode = .constant := by
    by_contra hnot
    simp [hnot] at hliteral
  have hremade : Rematerializable f v := ⟨i, hi, by simp [isRematerializable, hop]⟩
  have hregister : registerOf a.locations v = none := by
    rw [← Option.not_isSome_iff_eq_none]
    exact fun hsome => (hhousing.near v (.inl hsome)).keeps hremade
  unfold Homes.home allocatedHomes
  simp [hstorage.remade v hremade, hregister]

theorem edgeMoves_separate (address : Nat → Word) (start : Cells) (hv : Verified f) (hhousing : Housing f a) (hstorage : SeparateStorage f a frame)
    (hedge : flow f source target) : Separate f (allocatedHomes a frame) (remade f address) start
      (edgeMoves f (allocatedHomes a frame) source target) where
  nodup := edgeMoves_nodup hv hedge
  apart := by
    intro m hm m' hm' hsame
    obtain ⟨phi, hphi, hcopied, rfl⟩ := (mem_edgeMoves hv hedge).mp hm
    obtain ⟨phi', hphi', hcopied', rfl⟩ := (mem_edgeMoves hv hedge).mp hm'
    obtain ⟨h, hhome⟩ := phi_housed hv hstorage hphi (used_of_copied hcopied)
    by_contra hne
    have htogether : Together f phi.result phi'.result := .inr ⟨target, ⟨phi, hphi, rfl⟩, phi', hphi', rfl⟩
    dsimp only at hsame
    exact home_apart hstorage hne htogether hhome (hsame ▸ hhome)
  housed := by
    intro m hm
    obtain ⟨phi, hphi, hcopied, rfl⟩ := (mem_edgeMoves hv hedge).mp hm
    exact phi_housed hv hstorage hphi (used_of_copied hcopied)
  constants := by
    intro m _ literal hconst
    unfold Cells.value remade
    rw [home_of_constant hhousing hstorage hconst, hconst]
    rfl

theorem edgeMoves_fresh (hv : Verified f) (hedge : flow f source target) {homes : Homes} :
    ∀ m ∈ edgeMoves f homes source target, m.saved = false := by
  intro m hm
  obtain ⟨phi, _, _, rfl⟩ := (mem_edgeMoves hv hedge).mp hm
  rfl

theorem selectPhis_phi (hv : Verified f) {env : Nat → Slot} {phi : Instruction} (hphi : phi ∈ phis (f.code target))
    (hne : phi.result ≠ 0) :
    selectPhis (phis (f.code target)) source env phi.result = { word := (env (phi.incoming source)).word } := by
  unfold selectPhis
  cases hfind : (phis (f.code target)).find? fun i => i.result == phi.result with
  | none =>
      have hnone := List.find?_eq_none.mp hfind phi hphi
      simp at hnone
  | some i =>
      have hresult : i.result = phi.result := by simpa using List.find?_some hfind
      have heq := phi_unique hv (List.mem_of_find?_eq_some hfind) hphi (hresult ▸ hne) hresult
      rw [heq]

theorem selectPhis_other {env : Nat → Slot} {v : Nat} (hnot : ∀ phi ∈ phis (f.code target), phi.result ≠ v) :
    selectPhis (phis (f.code target)) source env v = env v := by
  unfold selectPhis
  have hnone : ((phis (f.code target)).find? fun i => i.result == v) = none := by
    rw [List.find?_eq_none]
    intro phi hphi
    simpa using hnot phi hphi
  rw [hnone]

/-- Near values that are live have what the machine of the functions holds. -/
def Represents (f : Function) (homes : Homes) (made : Nat → Word) (b k : Nat) (env : Nat → Slot) (cells : Cells) : Prop :=
  ∀ v, LiveAt f b k v → CostModel.farValue f v = false → cells.value homes made v = BitVec.ofInt 16 (env v).word

end Allocated

/-- The copies on an edge carry out its PHIs, and leave the stack as it was. -/
theorem emitPhiCopies_sound {f : Function} {allocatable : List Nat} {policy : OptimizationLevel} {a : Allocator}
    {proven : Int → Nat → Int → Bool} {frame : Frame} {source target : Nat} {address : Nat → Word} {env : Nat → Slot}
    {start : Cells} (hverify : verifyFunction f = .ok ()) (halloc : runGlobal f allocatable policy = .ok a)
    (hplan : planFrame f a.locations proven = .ok frame) (hedge : flow f source target)
    (hstart : Represents f (allocatedHomes a frame) (remade f address) source (f.code source).length env start) :
    ∃ code, emitPhiCopies f (allocatedHomes a frame) source target = .ok code ∧
      Represents f (allocatedHomes a frame) (remade f address) target (phis (f.code target)).length
        (selectPhis (phis (f.code target)) source env) (run (allocatedHomes a frame) (remade f address) start code) ∧
      (run (allocatedHomes a frame) (remade f address) start code).stack = start.stack := by
  have hv := verified_of_verifyFunction hverify
  have hhousing := runGlobal_housing hv halloc
  have hstorage := planFrame_separate hverify halloc hplan
  have hproper := allocatedHomes_proper hhousing hstorage
  obtain ⟨emission, hsequence, hparallel⟩ := sequence_parallel hproper
    (edgeMoves_separate address start hv hhousing hstorage hedge) (edgeMoves_fresh hv hedge)
  refine ⟨emission.code, by simp [emitPhiCopies, hsequence, Except.map], ?_, hparallel.stack⟩
  -- homes of values that no copy writes are kept
  have hkept : ∀ v, LiveAt f target (phis (f.code target)).length v →
      (∀ phi ∈ phis (f.code target), copied f (allocatedHomes a frame) source phi = true → phi.result ≠ v) →
      (run (allocatedHomes a frame) (remade f address) start emission.code).value (allocatedHomes a frame)
        (remade f address) v = start.value (allocatedHomes a frame) (remade f address) v := by
    intro v hlive hnot
    apply value_congr
    intro h hhome
    have hfree := hproper.home_free hhome
    apply hparallel.kept h hfree.1 hfree.2
    intro m hm hdest
    obtain ⟨phi, hphi, hcopied, rfl⟩ := (mem_edgeMoves hv hedge).mp hm
    have hphiLive := live_after_phis hv hphi (used_of_copied hcopied)
    exact home_apart hstorage (hnot phi hphi hcopied) (.inl ⟨_, _, hphiLive, hlive⟩) hdest hhome
  intro v hlive hnear
  by_cases hphi : ∃ phi ∈ phis (f.code target), phi.result = v
  · obtain ⟨phi, hphi, rfl⟩ := hphi
    have hne := hv.ne_zero_of_liveAt hlive
    have hverified := hv.phi_of_mem hphi
    -- the operand is near because its type is the PHI's
    have hoperand : start.value (allocatedHomes a frame) (remade f address) (phi.incoming source) =
        BitVec.ofInt 16 (env (phi.incoming source)).word := by
      apply hstart _ (live_incoming hv hedge hphi)
      obtain ⟨_, _, site, hsite, _, hsame⟩ := hverified.edges _
        (incoming_mem hverified.lengths (hverified.covers source hedge))
      obtain ⟨m, hm⟩ := List.mem_iff_getElem?.mp (mem_code_of_mem_phis hphi).1
      unfold CostModel.farValue at hnear ⊢
      rw [typeOf_of_site (hv.site_of_code hm hne)] at hnear
      rw [typeOf_of_site hsite, ← isFarPointer_sameValueType hsame]
      exact hnear
    rw [selectPhis_phi hv hphi hne, ← hoperand]
    cases hcopied : copied f (allocatedHomes a frame) source phi with
    | true =>
        exact hparallel.written _ ((mem_edgeMoves hv hedge).mpr ⟨phi, hphi, hcopied, rfl⟩)
    | false =>
        -- no copy: the PHI and its operand share a home
        have hsame : (allocatedHomes a frame).same phi.result (phi.incoming source) = true := by
          have hused := useCount_pos.mpr hlive.used
          unfold copied at hcopied
          simpa [show useCount f phi.result ≠ 0 by omega] using hcopied
        have hshared := hproper.home_eq hsame
        obtain ⟨h, hhome⟩ := phi_housed hv hstorage hphi hlive.used
        rw [hkept _ hlive, value_home hhome, value_home (hshared.trans hhome)]
        intro phi' hphi' hcopied' heq
        rw [phi_unique hv hphi' hphi (heq ▸ hne) heq, hcopied] at hcopied'
        cases hcopied'
  · have hnot : ∀ phi ∈ phis (f.code target), phi.result ≠ v := fun phi hmem heq => hphi ⟨phi, hmem, heq⟩
    rw [selectPhis_other hnot, hkept v hlive fun phi hmem _ => hnot phi hmem]
    exact hstart v (.edge hedge (live_before_phis hnot hlive)) hnear

theorem emitPhiCopies_sound_exchange : ∃ a frame code,
    runGlobal exchange [5] .o2 = .ok a ∧ planFrame exchange a.locations (fun _ _ _ => false) = .ok frame ∧
    emitPhiCopies exchange (allocatedHomes a frame) 2 1 = .ok code ∧
    (run (allocatedHomes a frame) (remade exchange fun _ => 0)
      { register := fun reg => BitVec.ofNat 16 reg
        slot := fun offset => BitVec.ofInt 16 offset
        stack := [] } code).stack = [] := by
  have hok : (runGlobal exchange [5] .o2 >>= fun a => planFrame exchange a.locations fun _ _ _ => false).isOk = true := by
    decide +kernel
  cases halloc : runGlobal exchange [5] .o2 with
  | error message =>
      rw [halloc] at hok
      cases hok
  | ok a =>
      rw [halloc] at hok
      cases hplan : planFrame exchange a.locations (fun _ _ _ => false) with
      | error message =>
          simp only [bind, Except.bind, hplan] at hok
          cases hok
      | ok frame =>
          let start : Cells :=
            { register := fun reg => BitVec.ofNat 16 reg
              slot := fun offset => BitVec.ofInt 16 offset
              stack := [] }
          have hedge : 1 ∈ successors exchange 2 := by decide +kernel
          have hrepresents : Represents exchange (allocatedHomes a frame) (remade exchange fun _ => 0) 2
              (exchange.code 2).length
              (fun v => { word := (start.value (allocatedHomes a frame) (remade exchange fun _ => 0) v).toInt }) start :=
            fun _ _ _ => (BitVec.ofInt_toInt).symm
          obtain ⟨code, hcode, _, hstack⟩ := emitPhiCopies_sound (by decide +kernel) halloc hplan hedge hrepresents
          exact ⟨a, frame, code, rfl, hplan, hcode, hstack⟩

end Disco.Backend.PhiCopies
