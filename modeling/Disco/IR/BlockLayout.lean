import Disco.IR.NaturalLoops
import Disco.IR.Relocation
import Disco.Library.Gathering
import Disco.Library.TreeWalk
import Mathlib.Data.List.Sort

/-! # Block layout

`layoutHotBlocks` reorders the blocks of a function so that the blocks of each
loop stand together behind their header, outer loops first, and renames every
block id to its new place. Only the places of blocks change, so the function
runs as before.
-/

namespace Disco.IR

open Library Verifier ControlFlow

namespace BlockLayout

def outOfRange : String := "vector::at"

/-- Larger loops first; loops of one size by their headers. -/
def before (a b : NaturalLoop) : Prop :=
  a.blocks.card > b.blocks.card ∨ (a.blocks.card = b.blocks.card ∧ a.header ≤ b.header)

instance : DecidableRel before := fun _ _ => inferInstanceAs (Decidable (_ ∨ _))

/-- A common block, and neither loop is part of the other. -/
def overlaps (a b : NaturalLoop) : Prop :=
  (∃ c ∈ a.blocks, c ∈ b.blocks) ∧ ¬ b.blocks ⊆ a.blocks ∧ ¬ a.blocks ⊆ b.blocks

instance (a b : NaturalLoop) : Decidable (overlaps a b) := inferInstanceAs (Decidable (_ ∧ _))

/-- Loops whose blocks stay where they are. -/
def skipped (f : Function) (loops : List NaturalLoop) (around : NaturalLoop) : Prop :=
  (∃ other ∈ loops, overlaps around other) ∨ (f.entry ∈ around.blocks ∧ around.header ≠ f.entry)

instance (f : Function) (loops : List NaturalLoop) (around : NaturalLoop) :
    Decidable (skipped f loops around) := inferInstanceAs (Decidable (_ ∨ _))

def arrange (f : Function) (loops : List NaturalLoop) (order : List Nat) (around : NaturalLoop) : List Nat :=
  if skipped f loops around then order
  else gathered (fun b => decide (b ∈ around.blocks)) around.header order

def blockOrder (f : Function) (loops : List NaturalLoop) : List Nat :=
  (loops.insertionSort before).foldl (arrange f loops) (f.blocks.map BasicBlock.id)

/-- The new id of each block. -/
def ids (order : List Nat) : Nat → Nat :=
  order.zipIdx.foldl (fun ids entry => Function.update ids entry.1 entry.2) fun _ => invalidBlock

/-- The block ids a function mentions. -/
def mentioned (f : Function) : List Nat :=
  f.entry :: f.instructions.flatMap fun i =>
    i.targets ++ if i.loopTarget = invalidBlock then [] else [i.loopTarget]

def reorder (f : Function) (order : List Nat) : Function :=
  { f with
    blocks := order.map fun old =>
      let block := (f.blocks[old]?).getD {}
      { block with
        id := ids order old
        instructions := block.instructions.map (Instruction.relocate (ids order)) }
    entry := ids order f.entry }

end BlockLayout

open BlockLayout in
def layoutHotBlocks (f : Function) : Except String Function := do
  let cfg ← controlFlow f
  if cfg.loops.length > 32 then pure f
  else do
    let order := blockOrder f cfg.loops
    rejectIf (∃ b ∈ order ++ mentioned f, b ≥ f.blocks.length) outOfRange
    pure (reorder f order)

namespace BlockLayout

/-! ## The new places -/

section Places

variable {f g : Function} {order : List Nat} {b k n : Nat}

theorem ids_eq (hnodup : order.Nodup) (hk : order[k]? = some b) : ids order b = k := by
  have hall : ∀ k b, k < order.zipIdx.length → order[k]? = some b → ids order b = k :=
    foldl_positions (I := fun n (ids : Nat → Nat) => ∀ k b, k < n → order[k]? = some b → ids b = k) ?_ ?_
  · have hlt : k < order.zipIdx.length := by
      rw [List.length_zipIdx]
      exact (List.getElem?_eq_some_iff.mp hk).1
    exact hall k b hlt hk
  · intro n entry ids hentry hids k b hlt hk
    rw [List.getElem?_zipIdx, Nat.zero_add, Option.map_eq_some_iff] at hentry
    obtain ⟨last, hlast, rfl⟩ := hentry
    dsimp only
    by_cases hsame : k = n
    · subst hsame
      rw [hk] at hlast
      cases hlast
      exact Function.update_self ..
    · have hne : b ≠ last := by
        intro heq
        subst heq
        exact hsame ((List.getElem?_inj (List.getElem?_eq_some_iff.mp hk).1 hnodup).mp (hk.trans hlast.symm))
      rw [Function.update_of_ne hne]
      exact hids k b (by omega) hk
  · intro k b hlt
    omega

/-- Blocks beyond the function keep their ids. -/
def place (order : List Nat) (n b : Nat) : Nat := if b < n then ids order b else b

theorem exists_place (hperm : order.Perm (List.range n)) (hb : b < n) :
    ∃ k < n, order[k]? = some b ∧ ids order b = k := by
  have hnodup : order.Nodup := hperm.nodup_iff.mpr List.nodup_range
  have hmem : b ∈ order := hperm.mem_iff.mpr (List.mem_range.mpr hb)
  obtain ⟨k, hk⟩ := List.mem_iff_getElem?.mp hmem
  refine ⟨k, ?_, hk, ids_eq hnodup hk⟩
  have hlt := (List.getElem?_eq_some_iff.mp hk).1
  rw [hperm.length_eq, List.length_range] at hlt
  exact hlt

theorem place_injective (hperm : order.Perm (List.range n)) : Function.Injective (place order n) := by
  intro a b hab
  unfold place at hab
  by_cases ha : a < n
  · obtain ⟨k, hk, hget, hids⟩ := exists_place hperm ha
    by_cases hb : b < n
    · obtain ⟨k', hk', hget', hids'⟩ := exists_place hperm hb
      rw [if_pos ha, if_pos hb, hids, hids'] at hab
      rw [hab, hget'] at hget
      exact (Option.some.inj hget).symm
    · rw [if_pos ha, if_neg hb] at hab
      omega
  · by_cases hb : b < n
    · obtain ⟨k', hk', hget', hids'⟩ := exists_place hperm hb
      rw [if_neg ha, if_pos hb] at hab
      omega
    · rw [if_neg ha, if_neg hb] at hab
      exact hab

theorem relocate_place {i : Instruction} (htargets : ∀ t ∈ i.targets, t < n)
    (hloop : i.loopTarget ≠ invalidBlock → i.loopTarget < n) :
    i.relocate (ids order) = i.relocate (place order n) := by
  unfold Instruction.relocate
  have hmap : i.targets.map (ids order) = i.targets.map (place order n) :=
    List.map_congr_left fun t ht => (if_pos (htargets t ht)).symm
  rw [hmap]
  by_cases hnone : i.loopTarget = invalidBlock
  · rw [if_pos hnone, if_pos hnone]
  · rw [if_neg hnone, if_neg hnone]
    unfold place
    rw [if_pos (hloop hnone)]

theorem reorder_relocated (hperm : order.Perm (List.range f.blocks.length))
    (hids : ∀ b ∈ mentioned f, b < f.blocks.length) :
    Relocated (place order f.blocks.length) f (reorder f order) where
  injective := place_injective hperm
  entry := by
    unfold place
    rw [if_pos (hids _ List.mem_cons_self)]
    rfl
  code b := by
    by_cases hb : b < f.blocks.length
    · obtain ⟨k, -, hget, hk⟩ := exists_place hperm hb
      have hblock : f.blocks[b]? = some f.blocks[b] := List.getElem?_eq_getElem hb
      have hcode : f.code b = f.blocks[b].instructions := by
        unfold Function.code
        rw [hblock]
        rfl
      have hnew : (reorder f order).code (place order f.blocks.length b) =
          (f.code b).map (Instruction.relocate (ids order)) := by
        unfold place Function.code reorder
        dsimp only
        simp [hb, hk, hget]
      rw [hnew]
      apply List.map_congr_left
      intro i hi
      have hin : i ∈ f.instructions := mem_instructions.mpr ⟨b, hi⟩
      have hmention : ∀ t ∈ i.targets ++ (if i.loopTarget = invalidBlock then [] else [i.loopTarget]),
          t < f.blocks.length := fun t ht =>
        hids t (List.mem_cons_of_mem _ (List.mem_flatMap.mpr ⟨i, hin, ht⟩))
      apply relocate_place
      · intro t ht
        exact hmention t (List.mem_append_left _ ht)
      · intro hloop
        apply hmention
        rw [if_neg hloop]
        exact List.mem_append_right _ (List.mem_singleton_self _)
    · have hnone : f.code b = [] := by
        unfold Function.code
        rw [List.getElem?_eq_none (by omega)]
        rfl
      have hnew : (reorder f order).code (place order f.blocks.length b) = [] := by
        unfold place Function.code reorder
        dsimp only
        have hlength : order.length = f.blocks.length := by rw [hperm.length_eq, List.length_range]
        rw [if_neg hb, List.getElem?_eq_none (by rw [List.length_map]; omega)]
        rfl
      rw [hnone, hnew]
      rfl

end Places

/-! ## Loops stand together -/

section Arranged

variable {f : Function} {loops : List NaturalLoop} {order : List Nat} {a around : NaturalLoop}

/-- The members of a loop, as they are gathered. -/
abbrev member (around : NaturalLoop) (b : Nat) : Bool := decide (b ∈ around.blocks)

theorem headed (hl : LoopOf f around) (hmem : ∃ l, Backedge (flow f) f.entry l around.header) :
    member around around.header = true := by
  obtain ⟨l, back⟩ := hmem
  exact decide_eq_true ((hl.blocks _).mpr (.header back))

/-- Of the analysed loops none is skipped: they are nested, and enter by their headers. -/
theorem not_skipped (h : NaturalLoops f loops) (hmem : around ∈ loops) : ¬ skipped f loops around := by
  have hl := h.sound around hmem
  intro hskip
  cases hskip with
  | inl hoverlap =>
      obtain ⟨other, hother, ⟨b, hb, hb'⟩, hout, hout'⟩ := hoverlap
      rcases h.nested hmem hother with hdisjoint | hsub | hsub
      · exact Finset.disjoint_left.mp hdisjoint hb hb'
      · exact hout' hsub
      · exact hout hsub
  | inr hentry => exact hentry.2 ((hl.blocks _).mp hentry.1).of_entry

theorem header_injective (h : NaturalLoops f loops) {a b : NaturalLoop} (ha : a ∈ loops) (hb : b ∈ loops)
    (heq : a.header = b.header) : a = b := by
  have hnodup : (loops.map NaturalLoop.header).Nodup := h.ascending.imp fun hlt => hlt.ne
  exact List.inj_on_of_nodup_map hnodup ha hb heq

/-- Gathering a later loop keeps an earlier one together. -/
theorem Together.later (h : NaturalLoops f loops) (ha : a ∈ loops) (hmem : around ∈ loops) (hne : a ≠ around)
    (hbefore : before a around) (horder : around.header ∈ order)
    (htogether : Together (member a) a.header order) :
    Together (member a) a.header (gathered (member around) around.header order) := by
  have hl := h.sound around hmem
  have hla := h.sound a ha
  have hin := headed hl ((h.mem_header _).mp (List.mem_map_of_mem hmem))
  have hina := headed hla ((h.mem_header _).mp (List.mem_map_of_mem ha))
  have hheaders : ∀ {x y : NaturalLoop}, x ∈ loops → y ∈ loops → x.header ∈ y.blocks → y.header ∈ x.blocks →
      x = y := fun hx hy hxy hyx => header_injective h hx hy
    ((((h.sound _ hy).blocks _).mp hxy).header_unique (((h.sound _ hx).blocks _).mp hyx))
  by_cases hdisjoint : Disjoint a.blocks around.blocks
  · refine htogether.of_disjoint horder hin ?_
    intro b hb
    exact decide_eq_false fun hb' => Finset.disjoint_left.mp hdisjoint hb' (of_decide_eq_true hb)
  · have hsub : around.blocks ⊆ a.blocks := by
      rcases (h.nested ha hmem).resolve_left hdisjoint with hpart | hsub
      · -- the larger loop came first, so the two are the same
        have hcard := Finset.card_le_card hpart
        unfold before at hbefore
        rw [Finset.eq_of_subset_of_card_le hpart (by omega)]
      · exact hsub
    refine htogether.of_subset horder hin ?_ ?_
    · intro b hb
      exact decide_eq_true (hsub (of_decide_eq_true hb))
    · refine decide_eq_false fun hheader => hne ?_
      exact hheaders ha hmem hheader (hsub (of_decide_eq_true hin))

/-- What the loops that have been arranged leave behind. -/
structure Arranged (f : Function) (done : List NaturalLoop) (order : List Nat) : Prop where
  perm : order.Perm (List.range f.blocks.length)
  first : order.head? = some f.entry
  together : ∀ around ∈ done, Together (member around) around.header order

theorem Arranged.next (h : NaturalLoops f loops) {done : List NaturalLoop} (hdone : ∀ a ∈ done, a ∈ loops)
    (hmem : around ∈ loops) (hnew : around ∉ done) (hbefore : ∀ a ∈ done, before a around)
    (hheader : around.header < f.blocks.length) (ho : Arranged f done order) :
    Arranged f (done ++ [around]) (arrange f loops order around) := by
  have hin := headed (h.sound around hmem) ((h.mem_header _).mp (List.mem_map_of_mem hmem))
  have horder : around.header ∈ order := ho.perm.mem_iff.mpr (List.mem_range.mpr hheader)
  have hnodup : order.Nodup := ho.perm.nodup_iff.mpr List.nodup_range
  unfold arrange
  rw [if_neg (not_skipped h hmem)]
  refine ⟨(gathered_perm hnodup horder hin).trans ho.perm, ?_, ?_⟩
  · have hfirst := ho.first
    cases order with
    | nil => cases hfirst
    | cons b rest =>
        cases hfirst
        unfold gathered
        by_cases hentry : member around f.entry = true
        · have hsame := (((h.sound around hmem).blocks _).mp (of_decide_eq_true hentry)).of_entry
          rw [gatherInto_first hentry]
          exact congrArg some hsame
        · simp [gatherInto, hentry]
  intro a ha
  cases List.mem_append.mp ha with
  | inl hold =>
      have hne : a ≠ around := fun heq => hnew (heq ▸ hold)
      exact Together.later h (hdone a hold) hmem hne (hbefore a hold) horder (ho.together a hold)
  | inr hlast =>
      rw [List.mem_singleton.mp hlast]
      exact together_gathered horder hin

theorem Arranged.all (h : NaturalLoops f loops) {done rest : List NaturalLoop}
    (hall : ∀ a ∈ done ++ rest, a ∈ loops) (hnodup : (done ++ rest).Nodup) (hsorted : (done ++ rest).Pairwise before)
    (hheaders : ∀ a ∈ rest, a.header < f.blocks.length) (ho : Arranged f done order) :
    Arranged f (done ++ rest) (rest.foldl (arrange f loops) order) := by
  induction rest generalizing done order with
  | nil =>
      rw [List.append_nil]
      exact ho
  | cons around rest ih =>
      have hsplit : done ++ around :: rest = done ++ [around] ++ rest := by simp
      have hnew : around ∉ done := by
        intro hin
        exact (List.disjoint_of_nodup_append hnodup) hin List.mem_cons_self
      have hbefore : ∀ a ∈ done, before a around := fun a ha =>
        (List.pairwise_append.mp hsorted).2.2 a ha around List.mem_cons_self
      have hnext := ho.next h (fun a ha => hall a (List.mem_append_left _ ha))
        (hall around (List.mem_append_right _ List.mem_cons_self)) hnew hbefore
        (hheaders around List.mem_cons_self)
      rw [hsplit] at hall hnodup hsorted ⊢
      exact ih hall hnodup hsorted (fun a ha => hheaders a (List.mem_cons_of_mem _ ha)) hnext

instance : Std.Total before := ⟨fun a b => by unfold before; omega⟩

instance : IsTrans NaturalLoop before := ⟨fun a b c => by unfold before; omega⟩

theorem map_id_blocks (hv : Verified f) : f.blocks.map BasicBlock.id = List.range f.blocks.length := by
  apply List.ext_getElem (by rw [List.length_map, List.length_range])
  intro k hk _
  rw [List.length_map] at hk
  rw [List.getElem_map, List.getElem_range]
  exact (hv.ids k _ (List.getElem?_eq_getElem hk)).id_eq

theorem blockOrder_arranged (hv : Verified f) (h : NaturalLoops f loops) :
    Arranged f (loops.insertionSort before) (blockOrder f loops) := by
  have hperm := List.perm_insertionSort before loops
  have hnodup : loops.Nodup := List.Nodup.of_map NaturalLoop.header (h.ascending.imp fun hlt => hlt.ne)
  have hstart : Arranged f [] (f.blocks.map BasicBlock.id) := by
    rw [map_id_blocks hv]
    refine ⟨.refl _, ?_, fun a ha => absurd ha List.not_mem_nil⟩
    rw [hv.entry_eq, List.head?_range, if_neg (Nat.ne_of_gt (Nat.zero_lt_of_lt hv.entry_lt))]
  have hall : Arranged f ([] ++ loops.insertionSort before) _ := Arranged.all h (fun a ha => hperm.mem_iff.mp ha)
    (hperm.nodup_iff.mpr hnodup) (List.pairwise_insertionSort before loops) ?_ hstart
  · exact hall
  · intro a ha
    obtain ⟨l, back⟩ := (h.mem_header _).mp (List.mem_map_of_mem (hperm.mem_iff.mp ha))
    exact hv.lt_of_reached (.next back.reached back.step)

theorem mentioned_lt (hv : Verified f) : ∀ b ∈ mentioned f, b < f.blocks.length := by
  intro b hb
  cases List.mem_cons.mp hb with
  | inl hentry =>
      rw [hentry]
      exact hv.entry_lt
  | inr hmem =>
      obtain ⟨i, hi, hb⟩ := List.mem_flatMap.mp hmem
      obtain ⟨c, hc⟩ := mem_instructions.mp hi
      obtain ⟨k, hk⟩ := List.mem_iff_getElem?.mp hc
      obtain ⟨_, -, hscanned⟩ := hv.scannedAt hk
      cases List.mem_append.mp hb with
      | inl htarget => exact hscanned.targets b htarget
      | inr hloop =>
          have hmeta := hscanned.metadata
          unfold checkMetadata at hmeta
          simp only [rejectIf_bind_eq_ok, rejectIf_eq_ok] at hmeta
          split at hloop
          · cases hloop
          · next hne =>
              rw [List.mem_singleton.mp hloop]
              have hgood : ¬ badTarget f i.loopTarget := fun hbad => hmeta.2.2.2.2 ⟨hne, hbad⟩
              unfold badTarget at hgood
              omega

/-- What an accepted function with few loops becomes. -/
theorem layoutHotBlocks_eq (hv : Verified f) {cfg : ControlFlow} (hcfg : controlFlow f = .ok cfg)
    (hfew : cfg.loops.length ≤ 32) : layoutHotBlocks f = .ok (reorder f (blockOrder f cfg.loops)) := by
  have hperm := (blockOrder_arranged hv (naturalLoops_of_controlFlow hv hcfg)).perm
  have hrange : ¬ ∃ b ∈ blockOrder f cfg.loops ++ mentioned f, b ≥ f.blocks.length := by
    intro hout
    obtain ⟨b, hb, hge⟩ := hout
    cases List.mem_append.mp hb with
    | inl horder =>
        have hlt := List.mem_range.mp (hperm.mem_iff.mp horder)
        omega
    | inr hmention =>
        have hlt := mentioned_lt hv b hmention
        omega
  unfold layoutHotBlocks
  rw [hcfg, ok_bind, if_neg (by omega)]
  exact rejectIf_bind_eq_ok.mpr ⟨hrange, rfl⟩

end Arranged

end BlockLayout

open BlockLayout

/-- The new order of the blocks does not change what the function does. -/
theorem layoutHotBlocks_sound {m : Module} {f g : Function} (h : verify m = .ok ()) (hf : f ∈ m.functions)
    (hlayout : layoutHotBlocks f = .ok g) (W : Type) (perform : Perform W) (world : W) :
    Machine.SameBehavior (machine perform g) (machine perform f) (start g world) (start f world) := by
  have hv := verified_of_verifyFunction (verifyFunction_of_verify h hf)
  cases hcfg : controlFlow f with
  | error e =>
      unfold layoutHotBlocks at hlayout
      rw [hcfg] at hlayout
      cases hlayout
  | ok cfg =>
      by_cases hfew : cfg.loops.length ≤ 32
      · rw [layoutHotBlocks_eq hv hcfg hfew] at hlayout
        cases hlayout
        have hperm := (blockOrder_arranged hv (naturalLoops_of_controlFlow hv hcfg)).perm
        exact ((reorder_relocated hperm (mentioned_lt hv)).sameBehavior perform world).symm
      · unfold layoutHotBlocks at hlayout
        rw [hcfg, ok_bind, if_pos (by omega)] at hlayout
        cases hlayout
        exact .refl _ _

/-- The exit goes behind both loops. -/
theorem layoutHotBlocks_sound_nestedLoops :
    ∃ g, layoutHotBlocks nestedLoops = .ok g ∧ g.code 4 = [{ opcode := .returnVoid }] ∧
      ∀ (W : Type) (perform : Perform W) (world : W), Machine.SameBehavior (machine perform g)
        (machine perform nestedLoops) (start g world) (start nestedLoops world) := by
  have hcode : (layoutHotBlocks nestedLoops).map (fun g => g.code 4) = .ok [{ opcode := .returnVoid }] := by
    decide +kernel
  cases hlayout : layoutHotBlocks nestedLoops with
  | error e =>
      rw [hlayout] at hcode
      cases hcode
  | ok g =>
      rw [hlayout] at hcode
      exact ⟨g, rfl, Except.ok.inj hcode, layoutHotBlocks_sound nestedLoops_verified List.mem_cons_self hlayout⟩

/-- Up to its limit on loops the layout of an accepted function succeeds once
the analysis does: the entry stays in front, and the blocks of every loop of the
graph follow each other, the header first. -/
theorem layoutHotBlocks_loops {m : Module} {f : Function} (h : verify m = .ok ()) (hf : f ∈ m.functions)
    {cfg : ControlFlow} (hcfg : controlFlow f = .ok cfg) (hfew : cfg.loops.length ≤ 32) :
    ∃ order, layoutHotBlocks f = .ok (reorder f order) ∧ order.Perm (List.range f.blocks.length) ∧
      (reorder f order).entry = 0 ∧
      ∀ latch header, Backedge (flow f) f.entry latch header →
        ∃ before inside after, order = before ++ header :: inside ++ after ∧
          ∀ b, b ∈ header :: inside ↔ InLoop (flow f) f.entry header b := by
  have hv := verified_of_verifyFunction (verifyFunction_of_verify h hf)
  have hloops := naturalLoops_of_controlFlow hv hcfg
  have ho := blockOrder_arranged hv hloops
  refine ⟨blockOrder f cfg.loops, layoutHotBlocks_eq hv hcfg hfew, ho.perm, ?_, ?_⟩
  · have hfirst := ho.first
    rw [List.head?_eq_getElem?] at hfirst
    exact ids_eq (ho.perm.nodup_iff.mpr List.nodup_range) hfirst
  · intro latch header back
    obtain ⟨around, hmem, rfl⟩ := List.mem_map.mp ((hloops.mem_header header).mpr ⟨latch, back⟩)
    have hl := hloops.sound around hmem
    have htogether := ho.together around ((List.perm_insertionSort before cfg.loops).mem_iff.mpr hmem)
    obtain ⟨before, inside, after, heq, hheader, hinside, hbefore, hafter⟩ := htogether
    refine ⟨before, inside, after, heq, ?_⟩
    intro b
    rw [← hl.blocks]
    constructor
    · intro hb
      cases List.mem_cons.mp hb with
      | inl hsame =>
          rw [hsame]
          exact of_decide_eq_true hheader
      | inr hrest => exact of_decide_eq_true (hinside b hrest)
    · intro hb
      have hlt := hv.lt_of_reached ((hl.blocks b).mp hb).reached
      have horder : b ∈ blockOrder f cfg.loops := ho.perm.mem_iff.mpr (List.mem_range.mpr hlt)
      rw [heq, List.mem_append, List.mem_append] at horder
      rcases horder with (hin | hin) | hin
      · exact absurd hb (of_decide_eq_false (hbefore b hin))
      · exact hin
      · exact absurd hb (of_decide_eq_false (hafter b hin))

theorem layoutHotBlocks_loops_nestedLoops :
    ∃ order, layoutHotBlocks nestedLoops = .ok (reorder nestedLoops order) ∧ order.Perm (List.range 5) ∧
      (reorder nestedLoops order).entry = 0 ∧
      ∀ latch header, Backedge (flow nestedLoops) nestedLoops.entry latch header →
        ∃ before inside after, order = before ++ header :: inside ++ after ∧
          ∀ b, b ∈ header :: inside ↔ InLoop (flow nestedLoops) nestedLoops.entry header b := by
  have hheaders := nestedLoops_analysed
  cases hcfg : controlFlow nestedLoops with
  | error e =>
      rw [hcfg] at hheaders
      cases hheaders
  | ok cfg =>
      rw [hcfg] at hheaders
      have hlength := congrArg List.length (Except.ok.inj hheaders)
      rw [List.length_map] at hlength
      exact layoutHotBlocks_loops nestedLoops_verified List.mem_cons_self hcfg (by rw [hlength]; decide)

end Disco.IR
