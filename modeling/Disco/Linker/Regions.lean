import Disco.Linker.Denotation

/-! # Memory regions of a linked image

The payload, the static RAM image, the selected framebuffer and the stack are
checked against each other by separate overlap tests. Seen as sets of
addresses, those tests keep every pair apart, and the stack floor keeps the
descending stack away from whatever lies below its first word.
-/

namespace Disco.Linker

open Library

/-! ## Regions -/

/-- The bytes of the payload at their execution addresses. -/
def payloadRegion (image : Image) : Set Nat :=
  Set.Ico image.origin (image.origin + image.payload.length)

/-- The static RAM image. -/
def staticRegion (options : Options) (image : Image) : Set Nat :=
  Set.Ico (ramBankStart options + options.ramOrigin)
    (ramBankStart options + options.ramOrigin + image.finalRam.length)

/-- The host framebuffer, when one is selected. -/
def framebufferRegion (image : Image) : Set Nat :=
  {address | image.config.bitmap.enabled = true ∧
    bitmapBegin image.config ≤ address ∧ address < bitmapEnd image.config}

/-- The stack, from its floor up to and including the initial stack word. -/
def stackRegion (options : Options) (image : Image) : Set Nat :=
  Set.Ico (ramBankStart options + image.stackFloor)
    (ramBankStart options + options.stackPointer + 2)

/-! ## What the checks say -/

theorem stackWord_eq (options : Options) :
    nearRamBank options ||| options.stackPointer = ramBankStart options + options.stackPointer := by
  have hle := options.stackPointer_le
  exact publicRamAddress_of_lt (by omega)

theorem ramStart_eq (options : Options) :
    nearRamBank options ||| options.ramOrigin = ramBankStart options + options.ramOrigin := by
  have hle := options.ramOrigin_le
  exact publicRamAddress_of_lt (by omega)

theorem reserveBelowStack_eq_ok {options : Options} {begins ends floor result : Nat}
    (h : reserveBelowStack options begins ends floor = .ok result) :
    floor ≤ result ∧
      (begins < ramBankStart options + options.stackPointer → ends > ramBankStart options →
        ends ≤ ramBankStart options + result) ∧
      (result = floor ∨ (begins < ramBankStart options + options.stackPointer ∧
        ends > ramBankStart options ∧
          (result = floor ∨ ramBankStart options + result = ends))) := by
  unfold reserveBelowStack at h
  rw [ramBankBase_eq] at h
  split at h
  · rename_i hbelow
    rw [bind_eq_ok] at h
    obtain ⟨reserved, hreserved, h⟩ := h
    obtain ⟨rfl, -⟩ := checkedAddress_eq_ok.mp hreserved
    cases h
    omega
  · rename_i hbelow
    cases h
    omega

/-- The lower bounds that make up the stack floor. -/
structure FloorAbove (options : Options) (image : Image) : Prop where
  staticRam : image.finalRam.length ≠ 0 →
    options.ramOrigin + image.finalRam.length ≤ image.stackFloor
  bitmap : image.config.bitmap.enabled = true →
    bitmapBegin image.config < ramBankStart options + options.stackPointer →
    bitmapEnd image.config > ramBankStart options →
      bitmapEnd image.config ≤ ramBankStart options + image.stackFloor
  payload : options.initializeRuntime = true → GsuMemoryMap.region image.origin = .ram →
    image.origin / 0x10000 = 0x70 + options.ramBank →
    image.origin < ramBankStart options + options.stackPointer →
    image.origin + image.payload.length > ramBankStart options →
      image.origin + image.payload.length ≤ ramBankStart options + image.stackFloor

/-- What the overlap tests of a link with generated startup exclude. -/
structure ChecksPassed (options : Options) (image : Image) : Prop where
  evenPointer : options.stackPointer % 2 = 0
  bitmapPayload : image.config.bitmap.enabled = true →
    ¬ overlapsBitmap image.config image.origin image.payload.length
  bitmapStatic : image.config.bitmap.enabled = true →
    ¬ overlapsBitmap image.config (ramBankStart options + options.ramOrigin) image.finalRam.length
  bitmapStack : image.config.bitmap.enabled = true →
    ¬ overlapsBitmap image.config (ramBankStart options + options.stackPointer) 2
  staticPayload : image.finalRam.length ≠ 0 →
    ¬ (ramBankStart options + options.ramOrigin < image.origin + image.payload.length ∧
      ramBankStart options + options.ramOrigin + image.finalRam.length > image.origin)
  staticStack : image.finalRam.length ≠ 0 →
    options.ramOrigin + image.finalRam.length < options.stackPointer
  stackPayload : ¬ (ramBankStart options + options.stackPointer <
      image.origin + image.payload.length ∧
    ramBankStart options + options.stackPointer + 2 > image.origin)

section Link

variable {options : Options} {image : Image} (hl : Linked options image)
  (hinit : options.initializeRuntime = true)

include hl hinit

theorem Linked.checksPassed : ChecksPassed options image := by
  have hoptions := hl.optionsChecked
  simp only [checkOptions, rejectIf_bind_eq_ok, rejectIf_eq_ok, hinit, true_and, not_or,
    not_not] at hoptions
  have hlength : image.payload.length = image.finalCode.length + image.finalData.length := by
    rw [Image.payload, List.length_append]
  have horigin : image.config.codeStartAddress.toNat = image.origin := rfl
  have hbitmap := hl.bitmap
  have hstatic := hl.staticRam
  have hword := (hl.entry hinit).stackWord
  rw [← hlength, checkBitmap, ramBankBase_eq] at hbitmap
  rw [← hlength, checkStaticRam, ramStart_eq] at hstatic
  rw [stackWord_eq, hl.dataStart] at hword
  refine ⟨hoptions.2.2.2.2, ?_, ?_, ?_, ?_, ?_, ?_⟩
  · intro he
    simp only [he, if_true, rejectIf_bind_eq_ok] at hbitmap
    exact hbitmap.1
  · intro he
    simp only [he, if_true, rejectIf_bind_eq_ok] at hbitmap
    exact hbitmap.2.1
  · intro he
    simp only [he, if_true, rejectIf_bind_eq_ok, rejectIf_eq_ok, hinit, true_and] at hbitmap
    exact hbitmap.2.2
  · intro hne
    rw [if_pos hne, rejectIf_bind_eq_ok] at hstatic
    exact hstatic.1
  · intro hne
    rw [if_pos hne, rejectIf_bind_eq_ok, rejectIf_eq_ok] at hstatic
    by_contra hge
    exact hstatic.2 ⟨hinit, by omega⟩
  · rw [hlength]
    rw [horigin] at hword
    omega

omit hl hinit in
/-- The framebuffer only raises the floor, never above the stack word. -/
theorem bitmapFloor_eq_ok {start floor : Nat}
    (h : bitmapFloor options image.config start = .ok floor) :
    start ≤ floor ∧ (image.config.bitmap.enabled = true →
      bitmapBegin image.config < ramBankStart options + options.stackPointer →
      bitmapEnd image.config > ramBankStart options →
        bitmapEnd image.config ≤ ramBankStart options + floor) ∧
      (ChecksPassed options image → start ≤ options.stackPointer →
        floor ≤ options.stackPointer) := by
  unfold bitmapFloor at h
  split at h
  · rename_i he
    obtain ⟨hle, hraise, hvalue⟩ := reserveBelowStack_eq_ok h
    refine ⟨hle, fun _ => hraise, ?_⟩
    intro hchecks hstart
    have hstack := hchecks.bitmapStack he
    unfold overlapsBitmap at hstack
    omega
  · rename_i he
    cases h
    exact ⟨Nat.le_refl _, fun hon => absurd hon he, fun _ h => h⟩

omit hl hinit in
/-- So does a payload in the stack's bank. -/
theorem payloadFloor_eq_ok {start floor : Nat}
    (h : payloadFloor options image.config image.payload.length start = .ok floor) :
    start ≤ floor ∧ (options.initializeRuntime = true →
      GsuMemoryMap.region image.origin = .ram →
      image.origin / 0x10000 = 0x70 + options.ramBank →
      image.origin < ramBankStart options + options.stackPointer →
      image.origin + image.payload.length > ramBankStart options →
        image.origin + image.payload.length ≤ ramBankStart options + floor) ∧
      (ChecksPassed options image → start ≤ options.stackPointer →
        floor ≤ options.stackPointer) := by
  unfold payloadFloor at h
  have horigin : image.config.codeStartAddress.toNat = image.origin := rfl
  rw [horigin] at h
  split at h
  · obtain ⟨hle, hraise, hvalue⟩ := reserveBelowStack_eq_ok h
    refine ⟨hle, fun _ _ _ => hraise, ?_⟩
    intro hchecks hstart
    have hstack := hchecks.stackPayload
    omega
  · rename_i hout
    cases h
    exact ⟨Nat.le_refl _, fun hi hram hbank => absurd ⟨hi, hram, hbank⟩ hout, fun _ h => h⟩

omit hinit in
theorem Linked.floorAbove : FloorAbove options image ∧
    (ChecksPassed options image → image.stackFloor ≤ options.stackPointer) := by
  have hlength : image.payload.length = image.finalCode.length + image.finalData.length := by
    rw [Image.payload, List.length_append]
  have hfloor := hl.stackFloor
  rw [← hlength, computeStackFloor, bind_eq_ok] at hfloor
  obtain ⟨middle, hmiddle, hfloor⟩ := hfloor
  obtain ⟨hfirst, hbitmap, hfirstUpper⟩ := bitmapFloor_eq_ok hmiddle
  obtain ⟨hsecond, hpayload, hsecondUpper⟩ := payloadFloor_eq_ok hfloor
  unfold staticFloor at hfirst hfirstUpper
  refine ⟨⟨?_, ?_, hpayload⟩, ?_⟩
  · intro hne
    rw [if_neg hne] at hfirst
    omega
  · intro he hbegin hend
    have hraised := hbitmap he hbegin hend
    omega
  · intro hchecks
    refine hsecondUpper hchecks (hfirstUpper hchecks ?_)
    split
    · omega
    · rename_i hne
      have hbelow := hchecks.staticStack hne
      have heven := hchecks.evenPointer
      omega

end Link

/-! ## Disjointness -/

/-- Four regions that share no address. -/
structure RegionsDisjoint (options : Options) (image : Image) : Prop where
  payloadStatic : Disjoint (payloadRegion image) (staticRegion options image)
  payloadFramebuffer : Disjoint (payloadRegion image) (framebufferRegion image)
  payloadStack : Disjoint (payloadRegion image) (stackRegion options image)
  staticFramebuffer : Disjoint (staticRegion options image) (framebufferRegion image)
  staticStack : Disjoint (staticRegion options image) (stackRegion options image)
  framebufferStack : Disjoint (framebufferRegion image) (stackRegion options image)

theorem regionsDisjoint {options : Options} {image : Image}
    (hinit : options.initializeRuntime = true) (hfloor : FloorAbove options image)
    (hchecks : ChecksPassed options image)
    (hpayload : image.origin % 0x10000 + image.payload.length ≤ 0x10000) :
    RegionsDisjoint options image := by
  have hpointer := options.stackPointer_le
  have hbank := options.ramBank_le
  refine ⟨?_, ?_, ?_, ?_, ?_, ?_⟩
  · apply Set.disjoint_left.mpr
    intro address hp hs
    simp only [payloadRegion, staticRegion, Set.mem_Ico] at hp hs
    have hclear := hchecks.staticPayload (by omega)
    omega
  · apply Set.disjoint_left.mpr
    intro address hp hf
    simp only [payloadRegion, framebufferRegion, Set.mem_Ico, Set.mem_ofPred_eq] at hp hf
    have hclear := hchecks.bitmapPayload hf.1
    unfold overlapsBitmap at hclear
    omega
  · apply Set.disjoint_left.mpr
    intro address hp hs
    simp only [payloadRegion, stackRegion, Set.mem_Ico] at hp hs
    have hclear := hchecks.stackPayload
    -- An address of the stack lies in the near bank, so the payload does too.
    have hsame : image.origin / 0x10000 = 0x70 + options.ramBank := by
      unfold ramBankStart at hs
      omega
    have hregion : GsuMemoryMap.region image.origin = .ram := by
      rw [GsuMemoryMap.region_eq_ram]
      omega
    have hraised := hfloor.payload hinit hregion hsame
    omega
  · apply Set.disjoint_left.mpr
    intro address hs hf
    simp only [staticRegion, framebufferRegion, Set.mem_Ico, Set.mem_ofPred_eq] at hs hf
    have hclear := hchecks.bitmapStatic hf.1
    unfold overlapsBitmap at hclear
    omega
  · apply Set.disjoint_left.mpr
    intro address hs hk
    simp only [staticRegion, stackRegion, Set.mem_Ico] at hs hk
    have habove := hfloor.staticRam (by omega)
    omega
  · apply Set.disjoint_left.mpr
    intro address hf hk
    simp only [framebufferRegion, stackRegion, Set.mem_Ico, Set.mem_ofPred_eq] at hf hk
    have hclear := hchecks.bitmapStack hf.1
    have hraised := hfloor.bitmap hf.1
    unfold overlapsBitmap at hclear
    omega

/-! ## Stack limits -/

/-- A stack-limit reference resolves to the floor plus the bytes it asks for,
which is no higher than the initial stack pointer. -/
def StackLimitResolved (options : Options) (image : Image) (object : ObjectFile) (bases : Bases)
    (relocation : RelocationEntry) (required : Nat) : Prop :=
  parseOptionNumber (relocation.targetSymbolName.drop stackLimitPrefix.length) 65535 =
      .ok required ∧
    resolve (image.context options) object bases relocation =
      .ok ⟨ramBankStart options + (image.stackFloor + required), .ram, false⟩ ∧
    image.HasOperand bases relocation (image.stackFloor + required) ∧
    image.stackFloor + required ≤ options.stackPointer

theorem Linked.stackLimit {options : Options} {image : Image} (hl : Linked options image)
    (hinit : options.initializeRuntime = true) {i : Nat} {object : ObjectFile} {base : Bases}
    (ho : image.objects[i]? = some object) (hb : image.bases[i]? = some base)
    {relocation : RelocationEntry} (hr : relocation ∈ object.relocationTable)
    (hname : stackLimitPrefix.isPrefixOf relocation.targetSymbolName = true) :
    ∃ required, StackLimitResolved options image object base relocation required := by
  obtain ⟨target, ht, -⟩ :=
    hl.accepted (object, base) (List.mem_of_getElem? (image.item ho hb)) relocation hr
  obtain ⟨tail, htail⟩ := List.isPrefixOf_iff_prefix.mp hname
  cases resolvedAs_of_resolve ht with
  | privateSymbol _ _ _ hprivate =>
      rw [← htail] at hprivate
      cases hprivate
  | stackLimit suffix required hlimit hrequired htype hroom hpointer htarget =>
      have haddress : target.address =
          ramBankStart options + (image.stackFloor + required) := by
        rw [htarget, ← Nat.add_assoc, ← ramBankBase_eq]
        rfl
      have hfits : image.stackFloor + required ≤ options.stackPointer := hpointer hinit
      have hoperand := hl.hasOperand ho hb hr ht (by simp [htype])
      have hlow : target.address % 0x10000 = image.stackFloor + required := by
        have hle := options.stackPointer_le
        rw [haddress, ramBankStart]
        omega
      rw [hlow] at hoperand
      refine ⟨required, ?_, ?_, hoperand, hfits⟩
      · rw [hlimit, List.drop_left]
        exact hrequired
      · rw [ht, ← haddress, htarget]
  | nearRamBank hnear =>
      rw [hnear] at htail
      exact absurd (List.prefix_append stackLimitPrefix tail) (by rw [htail]; decide)
  | nearRomBank hnear =>
      rw [hnear] at htail
      exact absurd (List.prefix_append stackLimitPrefix tail) (by rw [htail]; decide)
  | publicSymbol definition _ hlookup _ =>
      obtain ⟨hmem, hdefined⟩ := (lookup_eq_some hl.uniqueNames).mp hlookup
      obtain ⟨j, other, next, symbol, hj, -, hm, -, rfl⟩ := hl.mem_definitions.mp hmem
      have hreserved := hl.symbol_not_reserved hj hm
      have hsymbol : symbol.name = relocation.targetSymbolName := hdefined
      rw [hsymbol] at hreserved
      simp [isReserved, hname] at hreserved

/-- The bytes a frame uses: from below `sp` by what it consumes up to and
including the word at `sp`, since a push stores before it decrements. -/
def frameRegion (options : Options) (sp used : Nat) : Set Nat :=
  Set.Ico (ramBankStart options + (sp - used)) (ramBankStart options + sp + 2)

theorem frameRegion_subset {options : Options} {image : Image} {required sp used : Nat}
    (hlimit : image.stackFloor + required ≤ sp) (hsp : sp ≤ options.stackPointer)
    (hused : used ≤ required) :
    frameRegion options sp used ⊆ stackRegion options image := by
  intro address h
  simp only [frameRegion, stackRegion, Set.mem_Ico] at h ⊢
  omega

/-- The regions of a linked image never collide. In every successful GSU link
with generated startup the payload, the static RAM, the framebuffer and the
stack are pairwise disjoint; every stack-limit reference holds the floor plus
the bytes it requires, no higher than the initial stack pointer; and a frame
that starts at or above that limit and uses no more than those bytes stays
clear of the other regions. -/
theorem runLinker_regions {generate : ObjectFile → Except String String} {options : Options}
    {files : List (String × Bytes)} {image : Image}
    (h : runLinker generate options files = .ok image) (hgsu : image.config.target = .gsu)
    (hinit : options.initializeRuntime = true) :
    RegionsDisjoint options image ∧ image.stackFloor ≤ options.stackPointer ∧
      ∀ (i : Nat) (object : ObjectFile) (base : Bases), image.objects[i]? = some object →
        image.bases[i]? = some base → ∀ relocation ∈ object.relocationTable,
          stackLimitPrefix.isPrefixOf relocation.targetSymbolName = true →
            ∃ required, StackLimitResolved options image object base relocation required ∧
              ∀ sp used, image.stackFloor + required ≤ sp → sp ≤ options.stackPointer →
                used ≤ required →
                  Disjoint (frameRegion options sp used) (payloadRegion image) ∧
                  Disjoint (frameRegion options sp used) (staticRegion options image) ∧
                  Disjoint (frameRegion options sp used) (framebufferRegion image) := by
  have hl := (linked_of_runLinker h).1
  have hchecks := hl.checksPassed hinit
  obtain ⟨hfloor, hupper⟩ := hl.floorAbove
  have hfits := (GsuMemoryMap.validatePayload_eq_ok.mp (hl.payload hgsu)).2
  have hlength : image.payload.length = image.finalCode.length + image.finalData.length := by
    rw [Image.payload, List.length_append]
  have hregions := regionsDisjoint hinit hfloor hchecks (by omega)
  refine ⟨hregions, hupper hchecks, ?_⟩
  intro i object base ho hb relocation hr hname
  obtain ⟨required, hrequired⟩ := hl.stackLimit hinit ho hb hr hname
  refine ⟨required, hrequired, ?_⟩
  intro sp used hlimit hsp hused
  have hsubset := frameRegion_subset hlimit hsp hused
  exact ⟨(hregions.payloadStack.mono_right hsubset).symm,
    (hregions.staticStack.mono_right hsubset).symm,
    (hregions.framebufferStack.mono_right hsubset).symm⟩

/-- RAM code with a static word, a framebuffer and a frame of 64 bytes. -/
def framedProgram : ObjectFile where
  codeSection := [0xf0, 0, 0]
  ramSection := [7, 0]
  symbolTable := [⟨nameOf "main", .code, 0⟩]
  relocationTable := [⟨nameOf "__disco_stack_limit_64", .code, 0, .addr16Ram⟩]
  config := { codeStartAddress := 0x700800, bitmap := { enabled := true, base := 0x4000 } }

theorem framedProgram_regions :
    ∃ image, runLinker (fun _ => .ok "") { initializeRuntime := true }
        [("framed.o", framedProgram.encode)] = .ok image ∧ image.stackFloor = 0x822 ∧
      RegionsDisjoint { initializeRuntime := true } image := by
  have hrun : (runLinker (fun _ => .ok "") { initializeRuntime := true }
      [("framed.o", framedProgram.encode)]).toOption.map
        (fun image => (image.stackFloor, image.config.target)) = some (0x822, .gsu) := by
    decide +kernel
  cases hlink : runLinker (fun _ => .ok "") { initializeRuntime := true }
      [("framed.o", framedProgram.encode)] with
  | error message =>
      rw [hlink] at hrun
      cases hrun
  | ok image =>
      rw [hlink] at hrun
      simp only [Except.toOption, Option.map_some, Option.some.injEq, Prod.mk.injEq] at hrun
      exact ⟨image, rfl, hrun.1, (runLinker_regions hlink hrun.2 rfl).1⟩

end Disco.Linker
