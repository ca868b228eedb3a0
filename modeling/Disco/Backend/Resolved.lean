import Disco.Backend.Addressing

/-! # Resolved names

A name that the analyzer has bound is addressed as the storage of its declaration.
The generator looks for RAM data of the same spelling first, which finds another
declaration where a parameter is spelled like the data; and it rounds the address of
a pointer to the alignment that is noted for the struct behind it.
-/

namespace Disco.Backend

open IR Library Gsu Frontend

/-! ## Addresses in the frame -/

/-- What the code of a local leaves in R0. -/
def frameValue (symbol : LocalSymbol) (frame : Word) : Word :=
  if symbol.type.alignment > 2 then roundUp symbol.type.alignment (frame + BitVec.ofInt 16 symbol.stackOffset)
  else frame + BitVec.ofInt 16 symbol.stackOffset

theorem Normal.isAlignment {type : Ty} (h : Normal type) (hlarge : type.alignment > 2) :
    type.base = .struct ∧ IsAlignment type.alignment := by
  rcases h with hzero | hstruct
  · omega
  · exact hstruct

theorem performs_frameAddress {program : Program} {held : Word → Byte → Prop} {core : Core} {optimized : Bool}
    {symbol : LocalSymbol} {code : Bytes} (hnormal : Normal symbol.type)
    (hcode : emitFrameAddress optimized symbol = .ok code) (h : core.Unselected) (hclear : core.pcWritten = false) :
    Performs program held code core (Accumulated core (frameValue symbol (core.registers 9))) := by
  unfold emitFrameAddress at hcode
  rcases bind_eq_ok.mp hcode with ⟨displacement, hdisplacement, hcode⟩
  rcases bind_eq_ok.mp hcode with ⟨rounding, hrounding, hcode⟩
  cases hcode
  have hmove : Performs program held (emitMove 0 9) core (Accumulated core (core.registers 9)) :=
    performs_move h hclear (show (9 : Fin 16) ≠ 15 by decide)
  refine (hmove.append fun _ hmoved => performs_displacement hmoved hdisplacement).append fun between hbetween => ?_
  unfold frameValue
  by_cases hlarge : symbol.type.alignment > 2
  · rw [if_pos hlarge]
    exact performs_rounding hbetween (Normal.isAlignment hnormal hlarge).2 hlarge hrounding
  · unfold emitRounding at hrounding
    rw [if_neg hlarge] at hrounding ⊢
    cases hrounding
    exact Performs.nil hbetween

theorem frameAddress_ok (optimized : Bool) (symbol : LocalSymbol) : ∃ code, emitFrameAddress optimized symbol = .ok code := by
  rcases displacement_ok optimized symbol.stackOffset with ⟨displacement, hdisplacement⟩
  rcases rounding_ok optimized symbol.type.alignment with ⟨rounding, hrounding⟩
  unfold emitFrameAddress
  rw [hdisplacement, ok_bind, hrounding]
  exact ⟨_, rfl⟩

/-- An even frame and an even offset, added. -/
theorem even_displaced {frame : Word} {offset : Int} (hframe : frame.toNat % 2 = 0) (hoffset : offset % 2 = 0) :
    ((frame + BitVec.ofInt 16 offset).toNat : Int) % 2 = 0 := by
  rw [BitVec.toNat_add, BitVec.toNat_ofInt]
  omega

theorem frameValue_eq {symbol : LocalSymbol} (hnormal : Normal symbol.type) (heven : symbol.stackOffset % 2 = 0)
    (h : symbol.type.pointerLevel ≤ 0 ∨ symbol.type.alignment ≤ 2) {frame : Word} (hframe : frame.toNat % 2 = 0) :
    frameValue symbol frame =
      roundUp (storageAlignment symbol.type) (frame + BitVec.ofInt 16 symbol.stackOffset) := by
  have hplace := even_displaced hframe heven
  unfold frameValue
  by_cases hlarge : symbol.type.alignment > 2
  · have hstruct := (Normal.isAlignment hnormal hlarge).1
    have hstorage : storageAlignment symbol.type = symbol.type.alignment := by
      unfold storageAlignment
      rw [if_neg (by omega), if_neg (by simp [hstruct]), if_pos ⟨hstruct, by omega⟩]
    rw [if_pos hlarge, hstorage]
  · have hsmall : storageAlignment symbol.type = 1 ∨ storageAlignment symbol.type = 2 := by
      unfold storageAlignment
      split
      · exact .inr rfl
      · split
        · exact .inl rfl
        · split
          · omega
          · exact .inr rfl
    rw [if_neg hlarge]
    rcases hsmall with hone | htwo
    · rw [hone, roundUp_of_dvd (by decide) (Int.emod_one _)]
    · rw [htwo, roundUp_of_dvd (by decide) hplace]

/-- A pointer that is rounded like the struct behind it is missed in some frame. -/
theorem frameValue_ne {symbol : LocalSymbol} (hnormal : Normal symbol.type) (heven : symbol.stackOffset % 2 = 0)
    (hpointer : symbol.type.pointerLevel > 0) (hlarge : symbol.type.alignment > 2) : ∃ frame : Word,
    frame.toNat % 2 = 0 ∧ frameValue symbol frame ≠
      roundUp (storageAlignment symbol.type) (frame + BitVec.ofInt 16 symbol.stackOffset) := by
  have hframe : (2 - BitVec.ofInt 16 symbol.stackOffset + BitVec.ofInt 16 symbol.stackOffset : Word) = 2 := by
    rw [BitVec.sub_add_cancel]
  refine ⟨2 - BitVec.ofInt 16 symbol.stackOffset, ?_, ?_⟩
  · rw [BitVec.toNat_sub, BitVec.toNat_ofInt]
    have : (2 : Word).toNat = 2 := rfl
    omega
  · have hstorage : storageAlignment symbol.type = 2 := by
      unfold storageAlignment
      rw [if_pos hpointer]
    unfold frameValue
    rw [if_pos hlarge, hframe, hstorage]
    rcases (Normal.isAlignment hnormal hlarge).2 with ⟨k, hk, hpower⟩
    rw [hpower] at hlarge ⊢
    interval_cases k <;> first | omega | decide

/-! ## Lengths -/

theorem chunks_length (base : UInt8) (remaining : Nat) : (emitChunks base remaining).length = 2 * ((remaining + 14) / 15) := by
  induction remaining using Nat.strong_induction_on with
  | _ remaining ih =>
      unfold emitChunks
      split
      · rename_i hzero
        rw [hzero]
        rfl
      · have := ih (remaining - min remaining 15) (by omega)
        simp only [List.length_cons]
        omega

theorem registerLiteral_length (optimized : Bool) (register : UInt8) (value : Nat) :
    (emitRegisterLiteral optimized register value).length ≤ 3 := by
  unfold emitRegisterLiteral RuntimeInitialization.literal RuntimeInitialization.word
  split
  · split <;> simp
  · simp

theorem immediate_length {optimized : Bool} {base : UInt8} {value : Int} {code : Bytes}
    (h : emitImmediateArithmetic optimized base value = .ok code) : code.length ≤ value.toNat / 4 + 4 := by
  unfold emitImmediateArithmetic at h
  split at h
  · cases h
  · split at h
    · cases h
      have := registerLiteral_length optimized 3 value.toNat
      simp only [List.length_append, List.length_singleton]
      omega
    · cases h
      have := chunks_length base value.toNat
      omega

theorem frameAddress_length {optimized : Bool} {symbol : LocalSymbol} {code : Bytes} (hnormal : Normal symbol.type)
    (hoffset : -65536 < symbol.stackOffset ∧ symbol.stackOffset < 65536)
    (h : emitFrameAddress optimized symbol = .ok code) : code.length < 65535 := by
  unfold emitFrameAddress at h
  rcases bind_eq_ok.mp h with ⟨displacement, hdisplacement, h⟩
  rcases bind_eq_ok.mp h with ⟨rounding, hrounding, h⟩
  cases h
  have hfirst : displacement.length ≤ 16388 := by
    unfold emitDisplacement at hdisplacement
    split at hdisplacement
    · have := immediate_length hdisplacement
      omega
    · split at hdisplacement
      · have := immediate_length hdisplacement
        omega
      · cases hdisplacement
        exact Nat.zero_le _
  have hsecond : rounding.length ≤ 100 := by
    unfold emitRounding at hrounding
    split at hrounding
    · rename_i hlarge
      rcases bind_eq_ok.mp hrounding with ⟨up, hup, hrounding⟩
      cases hrounding
      have hup := immediate_length hup
      have hmask := registerLiteral_length optimized 3 (65535 - (symbol.type.alignment - 1).toNat)
      have halignment : symbol.type.alignment ≤ 128 := by
        rcases (Normal.isAlignment hnormal hlarge).2 with ⟨k, hk, hpower⟩
        rw [hpower]
        interval_cases k <;> decide
      simp only [List.length_append, List.length_singleton]
      omega
    · cases hrounding
      exact Nat.zero_le _
  simp only [List.length_append, emitMove, List.length_cons, List.length_nil]
  omega

/-! ## What an emission denotes -/

theorem denotes_symbol (name : Name) (type : RelocationType) (position : Nat) :
    (emitSymbol name type position).Denotes (.linked name) := by
  refine ⟨⟨_, List.mem_singleton_self _, rfl⟩, ?_, ?_⟩
  · intro relocation hrelocation
    cases List.mem_singleton.mp hrelocation
    rfl
  · intro program held core address h hclear _
    have hpatched : (emitSymbol name type position).patched address = RuntimeInitialization.word (UInt8.ofNat (0 : Fin 16).val) address := rfl
    have hdone : (core.write 0 (BitVec.ofNat 16 address)).resetSelectors.pcWritten = false :=
      write_clear (by decide) hclear (BitVec.ofNat 16 address)
    rw [hpatched]
    exact performs_word (by decide) address h.alt1 h.alt2
      ((Accumulated.initial h hclear).written (.inl rfl) (BitVec.ofNat 16 address) rfl rfl (unselected_reset _) hdone)

theorem not_denotes_symbol (name : Name) (type : RelocationType) (position : Nat) (offset alignment : Int) :
    ¬ (emitSymbol name type position).Denotes (.frame offset alignment) :=
  fun h => List.cons_ne_nil _ _ h.1

theorem denotes_frame {optimized : Bool} {symbol : LocalSymbol} {code : Bytes} (hnormal : Normal symbol.type)
    (heven : symbol.stackOffset % 2 = 0) (hoffset : -65536 < symbol.stackOffset ∧ symbol.stackOffset < 65536)
    (hcode : emitFrameAddress optimized symbol = .ok code) :
    Emission.Denotes ⟨code, []⟩ (.frame symbol.stackOffset (storageAlignment symbol.type)) ↔
      (symbol.type.pointerLevel ≤ 0 ∨ symbol.type.alignment ≤ 2) := by
  constructor
  · rintro ⟨-, h⟩
    by_contra hover
    rcases frameValue_ne hnormal heven (by omega) (by omega) with ⟨frame, hframe, hne⟩
    -- a machine whose frame pointer is that frame
    let core : Core := { registers := fun _ => frame, ram := fun _ => 0 }
    have hunselected : core.Unselected := ⟨rfl, rfl, rfl, rfl, rfl⟩
    obtain ⟨after, after', hafter, hafter', hsame⟩ := Performs.determined (frameAddress_length hnormal hoffset hcode) rfl
      (fun program held => performs_frameAddress hnormal hcode hunselected rfl)
      (fun program held => h program held core hunselected rfl hframe)
    exact hne (hafter.value.symm.trans ((hsame 0 (by decide)).trans hafter'.value))
  · intro hlevel
    refine ⟨rfl, ?_⟩
    intro program held core h hclear hframe
    rw [← frameValue_eq hnormal heven hlevel hframe]
    exact performs_frameAddress hnormal hcode h hclear

/-! ## References -/

/-- The address instruction of a name. -/
def addressOf (reference : Reference) : Instruction where
  opcode := .address
  symbol := reference.name
  symbolId := reference.symbolId

/-- The generator works on a file, and on a function whose locals are laid out. -/
structure AddressGenerator.Serves (g : AddressGenerator) (file : FileNames) (function : AnalyzedFunction) : Prop where
  entries : g.entries = file.entries
  functions : g.functions = file.functions
  /-- The locals are in the frame, except arrays that are kept in a pool. -/
  layout : ∀ entry ∈ function.locals, g.function.immutableLocalArrays.contains entry.1 = false →
    ∃ symbol, g.symbols.find entry.1 = some symbol ∧ symbol.type = entry.2.symbol.type ∧
      symbol.stackOffset % 2 = 0 ∧ -65536 < symbol.stackOffset ∧ symbol.stackOffset < 65536
  pools : ∀ id, g.function.immutableLocalArrays.contains id = true → id ≠ 0 ∧
    ∀ found, (id, found) ∈ function.locals → found.isParameter = false

/-- Where the declaration that a reference is bound to is kept; a constant is not kept. -/
def AddressGenerator.storageOf (g : AddressGenerator) (reference : Reference) : Option Storage :=
  match reference.binding with
  | .slot id =>
      if g.function.immutableLocalArrays.contains id = true then some (.linked (poolName g.function id))
      else (g.symbols.find id).map fun symbol => .frame symbol.stackOffset (storageAlignment symbol.type)
  | .constant => none
  | .data entry => some (.linked entry.linkName)

/-- A parameter that is spelled like RAM data, or a pointer in the frame to a struct of
a large alignment. -/
def AddressGenerator.Misses (g : AddressGenerator) (file : FileNames) (function : AnalyzedFunction)
    (reference : Reference) : Prop :=
  ∃ id found, reference.binding = .slot id ∧ (id, found) ∈ function.locals ∧
    ((found.isParameter = true ∧ ∃ entry, file.entries.lookup reference.name = some entry ∧ entry.storage = .ram) ∨
      (g.function.immutableLocalArrays.contains id = false ∧
        found.symbol.type.pointerLevel > 0 ∧ found.symbol.type.alignment > 2))

section Resolution

variable {file : FileNames} {function : AnalyzedFunction} {g : AddressGenerator} {reference : Reference} {position : Nat}

/-- RAM data is found by its spelling. -/
theorem emitAddress_ram {entry : DataEntry} (hg : g.entries = file.entries)
    (hentry : file.entries.lookup reference.name = some entry) (hram : entry.storage = .ram) :
    emitAddress g (addressOf reference) position = .ok (emitSymbol entry.linkName .addr16Ram position) := by
  have hfilter : (file.entries.lookup reference.name).filter (fun entry => decide (entry.storage = .ram)) = some entry := by
    rw [hentry]
    simp [hram]
  unfold emitAddress addressOf
  simp only [hg, hfilter]

/-- Any other name is found by its identity. -/
theorem emitAddress_other (hg : g.entries = file.entries)
    (hother : ∀ entry, file.entries.lookup reference.name = some entry → entry.storage ≠ .ram) :
    emitAddress g (addressOf reference) position =
      if g.function.immutableLocalArrays.contains reference.symbolId = true then
        .ok (emitSymbol (poolName g.function reference.symbolId) .addr16Ram position)
      else if reference.symbolId ≠ 0 then
        match g.symbols.find reference.symbolId with
        | some symbol => do
            let code ← emitFrameAddress g.optimized symbol
            pure ⟨code, []⟩
        | none => .error "IR codegen: local symbol ID is not present in the current function."
      else
        match (g.entries.lookup reference.name).map DataEntry.linkName <|>
            (g.functions.lookup reference.name).map FunctionSymbol.linkName with
        | some name => .ok (emitSymbol name .addr16Iwt position)
        | none => .error ("IR codegen: unknown address symbol '" ++ reference.name ++ "'.") := by
  have hfilter : (file.entries.lookup reference.name).filter (fun entry => decide (entry.storage = .ram)) = none := by
    cases hentry : file.entries.lookup reference.name with
    | none => rfl
    | some entry => simp [hother entry hentry]
  unfold emitAddress addressOf
  simp only [hg, hfilter]
  all_goals rfl

theorem address_data (hfile : file.Sound) (hg : g.Serves file function) {entry : DataEntry}
    (hbound : reference.Bound file function.locals) (hbinding : reference.binding = .data entry) :
    ∃ emission, emitAddress g (addressOf reference) position = .ok emission ∧ emission.Denotes (.linked entry.linkName) := by
  unfold Reference.Bound at hbound
  rw [hbinding] at hbound
  rcases hbound with ⟨hentry, hid⟩
  rcases hfile.entries _ _ hentry with hram | ⟨hrom, hzero⟩
  · exact ⟨_, emitAddress_ram hg.entries hentry hram, denotes_symbol _ _ _⟩
  · have hnone : reference.symbolId = 0 := by omega
    have hpool : g.function.immutableLocalArrays.contains 0 = false := by
      by_contra hpool
      exact (hg.pools 0 (by simpa using hpool)).1 rfl
    have hother : ∀ other, file.entries.lookup reference.name = some other → other.storage ≠ .ram := by
      intro other hlookup
      cases hentry.symm.trans hlookup
      rw [hrom]
      decide
    refine ⟨_, ?_, denotes_symbol entry.linkName .addr16Iwt position⟩
    rw [emitAddress_other hg.entries hother, hnone, hpool, hg.entries, hentry]
    rfl

theorem address_local (hfunction : function.Sound file) (hg : g.Serves file function) {id : Nat} {found : LocalName}
    (hfound : (id, found) ∈ function.locals) (hid : reference.symbolId = id)
    (hother : ∀ entry, file.entries.lookup reference.name = some entry → entry.storage ≠ .ram) {storage : Storage}
    (hbinding : reference.binding = .slot id) (hstorage : g.storageOf reference = some storage) :
    (∃ emission, emitAddress g (addressOf reference) position = .ok emission ∧ emission.Denotes storage) ↔
      ¬ (g.function.immutableLocalArrays.contains id = false ∧
        found.symbol.type.pointerLevel > 0 ∧ found.symbol.type.alignment > 2) := by
  unfold AddressGenerator.storageOf at hstorage
  rw [hbinding] at hstorage
  simp only at hstorage
  rw [emitAddress_other hg.entries hother, hid]
  by_cases hpool : g.function.immutableLocalArrays.contains id = true
  · rw [if_pos hpool] at hstorage
    cases hstorage
    rw [if_pos hpool]
    refine iff_of_true ⟨_, rfl, denotes_symbol _ _ _⟩ fun h => ?_
    rw [hpool] at h
    exact absurd h.1 (by decide)
  · rw [if_neg hpool] at hstorage
    have hkept : g.function.immutableLocalArrays.contains id = false := by simpa using hpool
    rcases hg.layout _ hfound hkept with ⟨symbol, hsymbol, htype, heven, hoffset⟩
    have hsound := hfunction.locals _ hfound
    have hnormal : Normal symbol.type := htype ▸ hsound.normal
    rcases frameAddress_ok g.optimized symbol with ⟨code, hcode⟩
    have hpositive := hfunction.ids _ hfound
    rw [hsymbol] at hstorage
    cases hstorage
    rw [if_neg hpool, if_pos (by omega), hsymbol]
    simp only [hcode, ok_bind, pure_eq_ok, hkept, true_and]
    rw [← htype]
    have hiff := denotes_frame hnormal heven hoffset hcode
    constructor
    · rintro ⟨emission, hemission, hdenotes⟩ ⟨hpointer, hlarge⟩
      cases hemission
      have := hiff.mp hdenotes
      omega
    · intro h
      exact ⟨_, rfl, hiff.mpr (by omega)⟩

end Resolution

/-- A name of an accepted file is addressed as the storage of its declaration, unless a
parameter hides RAM data or a pointer in the frame has the alignment of a struct. -/
theorem address_resolved_iff {types : TypeNames} {file : List TopLevel} {analysis : Analysis}
    (h : analyzeFile types file = .ok analysis) {function : AnalyzedFunction} (hfunction : function ∈ analysis.functions)
    {reference : Reference} (hreference : reference ∈ function.references) {g : AddressGenerator}
    (hg : g.Serves analysis.names function) {storage : Storage} (hstorage : g.storageOf reference = some storage)
    (position : Nat) :
    (∃ emission, emitAddress g (addressOf reference) position = .ok emission ∧ emission.Denotes storage) ↔
      ¬ g.Misses analysis.names function reference := by
  have hsound := analyzeFile_sound h
  have hlocal := hsound.2 function hfunction
  have hbound := hlocal.references reference hreference
  cases hbinding : reference.binding with
  | constant =>
      unfold AddressGenerator.storageOf at hstorage
      rw [hbinding] at hstorage
      cases hstorage
  | data entry =>
      unfold AddressGenerator.storageOf at hstorage
      rw [hbinding] at hstorage
      cases hstorage
      refine iff_of_true (address_data hsound.1 hg hbound hbinding) ?_
      rintro ⟨id, found, hslot, -⟩
      cases hbinding.symm.trans hslot
  | slot id =>
      unfold Reference.Bound at hbound
      rw [hbinding] at hbound
      rcases hbound with ⟨hid, found, hfound, hname⟩
      -- an identity belongs to one local
      have honly : ∀ id' other, reference.binding = .slot id' → (id', other) ∈ function.locals → other = found := by
        intro id' other hslot hother
        cases hbinding.symm.trans hslot
        have hpair := List.inj_on_of_nodup_map hlocal.nodup hother hfound rfl
        exact congrArg Prod.snd hpair
      by_cases hdata : ∃ entry, analysis.names.entries.lookup reference.name = some entry ∧ entry.storage = .ram
      · rcases hdata with ⟨entry, hentry, hram⟩
        have hparameter : found.isParameter = true := by
          by_contra hlocal'
          have hfresh := (hlocal.locals _ hfound).fresh (by simpa using hlocal')
          rw [hname] at hfresh
          cases hfresh.symm.trans hentry
        refine iff_of_false ?_ (not_not_intro ⟨id, found, hbinding, hfound, .inl ⟨hparameter, entry, hentry, hram⟩⟩)
        rintro ⟨emission, hemission, hdenotes⟩
        cases (emitAddress_ram hg.entries hentry hram).symm.trans hemission
        unfold AddressGenerator.storageOf at hstorage
        rw [hbinding] at hstorage
        simp only at hstorage
        by_cases hpool : g.function.immutableLocalArrays.contains id = true
        · rw [(hg.pools id hpool).2 found hfound] at hparameter
          cases hparameter
        · rw [if_neg hpool] at hstorage
          obtain ⟨symbol, -, hframe⟩ := Option.map_eq_some_iff.mp hstorage
          rw [← hframe] at hdenotes
          exact not_denotes_symbol _ _ _ _ _ hdenotes
      · have hother : ∀ entry, analysis.names.entries.lookup reference.name = some entry → entry.storage ≠ .ram :=
          fun entry hentry hram => hdata ⟨entry, hentry, hram⟩
        rw [address_local hlocal hg hfound hid hother hbinding hstorage]
        refine not_congr ⟨fun hover => ⟨id, found, hbinding, hfound, .inr hover⟩, ?_⟩
        rintro ⟨id', other, hslot, hmember, hparameter | hover⟩
        · exact absurd hparameter.2 hdata
        · have hid' : id' = id := by
            cases hbinding.symm.trans hslot
            rfl
          rw [honly id' other hslot hmember, hid'] at hover
          exact hover

/-! ## A parameter and data of one name -/

def writtenWord : WrittenType where
  type := { base := .word, sizeInBytes := 2 }
  unaligned := rfl

/-- `word counter; void f(word counter, word other) { counter; other; }` -/
def shadowedFile : List TopLevel := [
  .global { name := "counter" },
  .function {
    name := "f"
    params := [("counter", writtenWord), ("other", writtenWord)]
    body := [.evaluate ["counter", "other"]] }]

def shadowedNames : FileNames where
  aliases := builtinTypeAliases
  functions := [("f", ⟨[102], .external, true⟩)]
  entries := [("counter", ⟨.ram, nameOf "counter", false, 1⟩)]
  nextId := 2

def shadowedFunction : AnalyzedFunction where
  name := "f"
  locals := [(3, ⟨"other", ⟨writtenWord.type, 8, 3⟩, true⟩), (2, ⟨"counter", ⟨writtenWord.type, 6, 2⟩, true⟩)]
  references := [⟨"counter", 2, .slot 2⟩, ⟨"other", 3, .slot 3⟩]

theorem shadowed_accepted : analyzeFile {} shadowedFile = .ok ⟨shadowedNames, [shadowedFunction]⟩ := rfl

def shadowedGenerator : AddressGenerator where
  optimized := false
  entries := shadowedNames.entries
  functions := shadowedNames.functions
  function := { name := "f" }
  symbols := ⟨[(2, ⟨writtenWord.type, 6, 2⟩), (3, ⟨writtenWord.type, 8, 3⟩)], by decide⟩

theorem shadowed_serves : shadowedGenerator.Serves shadowedNames shadowedFunction where
  entries := rfl
  functions := rfl
  layout := by
    intro entry hentry _
    simp only [shadowedFunction, List.mem_cons, List.not_mem_nil, or_false] at hentry
    rcases hentry with rfl | rfl
    · exact ⟨_, rfl, rfl, by decide, by decide, by decide⟩
    · exact ⟨_, rfl, rfl, by decide, by decide, by decide⟩
  pools := by
    intro id hid
    cases hid

theorem address_resolved_other : ∃ emission,
    emitAddress shadowedGenerator (addressOf ⟨"other", 3, .slot 3⟩) 0 = .ok emission ∧ emission.Denotes (.frame 8 2) := by
  refine (address_resolved_iff shadowed_accepted (List.mem_singleton_self _) (List.mem_cons_of_mem _ (List.mem_singleton_self _))
    shadowed_serves rfl 0).mpr ?_
  rintro ⟨id, found, hslot, hfound, ⟨-, entry, hentry, -⟩ | ⟨-, hpointer, -⟩⟩
  · cases hentry
  · simp only [shadowedFunction, List.mem_cons, List.not_mem_nil, or_false] at hfound
    rcases hfound with hpair | hpair <;> cases hpair <;> exact absurd hpointer (by decide)

/-- The parameter is in the frame and its references write the data. -/
theorem address_shadowed : ∃ analysis function reference, analyzeFile {} shadowedFile = .ok analysis ∧
    function ∈ analysis.functions ∧ reference ∈ function.references ∧
    shadowedGenerator.Serves analysis.names function ∧ shadowedGenerator.storageOf reference = some (.frame 6 2) ∧
    emitAddress shadowedGenerator (addressOf reference) 0 = .ok (emitSymbol (nameOf "counter") .addr16Ram 0) ∧
    ¬ ∃ emission, emitAddress shadowedGenerator (addressOf reference) 0 = .ok emission ∧
      emission.Denotes (.frame 6 2) := by
  refine ⟨_, shadowedFunction, ⟨"counter", 2, .slot 2⟩, shadowed_accepted, List.mem_singleton_self _,
    List.mem_cons_self, shadowed_serves, rfl, rfl, ?_⟩
  rintro ⟨emission, hemission, hdenotes⟩
  cases hemission
  exact not_denotes_symbol _ _ _ _ _ hdenotes

end Disco.Backend
