import Disco.Linker.Payload
import Disco.Linker.Reordered

/-! # What relocations denote

A name denotes the base of its defining section plus the symbol's offset; a
private name is looked up in its own object, and the names the ABI reserves
denote addresses of the link itself. A link is faithful when each relocation
resolves to the address its name denotes and its operand, completed by the bank
the instruction implies, gives that address back.
-/

namespace Disco.Linker

open Library

/-- The first address of a near RAM bank. -/
def ramBankStart (options : Options) : Nat := (0x70 + options.ramBank) * 0x10000

/-- The first address of an object's section. -/
def sectionBase (options : Options) (image : Image) (bases : Bases) : SymbolSection → Nat
  | .code => image.origin + bases.code
  | .data => image.origin + image.finalCode.length + bases.data
  | .ram => ramBankStart options + options.ramOrigin + bases.ram

/-- The addresses a name denotes when object `i` refers to it. -/
inductive Denotes (options : Options) (image : Image) (i : Nat) : Name → Nat → Prop where
  | privateSymbol {object : ObjectFile} {base : Bases} {symbol : SymbolEntry} :
      image.objects[i]? = some object → image.bases[i]? = some base →
      symbol ∈ object.symbolTable → isPrivate symbol.name = true →
      Denotes options image i symbol.name
        (sectionBase options image base symbol.sect + symbol.offset.toNat)
  | publicSymbol {j : Nat} {object : ObjectFile} {base : Bases} {symbol : SymbolEntry} :
      image.objects[j]? = some object → image.bases[j]? = some base →
      symbol ∈ object.symbolTable → isPrivate symbol.name = false →
      Denotes options image i symbol.name
        (sectionBase options image base symbol.sect + symbol.offset.toNat)
  | stackLimit {suffix : Name} {required : Nat} :
      parseOptionNumber suffix 65535 = .ok required →
      Denotes options image i (stackLimitPrefix ++ suffix)
        (ramBankStart options + image.stackFloor + required)
  | nearRamBank : Denotes options image i nearRamBankSymbol (ramBankStart options)
  | nearRomBank : Denotes options image i nearRomBankSymbol
      (romBank options image.config * 0x10000 +
        (if romBank options image.config ≤ 0x3f then 0x8000 else 0))

/-- The byte of the payload that follows a relocated opcode by `k`. -/
def Image.operandByte (image : Image) (bases : Bases) (relocation : RelocationEntry) (k : Nat) :
    Option UInt8 :=
  image.payload[image.patchStart bases relocation + (relocation.patchOffset.toNat + k)]?

/-- The patched 16-bit operand. -/
def Image.HasOperand (image : Image) (bases : Bases) (relocation : RelocationEntry)
    (operand : Nat) : Prop :=
  ∃ low high, image.operandByte bases relocation 1 = some low ∧
    image.operandByte bases relocation 2 = some high ∧ operand = low.toNat + 256 * high.toNat

/-- The patched operand gives the address back: in the program bank for calls
and near immediates, in the near RAM bank for RAM operands, and as bank byte
and 16-bit offset for the two halves of a far address. -/
def Reconstructs (options : Options) (image : Image) (bases : Bases)
    (relocation : RelocationEntry) (address : Nat) : Prop :=
  match relocation.type with
  | .addr16Jal | .addr16Iwt => ∃ operand, image.HasOperand bases relocation operand ∧
      image.origin / 0x10000 * 0x10000 + operand = address
  | .addr16Ram => ∃ operand, image.HasOperand bases relocation operand ∧
      ramBankStart options + operand = address
  | .addr24Bank => ∃ bank, image.operandByte bases relocation 1 = some bank ∧
      bank.toNat = address / 0x10000
  | .addr24Offset => image.HasOperand bases relocation (address % 0x10000)

/-- A private name gets the address a public symbol at its place would get. -/
def PrivateLikePublic (options : Options) (image : Image) (object : ObjectFile) (bases : Bases)
    (relocation : RelocationEntry) (address : Nat) : Prop :=
  ∀ symbol ∈ object.symbolTable, symbol.name = relocation.targetSymbolName →
    isPrivate symbol.name = true →
      publicAddress options image bases symbol.sect symbol.offset.toNat = address

/-- One relocation of object `i` resolves to the one address its name denotes,
and its operand gives that address back. -/
def FaithfulRelocation (options : Options) (image : Image) (i : Nat) (object : ObjectFile)
    (bases : Bases) (relocation : RelocationEntry) : Prop :=
  ∃ target, resolve (image.context options) object bases relocation = .ok target ∧
    (∀ address, Denotes options image i relocation.targetSymbolName address ↔
      address = target.address) ∧
    PrivateLikePublic options image object bases relocation target.address ∧
    Reconstructs options image bases relocation target.address

/-- Every relocation denotes its definition, whatever the order of the tables. -/
def FaithfulLink (generate : ObjectFile → Except String String) (options : Options)
    (files : List (String × Bytes)) (image : Image) : Prop :=
  (∀ (i : Nat) (object : ObjectFile) (base : Bases), image.objects[i]? = some object →
    image.bases[i]? = some base → ∀ relocation ∈ object.relocationTable,
      FaithfulRelocation options image i object base relocation) ∧
  ∀ others, List.Forall₂ SameFile files others →
    ∃ objects, runLinker generate options others = .ok { image with objects := objects }

/-- Some relocation names a public RAM symbol that labels the end of the second
RAM bank. Where each RAM section starts follows from the inputs alone. -/
def RefersToBankEnd (options : Options) (objects : List ObjectFile) : Prop :=
  options.ramBank = 1 ∧
    ∃ (j : Nat) (object : ObjectFile) (ramBase : Nat) (symbol : SymbolEntry),
      objects[j]? = some object ∧
      (placeBases options.ramOrigin (objects.map ramPiece) 0)[j]? = some ramBase ∧
      symbol ∈ object.symbolTable ∧ symbol.sect = .ram ∧ isPrivate symbol.name = false ∧
      options.ramOrigin + ramBase + symbol.offset.toNat = 65536 ∧
      ∃ referrer ∈ objects, ∃ relocation ∈ referrer.relocationTable,
        relocation.targetSymbolName = symbol.name

/-! ## RAM addresses -/

theorem nearRamBank_eq (options : Options) : nearRamBank options = ramBankStart options := by
  have hbank := options.ramBank_le
  unfold nearRamBank ramBankStart
  interval_cases options.ramBank <;> rfl

theorem ramBankBase_eq (options : Options) : ramBankBase options = ramBankStart options := by
  have hbank := options.ramBank_le
  unfold ramBankBase ramBankStart
  interval_cases options.ramBank <;> rfl

/-- Inside the bank, the symbol table's address is the sum. -/
theorem publicRamAddress_of_lt {options : Options} {offset : Nat} (h : offset < 65536) :
    publicRamAddress options offset = ramBankStart options + offset := by
  have hshift : ramBankStart options = (0x70 + options.ramBank) <<< 16 := by
    rw [ramBankStart, Nat.shiftLeft_eq]
  rw [publicRamAddress, nearRamBank_eq, hshift]
  exact (Nat.shiftLeft_add_eq_or_of_lt (i := 16) h _).symm

/-- At the end of a bank the bank bit absorbs the carry in the second bank only. -/
theorem publicRamAddress_end (options : Options) :
    publicRamAddress options 65536 = ramBankStart options + 65536 ↔ options.ramBank ≠ 1 := by
  have hbank := options.ramBank_le
  unfold publicRamAddress nearRamBank ramBankStart
  interval_cases options.ramBank <;> decide

/-! ## Operands -/

section Image

variable {options : Options} {image : Image} (hl : Linked options image)
  {i : Nat} {object : ObjectFile} {base : Bases} (ho : image.objects[i]? = some object)
  (hb : image.bases[i]? = some base) {relocation : RelocationEntry}
  (hr : relocation ∈ object.relocationTable) {target : Target}
  (ht : resolve (image.context options) object base relocation = .ok target)

include hl ho hb hr ht

theorem Linked.operandByte {k : Nat} {value : UInt8}
    (hw : (relocation.patchOffset.toNat + k, value) ∈
      operandWrites relocation.type relocation.patchOffset.toNat target.address) :
    image.operandByte base relocation k = some value := by
  rw [← targetAddress_of_resolve ht] at hw
  exact hl.operandAt ho hb hr hw

/-- A 16-bit operand holds the low half of the resolved address. -/
theorem Linked.hasOperand (htype : relocation.type ≠ .addr24Bank) :
    image.HasOperand base relocation (target.address % 0x10000) := by
  have hwrites : operandWrites relocation.type relocation.patchOffset.toNat target.address =
      [(relocation.patchOffset.toNat + 1, UInt8.ofNat target.address),
        (relocation.patchOffset.toNat + 2, UInt8.ofNat (target.address / 0x100))] := by
    unfold operandWrites
    split
    · rename_i hbank
      exact absurd hbank htype
    · rfl
  refine ⟨UInt8.ofNat target.address, UInt8.ofNat (target.address / 0x100),
    hl.operandByte ho hb hr ht ?_, hl.operandByte ho hb hr ht ?_, ?_⟩
  · simp [hwrites]
  · simp [hwrites]
  rw [UInt8.toNat_ofNat', UInt8.toNat_ofNat']
  omega

/-- A bank operand holds the bank of the resolved address. -/
theorem Linked.hasBank (htype : relocation.type = .addr24Bank)
    (hrange : target.address ≤ 0xffffff) :
    ∃ bank, image.operandByte base relocation 1 = some bank ∧
      bank.toNat = target.address / 0x10000 := by
  refine ⟨UInt8.ofNat (target.address / 0x10000), hl.operandByte ho hb hr ht ?_, ?_⟩
  · simp [htype, operandWrites]
  · rw [UInt8.toNat_ofNat']
    omega

/-- Every accepted operand gives the resolved address back. -/
theorem Linked.reconstructs (hgsu : image.config.target = .gsu)
    (hcheck : checkRelocation (image.context options) object relocation target = .ok ()) :
    Reconstructs options image base relocation target.address := by
  obtain ⟨hrange, -, hram, -, hnear⟩ := checkRelocation_gsu hgsu hcheck
  have hoperand := hl.hasOperand ho hb hr ht
  have horigin : (image.context options).config.codeStartAddress.toNat = image.origin := rfl
  have hramBank : (image.context options).options.ramBank = options.ramBank := rfl
  unfold Reconstructs
  cases htype : relocation.type with
  | addr16Jal =>
      have hbank := hnear (Or.inl htype)
      exact ⟨_, hoperand (by simp [htype]), by omega⟩
  | addr16Iwt =>
      have hbank := hnear (Or.inr htype)
      exact ⟨_, hoperand (by simp [htype]), by omega⟩
  | addr24Bank => exact hl.hasBank ho hb hr ht htype hrange
  | addr24Offset => exact hoperand (by simp [htype])
  | addr16Ram =>
      have hbank := hram htype
      refine ⟨_, hoperand (by simp [htype]), ?_⟩
      rw [ramBankStart]
      omega

end Image

/-! ## Symbols -/

section Symbols

variable {options : Options} {image : Image} (hl : Linked options image)

include hl

theorem Linked.sectionAddress_eq (base : Bases) (sect : SymbolSection) :
    sectionAddress (image.context options) base sect = sectionBase options image base sect := by
  cases sect with
  | code => rfl
  | data =>
      show image.dataStart + base.data = image.origin + image.finalCode.length + base.data
      rw [hl.dataStart]
  | ram =>
      show nearRamBank options + options.ramOrigin + base.ram = _
      rw [nearRamBank_eq]
      rfl

/-- RAM symbols stay inside their bank, its end included. -/
theorem Linked.ramOffset_le {j : Nat} {object : ObjectFile} {base : Bases}
    (ho : image.objects[j]? = some object) (hb : image.bases[j]? = some base)
    {symbol : SymbolEntry} (hm : symbol ∈ object.symbolTable) (hs : symbol.sect = .ram) :
    options.ramOrigin + base.ram + symbol.offset.toNat ≤ 65536 := by
  have hplaced := placed_placeBases options.ramOrigin (image.objects.map ramPiece) 0 (by
    intro piece hp
    obtain ⟨o, hmem, rfl⟩ := List.mem_map.mp hp
    exact ramPiece_pos (hl.valid o hmem))
  rw [hl.ramBase] at hplaced
  have hwithin := hplaced.within j (ramPiece object) base.ram (by simp [ho]) (by simp [hb])
  have hlength := place_length 0 options.ramOrigin (image.objects.map ramPiece) []
  have hfits := hl.ramFits
  have horigin := options.ramOrigin_le
  have hoffset := ((hl.valid object (List.mem_of_getElem? ho)).symbols symbol hm).offset
  rw [hs] at hoffset
  rw [← hl.finalRam, List.length_nil] at hlength
  simp only [ramPiece, ObjectFile.sectionBytes] at hwithin hoffset
  omega

/-- The symbol table's address of a symbol is its section base plus its offset,
except for a label at the end of the second RAM bank. -/
theorem Linked.publicAddress_eq_iff {j : Nat} {object : ObjectFile} {base : Bases}
    (ho : image.objects[j]? = some object) (hb : image.bases[j]? = some base)
    {symbol : SymbolEntry} (hm : symbol ∈ object.symbolTable) :
    publicAddress options image base symbol.sect symbol.offset.toNat =
        sectionBase options image base symbol.sect + symbol.offset.toNat ↔
      ¬ (symbol.sect = .ram ∧ options.ramBank = 1 ∧
        options.ramOrigin + base.ram + symbol.offset.toNat = 65536) := by
  cases hs : symbol.sect with
  | code => simp [publicAddress, sectionBase]
  | data => simp [publicAddress, sectionBase]
  | ram =>
      have hle := hl.ramOffset_le ho hb hm hs
      have hsum : sectionBase options image base .ram + symbol.offset.toNat =
          ramBankStart options + (options.ramOrigin + base.ram + symbol.offset.toNat) := by
        rw [sectionBase]
        omega
      rw [hsum, publicAddress]
      rcases Nat.lt_or_eq_of_le hle with hlt | heq
      · rw [publicRamAddress_of_lt hlt]
        simp only [true_iff]
        omega
      · rw [heq, publicRamAddress_end]
        simp

/-- The names of one section's definitions are distinct. -/
theorem Linked.section_unique (sect : SymbolSection) :
    ∃ address bases, bases.length = image.objects.length ∧
      UniqueNames (allDefinitions sect address (image.objects.zip bases)) := by
  have hu := hl.uniqueNames
  rw [hl.definitions, UniqueNames, List.map_append, List.map_append] at hu
  have hcount := hl.basesCount
  cases sect with
  | code => exact ⟨_, _, by simpa using hcount, (hu.of_append_left).of_append_right⟩
  | data => exact ⟨_, _, by simpa using hcount, hu.of_append_right⟩
  | ram => exact ⟨_, _, by simpa using hcount, (hu.of_append_left).of_append_left⟩

/-- A public name is defined by one symbol of one object. -/
theorem Linked.unique_symbol {i j : Nat} {object other : ObjectFile}
    (hi : image.objects[i]? = some object) (hj : image.objects[j]? = some other)
    {symbol duplicate : SymbolEntry} (hm : symbol ∈ object.symbolTable)
    (hd : duplicate ∈ other.symbolTable) (hp : isPrivate symbol.name = false)
    (hname : duplicate.name = symbol.name) : i = j ∧ duplicate = symbol := by
  have hdp : isPrivate duplicate.name = false := by rw [hname, hp]
  obtain ⟨base, hb⟩ : ∃ base, image.bases[i]? = some base :=
    ⟨_, List.getElem?_eq_getElem (by
      rw [hl.basesCount]; exact (List.getElem?_eq_some_iff.mp hi).1)⟩
  obtain ⟨next, hn⟩ : ∃ next, image.bases[j]? = some next :=
    ⟨_, List.getElem?_eq_getElem (by
      rw [hl.basesCount]; exact (List.getElem?_eq_some_iff.mp hj).1)⟩
  -- Both symbols are found under the name, so they share a section.
  have hsame := (hl.lookup_symbol hi hb hm hp).symm.trans
    (hname ▸ hl.lookup_symbol hj hn hd hdp)
  have hsect : duplicate.sect = symbol.sect := by
    simp only [Option.some.injEq, Definition.mk.injEq] at hsame
    exact hsame.2.2.1.symm
  obtain ⟨address, bases, hcount, hu⟩ := hl.section_unique symbol.sect
  have hentry : ∀ {k : Nat} {o : ObjectFile}, image.objects[k]? = some o →
      ∃ b, (image.objects.zip bases)[k]? = some (o, b) := by
    intro k o hk
    have hlt := (List.getElem?_eq_some_iff.mp hk).1
    exact ⟨_, List.getElem?_zip_eq_some.mpr
      ⟨hk, List.getElem?_eq_getElem (by rw [hcount]; exact hlt)⟩⟩
  obtain ⟨b, hib⟩ := hentry hi
  obtain ⟨c, hjc⟩ := hentry hj
  have hij := index_eq_of_unique hu hib hjc ⟨symbol, hm, rfl, hp, rfl⟩
    ⟨duplicate, hd, hsect, hdp, hname⟩
  subst hij
  rw [hi] at hj
  cases hj
  have hnames := (hl.valid object (List.mem_of_getElem? hi)).names
  exact ⟨rfl, List.inj_on_of_nodup_map hnames hd hm hname⟩

/-! ## Denotations are unique -/

theorem Linked.symbol_not_reserved {j : Nat} {object : ObjectFile}
    (ho : image.objects[j]? = some object) {symbol : SymbolEntry}
    (hm : symbol ∈ object.symbolTable) : isReserved symbol.name = false :=
  hl.notReserved object (List.mem_of_getElem? ho) symbol hm

theorem Linked.denotes_private {i : Nat} {object : ObjectFile} {base : Bases}
    (ho : image.objects[i]? = some object) (hb : image.bases[i]? = some base)
    {symbol : SymbolEntry} (hm : symbol ∈ object.symbolTable)
    (hp : isPrivate symbol.name = true) (address : Nat) :
    Denotes options image i symbol.name address ↔
      address = sectionBase options image base symbol.sect + symbol.offset.toNat := by
  constructor
  · intro h
    generalize hn : symbol.name = name at h
    cases h with
    | privateSymbol hother hbase hmem _ =>
        rw [ho] at hother
        rw [hb] at hbase
        cases hother
        cases hbase
        have hnames := (hl.valid object (List.mem_of_getElem? ho)).names
        rw [List.inj_on_of_nodup_map hnames hmem hm hn.symm]
    | publicSymbol _ _ _ hpublic =>
        rw [← hn, hp] at hpublic
        cases hpublic
    | stackLimit _ =>
        rw [hn] at hp
        cases hp
    | nearRamBank =>
        rw [hn] at hp
        cases hp
    | nearRomBank =>
        rw [hn] at hp
        cases hp
  · intro h
    rw [h]
    exact .privateSymbol ho hb hm hp

theorem Linked.denotes_public {i j : Nat} {object : ObjectFile} {base : Bases}
    (ho : image.objects[j]? = some object) (hb : image.bases[j]? = some base)
    {symbol : SymbolEntry} (hm : symbol ∈ object.symbolTable)
    (hp : isPrivate symbol.name = false) (address : Nat) :
    Denotes options image i symbol.name address ↔
      address = sectionBase options image base symbol.sect + symbol.offset.toNat := by
  have hreserved := hl.symbol_not_reserved ho hm
  constructor
  · intro h
    generalize hn : symbol.name = name at h
    cases h with
    | privateSymbol _ _ _ hprivate =>
        rw [← hn, hp] at hprivate
        cases hprivate
    | publicSymbol hother hbase hmem _ =>
        obtain ⟨rfl, rfl⟩ := hl.unique_symbol ho hother hm hmem hp hn.symm
        rw [ho] at hother
        rw [hb] at hbase
        cases hother
        cases hbase
        rfl
    | stackLimit _ =>
        rw [hn] at hreserved
        simp [isReserved] at hreserved
    | nearRamBank =>
        rw [hn] at hreserved
        simp [isReserved] at hreserved
    | nearRomBank =>
        rw [hn] at hreserved
        simp [isReserved] at hreserved
  · intro h
    rw [h]
    exact .publicSymbol ho hb hm hp

theorem Linked.denotes_stackLimit {i : Nat} {suffix : Name} {required : Nat}
    (hr : parseOptionNumber suffix 65535 = .ok required) (address : Nat) :
    Denotes options image i (stackLimitPrefix ++ suffix) address ↔
      address = ramBankStart options + image.stackFloor + required := by
  have hreserved : isReserved (stackLimitPrefix ++ suffix) = true := by simp [isReserved]
  constructor
  · intro h
    generalize hn : stackLimitPrefix ++ suffix = name at h
    cases h with
    | privateSymbol ho _ hm _ =>
        rw [hn, hl.symbol_not_reserved ho hm] at hreserved
        cases hreserved
    | publicSymbol ho _ hm _ =>
        rw [hn, hl.symbol_not_reserved ho hm] at hreserved
        cases hreserved
    | stackLimit hother =>
        have hsuffix := List.append_cancel_left hn
        rw [← hsuffix, hr] at hother
        cases hother
        rfl
    | nearRamBank => exact absurd (List.prefix_append stackLimitPrefix suffix) (by rw [hn]; decide)
    | nearRomBank => exact absurd (List.prefix_append stackLimitPrefix suffix) (by rw [hn]; decide)
  · intro h
    rw [h]
    exact .stackLimit hr

theorem Linked.denotes_nearRamBank (i address : Nat) :
    Denotes options image i nearRamBankSymbol address ↔ address = ramBankStart options := by
  have hreserved : isReserved nearRamBankSymbol = true := by decide
  constructor
  · intro h
    generalize hn : nearRamBankSymbol = name at h
    cases h with
    | privateSymbol ho _ hm _ =>
        rw [hn, hl.symbol_not_reserved ho hm] at hreserved
        cases hreserved
    | publicSymbol ho _ hm _ =>
        rw [hn, hl.symbol_not_reserved ho hm] at hreserved
        cases hreserved
    | stackLimit _ => exact absurd (List.prefix_append stackLimitPrefix _) (by rw [← hn]; decide)
    | nearRamBank => rfl
    | nearRomBank => exact absurd hn (by decide)
  · intro h
    rw [h]
    exact .nearRamBank

theorem Linked.denotes_nearRomBank (i address : Nat) :
    Denotes options image i nearRomBankSymbol address ↔
      address = romBank options image.config * 0x10000 +
        (if romBank options image.config ≤ 0x3f then 0x8000 else 0) := by
  have hreserved : isReserved nearRomBankSymbol = true := by decide
  constructor
  · intro h
    generalize hn : nearRomBankSymbol = name at h
    cases h with
    | privateSymbol ho _ hm _ =>
        rw [hn, hl.symbol_not_reserved ho hm] at hreserved
        cases hreserved
    | publicSymbol ho _ hm _ =>
        rw [hn, hl.symbol_not_reserved ho hm] at hreserved
        cases hreserved
    | stackLimit _ => exact absurd (List.prefix_append stackLimitPrefix _) (by rw [← hn]; decide)
    | nearRamBank => exact absurd hn (by decide)
    | nearRomBank => rfl
  · intro h
    rw [h]
    exact .nearRomBank

theorem Linked.base_exists {j : Nat} {object : ObjectFile} (ho : image.objects[j]? = some object) :
    ∃ base, image.bases[j]? = some base :=
  ⟨_, List.getElem?_eq_getElem (by
    rw [hl.basesCount]; exact (List.getElem?_eq_some_iff.mp ho).1)⟩

/-! ## Faithful relocations -/

omit hl in
/-- A private target at the end of the second RAM bank is never accepted. -/
theorem private_inside {object : ObjectFile} {base : Bases} {relocation : RelocationEntry}
    {target : Target} (hgsu : image.config.target = .gsu)
    (hcheck : checkRelocation (image.context options) object relocation target = .ok ())
    {symbol : SymbolEntry}
    (haddress : target.address = sectionBase options image base symbol.sect + symbol.offset.toNat) :
    ¬ (symbol.sect = .ram ∧ options.ramBank = 1 ∧
      options.ramOrigin + base.ram + symbol.offset.toNat = 65536) := by
  intro h
  obtain ⟨hs, hbank, hend⟩ := h
  obtain ⟨-, -, hram, hregion, -⟩ := checkRelocation_gsu hgsu hcheck
  have hvalue : target.address = 0x720000 := by
    rw [haddress, hs, sectionBase, ramBankStart, hbank]
    omega
  by_cases htype : relocation.type = .addr16Ram
  · have hwrong := hram htype
    rw [hvalue] at hwrong
    have hone : (image.context options).options.ramBank = 1 := hbank
    omega
  · exact hregion htype (by rw [hvalue]; decide)

/-- Outside the one bad label, every relocation of a link is faithful. -/
theorem Linked.faithful {i : Nat} {object : ObjectFile} {base : Bases}
    (hgsu : image.config.target = .gsu) (hend : ¬ RefersToBankEnd options image.objects)
    (ho : image.objects[i]? = some object) (hb : image.bases[i]? = some base)
    {relocation : RelocationEntry} (hr : relocation ∈ object.relocationTable) :
    FaithfulRelocation options image i object base relocation := by
  obtain ⟨target, ht, hcheck, -⟩ :=
    hl.accepted (object, base) (List.mem_of_getElem? (image.item ho hb)) relocation hr
  refine ⟨target, ht, ?_, ?_, hl.reconstructs ho hb hr ht hgsu hcheck⟩
  · cases resolvedAs_of_resolve ht with
    | privateSymbol symbol hm hn hp htarget =>
        intro address
        rw [← hn] at hp ⊢
        rw [hl.denotes_private ho hb hm hp, htarget, hl.sectionAddress_eq]
    | stackLimit suffix required hn hrequired _ _ _ htarget =>
        intro address
        rw [hn, hl.denotes_stackLimit hrequired, htarget, ← ramBankBase_eq]
        rfl
    | nearRamBank hn _ htarget =>
        intro address
        rw [hn, hl.denotes_nearRamBank, htarget, ← nearRamBank_eq]
        rfl
    | nearRomBank hn _ htarget =>
        intro address
        rw [hn, hl.denotes_nearRomBank, htarget, ← Nat.shiftLeft_eq _ 16]
        rw [Nat.shiftLeft_add_eq_or_of_lt (i := 16) (by split <;> decide)]
        rfl
    | publicSymbol definition hp hlookup htarget =>
        intro address
        obtain ⟨hmem, hname⟩ := (lookup_eq_some hl.uniqueNames).mp hlookup
        obtain ⟨j, other, next, symbol, hj, hn, hm, hpublic, rfl⟩ := hl.mem_definitions.mp hmem
        rw [htarget, ← hname, hl.denotes_public hj hn hm hpublic,
          (hl.publicAddress_eq_iff hj hn hm).mpr]
        intro hbad
        obtain ⟨hs, hbank, hlabel⟩ := hbad
        refine hend ⟨hbank, j, other, next.ram, symbol, hj, ?_, hm, hs, hpublic, hlabel, object,
          List.mem_of_getElem? ho, relocation, hr, hname.symm⟩
        rw [hl.ramBase]
        simp [hn]
  · intro symbol hm hn hp
    rw [hn] at hp
    cases resolvedAs_of_resolve ht with
    | privateSymbol found hfound hfoundName _ htarget =>
        have hnames := (hl.valid object (List.mem_of_getElem? ho)).names
        obtain rfl := List.inj_on_of_nodup_map hnames hfound hm (hfoundName.trans hn.symm)
        have haddress : target.address =
            sectionBase options image base found.sect + found.offset.toNat := by
          rw [htarget, hl.sectionAddress_eq]
        rw [haddress]
        exact (hl.publicAddress_eq_iff ho hb hm).mpr (private_inside hgsu hcheck haddress)
    | stackLimit suffix _ hname =>
        rw [hname] at hp
        cases hp
    | nearRamBank hname =>
        rw [hname] at hp
        cases hp
    | nearRomBank hname =>
        rw [hname] at hp
        cases hp
    | publicSymbol _ hpublic =>
        rw [hp] at hpublic
        cases hpublic

/-- A relocation against the bad label is not faithful. -/
theorem Linked.not_faithful (h : RefersToBankEnd options image.objects) :
    ∃ (i : Nat) (object : ObjectFile) (base : Bases), image.objects[i]? = some object ∧
      image.bases[i]? = some base ∧ ∃ relocation ∈ object.relocationTable,
        ¬ FaithfulRelocation options image i object base relocation := by
  obtain ⟨hbank, j, other, ramBase, symbol, hj, hramBase, hm, hs, hp, hlabel, object, hobject,
    relocation, hr, hname⟩ := h
  obtain ⟨next, hn⟩ := hl.base_exists hj
  rw [hl.ramBase, List.getElem?_map, hn, Option.map_some, Option.some.injEq] at hramBase
  obtain ⟨i, ho⟩ := List.mem_iff_getElem?.mp hobject
  obtain ⟨base, hb⟩ := hl.base_exists ho
  refine ⟨i, object, base, ho, hb, relocation, hr, ?_⟩
  intro hfaithful
  obtain ⟨target, ht, hdenotes, -⟩ := hfaithful
  have htarget : sectionBase options image next symbol.sect + symbol.offset.toNat =
      target.address := by
    rw [← hdenotes, hname]
    exact .publicSymbol hj hn hm hp
  have hbad : ¬ publicAddress options image next symbol.sect symbol.offset.toNat =
      sectionBase options image next symbol.sect + symbol.offset.toNat := by
    rw [hl.publicAddress_eq_iff hj hn hm, not_not, hramBase]
    exact ⟨hs, hbank, hlabel⟩
  have hreserved := hl.symbol_not_reserved hj hm
  cases resolvedAs_of_resolve ht with
  | privateSymbol _ _ _ hprivate =>
      rw [hname, hp] at hprivate
      cases hprivate
  | stackLimit suffix _ hlimit =>
      rw [← hname, hlimit] at hreserved
      simp [isReserved] at hreserved
  | nearRamBank hnear =>
      rw [← hname, hnear] at hreserved
      simp [isReserved] at hreserved
  | nearRomBank hnear =>
      rw [← hname, hnear] at hreserved
      simp [isReserved] at hreserved
  | publicSymbol definition _ hlookup hresult =>
      have hfound := hl.lookup_symbol hj hn hm hp
      rw [← hname] at hfound
      have hsame := hlookup.symm.trans hfound
      rw [Option.some.injEq] at hsame
      rw [htarget, hresult, hsame] at hbad
      exact hbad rfl

end Symbols

/-- A successful GSU link is faithful exactly when no relocation names a public
RAM symbol at the end of the second RAM bank. There the symbol table composes
the address with OR, the carry into the bank is lost, and the label is taken
for the first byte of its own bank instead of being rejected. -/
theorem faithfulLink_iff {generate : ObjectFile → Except String String} {options : Options}
    {files : List (String × Bytes)} {image : Image}
    (h : runLinker generate options files = .ok image) (hgsu : image.config.target = .gsu) :
    FaithfulLink generate options files image ↔ ¬ RefersToBankEnd options image.objects := by
  have hl := (linked_of_runLinker h).1
  constructor
  · intro hfaithful hend
    obtain ⟨i, object, base, ho, hb, relocation, hr, hnot⟩ := hl.not_faithful hend
    exact hnot (hfaithful.1 i object base ho hb relocation hr)
  · intro hend
    refine ⟨fun i object base ho hb relocation hr => hl.faithful hgsu hend ho hb hr, ?_⟩
    intro others hothers
    exact runLinker_reordered hothers h

/-- Two bytes of static RAM with a label behind them, loaded as a near address. -/
def endLabel : ObjectFile where
  codeSection := [0xf1, 0, 0]
  ramSection := [0, 0]
  symbolTable := [⟨nameOf "edge", .ram, 2⟩]
  relocationTable := [⟨nameOf "edge", .code, 0, .addr16Ram⟩]

theorem noOrigin_le : ∀ address : UInt32, (none : Option UInt32) = some address → address.toNat ≤ 0xffffff := by simp

theorem noRomBank_le : ∀ bank : Nat, (none : Option Nat) = some bank → bank ≤ 0x5f := by simp

theorem stackPointer_le : 0x2000 ≤ 0xfffe := by decide

/-- Static RAM of the second bank, filled by the host. -/
def secondBank (ramOrigin : Nat) (h : ramOrigin ≤ 65535) : Options :=
  { ramBank := 1
    ramOrigin := ramOrigin
    hostGlobals := true
    origin_le := noOrigin_le
    ramOrigin_le := h
    romBank_le := noRomBank_le
    stackPointer_le := stackPointer_le }

/-- Placed at the end of bank `$71`, the label's operand is 0, the first byte of
the bank. -/
theorem endLabel_truncated :
    ∃ image, runLinker (fun _ => .ok "") (secondBank 0xfffe (by decide))
        [("edge.o", endLabel.encode)] = .ok image ∧
      image.config.target = .gsu ∧ image.payload = [0xf1, 0, 0] ∧
      ¬ FaithfulLink (fun _ => .ok "") (secondBank 0xfffe (by decide))
        [("edge.o", endLabel.encode)] image := by
  have hrun : (runLinker (fun _ => .ok "") (secondBank 0xfffe (by decide))
      [("edge.o", endLabel.encode)]).toOption.map
        (fun image => (image.config.target, image.payload, image.objects)) =
      some (.gsu, [0xf1, 0, 0], [endLabel]) := by decide +kernel
  cases hlink : runLinker (fun _ => .ok "") (secondBank 0xfffe (by decide))
      [("edge.o", endLabel.encode)] with
  | error message =>
      rw [hlink] at hrun
      cases hrun
  | ok image =>
      rw [hlink] at hrun
      simp only [Except.toOption, Option.map_some, Option.some.injEq, Prod.mk.injEq] at hrun
      obtain ⟨hgsu, hpayload, hobjects⟩ := hrun
      refine ⟨image, rfl, hgsu, hpayload, ?_⟩
      intro hfaithful
      have hend : RefersToBankEnd (secondBank 0xfffe (by decide)) image.objects := by
        rw [hobjects]
        exact ⟨rfl, 0, endLabel, 0, ⟨nameOf "edge", .ram, 2⟩, rfl, rfl, by decide, rfl, by decide,
          rfl, endLabel, by simp, ⟨nameOf "edge", .code, 0, .addr16Ram⟩, by decide, rfl⟩
      obtain ⟨i, object, base, ho, hb, relocation, hr, hnot⟩ :=
        (linked_of_runLinker hlink).1.not_faithful hend
      exact hnot (hfaithful.1 i object base ho hb relocation hr)

/-- One word lower the same label is inside the bank and keeps its address. -/
theorem endLabel_inside :
    ∃ image, runLinker (fun _ => .ok "") (secondBank 0xfffc (by decide))
        [("edge.o", endLabel.encode)] = .ok image ∧ image.payload = [0xf1, 0xfe, 0xff] ∧
      FaithfulLink (fun _ => .ok "") (secondBank 0xfffc (by decide))
        [("edge.o", endLabel.encode)] image := by
  have hrun : (runLinker (fun _ => .ok "") (secondBank 0xfffc (by decide))
      [("edge.o", endLabel.encode)]).toOption.map
        (fun image => (image.config.target, image.payload, image.objects)) =
      some (.gsu, [0xf1, 0xfe, 0xff], [endLabel]) := by decide +kernel
  cases hlink : runLinker (fun _ => .ok "") (secondBank 0xfffc (by decide))
      [("edge.o", endLabel.encode)] with
  | error message =>
      rw [hlink] at hrun
      cases hrun
  | ok image =>
      rw [hlink] at hrun
      simp only [Except.toOption, Option.map_some, Option.some.injEq, Prod.mk.injEq] at hrun
      obtain ⟨hgsu, hpayload, hobjects⟩ := hrun
      refine ⟨image, rfl, hpayload, (faithfulLink_iff hlink hgsu).mpr ?_⟩
      rw [hobjects]
      intro hend
      obtain ⟨-, j, object, ramBase, symbol, hj, hbase, hm, -, -, hlabel, -⟩ := hend
      cases j with
      | zero =>
          cases hj
          cases hbase
          rw [endLabel, List.mem_singleton] at hm
          subst hm
          exact absurd hlabel (by decide)
      | succ j => simp at hj

end Disco.Linker
