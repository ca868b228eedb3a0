import Disco.Assembler.Assembled
import Disco.Linker.Payload
import Disco.Linker.Relocated
import Disco.Gsu.LongBranch

/-! # Relaxed branches in a linked program

A relaxed branch leaves its target to the linker. Wherever the object is
placed, the payload then holds the bytes of a branch of unlimited range, from
the place of its line to the place of its label.
-/

namespace Disco.Assembler

open Library Linker Gsu

/-! ## The long branches of an assembly -/

/-- A relaxed branch of an object whose CODE begins at an address. -/
def Assembly.longBranch? (assembly : Assembly) (start : Nat) (line : ParsedLine) :
    Option LongBranch :=
  if line.lineNumber ∈ assembly.relaxation.relaxed then do
    let opcode ← branchOpcode line.operation
    let offset ← assembly.relaxation.pass.codeOffset line.lineNumber
    let symbol ← assembly.relaxation.pass.lookup (line.operand 0)
    some ⟨BitVec.ofNat 16 (start + offset), opcode.toBitVec, BitVec.ofNat 16 (start + symbol.offset)⟩
  else none

/-- The relaxed branches of an object whose CODE begins at an address. -/
def Assembly.longBranches (assembly : Assembly) (start : Nat) : List LongBranch :=
  assembly.parsed.lines.filterMap (assembly.longBranch? start)

section Branches

variable {assembly : Assembly} (ha : Assembled assembly)

include ha

theorem Assembled.codeOffset {line : ParsedLine} (hm : line ∈ assembly.parsed.lines)
    (hd : isDirective line.operation = false) (hs : line.sect = .code) :
    ∃ before after pass emitted next, Split assembly before after line pass emitted next ∧
      assembly.relaxation.pass.codeOffset line.lineNumber =
        some emitted.object.codeSection.length := by
  obtain ⟨before, after, hsplit⟩ := List.append_of_mem hm
  obtain ⟨pass, emitted, next, h⟩ := ha.split hsplit
  exact ⟨before, after, pass, emitted, next, h, h.codeOffset ha hd hs⟩

/-- A relaxed line at its recorded offset. -/
theorem Assembled.relaxedAt {line : ParsedLine} (hm : line ∈ assembly.parsed.lines)
    (hr : line.lineNumber ∈ assembly.relaxation.relaxed) : ∃ offset opcode symbol,
      assembly.relaxation.pass.codeOffset line.lineNumber = some offset ∧
      RelaxedBranch assembly line offset opcode symbol := by
  obtain ⟨other, hother, hnumber, hsect, hbranch, -⟩ := ha.relaxed.branches _ hr
  obtain rfl := ha.numbered.inj hother hm hnumber
  obtain ⟨opcode, hop⟩ := Option.isSome_iff_exists.mp hbranch
  obtain ⟨before, after, pass, emitted, next, h, hoffset⟩ :=
    ha.codeOffset hm (branch_operation hop).1 hsect
  obtain ⟨opcode', symbol, hbranch⟩ := ha.relaxedBranch h hr
  exact ⟨_, opcode', symbol, hoffset, hbranch⟩

/-- Where a long branch comes from. -/
theorem Assembled.mem_longBranches {start : Nat} {branch : LongBranch}
    (hb : branch ∈ assembly.longBranches start) : ∃ line offset opcode symbol,
      RelaxedBranch assembly line offset opcode symbol ∧
      branch = ⟨BitVec.ofNat 16 (start + offset), opcode.toBitVec,
        BitVec.ofNat 16 (start + symbol.offset)⟩ := by
  obtain ⟨line, hm, hline⟩ := List.mem_filterMap.mp hb
  unfold Assembly.longBranch? at hline
  split at hline
  · rename_i hr
    obtain ⟨offset, opcode, symbol, hoffset, hrelaxed⟩ := ha.relaxedAt hm hr
    rw [hrelaxed.opcode_eq, hoffset, hrelaxed.label] at hline
    exact ⟨line, offset, opcode, symbol, hrelaxed, (Option.some.inj hline).symm⟩
  · cases hline

/-- A label of CODE lies in CODE or at its end. -/
theorem Assembled.label_le {label : Text} {symbol : SymbolDefinition}
    (hl : assembly.relaxation.pass.lookup label = some symbol) (hs : symbol.sect = .code) :
    symbol.offset ≤ assembly.object.codeSection.length := by
  have hentry := hl
  unfold FirstPass.lookup at hentry
  obtain ⟨entry, hfind, -⟩ := Option.map_eq_some_iff.mp hentry
  have hname : entry.1 = label := by simpa using List.find?_some hfind
  have hlabels := List.mem_map_of_mem (f := fun entry : Text × SymbolDefinition =>
    (entry.1, entry.2.sect)) (List.mem_of_find?_eq_some hfind)
  rw [firstPassLines_labels ha.relaxed.pass] at hlabels
  unfold labels at hlabels
  obtain ⟨line, hline, heq⟩ := List.mem_map.mp hlabels
  obtain ⟨hm, hne⟩ := List.mem_filter.mp hline
  have hlabel : line.label = label := (congrArg Prod.fst heq).trans hname
  obtain ⟨before, after, hsplit⟩ := List.append_of_mem hm
  obtain ⟨pass, emitted, next, h⟩ := ha.split hsplit
  -- the label stands at the bytes emitted before its line
  have hdefined := h.label (by simpa using hne)
  rw [hlabel, hl] at hdefined
  cases hdefined
  obtain ⟨code, hresolve, hcode, -, -⟩ := ha.finished
  have hlines : foldAll (secondPassLine assembly.relaxation.relaxed) emitted (line :: after) =
      .ok assembly.emitted := bind_eq_ok.mpr ⟨next, h.emits, h.rest⟩
  obtain ⟨tail, htail⟩ := (extends_lines hlines).code
  have houtput : emitted.output line.sect = emitted.object.codeSection := by
    unfold Emitted.output
    rw [show symbolSection line.sect = .code from hs]
    rfl
  rw [hcode, resolveFixups_length hresolve, htail, houtput]
  simp

end Branches

/-! ## The payload -/

/-- A linked branch: the bytes of a long branch in the payload. -/
structure Relinked (image : Image) (place : Nat) (branch : LongBranch) : Prop where
  start : branch.start = BitVec.ofNat 16 (image.origin + place)
  opcode_ge : 5 ≤ branch.opcode.toNat
  opcode_le : branch.opcode.toNat ≤ 15
  bytes : ∀ i byte, branch.bytes[i]? = some byte →
    (image.payload[place + i]?).map UInt8.toBitVec = some byte

section Linked

variable {assembly : Assembly} {options : Options} {image : Image} {i : Nat} {base : Bases}
  {line : ParsedLine} {offset : Nat} {opcode : UInt8} {symbol : SymbolDefinition}

theorem RelaxedBranch.opcode_range (hr : RelaxedBranch assembly line offset opcode symbol) :
    5 ≤ opcode.toNat ∧ opcode.toNat ≤ 15 := by
  have hm := branchOpcode_mem hr.opcode_eq
  simp only [branchNames, List.mem_cons, Prod.mk.injEq, List.not_mem_nil, or_false] at hm
  rcases hm with h | h | h | h | h | h | h | h | h | h | h <;> rw [h.2] <;> decide

theorem RelaxedBranch.length_le (hr : RelaxedBranch assembly line offset opcode symbol) :
    offset + (relaxedBytes opcode).length ≤ assembly.object.codeSection.length := by
  have hpos : 0 < (relaxedBytes opcode).length := by
    unfold relaxedBytes
    split <;> simp
  have hlast := hr.bytes ((relaxedBytes opcode).length - 1) (by omega)
  rw [List.getElem?_eq_getElem (show (relaxedBytes opcode).length - 1 <
    (relaxedBytes opcode).length by omega)] at hlast
  have hlt := (List.getElem?_eq_some_iff.mp hlast).1
  omega

theorem jumpOffset_add (opcode : UInt8) :
    jumpOffset opcode + 4 = (relaxedBytes opcode).length := by
  unfold jumpOffset relaxedBytes
  split <;> rfl

/-- Only its own operand bytes are patched in a relaxed branch. -/
theorem RelaxedBranch.not_operand (hr : RelaxedBranch assembly line offset opcode symbol)
    (hv : assembly.object.Valid) {k : Nat} (hk : k < (relaxedBytes opcode).length)
    (h1 : k ≠ jumpOffset opcode + 1) (h2 : k ≠ jumpOffset opcode + 2) :
    ¬ IsOperand assembly.object .code (offset + k) := by
  rintro ⟨relocation, hm, hs, hstart, hstop⟩
  have hsize : assembly.object.codeSection.length ≤ 0x4000000 := hv.codeSize
  have hle := hr.length_le
  have hjump := jumpOffset_add opcode
  unfold RelocationEntry.span at hstart hstop
  dsimp only at hstart hstop
  have hwidth : (if relocation.type = .addr24Bank then 1 else 2) + 1 = relocation.type.patchSize := by
    cases relocation.type <;> rfl
  have hbounds := RelocationType.patchSize_bounds relocation.type
  have hexact : ∀ n : Nat, n ≤ assembly.object.codeSection.length →
      (UInt32.ofNat n).toNat = n := by
    intro n hn
    exact UInt32.toNat_ofNat_of_lt' (by
      show n < 2 ^ 32
      omega)
  rcases hr.others relocation hm hs with hown | ⟨start, hother, hlt, hapart⟩
  · rw [hown, hexact _ (by omega)] at hstart hstop
    omega
  · rw [hother, hexact _ (by omega)] at hstart hstop
    omega

/-- The linker finds a relaxed branch's label at its place. -/
theorem RelaxedBranch.resolve_eq (hr : RelaxedBranch assembly line offset opcode symbol)
    (hv : assembly.object.Valid) {context : Context} {target : Target}
    (h : resolve context assembly.object base ⟨internalName (line.operand 0), .code,
      UInt32.ofNat (offset + jumpOffset opcode), .addr16Iwt⟩ = .ok target)
    (hsymbol : symbol.offset ≤ assembly.object.codeSection.length) :
    target.address = context.config.codeStartAddress.toNat + base.code + symbol.offset := by
  have hsize : assembly.object.codeSection.length ≤ 0x4000000 := hv.codeSize
  have hexact : (UInt32.ofNat symbol.offset).toNat = symbol.offset :=
    UInt32.toNat_ofNat_of_lt' (by
      show symbol.offset < 2 ^ 32
      omega)
  unfold resolve at h
  dsimp only at h
  rw [if_pos (show isPrivate (internalName (line.operand 0)) = true from rfl)] at h
  unfold resolveLocal at h
  split at h
  · cases h
  · rename_i found hfind
    rw [rejectIf_bind_eq_ok, bind_eq_ok] at h
    obtain ⟨-, address, haddress, h⟩ := h
    obtain ⟨rfl, -⟩ := checkedAddress_eq_ok.mp haddress
    cases h
    have hname : found.name = internalName (line.operand 0) := by simpa using List.find?_some hfind
    -- names are unique in a valid object
    have hfound := List.inj_on_of_nodup_map hv.names (List.mem_of_find?_eq_some hfind)
      hr.symbol_mem hname
    rw [hfound]
    show context.config.codeStartAddress.toNat + base.code + (UInt32.ofNat symbol.offset).toNat = _
    rw [hexact]

/-- The bytes of a long branch, but for its target, are those of the object. -/
theorem longBytes_eq {branch : LongBranch} (hop : branch.opcode = opcode.toBitVec) {k : Nat}
    (h1 : k ≠ jumpOffset opcode + 1) (h2 : k ≠ jumpOffset opcode + 2) :
    branch.bytes[k]? = ((relaxedBytes opcode)[k]?).map UInt8.toBitVec := by
  by_cases hbra : opcode = 5
  · have hopcode : branch.opcode = 5 := by rw [hop, hbra]; rfl
    rw [bytes_jump hopcode]
    simp only [jumpOffset, relaxedBytes, hbra, if_true] at h1 h2 ⊢
    rcases k with _ | _ | _ | _ | k
    · rfl
    · exact absurd rfl h1
    · exact absurd rfl h2
    · rfl
    · rfl
  · have hopcode : branch.opcode ≠ 5 := by
      intro heq
      exact hbra (UInt8.toBitVec_inj.mp (hop.symm.trans heq))
    rw [bytes_conditional hopcode, hop]
    simp only [jumpOffset, relaxedBytes, hbra, if_false] at h1 h2 ⊢
    rcases k with _ | _ | _ | _ | _ | _ | _ | k
    · rfl
    · rfl
    · rfl
    · rfl
    · exact absurd rfl h1
    · exact absurd rfl h2
    · rfl
    · rfl

theorem longBytes_length {branch : LongBranch} (hop : branch.opcode = opcode.toBitVec) :
    branch.bytes.length = (relaxedBytes opcode).length := by
  by_cases hbra : opcode = 5
  · have hopcode : branch.opcode = 5 := by rw [hop, hbra]; rfl
    rw [bytes_jump hopcode]
    simp [relaxedBytes, hbra]
  · have hopcode : branch.opcode ≠ 5 := by
      intro heq
      exact hbra (UInt8.toBitVec_inj.mp (hop.symm.trans heq))
    rw [bytes_conditional hopcode]
    simp [relaxedBytes, hbra]

/-- The target of a long branch follows its IWT. -/
theorem longBytes_target {branch : LongBranch} (hop : branch.opcode = opcode.toBitVec) :
    branch.bytes[jumpOffset opcode + 1]? = some (branch.target.setWidth 8) ∧
      branch.bytes[jumpOffset opcode + 2]? = some ((branch.target >>> 8).setWidth 8) := by
  by_cases hbra : opcode = 5
  · have hopcode : branch.opcode = 5 := by rw [hop, hbra]; rfl
    rw [bytes_jump hopcode]
    simp [jumpOffset, hbra]
  · have hopcode : branch.opcode ≠ 5 := by
      intro heq
      exact hbra (UInt8.toBitVec_inj.mp (hop.symm.trans heq))
    rw [bytes_conditional hopcode]
    simp [jumpOffset, hbra]

theorem low_byte (address : Nat) :
    (UInt8.ofNat address).toBitVec = (BitVec.ofNat 16 address).setWidth 8 := by
  apply BitVec.eq_of_toNat_eq
  simp

theorem high_byte (address : Nat) :
    (UInt8.ofNat (address / 0x100)).toBitVec = (BitVec.ofNat 16 address >>> 8).setWidth 8 := by
  apply BitVec.eq_of_toNat_eq
  simp [Nat.shiftRight_eq_div_pow]
  omega

/-- Wherever its object is linked, a relaxed branch is a long branch to its label. -/
theorem RelaxedBranch.relinked (hr : RelaxedBranch assembly line offset opcode symbol)
    (ha : Assembled assembly) (hl : Linked options image)
    (ho : image.objects[i]? = some assembly.object) (hb : image.bases[i]? = some base) :
    Relinked image (base.code + offset)
      ⟨BitVec.ofNat 16 (image.origin + base.code + offset), opcode.toBitVec,
        BitVec.ofNat 16 (image.origin + base.code + symbol.offset)⟩ := by
  have hv := hl.valid assembly.object (List.mem_of_getElem? ho)
  have hsize : assembly.object.codeSection.length ≤ 0x4000000 := hv.codeSize
  have hle := hr.length_le
  have hjump := jumpOffset_add opcode
  obtain ⟨target, htarget, hwrites⟩ := hl.payloadPlaced.relocations i _ base ho hb _ hr.relocation
  have haddress := hr.resolve_eq hv htarget (ha.label_le hr.label hr.sect)
  have hexact : (UInt32.ofNat (offset + jumpOffset opcode)).toNat = offset + jumpOffset opcode :=
    UInt32.toNat_ofNat_of_lt' (by
      show offset + jumpOffset opcode < 2 ^ 32
      omega)
  have hstart : image.patchStart base ⟨internalName (line.operand 0), .code,
      UInt32.ofNat (offset + jumpOffset opcode), .addr16Iwt⟩ = base.code := if_pos rfl
  have haddress' : target.address = image.origin + base.code + symbol.offset := haddress
  rw [hstart, hexact, haddress'] at hwrites
  refine ⟨by rw [Nat.add_assoc], hr.opcode_range.1, hr.opcode_range.2, ?_⟩
  have hop : (⟨BitVec.ofNat 16 (image.origin + base.code + offset), opcode.toBitVec,
      BitVec.ofNat 16 (image.origin + base.code + symbol.offset)⟩ : LongBranch).opcode =
        opcode.toBitVec := rfl
  intro k byte hbyte
  have hlong : k < (relaxedBytes opcode).length := by
    rw [← longBytes_length hop]
    exact (List.getElem?_eq_some_iff.mp hbyte).1
  by_cases h1 : k = jumpOffset opcode + 1
  · subst h1
    have hwrite := hwrites _ (List.mem_cons_self)
    rw [(longBytes_target hop).1] at hbyte
    cases hbyte
    rw [Nat.add_assoc base.code, show offset + (jumpOffset opcode + 1) =
      offset + jumpOffset opcode + 1 by omega, hwrite, Option.map_some, low_byte]
  by_cases h2 : k = jumpOffset opcode + 2
  · subst h2
    have hwrite := hwrites _ (List.mem_cons_of_mem _ List.mem_cons_self)
    rw [(longBytes_target hop).2] at hbyte
    cases hbyte
    rw [Nat.add_assoc base.code, show offset + (jumpOffset opcode + 2) =
      offset + jumpOffset opcode + 2 by omega, hwrite, Option.map_some, high_byte]
  · rw [Nat.add_assoc, hl.codeByte ho hb (by omega) (hr.not_operand hv hlong h1 h2),
      hr.bytes k hlong, ← longBytes_eq hop h1 h2, hbyte]

end Linked

end Disco.Assembler
