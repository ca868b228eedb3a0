import Disco.Gsu.Pipeline

/-! # The instruction cache keeps what memory keeps

Addresses whose bytes never change are read as these bytes, from memory and
from every valid line of the cache, whatever happens to the bytes around them.
-/

namespace Disco.Gsu

open Library

/-! ## Lines -/

theorem lineStart_eq_shift (address : Word) : lineStart address = (address >>> 4) <<< 4 := by
  unfold lineStart
  ext i hi
  simp only [BitVec.getElem_and, BitVec.getElem_shiftLeft]
  interval_cases i <;> simp

theorem lineStart_toNat (address : Word) :
    (lineStart address).toNat = address.toNat / 16 * 16 := by
  rw [lineStart_eq_shift, BitVec.toNat_shiftLeft, BitVec.toNat_ushiftRight,
    Nat.shiftRight_eq_div_pow, Nat.shiftLeft_eq]
  have := address.isLt
  omega

/-- The lines of an aligned window are lines of memory. -/
theorem window_address {base pc : Word} (h : lineStart base = base) (i : Nat) (hi : i < 16) :
    lineStart pc + BitVec.ofNat 16 i =
      base + BitVec.ofNat 16 ((pc - base).toNat / 16 * 16 + i) := by
  have hbase := congrArg BitVec.toNat h
  rw [lineStart_toNat] at hbase
  apply BitVec.eq_of_toNat_eq
  simp only [BitVec.toNat_add, BitVec.toNat_sub, BitVec.toNat_ofNat, lineStart_toNat]
  have := base.isLt
  have := pc.isLt
  omega

theorem lineStart_add (first : Word) {i : Nat} (hi : i < 16) :
    lineStart (lineStart first + BitVec.ofNat 16 i) = lineStart first := by
  apply BitVec.eq_of_toNat_eq
  rw [lineStart_toNat, BitVec.toNat_add, BitVec.toNat_ofNat, lineStart_toNat]
  have := first.isLt
  omega

theorem lineStart_idem (address : Word) : lineStart (lineStart address) = lineStart address := by
  have h := lineStart_add address (i := 0) (by decide)
  simpa using h

/-! ## Bytes that stay -/

section Held

variable {program : Program} {held : Word → Byte → Prop} {core : Core} {cache : Cache}

/-- Memory holds the given bytes. -/
def Intact (program : Program) (held : Word → Byte → Prop) (core : Core) : Prop :=
  ∀ address byte, held address byte → programByte program core address = .ok byte

/-- Valid lines hold the given bytes. -/
structure Coherent (held : Word → Byte → Prop) (cache : Cache) : Prop where
  aligned : lineStart cache.cacheBase = cache.cacheBase
  valid : ∀ line i, i < 16 → cache.cacheValid line = true → ∀ byte,
    held (cache.cacheBase + BitVec.ofNat 16 (line * 16 + i)) byte →
      cache.instructionCache (line * 16 + i) = byte

theorem coherent_empty (held : Word → Byte → Prop) : Coherent held {} :=
  ⟨rfl, fun _ _ _ hvalid => by cases hvalid⟩

theorem Intact.of_ram {other : Core} (h : Intact program held core)
    (hr : other.ram = core.ram) : Intact program held other := by
  intro address byte hheld
  have hbyte := h address byte hheld
  unfold programByte at *
  rwa [hr]

theorem Coherent.rebase (hc : Coherent held cache) (pc : Word) :
    Coherent held (cache.rebase pc) := by
  unfold Cache.rebase
  split
  · exact ⟨lineStart_idem _, fun _ _ _ hvalid => by cases hvalid⟩
  · exact ⟨hc.aligned, hc.valid⟩

/-! ## Fetching -/

/-- What a filled line holds. -/
theorem lineBytes_eq_ok {first : Word} {bytes : List Byte}
    (h : lineBytes program core first = .ok bytes) {i : Nat} (hi : i < 16) :
    programByte program core (first + BitVec.ofNat 16 i) = .ok (bytes.getD i 0) := by
  -- the bytes read so far are those of the indices seen so far
  have hseen : bytes.length = (List.range 16).length ∧ ∀ k < (List.range 16).length,
      programByte program core (first + BitVec.ofNat 16 ((List.range 16).getD k 0)) =
        .ok (bytes.getD k 0) := by
    refine foldAll_seen (I := fun seen bytes => bytes.length = seen.length ∧
      ∀ k < seen.length, programByte program core (first + BitVec.ofNat 16 (seen.getD k 0)) =
        .ok (bytes.getD k 0)) ?_ ⟨rfl, by simp⟩ h
    intro seen read index next hread hnext
    obtain ⟨byte, hbyte, hnext⟩ := bind_eq_ok.mp hnext
    cases hnext
    refine ⟨by simp [hread.1], fun k hk => ?_⟩
    rcases Nat.lt_or_ge k seen.length with hlt | hge
    · rw [List.getD_append _ _ _ _ hlt, List.getD_append _ _ _ _ (hread.1 ▸ hlt)]
      exact hread.2 k hlt
    · obtain rfl : k = seen.length := by
        simp only [List.length_append, List.length_cons, List.length_nil] at hk
        omega
      rw [List.getD_append_right _ _ _ _ le_rfl, ← hread.1,
        List.getD_append_right _ _ _ _ le_rfl]
      simpa using hbyte
  have hi' := hseen.2 i (by simpa using hi)
  rwa [List.getD_eq_getElem _ _ (by simpa using hi), List.getElem_range] at hi'

/-- ROM is mapped in whole lines. -/
theorem romIndex_line {bank : Nat} {address : Word} {index : Nat}
    (h : romIndex (bank * 65536 + address.toNat) = .ok index) {i : Nat} (hi : i < 16) :
    ∃ other, romIndex (bank * 65536 + (lineStart address + BitVec.ofNat 16 i).toNat) =
      .ok other := by
  have hlt := address.isLt
  have hline : (lineStart address + BitVec.ofNat 16 i).toNat = address.toNat / 16 * 16 + i := by
    rw [BitVec.toNat_add, BitVec.toNat_ofNat, lineStart_toNat]
    omega
  have hbank : (bank * 65536 + address.toNat) / 65536 = bank := by omega
  have hoffset : (bank * 65536 + address.toNat) % 65536 = address.toNat := by omega
  have hbank' : (bank * 65536 + (address.toNat / 16 * 16 + i)) / 65536 = bank := by omega
  have hoffset' : (bank * 65536 + (address.toNat / 16 * 16 + i)) % 65536 =
      address.toNat / 16 * 16 + i := by omega
  rw [hline]
  unfold romIndex at h ⊢
  dsimp only at h ⊢
  rw [hbank, hoffset] at h
  rw [hbank', hoffset']
  by_cases hlow : bank < 0x40 ∧ address.toNat ≥ 0x8000
  · rw [if_pos ⟨hlow.1, by omega⟩]
    exact ⟨_, rfl⟩
  · rw [if_neg hlow] at h
    by_cases hhigh : bank ≥ 0x40 ∧ bank ≤ 0x5f
    · rw [if_neg (by omega), if_pos hhigh]
      exact ⟨_, rfl⟩
    · rw [if_neg hhigh] at h
      cases h

/-- A line with one readable byte is readable. -/
theorem lineBytes_total {address : Word} {byte : Byte}
    (h : programByte program core address = .ok byte) :
    ∃ bytes, lineBytes program core (lineStart address) = .ok bytes := by
  refine foldAll_total (fun read i hm => ?_) []
  have hi : i < 16 := List.mem_range.mp hm
  have hread : ∃ byte, programByte program core (lineStart address + BitVec.ofNat 16 i) =
      .ok byte := by
    unfold programByte at h ⊢
    split
    · rename_i hbank
      have hlt := (lineStart address + BitVec.ofNat 16 i).isLt
      unfold readRam
      rw [if_pos (by unfold ramBytes; omega)]
      exact ⟨_, rfl⟩
    · rename_i hbank
      rw [if_neg hbank] at h
      obtain ⟨index, hindex, -⟩ := bind_eq_ok.mp h
      obtain ⟨other, hother⟩ := romIndex_line hindex hi
      exact ⟨program.rom other, bind_eq_ok.mpr ⟨other, hother, rfl⟩⟩
  obtain ⟨next, hnext⟩ := hread
  exact ⟨read ++ [next], bind_eq_ok.mpr ⟨next, hnext, rfl⟩⟩

theorem Coherent.fill (hi : Intact program held core) (hc : Coherent held cache) {pc : Word}
    {bytes : List Byte} (hbytes : lineBytes program core (lineStart pc) = .ok bytes) :
    Coherent held (cache.fill ((pc - cache.cacheBase).toNat / 16) bytes) where
  aligned := hc.aligned
  valid := by
    intro line i hlt hvalid byte hheld
    have hline : (line * 16 + i) / 16 = line := by omega
    have hrest : (line * 16 + i) % 16 = i := by omega
    show (if (line * 16 + i) / 16 = (pc - cache.cacheBase).toNat / 16 then _ else _) = _
    rw [hline]
    split
    · rename_i heq
      have hread := hi _ _ hheld
      have haddress : cache.cacheBase + BitVec.ofNat 16 (line * 16 + i) =
          lineStart pc + BitVec.ofNat 16 i := by
        rw [heq]
        exact (window_address hc.aligned i hlt).symm
      have hfilled := lineBytes_eq_ok hbytes hlt
      rw [← haddress] at hfilled
      rw [hrest]
      exact Except.ok.inj (hfilled.symm.trans hread)
    · rename_i hne
      refine hc.valid line i hlt ?_ byte hheld
      have hkept : (cache.fill ((pc - cache.cacheBase).toNat / 16) bytes).cacheValid line =
          cache.cacheValid line := Function.update_of_ne hne _ _
      rwa [hkept] at hvalid

/-- What a valid line delivers for a byte that stays. -/
theorem Coherent.byte (hc : Coherent held cache) {pc : Word} {byte : Byte} (hheld : held pc byte)
    (hvalid : cache.cacheValid ((pc - cache.cacheBase).toNat / 16) = true) :
    cache.instructionCache (pc - cache.cacheBase).toNat = byte := by
  have hmod : (pc - cache.cacheBase).toNat % 16 < 16 := Nat.mod_lt _ (by decide)
  have h := hc.valid _ _ hmod hvalid byte
  rw [Nat.div_add_mod'] at h
  apply h
  have haddress : cache.cacheBase + BitVec.ofNat 16 (pc - cache.cacheBase).toNat = pc := by
    apply BitVec.eq_of_toNat_eq
    simp only [BitVec.toNat_add, BitVec.toNat_ofNat, BitVec.toNat_sub]
    have := pc.isLt
    have := cache.cacheBase.isLt
    omega
  rwa [haddress]

/-- A fetch keeps the cache coherent and delivers the bytes that stay. -/
theorem fetch_coherent (hi : Intact program held core) (hc : Coherent held cache) :
    Ends (fun result => Coherent held result.2 ∧ ∀ byte, held core.pc byte → result.1 = byte)
      (fun _ => True) (fetch program core cache) := by
  unfold fetch
  dsimp only
  split
  · split
    · split
      · rename_i hvalid
        exact ⟨hc, fun byte hheld => hc.byte hheld hvalid⟩
      · cases hbytes : lineBytes program core (lineStart core.pc) with
        | error e => trivial
        | ok bytes =>
            have hfilled := hc.fill hi hbytes
            exact ⟨hfilled, fun byte hheld =>
              hfilled.byte hheld (Function.update_self _ _ _)⟩
    · cases hbyte : programByte program core core.pc with
      | error e => trivial
      | ok byte =>
          refine ⟨hc, fun expected hheld => ?_⟩
          exact Except.ok.inj (hbyte.symm.trans (hi _ _ hheld))
  · trivial

/-- A byte that stays can be fetched. -/
theorem fetch_held (hi : Intact program held core) (hc : Coherent held cache) {byte : Byte}
    (hheld : held core.pc byte) (hin : inside program core.pc) :
    ∃ next, fetch program core cache = .ok (byte, next) ∧ Coherent held next := by
  have hspec := fetch_coherent hi hc
  have hread := hi _ _ hheld
  have htotal : ∃ result, fetch program core cache = .ok result := by
    obtain ⟨bytes, hbytes⟩ := lineBytes_total hread
    unfold fetch
    rw [if_pos hin, hbytes, hread]
    dsimp only
    split
    · split
      · exact ⟨_, rfl⟩
      · exact ⟨_, rfl⟩
    · exact ⟨_, rfl⟩
  obtain ⟨⟨fetched, next⟩, hfetch⟩ := htotal
  rw [hfetch] at hspec
  obtain ⟨hnext, hsame⟩ := hspec
  obtain rfl := hsame byte hheld
  exact ⟨next, hfetch, hnext⟩

/-! ## Steps -/

/-- The cache is coherent, and so is the byte in the pipeline. -/
structure Steady (held : Word → Byte → Prop) (cpu : Cpu) : Prop where
  coherent : Coherent held cpu.cache
  fetched : ∀ address byte, cpu.state.address = some address → held address byte →
    cpu.state.pipeline = byte

theorem Steady.mapCore {cpu : Cpu} (h : Steady held cpu) (f : Core → Core) :
    Steady held (mapCore f cpu) :=
  ⟨h.coherent, h.fetched⟩

theorem prefetch_steady {cpu : Cpu} (hi : Intact program held cpu.state.core)
    (hc : Coherent held cpu.cache) :
    Ends (fun next => Steady held next ∧ next.state.core = cpu.state.core) (fun _ => True)
      (prefetch program cpu) := by
  refine (fetch_coherent hi hc).bind fun result hresult => ?_
  refine ⟨⟨hresult.1, fun address byte haddress hheld => ?_⟩, rfl⟩
  cases haddress
  exact hresult.2 byte hheld

theorem operand_steady {cpu : Cpu} (hi : Intact program held cpu.state.core)
    (hc : Coherent held cpu.cache) :
    Ends (fun result => Steady held result.2 ∧ result.2.state.core.ram = cpu.state.core.ram)
      (fun _ => True) (operand program cpu) := by
  have hmoved : Intact program held (mapCore (fun core => core.setPc (core.pc + 1)) cpu).state.core :=
    hi.of_ram rfl
  refine (prefetch_steady hmoved hc).bind fun next hnext => ?_
  refine ⟨hnext.1, ?_⟩
  show next.state.core.ram = _
  rw [hnext.2]
  rfl

theorem execute_steady (opcode : Byte) {cpu : Cpu} (h : Steady held cpu)
    (hi : Intact program held cpu.state.core) :
    Ends (Steady held) (fun _ => True) (execute program opcode cpu) := by
  unfold execute
  dsimp only
  split
  · refine (operand_steady hi h.coherent).bind fun result hresult => ?_
    show Steady held (if branchTaken opcode result.2.state.core then _ else result.2)
    split
    · exact hresult.1.mapCore _
    · exact hresult.1
  · split
    · exact (operand_steady hi h.coherent).bind fun result hresult => hresult.1.mapCore _
    · split
      · refine (operand_steady hi h.coherent).bind fun result hresult => ?_
        exact (operand_steady (hi.of_ram hresult.2) hresult.1.coherent).bind
          fun last hlast => hlast.1.mapCore _
      · cases perform program opcode cpu.state.core with
        | error e => trivial
        | ok after =>
            refine ⟨?_, h.fetched⟩
            show Coherent held (if opcode = 2 then _ else _)
            split
            · exact h.coherent.rebase _
            · exact h.coherent

/-- A step keeps what memory keeps. -/
theorem step_steady {cpu next : Cpu} (hi : Intact program held cpu.state.core)
    (h : Steady held cpu) (hstep : step program cpu = .ok next) : Steady held next := by
  unfold step at hstep
  obtain ⟨first, hfirst, hstep⟩ := bind_eq_ok.mp hstep
  obtain ⟨hsteady, hcore⟩ := (prefetch_steady hi h.coherent).of_ok (mapError_eq_ok.mp hfirst)
  dsimp only at hstep
  split at hstep
  · cases hstep
  · obtain ⟨last, hlast, hstep⟩ := bind_eq_ok.mp hstep
    cases hstep
    have hreset : Intact program held
        (mapCore (fun core => { core with pcWritten := false }) first).state.core :=
      hi.of_ram (by rw [← hcore]; rfl)
    have hdone := (execute_steady cpu.state.pipeline (hsteady.mapCore _) hreset).of_ok
      (mapError_eq_ok.mp hlast)
    unfold advance
    split
    · exact hdone
    · exact hdone.mapCore _

end Held

end Disco.Gsu
