import Disco.Frontend.Binding

/-! # Struct layout

`Analyzer::registerStructSymbol`: the members of a struct, each at the next multiple
of its alignment, and the size of the whole.
-/

namespace Disco.Frontend

open IR Library Analyzer

/-! ## Definitions -/

inductive LayoutAttribute where
  | packed
  | align (argument : Expr)

structure MemberDecl where
  name : String
  type : Ty
  extent : Option Expr := none

structure StructDef where
  name : String
  attributes : List LayoutAttribute := []
  members : List MemberDecl

structure StructMember where
  name : String
  type : Ty
  offset : Int

structure StructLayout where
  name : String
  packed : Bool
  totalSize : Int
  alignment : Int
  members : List StructMember

namespace StructMember

/-- The elements of an array, or one. -/
def elements (m : StructMember) : Int := if m.type.arraySize > 0 then m.type.arraySize else 1

def bytes (m : StructMember) : Int := m.type.sizeInBytes * m.elements

end StructMember

/-- What expressions and types can see of a layout. -/
def StructLayout.symbol (layout : StructLayout) : StructSymbol where
  totalSize := layout.totalSize
  alignment := layout.alignment
  members := layout.members.map fun m => (m.name, m.offset.toNat)

def structEntries (layouts : List StructLayout) : List (String × StructSymbol) :=
  layouts.map fun layout => (layout.name, layout.symbol)

/-! ## Registration -/

def resolveExtent (env : Env) (type : Ty) : Option Expr → Except String Ty
  | none => .ok type
  | some extent => do
      let extent ← analyzeExpr env extent none
      rejectIf (extent.resultType.pointerLevel ≠ 0) "Array size must be an integer constant expression."
      match ← ConstantEvaluator.evaluate extent with
      | none => .error "Array size must be an integer constant expression."
      | some size => do
          rejectIf (size < 1 ∨ size > 1000000) "Array size must be between 1 and 1000000."
          pure { type with arraySize := size }

def alignArgument (env : Env) (argument : Expr) : Except String Int := do
  let argument ← analyzeExpr env argument none
  match ← ConstantEvaluator.evaluate argument with
  | none => .error "@align requires a power of two in 1..128."
  | some alignment => do
      rejectIf (alignment < 1 ∨ alignment > 128 ∨ alignment.toNat &&& (alignment.toNat - 1) ≠ 0)
        "@align requires a power of two in 1..128."
      pure alignment

/-- The last `@align`, or zero. -/
def explicitAlignment (env : Env) (attributes : List LayoutAttribute) : Except String Int :=
  attributes.foldlM (fun explicit annotation =>
    match annotation with
    | .packed => .ok explicit
    | .align argument => alignArgument env argument) 0

def isPacked (attributes : List LayoutAttribute) : Bool :=
  attributes.any fun
    | .packed => true
    | .align _ => false

def memberAlignment (env : Env) (packed : Bool) (type : Ty) : Except String Int :=
  if packed = true then .ok 1 else (typeAlignment env type).map fun alignment => max 2 alignment

/-- The members so far end at an offset; the next one begins at a multiple of its alignment. -/
def placeMember (env : Env) (packed : Bool) (placed : Int × List StructMember) (declaration : MemberDecl) :
    Except String (Int × List StructMember) := do
  rejectIf (declaration.name ∈ placed.2.map StructMember.name) ("Duplicate member '" ++ declaration.name ++ "' in struct.")
  let type ← resolveExtent env declaration.type declaration.extent
  let type ← normalizeType env type
  let alignment ← memberAlignment env packed type
  let offset := (placed.1 + alignment - 1) / alignment * alignment
  let placement : StructMember := ⟨declaration.name, type, offset⟩
  rejectIf (type.sizeInBytes < 0 ∨ offset > 2147483647 - type.sizeInBytes) "Struct layout exceeds the supported size limit."
  rejectIf (placement.elements > 65536 / max 1 type.sizeInBytes) "Struct member array exceeds one bank."
  rejectIf (offset + placement.bytes > 65536) "Struct layout exceeds one bank."
  pure (offset + placement.bytes, placed.2 ++ [placement])

/-- Without `@align` the alignment is that of a word, or one for a packed struct. -/
def ownAlignment (explicit : Int) (packed : Bool) : Int := if explicit ≠ 0 then explicit else if packed = true then 1 else 2

/-- A struct definition and the names that its expressions can mean, structs apart. -/
structure Registration where
  env : Env := {}
  definition : StructDef

def registerStructSymbol (layouts : List StructLayout) (r : Registration) : Except String (List StructLayout) := do
  rejectIf (r.definition.name ∈ layouts.map StructLayout.name) ("Struct '" ++ r.definition.name ++ "' already defined.")
  let env := { r.env with structs := structEntries layouts }
  let packed := isPacked r.definition.attributes
  let explicit ← explicitAlignment env r.definition.attributes
  let placed ← r.definition.members.foldlM (placeMember env packed) (0, [])
  let alignment := ownAlignment explicit packed
  pure (layouts ++ [{
    name := r.definition.name
    packed := packed
    totalSize := (placed.1 + alignment - 1) / alignment * alignment
    alignment := alignment
    members := placed.2 }])

/-- The structs of a file, in the order of their definitions. -/
def registerStructs (registrations : List Registration) : Except String (List StructLayout) :=
  registrations.foldlM registerStructSymbol []

/-! ## Layouts that fit -/

/-- The members follow each other inside the struct. -/
structure StructLayout.Arranged (layout : StructLayout) : Prop where
  ordered : layout.members.Pairwise fun a b => a.offset + a.bytes ≤ b.offset
  inside : ∀ m ∈ layout.members, 0 ≤ m.offset ∧ 0 ≤ m.bytes ∧ m.offset + m.bytes ≤ layout.totalSize
  rounded : layout.totalSize % layout.alignment = 0
  bank : layout.totalSize ≤ 65536

/-- A type alone; only the alignment of structs is looked up. -/
def structEnv (layouts : List StructLayout) : Env where
  structs := structEntries layouts

/-- What lies at a displacement in an object: an element of a member, or a part of it
if that is an ordinary struct. -/
inductive Contains (layouts : List StructLayout) : StructLayout → Int → Ty → Prop where
  | element {layout : StructLayout} {m : StructMember} {k : Nat} (hm : m ∈ layout.members) (hk : (k : Int) < m.elements) :
      Contains layouts layout (m.offset + k * m.type.sizeInBytes) m.type
  | part {layout inner : StructLayout} {m : StructMember} {k : Nat} {displacement : Int} {type : Ty}
      (hm : m ∈ layout.members) (hk : (k : Int) < m.elements)
      (hlevel : m.type.pointerLevel = 0) (hbase : m.type.base = .struct)
      (hinner : inner ∈ layouts) (hname : inner.name = m.type.structName) (hordinary : inner.packed = false)
      (h : Contains layouts inner displacement type) :
      Contains layouts layout (m.offset + k * m.type.sizeInBytes + displacement) type

/-- A layout has the members of a definition, in the order in which they are declared. -/
structure Lays (r : Registration) (layout : StructLayout) : Prop where
  name : layout.name = r.definition.name
  packed : layout.packed = isPacked r.definition.attributes
  members : layout.members.map StructMember.name = r.definition.members.map MemberDecl.name
  alignment : ∃ structs explicit, explicitAlignment { r.env with structs := structs } r.definition.attributes = .ok explicit ∧
    layout.alignment = ownAlignment explicit layout.packed

/-- In every object placed at the alignment of its struct, and in every array of such
objects, each part has its own alignment. -/
def RespectsMembers (layouts : List StructLayout) : Prop :=
  ∀ layout ∈ layouts, layout.packed = false → ∀ (base : Nat) (index : Nat) displacement type alignment,
    (base : Int) % layout.alignment = 0 → Contains layouts layout displacement type →
    typeAlignment (structEnv layouts) type = .ok alignment →
    (base + index * layout.totalSize + displacement) % alignment = 0

/-- Layouts of all definitions that are in order and respect their members. -/
structure LaidOut (registrations : List Registration) (layouts : List StructLayout) : Prop where
  lays : List.Forall₂ Lays registrations layouts
  arranged : ∀ layout ∈ layouts, layout.Arranged
  respects : RespectsMembers layouts

/-- An ordinary struct is aligned at least as its members. -/
def CoversMembers (layouts : List StructLayout) : Prop :=
  ∀ layout ∈ layouts, layout.packed = false → ∀ m ∈ layout.members, ∀ alignment,
    typeAlignment (structEnv layouts) m.type = .ok alignment → alignment ≤ layout.alignment

/-! ## Alignments -/

theorem isAlignment_of_bits {alignment : Int} (hlow : 1 ≤ alignment) (hhigh : alignment ≤ 128)
    (h : alignment.toNat &&& (alignment.toNat - 1) = 0) : IsAlignment alignment := by
  have hall : ∀ n ∈ List.range 129, 1 ≤ n → n &&& (n - 1) = 0 → ∃ k ≤ 7, n = 2 ^ k := by
    decide +kernel
  obtain ⟨k, hk, hpower⟩ := hall alignment.toNat (List.mem_range.mpr (by omega)) (by omega) h
  refine ⟨k, hk, ?_⟩
  have hcast : ((alignment.toNat : Nat) : Int) = ((2 ^ k : Nat) : Int) := congrArg _ hpower
  rw [Int.toNat_of_nonneg (by omega)] at hcast
  rw [hcast]
  push_cast
  rfl

theorem alignArgument_isAlignment {env : Env} {argument : Expr} {alignment : Int}
    (h : alignArgument env argument = .ok alignment) : IsAlignment alignment := by
  unfold alignArgument at h
  obtain ⟨typed, -, h⟩ := bind_eq_ok.mp h
  obtain ⟨value, -, h⟩ := bind_eq_ok.mp h
  cases value with
  | none => cases h
  | some value =>
      simp only [rejectIf_bind_eq_ok] at h
      rcases h with ⟨hvalue, h⟩
      cases h
      simp only [not_or, not_lt, not_not] at hvalue
      exact isAlignment_of_bits hvalue.1 hvalue.2.1 hvalue.2.2

theorem explicitAlignment_isAlignment {env : Env} (attributes : List LayoutAttribute) {explicit : Int}
    (h : explicitAlignment env attributes = .ok explicit) : explicit = 0 ∨ IsAlignment explicit := by
  have hstep : ∀ (current : Int) given (next : Int),
      (match given with
        | LayoutAttribute.packed => Except.ok current
        | .align argument => alignArgument env argument) = .ok next →
      (current = 0 ∨ IsAlignment current) → (next = 0 ∨ IsAlignment next) := by
    intro current given next hnext hcurrent
    cases given with
    | packed =>
        cases hnext
        exact hcurrent
    | align argument => exact .inr (alignArgument_isAlignment hnext)
  exact foldlM_preserves hstep attributes h (.inl rfl)

theorem IsAlignment.pos {alignment : Int} (h : IsAlignment alignment) : 0 < alignment ∧ alignment ≤ 128 := by
  rcases h with ⟨k, hk, rfl⟩
  interval_cases k <;> decide

/-- Of two alignments the smaller one divides the greater one. -/
theorem IsAlignment.dvd {small large : Int} (hs : IsAlignment small) (hl : IsAlignment large) (h : small ≤ large) :
    small ∣ large := by
  rcases hs with ⟨k, hk, rfl⟩
  rcases hl with ⟨l, hl, rfl⟩
  have hkl : k ≤ l := (pow_le_pow_iff_right₀ (by decide : (1 : Int) < 2)).mp h
  exact pow_dvd_pow 2 hkl

theorem isAlignment_one : IsAlignment 1 := ⟨0, by decide, rfl⟩

theorem isAlignment_two : IsAlignment 2 := ⟨1, by decide, rfl⟩

theorem ownAlignment_isAlignment {explicit : Int} (h : explicit = 0 ∨ IsAlignment explicit) (packed : Bool) :
    IsAlignment (ownAlignment explicit packed) := by
  unfold ownAlignment
  split
  · rename_i hexplicit
    exact h.resolve_left hexplicit
  · split
    · exact isAlignment_one
    · exact isAlignment_two

theorem IsAlignment.max_two {alignment : Int} (h : IsAlignment alignment) : IsAlignment (max 2 alignment) := by
  rcases le_total 2 alignment with hle | hle
  · rwa [max_eq_right hle]
  · rw [max_eq_left hle]
    exact isAlignment_two

/-- The next multiple. -/
theorem roundUp_spec (offset : Int) {alignment : Int} (ha : 0 < alignment) :
    offset ≤ (offset + alignment - 1) / alignment * alignment ∧
      (offset + alignment - 1) / alignment * alignment < offset + alignment ∧
      (offset + alignment - 1) / alignment * alignment % alignment = 0 := by
  have hdiv := Int.emod_add_mul_ediv (offset + alignment - 1) alignment
  have hlow := Int.emod_nonneg (offset + alignment - 1) (ne_of_gt ha)
  have hhigh := Int.emod_lt_of_pos (offset + alignment - 1) ha
  rw [mul_comm] at hdiv
  exact ⟨by omega, by omega, Int.mul_emod_left _ _⟩

/-! ## Members -/

/-- Known structs have an alignment, and a size that is a multiple of it. -/
def SoundStructs (structs : List (String × StructSymbol)) : Prop :=
  ∀ name symbol, structs.lookup name = some symbol →
    IsAlignment symbol.alignment ∧ 0 ≤ symbol.totalSize ∧ symbol.totalSize % symbol.alignment = 0

/-- A type that has an alignment, and a size that is a multiple of it. -/
structure Sized (env : Env) (type : Ty) (alignment : Int) : Prop where
  aligned : typeAlignment env type = .ok alignment
  isAlignment : IsAlignment alignment
  size : 0 ≤ type.sizeInBytes
  stride : type.sizeInBytes % alignment = 0
  level : 0 ≤ type.pointerLevel
  symbol : type.pointerLevel = 0 → type.base = .struct →
    ∃ symbol, env.structs.lookup type.structName = some symbol ∧ type.sizeInBytes = symbol.totalSize

theorem Sized.pointer {env : Env} {type : Ty} (hlevel : type.pointerLevel > 0)
    (hsize : type.sizeInBytes = 4 ∨ type.sizeInBytes = 2) : Sized env type 2 where
  aligned := by
    unfold typeAlignment
    rw [if_pos hlevel]
  isAlignment := isAlignment_two
  size := by omega
  stride := by omega
  level := by omega
  symbol hzero := by omega

theorem Sized.plain {env : Env} {type : Ty} (hlevel : type.pointerLevel = 0) (hbase : type.base ≠ .struct)
    (hsize : type.sizeInBytes = 0 ∨ type.sizeInBytes = 1 ∨ type.sizeInBytes = 2) :
    ∃ alignment, Sized env type alignment := by
  have halignment : typeAlignment env type = .ok (if type.sizeInBytes = 1 then 1 else 2) := by
    unfold typeAlignment
    rw [if_neg (by omega), if_neg hbase]
  refine ⟨_, halignment, ?_, by omega, ?_, by omega, fun _ hstruct => absurd hstruct hbase⟩
  · split
    · exact isAlignment_one
    · exact isAlignment_two
  · split <;> omega

theorem normalizePointerLayers_pointer {type : Ty} (h : type.pointerLevel > 0) :
    (normalizePointerLayers type).pointerLevel = type.pointerLevel ∧
      ((normalizePointerLayers type).sizeInBytes = 4 ∨ (normalizePointerLayers type).sizeInBytes = 2) := by
  unfold normalizePointerLayers
  rw [if_neg (by omega)]
  refine ⟨rfl, ?_⟩
  simp only
  exact ite_eq_or_eq _ _ _

theorem normalizeType_sized {env : Env} {written type : Ty} (hs : SoundStructs env.structs)
    (h : normalizeType env written = .ok type) : ∃ alignment, Sized env type alignment := by
  unfold normalizeType at h
  obtain ⟨resolved, -, h⟩ := bind_eq_ok.mp h
  simp only [rejectIf_bind_eq_ok] at h
  rcases h with ⟨-, hnegative, h⟩
  split at h
  · rename_i hlevel
    have hpointer := normalizePointerLayers_pointer hlevel
    simp only [rejectIf_bind_eq_ok] at h
    rcases h with ⟨-, h⟩
    have hlevel' : (normalizePointerLayers resolved).pointerLevel > 0 := hpointer.1 ▸ hlevel
    split at h
    · cases h
      exact ⟨2, Sized.pointer hlevel' hpointer.2⟩
    · cases h
      exact ⟨2, Sized.pointer hlevel' hpointer.2⟩
  · rename_i hlevel
    have hzero : resolved.pointerLevel = 0 := by omega
    split at h
    · rename_i hbase
      cases h
      exact Sized.plain hzero (by simp [hbase]) (.inr (.inl rfl))
    · rename_i hbase
      cases h
      exact Sized.plain hzero (by simp [hbase]) (.inr (.inl rfl))
    · rename_i hbase
      cases h
      exact Sized.plain hzero (by simp [hbase]) (.inr (.inr rfl))
    · rename_i hbase
      cases h
      exact Sized.plain hzero (by simp [hbase]) (.inl rfl)
    · rename_i hbase
      split at h
      · cases h
      · rename_i symbol hsymbol
        cases h
        rcases hs _ _ hsymbol with ⟨halignment, hsize, hstride⟩
        refine ⟨symbol.alignment, ?_, halignment, hsize, hstride, hzero.ge, fun _ _ => ⟨symbol, hsymbol, rfl⟩⟩
        unfold typeAlignment
        rw [if_neg (by simpa using hlevel), if_pos hbase]
        simp only [hsymbol]
    · cases h

/-- The members placed so far. -/
structure Placed (env : Env) (packed : Bool) (placed : Int × List StructMember) : Prop where
  bank : 0 ≤ placed.1 ∧ placed.1 ≤ 65536
  ordered : placed.2.Pairwise fun a b => a.offset + a.bytes ≤ b.offset
  inside : ∀ m ∈ placed.2, 0 ≤ m.offset ∧ 0 ≤ m.bytes ∧ m.offset + m.bytes ≤ placed.1
  sized : ∀ m ∈ placed.2, ∃ alignment, Sized env m.type alignment
  aligned : packed = false → ∀ m ∈ placed.2, ∀ alignment, typeAlignment env m.type = .ok alignment →
    m.offset % alignment = 0

theorem StructMember.elements_pos (m : StructMember) : 0 < m.elements := by
  unfold StructMember.elements
  split <;> omega

theorem placeMember_placed {env : Env} {packed : Bool} {placed next : Int × List StructMember} {declaration : MemberDecl}
    (hs : SoundStructs env.structs) (h : placeMember env packed placed declaration = .ok next)
    (hp : Placed env packed placed) : Placed env packed next := by
  unfold placeMember at h
  simp only [rejectIf_bind_eq_ok] at h
  rcases h with ⟨-, h⟩
  obtain ⟨written, -, h⟩ := bind_eq_ok.mp h
  obtain ⟨type, htype, h⟩ := bind_eq_ok.mp h
  obtain ⟨alignment, halignment, h⟩ := bind_eq_ok.mp h
  simp only [rejectIf_bind_eq_ok] at h
  rcases h with ⟨-, -, hbank, h⟩
  cases h
  obtain ⟨own, hsized⟩ := normalizeType_sized hs htype
  -- where the member begins
  have hmember : IsAlignment alignment ∧ (packed = false → alignment = max 2 own) := by
    unfold memberAlignment at halignment
    rw [hsized.aligned] at halignment
    split at halignment
    · rename_i hpacked
      cases halignment
      exact ⟨isAlignment_one, fun hfalse => by simp [hpacked] at hfalse⟩
    · cases halignment
      exact ⟨hsized.isAlignment.max_two, fun _ => rfl⟩
  have hround := roundUp_spec placed.1 hmember.1.pos.1
  have hbytes : 0 ≤ StructMember.bytes ⟨declaration.name, type, (placed.1 + alignment - 1) / alignment * alignment⟩ :=
    Int.mul_nonneg hsized.size (le_of_lt (StructMember.elements_pos _))
  have hold := hp.bank
  refine ⟨⟨by omega, by omega⟩, ?_, ?_, ?_, ?_⟩
  · refine List.pairwise_append.mpr ⟨hp.ordered, List.pairwise_singleton _ _, ?_⟩
    intro m hm other hother
    cases List.mem_singleton.mp hother
    have := (hp.inside m hm).2.2
    exact le_trans this hround.1
  · intro m hm
    rcases List.mem_append.mp hm with hm | hm
    · have := hp.inside m hm
      exact ⟨this.1, this.2.1, by omega⟩
    · cases List.mem_singleton.mp hm
      exact ⟨by show 0 ≤ (placed.1 + alignment - 1) / alignment * alignment; omega, hbytes, le_rfl⟩
  · intro m hm
    rcases List.mem_append.mp hm with hm | hm
    · exact hp.sized m hm
    · cases List.mem_singleton.mp hm
      exact ⟨own, hsized⟩
  · intro hordinary m hm
    rcases List.mem_append.mp hm with hm | hm
    · exact hp.aligned hordinary m hm
    · cases List.mem_singleton.mp hm
      intro other hother
      cases hsized.aligned.symm.trans hother
      have hdvd : own ∣ alignment := by
        rw [hmember.2 hordinary]
        exact hsized.isAlignment.dvd hsized.isAlignment.max_two (le_max_right _ _)
      exact Int.emod_eq_zero_of_dvd (hdvd.trans (Int.dvd_of_emod_eq_zero hround.2.2))

theorem placed_nil (env : Env) (packed : Bool) : Placed env packed (0, []) where
  bank := by decide
  ordered := List.Pairwise.nil
  inside := by simp
  sized := by simp
  aligned := by simp

/-! ## Registered structs -/

/-- What holds of all structs of a file. -/
structure Registered (layouts : List StructLayout) : Prop where
  names : (layouts.map StructLayout.name).Nodup
  arranged : ∀ layout ∈ layouts, layout.Arranged
  alignments : ∀ layout ∈ layouts, IsAlignment layout.alignment ∧ 0 ≤ layout.totalSize
  sized : ∀ layout ∈ layouts, ∀ m ∈ layout.members, ∃ alignment, Sized (structEnv layouts) m.type alignment
  aligned : ∀ layout ∈ layouts, layout.packed = false → ∀ m ∈ layout.members, ∀ alignment,
    typeAlignment (structEnv layouts) m.type = .ok alignment → m.offset % alignment = 0

section Registered

variable {layouts : List StructLayout}

theorem lookup_structEntries {name : String} {symbol : StructSymbol}
    (h : (structEntries layouts).lookup name = some symbol) :
    ∃ layout ∈ layouts, layout.name = name ∧ layout.symbol = symbol := by
  have hmem := Naming.mem_of_lookup h
  obtain ⟨layout, hlayout, hpair⟩ := List.mem_map.mp hmem
  cases hpair
  exact ⟨layout, hlayout, rfl, rfl⟩

theorem Registered.lookup (h : Registered layouts) {layout : StructLayout} (hlayout : layout ∈ layouts) :
    (structEntries layouts).lookup layout.name = some layout.symbol := by
  cases hlookup : (structEntries layouts).lookup layout.name with
  | none =>
      have hnone := List.lookup_eq_none_iff.mp hlookup (layout.name, layout.symbol) (List.mem_map_of_mem hlayout)
      simp at hnone
  | some symbol =>
      obtain ⟨other, hother, hname, rfl⟩ := lookup_structEntries hlookup
      rw [List.inj_on_of_nodup_map h.names hother hlayout hname]

theorem Registered.sound (h : Registered layouts) : SoundStructs (structEntries layouts) := by
  intro name symbol hlookup
  obtain ⟨layout, hlayout, -, rfl⟩ := lookup_structEntries hlookup
  have halignment := h.alignments layout hlayout
  exact ⟨halignment.1, halignment.2, (h.arranged layout hlayout).rounded⟩

/-- A struct that is added hides no other. -/
theorem lookup_append {name : String} {symbol : StructSymbol} (h : (structEntries layouts).lookup name = some symbol)
    (more : List StructLayout) : (structEntries (layouts ++ more)).lookup name = some symbol := by
  unfold structEntries at *
  rw [List.map_append, List.lookup_append, h]
  rfl

theorem typeAlignment_append {type : Ty} {alignment : Int} (h : typeAlignment (structEnv layouts) type = .ok alignment)
    (more : List StructLayout) : typeAlignment (structEnv (layouts ++ more)) type = .ok alignment := by
  unfold typeAlignment at *
  split
  · rename_i hlevel
    rwa [if_pos hlevel] at h
  · rename_i hlevel
    rw [if_neg hlevel] at h
    split
    · rename_i hbase
      rw [if_pos hbase] at h
      cases hlookup : (structEnv layouts).structs.lookup type.structName with
      | none =>
          rw [hlookup] at h
          cases h
      | some symbol =>
          rw [hlookup] at h
          have hmore : (structEnv (layouts ++ more)).structs.lookup type.structName = some symbol :=
            lookup_append hlookup more
          rw [hmore]
          exact h
    · rename_i hbase
      rwa [if_neg hbase] at h

theorem Sized.append {type : Ty} {alignment : Int} (h : Sized (structEnv layouts) type alignment) (more : List StructLayout) :
    Sized (structEnv (layouts ++ more)) type alignment where
  aligned := typeAlignment_append h.aligned more
  isAlignment := h.isAlignment
  size := h.size
  stride := h.stride
  level := h.level
  symbol := by
    intro hlevel hbase
    rcases h.symbol hlevel hbase with ⟨symbol, hsymbol, hsize⟩
    exact ⟨symbol, lookup_append hsymbol more, hsize⟩

/-- The alignment of a sized type is known already. -/
theorem Sized.unique {env : Env} {type : Ty} {alignment other : Int} (h : Sized env type alignment)
    (k : typeAlignment env type = .ok other) : other = alignment :=
  Except.ok.inj (k.symm.trans h.aligned)

theorem registerStructSymbol_registered {r : Registration} {next : List StructLayout} (h : Registered layouts)
    (hregister : registerStructSymbol layouts r = .ok next) : Registered next := by
  unfold registerStructSymbol at hregister
  simp only [rejectIf_bind_eq_ok] at hregister
  rcases hregister with ⟨hname, hregister⟩
  obtain ⟨explicit, hexplicit, hregister⟩ := bind_eq_ok.mp hregister
  obtain ⟨placed, hplaced, hregister⟩ := bind_eq_ok.mp hregister
  cases hregister
  have halignment := ownAlignment_isAlignment (explicitAlignment_isAlignment _ hexplicit) (isPacked r.definition.attributes)
  have hmembers : Placed { r.env with structs := structEntries layouts } (isPacked r.definition.attributes) placed :=
    foldlM_preserves (fun _ _ _ hnext hp => placeMember_placed h.sound hnext hp) _ hplaced (placed_nil _ _)
  -- the alignment of a type depends on the structs only
  have hsized : ∀ m ∈ placed.2, ∃ alignment, Sized (structEnv layouts) m.type alignment := by
    intro m hm
    rcases hmembers.sized m hm with ⟨alignment, hsized⟩
    exact ⟨alignment, hsized.aligned, hsized.isAlignment, hsized.size, hsized.stride, hsized.level, hsized.symbol⟩
  have hbank := hmembers.bank
  have hround := roundUp_spec placed.1 halignment.pos.1
  generalize ownAlignment explicit (isPacked r.definition.attributes) = alignment at *
  refine ⟨?_, ?_, ?_, ?_, ?_⟩
  · rw [List.map_append, List.nodup_append]
    refine ⟨h.names, List.nodup_singleton _, ?_⟩
    intro name hmem other hother heq
    cases List.mem_singleton.mp hother
    have hsame : name = r.definition.name := heq
    exact hname (hsame ▸ hmem)
  · intro layout hlayout
    rcases List.mem_append.mp hlayout with hlayout | hlayout
    · exact h.arranged layout hlayout
    · cases List.mem_singleton.mp hlayout
      refine ⟨hmembers.ordered, ?_, hround.2.2, ?_⟩
      · intro m hm
        have := hmembers.inside m hm
        exact ⟨this.1, this.2.1, this.2.2.trans hround.1⟩
      · -- a bank is a multiple of every alignment
        obtain ⟨k, hk, hpower⟩ := halignment
        have hdvd : alignment ∣ 65536 := hpower ▸ pow_dvd_pow 2 (show k ≤ 16 by omega)
        obtain ⟨count, hcount⟩ := hdvd
        have hlt : (placed.1 + alignment - 1) / alignment * alignment < (count + 1) * alignment := by
          rw [add_mul, one_mul, mul_comm count, ← hcount]
          omega
        have hle := Int.lt_add_one_iff.mp (lt_of_mul_lt_mul_right hlt (by omega))
        show (placed.1 + alignment - 1) / alignment * alignment ≤ 65536
        rw [hcount, mul_comm alignment]
        exact Int.mul_le_mul_of_nonneg_right hle (by omega)
  · intro layout hlayout
    rcases List.mem_append.mp hlayout with hlayout | hlayout
    · exact h.alignments layout hlayout
    · cases List.mem_singleton.mp hlayout
      exact ⟨halignment, hbank.1.trans hround.1⟩
  · intro layout hlayout m hm
    rcases List.mem_append.mp hlayout with hlayout | hlayout
    · rcases h.sized layout hlayout m hm with ⟨alignment, hsized⟩
      exact ⟨alignment, hsized.append _⟩
    · cases List.mem_singleton.mp hlayout
      rcases hsized m hm with ⟨alignment, hsized⟩
      exact ⟨alignment, hsized.append _⟩
  · intro layout hlayout hordinary m hm own hown
    rcases List.mem_append.mp hlayout with hlayout | hlayout
    · rcases h.sized layout hlayout m hm with ⟨alignment, hsized⟩
      cases (hsized.append _).unique hown
      exact h.aligned layout hlayout hordinary m hm _ hsized.aligned
    · cases List.mem_singleton.mp hlayout
      rcases hsized m hm with ⟨alignment, hsized⟩
      cases (hsized.append _).unique hown
      exact hmembers.aligned hordinary m hm _ hsized.aligned

theorem registerStructs_registered {registrations : List Registration} (h : registerStructs registrations = .ok layouts) :
    Registered layouts := by
  refine foldlM_preserves (fun _ _ _ hnext hr => registerStructSymbol_registered hr hnext) _ h ?_
  exact ⟨List.nodup_nil, by simp, by simp, by simp, by simp⟩

theorem placeMembers_names {env : Env} {packed : Bool} (declarations : List MemberDecl) :
    ∀ {placed next : Int × List StructMember}, declarations.foldlM (placeMember env packed) placed = .ok next →
      next.2.map StructMember.name = placed.2.map StructMember.name ++ declarations.map MemberDecl.name := by
  induction declarations with
  | nil =>
      intro placed next h
      cases h
      simp
  | cons declaration rest ih =>
      intro placed next h
      rw [List.foldlM_cons] at h
      obtain ⟨between, hbetween, h⟩ := bind_eq_ok.mp h
      have hnext : between.2.map StructMember.name = placed.2.map StructMember.name ++ [declaration.name] := by
        unfold placeMember at hbetween
        simp only [rejectIf_bind_eq_ok] at hbetween
        rcases hbetween with ⟨-, hbetween⟩
        obtain ⟨written, -, hbetween⟩ := bind_eq_ok.mp hbetween
        obtain ⟨type, -, hbetween⟩ := bind_eq_ok.mp hbetween
        obtain ⟨alignment, -, hbetween⟩ := bind_eq_ok.mp hbetween
        simp only [rejectIf_bind_eq_ok] at hbetween
        rcases hbetween with ⟨-, -, -, hbetween⟩
        cases hbetween
        simp
      rw [ih h, hnext]
      simp

theorem registerStructSymbol_lays {r : Registration} {next : List StructLayout}
    (h : registerStructSymbol layouts r = .ok next) : ∃ layout, next = layouts ++ [layout] ∧ Lays r layout := by
  unfold registerStructSymbol at h
  simp only [rejectIf_bind_eq_ok] at h
  rcases h with ⟨-, h⟩
  obtain ⟨explicit, hexplicit, h⟩ := bind_eq_ok.mp h
  obtain ⟨placed, hplaced, h⟩ := bind_eq_ok.mp h
  cases h
  exact ⟨_, rfl, rfl, rfl, (placeMembers_names _ hplaced).trans (List.nil_append _), _, explicit, hexplicit, rfl⟩

theorem registerStructs_lays {registrations : List Registration} (h : registerStructs registrations = .ok layouts) :
    List.Forall₂ Lays registrations layouts := by
  have hrest : ∀ (rest done : List Registration) {before after : List StructLayout}, List.Forall₂ Lays done before →
      rest.foldlM registerStructSymbol before = .ok after → List.Forall₂ Lays (done ++ rest) after := by
    intro rest
    induction rest with
    | nil =>
        intro done before after hdone hafter
        cases hafter
        rwa [List.append_nil]
    | cons r rest ih =>
        intro done before after hdone hafter
        rw [List.foldlM_cons] at hafter
        obtain ⟨next, hnext, hafter⟩ := bind_eq_ok.mp hafter
        obtain ⟨layout, rfl, hlays⟩ := registerStructSymbol_lays hnext
        have hmore := ih (done ++ [r]) (List.rel_append hdone (.cons hlays .nil)) hafter
        rwa [List.append_assoc] at hmore
  exact hrest registrations [] .nil h

/-! ## Alignment of parts -/

/-- An element of a member is aligned where its struct is. -/
theorem element_aligned (h : Registered layouts) (hc : CoversMembers layouts) {layout : StructLayout}
    (hlayout : layout ∈ layouts) (hordinary : layout.packed = false) {m : StructMember} (hm : m ∈ layout.members)
    {alignment : Int} (halignment : typeAlignment (structEnv layouts) m.type = .ok alignment) {base : Int}
    (hbase : base % layout.alignment = 0) (k : Nat) : (base + (m.offset + k * m.type.sizeInBytes)) % alignment = 0 := by
  rcases h.sized layout hlayout m hm with ⟨own, hsized⟩
  cases hsized.unique halignment
  have hdvd := hsized.isAlignment.dvd (h.alignments layout hlayout).1 (hc layout hlayout hordinary m hm _ halignment)
  have hoffset := Int.dvd_of_emod_eq_zero (h.aligned layout hlayout hordinary m hm _ halignment)
  have hstride := Int.dvd_of_emod_eq_zero hsized.stride
  apply Int.emod_eq_zero_of_dvd
  exact dvd_add (hdvd.trans (Int.dvd_of_emod_eq_zero hbase)) (dvd_add hoffset (hstride.mul_left _))

theorem contains_aligned (h : Registered layouts) (hc : CoversMembers layouts) {layout : StructLayout} {displacement : Int}
    {type : Ty} (hcontains : Contains layouts layout displacement type) (hlayout : layout ∈ layouts)
    (hordinary : layout.packed = false) {alignment : Int}
    (halignment : typeAlignment (structEnv layouts) type = .ok alignment) {base : Int}
    (hbase : base % layout.alignment = 0) : (base + displacement) % alignment = 0 := by
  induction hcontains generalizing base with
  | element hm _ => exact element_aligned h hc hlayout hordinary hm halignment hbase _
  | @part layout inner m k displacement type hm _ hlevel hstruct hinner hname hplain _ ih =>
      -- the part is in an object of the inner struct, which has its alignment
      have hlookup := h.lookup hinner
      rw [hname] at hlookup
      have hown : typeAlignment (structEnv layouts) m.type = .ok inner.alignment := by
        unfold typeAlignment
        rw [if_neg (by omega), if_pos hstruct]
        simp only [structEnv, hlookup]
        rfl
      have hplace := element_aligned h hc hlayout hordinary hm hown hbase k
      rw [← add_assoc]
      exact ih hinner hplain halignment hplace

theorem respectsMembers_of_covers (h : Registered layouts) (hc : CoversMembers layouts) : RespectsMembers layouts := by
  intro layout hlayout hordinary base index displacement type alignment hbase hcontains halignment
  have hstride := Int.dvd_of_emod_eq_zero (h.arranged layout hlayout).rounded
  have hplace : ((base : Int) + index * layout.totalSize) % layout.alignment = 0 :=
    Int.emod_eq_zero_of_dvd (dvd_add (Int.dvd_of_emod_eq_zero hbase) (hstride.mul_left _))
  exact contains_aligned h hc hcontains hlayout hordinary halignment hplace

/-- At the alignment of the struct itself a member of a greater one is missed. -/
theorem covers_of_respectsMembers (h : Registered layouts) (hr : RespectsMembers layouts) : CoversMembers layouts := by
  intro layout hlayout hordinary m hm alignment halignment
  by_contra hless
  have hown := (h.alignments layout hlayout).1
  rcases h.sized layout hlayout m hm with ⟨own, hsized⟩
  cases hsized.unique halignment
  have hoffset := Int.dvd_of_emod_eq_zero (h.aligned layout hlayout hordinary m hm _ halignment)
  have hbase : ((layout.alignment.toNat : Nat) : Int) = layout.alignment := Int.toNat_of_nonneg (le_of_lt hown.pos.1)
  have hfirst : Contains layouts layout (m.offset + (0 : Nat) * m.type.sizeInBytes) m.type :=
    .element hm m.elements_pos
  have haligned := hr layout hlayout hordinary layout.alignment.toNat 0 _ _ _ (by rw [hbase, Int.emod_self]) hfirst halignment
  rw [hbase] at haligned
  simp only [Nat.cast_zero, zero_mul, add_zero] at haligned
  have hdvd : alignment ∣ layout.alignment :=
    (Int.dvd_add_left hoffset).mp (Int.dvd_of_emod_eq_zero haligned)
  exact hless (Int.le_of_dvd hown.pos.1 hdvd)

end Registered

def byteMember (name : String) : MemberDecl where
  name := name
  type := { base := .byte }

/-- `@align(8) struct Inner { byte x; };` -/
def innerDefinition : Registration where
  definition := {
    name := "Inner"
    attributes := [.align (.literal {} .integer [56])]
    members := [byteMember "x"] }

def innerType : Ty where
  base := .struct
  structName := "Inner"

/-- `struct Outer { struct Inner inner; byte y; };`, with attributes or without. -/
def outerDefinition (attributes : List LayoutAttribute) : Registration where
  definition := {
    name := "Outer"
    attributes := attributes
    members := [⟨"inner", innerType, none⟩, byteMember "y"] }

/-- The layouts of both; the one of `Outer` has the given alignment and size. -/
def nestedLayouts (alignment totalSize : Int) : List StructLayout :=
  [⟨"Inner", false, 8, 8, [⟨"x", byteType false, 0⟩]⟩,
    ⟨"Outer", false, totalSize, alignment,
      [⟨"inner", { innerType with sizeInBytes := 8, aggregateSize := 8, alignment := 8 }, 0⟩, ⟨"y", byteType false, 8⟩]⟩]

end Disco.Frontend
