import Disco.Frontend.Declarations

/-! # What references are bound to

Every local has a number of its own, a type with the alignment of its struct and
an even offset. A reference to a local has the number of a local of that name, and
no variable declared in a body shares its name with data.
-/

namespace Disco.Frontend

open IR Library Analyzer

/-! ## Registration -/

theorem foldlM_preserves {α β : Type} {f : β → α → Except String β} {P : β → Prop}
    (hstep : ∀ b a b', f b a = .ok b' → P b → P b') (items : List α) {b b' : β}
    (h : items.foldlM f b = .ok b') (hb : P b) : P b' := by
  induction items generalizing b with
  | nil =>
      cases h
      exact hb
  | cons a rest ih =>
      rw [List.foldlM_cons] at h
      obtain ⟨next, hnext, h⟩ := bind_eq_ok.mp h
      exact ih h (hstep b a next hnext hb)

/-- Data is in RAM, or in ROM and has no number. -/
def DataEntry.Sound (entry : DataEntry) : Prop := entry.storage = .ram ∨ (entry.storage = .rom ∧ entry.id = 0)

structure FileNames.Sound (file : FileNames) : Prop where
  entries : ∀ name entry, file.entries.lookup name = some entry → entry.Sound
  nextId : 0 < file.nextId

theorem lookup_cons_cases {α : Type} {name other : String} {value found : α} {entries : List (String × α)}
    (h : ((name, value) :: entries).lookup other = some found) :
    (other = name ∧ found = value) ∨ entries.lookup other = some found := by
  rw [List.lookup_cons] at h
  split at h
  · rename_i heq
    exact .inl ⟨by simpa using heq, (Option.some.inj h).symm⟩
  · exact .inr h

theorem FileNames.Sound.add {file : FileNames} {name : String} {entry : DataEntry} {nextId : Nat} (h : file.Sound)
    (hentry : entry.Sound) (hid : 0 < nextId) :
    FileNames.Sound { file with
      nextId := nextId
      entries := (name, entry) :: file.entries } where
  entries := by
    intro other found hfound
    rcases lookup_cons_cases hfound with ⟨-, rfl⟩ | hold
    · exact hentry
    · exact h.entries other found hold
  nextId := hid

namespace FileNames

variable {file after : FileNames}

theorem registerFunctionSymbol_sound {declaration : FunctionDecl}
    (h : file.registerFunctionSymbol declaration = .ok after) (hs : file.Sound) : after.Sound := by
  unfold registerFunctionSymbol at h
  simp only [rejectIf_bind_eq_ok] at h
  rcases h with ⟨-, -, -, -, h⟩
  split at h
  · cases h
    exact ⟨hs.entries, hs.nextId⟩
  · simp only [rejectIf_bind_eq_ok] at h
    rcases h with ⟨-, -, h⟩
    cases h
    exact ⟨hs.entries, hs.nextId⟩

theorem registerConstant_sound {name message : String} (h : file.registerConstant name message = .ok after)
    (hs : file.Sound) : after.Sound := by
  unfold registerConstant at h
  simp only [rejectIf_bind_eq_ok] at h
  rcases h with ⟨-, h⟩
  cases h
  exact ⟨hs.entries, hs.nextId⟩

theorem registerAlias_sound {name : String} (h : file.registerAlias name = .ok after) (hs : file.Sound) :
    after.Sound := by
  unfold registerAlias at h
  simp only [rejectIf_bind_eq_ok] at h
  rcases h with ⟨-, h⟩
  cases h
  exact ⟨hs.entries, hs.nextId⟩

theorem registerRomSymbol_sound {name : String} {linkage : Linkage} {isExtern : Bool}
    (h : file.registerRomSymbol name linkage isExtern = .ok after) (hs : file.Sound) : after.Sound := by
  unfold registerRomSymbol at h
  simp only [rejectIf_bind_eq_ok] at h
  rcases h with ⟨-, -, h⟩
  cases h
  exact hs.add (.inr ⟨rfl, rfl⟩) hs.nextId

theorem registerGlobalSymbol_sound {pending : List String} {declaration : GlobalDecl}
    (h : registerGlobalSymbol pending file declaration = .ok after) (hs : file.Sound) : after.Sound := by
  unfold registerGlobalSymbol at h
  simp only [rejectIf_bind_eq_ok] at h
  rcases h with ⟨-, h⟩
  split at h
  · cases h
    exact hs
  · split at h
    · cases h
      exact hs.add (.inl rfl) (Nat.succ_pos _)
    · simp only [rejectIf_bind_eq_ok] at h
      rcases h with ⟨-, -, h⟩
      cases h
      split
      · exact hs
      · exact hs.add (.inl rfl) hs.nextId

end FileNames

theorem registerFile_sound {file : List TopLevel} {names : FileNames} (h : registerFile file = .ok names) :
    names.Sound := by
  unfold registerFile at h
  obtain ⟨aliases, haliases, h⟩ := bind_eq_ok.mp h
  simp only [rejectIf_bind_eq_ok] at h
  obtain ⟨constants, hconstants, h⟩ := bind_eq_ok.mp h.2
  obtain ⟨enumerators, henumerators, h⟩ := bind_eq_ok.mp h
  obtain ⟨functions, hfunctions, h⟩ := bind_eq_ok.mp h
  obtain ⟨roms, hroms, h⟩ := bind_eq_ok.mp h
  have hstart : FileNames.Sound { aliases := builtinTypeAliases } := ⟨fun _ _ hfound => (nomatch hfound), Nat.one_pos⟩
  have haliased := foldlM_preserves (fun _ _ _ hstep => FileNames.registerAlias_sound hstep) _ haliases hstart
  have hconstant := foldlM_preserves (fun _ _ _ hstep => FileNames.registerConstant_sound hstep) _ hconstants haliased
  have henumerated : enumerators.Sound := by
    apply foldlM_preserves _ _ henumerators hconstant
    intro file name after hstep
    unfold FileNames.registerEnumerator at hstep
    simp only [rejectIf_bind_eq_ok] at hstep
    exact FileNames.registerConstant_sound hstep.2
  have hfunctional := foldlM_preserves (fun _ _ _ hstep => FileNames.registerFunctionSymbol_sound hstep) _ hfunctions
    henumerated
  have hrom := foldlM_preserves (fun _ _ _ hstep => FileNames.registerRomSymbol_sound hstep) _ hroms hfunctional
  exact foldlM_preserves (fun _ _ _ hstep => FileNames.registerGlobalSymbol_sound hstep) _ h hrom

/-! ## Types -/

/-- Only a struct, or a pointer to one, has an alignment noted. -/
def Normal (type : Ty) : Prop := type.alignment = 0 ∨ (type.base = .struct ∧ IsAlignment type.alignment)

theorem TypeNames.isAlignment {types : TypeNames} {name : String} {symbol : StructSymbol}
    (h : types.structs.lookup name = some symbol) : IsAlignment symbol.alignment :=
  types.aligned (name, symbol) (List.lookup_eq_some_iff.mp h |>.elim fun before h => h.elim fun after h => by
    rw [h.1]
    simp)

theorem normalizePointerLayers_alignment (type : Ty) : (normalizePointerLayers type).alignment = type.alignment := by
  unfold normalizePointerLayers
  split <;> rfl

theorem resolveEnum_alignment {env : Env} {type resolved : Ty} (h : resolveEnum env type = .ok resolved) :
    resolved.alignment = type.alignment := by
  unfold resolveEnum at h
  split at h
  · cases h
    rfl
  · split at h
    · cases h
    · cases h
      rfl

theorem normalizeType_normal {types : TypeNames} {written : WrittenType} {type : Ty}
    (h : normalizeType types.env written.type = .ok type) : Normal type := by
  unfold normalizeType at h
  obtain ⟨resolved, hresolved, h⟩ := bind_eq_ok.mp h
  have hzero : resolved.alignment = 0 := (resolveEnum_alignment hresolved).trans written.unaligned
  simp only [rejectIf_bind_eq_ok] at h
  rcases h with ⟨-, -, h⟩
  split at h
  · simp only [rejectIf_bind_eq_ok] at h
    rcases h with ⟨-, h⟩
    split at h
    · rename_i symbol hbase hsymbol
      cases h
      exact .inr ⟨hbase, TypeNames.isAlignment hsymbol⟩
    · cases h
      exact .inl ((normalizePointerLayers_alignment resolved).trans hzero)
  · split at h
    · cases h
      exact .inl hzero
    · cases h
      exact .inl hzero
    · cases h
      exact .inl hzero
    · cases h
      exact .inl hzero
    · rename_i hbase
      split at h
      · cases h
      · rename_i symbol hsymbol
        cases h
        exact .inr ⟨hbase, TypeNames.isAlignment hsymbol⟩
    · cases h

theorem IsAlignment.even_padding {alignment : Int} (h : IsAlignment alignment) : (max 2 alignment - 2) % 2 = 0 := by
  rcases h with ⟨k, hk, rfl⟩
  interval_cases k <;> decide

theorem typeAlignment_even {types : TypeNames} {type : Ty} {alignment : Int}
    (h : typeAlignment types.env type = .ok alignment) : (max 2 alignment - 2) % 2 = 0 := by
  unfold typeAlignment at h
  split at h
  · cases h
    rfl
  · split at h
    · split at h
      · rename_i symbol hsymbol
        cases h
        exact (TypeNames.isAlignment hsymbol).even_padding
      · cases h
    · cases h
      split <;> rfl

theorem allocation_even {type : Ty} {size : Int} (h : Naming.allocation type = .ok size) : size % 2 = 0 := by
  unfold Naming.allocation at h
  split at h
  · simp only [rejectIf_bind_eq_ok] at h
    rcases h with ⟨-, h⟩
    cases h
    exact Int.mul_emod_left _ _
  · cases h
    exact Int.mul_emod_left _ _

/-! ## Bodies -/

structure LocalName.Sound (file : FileNames) (name : LocalName) : Prop where
  fresh : name.isParameter = false → file.entries.lookup name.name = none
  normal : Normal name.symbol.type
  even : name.symbol.stackOffset % 2 = 0

/-- A reference is bound to a local of its name or to data of its name. -/
def Reference.Bound (file : FileNames) (locals : List (Nat × LocalName)) (reference : Reference) : Prop :=
  match reference.binding with
  | .slot id => reference.symbolId = id ∧ ∃ found, (id, found) ∈ locals ∧ found.name = reference.name
  | .constant => True
  | .data entry => file.entries.lookup reference.name = some entry ∧
      (reference.symbolId = 0 ∨ reference.symbolId = entry.id)

theorem Reference.Bound.mono {file : FileNames} {locals locals' : List (Nat × LocalName)} {reference : Reference}
    (h : reference.Bound file locals) (hle : ∀ entry ∈ locals, entry ∈ locals') : reference.Bound file locals' := by
  unfold Reference.Bound at *
  split at h
  · rcases h with ⟨hid, found, hfound, hname⟩
    exact ⟨hid, found, hle _ hfound, hname⟩
  · trivial
  · exact h

namespace Naming

structure Sound (file : FileNames) (n : Naming) : Prop where
  positive : 0 < n.nextId
  ids : ∀ entry ∈ n.locals, 0 < entry.1 ∧ entry.1 < n.nextId
  locals : ∀ entry ∈ n.locals, entry.2.Sound file
  nodup : (n.locals.map Prod.fst).Nodup
  visible : ∀ scope ∈ n.scopes, ∀ entry ∈ scope, ∃ found, (entry.2, found) ∈ n.locals ∧ found.name = entry.1
  references : ∀ reference ∈ n.references, reference.Bound file n.locals
  even : n.offset % 2 = 0

variable {file : FileNames} {types : TypeNames} {n after : Naming}

theorem Sound.beginScope (h : Sound file n) : Sound file n.beginScope where
  positive := h.positive
  ids := h.ids
  locals := h.locals
  nodup := h.nodup
  visible := by
    intro scope hscope entry hentry
    rcases List.mem_cons.mp hscope with rfl | hscope
    · cases hentry
    · exact h.visible scope hscope entry hentry
  references := h.references
  even := h.even

theorem Sound.endScope (h : Sound file n) : Sound file n.endScope where
  positive := h.positive
  ids := h.ids
  locals := h.locals
  nodup := h.nodup
  visible := fun scope hscope => h.visible scope (List.mem_of_mem_tail hscope)
  references := h.references
  even := h.even

theorem mem_of_lookup {α : Type} {name : String} {value : α} {entries : List (String × α)}
    (h : entries.lookup name = some value) : (name, value) ∈ entries := by
  induction entries with
  | nil => cases h
  | cons entry rest ih =>
      have hcons : ((entry.1, entry.2) :: rest).lookup name = some value := h
      rcases lookup_cons_cases hcons with ⟨hname, hvalue⟩ | hrest
      · rw [hname, hvalue]
        exact List.mem_cons_self
      · exact List.mem_cons_of_mem _ (ih hrest)

theorem Sound.bind {name : String} {reference : Reference} (h : Sound file n)
    (hbind : n.bind file name = .ok reference) : reference.Bound file n.locals := by
  unfold Naming.bind at hbind
  split at hbind
  · rename_i id hid
    cases hbind
    rcases List.exists_of_findSome?_eq_some hid with ⟨scope, hscope, hlookup⟩
    rcases h.visible scope hscope _ (mem_of_lookup hlookup) with ⟨found, hfound, hname⟩
    exact ⟨rfl, found, hfound, hname⟩
  · split at hbind
    · rename_i entry hentry
      cases hbind
      refine ⟨hentry, ?_⟩
      dsimp only
      split
      · exact .inl rfl
      · exact .inr rfl
    · split at hbind
      · cases hbind
        trivial
      · split at hbind <;> cases hbind

theorem Sound.refer {names : List String} (h : Sound file n) (hrefer : n.refer file names = .ok after) :
    Sound file after := by
  unfold Naming.refer at hrefer
  apply foldlM_preserves _ _ hrefer h
  intro n name after hstep hn
  obtain ⟨reference, hreference, hstep⟩ := bind_eq_ok.mp hstep
  cases hstep
  refine ⟨hn.positive, hn.ids, hn.locals, hn.nodup, hn.visible, ?_, hn.even⟩
  intro other hother
  rcases List.mem_append.mp hother with hold | hnew
  · exact hn.references other hold
  · rw [List.mem_singleton.mp hnew]
    exact hn.bind hreference

theorem Sound.add {name : String} {type : Ty} {offset : Int} {isParameter : Bool} (h : Sound file n)
    (hname : LocalName.Sound file ⟨name, ⟨type, offset, n.nextId⟩, isParameter⟩) :
    Sound file (n.add name type offset isParameter) where
  positive := Nat.succ_pos _
  ids := by
    intro entry hentry
    change 0 < entry.1 ∧ entry.1 < n.nextId + 1
    rcases List.mem_cons.mp hentry with rfl | hold
    · exact ⟨h.positive, Nat.lt_succ_self _⟩
    · have hids := h.ids entry hold
      omega
  locals := by
    intro entry hentry
    rcases List.mem_cons.mp hentry with rfl | hold
    · exact hname
    · exact h.locals entry hold
  nodup := by
    refine List.nodup_cons.mpr ⟨?_, h.nodup⟩
    intro hmem
    rcases List.mem_map.mp hmem with ⟨entry, hentry, hid⟩
    have hlt := (h.ids entry hentry).2
    omega
  visible := by
    intro scope hscope entry hentry
    have hvisible : ∀ scope ∈ n.scopes, ∀ entry ∈ scope, ∃ found,
        (entry.2, found) ∈ (n.add name type offset isParameter).locals ∧ found.name = entry.1 := by
      intro scope hscope entry hentry
      rcases h.visible scope hscope entry hentry with ⟨found, hfound, hfoundName⟩
      exact ⟨found, List.mem_cons_of_mem _ hfound, hfoundName⟩
    rcases List.mem_cons.mp hscope with rfl | hold
    · rcases List.mem_cons.mp hentry with rfl | hinner
      · exact ⟨_, List.mem_cons_self, rfl⟩
      · cases hscopes : n.scopes with
        | nil =>
            rw [hscopes] at hinner
            cases hinner
        | cons inner outer =>
            rw [hscopes] at hinner
            exact hvisible inner (by rw [hscopes]; exact List.mem_cons_self) entry hinner
    · exact hvisible scope (List.mem_of_mem_tail hold) entry hentry
  references := fun reference hreference =>
    (h.references reference hreference).mono fun _ hentry => List.mem_cons_of_mem _ hentry
  even := h.even

theorem Sound.declare {declaration : VarDecl} (h : Sound file n)
    (hdeclare : n.declare types file declaration = .ok after) : Sound file after := by
  unfold Naming.declare at hdeclare
  simp only [rejectIf_bind_eq_ok, not_or] at hdeclare
  rcases hdeclare with ⟨-, -, ⟨hsymbol, -⟩, hdeclare⟩
  have hdata : file.entries.lookup declaration.name = none := by
    unfold FileNames.hasSymbol at hsymbol
    cases hlookup : file.entries.lookup declaration.name with
    | none => rfl
    | some entry => simp [hlookup] at hsymbol
  obtain ⟨type, htype, hdeclare⟩ := bind_eq_ok.mp hdeclare
  obtain ⟨referred, hreferred, hdeclare⟩ := bind_eq_ok.mp hdeclare
  obtain ⟨size, hsize, hdeclare⟩ := bind_eq_ok.mp hdeclare
  obtain ⟨alignment, halignment, hdeclare⟩ := bind_eq_ok.mp hdeclare
  simp only [rejectIf_bind_eq_ok] at hdeclare
  rcases hdeclare with ⟨-, hdeclare⟩
  cases hdeclare
  have hn := h.refer hreferred
  have hevenSize := allocation_even hsize
  have hevenPadding := typeAlignment_even halignment
  have heven := hn.even
  have hoffset : (referred.offset - if declaration.isConstexpr = true then 0 else size + (max 2 alignment - 2)) % 2 = 0 := by
    split <;> omega
  have hlocal : LocalName.Sound file ⟨declaration.name, ⟨type, _, referred.nextId⟩, false⟩ :=
    ⟨fun _ => hdata, normalizeType_normal htype, hoffset⟩
  have hadded := hn.add hlocal
  exact ⟨hadded.positive, hadded.ids, hadded.locals, hadded.nodup, hadded.visible, hadded.references, hoffset⟩

mutual

theorem Sound.visit (statement : Stmt) {n after : Naming} (h : Sound file n)
    (hvisit : Naming.visit types file statement n = .ok after) : Sound file after := by
  match statement with
  | .evaluate names => exact h.refer hvisit
  | .declare declaration => exact h.declare hvisit
  | .block statements =>
      rw [Naming.visit] at hvisit
      obtain ⟨inner, hinner, hvisit⟩ := bind_eq_ok.mp hvisit
      cases hvisit
      exact (Sound.visitAll statements h.beginScope hinner).endScope
  | .conditional condition yes no =>
      rw [Naming.visit] at hvisit
      obtain ⟨n1, hn1, hvisit⟩ := bind_eq_ok.mp hvisit
      obtain ⟨n2, hn2, hvisit⟩ := bind_eq_ok.mp hvisit
      exact Sound.visit no (Sound.visit yes (h.refer hn1) hn2) hvisit
  | .whileLoop condition body =>
      rw [Naming.visit] at hvisit
      obtain ⟨n1, hn1, hvisit⟩ := bind_eq_ok.mp hvisit
      exact Sound.visit body (h.refer hn1) hvisit
  | .forLoop initializer condition body increment =>
      rw [Naming.visit] at hvisit
      obtain ⟨n1, hn1, hvisit⟩ := bind_eq_ok.mp hvisit
      obtain ⟨n2, hn2, hvisit⟩ := bind_eq_ok.mp hvisit
      obtain ⟨n3, hn3, hvisit⟩ := bind_eq_ok.mp hvisit
      obtain ⟨n4, hn4, hvisit⟩ := bind_eq_ok.mp hvisit
      cases hvisit
      exact ((Sound.visit body ((Sound.visit initializer h.beginScope hn1).refer hn2) hn3).refer hn4).endScope
  | .hardwareLoop body =>
      rw [Naming.visit] at hvisit
      obtain ⟨inner, hinner, hvisit⟩ := bind_eq_ok.mp hvisit
      cases hvisit
      exact (Sound.visit body h.beginScope hinner).endScope
  | .switch selector statements =>
      rw [Naming.visit] at hvisit
      obtain ⟨n1, hn1, hvisit⟩ := bind_eq_ok.mp hvisit
      exact Sound.visitAll statements (h.refer hn1) hvisit
  | .plot body =>
      rw [Naming.visit] at hvisit
      exact Sound.visit body h hvisit

theorem Sound.visitAll (statements : List Stmt) {n after : Naming} (h : Sound file n)
    (hvisit : Naming.visitAll types file statements n = .ok after) : Sound file after := by
  match statements with
  | [] =>
      cases hvisit
      exact h
  | statement :: rest =>
      rw [Naming.visitAll] at hvisit
      obtain ⟨n1, hn1, hvisit⟩ := bind_eq_ok.mp hvisit
      exact Sound.visitAll rest (Sound.visit statement h hn1) hvisit

end

end Naming

/-! ## Functions -/

/-- What is known of the locals and the references of a function. -/
structure AnalyzedFunction.Sound (file : FileNames) (function : AnalyzedFunction) : Prop where
  ids : ∀ entry ∈ function.locals, 0 < entry.1
  locals : ∀ entry ∈ function.locals, entry.2.Sound file
  nodup : (function.locals.map Prod.fst).Nodup
  references : ∀ reference ∈ function.references, reference.Bound file function.locals

namespace FileNames

variable {file : FileNames} {types : TypeNames}

theorem visitParams_sound {params : List (String × WrittenType)} {offset : Int} {n after : Naming}
    (h : Naming.Sound file n) (heven : offset % 2 = 0)
    (hvisit : visitParams types params offset n = .ok after) : Naming.Sound file after := by
  induction params generalizing offset n with
  | nil =>
      cases hvisit
      exact h
  | cons param rest ih =>
      rw [visitParams] at hvisit
      simp only [rejectIf_bind_eq_ok] at hvisit
      obtain ⟨type, htype, hvisit⟩ := bind_eq_ok.mp hvisit.2
      simp only [rejectIf_bind_eq_ok] at hvisit
      have hlocal : LocalName.Sound file ⟨param.1, ⟨type, offset, n.nextId⟩, true⟩ :=
        ⟨(by rintro ⟨⟩), normalizeType_normal htype, heven⟩
      refine ih (h.add hlocal) ?_ hvisit.2
      unfold parameterSlotSize
      split <;> omega

theorem visitFunction_sound {nextId : Nat} {declaration : FunctionDecl} {visited : Nat × AnalyzedFunction}
    (hid : 0 < nextId) (h : file.visitFunction types nextId declaration = .ok visited) :
    0 < visited.1 ∧ visited.2.Sound file := by
  unfold visitFunction at h
  obtain ⟨parameters, hparameters, h⟩ := bind_eq_ok.mp h
  obtain ⟨n, hn, h⟩ := bind_eq_ok.mp h
  cases h
  have hstart : Naming.Sound file (Naming.beginScope { nextId := nextId }) := by
    apply Naming.Sound.beginScope
    exact ⟨hid, fun _ h => (nomatch h), fun _ h => (nomatch h), List.nodup_nil, fun _ h => (nomatch h),
      fun _ h => (nomatch h), rfl⟩
  have hsound := Naming.Sound.visit _ (visitParams_sound hstart rfl hparameters) hn
  exact ⟨hsound.positive, fun entry hentry => (hsound.ids entry hentry).1, hsound.locals, hsound.nodup,
    hsound.references⟩

theorem visitFunctions_sound {declarations : List FunctionDecl} {nextId : Nat} {functions : List AnalyzedFunction}
    (hid : 0 < nextId) (h : file.visitFunctions types nextId declarations = .ok functions) :
    ∀ function ∈ functions, function.Sound file := by
  induction declarations generalizing nextId functions with
  | nil =>
      cases h
      exact fun _ hfunction => nomatch hfunction
  | cons declaration rest ih =>
      rw [visitFunctions] at h
      obtain ⟨visited, hvisited, h⟩ := bind_eq_ok.mp h
      obtain ⟨others, hothers, h⟩ := bind_eq_ok.mp h
      cases h
      rcases visitFunction_sound hid hvisited with ⟨hnext, hsound⟩
      intro function hfunction
      rcases List.mem_cons.mp hfunction with rfl | hother
      · exact hsound
      · exact ih hnext hothers function hother

end FileNames

/-- A file that is accepted has sound data and sound functions. -/
theorem analyzeFile_sound {types : TypeNames} {file : List TopLevel} {analysis : Analysis}
    (h : analyzeFile types file = .ok analysis) :
    analysis.names.Sound ∧ ∀ function ∈ analysis.functions, function.Sound analysis.names := by
  obtain ⟨names, hnames, h⟩ := bind_eq_ok.mp h
  obtain ⟨functions, hfunctions, h⟩ := bind_eq_ok.mp h
  cases h
  have hsound := registerFile_sound hnames
  exact ⟨hsound, FileNames.visitFunctions_sound hsound.nextId hfunctions⟩

end Disco.Frontend
