import Disco.Project.Discovered

/-! # Taking and completing modules

A client that goes through the modules in analysis order finds every dependency
completed, and sees what each of them publishes once.
-/

namespace Disco.Project

open Library Relation

variable {Source Decl : Type} {system : FileSystem Source} {frontend : Frontend Source Decl}
  {directories roots : List Path}

/-! ## Gathering dependencies -/

/-- What gathering from a module adds. -/
structure Gathers (graph : List ModuleNode) (id : Nat) (visited order visited' order' : List Nat) : Prop where
  ordered : DependencyOrder (Depends graph) order'
  mem : id ∈ order'
  old : ∀ i ∈ visited', i ∈ visited ∨ i ∈ order'
  visited : ∀ i ∈ visited, i ∈ visited'
  within : ∀ i ∈ order', i ∈ visited'
  reached : ∃ more, order' = order ++ more ∧ ∀ i ∈ more, ReflTransGen (Depends graph) id i

theorem gather_gathers {graph : List ModuleNode} {all : List Nat} (hall : DependencyOrder (Depends graph) all)
    (hmem : ∀ i ∈ all, i < graph.length) (depth : Nat) {id : Nat} (hid : id ∈ all) (hdepth : all.idxOf id < depth)
    {visited order : List Nat} (hordered : DependencyOrder (Depends graph) order)
    (hvisited : ∀ i ∈ visited, i ∈ order ∨ TransGen (Depends graph) i id) (hwithin : ∀ i ∈ order, i ∈ visited) :
    ∃ result, gather graph depth (visited, order) id = .ok result ∧ Gathers graph id visited order result.1 result.2 := by
  induction depth generalizing id visited order with
  | zero => omega
  | succ depth ih =>
      rw [gather]
      by_cases hseen : id ∈ visited
      · rw [if_pos hseen]
        have horder : id ∈ order := (hvisited id hseen).resolve_right (hall.acyclic hid)
        exact ⟨_, rfl, hordered, horder, fun i hi => .inl hi, fun i hi => hi, hwithin, [], by simp, by simp⟩
      · rw [if_neg hseen]
        have hlt := hmem id hid
        have hnode := List.getElem?_eq_getElem hlt
        -- The dependencies one after the other, with what is visited and gathered so far.
        have hfold : ∀ (seen rest : List Nat), (∀ d ∈ rest, Depends graph id d) → ∀ visited' order' : List Nat,
            DependencyOrder (Depends graph) order' → (∀ i ∈ visited', i ∈ visited ++ [id] ∨ i ∈ order') →
            (∀ i ∈ visited ++ [id], i ∈ visited') → (∀ i ∈ order', i ∈ visited') → (∀ i ∈ seen, i ∈ order') →
            (∃ more, order' = order ++ more ∧ ∀ i ∈ more, TransGen (Depends graph) id i) →
            ∃ result, foldAll (gather graph depth) (visited', order') rest = .ok result ∧
              DependencyOrder (Depends graph) result.2 ∧ (∀ i ∈ result.1, i ∈ visited ++ [id] ∨ i ∈ result.2) ∧
              (∀ i ∈ visited ++ [id], i ∈ result.1) ∧ (∀ i ∈ result.2, i ∈ result.1) ∧ (∀ i ∈ seen ++ rest, i ∈ result.2) ∧
              ∃ more, result.2 = order ++ more ∧ ∀ i ∈ more, TransGen (Depends graph) id i := by
          intro seen rest
          induction rest generalizing seen with
          | nil =>
              intro _ visited' order' hordered' hold hkept hwithin' hseen' hmore
              exact ⟨(visited', order'), rfl, hordered', hold, hkept, hwithin', by simpa using hseen', hmore⟩
          | cons d rest ihrest =>
              intro hrest visited' order' hordered' hold hkept hwithin' hseen' hmore
              have hd := hrest d List.mem_cons_self
              have hbefore := hall.idxOf_lt hid hd
              obtain ⟨more, hmore, hreach⟩ := hmore
              have hstack : ∀ i ∈ visited', i ∈ order' ∨ TransGen (Depends graph) i d := by
                intro i hi
                rcases hold i hi with hi | hi
                · rcases List.mem_append.mp hi with hi | hi
                  · rcases hvisited i hi with hi | hi
                    · exact .inl (by rw [hmore]; exact List.mem_append_left _ hi)
                    · exact .inr (hi.tail hd)
                  · rw [List.mem_singleton.mp hi]
                    exact .inr (.single hd)
                · exact .inl hi
              obtain ⟨result, hresult, hgathers⟩ := ih (hall.mem hid hd) (by omega) hordered' hstack hwithin'
              obtain ⟨further, hfurther, hreach'⟩ := hgathers.reached
              have hnext := ihrest (seen ++ [d]) (fun d' hd' => hrest d' (List.mem_cons_of_mem _ hd')) result.1 result.2 hgathers.ordered
                (fun i hi => ?_) (fun i hi => hgathers.visited i (hkept i hi)) hgathers.within (fun i hi => ?_)
                ⟨more ++ further, by rw [hfurther, hmore, List.append_assoc], fun i hi => ?_⟩
              · rw [foldAll, hresult]
                simpa using hnext
              · rcases hgathers.old i hi with hi | hi
                · exact (hold i hi).imp_right fun hi => by rw [hfurther]; exact List.mem_append_left _ hi
                · exact .inr hi
              · rcases List.mem_append.mp hi with hi | hi
                · rw [hfurther]
                  exact List.mem_append_left _ (hseen' i hi)
                · rw [List.mem_singleton.mp hi]
                  exact hgathers.mem
              · rcases List.mem_append.mp hi with hi | hi
                · exact hreach i hi
                · exact TransGen.head' hd (hreach' i hi)
        obtain ⟨result, hresult, hordered', hold, hkept, hwithin', hdeps, more, hmore, hreach⟩ :=
          hfold [] graph[id].dependencies (fun d hd => ⟨_, hnode, hd⟩) (visited ++ [id]) order hordered (fun i hi => .inl hi)
            (fun i hi => hi) (fun i hi => List.mem_append_left _ (hwithin i hi)) (by simp) ⟨[], by simp, by simp⟩
        have hnot : id ∉ result.2 := by
          rw [hmore]
          intro hi
          rcases List.mem_append.mp hi with hi | hi
          · exact hseen (hwithin id hi)
          · exact hall.acyclic hid (hreach id hi)
        refine ⟨(result.1, result.2 ++ [id]), ?_, ?_⟩
        · rw [elementAt, hnode]
          simp only [ok_bind, hresult]
          rfl
        · exact
            { ordered := hordered'.snoc hnot fun d hd => by
                obtain ⟨node, hnode', hd⟩ := hd
                obtain rfl := Option.some.inj (hnode.symm.trans hnode')
                exact hdeps d hd
              mem := by simp
              old := fun i hi => by
                rcases hold i hi with hi | hi
                · rcases List.mem_append.mp hi with hi | hi
                  · exact .inl hi
                  · exact .inr (List.mem_append_right _ hi)
                · exact .inr (List.mem_append_left _ hi)
              visited := fun i hi => hkept i (List.mem_append_left _ hi)
              within := fun i hi => by
                rcases List.mem_append.mp hi with hi | hi
                · exact hwithin' i hi
                · exact hkept i (List.mem_append_right _ hi)
              reached := ⟨more ++ [id], by rw [hmore, List.append_assoc], fun i hi => by
                rcases List.mem_append.mp hi with hi | hi
                · exact (hreach i hi).to_reflTransGen
                · exact List.mem_singleton.mp hi ▸ .refl⟩ }

/-! ## Handing modules over -/

theorem Reached.absolute {path again : Path} (h : Reached system frontend directories roots path)
    (hagain : absolutePath system path [] = .ok again) : again = path := by
  have hresolve : ∀ (lexeme target : Path) (list : List Path), resolveIn system lexeme list = .ok target →
      ∃ directory, absoluteFrom lexeme directory = .ok target := by
    intro lexeme target list
    induction list with
    | nil => exact fun h => nomatch h
    | cons directory rest ih =>
        intro h
        obtain ⟨found, hfound, h⟩ := bind_eq_ok.mp h
        split at h
        · cases h
          exact ⟨_, hfound⟩
        · cases h
        · exact ih h
  obtain ⟨root, -, start, hstart, hreach⟩ := h
  rcases hreach.cases_tail with heq | ⟨owner, -, source, preamble, -, -, lexeme, -, htarget⟩
  · subst heq
    exact absoluteFrom_idempotent hstart hagain
  · obtain ⟨directory, -, htarget⟩ := bind_eq_ok.mp htarget
    obtain ⟨directory, htarget⟩ := hresolve lexeme path _ htarget
    exact absoluteFrom_idempotent htarget hagain

theorem Discovered.findFile {s : ModuleLoader Decl} (h : Discovered system frontend directories roots s) {id : Nat} {node : ModuleNode}
    (hnode : s.graph[id]? = some node) : findFile system s node.path = some id := by
  obtain ⟨hlt, hget⟩ := List.getElem?_eq_some_iff.mp hnode
  refine List.findIdx?_eq_some_iff_getElem.mpr ⟨hlt, by simp [hget, sameFile], fun j hj => ?_⟩
  have hdistinct := h.distinct j id _ node hj (List.getElem?_eq_getElem (hj.trans hlt)) hnode
  simp [hdistinct]

/-- The loader while a client is at work: what it has been through, and what it has published. -/
structure Published (system : FileSystem Source) (frontend : Frontend Source Decl) (s₀ s : ModuleLoader Decl) (done : List Nat)
    (log : List (Path × List Decl)) : Prop where
  graph : s.graph = s₀.graph
  records : s.records.length = s.graph.length
  record : ∀ (i : Nat) (r : Record Decl), s.records[i]? = some r → r.loaded = true ∧ (r.taken = true ↔ i ∈ done) ∧
    (r.completed = true ↔ i ∈ done)
  exports : ∀ i ∈ done, ∀ (node : ModuleNode) (r : Record Decl), s.graph[i]? = some node → s.records[i]? = some r →
    ∃ program, (node.path, program) ∈ log ∧
      interfaces frontend node.isInterface (program.filter fun declaration => !frontend.isImported declaration) = .ok r.exports
  declarations : ∀ i, i ∉ done → ∀ r₀ r : Record Decl, s₀.records[i]? = some r₀ → s.records[i]? = some r →
    r.declarations = r₀.declarations

/-- What importers see of a module that has been published. -/
def Publishes (frontend : Frontend Source Decl) (graph : List ModuleNode) (log : List (Path × List Decl)) (d : Nat) (api : List Decl) :
    Prop :=
  ∃ (node : ModuleNode) (program exports : List Decl), graph[d]? = some node ∧ (node.path, program) ∈ log ∧
    interfaces frontend node.isInterface (program.filter fun declaration => !frontend.isImported declaration) = .ok exports ∧
    interfaces frontend node.isInterface exports = .ok api

/-- What a module sees: of each module it depends on, directly or not, what that one has
published, once; and then its own declarations. -/
def SeesEach (frontend : Frontend Source Decl) (s₀ : ModuleLoader Decl) (log : List (Path × List Decl)) (path : Path)
    (declarations : List Decl) : Prop :=
  ∃ (id : Nat) (node : ModuleNode) (record : Record Decl), s₀.graph[id]? = some node ∧ node.path = path ∧ s₀.records[id]? = some record ∧
    ∃ (dependencies : List Nat) (apis : List (List Decl)), dependencies.Nodup ∧
      (∀ d, d ∈ dependencies ↔ TransGen (Depends s₀.graph) id d) ∧
      List.Forall₂ (Publishes frontend s₀.graph log) dependencies apis ∧ declarations = apis.flatten ++ record.declarations

theorem fairly_interfaces {cyclic : Prop} (isInterface : Bool) (declarations : List Decl) :
    Fairly cyclic (fun api => interfaces frontend isInterface declarations = .ok api) (interfaces frontend isInterface declarations) := by
  refine fairly_self ?_
  induction declarations with
  | nil => exact trivial
  | cons declaration rest ih =>
      exact Ends.bind (fairly_diagnosed _) fun _ _ => Ends.bind ih fun _ _ => trivial

section Serving

variable {s₀ s : ModuleLoader Decl} {done rest : List Nat} {log : List (Path × List Decl)} {id : Nat} {node : ModuleNode}

/-- The interfaces of the modules that have been gathered so far. -/
def Transferred (frontend : Frontend Source Decl) (graph : List ModuleNode) (log : List (Path × List Decl)) (id : Nat)
    (gathered : List Nat) (loaded : LoadedModule Decl) : Prop :=
  ∃ apis : List (List Decl), List.Forall₂ (Publishes frontend graph log) (gathered.filter (· ≠ id)) apis ∧
    loaded.declarations = apis.flatten

theorem transfer_transferred (h : Published system frontend s₀ s done log) {order : List Nat}
    (horder : ∀ d ∈ order, d < s.graph.length ∧ (d ≠ id → d ∈ done)) :
    Fairly False (Transferred frontend s.graph log id order) (foldAll (transfer frontend s id) ⟨[], []⟩ order) := by
  have hstart : Transferred frontend s.graph log id [] ⟨[], []⟩ := ⟨[], by simp, rfl⟩
  refine foldAll_ends_seen (fun seen loaded d hd hseen => ?_) hstart
  obtain ⟨apis, happis, hdeclarations⟩ := hseen
  obtain ⟨hlt, hdone⟩ := horder d hd
  refine fairly_elementAt hlt fun other hother => ?_
  by_cases heq : d = id
  · rw [if_pos heq]
    exact ⟨apis, by simpa [List.filter_append, heq] using happis, hdeclarations⟩
  · rw [if_neg heq]
    refine fairly_elementAt (by rw [h.records]; exact hlt) fun r hr => ?_
    have hcompleted := (h.record d r hr).2.2.mpr (hdone heq)
    rw [rejectIf, if_neg (by simp [hcompleted]), ok_bind]
    refine Ends.bind (fairly_interfaces other.isInterface r.exports) fun api happi => ?_
    obtain ⟨program, hprogram, hexports⟩ := h.exports d (hdone heq) other r hother hr
    refine ⟨apis ++ [api], ?_, by simp [hdeclarations]⟩
    rw [List.filter_append]
    refine List.rel_append happis ?_
    simpa [heq] using ⟨other, program, r.exports, hother, hprogram, hexports, happi⟩

variable (hrooted : Rooted system frontend directories roots roots s₀) (horder : s₀.order = done ++ id :: rest)
  (h : Published system frontend s₀ s done log) (hnode : s₀.graph[id]? = some node)
include hrooted horder h hnode

/-- The next module is taken: all it depends on is completed. -/
theorem take_sees : Fairly False (fun result => SeesEach frontend s₀ log node.path result.1.declarations ∧
    result.2 = markTaken s id)
      (take system frontend s node.path) := by
  have hall := hrooted.discovered.ordered
  have hid : id ∈ s₀.order := by
    rw [horder]
    simp
  have hnot : id ∉ done := by
    intro hmem
    have hnodup := hall.nodup
    rw [horder] at hnodup
    exact (List.nodup_append.mp hnodup).2.2 id hmem id List.mem_cons_self rfl
  refine Ends.bind (fairly_absolutePath system node.path []) fun again hagain => ?_
  obtain rfl := (hrooted.discovered.reached id node hnode).absolute hagain
  have hfound : findFile system s node.path = some id := by
    have := hrooted.discovered.findFile hnode
    rwa [Project.findFile, ← h.graph] at this
  rw [hfound]
  have hlt : id < s.records.length := by
    rw [h.records, h.graph]
    exact (List.getElem?_eq_some_iff.mp hnode).choose
  refine fairly_elementAt hlt fun record hrecord => ?_
  have hstate := h.record id record hrecord
  have htaken : record.taken = false := Bool.eq_false_iff.mpr fun htaken => hnot (hstate.2.1.mp htaken)
  rw [rejectIf, if_neg (by simp [hstate.1, htaken]), ok_bind]
  have hlength : s₀.order.length ≤ s₀.graph.length := by
    have hsubset : s₀.order ⊆ List.range s₀.graph.length := fun i hi => List.mem_range.mpr (hrooted.lt.mpr hi)
    simpa using (List.subperm_of_subset hall.nodup hsubset).length_le
  have hposition := List.idxOf_lt_length_of_mem hid
  obtain ⟨gathered, hgathered, hgathers⟩ : ∃ result, gather s₀.graph (s₀.graph.length + 1) ([], []) id = .ok result ∧
      Gathers s₀.graph id [] [] result.1 result.2 :=
    gather_gathers hall (fun i hi => hrooted.lt.mpr hi) (s₀.graph.length + 1) hid (by omega) DependencyOrder.nil (by simp) (by simp)
  obtain ⟨more, hmore, hreach⟩ := hgathers.reached
  rw [List.nil_append] at hmore
  rw [h.graph, hgathered, ok_bind]
  have hmem : ∀ d, d ∈ gathered.2 ↔ ReflTransGen (Depends s₀.graph) id d :=
    fun d => ⟨fun hd => hreach d (hmore ▸ hd), fun hd => hgathers.ordered.mem_of_reach hgathers.mem hd⟩
  have hdependencies : ∀ d, d ∈ gathered.2.filter (· ≠ id) ↔ TransGen (Depends s₀.graph) id d := by
    intro d
    rw [List.mem_filter, hmem, reflTransGen_iff_eq_or_transGen]
    constructor
    · rintro ⟨heq | hd, hne⟩
      · simp [heq] at hne
      · exact hd
    · intro hd
      refine ⟨.inr hd, ?_⟩
      simp only [ne_eq, decide_eq_true_eq]
      rintro rfl
      exact hall.acyclic hid hd
  have hdone : ∀ d, TransGen (Depends s₀.graph) id d → d ∈ done := by
    intro d hd
    obtain ⟨first, hfirst, hd⟩ := TransGen.head'_iff.mp hd
    have hleft : DependencyOrder (Depends s₀.graph) done := (horder ▸ hall).left
    exact hleft.mem_of_reach (hall.behind done id rest horder first hfirst) hd
  have htransfer : Fairly False (Transferred frontend s.graph log id gathered.2)
      (foldAll (transfer frontend s id) ⟨[], []⟩ gathered.2) := by
    refine transfer_transferred h fun d hd => ?_
    refine ⟨?_, fun hne => hdone d ((hdependencies d).mp (List.mem_filter.mpr ⟨hd, by simpa using hne⟩))⟩
    rw [h.graph]
    exact hrooted.lt.mpr (hall.mem_of_reach hid ((hmem d).mp hd))
  refine Ends.bind htransfer fun loaded hloaded => ?_
  obtain ⟨apis, happis, hdeclarations⟩ := hloaded
  rw [h.graph] at happis
  have hlt₀ : id < s₀.records.length := by
    rw [hrooted.discovered.records]
    exact (List.getElem?_eq_some_iff.mp hnode).choose
  have hown := h.declarations id hnot _ record (List.getElem?_eq_getElem hlt₀) hrecord
  refine ⟨⟨id, node, _, hnode, rfl, List.getElem?_eq_getElem hlt₀, gathered.2.filter (· ≠ id), apis, ?_, hdependencies, happis, ?_⟩, rfl⟩
  · exact hgathers.ordered.nodup.filter _
  · rw [hdeclarations, hown]

/-- The module that has been taken is completed. -/
theorem complete_published (program : List Decl) : Fairly False (fun u => Published system frontend s₀ u (done ++ [id]) (log ++ [(node.path, program)]))
    (complete system frontend (markTaken s id) node.path program) := by
  have hnot : id ∉ done := by
    intro hmem
    have hnodup := hrooted.discovered.ordered.nodup
    rw [horder] at hnodup
    exact (List.nodup_append.mp hnodup).2.2 id hmem id List.mem_cons_self rfl
  have hnode' : s.graph[id]? = some node := by rw [h.graph, hnode]
  have hltGraph : id < s.graph.length := (List.getElem?_eq_some_iff.mp hnode').choose
  have hlt : id < s.records.length := by rw [h.records]; exact hltGraph
  refine Ends.bind (fairly_absolutePath system node.path []) fun again hagain => ?_
  obtain rfl := (hrooted.discovered.reached id node hnode).absolute hagain
  have hfound : findFile system (markTaken s id) node.path = some id := by
    have := hrooted.discovered.findFile hnode
    rwa [Project.findFile, ← h.graph] at this
  rw [hfound]
  refine fairly_elementAt (by simpa [markTaken] using hlt) fun taken htaken => ?_
  obtain ⟨record, hrecord, rfl⟩ := modify_cases htaken
  have hstate := h.record id record hrecord
  have hcompleted : record.completed = false := Bool.eq_false_iff.mpr fun hcompleted => hnot (hstate.2.2.mp hcompleted)
  rw [if_pos rfl, rejectIf, if_neg (by simp [hcompleted]), ok_bind]
  refine fairly_elementAt hltGraph fun found hfound => ?_
  obtain rfl : node = found := Option.some.inj (hnode'.symm.trans hfound)
  refine Ends.bind (fairly_interfaces node.isInterface _) fun exports hexports => ?_
  have hcases : ∀ (i : Nat) (r : Record Decl),
      ((s.records.modify id fun record => { record with declarations := [], taken := true }).modify id
        fun record => { record with exports := exports, completed := true })[i]? = some r →
      ∃ before, s.records[i]? = some before ∧
        r = if id = i then { before with declarations := [], taken := true, exports := exports, completed := true } else before := by
    intro i r hr
    obtain ⟨middle, hmiddle, rfl⟩ := modify_cases hr
    obtain ⟨before, hbefore, rfl⟩ := modify_cases hmiddle
    refine ⟨before, hbefore, ?_⟩
    split <;> rfl
  refine
    { graph := h.graph
      records := by simpa [markTaken] using h.records
      record := fun i r hr => ?_
      exports := fun i hi node' r hnode'' hr => ?_
      declarations := fun i hi r₀ r hr₀ hr => ?_ }
  · obtain ⟨before, hbefore, rfl⟩ := hcases i r hr
    have hbefore := h.record i before hbefore
    by_cases heq : id = i
    · subst heq
      rw [if_pos rfl]
      exact ⟨hbefore.1, by simp, by simp⟩
    · rw [if_neg heq]
      simpa [Ne.symm heq] using hbefore
  · obtain ⟨before, hbefore, rfl⟩ := hcases i r hr
    by_cases heq : id = i
    · subst heq
      obtain rfl : node = node' := Option.some.inj (hnode'.symm.trans hnode'')
      rw [if_pos rfl]
      exact ⟨program, by simp, hexports⟩
    · rw [if_neg heq]
      have hi : i ∈ done := by simpa [Ne.symm heq] using hi
      obtain ⟨program', hprogram', hexports'⟩ := h.exports i hi node' before hnode'' hbefore
      exact ⟨program', List.mem_append_left _ hprogram', hexports'⟩
  · obtain ⟨before, hbefore, rfl⟩ := hcases i r hr
    have hne : id ≠ i := by
      rintro rfl
      exact hi (by simp)
    rw [if_neg hne]
    exact h.declarations i (fun hmem => hi (List.mem_append_left _ hmem)) r₀ before hr₀ hbefore

/-- The client's next step. -/
theorem serve_next (analyze : Path → LoadedModule Decl → List Decl) :
    Fairly False (fun u => Published system frontend s₀ u.1 (done ++ [id]) u.2)
      (serve system frontend analyze (s, log) node.path) := by
  refine Ends.bind (take_sees hrooted horder h hnode) fun result hresult => ?_
  obtain ⟨loaded, taken⟩ := result
  obtain ⟨-, rfl⟩ := hresult
  exact Ends.bind (complete_published hrooted horder h hnode _) fun u hu => hu

end Serving

theorem Rooted.published {s : ModuleLoader Decl} (h : Rooted system frontend directories roots roots s) :
    Published system frontend s s [] [] where
  graph := rfl
  records := h.discovered.records
  record := by
    intro i r hr
    obtain ⟨hloaded, htaken, hcompleted, -⟩ := h.discovered.record i r hr
    have hlt : i < s.graph.length := by
      rw [← h.discovered.records]
      exact (List.getElem?_eq_some_iff.mp hr).choose
    exact ⟨hloaded.mpr (h.lt.mp hlt), by simp [htaken], by simp [hcompleted]⟩
  exports := by simp
  declarations := by
    intro i _ r₀ r hr₀ hr
    obtain rfl := Option.some.inj (hr₀.symm.trans hr)
    rfl

/-- A client that goes through a part of the analysis order from its beginning. -/
theorem serve_published {s : ModuleLoader Decl} (hrooted : Rooted system frontend directories roots roots s)
    (analyze : Path → LoadedModule Decl → List Decl) {done rest : List Nat} (horder : s.order = done ++ rest) :
    Fairly False (fun t => Published system frontend s t.1 done t.2)
      (foldAll (serve system frontend analyze) (s, []) (done.map (pathOf s))) := by
  induction done using List.reverseRecOn generalizing rest with
  | nil => exact hrooted.published
  | append_singleton done id ih =>
      have horder : s.order = done ++ id :: rest := by simpa using horder
      rw [List.map_append, foldAll_append]
      refine Ends.bind (ih horder) fun t ht => ?_
      have hlt := hrooted.lt.mpr (show id ∈ s.order by rw [horder]; simp)
      have hnode := List.getElem?_eq_getElem hlt
      rw [List.map_singleton, foldAll, pathOf_eq hnode]
      refine Ends.bind (serve_next hrooted horder ht hnode analyze) fun u hu => hu

/-! ## The module graph -/

/-- The edges of the graph are the imports between the files of the order. -/
theorem Rooted.depends_iff {s : ModuleLoader Decl} (hfile : Equivalence fun left right => sameFile system left right = true)
    (h : Rooted system frontend directories roots roots s) {i j : Nat} (hi : i ∈ s.order) (hj : j ∈ s.order) :
    Depends s.graph i j ↔ Follows system frontend directories (analysisOrder s) (pathOf s i) (pathOf s j) := by
  have hlt : ∀ i ∈ s.order, i < s.graph.length := fun i hi => h.lt.mpr hi
  have hi' := hlt i hi
  have hj' := hlt j hj
  have hleft := List.getElem?_eq_getElem hi'
  have hright := List.getElem?_eq_getElem hj'
  rw [pathOf_eq hleft, pathOf_eq hright]
  constructor
  · rintro ⟨node, hnode, hmem⟩
    obtain rfl := Option.some.inj (hleft.symm.trans hnode)
    obtain ⟨-, other, target, hother, htarget, hsame⟩ := h.discovered.imported i _ hleft j hmem
    obtain rfl := Option.some.inj (hright.symm.trans hother)
    refine ⟨?_, target, htarget, hsame⟩
    rw [analysisOrder_eq hlt]
    exact List.mem_map.mpr ⟨j, hj, pathOf_eq hright⟩
  · rintro ⟨-, target, htarget, hsame⟩
    obtain ⟨k, other, hmem, hother, hsame'⟩ := h.discovered.covered i hi _ hleft target htarget
    have hequal : sameFile system other.path s.graph[j].path = true := hfile.trans (hfile.symm hsame') hsame
    have hsamePosition : k = j := by
      rcases Nat.lt_trichotomy k j with hlt | heq | hgt
      · have hdistinct := h.discovered.distinct k j other _ hlt hother hright
        rw [hfile.symm hequal] at hdistinct
        cases hdistinct
      · exact heq
      · have hdistinct := h.discovered.distinct j k _ other hgt hright hother
        rw [hequal] at hdistinct
        cases hdistinct
    exact ⟨_, hleft, hsamePosition ▸ hmem⟩

/-- The graph holds the files of the order and no others. -/
theorem Rooted.perm {s : ModuleLoader Decl} (h : Rooted system frontend directories roots roots s) :
    (analysisOrder s).Perm (sourcePaths s) := by
  have hperm : s.order.Perm (List.range s.graph.length) := by
    refine (List.perm_ext_iff_of_nodup h.discovered.ordered.nodup List.nodup_range).mpr fun i => ?_
    rw [List.mem_range, h.lt]
  rw [analysisOrder_eq fun i hi => h.lt.mpr hi]
  refine (hperm.map (pathOf s)).trans ?_
  rw [show sourcePaths s = (List.range s.graph.length).map (pathOf s) from ?_]
  refine List.ext_getElem (by simp [sourcePaths]) fun i hi _ => ?_
  have hlt : i < s.graph.length := by simpa [sourcePaths] using hi
  simp [sourcePaths, pathOf, hlt]

/-- What is said of a loader that has found the files of the roots. -/
structure Prepared (system : FileSystem Source) (frontend : Frontend Source Decl) (directories roots : List Path)
    (s : ModuleLoader Decl) : Prop where
  exact : Exact system frontend directories roots (analysisOrder s)
  held : (analysisOrder s).Perm (sourcePaths s)
  edges : ∀ i ∈ s.order, ∀ j ∈ s.order,
    (Depends s.graph i j ↔ Follows system frontend directories (analysisOrder s) (pathOf s i) (pathOf s j))
  acyclic : ∀ path ∈ analysisOrder s, ¬ TransGen (Follows system frontend directories (analysisOrder s)) path path
  complete : (∀ path path' target, sameFile system path path' = true → Imports system frontend directories path target →
      ∃ target', Imports system frontend directories path' target' ∧ sameFile system target target' = true) →
    (∀ path, Reached system frontend directories roots path → ∃ other ∈ analysisOrder s, sameFile system path other = true) ∧
      ¬ Cyclic system frontend directories roots
  served : ∀ analyze : Path → LoadedModule Decl → List Decl,
    Fairly False (fun _ => True) (foldAll (serve system frontend analyze) (s, []) (analysisOrder s)) ∧
      ∀ done path rest, analysisOrder s = done ++ path :: rest →
        Fairly False (fun t => Fairly False (fun result => SeesEach frontend s t.2 path result.1.declarations)
            (take system frontend t.1 path))
          (foldAll (serve system frontend analyze) (s, []) done)

theorem Rooted.prepared {s : ModuleLoader Decl} (hfile : Equivalence fun left right => sameFile system left right = true)
    (h : Rooted system frontend directories roots roots s) : Prepared system frontend directories roots s where
  exact := h.exact hfile
  held := h.perm
  edges := fun _ hi _ hj => h.depends_iff hfile hi hj
  acyclic := fun _ hpath => (h.exact hfile).acyclic hfile hpath
  complete := fun himports =>
    ⟨fun _ hpath => (h.exact hfile).complete hfile himports hpath, (h.exact hfile).not_cyclic hfile himports⟩
  served := by
    intro analyze
    rw [analysisOrder_eq fun i hi => h.lt.mpr hi]
    constructor
    · exact Ends.mono (serve_published h analyze (List.append_nil _).symm) fun _ _ => trivial
    · intro done path rest hsplit
      obtain ⟨first, last, horder, rfl, hlast⟩ := List.map_eq_append_iff.mp hsplit
      obtain ⟨id, last, rfl, rfl, rfl⟩ := List.map_eq_cons_iff.mp hlast
      refine Ends.mono (serve_published h analyze horder) fun t ht => ?_
      have hlt := h.lt.mpr (show id ∈ s.order by rw [horder]; simp)
      have hnode := List.getElem?_eq_getElem hlt
      rw [pathOf_eq hnode]
      exact Ends.mono (take_sees h horder ht hnode) fun _ hresult => hresult.1

/-- A file that imports two others, one of which imports the other. -/
def sharedImport : FileSystem (List Path) where
  workingDirectory := .ok "/p".toList
  stat := fun path => if path ∈ ["/p/a".toList, "/p/b".toList, "/p/c".toList] then some true else none
  size := fun _ => some 0
  read := fun path =>
    if path = "/p/a".toList then some ["b".toList, "c".toList]
    else if path = "/p/b".toList then some ["c".toList] else some []
  sameExistingFile := fun _ _ => false

/-- A source that is its own list of imports. -/
def bareImports : Frontend (List Path) Unit where
  parsePreamble := fun source => .ok ⟨"", source⟩
  parseProgram := fun _ _ => .ok [()]
  interfaceDeclaration := fun _ => true
  typeAlias := fun _ => none
  moduleInterface := fun _ _ => .ok (some ())
  isImported := fun _ => false

end Disco.Project
