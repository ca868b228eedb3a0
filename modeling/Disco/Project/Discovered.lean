import Disco.Project.ModuleLoader
import Disco.Library.DependencyOrder

/-! # What discovery finds

The modules on the way form a chain of imports; all others are in the order, behind what
they import. A file that is found again on the chain closes a cycle.
-/

namespace Disco.Project

open Library Relation

variable {Source Decl : Type} {system : FileSystem Source} {frontend : Frontend Source Decl}

/-! ## Failures -/

/-- A failure of the program that is compiled; a cycle is reported only where there is one. -/
def Failure.Fair (cyclic : Prop) : Failure → Prop
  | .diagnostic _ | .path _ => True
  | .cyclic _ _ => cyclic
  | .protocol _ | .outOfRange | .unfinished => False

/-- A computation that fails fairly, whatever its results are. -/
abbrev Fairly {α : Type} (cyclic : Prop) (P : α → Prop) (result : Except Failure α) : Prop :=
  Ends P (Failure.Fair cyclic) result

section Fair

variable {cyclic : Prop} {α β : Type} {P : α → Prop}

theorem Failure.Fair.mono {cyclic' : Prop} {failure : Failure} (h : failure.Fair cyclic) (himp : cyclic → cyclic') :
    failure.Fair cyclic' := by
  cases failure with
  | cyclic => exact himp h
  | _ => exact h

/-- A fair computation and what it returns. -/
theorem fairly_self {x : Except Failure α} (h : Fairly cyclic (fun _ => True) x) : Fairly cyclic (fun a => x = .ok a) x := by
  cases x with
  | error e => exact h
  | ok a => exact rfl

theorem fairly_check {bad : Prop} [Decidable bad] {failure : Failure} {k : Unit → Except Failure α} (hfair : failure.Fair cyclic)
    (h : ¬ bad → Fairly cyclic P (k ())) : Fairly cyclic P (rejectIf bad failure >>= k) := by
  unfold rejectIf
  split
  · exact hfair
  · rename_i hgood
    exact h hgood

theorem fairly_elementAt {list : List α} {index : Nat} {k : α → Except Failure β} {P : β → Prop} (hindex : index < list.length)
    (h : ∀ a, list[index]? = some a → Fairly cyclic P (k a)) : Fairly cyclic P (elementAt list index >>= k) := by
  unfold elementAt
  rw [List.getElem?_eq_getElem hindex]
  exact h _ (List.getElem?_eq_getElem hindex)

theorem fairly_diagnosed (x : Except String α) : Fairly cyclic (fun a => x = .ok a) (diagnosed x) := by
  cases x with
  | error message => exact trivial
  | ok a => exact rfl

theorem fairly_absoluteFrom (input : Path) {directory : Except Failure Path} (h : Fairly cyclic (fun _ => True) directory) :
    Fairly cyclic (fun path => absoluteFrom input directory = .ok path) (absoluteFrom input directory) := by
  refine fairly_self (fairly_check trivial fun _ => fairly_check trivial fun _ => Ends.bind (P := fun _ => True) ?_ fun path _ => ?_)
  · unfold beneath
    split
    · exact Ends.bind h fun _ _ => trivial
    · exact trivial
  · exact fairly_check trivial fun _ => trivial

theorem fairly_workingDirectory (system : FileSystem Source) : Fairly cyclic (fun _ => True) (workingDirectory system) := by
  unfold workingDirectory
  split
  · exact trivial
  · exact trivial

theorem fairly_absolutePath (system : FileSystem Source) (input base : Path) :
    Fairly cyclic (fun path => absolutePath system input base = .ok path) (absolutePath system input base) := by
  refine fairly_absoluteFrom input ?_
  split
  · exact fairly_workingDirectory system
  · exact Ends.mono (fairly_absoluteFrom base (fairly_workingDirectory system)) fun _ _ => trivial

theorem fairly_resolveIn (system : FileSystem Source) (lexeme : Path) (directories : List Path) :
    Fairly cyclic (fun _ => True) (resolveIn system lexeme directories) := by
  induction directories with
  | nil => exact trivial
  | cons directory rest ih =>
      refine Ends.bind (fairly_absolutePath system lexeme directory) fun path _ => ?_
      split
      · exact trivial
      · exact trivial
      · exact ih

theorem fairly_resolveImport (system : FileSystem Source) (importPaths : List Path) (owner lexeme : Path) :
    Fairly cyclic (fun path => resolveImport system importPaths owner lexeme = .ok path)
      (resolveImport system importPaths owner lexeme) := by
  refine fairly_self (Ends.bind (P := fun _ => True) (Ends.bind (fairly_absolutePath system owner []) fun _ _ => trivial) fun directory _ => ?_)
  exact fairly_resolveIn system lexeme _

theorem fairly_readFile (system : FileSystem Source) (totalBytes : Int) (path : Path) :
    Fairly cyclic (fun result => system.read path = some result.1) (readFile system totalBytes path) := by
  refine fairly_check trivial fun _ => ?_
  split
  · exact trivial
  · refine fairly_check trivial fun _ => ?_
    split
    · exact trivial
    · rename_i source hread
      exact hread

end Fair

/-! ## Files and imports -/

/-- One file imports another, by an import that its name resolves to the other's name. -/
def Imports (system : FileSystem Source) (frontend : Frontend Source Decl) (directories : List Path) (owner target : Path) : Prop :=
  ∃ source preamble, system.read owner = some source ∧ frontend.parsePreamble source = .ok preamble ∧
    ∃ lexeme ∈ preamble.imports, resolveImport system directories owner lexeme = .ok target

/-- Files that the roots lead to. -/
def Reached (system : FileSystem Source) (frontend : Frontend Source Decl) (directories roots : List Path) (path : Path) : Prop :=
  ∃ root ∈ roots, ∃ start, absolutePath system root [] = .ok start ∧ ReflTransGen (Imports system frontend directories) start path

/-- A file the roots lead to imports itself, directly or not. -/
def Cyclic (system : FileSystem Source) (frontend : Frontend Source Decl) (directories roots : List Path) : Prop :=
  ∃ path again, Reached system frontend directories roots path ∧ TransGen (Imports system frontend directories) path again ∧
    sameFile system again path = true

def Depends (graph : List ModuleNode) (i j : Nat) : Prop := ∃ node, graph[i]? = some node ∧ j ∈ node.dependencies

section Discovery

variable (system : FileSystem Source) (frontend : Frontend Source Decl) (directories roots : List Path)

/-- What holds of the loader between two steps of discovery. -/
structure Discovered (s : ModuleLoader Decl) : Prop where
  importPaths : s.importPaths = directories
  records : s.records.length = s.graph.length
  nodup : (s.active ++ s.order).Nodup
  mem : ∀ i, i < s.graph.length ↔ i ∈ s.active ∨ i ∈ s.order
  depth : s.active.length ≤ 32
  record : ∀ (i : Nat) (r : Record Decl), s.records[i]? = some r → (r.loaded = true ↔ i ∈ s.order) ∧ r.taken = false ∧ r.completed = false ∧
    ∀ a ∈ r.aliases, a < s.aliasBindings.length
  distinct : ∀ (i j : Nat) (left right : ModuleNode), i < j → s.graph[i]? = some left → s.graph[j]? = some right →
    sameFile system right.path left.path = false
  ordered : DependencyOrder (Depends s.graph) s.order
  covered : ∀ i ∈ s.order, ∀ node : ModuleNode, s.graph[i]? = some node → ∀ target, Imports system frontend directories node.path target →
    ∃ (j : Nat) (other : ModuleNode), j ∈ node.dependencies ∧ s.graph[j]? = some other ∧ sameFile system target other.path = true
  imported : ∀ (i : Nat) (node : ModuleNode), s.graph[i]? = some node → ∀ j ∈ node.dependencies, j ∈ s.order ∧ ∃ (other : ModuleNode) (target : Path),
    s.graph[j]? = some other ∧ Imports system frontend directories node.path target ∧ sameFile system target other.path = true
  reached : ∀ (i : Nat) (node : ModuleNode), s.graph[i]? = some node → Reached system frontend directories roots node.path
  chain : ∀ (before : List Nat) (i j : Nat) (after : List Nat), s.active = before ++ i :: j :: after → ∀ left right : ModuleNode, s.graph[i]? = some left →
    s.graph[j]? = some right → Imports system frontend directories left.path right.path

/-- What a further module leaves as it was. -/
structure Extends (s s' : ModuleLoader Decl) : Prop where
  graph : ∃ more, s'.graph = s.graph ++ more
  records : ∃ more, s'.records = s.records ++ more
  active : s'.active = s.active
  order : ∃ more, s'.order = s.order ++ more
  bindings : ∃ more, s'.aliasBindings = s.aliasBindings ++ more

/-- Where a file may be looked for: it is reached, and the last module on the way imports it. -/
def Due (s : ModuleLoader Decl) (path : Path) : Prop :=
  Reached system frontend directories roots path ∧
    ∀ before i, s.active = before ++ [i] → ∀ node : ModuleNode, s.graph[i]? = some node → Imports system frontend directories node.path path

/-- The outcome of a module. -/
def Loads (s : ModuleLoader Decl) (path : Path) (result : Except Failure (Nat × ModuleLoader Decl)) : Prop :=
  Fairly (Cyclic system frontend directories roots) (fun r => Discovered system frontend directories roots r.2 ∧ Extends s r.2 ∧
    r.1 ∈ r.2.order ∧ ∃ node : ModuleNode, r.2.graph[r.1]? = some node ∧ sameFile system path node.path = true) result

end Discovery

variable {directories roots : List Path}

theorem Extends.refl (s : ModuleLoader Decl) : Extends s s :=
  ⟨⟨[], by simp⟩, ⟨[], by simp⟩, rfl, ⟨[], by simp⟩, ⟨[], by simp⟩⟩

theorem Extends.getElem? {s s' : ModuleLoader Decl} (h : Extends s s') {i : Nat} {node : ModuleNode} (hi : s.graph[i]? = some node) :
    s'.graph[i]? = some node := by
  obtain ⟨more, hmore⟩ := h.graph
  rw [hmore, List.getElem?_append_left (List.getElem?_eq_some_iff.mp hi).choose]
  exact hi

theorem Extends.mem_order {s s' : ModuleLoader Decl} (h : Extends s s') {i : Nat} (hi : i ∈ s.order) : i ∈ s'.order := by
  obtain ⟨more, hmore⟩ := h.order
  rw [hmore]
  exact List.mem_append_left _ hi

/-- Two neighbours in a list that ends in an element of its own. -/
theorem snoc_split {α : Type} {list before after : List α} {a b last : α} (h : list ++ [last] = before ++ a :: b :: after) :
    (after = [] ∧ list = before ++ [a] ∧ last = b) ∨ ∃ rest, after = rest ++ [last] ∧ list = before ++ a :: b :: rest := by
  rcases List.eq_nil_or_concat after with rfl | ⟨rest, other, rfl⟩
  · have h : list ++ [last] = (before ++ [a]) ++ [b] := by simpa using h
    obtain ⟨hlist, hlast⟩ := List.append_inj' h rfl
    exact .inl ⟨rfl, hlist, by simpa using hlast⟩
  · have h : list ++ [last] = (before ++ a :: b :: rest) ++ [other] := by simpa using h
    obtain ⟨hlist, hlast⟩ := List.append_inj' h rfl
    obtain rfl : last = other := by simpa using hlast
    exact .inr ⟨rest, by simp, hlist⟩

theorem addDependency_path (d : Nat) (node : ModuleNode) : (addDependency d node).path = node.path := by
  unfold addDependency
  split <;> rfl

theorem mem_addDependency {d i : Nat} {node : ModuleNode} :
    i ∈ (addDependency d node).dependencies ↔ i ∈ node.dependencies ∨ i = d := by
  unfold addDependency
  split
  · rename_i hmem
    exact ⟨.inl, fun hi => hi.elim id fun heq => heq ▸ hmem⟩
  · simp

/-- A node behind a change of one of them. -/
theorem modify_cases {α : Type} {list : List α} {f : α → α} {id i : Nat} {a : α} (h : (list.modify id f)[i]? = some a) :
    ∃ b, list[i]? = some b ∧ a = if id = i then f b else b := by
  rw [List.getElem?_modify] at h
  obtain ⟨b, hb, heq⟩ := Option.map_eq_some_iff.mp h
  exact ⟨b, hb, heq.symm⟩

theorem modify_middle {α : Type} (left right : List α) (a : α) (f : α → α) :
    (left ++ a :: right).modify left.length f = left ++ f a :: right := by
  induction left with
  | nil => rfl
  | cons b left ih => exact congrArg (b :: ·) ih

theorem modify_some {α : Type} {list : List α} {id i : Nat} {b : α} (f : α → α) (h : list[i]? = some b) :
    (list.modify id f)[i]? = some (if id = i then f b else b) := by
  rw [List.getElem?_modify, h]
  rfl

namespace Discovered

variable {s : ModuleLoader Decl} (h : Discovered system frontend directories roots s)
include h

theorem notMem_order {i : Nat} (hi : i ∈ s.active) : i ∉ s.order :=
  fun horder => (List.nodup_append.mp h.nodup).2.2 i hi i horder rfl

/-- The modules on the way from one that is found again import it in the end. -/
theorem cyclic {before after : List Nat} {i : Nat} {node : ModuleNode} {path : Path} (hactive : s.active = before ++ i :: after)
    (hnode : s.graph[i]? = some node) (hdue : Due system frontend directories roots s path)
    (hsame : sameFile system path node.path = true) : Cyclic system frontend directories roots := by
  have hreach : ∀ (after before : List Nat) (i : Nat) (node : ModuleNode), s.active = before ++ i :: after →
      s.graph[i]? = some node → TransGen (Imports system frontend directories) node.path path := by
    intro after
    induction after with
    | nil => exact fun before i node hactive hnode => .single (hdue.2 before i hactive node hnode)
    | cons j after ih =>
        intro before i node hactive hnode
        have hj : j < s.graph.length := (h.mem j).mpr (.inl (by rw [hactive]; simp))
        have hnext := List.getElem?_eq_getElem hj
        exact .head (h.chain before i j after hactive node _ hnode hnext) (ih (before ++ [i]) j _ (by rw [hactive]; simp) hnext)
  exact ⟨node.path, path, h.reached i node hnode, hreach after before i node hactive hnode, hsame⟩

theorem lt_of_mem {i : Nat} (hi : i ∈ s.active ++ s.order) : i < s.graph.length :=
  (h.mem i).mpr (List.mem_append.mp hi)

/-- A new module joins the modules on the way. -/
theorem begin {path : Path} {interface : Bool} (hdue : Due system frontend directories roots s path)
    (hnew : ∀ node ∈ s.graph, sameFile system path node.path = false) (hdepth : s.active.length < 32) :
    Discovered system frontend directories roots (begin s path interface) := by
  have hold : ∀ {i : Nat} {node : ModuleNode}, (s.graph ++ [⟨path, interface, []⟩])[i]? = some node →
      s.graph[i]? = some node ∨ (i = s.graph.length ∧ node = ⟨path, interface, []⟩) := by
    intro i node hnode
    rw [List.getElem?_append] at hnode
    split at hnode
    · exact .inl hnode
    · rename_i hge
      have hi : i - s.graph.length = 0 := by
        have := (List.getElem?_eq_some_iff.mp hnode).choose
        simp only [List.length_singleton] at this
        omega
      rw [hi] at hnode
      exact .inr ⟨by omega, by simpa using hnode.symm⟩
  have hkeep : ∀ {i : Nat} {node : ModuleNode}, s.graph[i]? = some node → (s.graph ++ [⟨path, interface, []⟩])[i]? = some node := by
    intro i node hnode
    rw [List.getElem?_append_left (List.getElem?_eq_some_iff.mp hnode).choose]
    exact hnode
  have hfresh : s.graph.length ∉ s.active ++ s.order := fun hmem => Nat.lt_irrefl _ (h.lt_of_mem hmem)
  have hbelow : ∀ i ∈ s.order, ∀ node, (s.graph ++ [⟨path, interface, []⟩])[i]? = some node → s.graph[i]? = some node := by
    intro i hi node hnode
    rcases hold hnode with hnode | ⟨rfl, -⟩
    · exact hnode
    · exact absurd (List.mem_append_right _ hi) hfresh
  refine
    { importPaths := h.importPaths
      records := by simp [Project.begin, h.records]
      nodup := ?_
      mem := ?_
      depth := by simpa [Project.begin] using hdepth
      record := ?_
      distinct := ?_
      ordered := h.ordered.congr fun i hi j hj => ?_
      covered := ?_
      imported := ?_
      reached := ?_
      chain := ?_ }
  · have hperm : ((s.active ++ [s.graph.length]) ++ s.order).Perm (s.graph.length :: (s.active ++ s.order)) := by
      rw [List.append_assoc]
      exact List.perm_middle
    exact hperm.nodup_iff.mpr (List.nodup_cons.mpr ⟨hfresh, h.nodup⟩)
  · intro i
    have hmem := h.mem i
    simp only [Project.begin, List.length_append, List.length_singleton, List.mem_append, List.mem_singleton]
    rcases Nat.lt_trichotomy i s.graph.length with hlt | heq | hgt
    · have := hmem.mp hlt
      constructor
      · exact fun _ => this.elim (fun h => .inl (.inl h)) .inr
      · exact fun _ => by omega
    · exact ⟨fun _ => .inl (.inr heq), fun _ => by omega⟩
    · constructor
      · exact fun hlt => absurd hlt (by omega)
      · rintro ((hactive | heq) | horder)
        · have := hmem.mpr (.inl hactive)
          omega
        · omega
        · have := hmem.mpr (.inr horder)
          omega
  · intro i r hr
    rw [Project.begin, List.getElem?_append] at hr
    split at hr
    · exact h.record i r hr
    · rename_i hge
      obtain ⟨hlt, hr⟩ := List.getElem?_eq_some_iff.mp hr
      simp only [List.length_singleton] at hlt
      have hi : i = s.graph.length := by
        have := h.records
        omega
      have hr : r = {} := by simpa [hi, h.records] using hr.symm
      subst hr hi
      exact ⟨⟨nofun, fun horder => absurd (List.mem_append_right _ horder) hfresh⟩, rfl, rfl, by simp⟩
  · intro i j left right hij hi hj
    rcases hold hj with hj | ⟨rfl, rfl⟩
    · rcases hold hi with hi | ⟨rfl, -⟩
      · exact h.distinct i j left right hij hi hj
      · have := (List.getElem?_eq_some_iff.mp hj).choose
        omega
    · rcases hold hi with hi | ⟨rfl, -⟩
      · exact hnew left (List.mem_of_getElem? hi)
      · omega
  · obtain ⟨node, hnode, hdepends⟩ := hj
    exact ⟨node, hbelow i hi node hnode, hdepends⟩
  · intro i hi node hnode target htarget
    obtain ⟨j, other, hj, hother, hsame⟩ := h.covered i hi node (hbelow i hi node hnode) target htarget
    exact ⟨j, other, hj, hkeep hother, hsame⟩
  · intro i node hnode j hj
    rcases hold hnode with hnode | ⟨rfl, rfl⟩
    · obtain ⟨horder, other, target, hother, htarget, hsame⟩ := h.imported i node hnode j hj
      exact ⟨horder, other, target, hkeep hother, htarget, hsame⟩
    · cases hj
  · intro i node hnode
    rcases hold hnode with hnode | ⟨-, rfl⟩
    · exact h.reached i node hnode
    · exact hdue.1
  · intro before i j after hactive left right hi hj
    have hlow : ∀ i ∈ s.active, ∀ node, (s.graph ++ [⟨path, interface, []⟩])[i]? = some node → s.graph[i]? = some node := by
      intro i hi node hnode
      rcases hold hnode with hnode | ⟨rfl, -⟩
      · exact hnode
      · exact absurd (List.mem_append_left _ hi) hfresh
    rcases snoc_split hactive with ⟨-, hbefore, hj'⟩ | ⟨rest, -, hbefore⟩
    · have hleft := hlow i (by rw [hbefore]; simp) left hi
      rcases hold hj with hj | ⟨-, rfl⟩
      · have := (List.getElem?_eq_some_iff.mp hj).choose
        omega
      · exact hdue.2 before i hbefore left hleft
    · exact h.chain before i j rest hbefore left right (hlow i (by rw [hbefore]; simp) left hi)
        (hlow j (by rw [hbefore]; simp) right hj)

/-- A module on the way depends on one that is loaded. -/
theorem dependency {id d : Nat} {node other : ModuleNode} {target : Path} (hid : id ∈ s.active) (hnode : s.graph[id]? = some node)
    (hd : d ∈ s.order) (hother : s.graph[d]? = some other) (htarget : Imports system frontend directories node.path target)
    (hsame : sameFile system target other.path = true) :
    Discovered system frontend directories roots { s with graph := s.graph.modify id (addDependency d) } := by
  have hold : ∀ {i : Nat} {node' : ModuleNode}, (s.graph.modify id (addDependency d))[i]? = some node' →
      ∃ before, s.graph[i]? = some before ∧ node'.path = before.path ∧
        ∀ j ∈ node'.dependencies, j ∈ before.dependencies ∨ (j = d ∧ before = node) := by
    intro i node' hnode'
    obtain ⟨before, hbefore, rfl⟩ := modify_cases hnode'
    refine ⟨before, hbefore, ?_, fun j hj => ?_⟩
    · split
      · exact addDependency_path d before
      · rfl
    · split at hj
      · rename_i heq
        subst heq
        obtain rfl : node = before := Option.some.inj (hnode.symm.trans hbefore)
        exact (mem_addDependency.mp hj).imp_right fun heq => ⟨heq, rfl⟩
      · exact .inl hj
  have hkeep : ∀ {i : Nat} {before : ModuleNode}, s.graph[i]? = some before →
      ∃ node', (s.graph.modify id (addDependency d))[i]? = some node' ∧ node'.path = before.path ∧
        ∀ j ∈ before.dependencies, j ∈ node'.dependencies := by
    intro i before hbefore
    refine ⟨_, modify_some _ hbefore, ?_, fun j hj => ?_⟩
    · split
      · exact addDependency_path d before
      · rfl
    · split
      · exact mem_addDependency.mpr (.inl hj)
      · exact hj
  have hloaded : ∀ i ∈ s.order, ∀ {node' : ModuleNode}, (s.graph.modify id (addDependency d))[i]? = some node' →
      s.graph[i]? = some node' := by
    intro i hi node' hnode'
    obtain ⟨before, hbefore, rfl⟩ := modify_cases hnode'
    have hne : id ≠ i := by
      rintro rfl
      exact h.notMem_order hid hi
    rwa [if_neg hne]
  refine
    { importPaths := h.importPaths
      records := by simp [h.records]
      nodup := h.nodup
      mem := by simpa using h.mem
      depth := h.depth
      record := h.record
      distinct := ?_
      ordered := h.ordered.congr fun i hi j hj => ?_
      covered := ?_
      imported := ?_
      reached := ?_
      chain := ?_ }
  · intro i j left right hij hi hj
    obtain ⟨left', hleft, hpath, -⟩ := hold hi
    obtain ⟨right', hright, hpath', -⟩ := hold hj
    rw [hpath, hpath']
    exact h.distinct i j left' right' hij hleft hright
  · obtain ⟨node', hnode', hdepends⟩ := hj
    exact ⟨node', hloaded i hi hnode', hdepends⟩
  · intro i hi node' hnode' target' htarget'
    obtain ⟨j, other', hj, hother', hsame'⟩ := h.covered i hi node' (hloaded i hi hnode') target' htarget'
    obtain ⟨other'', hother'', hpath, -⟩ := hkeep hother'
    exact ⟨j, other'', hj, hother'', by rwa [hpath]⟩
  · intro i node' hnode' j hj
    obtain ⟨before, hbefore, hpath, hdependencies⟩ := hold hnode'
    rw [hpath]
    rcases hdependencies j hj with hj | ⟨rfl, rfl⟩
    · obtain ⟨horder, other', target', hother', htarget', hsame'⟩ := h.imported i before hbefore j hj
      obtain ⟨other'', hother'', hpath', -⟩ := hkeep hother'
      exact ⟨horder, other'', target', hother'', htarget', by rwa [hpath']⟩
    · obtain ⟨other'', hother'', hpath', -⟩ := hkeep hother
      exact ⟨hd, other'', target, hother'', htarget, by rwa [hpath']⟩
  · intro i node' hnode'
    obtain ⟨before, hbefore, hpath, -⟩ := hold hnode'
    rw [hpath]
    exact h.reached i before hbefore
  · intro before i j after hactive left right hi hj
    obtain ⟨left', hleft, hpath, -⟩ := hold hi
    obtain ⟨right', hright, hpath', -⟩ := hold hj
    rw [hpath, hpath']
    exact h.chain before i j after hactive left' right' hleft hright

/-- The last module on the way is loaded when its imports are. -/
theorem finish {active : List Nat} {id : Nat} {node : ModuleNode} (hactive : s.active = active ++ [id])
    (hnode : s.graph[id]? = some node)
    (hcovered : ∀ target, Imports system frontend directories node.path target →
      ∃ (j : Nat) (other : ModuleNode), j ∈ node.dependencies ∧ s.graph[j]? = some other ∧ sameFile system target other.path = true)
    {declarations : List Decl} {aliases : List Nat} {bindings : List TypeAliasBinding}
    (haliases : ∀ a ∈ aliases, a < bindings.length) (hbindings : s.aliasBindings.length ≤ bindings.length) :
    Discovered system frontend directories roots (finish s id declarations aliases bindings) := by
  have hid : id ∈ s.active := by
    rw [hactive]
    simp
  have hnot : id ∉ s.order := h.notMem_order hid
  have hdropped : (Project.finish s id declarations aliases bindings).active = active := by
    rw [Project.finish, hactive, List.dropLast_concat]
  have hmem : ∀ i, i ∈ s.active ∨ i ∈ s.order ↔ i ∈ active ∨ i ∈ s.order ++ [id] := by
    intro i
    rw [hactive]
    simp only [List.mem_append, List.mem_singleton]
    tauto
  refine
    { importPaths := h.importPaths
      records := by simp [Project.finish, h.records]
      nodup := ?_
      mem := ?_
      depth := ?_
      record := ?_
      distinct := h.distinct
      ordered := h.ordered.snoc hnot fun j hj => ?_
      covered := ?_
      imported := ?_
      reached := h.reached
      chain := ?_ }
  · rw [hdropped]
    have hperm : (active ++ (s.order ++ [id])).Perm (s.active ++ s.order) := by
      rw [hactive, List.append_assoc]
      exact List.Perm.append_left active List.perm_append_comm
    exact hperm.nodup_iff.mpr h.nodup
  · intro i
    rw [hdropped]
    exact (h.mem i).trans (hmem i)
  · rw [hdropped]
    have := h.depth
    rw [hactive, List.length_append] at this
    omega
  · intro i r hr
    obtain ⟨before, hbefore, rfl⟩ := modify_cases hr
    obtain ⟨hloaded, htaken, hcompleted, hbound⟩ := h.record i before hbefore
    show (_ ↔ i ∈ s.order ++ [id]) ∧ _
    by_cases heq : id = i
    · subst heq
      rw [if_pos rfl]
      exact ⟨by simp, htaken, hcompleted, haliases⟩
    · rw [if_neg heq]
      refine ⟨?_, htaken, hcompleted, fun a ha => (hbound a ha).trans_le hbindings⟩
      rw [hloaded]
      simp [Ne.symm heq]
  · obtain ⟨node', hnode', hdepends⟩ := hj
    exact (h.imported id node' hnode' j hdepends).1
  · intro i hi node' hnode' target htarget
    rcases List.mem_append.mp hi with hi | hi
    · exact h.covered i hi node' hnode' target htarget
    · rw [List.mem_singleton] at hi
      subst hi
      obtain rfl : node = node' := Option.some.inj (hnode.symm.trans hnode')
      exact hcovered target htarget
  · intro i node' hnode' j hj
    obtain ⟨horder, hrest⟩ := h.imported i node' hnode' j hj
    exact ⟨List.mem_append_left _ horder, hrest⟩
  · intro before i j after hsplit
    rw [hdropped] at hsplit
    exact h.chain before i j (after ++ [id]) (by rw [hactive, hsplit]; simp)

end Discovered

/-! ## Steps of discovery -/

theorem findFile_some {s : ModuleLoader Decl} {path : Path} {id : Nat} (h : findFile system s path = some id) :
    ∃ node : ModuleNode, s.graph[id]? = some node ∧ sameFile system path node.path = true := by
  obtain ⟨hlt, hsame, -⟩ := List.findIdx?_eq_some_iff_getElem.mp h
  exact ⟨_, List.getElem?_eq_getElem hlt, hsame⟩

theorem insertAlias_bound {index bound : Nat} {aliases : List Nat} (h : ∀ a ∈ aliases, a < bound) (hindex : index < bound) :
    ∀ a ∈ insertAlias index aliases, a < bound := by
  induction aliases with
  | nil => simpa [insertAlias] using hindex
  | cons other rest ih =>
      have hrest := ih fun a ha => h a (List.mem_cons_of_mem _ ha)
      have hother := h other List.mem_cons_self
      rw [insertAlias]
      split
      · simpa [hindex] using h
      · split
        · exact h
        · intro a ha
          rcases List.mem_cons.mp ha with rfl | ha
          · exact hother
          · exact hrest a ha

theorem fairly_addImportedAlias {cyclic : Prop} (table : TypeAliasTable) (binding : TypeAliasBinding) :
    Fairly cyclic (fun _ => True) (addImportedAlias table binding) := by
  unfold addImportedAlias
  split
  · split
    · exact trivial
    · exact trivial
  · split
    · exact trivial
    · exact trivial

/-- The aliases of a dependency are known to the loader. -/
theorem fairly_importAliases {cyclic : Prop} {r : Reading Decl} {aliases : List Nat}
    (hr : ∀ a ∈ r.aliases, a < r.loader.aliasBindings.length) (h : ∀ a ∈ aliases, a < r.loader.aliasBindings.length) :
    Fairly cyclic (fun r' => r'.loader = r.loader ∧ ∀ a ∈ r'.aliases, a < r.loader.aliasBindings.length)
      (foldAll importAlias r aliases) := by
  refine foldAll_ends (fun r' index hindex hr' => ?_) ⟨rfl, hr⟩
  obtain ⟨hloader, haliases⟩ := hr'
  refine fairly_elementAt (by rw [hloader]; exact h index hindex) fun binding _ => ?_
  refine Ends.bind (fairly_addImportedAlias r'.table binding) fun table _ => ?_
  exact ⟨hloader, insertAlias_bound haliases (h index hindex)⟩

/-- The aliases that a module declares are added to those it imports. -/
theorem fairly_declare {cyclic : Prop} (interface : Bool) {aliases : List Nat} {bindings : List TypeAliasBinding}
    (h : ∀ a ∈ aliases, a < bindings.length) (declarations : List Decl) :
    Fairly cyclic (fun s => (∀ a ∈ s.1, a < s.2.length) ∧ ∃ more, s.2 = bindings ++ more)
      (foldAll (declare frontend interface) (aliases, bindings) declarations) := by
  refine foldAll_ends (fun s declaration _ hs => ?_) ⟨h, [], by simp⟩
  obtain ⟨hbound, more, hmore⟩ := hs
  refine fairly_check trivial fun _ => ?_
  split
  · exact ⟨hbound, more, hmore⟩
  · rename_i binding _
    refine fairly_check trivial fun _ => ⟨?_, more ++ [binding], by rw [hmore, List.append_assoc]⟩
    rw [List.length_append]
    exact insertAlias_bound (fun a ha => (hbound a ha).trans (Nat.lt_add_one _)) (Nat.lt_add_one _)

theorem fairly_nameModule {cyclic : Prop} (s : ModuleLoader Decl) (interface : Bool) (name : String) :
    Fairly cyclic (fun s' => ∃ names, s' = { s with moduleNames := names }) (nameModule s interface name) := by
  unfold nameModule
  split
  · exact fairly_check trivial fun _ => fairly_check trivial fun _ => ⟨_, rfl⟩
  · exact ⟨s.moduleNames, rfl⟩

section Steps

variable (system frontend directories roots)

/-- What holds of a module while its imports are followed; `s` is the loader before it. -/
structure Following (s : ModuleLoader Decl) (path : Path) (seen : List Path) (r : Reading Decl) : Prop where
  discovered : Discovered system frontend directories roots r.loader
  active : r.loader.active = s.active ++ [s.graph.length]
  aliases : ∀ a ∈ r.aliases, a < r.loader.aliasBindings.length
  records : ∃ more, r.loader.records = s.records ++ more
  order : ∃ more, r.loader.order = s.order ++ more
  bindings : ∃ more, r.loader.aliasBindings = s.aliasBindings ++ more
  graph : ∃ (node : ModuleNode) (more : List ModuleNode), r.loader.graph = s.graph ++ node :: more ∧ node.path = path ∧
    ∀ lexeme ∈ seen, ∀ target, resolveImport system directories path lexeme = .ok target →
      ∃ (j : Nat) (other : ModuleNode), j ∈ node.dependencies ∧ r.loader.graph[j]? = some other ∧
        sameFile system target other.path = true

/-- The modules below a level of depth load as they should. -/
def LoadsBelow (depth : Nat) (load : Load Decl) : Prop :=
  ∀ s path interface, Discovered system frontend directories roots s → Due system frontend directories roots s path →
    33 ≤ depth + s.active.length → Loads system frontend directories roots s path (load s path interface)

end Steps

section Import

variable {s : ModuleLoader Decl} {path : Path} {depth : Nat} {load : Load Decl} {source : Source} {preamble : Preamble}
  (hload : LoadsBelow system frontend directories roots depth load) (hread : system.read path = some source)
  (hpreamble : frontend.parsePreamble source = .ok preamble) (hpath : Reached system frontend directories roots path)
  (hdepth : 33 ≤ depth + (s.active.length + 1))
include hload hread hpreamble hpath hdepth

/-- One import. -/
theorem importModule_following {seen : List Path} {r : Reading Decl} {lexeme : Path} (hlexeme : lexeme ∈ preamble.imports)
    (h : Following system frontend directories roots s path seen r) :
    Fairly (Cyclic system frontend directories roots) (Following system frontend directories roots s path (seen ++ [lexeme]))
      (importModule system load path s.graph.length r lexeme) := by
  obtain ⟨node, more, hgraph, hnode, hcovered⟩ := h.graph
  have hid : r.loader.graph[s.graph.length]? = some node := by rw [hgraph, List.getElem?_append_right (Nat.le_refl _), Nat.sub_self]; rfl
  have himport : ∀ target, resolveImport system directories path lexeme = .ok target →
      Imports system frontend directories path target := fun target htarget => ⟨source, preamble, hread, hpreamble, lexeme, hlexeme, htarget⟩
  unfold importModule
  rw [h.discovered.importPaths]
  refine Ends.bind (fairly_resolveImport system directories path lexeme) fun dependency hdependency => ?_
  have htarget := himport dependency hdependency
  have hdue : Due system frontend directories roots r.loader dependency := by
    refine ⟨?_, fun before i hbefore other hother => ?_⟩
    · obtain ⟨root, hroot, start, hstart, hreach⟩ := hpath
      exact ⟨root, hroot, start, hstart, hreach.tail htarget⟩
    · rw [h.active] at hbefore
      obtain ⟨-, hlast⟩ := List.append_inj' hbefore rfl
      obtain rfl : s.graph.length = i := by simpa using hlast
      obtain rfl : node = other := Option.some.inj (hid.symm.trans hother)
      rw [hnode]
      exact htarget
  have hloaded := hload r.loader dependency (isInterface dependency) h.discovered hdue (by rw [h.active]; simpa using hdepth)
  refine Ends.bind hloaded fun result hresult => ?_
  obtain ⟨dependencyId, after⟩ := result
  obtain ⟨hdiscovered, hextends, horder, other, hother, hsame⟩ := hresult
  dsimp only at hdiscovered hextends horder hother ⊢
  have hid' := hextends.getElem? hid
  have hlt := (List.getElem?_eq_some_iff.mp hid').choose
  refine fairly_elementAt hlt fun found hfound => ?_
  have hactive : s.graph.length ∈ after.active := by
    rw [hextends.active, h.active]
    simp
  have hlinked := hdiscovered.dependency hactive hid' horder hother (by rw [hnode]; exact htarget) hsame
  have hdependencyId : dependencyId < after.records.length := by
    rw [hdiscovered.records]
    exact (List.getElem?_eq_some_iff.mp hother).choose
  refine fairly_elementAt hdependencyId fun record hrecord => ?_
  obtain ⟨moreRecords, hmoreRecords⟩ := h.records
  obtain ⟨moreOrder, hmoreOrder⟩ := h.order
  obtain ⟨moreBindings, hmoreBindings⟩ := h.bindings
  obtain ⟨grownGraph, hgrownGraph⟩ := hextends.graph
  obtain ⟨grownRecords, hgrownRecords⟩ := hextends.records
  obtain ⟨grownOrder, hgrownOrder⟩ := hextends.order
  obtain ⟨grownBindings, hgrownBindings⟩ := hextends.bindings
  have hbound : ∀ a ∈ r.aliases, a < after.aliasBindings.length := by
    intro a ha
    rw [hgrownBindings, List.length_append]
    exact Nat.lt_add_right _ (h.aliases a ha)
  have haliases : Fairly (Cyclic system frontend directories roots) _ (foldAll importAlias { r with loader := { after with
      graph := after.graph.modify s.graph.length (addDependency dependencyId) } } record.aliases) :=
    fairly_importAliases hbound (hdiscovered.record dependencyId record hrecord).2.2.2
  refine haliases.mono fun r' hr' => ?_
  obtain ⟨hloader, haliases⟩ := hr'
  have hmodified : r'.loader.graph = s.graph ++ addDependency dependencyId node :: (more ++ grownGraph) := by
    rw [hloader]
    show after.graph.modify s.graph.length (addDependency dependencyId) = _
    rw [hgrownGraph, hgraph, List.append_assoc, List.cons_append, modify_middle]
  refine
    { discovered := by rw [hloader]; exact hlinked
      active := by rw [hloader]; exact hextends.active.trans h.active
      aliases := by rw [hloader]; exact haliases
      records := ⟨moreRecords ++ grownRecords, by rw [hloader]; simp [hgrownRecords, hmoreRecords]⟩
      order := ⟨moreOrder ++ grownOrder, by rw [hloader]; simp [hgrownOrder, hmoreOrder]⟩
      bindings := ⟨moreBindings ++ grownBindings, by rw [hloader]; simp [hgrownBindings, hmoreBindings]⟩
      graph := ⟨_, _, hmodified, (addDependency_path _ _).trans hnode, ?_⟩ }
  intro lexeme' hlexeme' target htarget'
  have hkeep : ∀ {j : Nat} {other : ModuleNode}, after.graph[j]? = some other →
      ∃ other' : ModuleNode, r'.loader.graph[j]? = some other' ∧ other'.path = other.path := by
    intro j other hother
    rw [hloader]
    refine ⟨_, modify_some _ hother, ?_⟩
    split
    · exact addDependency_path _ _
    · rfl
  rcases List.mem_append.mp hlexeme' with hseen | hlast
  · obtain ⟨j, other', hj, hother', hsame'⟩ := hcovered lexeme' hseen target htarget'
    obtain ⟨other'', hother'', hpath''⟩ := hkeep (hextends.getElem? hother')
    exact ⟨j, other'', mem_addDependency.mpr (.inl hj), hother'', by rwa [hpath'']⟩
  · rw [List.mem_singleton] at hlast
    subst hlast
    obtain rfl : dependency = target := Except.ok.inj (hdependency.symm.trans htarget')
    obtain ⟨other'', hother'', hpath''⟩ := hkeep hother
    exact ⟨dependencyId, other'', mem_addDependency.mpr (.inr rfl), hother'', by rwa [hpath'']⟩

end Import

/-- Bytes and names have no part in the order. -/
theorem Discovered.counted {s : ModuleLoader Decl} (h : Discovered system frontend directories roots s) (totalBytes : Int)
    (names : List String) : Discovered system frontend directories roots { s with totalBytes := totalBytes, moduleNames := names } :=
  ⟨h.importPaths, h.records, h.nodup, h.mem, h.depth, h.record, h.distinct, h.ordered, h.covered, h.imported, h.reached, h.chain⟩

theorem enter_loads {s : ModuleLoader Decl} {path : Path} {depth : Nat} {load : Load Decl}
    (hload : LoadsBelow system frontend directories roots depth load) (h : Discovered system frontend directories roots s)
    (hdue : Due system frontend directories roots s path) (hdepth : 33 ≤ depth + 1 + s.active.length)
    (hnew : ∀ node ∈ s.graph, sameFile system path node.path = false) (interface : Bool) :
    Loads system frontend directories roots s path (enter system frontend load s path interface) := by
  refine fairly_check trivial fun hlimit => ?_
  refine Ends.bind (fairly_readFile system s.totalBytes path) fun result hread => ?_
  obtain ⟨source, totalBytes⟩ := result
  refine Ends.bind (fairly_diagnosed _) fun preamble hpreamble => ?_
  refine Ends.bind (fairly_nameModule _ interface preamble.moduleName) fun s₁ hs₁ => ?_
  obtain ⟨names, rfl⟩ := hs₁
  have hbegun : Discovered system frontend directories roots
      { begin s path interface with totalBytes := totalBytes, moduleNames := names } :=
    (h.begin hdue hnew (by omega)).counted totalBytes names
  have hstart : Following system frontend directories roots s path []
      ⟨[], builtinTypeAliases, { begin s path interface with totalBytes := totalBytes, moduleNames := names }⟩ :=
    { discovered := hbegun
      active := rfl
      aliases := by simp
      records := ⟨[{}], rfl⟩
      order := ⟨[], (List.append_nil _).symm⟩
      bindings := ⟨[], (List.append_nil _).symm⟩
      graph := ⟨_, [], rfl, rfl, by simp⟩ }
  have hfollow := foldAll_ends_seen (fun seen r lexeme hlexeme hr =>
    importModule_following hload hread hpreamble hdue.1 (by omega) hlexeme hr) hstart
  refine Ends.bind hfollow fun r hr => ?_
  rw [List.nil_append] at hr
  refine Ends.bind (fairly_diagnosed _) fun declarations _ => ?_
  refine Ends.bind (fairly_declare interface hr.aliases declarations) fun own hown => ?_
  obtain ⟨node, more, hgraph, hnode, hcovered⟩ := hr.graph
  have hid : r.loader.graph[s.graph.length]? = some node := by
    rw [hgraph, List.getElem?_append_right (Nat.le_refl _), Nat.sub_self]
    rfl
  obtain ⟨haliases, moreBindings, hmoreBindings⟩ := hown
  refine fairly_elementAt (by rw [hr.discovered.records]; exact (List.getElem?_eq_some_iff.mp hid).choose) fun record hrecord => ?_
  have hdone : Discovered system frontend directories roots (finish r.loader s.graph.length declarations own.1 own.2) :=
    hr.discovered.finish hr.active hid (by
      rintro target ⟨source', preamble', hread', hpreamble', lexeme, hlexeme, htarget⟩
      rw [hnode] at hread' htarget
      obtain rfl : source = source' := Option.some.inj (hread.symm.trans hread')
      obtain rfl : preamble = preamble' := Except.ok.inj (hpreamble.symm.trans hpreamble')
      exact hcovered lexeme hlexeme target htarget)
    haliases (by rw [hmoreBindings, List.length_append]; omega)
  obtain ⟨moreRecords, hmoreRecords⟩ := hr.records
  obtain ⟨moreOrder, hmoreOrder⟩ := hr.order
  obtain ⟨grownBindings, hgrownBindings⟩ := hr.bindings
  have hrecords : ∃ grown, (finish r.loader s.graph.length declarations own.1 own.2).records = s.records ++ grown := by
    have hlength : s.records.length = s.graph.length := h.records
    obtain ⟨mine, others, rfl⟩ : ∃ mine others, moreRecords = mine :: others := by
      cases moreRecords with
      | nil =>
          have := (List.getElem?_eq_some_iff.mp hrecord).choose
          rw [hmoreRecords, List.append_nil] at this
          omega
      | cons mine others => exact ⟨mine, others, rfl⟩
    refine ⟨{ mine with declarations := declarations, aliases := own.1, loaded := true } :: others, ?_⟩
    rw [finish, hmoreRecords, ← hlength, modify_middle]
  refine ⟨hdone, ⟨⟨_, hgraph⟩, hrecords, ?_, ⟨moreOrder ++ [s.graph.length], ?_⟩, ⟨grownBindings ++ moreBindings, ?_⟩⟩, ?_, node, hid, ?_⟩
  · rw [finish, hr.active, List.dropLast_concat]
  · rw [finish, hmoreOrder, List.append_assoc]
  · rw [finish, hmoreBindings, hgrownBindings, List.append_assoc]
  · simp [finish]
  · rw [hnode]
    simp [sameFile]

/-- A module so many levels deep. -/
theorem loadFile_loads (depth : Nat) : LoadsBelow system frontend directories roots depth (loadFile system frontend depth : Load Decl) := by
  induction depth with
  | zero =>
      intro s path interface h _ hdepth
      have := h.depth
      omega
  | succ depth ih =>
      intro s path interface h hdue hdepth
      have hdepth : 33 ≤ depth + 1 + s.active.length := hdepth
      rw [loadFile]
      dsimp only
      split
      · rename_i hfound
        exact enter_loads ih h hdue hdepth (List.findIdx?_eq_none_iff.mp hfound) interface
      · rename_i id hfound
        obtain ⟨node, hnode, hsame⟩ := findFile_some hfound
        have hlt := (List.getElem?_eq_some_iff.mp hnode).choose
        refine fairly_elementAt hlt fun found _ => fairly_check trivial fun _ => ?_
        split
        · rename_i hactive
          obtain ⟨before, after, hsplit⟩ := List.append_of_mem hactive
          exact h.cyclic hsplit hnode hdue hsame
        · rename_i hactive
          refine fairly_elementAt (by rw [h.records]; exact hlt) fun record hrecord => ?_
          have horder : id ∈ s.order := ((h.mem id).mp hlt).resolve_left hactive
          rw [if_pos ((h.record id record hrecord).1.mpr horder)]
          exact ⟨h, Extends.refl s, horder, node, hnode, hsame⟩

/-! ## All roots -/

section Roots

variable {s : ModuleLoader Decl}

/-- Between two roots no module is on the way, and the roots so far are in the graph. -/
structure Rooted (system : FileSystem Source) (frontend : Frontend Source Decl) (directories roots seen : List Path)
    (s : ModuleLoader Decl) : Prop where
  discovered : Discovered system frontend directories roots s
  active : s.active = []
  roots : ∀ root ∈ seen, ∀ start, absolutePath system root [] = .ok start →
    ∃ (j : Nat) (node : ModuleNode), s.graph[j]? = some node ∧ sameFile system start node.path = true

theorem loadRoot_rooted {seen : List Path} {root : Path} (hroot : root ∈ roots) (h : Rooted system frontend directories roots seen s) :
    Fairly (Cyclic system frontend directories roots) (Rooted system frontend directories roots (seen ++ [root]))
      (loadRoot system frontend s root) := by
  refine Ends.bind (fairly_absolutePath system root []) fun path hpath => ?_
  have hdue : Due system frontend directories roots s path := by
    refine ⟨⟨root, hroot, path, hpath, .refl⟩, fun before i hbefore => ?_⟩
    rw [h.active] at hbefore
    simp at hbefore
  refine Ends.bind (loadFile_loads 33 s path (isInterface path) h.discovered hdue (by omega)) fun result hresult => ?_
  obtain ⟨hdiscovered, hextends, -, node, hnode, hsame⟩ := hresult
  refine ⟨hdiscovered, hextends.active.trans h.active, fun other hother start hstart => ?_⟩
  rcases List.mem_append.mp hother with hother | hother
  · obtain ⟨j, node', hnode', hsame'⟩ := h.roots other hother start hstart
    exact ⟨j, node', hextends.getElem? hnode', hsame'⟩
  · rw [List.mem_singleton] at hother
    subst hother
    obtain rfl : path = start := Except.ok.inj (hpath.symm.trans hstart)
    exact ⟨_, node, hnode, hsame⟩

/-- The empty loader has discovered nothing. -/
theorem rooted_empty (directories roots : List Path) :
    Rooted system frontend directories roots [] ({ importPaths := directories } : ModuleLoader Decl) where
  discovered :=
    { importPaths := rfl
      records := rfl
      nodup := List.nodup_nil
      mem := by simp
      depth := by simp
      record := by simp
      distinct := by simp
      ordered := DependencyOrder.nil
      covered := by simp
      imported := by simp
      reached := by simp
      chain := by simp }
  active := rfl
  roots := by simp

/-- How discovery ends. -/
theorem discover_ends (roots importPaths : List Path) :
    Ends (fun s : ModuleLoader Decl => ∃ directories, foldAll (importDirectory system) [] importPaths = .ok directories ∧
        Rooted system frontend directories roots roots s)
      (fun e => e.Fair (∃ directories, foldAll (importDirectory system) [] importPaths = .ok directories ∧
        Cyclic system frontend directories roots))
      (discover system frontend roots importPaths) := by
  refine fairly_check trivial fun _ => fairly_check trivial fun _ => ?_
  have hdirectories : Fairly (∃ directories, foldAll (importDirectory system) [] importPaths = .ok directories ∧
      Cyclic system frontend directories roots) (fun _ => True) (foldAll (importDirectory system) [] importPaths) := by
    refine foldAll_ends (fun _ _ _ _ => ?_) trivial
    exact Ends.bind (fairly_absolutePath system _ []) fun _ _ => trivial
  refine Ends.bind (fairly_self hdirectories) fun directories hfound => ?_
  have hempty : Rooted system frontend directories roots [] ({ importPaths := directories } : ModuleLoader Decl) :=
    rooted_empty directories roots
  have hrooted := foldAll_ends_seen (fun seen s root hroot h => loadRoot_rooted hroot h) hempty
  cases hresult : foldAll (loadRoot system frontend) ({ importPaths := directories } : ModuleLoader Decl) roots with
  | error e =>
      rw [hresult] at hrooted
      exact Failure.Fair.mono (show e.Fair _ from hrooted) fun hcyclic => ⟨directories, hfound, hcyclic⟩
  | ok s =>
      rw [hresult] at hrooted
      exact ⟨directories, hfound, hrooted⟩

end Roots

/-! ## The order -/

/-- An order of the files that the roots lead to, each once, behind those it imports. -/
structure Exact (system : FileSystem Source) (frontend : Frontend Source Decl) (directories roots order : List Path) : Prop where
  distinct : order.Pairwise fun left right => sameFile system left right = false
  rooted : ∀ root ∈ roots, ∀ start, absolutePath system root [] = .ok start → ∃ path ∈ order, sameFile system start path = true
  reached : ∀ path ∈ order, Reached system frontend directories roots path
  behind : ∀ before path after, order = before ++ path :: after → ∀ target, Imports system frontend directories path target →
    ∃ other ∈ before, sameFile system target other = true

section Order

variable {s : ModuleLoader Decl}

def pathOf (s : ModuleLoader Decl) (i : Nat) : Path := (s.graph[i]?.map ModuleNode.path).getD []

theorem pathOf_eq {i : Nat} {node : ModuleNode} (h : s.graph[i]? = some node) : pathOf s i = node.path := by
  simp [pathOf, h]

theorem analysisOrder_eq (h : ∀ i ∈ s.order, i < s.graph.length) : analysisOrder s = s.order.map (pathOf s) := by
  unfold analysisOrder
  refine List.filterMap_eq_map_iff_forall_eq_some.mpr fun i hi => ?_
  rw [pathOf, List.getElem?_eq_getElem (h i hi)]
  rfl

theorem Rooted.lt {seen : List Path} (h : Rooted system frontend directories roots seen s) {i : Nat} : i < s.graph.length ↔ i ∈ s.order := by
  have hmem := h.discovered.mem i
  rw [h.active] at hmem
  simpa using hmem

theorem Rooted.exact (hfile : Equivalence fun left right => sameFile system left right = true)
    (h : Rooted system frontend directories roots roots s) : Exact system frontend directories roots (analysisOrder s) := by
  have hlt : ∀ i ∈ s.order, i < s.graph.length := fun i hi => h.lt.mpr hi
  have hnode : ∀ i ∈ s.order, ∃ node : ModuleNode, s.graph[i]? = some node ∧ pathOf s i = node.path := fun i hi =>
    ⟨_, List.getElem?_eq_getElem (hlt i hi), pathOf_eq (List.getElem?_eq_getElem (hlt i hi))⟩
  have hmem : ∀ {j : Nat} {node : ModuleNode}, s.graph[j]? = some node → node.path ∈ s.order.map (pathOf s) := fun {j node} hj =>
    List.mem_map.mpr ⟨j, h.lt.mp (List.getElem?_eq_some_iff.mp hj).choose, pathOf_eq hj⟩
  rw [analysisOrder_eq hlt]
  refine ⟨?_, fun root hroot start hstart => ?_, fun path hpath => ?_, ?_⟩
  · rw [List.pairwise_map]
    refine h.discovered.ordered.nodup.imp_of_mem fun {i j} hi hj hne => ?_
    obtain ⟨left, hleft, hpath⟩ := hnode i hi
    obtain ⟨right, hright, hpath'⟩ := hnode j hj
    rw [hpath, hpath']
    rcases Nat.lt_or_gt_of_ne hne with hlt | hgt
    · have hdistinct := h.discovered.distinct i j left right hlt hleft hright
      by_contra hsame
      rw [hfile.symm (Bool.eq_true_of_not_eq_false hsame)] at hdistinct
      cases hdistinct
    · exact h.discovered.distinct j i right left hgt hright hleft
  · obtain ⟨j, node, hj, hsame⟩ := h.roots root hroot start hstart
    exact ⟨node.path, hmem hj, hsame⟩
  · obtain ⟨i, hi, rfl⟩ := List.mem_map.mp hpath
    obtain ⟨node, hnode, hpath⟩ := hnode i hi
    rw [hpath]
    exact h.discovered.reached i node hnode
  · intro before path after hsplit target htarget
    obtain ⟨first, rest, horder, rfl, hrest⟩ := List.map_eq_append_iff.mp hsplit
    obtain ⟨i, rest, rfl, rfl, rfl⟩ := List.map_eq_cons_iff.mp hrest
    obtain ⟨node, hnode, hpath⟩ := hnode i (by rw [horder]; simp)
    rw [hpath] at htarget
    obtain ⟨j, other, hj, hother, hsame⟩ := h.discovered.covered i (by rw [horder]; simp) node hnode target htarget
    have hbefore := h.discovered.ordered.behind first i rest horder j ⟨node, hnode, hj⟩
    exact ⟨other.path, List.mem_map.mpr ⟨j, hbefore, pathOf_eq hother⟩, hsame⟩

/-- One file of the order imports another, whatever its import names it. -/
def Follows (system : FileSystem Source) (frontend : Frontend Source Decl) (directories order : List Path) (path other : Path) : Prop :=
  other ∈ order ∧ ∃ target, Imports system frontend directories path target ∧ sameFile system target other = true

variable {order : List Path}

/-- A file has one name in the order. -/
theorem Exact.eq_of_same (hfile : Equivalence fun left right => sameFile system left right = true)
    (h : Exact system frontend directories roots order) {path other : Path} (hpath : path ∈ order) (hother : other ∈ order)
    (hsame : sameFile system path other = true) : path = other := by
  have hsymm : Std.Symm fun left right => sameFile system left right = false := by
    refine ⟨fun left right hleft => ?_⟩
    by_contra hright
    rw [hfile.symm (Bool.eq_true_of_not_eq_false hright)] at hleft
    cases hleft
  by_contra hne
  have hdistinct := h.distinct.forall hpath hother hne
  rw [hsame] at hdistinct
  cases hdistinct

theorem Exact.dependencyOrder (hfile : Equivalence fun left right => sameFile system left right = true)
    (h : Exact system frontend directories roots order) : DependencyOrder (Follows system frontend directories order) order where
  nodup := h.distinct.imp fun {left right} hdistinct heq => by
    subst heq
    rw [hfile.refl left] at hdistinct
    cases hdistinct
  behind := by
    intro before path after hsplit other hother
    obtain ⟨hmem, target, htarget, hsame⟩ := hother
    obtain ⟨found, hfound, hsame'⟩ := h.behind before path after hsplit target htarget
    have hequal : sameFile system found other = true := hfile.trans (hfile.symm hsame') hsame
    obtain rfl := h.eq_of_same hfile (by rw [hsplit]; exact List.mem_append_left _ hfound) hmem hequal
    exact hfound

/-- No file of the order imports itself, directly or not. -/
theorem Exact.acyclic (hfile : Equivalence fun left right => sameFile system left right = true)
    (h : Exact system frontend directories roots order) {path : Path} (hpath : path ∈ order) :
    ¬ TransGen (Follows system frontend directories order) path path := (h.dependencyOrder hfile).acyclic hpath

/-- Where the imports of a file do not depend on the name by which it is reached, the order
has every file that names lead to. -/
theorem Exact.complete (hfile : Equivalence fun left right => sameFile system left right = true)
    (h : Exact system frontend directories roots order)
    (himports : ∀ path path' target, sameFile system path path' = true → Imports system frontend directories path target →
      ∃ target', Imports system frontend directories path' target' ∧ sameFile system target target' = true)
    {path : Path} (hpath : Reached system frontend directories roots path) :
    ∃ other ∈ order, sameFile system path other = true := by
  obtain ⟨root, hroot, start, hstart, hreach⟩ := hpath
  induction hreach with
  | refl => exact h.rooted root hroot start hstart
  | tail _ hstep ih =>
      obtain ⟨other, hother, hsame⟩ := ih
      obtain ⟨target', htarget', hsame'⟩ := himports _ _ _ hsame hstep
      obtain ⟨before, after, hsplit⟩ := List.append_of_mem hother
      obtain ⟨found, hfound, hsame''⟩ := h.behind before other after hsplit target' htarget'
      exact ⟨found, by rw [hsplit]; exact List.mem_append_left _ hfound, hfile.trans hsame' hsame''⟩

theorem Exact.not_cyclic (hfile : Equivalence fun left right => sameFile system left right = true)
    (h : Exact system frontend directories roots order)
    (himports : ∀ path path' target, sameFile system path path' = true → Imports system frontend directories path target →
      ∃ target', Imports system frontend directories path' target' ∧ sameFile system target target' = true) :
    ¬ Cyclic system frontend directories roots := by
  rintro ⟨path, again, hreached, hcycle, hsame⟩
  obtain ⟨other, hother, hsame'⟩ := h.complete hfile himports hreached
  have hstep : ∀ {path target other : Path}, other ∈ order → sameFile system path other = true →
      Imports system frontend directories path target → ∃ found ∈ order, sameFile system target found = true ∧
        Follows system frontend directories order other found := by
    intro path target other hother hsame htarget
    obtain ⟨target', htarget', hsame'⟩ := himports _ _ _ hsame htarget
    obtain ⟨before, after, hsplit⟩ := List.append_of_mem hother
    obtain ⟨found, hfound, hsame''⟩ := h.behind before other after hsplit target' htarget'
    have hmem : found ∈ order := by
      rw [hsplit]
      exact List.mem_append_left _ hfound
    exact ⟨found, hmem, hfile.trans hsame' hsame'', hmem, target', htarget', hsame''⟩
  have hfollow : ∀ target, TransGen (Imports system frontend directories) path target →
      ∃ found ∈ order, sameFile system target found = true ∧ TransGen (Follows system frontend directories order) other found := by
    intro target htarget
    induction htarget with
    | single htarget =>
        obtain ⟨found, hfound, hsame, hfollows⟩ := hstep hother hsame' htarget
        exact ⟨found, hfound, hsame, .single hfollows⟩
    | tail _ htarget ih =>
        obtain ⟨middle, hmiddle, hsame, hreach⟩ := ih
        obtain ⟨found, hfound, hsame, hfollows⟩ := hstep hmiddle hsame htarget
        exact ⟨found, hfound, hsame, hreach.tail hfollows⟩
  obtain ⟨found, hfound, hsame'', hreach⟩ := hfollow again hcycle
  have hequal : sameFile system found other = true := hfile.trans (hfile.symm hsame'') (hfile.trans hsame hsame')
  obtain rfl := h.eq_of_same hfile hfound hother hequal
  exact h.acyclic hfile hfound hreach

end Order

end Disco.Project
