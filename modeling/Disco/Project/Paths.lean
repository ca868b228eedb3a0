import Disco.Library.Checked

/-! # Paths

`DiscoProject::absolutePath` and what the module loader asks the file system for, in
the POSIX build. A path is a list of bytes, each as a character; what the operating
system answers is a parameter.
-/

namespace Disco.Project

open Library

abbrev Path := List Char

/-- Why a module graph is not built, or a module not handed over. -/
inductive Failure where
  | diagnostic (message : String)
  /-- A path or the working directory cannot be resolved. -/
  | path (message : String)
  | cyclic (interface : Bool) (chain : List Path)
  /-- A client that does not take and complete modules in turn. -/
  | protocol (message : String)
  | outOfRange
  /-- A recursion that was cut off. -/
  | unfinished
  deriving DecidableEq, Repr

/-- What the operating system says about paths; it does not change during a run. -/
structure FileSystem (Source : Type) where
  workingDirectory : Except String Path
  /-- Whether there is something of that name, and whether it is a regular file. -/
  stat : Path → Option Bool
  /-- The size of a file that can be opened. -/
  size : Path → Option Int
  read : Path → Option Source
  sameExistingFile : Path → Path → Bool

def maxProjectPathBytes : Nat := 4096

def slashes (path : Path) : Path := path.map fun c => if c = '\\' then '/' else c

def isDrive (path : Path) : Prop := path[1]? = some ':'

instance (path : Path) : Decidable (isDrive path) := inferInstanceAs (Decidable (_ = _))

/-- What stands between slashes. -/
def pieces : Path → List Path
  | [] => [[]]
  | c :: rest =>
      if c = '/' then [] :: pieces rest
      else match pieces rest with
        | [] => [[c]]
        | piece :: others => (c :: piece) :: others

def pushPart (parts : List Path) (part : Path) : List Path :=
  if part = [] ∨ part = ['.'] then parts
  else if part = ['.', '.'] then parts.dropLast
  else parts ++ [part]

def joinPart (result component : Path) : Path :=
  (if result.getLast? = some '/' then result else result ++ ['/']) ++ component

/-- An absolute path without `.`, `..` and empty parts. -/
def normalize (path : Path) : Path :=
  if 3 ≤ path.length ∧ isDrive path then ((pieces (path.drop 3)).foldl pushPart []).foldl joinPart (path.take 3)
  else ((pieces (path.drop 1)).foldl pushPart []).foldl joinPart ['/']

/-- A relative path put behind the directory. -/
def beneath (path : Path) (directory : Except Failure Path) : Except Failure Path :=
  if path.head? ≠ some '/' ∧ ¬ isDrive path then directory >>= fun base => pure (slashes (base ++ '/' :: path))
  else pure path

/-- `absolutePath` relative to a directory. -/
def absoluteFrom (input : Path) (directory : Except Failure Path) : Except Failure Path := do
  rejectIf (input = [] ∨ input.length > maxProjectPathBytes ∨ '\x00' ∈ input) (Failure.path "Invalid project path.")
  rejectIf (isDrive (slashes input) ∧ (slashes input)[2]? ≠ some '/')
    (Failure.path "Drive-relative project paths are unsupported.")
  let path ← beneath (slashes input) directory
  rejectIf ((normalize path).length > maxProjectPathBytes) (Failure.path "Project path exceeds 4096 bytes.")
  pure (normalize path)

section System

variable {Source : Type} (system : FileSystem Source)

def workingDirectory : Except Failure Path :=
  match system.workingDirectory with
  | .ok path => .ok (slashes path)
  | .error message => .error (.path message)

def absolutePath (input base : Path) : Except Failure Path :=
  absoluteFrom input (if base = [] then workingDirectory system else absoluteFrom base (workingDirectory system))

def parentPath (path : Path) : Except Failure Path := do
  let absolute ← absolutePath system path []
  pure (absolute.reverse.dropWhile (· ≠ '/')).reverse

end System

/-! ## Normal paths -/

/-- A part that normalization keeps. -/
structure Kept (part : Path) : Prop where
  nonempty : part ≠ []
  dot : part ≠ ['.']
  dots : part ≠ ['.', '.']
  slash : '/' ∉ part

/-- Parts with slashes between them. -/
def between : List Path → Path
  | [] => []
  | [part] => part
  | part :: rest => part ++ '/' :: between rest

theorem between_cons (part next : Path) (rest : List Path) :
    between (part :: next :: rest) = part ++ '/' :: between (next :: rest) := rfl

theorem pieces_slash {part : Path} (h : '/' ∉ part) (rest : Path) : pieces (part ++ '/' :: rest) = part :: pieces rest := by
  induction part with
  | nil => simp [pieces]
  | cons c part ih =>
      have hc : c ≠ '/' := fun heq => h (heq ▸ List.mem_cons_self)
      rw [List.cons_append, pieces, if_neg hc, ih fun hmem => h (List.mem_cons_of_mem _ hmem)]

theorem pieces_part {part : Path} (h : '/' ∉ part) : pieces part = [part] := by
  induction part with
  | nil => rfl
  | cons c part ih =>
      have hc : c ≠ '/' := fun heq => h (heq ▸ List.mem_cons_self)
      rw [pieces, if_neg hc, ih fun hmem => h (List.mem_cons_of_mem _ hmem)]

theorem pushPart_kept {part : Path} (h : Kept part) (parts : List Path) : pushPart parts part = parts ++ [part] := by
  rw [pushPart, if_neg (by simp [h.nonempty, h.dot]), if_neg h.dots]

/-- Normal parts are found again between the slashes. -/
theorem foldl_pushPart_between {parts : List Path} (h : ∀ part ∈ parts, Kept part) (before : List Path) :
    (pieces (between parts)).foldl pushPart before = before ++ parts := by
  induction parts generalizing before with
  | nil => simp [between, pieces, pushPart]
  | cons part rest ih =>
      have hpart := h part List.mem_cons_self
      cases rest with
      | nil =>
          rw [between, pieces_part hpart.slash]
          exact pushPart_kept hpart before
      | cons next rest =>
          rw [between, pieces_slash hpart.slash, List.foldl_cons, pushPart_kept hpart,
            ih fun other hother => h other (List.mem_cons_of_mem _ hother), List.append_assoc, List.singleton_append]
          simp

theorem getLast?_kept {part : Path} (h : Kept part) (before : Path) : (before ++ part).getLast? ≠ some '/' := by
  rw [List.getLast?_append_of_ne_nil _ h.nonempty]
  intro hlast
  exact h.slash (List.mem_of_getLast? hlast)

theorem foldl_joinPart {parts : List Path} (h : ∀ part ∈ parts, Kept part) {root : Path} (hroot : root.getLast? = some '/') :
    parts.foldl joinPart root = root ++ between parts := by
  cases parts with
  | nil => simp [between]
  | cons part rest =>
      have hrest : ∀ (rest : List Path) (part result : Path), Kept part → (∀ other ∈ rest, Kept other) →
          rest.foldl joinPart (result ++ part) = result ++ between (part :: rest) := by
        intro rest
        induction rest with
        | nil =>
            intro part result _ _
            rfl
        | cons next rest ih =>
            intro part result hpart hothers
            have hnext := ih next (result ++ part ++ ['/']) (hothers next List.mem_cons_self)
              fun other hother => hothers other (List.mem_cons_of_mem _ hother)
            rw [List.foldl_cons, joinPart, if_neg (getLast?_kept hpart result), hnext, between_cons]
            simp
      rw [List.foldl_cons, joinPart, if_pos hroot]
      exact hrest rest part root (h part List.mem_cons_self) fun other hother => h other (List.mem_cons_of_mem _ hother)

/-- What is joined to a root leaves the root in front. -/
theorem root_prefix (parts : List Path) (root : Path) : ∃ rest, parts.foldl joinPart root = root ++ rest := by
  induction parts generalizing root with
  | nil => exact ⟨[], by simp⟩
  | cons part parts ih =>
      obtain ⟨rest, hrest⟩ := ih (joinPart root part)
      rw [List.foldl_cons, hrest, joinPart]
      split
      · exact ⟨part ++ rest, by simp⟩
      · exact ⟨'/' :: part ++ rest, by simp⟩

theorem mem_pieces {path part : Path} (h : part ∈ pieces path) : '/' ∉ part ∧ ∀ c ∈ part, c ∈ path := by
  induction path generalizing part with
  | nil =>
      rw [pieces, List.mem_singleton] at h
      subst h
      simp
  | cons c rest ih =>
      rw [pieces] at h
      split at h
      · rcases List.mem_cons.mp h with rfl | h
        · simp
        · exact ⟨(ih h).1, fun d hd => List.mem_cons_of_mem _ ((ih h).2 d hd)⟩
      · rename_i hc
        split at h
        · rw [List.mem_singleton] at h
          subst h
          simpa using Ne.symm hc
        · rename_i piece others hpieces
          have hpiece : '/' ∉ piece ∧ ∀ d ∈ piece, d ∈ rest := ih (hpieces ▸ List.mem_cons_self)
          rcases List.mem_cons.mp h with rfl | h
          · refine ⟨?_, fun d hd => ?_⟩
            · simpa [Ne.symm hc] using hpiece.1
            · rcases List.mem_cons.mp hd with rfl | hd
              · exact List.mem_cons_self
              · exact List.mem_cons_of_mem _ (hpiece.2 d hd)
          · have hother : '/' ∉ part ∧ ∀ d ∈ part, d ∈ rest := ih (hpieces ▸ List.mem_cons_of_mem _ h)
            exact ⟨hother.1, fun d hd => List.mem_cons_of_mem _ (hother.2 d hd)⟩

/-- The parts that normalization keeps of a path. -/
theorem mem_foldl_pushPart {path part : Path} (h : part ∈ (pieces path).foldl pushPart []) : Kept part ∧ ∀ c ∈ part, c ∈ path := by
  have hfold : ∀ (list parts : List Path), (∀ other ∈ list, '/' ∉ other ∧ ∀ c ∈ other, c ∈ path) →
      (∀ other ∈ parts, Kept other ∧ ∀ c ∈ other, c ∈ path) →
        ∀ other ∈ list.foldl pushPart parts, Kept other ∧ ∀ c ∈ other, c ∈ path := by
    intro list
    induction list with
    | nil => exact fun parts _ hparts => hparts
    | cons next list ih =>
        intro parts hlist hparts
        refine ih _ (fun other hother => hlist other (List.mem_cons_of_mem _ hother)) ?_
        intro other hother
        rw [pushPart] at hother
        split at hother
        · exact hparts other hother
        · rename_i hnext
          split at hother
          · exact hparts other (List.mem_of_mem_dropLast hother)
          · rename_i hdots
            rcases List.mem_append.mp hother with hother | hother
            · exact hparts other hother
            · rw [List.mem_singleton] at hother
              subst hother
              have hslash := hlist other List.mem_cons_self
              exact ⟨⟨fun h => hnext (.inl h), fun h => hnext (.inr h), hdots, hslash.1⟩, hslash.2⟩
  exact hfold _ [] (fun other hother => mem_pieces hother) (by simp) part h

theorem slashes_eq {path : Path} (h : '\\' ∉ path) : slashes path = path := by
  refine (List.map_congr_left fun c hc => ?_).trans (List.map_id path)
  have hne : c ≠ '\\' := by
    rintro rfl
    exact h hc
  rw [if_neg hne]
  rfl

theorem backslash_slashes (path : Path) : '\\' ∉ slashes path := by
  intro h
  obtain ⟨c, -, hc⟩ := List.mem_map.mp h
  split at hc
  · cases hc
  · rename_i hne
    exact hne hc

theorem mem_between {parts : List Path} {c : Char} (h : c ∈ between parts) : c = '/' ∨ ∃ part ∈ parts, c ∈ part := by
  induction parts with
  | nil => cases h
  | cons part rest ih =>
      cases rest with
      | nil => exact .inr ⟨part, List.mem_cons_self, h⟩
      | cons next rest =>
          rw [between_cons, List.mem_append, List.mem_cons] at h
          rcases h with h | h | h
          · exact .inr ⟨part, List.mem_cons_self, h⟩
          · exact .inl h
          · obtain hslash | ⟨other, hother, hc⟩ := ih h
            · exact .inl hslash
            · exact .inr ⟨other, List.mem_cons_of_mem _ hother, hc⟩

/-- A path of a normal form. -/
inductive Normal : Path → Prop where
  | root {parts : List Path} (h : ∀ part ∈ parts, Kept part) : Normal ('/' :: between parts)
  | drive {parts : List Path} (letter : Char) (h : ∀ part ∈ parts, Kept part) : Normal (letter :: ':' :: '/' :: between parts)
  /-- What follows a drive that a relative path was put behind. -/
  | odd (letter c : Char) (rest : Path) (h : c ≠ '/') : Normal (letter :: ':' :: c :: rest)

theorem normalize_normal (path : Path) : Normal (normalize path) := by
  rw [normalize]
  split
  · rename_i hdrive
    obtain ⟨letter, colon, c, rest, rfl⟩ : ∃ letter colon c rest, path = letter :: colon :: c :: rest := by
      match path, hdrive.1 with
      | letter :: colon :: c :: rest, _ => exact ⟨letter, colon, c, rest, rfl⟩
    have hcolon : colon = ':' := by simpa [isDrive] using hdrive.2
    subst hcolon
    show Normal (List.foldl joinPart [letter, ':', c] _)
    by_cases hc : c = '/'
    · subst hc
      rw [foldl_joinPart (fun part hpart => (mem_foldl_pushPart hpart).1) rfl]
      exact .drive letter fun part hpart => (mem_foldl_pushPart hpart).1
    · obtain ⟨after, hafter⟩ := root_prefix ((pieces ((letter :: ':' :: c :: rest).drop 3)).foldl pushPart []) [letter, ':', c]
      rw [hafter]
      exact .odd letter c after hc
  · rw [foldl_joinPart (fun part hpart => (mem_foldl_pushPart hpart).1) rfl]
    exact .root fun part hpart => (mem_foldl_pushPart hpart).1

theorem backslash_normalize {path : Path} (h : '\\' ∉ path) : '\\' ∉ normalize path := by
  have hjoin : ∀ (parts : List Path) (root : Path), '\\' ∉ root → (∀ part ∈ parts, '\\' ∉ part) → '\\' ∉ parts.foldl joinPart root := by
    intro parts
    induction parts with
    | nil => exact fun root hroot _ => hroot
    | cons part parts ih =>
        intro root hroot hparts
        refine ih _ ?_ fun other hother => hparts other (List.mem_cons_of_mem _ hother)
        have hpart := hparts part List.mem_cons_self
        rw [joinPart]
        split <;> simp [hroot, hpart]
  rw [normalize]
  split
  · exact hjoin _ _ (fun hmem => h (List.mem_of_mem_take hmem))
      fun part hpart hmem => h (List.mem_of_mem_drop ((mem_foldl_pushPart hpart).2 _ hmem))
  · exact hjoin _ _ (by decide) fun part hpart hmem => h (List.mem_of_mem_drop ((mem_foldl_pushPart hpart).2 _ hmem))

/-- A normal path is its own normal form, unless a colon stands where a drive would have one. -/
theorem normalize_of_normal {path : Path} (h : Normal path) (hdrive : ¬ (isDrive path ∧ path[2]? ≠ some '/')) :
    normalize path = path := by
  cases h with
  | @root parts hparts =>
      rw [normalize]
      split
      · rename_i hcolon
        have hslash : ('/' :: between parts)[2]? = some '/' := by
          by_contra hne
          exact hdrive ⟨hcolon.2, hne⟩
        obtain ⟨first, rest, rfl⟩ : ∃ first rest, parts = first :: rest := by
          cases parts with
          | nil => simp [between] at hslash
          | cons first rest => exact ⟨first, rest, rfl⟩
        have hfirst := hparts first List.mem_cons_self
        -- The first part is a colon, and more parts follow it.
        have hcolon : (between (first :: rest))[0]? = some ':' := hcolon.2
        have hslash : (between (first :: rest))[1]? = some '/' := hslash
        cases rest with
        | nil =>
            rw [between] at hslash
            exact absurd (List.mem_of_getElem? hslash) hfirst.slash
        | cons next rest =>
            rw [between_cons] at hcolon hslash
            obtain rfl : first = [':'] := by
              match first, hfirst.nonempty, hfirst.slash, hcolon, hslash with
              | [c], _, _, hc, _ => simpa using hc
              | c :: d :: first, _, hmem, _, hd =>
                  have hd : d = '/' := by simpa using hd
                  subst hd
                  exact absurd (by simp) hmem
            have hothers : ∀ part ∈ next :: rest, Kept part := fun part hpart => hparts part (List.mem_cons_of_mem _ hpart)
            have hfold : (pieces (between (next :: rest))).foldl pushPart [] = next :: rest := foldl_pushPart_between hothers []
            show ((pieces (between (next :: rest))).foldl pushPart []).foldl joinPart ['/', ':', '/'] = _
            rw [hfold, foldl_joinPart hothers rfl]
            rfl
      · show ((pieces (between parts)).foldl pushPart []).foldl joinPart ['/'] = _
        rw [foldl_pushPart_between hparts [], List.nil_append, foldl_joinPart hparts rfl]
        rfl
  | @drive parts letter hparts =>
      rw [normalize, if_pos ⟨by simp, rfl⟩]
      show ((pieces (between parts)).foldl pushPart []).foldl joinPart [letter, ':', '/'] = _
      rw [foldl_pushPart_between hparts [], List.nil_append, foldl_joinPart hparts rfl]
      rfl
  | odd letter c rest hc => exact absurd ⟨rfl, by simpa using hc⟩ hdrive

theorem Normal.absolute {path : Path} (h : Normal path) : path.head? = some '/' ∨ isDrive path := by
  cases h with
  | root => exact .inl rfl
  | drive => exact .inr rfl
  | odd => exact .inr rfl

/-- What `absolutePath` returns it returns again, where it does not refuse it. -/
theorem absoluteFrom_idempotent {input result again : Path} {directory directory' : Except Failure Path}
    (h : absoluteFrom input directory = .ok result) (h' : absoluteFrom result directory' = .ok again) : again = result := by
  obtain ⟨u, -, h⟩ := bind_eq_ok.mp h
  obtain ⟨u, -, h⟩ := bind_eq_ok.mp h
  obtain ⟨path, hpath, h⟩ := bind_eq_ok.mp h
  obtain ⟨u, -, h⟩ := bind_eq_ok.mp h
  have hback : '\\' ∉ path := by
    rw [beneath] at hpath
    split at hpath
    · obtain ⟨base, -, hpath⟩ := bind_eq_ok.mp hpath
      cases hpath
      exact backslash_slashes _
    · cases hpath
      exact backslash_slashes _
  obtain rfl : normalize path = result := by simpa using h
  have hslashes := slashes_eq (backslash_normalize hback)
  have hnormal := normalize_normal path
  obtain ⟨u, -, h'⟩ := bind_eq_ok.mp h'
  obtain ⟨u, hdrive, h'⟩ := bind_eq_ok.mp h'
  obtain ⟨path', hpath', h'⟩ := bind_eq_ok.mp h'
  obtain ⟨u, -, h'⟩ := bind_eq_ok.mp h'
  rw [hslashes] at hdrive hpath'
  have hrelative : ¬ ((normalize path).head? ≠ some '/' ∧ ¬ isDrive (normalize path)) := by
    rintro ⟨hhead, hnot⟩
    exact hnormal.absolute.elim hhead hnot
  rw [beneath, if_neg hrelative] at hpath'
  obtain rfl : normalize path = path' := by simpa using hpath'
  obtain rfl : normalize (normalize path) = again := by simpa using h'
  exact normalize_of_normal hnormal (rejectIf_eq_ok.mp hdrive)

end Disco.Project
