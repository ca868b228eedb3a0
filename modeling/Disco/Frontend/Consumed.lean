import Disco.Frontend.Parser

/-! # What the parser consumes

No loop of the parser is cut off, and what it returns stems from the tokens that it
has consumed: an increment or decrement that another postfix operator applies to has
been closed by a parenthesis.
-/

namespace Disco.Frontend.Parser

open IR Library

variable {α β : Type}

/-! ## Results -/

/-- A result that is not cut off, and says something about the tokens it has consumed. -/
structure Reaches (result : Except Failure (α × List Token)) (tokens : List Token) (R : List Token → α → Prop) : Prop where
  finished : result ≠ .error .unfinished
  consumed : ∀ a rest, result = .ok (a, rest) → ∃ used, tokens = used ++ rest ∧ R used a

section Reaches

variable {tokens : List Token} {R : List Token → α → Prop} {S : List Token → β → Prop}

theorem Reaches.ok {a : α} (h : R [] a) : Reaches (.ok (a, tokens)) tokens R where
  finished := by simp
  consumed := by
    intro b rest heq
    cases heq
    exact ⟨[], rfl, h⟩

theorem Reaches.diagnostic (message : String) : Reaches (.error (.diagnostic message)) tokens R where
  finished := by simp
  consumed := by simp

theorem Reaches.mono {result : Except Failure (α × List Token)} {T : List Token → α → Prop} (h : Reaches result tokens R)
    (hRT : ∀ used a, R used a → T used a) : Reaches result tokens T where
  finished := h.finished
  consumed := by
    intro a rest heq
    obtain ⟨used, htokens, hR⟩ := h.consumed a rest heq
    exact ⟨used, htokens, hRT used a hR⟩

/-- A result from behind a token. -/
theorem Reaches.cons {result : Except Failure (α × List Token)} {token : Token} {T : List Token → α → Prop}
    (h : Reaches result tokens R) (hT : ∀ used a, R used a → T (token :: used) a) : Reaches result (token :: tokens) T where
  finished := h.finished
  consumed := by
    intro a rest heq
    obtain ⟨used, htokens, hR⟩ := h.consumed a rest heq
    exact ⟨token :: used, by rw [htokens, List.cons_append], hT used a hR⟩

/-- One part after the other. -/
theorem Reaches.bind {first : Except Failure (α × List Token)} {second : α × List Token → Except Failure (β × List Token)}
    (h : Reaches first tokens R)
    (k : ∀ used a rest, R used a → Reaches (second (a, rest)) rest fun more b => S (used ++ more) b) :
    Reaches (first >>= second) tokens S := by
  cases first with
  | error e =>
      refine ⟨fun heq => h.finished ?_, ?_⟩
      · cases heq
        rfl
      · intro b rest heq
        cases heq
  | ok result =>
      obtain ⟨used, htokens, hR⟩ := h.consumed result.1 result.2 rfl
      have hsecond := k used result.1 result.2 hR
      refine ⟨hsecond.finished, ?_⟩
      intro b rest heq
      obtain ⟨more, hrest, hS⟩ := hsecond.consumed b rest heq
      exact ⟨used ++ more, by rw [htokens, hrest, List.append_assoc], hS⟩

/-- A check in front. -/
theorem Reaches.check {bad : Prop} [Decidable bad] {message : String} {k : Unit → Except Failure (β × List Token)}
    (h : ¬ bad → Reaches (k ()) tokens S) : Reaches (rejectIf bad (Failure.diagnostic message) >>= k) tokens S := by
  unfold rejectIf
  split
  · exact Reaches.diagnostic message
  · rename_i hgood
    exact h hgood

theorem Reaches.node {tree : Tree} {k : Tree → Except Failure (β × List Token)} (h : Reaches (k tree) tokens S) :
    Reaches (Parser.node tree >>= k) tokens S := by
  unfold Parser.node rejectIf
  split
  · exact Reaches.diagnostic _
  · exact h

theorem reaches_consume (type : TokenType) (message : String) :
    Reaches (consume type message tokens) tokens fun used token => used = [token] ∧ token.type = type := by
  unfold consume accept
  cases tokens with
  | nil => exact Reaches.diagnostic message
  | cons token rest =>
      simp only [List.mem_singleton]
      by_cases htype : token.type = type
      · rw [if_pos htype]
        refine ⟨by simp, ?_⟩
        intro a rest' heq
        cases heq
        exact ⟨[token], rfl, rfl, htype⟩
      · rw [if_neg htype]
        exact Reaches.diagnostic message

theorem accept_some {types : List TokenType} {token : Token} {rest : List Token} (h : accept types tokens = some (token, rest)) :
    tokens = token :: rest ∧ token.type ∈ types := by
  unfold accept at h
  split at h
  · cases h
  · split at h
    · rename_i htype
      cases h
      exact ⟨rfl, htype⟩
    · cases h

end Reaches

/-! ## Loops -/

/-- A step that is not cut off and consumes tokens where it goes on. -/
structure Advances {σ : Type} (step : σ × List Token → Except Failure (Option (σ × List Token)))
    (I : List Token → σ → Prop) : Prop where
  finished : ∀ s, step s ≠ .error .unfinished
  consumed : ∀ used s tokens s' rest, step (s, tokens) = .ok (some (s', rest)) →
    ∃ more, more ≠ [] ∧ tokens = more ++ rest ∧ (I used s → I (used ++ more) s')

section Loops

variable {σ : Type} {step : σ × List Token → Except Failure (Option (σ × List Token))} {I : List Token → σ → Prop}

theorem Advances.shrinks (h : Advances step I) (a b : σ × List Token) (hstep : step a = .ok (some b)) :
    b.2.length < a.2.length := by
  obtain ⟨more, hmore, htokens, -⟩ := h.consumed [] a.1 a.2 b.1 b.2 hstep
  have hlength := List.length_pos_iff.mpr hmore
  rw [htokens, List.length_append]
  omega

/-- A repeated step is the step and its repetition. -/
theorem Advances.unfold (h : Advances step I) (s : σ) (tokens : List Token) : repeated step s tokens =
    match step (s, tokens) with
    | .error e => .error e
    | .ok none => .ok (s, tokens)
    | .ok (some (s', rest)) => repeated step s' rest := by
  have hshrinks := h.shrinks (s, tokens)
  unfold Parser.repeated
  rw [loop]
  cases hstep : step (s, tokens) with
  | error e => rfl
  | ok next =>
      cases next with
      | none => rfl
      | some b =>
          exact loop_bound (fun a : σ × List Token => a.2.length) h.shrinks (hshrinks b hstep) (Nat.lt_succ_self _)

theorem Advances.repeated (h : Advances step I) {start : List Token} {s : σ} {tokens : List Token} (hs : I start s) :
    Reaches (Parser.repeated step s tokens) tokens fun used s => I (start ++ used) s where
  finished := loop_ne_exhausted (fun a : σ × List Token => a.2.length) h.finished h.shrinks (Nat.lt_succ_self _)
  consumed := by
    intro a rest heq
    have hinv := loop_eq_ok (I := fun b => ∃ used, tokens = used ++ b.2 ∧ I (start ++ used) b.1) (fun b c hb hc => ?_)
      ⟨[], rfl, by rwa [List.append_nil]⟩ heq
    · exact hinv.1
    · obtain ⟨used, htokens, hI⟩ := hb
      obtain ⟨more, -, hrest, hnext⟩ := h.consumed (start ++ used) b.1 b.2 c.1 c.2 hc
      refine ⟨used ++ more, by rw [htokens, hrest, List.append_assoc], ?_⟩
      rw [← List.append_assoc]
      exact hnext hI

end Loops

/-! ## Types -/

/-- Increments and decrements. -/
def updates : List TokenType := [.plusPlus, .minusMinus]

/-- Tokens among which nothing is incremented or decremented. -/
def Plain (tokens : List Token) : Prop := ∀ token ∈ tokens, token.type ∉ updates

theorem Plain.append {left right : List Token} (hl : Plain left) (hr : Plain right) : Plain (left ++ right) := by
  intro token htoken
  exact (List.mem_append.mp htoken).elim (hl token) (hr token)

theorem plain_nil : Plain [] := by
  intro token htoken
  cases htoken

theorem plain_cons {token : Token} {tokens : List Token} (h : token.type ∉ updates) (ht : Plain tokens) :
    Plain (token :: tokens) := by
  intro other hother
  rcases List.mem_cons.mp hother with rfl | hother
  · exact h
  · exact ht other hother

theorem consume_eq_ok {type : TokenType} {message : String} {tokens rest : List Token} {token : Token}
    (h : consume type message tokens = .ok (token, rest)) : tokens = token :: rest ∧ token.type = type := by
  unfold consume at h
  split at h
  · rename_i result hresult
    cases h
    have haccepted := accept_some hresult
    exact ⟨haccepted.1, List.mem_singleton.mp haccepted.2⟩
  · cases h

theorem consume_finished (type : TokenType) (message : String) (tokens : List Token) :
    consume type message tokens ≠ .error .unfinished := (reaches_consume type message).finished

theorem bind_finished {first : Except Failure α} {second : α → Except Failure β} (h : first ≠ .error .unfinished)
    (k : ∀ a, first = .ok a → second a ≠ .error .unfinished) : (first >>= second) ≠ .error .unfinished := by
  cases first with
  | error e =>
      intro heq
      cases heq
      exact h rfl
  | ok a => exact k a rfl

theorem check_finished {bad : Prop} [Decidable bad] {message : String} :
    rejectIf bad (Failure.diagnostic message) ≠ .error .unfinished := by
  unfold rejectIf
  split <;> simp

theorem resolveAlias_finished (aliases : Aliases) (s : TypeState) (name : String) :
    resolveAlias aliases s name ≠ .error .unfinished := by
  unfold resolveAlias
  split
  · simp
  · exact bind_finished check_finished fun _ _ => bind_finished check_finished fun _ _ => by simp [pure, Except.pure]

theorem pure_finished {ε : Type} {a : α} {e : ε} : (pure a : Except ε α) ≠ .error e := by
  intro h
  cases h

theorem typeWord_finished (aliases : Aliases) (s : TypeState) (tokens : List Token) :
    typeWord aliases (s, tokens) ≠ .error .unfinished := by
  cases tokens with
  | nil => exact pure_finished
  | cons token rest =>
      rw [typeWord]
      split
      · split
        · exact pure_finished
        · exact bind_finished (consume_finished _ _ _) fun _ _ => pure_finished
      · split
        · exact pure_finished
        · exact bind_finished (consume_finished _ _ _) fun _ _ => pure_finished
      · split
        · exact pure_finished
        · exact bind_finished check_finished fun _ _ => pure_finished
      · split
        · exact pure_finished
        · exact bind_finished (resolveAlias_finished _ _ _) fun _ _ => pure_finished
      · exact pure_finished

/-- What a word of a type consumes. -/
theorem typeWord_consumed {aliases : Aliases} {s s' : TypeState} {tokens rest : List Token}
    (h : typeWord aliases (s, tokens) = .ok (some (s', rest))) :
    ∃ more, more ≠ [] ∧ tokens = more ++ rest ∧ Plain more := by
  cases tokens with
  | nil => cases h
  | cons token after =>
      have hnamed : ∀ message (f : Token → TypeState), token.type ∉ updates →
          (consume .identifier message after >>= fun x => pure (some (f x.1, x.2))) = Except.ok (some (s', rest)) →
            ∃ more, more ≠ [] ∧ token :: after = more ++ rest ∧ Plain more := by
        intro message f htoken hbind
        obtain ⟨⟨name, behind⟩, hname, hbind⟩ := bind_eq_ok.mp hbind
        cases hbind
        obtain ⟨rfl, htype⟩ := consume_eq_ok hname
        exact ⟨[token, name], by simp, rfl, plain_cons htoken (plain_cons (by simp [htype, updates]) plain_nil)⟩
      have hone : after = rest → token.type ∉ updates → ∃ more, more ≠ [] ∧ token :: after = more ++ rest ∧ Plain more := by
        rintro rfl htoken
        exact ⟨[token], by simp, rfl, plain_cons htoken plain_nil⟩
      rw [typeWord] at h
      split at h
      · rename_i htype
        split at h
        · cases h
        · exact hnamed _ (fun name => { s with type := { s.type with base := .word, enumName := name.lexeme } })
            (by simp [htype, updates]) h
      · rename_i htype
        split at h
        · cases h
        · exact hnamed _ (fun name => { s with type := { s.type with base := .struct, structName := name.lexeme } })
            (by simp [htype, updates]) h
      · rename_i htype
        split at h
        · cases h
        · obtain ⟨u, -, h⟩ := bind_eq_ok.mp h
          cases h
          exact hone rfl (by simp [htype, updates])
      · rename_i htype
        split at h
        · cases h
        · obtain ⟨u, -, h⟩ := bind_eq_ok.mp h
          cases h
          exact hone rfl (by simp [htype, updates])
      · rename_i hother
        have hkeyword := Except.ok.inj h
        obtain ⟨next, hnext, hpair⟩ := Option.map_eq_some_iff.mp hkeyword
        cases hpair
        refine hone rfl ?_
        intro hupdate
        simp only [updates, List.mem_cons, List.not_mem_nil, or_false] at hupdate
        rcases hupdate with htype | htype <;> rw [htype] at hnext <;> cases hnext

theorem typeWord_advances (aliases : Aliases) : Advances (typeWord aliases) fun used _ => Plain used where
  finished s := typeWord_finished aliases s.1 s.2
  consumed := by
    intro used s tokens s' rest h
    obtain ⟨more, hmore, htokens, hplain⟩ := typeWord_consumed h
    exact ⟨more, hmore, htokens, fun hused => hused.append hplain⟩

theorem pointerQualifier_advances : Advances pointerQualifier fun used _ => Plain used where
  finished := by
    rintro ⟨⟨reach, type⟩, tokens⟩
    cases tokens with
    | nil => exact pure_finished
    | cons token rest =>
        rw [pointerQualifier]
        split <;> exact pure_finished
  consumed := by
    rintro used ⟨reach, type⟩ tokens s' rest h
    cases tokens with
    | nil => cases h
    | cons token after =>
        have hone : after = rest → token.type ∉ updates →
            ∃ more, more ≠ [] ∧ token :: after = more ++ rest ∧ (Plain used → Plain (used ++ more)) := by
          rintro rfl htoken
          exact ⟨[token], by simp, rfl, fun hused => hused.append (plain_cons htoken plain_nil)⟩
        rw [pointerQualifier] at h
        split at h
        iterate 3
          · rename_i htype
            split at h
            · cases h
            · cases h
              exact hone rfl (by simp [htype, updates])
        · cases h

theorem pointerLayer_advances : Advances pointerLayer fun used _ => Plain used where
  finished := by
    rintro ⟨type, tokens⟩
    rw [pointerLayer]
    split
    · exact pure_finished
    · refine bind_finished check_finished fun _ _ => bind_finished ?_ fun _ _ => pure_finished
      exact (pointerQualifier_advances.repeated plain_nil).finished
  consumed := by
    rintro used type tokens s' rest h
    rw [pointerLayer] at h
    split at h
    · cases h
    · rename_i star behind haccept
      obtain ⟨rfl, hstar⟩ := accept_some haccept
      obtain ⟨u, -, h⟩ := bind_eq_ok.mp h
      obtain ⟨⟨qualified, after⟩, hqualified, h⟩ := bind_eq_ok.mp h
      cases h
      obtain ⟨more, hmore, hplain⟩ := (pointerQualifier_advances.repeated plain_nil).consumed _ _ hqualified
      refine ⟨star :: more, by simp, by rw [hmore]; rfl, fun hused => hused.append (plain_cons ?_ hplain)⟩
      rw [List.mem_singleton.mp hstar]
      simp [updates]

theorem parseType_reaches (aliases : Aliases) (tokens : List Token) :
    Reaches (parseType aliases tokens) tokens fun used _ => Plain used := by
  unfold parseType
  refine Reaches.bind ((typeWord_advances aliases).repeated plain_nil) fun used s rest hused => ?_
  refine Reaches.check fun _ => Reaches.bind (pointerLayer_advances.repeated plain_nil) fun more type after hmore => ?_
  refine Reaches.check fun _ => Reaches.ok ?_
  rw [List.append_nil]
  exact hused.append hmore

/-! ## Closed updates -/

def nextOr (follower : TokenType) : List Token → TokenType
  | [] => follower
  | token :: _ => token.type

/-- Which increments and decrements a closing parenthesis follows. -/
def closings (follower : TokenType) : List Token → List Bool
  | [] => []
  | token :: rest =>
      if token.type ∈ updates then decide (nextOr follower rest = .rparen) :: closings follower rest
      else closings follower rest

/-- What is marked in one list is marked in the other. -/
def Under (marks closed : List Bool) : Prop := List.Forall₂ (fun a b => a = true → b = true) marks closed

theorem under_nil : Under [] [] := List.Forall₂.nil

theorem Under.append {marks marks' closed closed' : List Bool} (h : Under marks closed) (h' : Under marks' closed') :
    Under (marks ++ marks') (closed ++ closed') := List.rel_append h h'

theorem Under.length {marks closed : List Bool} (h : Under marks closed) : marks.length = closed.length :=
  List.Forall₂.length_eq h

section Closings

variable {follower : TokenType}

attribute [local simp] closings

@[simp] theorem closings_nil : closings follower [] = [] := rfl

theorem closings_append (left right : List Token) :
    closings follower (left ++ right) = closings (nextOr follower right) left ++ closings follower right := by
  induction left with
  | nil => rfl
  | cons token rest ih =>
      have hnext : nextOr follower (rest ++ right) = nextOr (nextOr follower right) rest := by
        cases rest <;> rfl
      simp only [List.cons_append, closings, ih, hnext]
      split <;> rfl

theorem closings_cons {token : Token} {rest : List Token} (h : token.type ∉ updates) :
    closings follower (token :: rest) = closings follower rest := by
  rw [closings, if_neg h]

theorem closings_update {token : Token} {rest : List Token} (h : token.type ∈ updates) :
    closings follower (token :: rest) = decide (nextOr follower rest = .rparen) :: closings follower rest := by
  rw [closings, if_pos h]

theorem closings_plain {tokens : List Token} (h : Plain tokens) : closings follower tokens = [] := by
  induction tokens with
  | nil => rfl
  | cons token rest ih =>
      rw [closings_cons (h token List.mem_cons_self)]
      exact ih fun other hother => h other (List.mem_cons_of_mem _ hother)

end Closings

end Disco.Frontend.Parser

namespace Disco.Frontend.Tree

mutual

/-- The increments and decrements of a tree, in order: which of them another postfix
operator applies to. -/
def applied (outer : Bool) : Tree → List Bool
  | string _ | literal _ _ | null | identifier _ | plotCoordinate _ => []
  | readPixel coordinates => allApplied coordinates
  | layoutQuery _ _ none _ => []
  | layoutQuery _ _ (some object) _ => applied false object
  | initializerList elements => allApplied elements
  | assign target value => applied false target ++ applied false value
  | update operation target value isPostfix =>
      if isPostfix = true then applied true target ++ [outer]
      else if operation ∈ Parser.updates then false :: applied false target
      else applied false target ++ applied false value
  | binary _ left right => applied false left ++ applied false right
  | unary _ right | addressOf right | dereference right => applied false right
  | subscript array index => applied true array ++ applied false index
  | memberAccess object _ _ => applied true object
  | call callee arguments => applied true callee ++ allApplied arguments
  | cast _ expression => applied false expression

def allApplied : List Tree → List Bool
  | [] => []
  | tree :: rest => applied false tree ++ allApplied rest

end

attribute [local simp] applied allApplied

theorem allApplied_append (left right : List Tree) : allApplied (left ++ right) = allApplied left ++ allApplied right := by
  induction left with
  | nil => rfl
  | cons tree rest ih => simp only [List.cons_append, allApplied, ih, List.append_assoc]

end Disco.Frontend.Tree

namespace Disco.Frontend.Parser

open IR Library

/-- A tree whose applied updates are closed among the tokens. -/
def Kept (used : List Token) (tree : Tree) : Prop :=
  ∀ outer follower, Under (tree.applied outer) (closings follower used)

def Held (used : List Token) (tree : Tree) : Prop := used ≠ [] ∧ Kept used tree

/-- A tree whose applied updates are closed if it is closed itself. -/
def Marked (used : List Token) (tree : Tree) : Prop :=
  used ≠ [] ∧ ∀ outer follower, (outer = true → follower = .rparen) → Under (tree.applied outer) (closings follower used)

def AllMarked (used : List Token) (trees : List Tree) : Prop :=
  ∀ follower, Under (Tree.allApplied trees) (closings follower used)

theorem Held.marked {used : List Token} {tree : Tree} (h : Held used tree) : Marked used tree :=
  ⟨h.1, fun outer follower _ => h.2 outer follower⟩

theorem Marked.inner {used : List Token} {tree : Tree} (h : Marked used tree) (follower : TokenType) :
    Under (tree.applied false) (closings follower used) := h.2 false follower nofun

theorem held_atom {token : Token} {tree : Tree} (htoken : token.type ∉ updates) (htree : ∀ outer, tree.applied outer = []) :
    Held [token] tree := by
  refine ⟨by simp, fun outer follower => ?_⟩
  rw [htree, closings_cons htoken]
  exact under_nil

/-- Parsers of trees for the next level of nesting. -/
structure Nested.Marks (nested : Nested) : Prop where
  assignment : ∀ tokens, Reaches (nested.assignment tokens) tokens Marked
  unary : ∀ tokens, Reaches (nested.unary tokens) tokens Marked

/-! ## Parts of expressions -/

theorem node_eq_ok {tree tree' : Tree} (h : node tree = .ok tree') : tree' = tree := by
  obtain ⟨u, -, h⟩ := bind_eq_ok.mp h
  cases h
  rfl

/-- The node of a prefix operator that the tokens begin with. -/
theorem marked_prefixNode {operation : Token} {used : List Token} {right : Tree} (h : Marked used right) : Marked (operation :: used) (prefixNode operation.type right) := by
  refine ⟨by simp, fun outer follower _ => ?_⟩
  have hright := h.inner follower
  unfold prefixNode
  split
  · rename_i htype
    rw [closings_cons (by simp [htype, updates]), Tree.applied]
    exact hright
  · rename_i htype
    rw [closings_cons (by simp [htype, updates]), Tree.applied]
    exact hright
  iterate 2
    · rename_i htype
      rw [closings_update (by simp [htype, updates]), Tree.applied, if_neg (by simp), if_pos (by simp [htype, updates])]
      exact List.Forall₂.cons nofun hright
  · rename_i hplus hminus
    have hplain : operation.type ∉ updates := by
      simp only [updates, List.mem_cons, List.not_mem_nil, or_false]
      exact fun htype => htype.elim hplus hminus
    rw [closings_cons hplain, Tree.applied]
    exact hright

theorem layoutMember_reaches (operation : TokenType) (tokens : List Token) :
    Reaches (layoutMember operation tokens) tokens fun used _ => Plain used := by
  unfold layoutMember
  split
  · refine Reaches.bind (reaches_consume _ _) fun used comma rest hcomma => ?_
    refine Reaches.bind (reaches_consume _ _) fun used' member rest hmember => ?_
    refine Reaches.ok ?_
    obtain ⟨rfl, hcomma⟩ := hcomma
    obtain ⟨rfl, hmember⟩ := hmember
    exact plain_cons (by simp [hcomma, updates]) (plain_cons (by simp [hmember, updates]) plain_nil)
  · exact Reaches.ok plain_nil

theorem applied_layoutQuery (outer : Bool) (operation : TokenType) (type : Ty) (object : Option Tree) (member : String) :
    (Tree.layoutQuery operation type object member).applied outer =
      (Tree.layoutQuery operation type object member).applied false := by
  cases object <;> simp only [Tree.applied]

theorem parseCursor_reaches (tokens : List Token) : Reaches (parseCursor tokens) tokens Kept := by
  unfold parseCursor
  refine Reaches.bind (reaches_consume _ _) fun used dot rest hdot => ?_
  refine Reaches.bind (reaches_consume _ _) fun used' member rest hmember => ?_
  refine Reaches.check fun _ => Reaches.ok fun outer follower => ?_
  obtain ⟨rfl, hdot⟩ := hdot
  obtain ⟨rfl, hmember⟩ := hmember
  rw [List.append_nil, List.singleton_append,
    closings_plain (plain_cons (by simp [hdot, updates]) (plain_cons (by simp [hmember, updates]) plain_nil))]
  exact under_nil

section Levels

variable {aliases : Aliases} {nested : Nested} (hnested : nested.Marks)
include hnested

theorem moreArguments_advances : Advances (moreArguments nested) AllMarked where
  finished := by
    rintro ⟨arguments, tokens⟩
    rw [moreArguments]
    split
    · exact pure_finished
    · exact bind_finished (hnested.assignment _).finished fun _ _ => pure_finished
  consumed := by
    rintro used arguments tokens s' rest h
    rw [moreArguments] at h
    split at h
    · cases h
    · rename_i comma behind haccept
      obtain ⟨rfl, hcomma⟩ := accept_some haccept
      obtain ⟨⟨argument, after⟩, hargument, h⟩ := bind_eq_ok.mp h
      cases h
      obtain ⟨more, rfl, hmarked⟩ := (hnested.assignment _).consumed _ _ hargument
      refine ⟨comma :: more, by simp, rfl, fun hused follower => ?_⟩
      have htype : comma.type ∉ updates := by simp [List.mem_singleton.mp hcomma, updates]
      rw [Tree.allApplied_append, closings_append, closings_cons htype]
      refine (hused _).append ?_
      simpa [Tree.allApplied] using hmarked.inner follower

theorem parseArguments_reaches (tokens : List Token) : Reaches (parseArguments nested tokens) tokens AllMarked := by
  unfold parseArguments
  split
  · exact Reaches.ok fun _ => under_nil
  · refine Reaches.bind (hnested.assignment tokens) fun used first rest hfirst => ?_
    have hstart : AllMarked used [first] := by
      intro follower
      simpa [Tree.allApplied] using hfirst.inner follower
    exact (moreArguments_advances hnested).repeated hstart

theorem moreElements_advances : Advances (moreElements nested) fun used s => AllMarked used s.1 where
  finished := by
    rintro ⟨⟨values, done⟩, tokens⟩
    rw [moreElements]
    split
    · exact pure_finished
    · refine bind_finished check_finished fun _ _ => bind_finished (hnested.assignment _).finished fun value _ => ?_
      obtain ⟨value, after⟩ := value
      dsimp only
      split <;> exact pure_finished
  consumed := by
    rintro used ⟨values, done⟩ tokens s' rest h
    rw [moreElements] at h
    split at h
    · cases h
    · obtain ⟨u, -, hbody⟩ := bind_eq_ok.mp h
      obtain ⟨⟨value, after⟩, hvalue, hend⟩ := bind_eq_ok.mp hbody
      obtain ⟨more, rfl, hmarked⟩ := (hnested.assignment _).consumed _ _ hvalue
      dsimp only at hend
      have hnext : AllMarked used values → AllMarked (used ++ more) (values ++ [value]) := by
        intro hused follower
        rw [Tree.allApplied_append, closings_append]
        refine (hused _).append ?_
        simpa [Tree.allApplied] using hmarked.inner follower
      split at hend
      · rename_i comma behind haccept
        obtain ⟨rfl, hcomma⟩ := accept_some haccept
        cases hend
        refine ⟨more ++ [comma], by simp, by simp, fun hused follower => ?_⟩
        have htype : comma.type ∉ updates := by simp [List.mem_singleton.mp hcomma, updates]
        rw [← List.append_assoc, closings_append, closings_cons htype, closings_nil, List.append_nil]
        exact hnext hused _
      · cases hend
        exact ⟨more, hmarked.1, rfl, hnext⟩

theorem layoutOperand_reaches (operation : TokenType) (tokens : List Token) :
    Reaches (layoutOperand aliases nested operation tokens) tokens fun used operand =>
      ∀ type member follower, Under ((Tree.layoutQuery type operand.1 operand.2 member).applied false) (closings follower used) := by
  unfold layoutOperand
  split
  · refine Reaches.bind (parseType_reaches aliases tokens) fun used type rest hused => Reaches.ok ?_
    intro operation member follower
    rw [List.append_nil, closings_plain hused, Tree.applied]
    exact under_nil
  · refine Reaches.check fun _ => Reaches.bind (hnested.assignment tokens) fun used object rest hobject => Reaches.ok ?_
    intro operation member follower
    rw [List.append_nil, Tree.applied]
    exact hobject.inner follower

theorem parseLayoutQuery_reaches (operation : TokenType) (tokens : List Token) :
    Reaches (parseLayoutQuery aliases nested operation tokens) tokens Kept := by
  unfold parseLayoutQuery
  refine Reaches.bind (reaches_consume _ _) fun opening token rest hopening => ?_
  refine Reaches.bind (layoutOperand_reaches hnested operation rest) fun used operand rest hoperand => ?_
  refine Reaches.bind (layoutMember_reaches operation rest) fun named member rest hnamed => ?_
  refine Reaches.bind (reaches_consume _ _) fun closing token' rest hclosing => ?_
  refine Reaches.node (Reaches.ok fun outer follower => ?_)
  obtain ⟨rfl, hopening⟩ := hopening
  obtain ⟨rfl, hclosing⟩ := hclosing
  have hrest : Plain (named ++ ([token'] ++ [])) :=
    hnamed.append (plain_cons (by simp [hclosing, updates]) plain_nil)
  rw [applied_layoutQuery, List.singleton_append, closings_cons (by simp [hopening, updates]), closings_append,
    closings_plain hrest, List.append_nil]
  exact hoperand operation member _

theorem parseReadPixel_reaches (tokens : List Token) : Reaches (parseReadPixel nested tokens) tokens Kept := by
  unfold parseReadPixel
  split
  · refine Reaches.ok fun outer follower => ?_
    exact under_nil
  · rename_i keyword rest haccept
    obtain ⟨rfl, hkeyword⟩ := accept_some haccept
    have hkeyword : keyword.type ∉ updates := by simp [List.mem_singleton.mp hkeyword, updates]
    refine Reaches.cons (R := Kept) ?_ fun used tree hkept outer follower => ?_
    · refine Reaches.bind (reaches_consume _ _) fun opening token rest hopening => ?_
      refine Reaches.bind (hnested.assignment rest) fun used x rest hx => ?_
      refine Reaches.bind (reaches_consume _ _) fun comma token' rest hcomma => ?_
      refine Reaches.bind (hnested.assignment rest) fun used' y rest hy => ?_
      refine Reaches.bind (reaches_consume _ _) fun closing token'' rest hclosing => ?_
      refine Reaches.node (Reaches.ok fun outer follower => ?_)
      obtain ⟨rfl, hopening⟩ := hopening
      obtain ⟨rfl, hcomma⟩ := hcomma
      obtain ⟨rfl, hclosing⟩ := hclosing
      have hclosed : token''.type ∉ updates := by simp [hclosing, updates]
      rw [List.singleton_append, closings_cons (by simp [hopening, updates]), closings_append, List.singleton_append,
        closings_cons (by simp [hcomma, updates]), closings_append, List.append_nil, closings_cons hclosed]
      simpa only [Tree.applied, Tree.allApplied, closings_nil] using (hx.inner _).append ((hy.inner _).append under_nil)
    · rw [closings_cons hkeyword]
      exact hkept outer follower

theorem parseInitializerList_reaches (tokens : List Token) : Reaches (parseInitializerList nested tokens) tokens Kept := by
  unfold parseInitializerList
  have hstart : AllMarked [] [] := fun _ => under_nil
  refine Reaches.bind ((moreElements_advances hnested).repeated hstart) fun used values rest hvalues => ?_
  refine Reaches.bind (reaches_consume _ _) fun closing token rest hclosing => ?_
  refine Reaches.node (Reaches.ok fun outer follower => ?_)
  obtain ⟨rfl, hclosing⟩ := hclosing
  rw [List.append_nil, closings_append, closings_cons (by simp [hclosing, updates]), closings_nil, List.append_nil, Tree.applied]
  exact hvalues _

theorem parseParenthesized_reaches (tokens : List Token) : Reaches (parseParenthesized aliases nested tokens) tokens Kept := by
  unfold parseParenthesized
  split
  · refine Reaches.bind (parseType_reaches aliases tokens) fun used type rest hused => ?_
    refine Reaches.bind (reaches_consume _ _) fun closing token rest hclosing => ?_
    refine Reaches.bind (hnested.unary rest) fun used' right rest hright => ?_
    refine Reaches.node (Reaches.ok fun outer follower => ?_)
    obtain ⟨rfl, hclosing⟩ := hclosing
    rw [List.append_nil, closings_append, closings_plain hused, List.singleton_append,
      closings_cons (by simp [hclosing, updates]), Tree.applied]
    exact hright.inner follower
  · refine Reaches.bind (hnested.assignment tokens) fun used inner rest hinner => ?_
    refine Reaches.bind (reaches_consume _ _) fun closing token rest hclosing => ?_
    refine Reaches.ok fun outer follower => ?_
    obtain ⟨rfl, hclosing⟩ := hclosing
    rw [List.append_nil, closings_append, closings_cons (by simp [hclosing, updates]), closings_nil, List.append_nil]
    exact hinner.2 outer _ fun _ => hclosing

theorem primary_reaches (tokens : List Token) : Reaches (primary aliases nested tokens) tokens Held := by
  cases tokens with
  | nil => exact Reaches.diagnostic _
  | cons token rest =>
      have hbehind : ∀ {result}, token.type ∉ updates → Reaches result rest Kept → Reaches result (token :: rest) Held := by
        intro result htoken hresult
        refine hresult.cons fun used tree hkept => ⟨by simp, fun outer follower => ?_⟩
        rw [closings_cons htoken]
        exact hkept outer follower
      have hatom : ∀ tree : Tree, token.type ∉ updates → (∀ outer, tree.applied outer = []) →
          Reaches (.ok (tree, rest)) (token :: rest) Held := by
        intro tree htoken htree
        refine hbehind htoken (Reaches.ok fun outer follower => ?_)
        rw [htree]
        exact under_nil
      rw [primary]
      split
      any_goals
        rename_i htype
        exact hatom _ (by simp [htype, updates]) fun _ => rfl
      · rename_i htype
        exact hbehind (by simp [htype, updates]) (parseInitializerList_reaches hnested rest)
      iterate 3
        · rename_i htype
          exact hbehind (by simp [htype, updates]) (parseLayoutQuery_reaches hnested token.type rest)
      · rename_i htype
        exact hbehind (by simp [htype, updates]) (parseReadPixel_reaches hnested rest)
      · exact Reaches.diagnostic _
      · rename_i htype
        exact hbehind (by simp [htype, updates]) (parseCursor_reaches rest)
      · rename_i htype
        exact hbehind (by simp [htype, updates]) (parseParenthesized_reaches hnested rest)
      · exact Reaches.diagnostic _

/-! ## Expressions -/

/-- What the loop of postfix operators holds. -/
def Pending (used : List Token) (s : Tree × Bool) : Prop :=
  Marked used s.1 ∧ (s.2 = false → Held used s.1)

theorem postfixStep_finished (s : (Tree × Bool) × List Token) : postfixStep nested s ≠ .error .unfinished := by
  obtain ⟨⟨tree, done⟩, tokens⟩ := s
  cases done with
  | true => exact pure_finished
  | false =>
      cases tokens with
      | nil => exact pure_finished
      | cons token rest =>
          have hnode : ∀ {tree : Tree}, node tree ≠ .error .unfinished := by
            intro tree
            exact bind_finished check_finished fun _ _ => pure_finished
          rw [postfixStep]
          split
          · refine bind_finished (parseArguments_reaches hnested rest).finished fun _ _ => ?_
            exact bind_finished (consume_finished _ _ _) fun _ _ => bind_finished hnode fun _ _ => pure_finished
          · refine bind_finished (hnested.assignment rest).finished fun _ _ => ?_
            exact bind_finished (consume_finished _ _ _) fun _ _ => bind_finished hnode fun _ _ => pure_finished
          iterate 2
            · exact bind_finished (consume_finished _ _ _) fun _ _ => bind_finished hnode fun _ _ => pure_finished
          iterate 2
            · exact bind_finished hnode fun _ _ => pure_finished
          · exact pure_finished

theorem postfixStep_advances : Advances (postfixStep nested) Pending where
  finished := postfixStep_finished hnested
  consumed := by
    rintro used ⟨tree, done⟩ tokens s' rest h
    cases done with
    | true => cases h
    | false =>
        cases tokens with
        | nil => cases h
        | cons token after =>
            have hgo : ∀ {tree' : Tree} {more : List Token}, more ≠ [] →
                (∀ outer follower, Held used tree → Under (tree'.applied outer) (closings (nextOr follower more) used ++ closings follower more)) →
                Pending used (tree, false) → Pending (used ++ more) (tree', false) := by
              intro tree' more hmore hunder hpending
              have hheld' : Held (used ++ more) tree' := by
                refine ⟨by simp [hmore], fun outer follower => ?_⟩
                rw [closings_append]
                exact hunder outer follower (hpending.2 rfl)
              exact ⟨hheld'.marked, fun _ => hheld'⟩
            rw [postfixStep] at h
            split at h
            · rename_i htype
              obtain ⟨⟨arguments, behind⟩, harguments, hclose⟩ := bind_eq_ok.mp h
              obtain ⟨⟨closing, behind'⟩, hconsume, hbody⟩ := bind_eq_ok.mp hclose
              obtain ⟨node, hnode, hend⟩ := bind_eq_ok.mp hbody
              cases hend
              obtain rfl := node_eq_ok hnode
              obtain ⟨more, rfl, hmarked⟩ := (parseArguments_reaches hnested _).consumed _ _ harguments
              obtain ⟨rfl, hclosing⟩ := consume_eq_ok hconsume
              refine ⟨token :: (more ++ [closing]), by simp, by simp, hgo (by simp) fun outer follower hheld => ?_⟩
              rw [closings_cons (by simp [htype, updates]), closings_append, closings_cons (by simp [hclosing, updates]),
                closings_nil, List.append_nil, Tree.applied]
              exact (hheld.2 _ _).append (hmarked _)
            · rename_i htype
              obtain ⟨⟨index, behind⟩, hindex, hclose⟩ := bind_eq_ok.mp h
              obtain ⟨⟨closing, behind'⟩, hconsume, hbody⟩ := bind_eq_ok.mp hclose
              obtain ⟨node, hnode, hend⟩ := bind_eq_ok.mp hbody
              cases hend
              obtain rfl := node_eq_ok hnode
              obtain ⟨more, rfl, hmarked⟩ := (hnested.assignment _).consumed _ _ hindex
              obtain ⟨rfl, hclosing⟩ := consume_eq_ok hconsume
              refine ⟨token :: (more ++ [closing]), by simp, by simp, hgo (by simp) fun outer follower hheld => ?_⟩
              rw [closings_cons (by simp [htype, updates]), closings_append, closings_cons (by simp [hclosing, updates]),
                closings_nil, List.append_nil, Tree.applied]
              exact (hheld.2 _ _).append (hmarked.inner _)
            iterate 2
              · rename_i htype
                obtain ⟨⟨member, behind⟩, hconsume, hbody⟩ := bind_eq_ok.mp h
                obtain ⟨node, hnode, hend⟩ := bind_eq_ok.mp hbody
                cases hend
                obtain rfl := node_eq_ok hnode
                obtain ⟨rfl, hmember⟩ := consume_eq_ok hconsume
                refine ⟨[token, member], by simp, rfl, hgo (by simp) fun outer follower hheld => ?_⟩
                rw [closings_plain (plain_cons (by simp [htype, updates]) (plain_cons (by simp [hmember, updates]) plain_nil)),
                  List.append_nil, Tree.applied]
                exact hheld.2 _ _
            iterate 2
              · rename_i htype
                obtain ⟨node, hnode, hend⟩ := bind_eq_ok.mp h
                cases hend
                obtain rfl := node_eq_ok hnode
                refine ⟨[token], by simp, rfl, fun hpending => ⟨⟨by simp, fun outer follower hclosed => ?_⟩, nofun⟩⟩
                rw [closings_append, closings_update (by simp [htype, updates]), closings_nil, Tree.applied, if_pos rfl]
                refine ((hpending.2 rfl).2 _ _).append (List.Forall₂.cons (fun houter => ?_) List.Forall₂.nil)
                exact decide_eq_true (hclosed houter)
            · cases h

theorem parsePostfix_reaches (tokens : List Token) : Reaches (parsePostfix aliases nested tokens) tokens Marked := by
  unfold parsePostfix
  refine Reaches.bind (primary_reaches hnested tokens) fun used tree rest hheld => ?_
  have hstart : Pending used (tree, false) := ⟨hheld.marked, fun _ => hheld⟩
  refine Reaches.bind ((postfixStep_advances hnested).repeated hstart) fun more s rest hpending => Reaches.ok ?_
  rw [List.append_nil]
  exact hpending.1

theorem unary_reaches (tokens : List Token) : Reaches (unary aliases nested tokens) tokens Marked := by
  unfold unary
  split
  · rename_i operation rest haccept
    obtain ⟨rfl, hoperation⟩ := accept_some haccept
    refine Reaches.cons (R := fun used tree => Marked (operation :: used) tree) ?_ fun used tree h => h
    refine Reaches.bind (hnested.unary rest) fun used right rest hright => Reaches.node (Reaches.ok ?_)
    rw [List.append_nil]
    exact marked_prefixNode hright
  · exact parsePostfix_reaches hnested tokens

end Levels

/-! ## Operators -/

theorem Marked.behind {left right : List Token} {operation : Token} {tree target value : Tree}
    (htarget : Marked left target) (hvalue : Marked right value) (hoperation : operation.type ∉ updates)
    (htree : ∀ outer, tree.applied outer = target.applied false ++ value.applied false) :
    Marked (left ++ operation :: right) tree := by
  refine ⟨by simp, fun outer follower _ => ?_⟩
  rw [closings_append, closings_cons hoperation, htree]
  exact (htarget.inner _).append (hvalue.inner _)

section Binary

variable {operand : Parser Tree} {operators : List TokenType} (hoperand : ∀ tokens, Reaches (operand tokens) tokens Marked)
  (hoperators : ∀ type ∈ operators, type ∉ updates)

include hoperand hoperators

theorem binaryStep_advances : Advances (binaryStep operand operators) Marked where
  finished := by
    rintro ⟨left, tokens⟩
    rw [binaryStep]
    split
    · exact pure_finished
    · refine bind_finished (hoperand _).finished fun _ _ => bind_finished ?_ fun _ _ => pure_finished
      exact bind_finished check_finished fun _ _ => pure_finished
  consumed := by
    rintro used left tokens s' rest h
    rw [binaryStep] at h
    split at h
    · cases h
    · rename_i operation behind haccept
      obtain ⟨rfl, hoperation⟩ := accept_some haccept
      obtain ⟨⟨right, after⟩, hright, hbody⟩ := bind_eq_ok.mp h
      obtain ⟨node, hnode, hend⟩ := bind_eq_ok.mp hbody
      cases hend
      obtain rfl := node_eq_ok hnode
      obtain ⟨more, rfl, hmarked⟩ := (hoperand _).consumed _ _ hright
      refine ⟨operation :: more, by simp, rfl, fun hleft => ?_⟩
      exact hleft.behind hmarked (hoperators _ hoperation) fun outer => by rw [Tree.applied]

theorem binaryLeft_reaches (tokens : List Token) : Reaches (binaryLeft operand operators tokens) tokens Marked := by
  unfold binaryLeft
  refine Reaches.bind (hoperand tokens) fun used left rest hleft => ?_
  exact (binaryStep_advances hoperand hoperators).repeated hleft

end Binary

theorem logicalOr_reaches {operand : Parser Tree} (hoperand : ∀ tokens, Reaches (operand tokens) tokens Marked)
    (tokens : List Token) : Reaches (logicalOr operand tokens) tokens Marked := by
  unfold logicalOr logicalAnd bitwiseOr bitwiseXor bitwiseAnd equality comparison shift term factor
  refine binaryLeft_reaches ?_ (by decide) tokens
  iterate 9
    refine fun tokens => binaryLeft_reaches ?_ (by decide) tokens
  exact hoperand

theorem assignment_reaches {nested : Nested} (hnested : nested.Marks) (tokens : List Token) :
    Reaches (assignment nested tokens) tokens Marked := by
  unfold assignment
  refine Reaches.bind (logicalOr_reaches hnested.unary tokens) fun used target rest htarget => ?_
  dsimp only
  split
  · refine Reaches.ok ?_
    rw [List.append_nil]
    exact htarget
  · rename_i operation behind haccept
    obtain ⟨rfl, hoperation⟩ := accept_some haccept
    refine Reaches.cons (R := fun more tree => Marked (used ++ operation :: more) tree) ?_ fun more tree h => h
    refine Reaches.bind (hnested.assignment behind) fun more value rest hvalue => Reaches.node (Reaches.ok ?_)
    rw [List.append_nil]
    have hplain : operation.type ∉ updates := (by decide : ∀ type ∈ TokenType.equal :: updateOperators, type ∉ updates) _ hoperation
    refine htarget.behind hvalue hplain fun outer => ?_
    unfold assignmentNode
    split
    · rw [Tree.applied]
    · rw [Tree.applied, if_neg (by simp), if_neg hplain]

/-- Whatever the tokens, the parser is not cut off at any depth. -/
theorem nesting_marks (aliases : Aliases) (remaining : Nat) : (nesting aliases remaining).Marks := by
  induction remaining with
  | zero => exact ⟨fun _ => Reaches.diagnostic _, fun _ => Reaches.diagnostic _⟩
  | succ remaining ih => exact ⟨assignment_reaches ih, unary_reaches ih⟩

theorem parseExpression_reaches (aliases : Aliases) (tokens : List Token) :
    Reaches (parseExpression aliases tokens) tokens Marked := (nesting_marks aliases maxNesting).assignment tokens

end Disco.Frontend.Parser
