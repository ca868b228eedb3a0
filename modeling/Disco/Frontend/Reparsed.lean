import Disco.Frontend.Rendering

/-! # Reading expressions back

What the parser makes of the tokens of a tree. A parser of a group goes on as long as
the operators of its group do, so a tree is read back where its tokens are followed by
none that binds as tightly; inside a chain the loop goes on with the tree it holds.
-/

namespace Disco.Frontend.Parser

open IR Library Disco.Frontend.Tree

variable {aliases : Aliases} {spell : Ty → List Token}

attribute [local simp] Tree.tokens Tree.nests Tree.updatesLast

/-! ## First tokens -/

/-- Tokens that begin an expression; in a group of postfix operators, with no prefix operator. -/
def Opens (aliases : Aliases) (own : Nat) (tokens : List Token) : Prop :=
  ∃ token rest, tokens = token :: rest ∧ token.type ∉ TokenType.rparen :: startsDeclaration ∧
    (token.type = .identifier → aliases.lookup token.lexeme = none) ∧ (own = 0 → token.type ∉ prefixOperators)

theorem Opens.append {own : Nat} {tokens : List Token} (h : Opens aliases own tokens) (more : List Token) :
    Opens aliases own (tokens ++ more) := by
  obtain ⟨token, rest, rfl, hopens⟩ := h
  exact ⟨token, rest ++ more, rfl, hopens⟩

theorem Opens.weaken {own own' : Nat} {tokens : List Token} (h : Opens aliases own tokens) (hown : own' = 0 → own = 0) :
    Opens aliases own' tokens := by
  obtain ⟨token, rest, rfl, hdeclaration, hidentifier, hfront⟩ := h
  exact ⟨token, rest, rfl, hdeclaration, hidentifier, fun h => hfront (hown h)⟩

theorem opens_token {token : Token} {own : Nat} (rest : List Token)
    (hdeclaration : token.type ∉ TokenType.rparen :: startsDeclaration)
    (hidentifier : token.type = .identifier → aliases.lookup token.lexeme = none)
    (hfront : own = 0 → token.type ∉ prefixOperators) : Opens aliases own (token :: rest) :=
  ⟨token, rest, rfl, hdeclaration, hidentifier, hfront⟩

/-- An operand opens as its tree does, or with a parenthesis. -/
theorem Opens.parenthesize {own : Nat} {tokens : List Token} (h : Opens aliases own tokens) (allowed : Nat) :
    Opens aliases allowed (parenthesize own allowed tokens) := by
  unfold Tree.parenthesize
  split
  · rename_i hle
    exact h.weaken (by omega)
  · exact opens_token _ (by decide) nofun fun _ => by decide

theorem Opens.not_declaration {own : Nat} {tokens : List Token} (h : Opens aliases own tokens) :
    isAtStartOfDeclaration aliases tokens = false := by
  obtain ⟨token, rest, rfl, hdeclaration, hidentifier, -⟩ := h
  simp only [isAtStartOfDeclaration, Bool.or_eq_false_iff, Bool.and_eq_false_iff, decide_eq_false_iff_not]
  refine ⟨?_, fun hmem => hdeclaration (List.mem_cons_of_mem _ hmem)⟩
  by_cases htype : token.type = .identifier
  · right
    rw [hidentifier htype]
    rfl
  · exact Or.inl htype

theorem Opens.peek_ne {own : Nat} {tokens : List Token} (h : Opens aliases own tokens) : peek tokens ≠ .rparen := by
  obtain ⟨token, rest, rfl, hdeclaration, -⟩ := h
  intro htype
  exact hdeclaration (by rw [show token.type = .rparen from htype]; exact List.mem_cons_self)

/-- Where a prefix operator starts the tokens, the tree is no operand of a postfix operator. -/
theorem opens_operator {operation : TokenType} {lexeme : String} {own : Nat} (rest : List Token)
    (h : operation ∈ prefixOperators) (hown : own ≠ 0) : Opens aliases own (⟨operation, lexeme⟩ :: rest) := by
  refine opens_token rest ?_ ?_ fun hzero => absurd hzero hown
  · exact (by decide : ∀ type ∈ prefixOperators, type ∉ TokenType.rparen :: startsDeclaration) _ h
  · rintro rfl
    exact absurd h (by decide)

theorem level_compound {operation : TokenType} {target value : Tree} (h : operation ∈ updateOperators) :
    (Tree.update operation target value false).level = 12 := by
  have hplain : operation ∉ updates := (by decide : ∀ type ∈ updateOperators, type ∉ updates) _ h
  simp [Tree.level, hplain]

theorem Expressible.opens {tree : Tree} (h : Expressible aliases spell tree) :
    Opens aliases tree.level (tree.tokens spell) := by
  induction h with
  | string lexeme => exact opens_token _ (by simp [startsDeclaration]) nofun fun _ => by simp [prefixOperators]
  | literal type lexeme htype =>
      have hliteral : ∀ type ∈ [TokenType.literalCharacter, .literalInteger, .keywordTrue, .keywordFalse],
          type ∉ TokenType.rparen :: startsDeclaration ∧ type ≠ .identifier ∧ type ∉ prefixOperators := by decide
      obtain ⟨hdeclaration, hidentifier, hfront⟩ := hliteral type htype
      exact opens_token _ hdeclaration (fun h => absurd h hidentifier) fun _ => hfront
  | null => exact opens_token _ (by decide) nofun fun _ => by decide
  | identifier name hname => exact opens_token _ (by simp [startsDeclaration]) (fun _ => hname) fun _ => by simp [prefixOperators]
  | plotCoordinate isY => exact opens_token _ (by decide) nofun fun _ => by decide
  | assign _ _ iht _ =>
      rw [Tree.tokens]
      exact ((iht.parenthesize 11).weaken (by simp [Tree.level])).append _
  | @compound operation target value hoperation _ _ iht _ =>
      have hplain : operation ∉ updates := (by decide : ∀ type ∈ updateOperators, type ∉ updates) _ hoperation
      rw [Tree.tokens, if_neg (by simp), if_neg hplain, level_compound hoperation]
      exact ((iht.parenthesize 11).weaken (by simp)).append _
  | @update operation target isPostfix hoperation _ iht =>
      rw [Tree.tokens]
      split
      · exact ((iht.parenthesize 0).weaken fun _ => rfl).append _
      · rename_i hfront
        exact opens_operator _ ((by decide : ∀ type ∈ updates, type ∈ prefixOperators) _ hoperation) (by simp [Tree.level, hfront, hoperation])
  | @binary operation left right hoperation _ _ ihl _ =>
      rw [Tree.tokens]
      refine ((ihl.parenthesize _).weaken fun hzero => ?_).append _
      have := binaryLevel_pos operation
      simp only [Tree.level] at hzero
      omega
  | @unary operation right hoperation _ _ =>
      rw [Tree.tokens]
      exact opens_operator _ ((by decide : ∀ type ∈ [TokenType.minus, .bang, .tilde], type ∈ prefixOperators) _ hoperation) (by simp [Tree.level])
  | addressOf _ _ => exact opens_operator _ (by decide) (by simp [Tree.level])
  | dereference _ _ => exact opens_operator _ (by decide) (by simp [Tree.level])
  | subscript _ _ iha _ =>
      rw [Tree.tokens]
      exact ((iha.parenthesize 0).weaken fun _ => rfl).append _
  | memberAccess _ _ _ iho =>
      rw [Tree.tokens]
      exact ((iho.parenthesize 0).weaken fun _ => rfl).append _
  | @call callee arguments _ _ ihc _ =>
      cases arguments with
      | nil =>
          rw [Tree.tokens]
          exact ((ihc.parenthesize 0).weaken fun _ => rfl).append _
      | cons first rest =>
          rw [Tree.tokens]
          exact ((ihc.parenthesize 0).weaken fun _ => rfl).append _
  | cast _ _ _ =>
      rw [Tree.tokens]
      exact opens_token _ (by decide) nofun (by simp [Tree.level])

/-! ## Loops that stop -/

theorem repeated_stop {σ : Type} {step : σ × List Token → Except Failure (Option (σ × List Token))} {s : σ}
    {tokens : List Token} (h : step (s, tokens) = .ok none) : repeated step s tokens = .ok (s, tokens) := by
  unfold repeated
  rw [loop, h]

theorem accept_none {types : List TokenType} {tokens : List Token} (h : peek tokens ∉ types) : accept types tokens = none := by
  cases tokens with
  | nil => rfl
  | cons token rest => exact if_neg h

/-! ## Types -/

theorem typeWord_starts {s s' : TypeState} {tokens rest : List Token} (h : typeWord aliases (s, tokens) = .ok (some (s', rest))) :
    isAtStartOfDeclaration aliases tokens = true := by
  cases tokens with
  | nil => cases h
  | cons token after =>
      have hstart : token.type ∈ startsDeclaration → isAtStartOfDeclaration aliases (token :: after) = true := by
        intro hmem
        simp [isAtStartOfDeclaration, hmem]
      rw [typeWord] at h
      split at h
      · rename_i htype
        exact hstart (by simp [htype, startsDeclaration])
      · rename_i htype
        exact hstart (by simp [htype, startsDeclaration])
      · rename_i htype
        exact hstart (by simp [htype, startsDeclaration])
      · rename_i htype
        split at h
        · cases h
        · obtain ⟨resolved, hresolved, -⟩ := bind_eq_ok.mp h
          unfold resolveAlias at hresolved
          split at hresolved
          · cases hresolved
          · rename_i hlookup
            simp [isAtStartOfDeclaration, htype, hlookup]
      · obtain ⟨next, hnext, -⟩ := Option.map_eq_some_iff.mp (Except.ok.inj h)
        have hkeyword : ∀ type : TokenType, type ∉ startsDeclaration → typeKeyword s type = none := by
          intro type htype
          cases type <;> first | rfl | exact absurd (by decide) htype
        by_contra hnot
        have hmem : token.type ∉ startsDeclaration := fun hmem => hnot (hstart hmem)
        rw [hkeyword _ hmem] at hnext
        cases hnext

/-- A spelling of a type is read as one. -/
theorem Spells.declaration {tokens : List Token} {type : Ty} (h : Spells aliases tokens type) {closing : Token}
    (rest : List Token) (hclosing : closing.type = .rparen) :
    isAtStartOfDeclaration aliases (tokens ++ closing :: rest) = true := by
  obtain ⟨⟨s, behind⟩, hwords, hcheck⟩ := bind_eq_ok.mp (h closing rest hclosing)
  obtain ⟨u, hbase, -⟩ := bind_eq_ok.mp hcheck
  rw [(typeWord_advances aliases).unfold] at hwords
  split at hwords
  · cases hwords
  · cases hwords
    exact absurd rfl (rejectIf_eq_ok.mp hbase)
  · rename_i hword
    exact typeWord_starts hword

theorem Spells.plain {tokens : List Token} {type : Ty} (h : Spells aliases tokens type) : Plain tokens := by
  obtain ⟨used, hused, hplain⟩ := (parseType_reaches aliases _).consumed _ _ (h ⟨.rparen, ")"⟩ [] rfl)
  rwa [List.append_cancel_right hused]

theorem spells_word (aliases : Aliases) :
    Spells aliases [⟨.keywordWord, "word"⟩] { base := .word, space := .ram } := by
  intro closing rest hclosing
  have hword : typeWord aliases ({}, ⟨.keywordWord, "word"⟩ :: closing :: rest) =
      .ok (some ({ type := { base := .word } }, closing :: rest)) := rfl
  have hend : typeWord aliases ({ type := { base := .word } }, closing :: rest) = .ok none := by
    rw [typeWord, hclosing]
    rfl
  have hstar : pointerLayer ({ base := .word, space := .ram }, closing :: rest) = .ok none := by
    rw [pointerLayer, accept_none (by simp [peek, hclosing])]
  rw [List.singleton_append, parseType, (typeWord_advances aliases).unfold, hword]
  dsimp only
  rw [repeated_stop hend]
  show (repeated pointerLayer { base := .word, space := .ram } (closing :: rest) >>= _) = _
  rw [repeated_stop hstar]
  rfl

/-! ## Levels -/

/-- The group that an operator behind an expression belongs to. -/
def binding (type : TokenType) : Nat :=
  if type ∈ [TokenType.lparen, .lbracket, .dot, .arrow, .plusPlus, .minusMinus] then 0
  else if type ∈ .equal :: updateOperators then 12
  else binaryLevel type

/-- What is behind an expression does not go on with it in the groups up to this one. -/
def Ends (level : Nat) (rest : List Token) : Prop := level < binding (peek rest)

theorem Ends.weaken {level level' : Nat} {rest : List Token} (h : Ends level rest) (hle : level' ≤ level) : Ends level' rest :=
  Nat.lt_of_le_of_lt hle h

theorem ends_token {level : Nat} {token : Token} (rest : List Token) (h : level < binding token.type) :
    Ends level (token :: rest) := h

/-- The parser of a group, under so many further levels of nesting. -/
def parseAt (aliases : Aliases) (remaining : Nat) : Nat → Parser Tree
  | 0 => parsePostfix aliases (nesting aliases remaining)
  | 1 => unary aliases (nesting aliases remaining)
  | 2 => factor (unary aliases (nesting aliases remaining))
  | 3 => term (unary aliases (nesting aliases remaining))
  | 4 => shift (unary aliases (nesting aliases remaining))
  | 5 => comparison (unary aliases (nesting aliases remaining))
  | 6 => equality (unary aliases (nesting aliases remaining))
  | 7 => bitwiseAnd (unary aliases (nesting aliases remaining))
  | 8 => bitwiseXor (unary aliases (nesting aliases remaining))
  | 9 => bitwiseOr (unary aliases (nesting aliases remaining))
  | 10 => logicalAnd (unary aliases (nesting aliases remaining))
  | 11 => logicalOr (unary aliases (nesting aliases remaining))
  | _ => assignment (nesting aliases (remaining + 1))

/-- The operators of a group, in the order in which the parser tries them. -/
def operatorsAt : Nat → List TokenType
  | 2 => [.star, .slash, .percent]
  | 3 => [.plus, .minus]
  | 4 => [.shiftLeft, .shiftRight]
  | 5 => [.greater, .greaterEqual, .less, .lessEqual]
  | 6 => [.bangEqual, .equalEqual]
  | 7 => [.ampersand]
  | 8 => [.caret]
  | 9 => [.pipe]
  | 10 => [.andAnd]
  | 11 => [.orOr]
  | _ => []

theorem parseAt_binary (aliases : Aliases) (remaining : Nat) {level : Nat} (h : 2 ≤ level) (h' : level ≤ 11) :
    parseAt aliases remaining level = binaryLeft (parseAt aliases remaining (level - 1)) (operatorsAt level) := by
  interval_cases level <;> rfl

theorem parseAt_unary (aliases : Aliases) (remaining : Nat) :
    parseAt aliases remaining 1 = unary aliases (nesting aliases remaining) := rfl

theorem parseAt_assignment (aliases : Aliases) (remaining : Nat) :
    parseAt aliases remaining 12 = assignment (nesting aliases (remaining + 1)) := rfl

theorem mem_operatorsAt {level : Nat} (h : level ≤ 11) (type : TokenType) :
    type ∈ operatorsAt level ↔ binaryLevel type = level := by
  interval_cases level <;> cases type <;> decide

theorem operatorsAt_plain {level : Nat} (h : level ≤ 11) : ∀ type ∈ operatorsAt level, type ∉ updates := by
  interval_cases level <;> decide

theorem parseAt_reaches (aliases : Aliases) (remaining level : Nat) (tokens : List Token) :
    Reaches (parseAt aliases remaining level tokens) tokens Marked := by
  have hnested := nesting_marks aliases remaining
  induction level generalizing tokens with
  | zero => exact parsePostfix_reaches hnested tokens
  | succ level ih =>
      by_cases hunary : level = 0
      · subst hunary
        exact unary_reaches hnested tokens
      · by_cases hbinary : level + 1 ≤ 11
        · rw [parseAt_binary aliases remaining (by omega) hbinary]
          exact binaryLeft_reaches ih (operatorsAt_plain hbinary) tokens
        · obtain ⟨above, rfl⟩ : ∃ above, level = above + 11 := ⟨level - 11, by omega⟩
          exact assignment_reaches (nesting_marks aliases (remaining + 1)) tokens

/-- The step of a chain of binary operators. -/
abbrev chainStep (aliases : Aliases) (remaining level : Nat) :=
  binaryStep (parseAt aliases remaining (level - 1)) (operatorsAt level)

/-- The loop of postfix operators, with the tree it holds. -/
def resume (nested : Nested) (tree : Tree) : Parser Tree := fun tokens => do
  let (s, rest) ← repeated (postfixStep nested) (tree, false) tokens
  pure (s.1, rest)

section Ends

variable {remaining level : Nat} {rest : List Token} {tree : Tree}

theorem Ends.resume (h : Ends 0 rest) (nested : Nested) (tree : Tree) : resume nested tree rest = .ok (tree, rest) := by
  have hstep : postfixStep nested ((tree, false), rest) = .ok none := by
    cases rest with
    | nil => rfl
    | cons token after =>
        simp only [Ends, peek] at h
        rw [postfixStep]
        split
        any_goals
          rename_i htype
          rw [htype] at h
          exact absurd h (by decide)
        rfl
  rw [Parser.resume, repeated_stop hstep]
  rfl

theorem Ends.chain (h : Ends level rest) (hle : level ≤ 11) (tree : Tree) :
    repeated (chainStep aliases remaining level) tree rest = .ok (tree, rest) := by
  refine repeated_stop ?_
  have hpeek : peek rest ∉ operatorsAt level := by
    intro hmem
    have hlevel := (mem_operatorsAt hle _).mp hmem
    simp only [Ends, binding] at h
    split at h
    · omega
    · split at h
      · rename_i hassign
        have hother : ∀ type ∈ TokenType.equal :: updateOperators, binaryLevel type = 13 := by decide
        have := hother _ hassign
        omega
      · omega
  rw [chainStep, binaryStep, accept_none hpeek]

theorem Ends.assignment (h : Ends 12 rest) : accept (.equal :: updateOperators) rest = none := by
  refine accept_none fun hmem => ?_
  simp only [Ends, binding, if_pos hmem] at h
  split at h <;> omega

end Ends

/-! ## From group to group -/

/-- Tokens that a group reads as a tree where its operators do not go on. -/
def Reads (aliases : Aliases) (remaining level : Nat) (tokens : List Token) (tree : Tree) : Prop :=
  ∀ rest, Ends level rest → parseAt aliases remaining level (tokens ++ rest) = .ok (tree, rest)

section Reads

variable {remaining level : Nat} {tokens : List Token} {tree : Tree}

theorem Reads.unary (h : Reads aliases remaining 0 tokens tree) (hopens : Opens aliases 0 tokens) :
    Reads aliases remaining 1 tokens tree := by
  intro rest hends
  obtain ⟨token, after, rfl, -, -, hfront⟩ := hopens
  have haccept : accept prefixOperators (token :: after ++ rest) = none := accept_none (hfront rfl)
  rw [parseAt, Parser.unary, haccept]
  exact h rest (hends.weaken (by omega))

/-- An operand of a chain is what its loop goes on with. -/
theorem Reads.chains (h : Reads aliases remaining (level - 1) tokens tree) (hlow : 2 ≤ level) (hhigh : level ≤ 11)
    {rest : List Token} (hends : Ends (level - 1) rest) :
    parseAt aliases remaining level (tokens ++ rest) = repeated (chainStep aliases remaining level) tree rest := by
  rw [parseAt_binary aliases remaining hlow hhigh, binaryLeft, h rest hends]
  rfl

theorem Reads.chain (h : Reads aliases remaining (level - 1) tokens tree) (hlow : 2 ≤ level) (hhigh : level ≤ 11) :
    Reads aliases remaining level tokens tree := by
  intro rest hends
  rw [h.chains hlow hhigh (hends.weaken (by omega))]
  exact hends.chain hhigh tree

theorem Reads.assignment (h : Reads aliases remaining 11 tokens tree) : Reads aliases remaining 12 tokens tree := by
  intro rest hends
  have htarget : logicalOr (nesting aliases (remaining + 1)).unary (tokens ++ rest) = .ok (tree, rest) :=
    h rest (hends.weaken (by omega))
  rw [parseAt_assignment, Parser.assignment, htarget]
  simp only [ok_bind, hends.assignment]
  rfl

theorem Reads.lift {level' : Nat} (h : Reads aliases remaining level tokens tree) (hopens : Opens aliases level tokens)
    (hle : level ≤ level') (hhigh : level' ≤ 12) : Reads aliases remaining level' tokens tree := by
  induction level', hle using Nat.le_induction with
  | base => exact h
  | succ above hle ih =>
      have hbelow := ih (by omega)
      by_cases hzero : above = 0
      · subst hzero
        exact hbelow.unary (hopens.weaken fun _ => by omega)
      · by_cases hbinary : above + 1 ≤ 11
        · exact Reads.chain (show Reads aliases remaining (above + 1 - 1) tokens tree from hbelow) (by omega) hbinary
        · obtain rfl : above = 11 := by omega
          exact hbelow.assignment

end Reads

/-! ## Operands -/

/-- A tree in parentheses is primary. -/
theorem reads_parentheses {remaining : Nat} {tokens : List Token} {tree : Tree} {own : Nat}
    (h : Reads aliases remaining 12 tokens tree) (hopens : Opens aliases own tokens) (rest : List Token) :
    parsePostfix aliases (nesting aliases (remaining + 2)) (⟨.lparen, "("⟩ :: (tokens ++ [⟨.rparen, ")"⟩]) ++ rest) =
      resume (nesting aliases (remaining + 2)) tree rest := by
  have hinner : (nesting aliases (remaining + 2)).assignment (tokens ++ ⟨.rparen, ")"⟩ :: rest) =
      .ok (tree, ⟨.rparen, ")"⟩ :: rest) := h _ (ends_token rest (by decide))
  have hprimary : primary aliases (nesting aliases (remaining + 2)) (⟨.lparen, "("⟩ :: (tokens ++ ⟨.rparen, ")"⟩ :: rest)) =
      .ok (tree, rest) := by
    have hdeclaration := (hopens.append (⟨.rparen, ")"⟩ :: rest)).not_declaration
    show parseParenthesized aliases (nesting aliases (remaining + 2)) _ = _
    rw [parseParenthesized, if_neg (by simp [hdeclaration]), expression, hinner]
    rfl
  rw [List.cons_append, List.append_assoc, List.singleton_append, parsePostfix, hprimary]
  rfl

/-- What the parser makes of a tree that is an operand. -/
structure Readable (aliases : Aliases) (spell : Ty → List Token) (tree : Tree) : Prop where
  reads : ∀ remaining allowed : Nat, allowed ≤ 12 → enclose tree.level allowed tree.nests ≤ remaining →
    Reads aliases remaining allowed (render spell allowed tree) tree
  chains : ∀ remaining allowed : Nat, 2 ≤ allowed → allowed ≤ 11 → enclose tree.level allowed tree.nests ≤ remaining →
    ∀ {rest : List Token}, Ends (allowed - 1) rest → parseAt aliases remaining allowed (render spell allowed tree ++ rest) =
      repeated (chainStep aliases remaining allowed) tree rest
  resumes : tree.isPostfixUpdate = false → ∀ remaining : Nat, enclose tree.level 0 tree.nests ≤ remaining →
    ∀ rest : List Token, parsePostfix aliases (nesting aliases remaining) (render spell 0 tree ++ rest) =
      resume (nesting aliases remaining) tree rest

/-- What a group makes of its own trees decides what others make of them. -/
theorem readable_of_level {tree : Tree} (hopens : Opens aliases tree.level (tree.tokens spell)) (hlevel : tree.level ≤ 12)
    (hreads : ∀ {remaining : Nat}, tree.nests ≤ remaining → Reads aliases remaining tree.level (tree.tokens spell) tree)
    (hchains : 2 ≤ tree.level → tree.level ≤ 11 → ∀ {remaining : Nat}, tree.nests ≤ remaining →
      ∀ {rest : List Token}, Ends (tree.level - 1) rest → parseAt aliases remaining tree.level (tree.tokens spell ++ rest) =
        repeated (chainStep aliases remaining tree.level) tree rest)
    (hresumes : tree.level = 0 → tree.isPostfixUpdate = false → ∀ {remaining : Nat}, tree.nests ≤ remaining →
      ∀ rest : List Token, parsePostfix aliases (nesting aliases remaining) (tree.tokens spell ++ rest) =
        resume (nesting aliases remaining) tree rest) :
    Readable aliases spell tree := by
  have hin : ∀ {remaining allowed : Nat}, allowed < tree.level → enclose tree.level allowed tree.nests ≤ remaining →
      ∀ rest, parsePostfix aliases (nesting aliases remaining) (render spell allowed tree ++ rest) =
        resume (nesting aliases remaining) tree rest := by
    intro remaining allowed hlt hnests rest
    rw [enclose, if_neg (by omega)] at hnests
    obtain ⟨inner, rfl⟩ : ∃ inner, remaining = inner + 2 := ⟨remaining - 2, by omega⟩
    rw [render, parenthesize, if_neg (by omega)]
    exact reads_parentheses ((hreads (by omega)).lift hopens hlevel (by omega)) hopens rest
  have hclosed : ∀ {remaining allowed allowed' : Nat}, allowed < tree.level → allowed' ≤ 12 →
      enclose tree.level allowed tree.nests ≤ remaining → Reads aliases remaining allowed' (render spell allowed tree) tree := by
    intro remaining allowed allowed' hlt hhigh hnests
    have hzero : Reads aliases remaining 0 (render spell allowed tree) tree := by
      intro rest hends
      exact (hin hlt hnests rest).trans (hends.resume _ _)
    refine hzero.lift ?_ (by omega) hhigh
    rw [render, parenthesize, if_neg (by omega)]
    exact opens_token _ (by decide) nofun fun _ => by decide
  have hplain : ∀ {allowed : Nat}, tree.level ≤ allowed → render spell allowed tree = tree.tokens spell ∧
      enclose tree.level allowed tree.nests = tree.nests := by
    intro allowed hle
    rw [render, parenthesize, if_pos hle, enclose, if_pos hle]
    exact ⟨rfl, rfl⟩
  refine ⟨?_, ?_, ?_⟩
  · intro remaining allowed hhigh hnests
    by_cases hle : tree.level ≤ allowed
    · rw [(hplain hle).2] at hnests
      rw [(hplain hle).1]
      exact (hreads hnests).lift hopens hle hhigh
    · exact hclosed (by omega) hhigh hnests
  · intro remaining allowed hlow hhigh hnests rest hends
    by_cases hle : tree.level ≤ allowed
    · rw [(hplain hle).2] at hnests
      rw [(hplain hle).1]
      by_cases hown : tree.level = allowed
      · subst hown
        exact hchains hlow hhigh hnests hends
      · exact ((hreads hnests).lift hopens (by omega) (by omega)).chains hlow hhigh hends
    · exact (hclosed (by omega) (by omega) hnests).chains hlow hhigh hends
  · intro hupdate remaining hnests rest
    by_cases hle : tree.level ≤ 0
    · rw [(hplain hle).2] at hnests
      rw [(hplain hle).1]
      exact hresumes (by omega) hupdate hnests rest
    · exact hin (by omega) hnests rest

/-! ## Postfix operators -/

theorem node_eq_of_depth {tree : Tree} (h : tree.depth ≤ Tree.maxDepth) : node tree = .ok tree := by
  rw [node, rejectIf, if_neg (by omega)]
  rfl

theorem resume_step {remaining : Nat} {tree tree' : Tree} {tokens rest : List Token}
    (h : postfixStep (nesting aliases remaining) ((tree, false), tokens) = .ok (some ((tree', false), rest))) :
    resume (nesting aliases remaining) tree tokens = resume (nesting aliases remaining) tree' rest := by
  rw [resume, (postfixStep_advances (nesting_marks aliases remaining)).unfold, h]
  rfl

theorem resume_last {remaining : Nat} {tree tree' : Tree} {tokens rest : List Token}
    (h : postfixStep (nesting aliases remaining) ((tree, false), tokens) = .ok (some ((tree', true), rest))) :
    resume (nesting aliases remaining) tree tokens = .ok (tree', rest) := by
  rw [resume, (postfixStep_advances (nesting_marks aliases remaining)).unfold, h]
  dsimp only
  rw [repeated_stop rfl]
  rfl

/-- A tree that the loop of postfix operators goes on with. -/
theorem readable_postfix {tree : Tree} (hopens : Opens aliases tree.level (tree.tokens spell)) (hlevel : tree.level = 0)
    (hresumes : ∀ {remaining : Nat}, tree.nests ≤ remaining → ∀ rest : List Token,
      parsePostfix aliases (nesting aliases remaining) (tree.tokens spell ++ rest) = resume (nesting aliases remaining) tree rest) :
    Readable aliases spell tree := by
  refine readable_of_level hopens (by omega) ?_ (fun hlow => by omega) fun _ _ => hresumes
  intro remaining hnests rest hends
  rw [hlevel] at hends ⊢
  exact (hresumes hnests rest).trans (hends.resume _ _)

section Postfix

variable {array index object callee target : Tree}

theorem Readable.expression (h : Readable aliases spell index) (remaining : Nat) (hlevel : index.level ≤ 12)
    (hnests : index.nests + 2 ≤ remaining) {rest : List Token} (hends : Ends 12 rest) :
    expression (nesting aliases remaining) (render spell 12 index ++ rest) = .ok (index, rest) := by
  obtain ⟨inner, rfl⟩ : ∃ inner, remaining = inner + 2 := ⟨remaining - 2, by omega⟩
  exact h.reads inner 12 (Nat.le_refl _) (by rw [enclose, if_pos hlevel]; omega) rest hends

theorem readable_subscript (ha : Readable aliases spell array) (hi : Readable aliases spell index)
    (hopens : Opens aliases (Tree.subscript array index).level ((Tree.subscript array index).tokens spell))
    (hlevel : index.level ≤ 12) (hlast : array.isPostfixUpdate = false) (hdepth : (Tree.subscript array index).depth ≤ Tree.maxDepth) :
    Readable aliases spell (.subscript array index) := by
  refine readable_postfix hopens rfl fun {remaining} hnests rest => ?_
  rw [nests] at hnests
  have hindex : expression (nesting aliases remaining) (render spell 12 index ++ ⟨.rbracket, "]"⟩ :: rest) =
      .ok (index, ⟨.rbracket, "]"⟩ :: rest) := hi.expression remaining hlevel (by omega) (ends_token rest (by decide))
  have hstep : postfixStep (nesting aliases remaining)
      ((array, false), ⟨.lbracket, "["⟩ :: (render spell 12 index ++ ⟨.rbracket, "]"⟩ :: rest)) =
        .ok (some ((.subscript array index, false), rest)) := by
    rw [postfixStep]
    dsimp only
    rw [hindex]
    simp only [ok_bind, consume, accept, List.mem_singleton, if_true, node_eq_of_depth hdepth]
    rfl
  have harray := ha.resumes hlast remaining (by omega) (⟨.lbracket, "["⟩ :: (render spell 12 index ++ ⟨.rbracket, "]"⟩ :: rest))
  rw [resume_step hstep] at harray
  simpa only [Tree.tokens, render, List.append_assoc, List.cons_append, List.nil_append] using harray

theorem readable_memberAccess {member : String} {throughPointer : Bool} (ho : Readable aliases spell object)
    (hopens : Opens aliases (Tree.memberAccess object member throughPointer).level
      ((Tree.memberAccess object member throughPointer).tokens spell))
    (hlast : object.isPostfixUpdate = false) (hdepth : (Tree.memberAccess object member throughPointer).depth ≤ Tree.maxDepth) :
    Readable aliases spell (.memberAccess object member throughPointer) := by
  refine readable_postfix hopens rfl fun {remaining} hnests rest => ?_
  rw [nests] at hnests
  have hstep : postfixStep (nesting aliases remaining)
      ((object, false), ⟨if throughPointer = true then .arrow else .dot, ""⟩ :: ⟨.identifier, member⟩ :: rest) =
        .ok (some ((.memberAccess object member throughPointer, false), rest)) := by
    have hnode := node_eq_of_depth hdepth
    cases throughPointer with
    | false =>
        show (node (.memberAccess object member false) >>= _) = _
        rw [hnode]
        rfl
    | true =>
        show (node (.memberAccess object member true) >>= _) = _
        rw [hnode]
        rfl
  have hobject := ho.resumes hlast remaining (by omega)
    (⟨if throughPointer = true then .arrow else .dot, ""⟩ :: ⟨.identifier, member⟩ :: rest)
  rw [resume_step hstep] at hobject
  simpa only [Tree.tokens, render, List.append_assoc, List.cons_append, List.nil_append] using hobject

/-- The rest of the arguments, behind those that have been read. -/
theorem moreArguments_moreTokens (remaining : Nat) {arguments : List Tree} (h : ∀ argument ∈ arguments, Readable aliases spell argument)
    (hlevel : ∀ argument ∈ arguments, argument.level ≤ 12) (hnests : allNests arguments ≤ remaining) (before : List Tree)
    (rest : List Token) : repeated (moreArguments (nesting aliases remaining)) before
      (moreTokens spell arguments ++ ⟨.rparen, ")"⟩ :: rest) = .ok (before ++ arguments, ⟨.rparen, ")"⟩ :: rest) := by
  induction arguments generalizing before with
  | nil =>
      rw [List.append_nil]
      exact repeated_stop rfl
  | cons argument arguments ih =>
      rw [allNests] at hnests
      have hends : Ends 12 (moreTokens spell arguments ++ ⟨.rparen, ")"⟩ :: rest) := by
        cases arguments <;> exact ends_token _ (by decide)
      have hargument := (h argument List.mem_cons_self).expression remaining (hlevel argument List.mem_cons_self) (by omega) hends
      have hstep : moreArguments (nesting aliases remaining)
          (before, moreTokens spell (argument :: arguments) ++ ⟨.rparen, ")"⟩ :: rest) =
            .ok (some (before ++ [argument], moreTokens spell arguments ++ ⟨.rparen, ")"⟩ :: rest)) := by
        rw [moreTokens, List.cons_append, List.append_assoc]
        show (expression (nesting aliases remaining) (render spell 12 argument ++ _) >>= _) = _
        rw [hargument]
        rfl
      rw [(moreArguments_advances (nesting_marks aliases remaining)).unfold, hstep]
      dsimp only
      rw [ih (fun a ha => h a (List.mem_cons_of_mem _ ha)) (fun a ha => hlevel a (List.mem_cons_of_mem _ ha)) (by omega)]
      rw [List.append_assoc, List.singleton_append]

theorem readable_call {arguments : List Tree} (hc : Readable aliases spell callee)
    (ha : ∀ argument ∈ arguments, Readable aliases spell argument) (hlevel : ∀ argument ∈ arguments, argument.level ≤ 12)
    (hargument : ∀ argument ∈ arguments, Opens aliases argument.level (argument.tokens spell))
    (hopens : Opens aliases (Tree.call callee arguments).level ((Tree.call callee arguments).tokens spell))
    (hlast : callee.isPostfixUpdate = false) (hdepth : (Tree.call callee arguments).depth ≤ Tree.maxDepth) :
    Readable aliases spell (.call callee arguments) := by
  refine readable_postfix hopens rfl fun {remaining} hnests rest => ?_
  rw [nests] at hnests
  have hnode := node_eq_of_depth hdepth
  cases arguments with
  | nil =>
      have hstep : postfixStep (nesting aliases remaining)
          ((callee, false), ⟨.lparen, "("⟩ :: ⟨.rparen, ")"⟩ :: rest) = .ok (some ((.call callee [], false), rest)) := by
        show (node (.call callee []) >>= _) = _
        rw [hnode]
        rfl
      have hcallee := hc.resumes hlast remaining (by omega) (⟨.lparen, "("⟩ :: ⟨.rparen, ")"⟩ :: rest)
      rw [resume_step hstep] at hcallee
      simpa only [Tree.tokens, render, List.append_assoc, List.cons_append, List.nil_append] using hcallee
  | cons first arguments =>
      rw [allNests] at hnests
      have hends : Ends 12 (moreTokens spell arguments ++ ⟨.rparen, ")"⟩ :: rest) := by
        cases arguments <;> exact ends_token _ (by decide)
      have hfirst := (ha first List.mem_cons_self).expression remaining (hlevel first List.mem_cons_self) (by omega) hends
      have hmore := moreArguments_moreTokens remaining (fun a h => ha a (List.mem_cons_of_mem _ h))
        (fun a h => hlevel a (List.mem_cons_of_mem _ h)) (by omega) [first] rest
      have hparse : parseArguments (nesting aliases remaining)
          (render spell 12 first ++ (moreTokens spell arguments ++ ⟨.rparen, ")"⟩ :: rest)) =
            .ok (first :: arguments, ⟨.rparen, ")"⟩ :: rest) := by
        have hfirstOpens : Opens aliases 12 (render spell 12 first ++ (moreTokens spell arguments ++ ⟨.rparen, ")"⟩ :: rest)) :=
          ((hargument first List.mem_cons_self).parenthesize 12).append _
        rw [parseArguments, if_neg hfirstOpens.peek_ne, hfirst]
        exact hmore
      have hstep : postfixStep (nesting aliases remaining)
          ((callee, false), ⟨.lparen, "("⟩ :: (render spell 12 first ++ (moreTokens spell arguments ++ ⟨.rparen, ")"⟩ :: rest))) =
            .ok (some ((.call callee (first :: arguments), false), rest)) := by
        rw [postfixStep]
        dsimp only
        rw [hparse]
        simp only [ok_bind, consume, accept, List.mem_singleton, if_true, hnode]
        rfl
      have hcallee := hc.resumes hlast remaining (by omega)
        (⟨.lparen, "("⟩ :: (render spell 12 first ++ (moreTokens spell arguments ++ ⟨.rparen, ")"⟩ :: rest)))
      rw [resume_step hstep] at hcallee
      simpa only [Tree.tokens, render, List.append_assoc, List.cons_append, List.nil_append] using hcallee

theorem readable_postfixUpdate {operation : TokenType} (ht : Readable aliases spell target) (hoperation : operation ∈ updates)
    (hopens : Opens aliases (Tree.update operation target one true).level ((Tree.update operation target one true).tokens spell))
    (hlast : target.isPostfixUpdate = false) (hdepth : (Tree.update operation target one true).depth ≤ Tree.maxDepth) :
    Readable aliases spell (.update operation target one true) := by
  refine readable_of_level hopens (by simp [Tree.level]) ?_ (by simp [Tree.level]) (fun _ h => by cases h)
  intro remaining hnests rest hends
  rw [nests, if_pos rfl] at hnests
  have hnode := node_eq_of_depth hdepth
  have hstep : postfixStep (nesting aliases remaining) ((target, false), ⟨operation, ""⟩ :: rest) =
      .ok (some ((.update operation target one true, true), rest)) := by
    simp only [updates, List.mem_cons, List.not_mem_nil, or_false] at hoperation
    rcases hoperation with rfl | rfl
    · show (node (.update .plusPlus target one true) >>= _) = _
      rw [hnode]
      rfl
    · show (node (.update .minusMinus target one true) >>= _) = _
      rw [hnode]
      rfl
  have htarget := ht.resumes hlast remaining hnests (⟨operation, ""⟩ :: rest)
  rw [resume_last hstep] at htarget
  show parsePostfix aliases (nesting aliases remaining) _ = _
  simpa only [Tree.tokens, render, if_true, List.append_assoc, List.cons_append, List.nil_append] using htarget

end Postfix

/-! ## Prefix operators -/

section Prefix

variable {right expression target value left : Tree}

/-- The operand of a prefix operator. -/
theorem Readable.unary {remaining : Nat} (h : Readable aliases spell right) (hnests : enclose right.level 1 right.nests + 1 ≤ remaining)
    {rest : List Token} (hends : Ends 1 rest) :
    (nesting aliases remaining).unary (render spell 1 right ++ rest) = .ok (right, rest) := by
  obtain ⟨inner, rfl⟩ : ∃ inner, remaining = inner + 1 := ⟨remaining - 1, by omega⟩
  exact h.reads inner 1 (by omega) (by omega) rest hends

theorem readable_prefix {tree : Tree} {operation : Token} (hr : Readable aliases spell right)
    (hoperation : operation.type ∈ prefixOperators) (htree : prefixNode operation.type right = tree) (hlevel : tree.level = 1)
    (htokens : tree.tokens spell = operation :: render spell 1 right)
    (hnests : tree.nests = enclose right.level 1 right.nests + 1) (hopens : Opens aliases tree.level (tree.tokens spell))
    (hdepth : tree.depth ≤ Tree.maxDepth) : Readable aliases spell tree := by
  refine readable_of_level hopens (by omega) ?_ (fun hlow => by omega) (fun hzero => by omega)
  intro remaining hremaining rest hends
  rw [hlevel] at hends ⊢
  have haccept : accept prefixOperators (operation :: (render spell 1 right ++ rest)) =
      some (operation, render spell 1 right ++ rest) := if_pos hoperation
  rw [htokens, List.cons_append]
  rw [parseAt_unary, Parser.unary, haccept]
  dsimp only
  rw [hr.unary (by omega) hends, ok_bind, htree, node_eq_of_depth hdepth]
  rfl

theorem readable_cast {type : Ty} (he : Readable aliases spell expression) (htype : Spells aliases (spell type) type)
    (hopens : Opens aliases (Tree.cast type expression).level ((Tree.cast type expression).tokens spell))
    (hdepth : (Tree.cast type expression).depth ≤ Tree.maxDepth) : Readable aliases spell (.cast type expression) := by
  refine readable_of_level hopens (by simp [Tree.level]) ?_ (by simp [Tree.level]) (by simp [Tree.level])
  intro remaining hremaining rest hends
  have hlevel : (Tree.cast type expression).level = 1 := rfl
  rw [nests] at hremaining
  rw [hlevel] at hends ⊢
  have hparse := htype ⟨.rparen, ")"⟩ (render spell 1 expression ++ rest) rfl
  have hdeclaration : isAtStartOfDeclaration aliases (spell type ++ ⟨.rparen, ")"⟩ :: (render spell 1 expression ++ rest)) = true :=
    Spells.declaration htype _ rfl
  have hprimary : primary aliases (nesting aliases remaining)
      (⟨.lparen, "("⟩ :: (spell type ++ ⟨.rparen, ")"⟩ :: (render spell 1 expression ++ rest))) =
        .ok (.cast type expression, rest) := by
    show parseParenthesized aliases (nesting aliases remaining) _ = _
    rw [parseParenthesized, if_pos hdeclaration, hparse]
    simp only [ok_bind, consume, accept, List.mem_singleton, if_true, he.unary hremaining hends, node_eq_of_depth hdepth]
    rfl
  rw [Tree.tokens, List.cons_append, List.append_assoc, List.cons_append]
  have hparenthesis : TokenType.lparen ∉ prefixOperators := by decide
  rw [parseAt_unary, Parser.unary, accept_none hparenthesis]
  show parsePostfix aliases (nesting aliases remaining)
    (⟨.lparen, "("⟩ :: (spell type ++ ⟨.rparen, ")"⟩ :: (render spell 1 expression ++ rest))) = _
  rw [parsePostfix, hprimary]
  exact (hends.weaken (by omega)).resume _ _

/-! ## Binary operators and assignments -/

theorem readable_binary {operation : TokenType} (hl : Readable aliases spell left) (hr : Readable aliases spell right)
    (hoperation : binaryLevel operation ≤ 11)
    (hopens : Opens aliases (Tree.binary operation left right).level ((Tree.binary operation left right).tokens spell))
    (hdepth : (Tree.binary operation left right).depth ≤ Tree.maxDepth) : Readable aliases spell (.binary operation left right) := by
  have hlow := binaryLevel_pos operation
  have hchains : ∀ {remaining : Nat}, (Tree.binary operation left right).nests ≤ remaining → ∀ {rest : List Token},
      Ends (binaryLevel operation - 1) rest → parseAt aliases remaining (binaryLevel operation)
        ((Tree.binary operation left right).tokens spell ++ rest) =
          repeated (chainStep aliases remaining (binaryLevel operation)) (.binary operation left right) rest := by
    intro remaining hremaining rest hends
    rw [nests] at hremaining
    have hbehind : Ends (binaryLevel operation - 1) (⟨operation, ""⟩ :: (render spell (binaryLevel operation - 1) right ++ rest)) := by
      refine ends_token _ ?_
      have hbinding : ∀ type, binaryLevel type ≤ 11 → binding type = binaryLevel type := by
        intro type
        cases type <;> decide
      rw [hbinding operation hoperation]
      omega
    have hleft := hl.chains remaining _ hlow hoperation (by omega) hbehind
    have hright := hr.reads remaining (binaryLevel operation - 1) (by omega) (by omega) rest hends
    have hmem : operation ∈ operatorsAt (binaryLevel operation) := (mem_operatorsAt hoperation operation).mpr rfl
    have hstep : chainStep aliases remaining (binaryLevel operation)
        (left, ⟨operation, ""⟩ :: (render spell (binaryLevel operation - 1) right ++ rest)) =
          .ok (some (.binary operation left right, rest)) := by
      have haccept : accept (operatorsAt (binaryLevel operation))
          (⟨operation, ""⟩ :: (render spell (binaryLevel operation - 1) right ++ rest)) =
            some (⟨operation, ""⟩, render spell (binaryLevel operation - 1) right ++ rest) := if_pos hmem
      rw [chainStep, binaryStep, haccept]
      dsimp only
      rw [hright, ok_bind, node_eq_of_depth hdepth]
      rfl
    have hadvances : Advances (chainStep aliases remaining (binaryLevel operation)) Marked :=
      binaryStep_advances (parseAt_reaches aliases remaining _) (operatorsAt_plain hoperation)
    rw [hadvances.unfold, hstep] at hleft
    simpa only [Tree.tokens, render, List.append_assoc, List.cons_append] using hleft
  refine readable_of_level hopens (by simp only [Tree.level]; omega) ?_ (fun _ _ => hchains) (fun hzero => ?_)
  · intro remaining hremaining rest hends
    have hends : Ends (binaryLevel operation) rest := hends
    exact (hchains hremaining (hends.weaken (by omega))).trans (hends.chain hoperation _)
  · simp only [Tree.level] at hzero
    omega

theorem readable_assignment {tree : Tree} {operation : Token} (ht : Readable aliases spell target)
    (hv : Readable aliases spell value) (hoperation : operation.type ∈ TokenType.equal :: updateOperators)
    (htree : assignmentNode operation.type target value = tree) (hlevel : tree.level = 12) (hvalue : value.level ≤ 12)
    (htokens : tree.tokens spell = render spell 11 target ++ operation :: render spell 12 value)
    (hnests : tree.nests = max (enclose target.level 11 target.nests) (value.nests + 1))
    (hopens : Opens aliases tree.level (tree.tokens spell)) (hdepth : tree.depth ≤ Tree.maxDepth) : Readable aliases spell tree := by
  refine readable_of_level hopens (by omega) ?_ (fun _ hhigh => by omega) (fun hzero => by omega)
  intro remaining hremaining rest hends
  rw [hlevel] at hends ⊢
  obtain ⟨inner, rfl⟩ : ∃ inner, remaining = inner + 1 := ⟨remaining - 1, by omega⟩
  have hassign : ∀ type ∈ TokenType.equal :: updateOperators, binding type = 12 := by decide
  have htarget : logicalOr (nesting aliases (inner + 2)).unary (render spell 11 target ++ operation :: (render spell 12 value ++ rest)) =
      .ok (target, operation :: (render spell 12 value ++ rest)) :=
    ht.reads (inner + 1) 11 (by omega) (by omega) _ (ends_token _ (by rw [hassign _ hoperation]; omega))
  have hinner : (nesting aliases (inner + 2)).assignment (render spell 12 value ++ rest) = .ok (value, rest) :=
    hv.reads inner 12 (by omega) (by rw [enclose, if_pos hvalue]; omega) rest hends
  have haccept : accept (.equal :: updateOperators) (operation :: (render spell 12 value ++ rest)) =
      some (operation, render spell 12 value ++ rest) := if_pos hoperation
  rw [htokens, List.append_assoc, List.cons_append, parseAt_assignment, Parser.assignment, htarget]
  simp only [ok_bind, haccept, hinner, htree, node_eq_of_depth hdepth]
  rfl

end Prefix

/-! ## All trees -/

theorem Expressible.level_le {tree : Tree} (h : Expressible aliases spell tree) : tree.level ≤ 12 := by
  cases h with
  | compound hoperation => exact (level_compound hoperation).le
  | binary hoperation => exact hoperation.trans (by omega)
  | update isPostfix hoperation =>
      rw [Tree.level]
      split
      · omega
      · omega
  | _ => simp [Tree.level]

theorem depth_le_depths {tree : Tree} {trees : List Tree} (h : tree ∈ trees) : tree.depth ≤ Tree.depths trees := by
  induction trees with
  | nil => cases h
  | cons first rest ih =>
      rw [Tree.depths]
      rcases List.mem_cons.mp h with rfl | h
      · exact Nat.le_max_left _ _
      · exact (ih h).trans (Nat.le_max_right _ _)

theorem allUpdatesLast_iff {trees : List Tree} : Tree.allUpdatesLast trees = true ↔ ∀ tree ∈ trees, tree.updatesLast = true := by
  induction trees with
  | nil => simp [Tree.allUpdatesLast]
  | cons first rest ih => simp [Tree.allUpdatesLast, ih]

/-- Every tree without updates under postfix operators is read back. -/
theorem Expressible.readable {tree : Tree} (h : Expressible aliases spell tree) :
    tree.depth ≤ Tree.maxDepth → tree.updatesLast = true → Readable aliases spell tree := by
  induction h with
  | string lexeme => exact fun _ _ => readable_postfix (Expressible.string lexeme).opens rfl fun _ _ => rfl
  | literal type lexeme htype =>
      refine fun _ _ => readable_postfix (Expressible.literal type lexeme htype).opens rfl fun _ _ => ?_
      simp only [List.mem_cons, List.not_mem_nil, or_false] at htype
      rcases htype with rfl | rfl | rfl | rfl <;> rfl
  | null => exact fun _ _ => readable_postfix Expressible.null.opens rfl fun _ _ => rfl
  | identifier name hname => exact fun _ _ => readable_postfix (Expressible.identifier name hname).opens rfl fun _ _ => rfl
  | plotCoordinate isY =>
      refine fun _ _ => readable_postfix (Expressible.plotCoordinate isY).opens rfl fun _ _ => ?_
      cases isY <;> rfl
  | @assign target value ht hv iht ihv =>
      intro hdepth hlast
      simp only [Tree.updatesLast, Bool.and_eq_true] at hlast
      have hdepths := hdepth
      simp only [Tree.depth] at hdepths
      have hoperation : (⟨.equal, "="⟩ : Token).type ∈ TokenType.equal :: updateOperators := List.mem_cons_self
      exact readable_assignment (iht (by omega) hlast.1) (ihv (by omega) hlast.2) hoperation rfl rfl
        hv.level_le rfl rfl (ht.assign hv).opens hdepth
  | @compound operation target value hoperation ht hv iht ihv =>
      intro hdepth hlast
      simp only [Tree.updatesLast, Bool.and_eq_true] at hlast
      have hdepths := hdepth
      simp only [Tree.depth] at hdepths
      have hplain : operation ∉ updates := (by decide : ∀ type ∈ updateOperators, type ∉ updates) _ hoperation
      have hnode : assignmentNode operation target value = .update operation target value false :=
        if_neg ((by decide : ∀ type ∈ updateOperators, type ≠ .equal) _ hoperation)
      have hmem : (⟨operation, ""⟩ : Token).type ∈ TokenType.equal :: updateOperators := List.mem_cons_of_mem _ hoperation
      refine readable_assignment (iht (by omega) hlast.1.1) (ihv (by omega) hlast.1.2) hmem hnode (level_compound hoperation)
        hv.level_le ?_ ?_ (Expressible.compound hoperation ht hv).opens hdepth
      · rw [Tree.tokens, if_neg (by simp), if_neg hplain]
        rfl
      · rw [nests, if_neg (by simp), if_neg hplain]
  | @update operation target isPostfix hoperation ht iht =>
      intro hdepth hlast
      simp only [Tree.updatesLast, Bool.and_eq_true, Bool.not_eq_true'] at hlast
      have hdepths := hdepth
      simp only [Tree.depth] at hdepths
      have hopens := (Expressible.update isPostfix hoperation ht).opens
      have htarget := iht (by omega) hlast.1.1
      cases isPostfix with
      | true => exact readable_postfixUpdate htarget hoperation hopens (by simpa using hlast.2) hdepth
      | false =>
          have hmem : (⟨operation, ""⟩ : Token).type ∈ prefixOperators :=
            (by decide : ∀ type ∈ updates, type ∈ prefixOperators) _ hoperation
          refine readable_prefix htarget hmem ?_ ?_ ?_ ?_ hopens hdepth
          · simp only [updates, List.mem_cons, List.not_mem_nil, or_false] at hoperation
            rcases hoperation with rfl | rfl <;> rfl
          · rw [Tree.level, if_neg (by simp), if_pos hoperation]
          · rw [Tree.tokens, if_neg (by simp), if_pos hoperation]
            rfl
          · rw [nests, if_neg (by simp), if_pos hoperation]
  | @binary operation left right hoperation hl hr ihl ihr =>
      intro hdepth hlast
      simp only [Tree.updatesLast, Bool.and_eq_true] at hlast
      have hdepths := hdepth
      simp only [Tree.depth] at hdepths
      exact readable_binary (ihl (by omega) hlast.1) (ihr (by omega) hlast.2) hoperation (hl.binary hoperation hr).opens hdepth
  | @unary operation right hoperation hr ihr =>
      intro hdepth hlast
      have hdepths := hdepth
      simp only [Tree.depth] at hdepths
      have hmem : (⟨operation, ""⟩ : Token).type ∈ prefixOperators :=
        (by decide : ∀ type ∈ [TokenType.minus, .bang, .tilde], type ∈ prefixOperators) _ hoperation
      refine readable_prefix (ihr (by omega) hlast) hmem ?_ rfl rfl rfl (hr.unary hoperation).opens hdepth
      simp only [List.mem_cons, List.not_mem_nil, or_false] at hoperation
      rcases hoperation with rfl | rfl | rfl <;> rfl
  | @addressOf right hr ihr =>
      intro hdepth hlast
      have hdepths := hdepth
      simp only [Tree.depth] at hdepths
      have hmem : (⟨.ampersand, "&"⟩ : Token).type ∈ prefixOperators := by decide
      exact readable_prefix (ihr (by omega) hlast) hmem rfl rfl rfl rfl hr.addressOf.opens hdepth
  | @dereference right hr ihr =>
      intro hdepth hlast
      have hdepths := hdepth
      simp only [Tree.depth] at hdepths
      have hmem : (⟨.star, "*"⟩ : Token).type ∈ prefixOperators := by decide
      exact readable_prefix (ihr (by omega) hlast) hmem rfl rfl rfl rfl hr.dereference.opens hdepth
  | @subscript array index ha hi iha ihi =>
      intro hdepth hlast
      simp only [Tree.updatesLast, Bool.and_eq_true, Bool.not_eq_true'] at hlast
      have hdepths := hdepth
      simp only [Tree.depth] at hdepths
      exact readable_subscript (iha (by omega) hlast.1.1) (ihi (by omega) hlast.1.2) (ha.subscript hi).opens hi.level_le hlast.2 hdepth
  | @memberAccess object member throughPointer ho iho =>
      intro hdepth hlast
      simp only [Tree.updatesLast, Bool.and_eq_true, Bool.not_eq_true'] at hlast
      have hdepths := hdepth
      simp only [Tree.depth] at hdepths
      exact readable_memberAccess (iho (by omega) hlast.1) (ho.memberAccess member throughPointer).opens hlast.2 hdepth
  | @call callee arguments hc ha ihc iha =>
      intro hdepth hlast
      simp only [Tree.updatesLast, Bool.and_eq_true, Bool.not_eq_true', allUpdatesLast_iff] at hlast
      have hdepths := hdepth
      simp only [Tree.depth] at hdepths
      refine readable_call (ihc (by omega) hlast.1.1) (fun argument hmem => ?_) (fun argument hmem => (ha argument hmem).level_le)
        (fun argument hmem => (ha argument hmem).opens) (hc.call ha).opens hlast.2 hdepth
      have := depth_le_depths hmem
      exact iha argument hmem (by omega) (hlast.1.2 argument hmem)
  | @cast type expression htype he ihe =>
      intro hdepth hlast
      have hdepths := hdepth
      simp only [Tree.depth] at hdepths
      exact readable_cast (ihe (by omega) hlast) htype (he.cast htype).opens hdepth

/-! ## Where updates are closed -/

theorem Under.split {marks marks' closed closed' : List Bool} (h : Under (marks ++ marks') (closed ++ closed'))
    (hlength : marks.length = closed.length) : Under marks closed ∧ Under marks' closed' := by
  induction marks generalizing closed with
  | nil =>
      obtain rfl := List.length_eq_zero_iff.mp hlength.symm
      exact ⟨under_nil, h⟩
  | cons mark marks ih =>
      cases closed with
      | nil => cases hlength
      | cons b closed =>
          cases h with
          | cons hhead htail =>
              obtain ⟨hl, hr⟩ := ih htail (Nat.succ.inj hlength)
              exact ⟨List.Forall₂.cons hhead hl, hr⟩

/-- What the closed updates among its tokens say about a tree. -/
structure Shows (spell : Ty → List Token) (tree : Tree) : Prop where
  length : ∀ outer follower, (tree.applied outer).length = (closings follower (tree.tokens spell)).length
  under : ∀ outer follower, Under (tree.applied outer) (closings follower (tree.tokens spell)) →
    tree.updatesLast = true ∧ (tree.isPostfixUpdate = true → outer = true → follower = .rparen)

section Shows

variable {tree : Tree} {follower : TokenType} {outer : Bool} {allowed : Nat}

theorem closings_render (follower : TokenType) : closings follower (render spell allowed tree) =
    closings (if tree.level ≤ allowed then follower else .rparen) (tree.tokens spell) := by
  rw [render, parenthesize]
  split
  · rfl
  · rw [closings_cons (by decide), closings_append, closings_cons (by decide), closings_nil, List.append_nil]
    rfl

theorem Shows.render_length (h : Shows spell tree) :
    (tree.applied outer).length = (closings follower (render spell allowed tree)).length := by
  rw [closings_render]
  exact h.length outer _

theorem Shows.operand (h : Shows spell tree) (hunder : Under (tree.applied outer) (closings follower (render spell allowed tree))) :
    tree.updatesLast = true := by
  rw [closings_render] at hunder
  exact (h.under outer _ hunder).1

/-- The operand of a postfix operator that is not a parenthesis that closes. -/
theorem Shows.applied (h : Shows spell tree) (hunder : Under (tree.applied true) (closings follower (render spell 0 tree)))
    (hfollower : follower ≠ .rparen) : tree.updatesLast = true ∧ tree.isPostfixUpdate = false := by
  rw [closings_render] at hunder
  obtain ⟨hlast, hclosed⟩ := h.under true _ hunder
  refine ⟨hlast, Bool.eq_false_iff.mpr fun hupdate => ?_⟩
  have hlevel : tree.level ≤ 0 := by
    cases tree with
    | update operation target value isPostfix =>
        simp only [isPostfixUpdate] at hupdate
        simp [Tree.level, hupdate]
    | _ => cases hupdate
  rw [if_pos hlevel] at hclosed
  exact hfollower (hclosed hupdate rfl)

/-- A tree that is not a postfix update, by its operands. -/
theorem shows_of_same (hupdate : tree.isPostfixUpdate = false) (happlied : ∀ outer, tree.applied outer = tree.applied false)
    (hlength : ∀ follower, (tree.applied false).length = (closings follower (tree.tokens spell)).length)
    (hunder : ∀ follower, Under (tree.applied false) (closings follower (tree.tokens spell)) → tree.updatesLast = true) :
    Shows spell tree where
  length outer follower := by rw [happlied, hlength]
  under outer follower h := by
    rw [happlied] at h
    exact ⟨hunder follower h, by simp [hupdate]⟩

end Shows

section Operands

/-- A tree of two operands. -/
theorem shows_operands (follower : TokenType) (allowed allowed' : Nat) (outer : Bool) {left right : Tree} {token : Token} (hl : Shows spell left) (hr : Shows spell right)
    (htoken : token.type ∉ updates) {more : List Token} (hmore : Plain more) :
    (left.applied outer ++ right.applied false).length =
      (closings follower (render spell allowed left ++ token :: (render spell allowed' right ++ more))).length ∧
    (Under (left.applied outer ++ right.applied false)
        (closings follower (render spell allowed left ++ token :: (render spell allowed' right ++ more))) →
      Under (left.applied outer) (closings token.type (render spell allowed left)) ∧ right.updatesLast = true) := by
  rw [closings_append, closings_cons htoken, closings_append, closings_plain hmore, List.append_nil, nextOr]
  have hlength : (left.applied outer).length = (closings token.type (render spell allowed left)).length := hl.render_length
  refine ⟨?_, fun hunder => ?_⟩
  · rw [List.length_append, List.length_append, hlength, hr.render_length]
  · obtain ⟨hleft, hright⟩ := hunder.split hlength
    exact ⟨hleft, hr.operand hright⟩

/-- An operator between two operands. -/
theorem shows_infix (allowed allowed' : Nat) {tree left right : Tree} {token : Token} (hl : Shows spell left) (hr : Shows spell right)
    (htoken : token.type ∉ updates) (htokens : tree.tokens spell = render spell allowed left ++ token :: render spell allowed' right)
    (hupdate : tree.isPostfixUpdate = false) (happlied : ∀ outer, tree.applied outer = left.applied false ++ right.applied false)
    (hlast : tree.updatesLast = (left.updatesLast && right.updatesLast)) : Shows spell tree := by
  have hparts : ∀ follower, _ := fun follower => shows_operands follower allowed allowed' false hl hr htoken plain_nil
  simp only [List.append_nil, ← htokens, ← happlied false] at hparts
  refine shows_of_same hupdate (fun outer => by rw [happlied, happlied]) (fun follower => (hparts follower).1) fun follower hunder => ?_
  obtain ⟨hleft, hright⟩ := (hparts follower).2 hunder
  rw [hlast, hl.operand hleft, hright]
  rfl

/-- One operand, behind tokens that are no updates. -/
theorem shows_behind (allowed : Nat) {tree right : Tree} {before : List Token} (hr : Shows spell right) (hbefore : Plain before)
    (htokens : tree.tokens spell = before ++ render spell allowed right)
    (hupdate : tree.isPostfixUpdate = false) (happlied : ∀ outer, tree.applied outer = right.applied false)
    (hlast : tree.updatesLast = right.updatesLast) : Shows spell tree := by
  have hclosings : ∀ follower, closings follower (tree.tokens spell) = closings follower (render spell allowed right) := by
    intro follower
    rw [htokens, closings_append, closings_plain hbefore, List.nil_append]
  refine shows_of_same hupdate (fun outer => by rw [happlied, happlied]) (fun follower => ?_) fun follower hunder => ?_
  · rw [hclosings, happlied]
    exact hr.render_length
  · rw [hclosings, happlied] at hunder
    rw [hlast]
    exact hr.operand hunder

theorem shows_moreTokens (follower : TokenType) {arguments : List Tree} (h : ∀ argument ∈ arguments, Shows spell argument) :
    (Tree.allApplied arguments).length = (closings follower (moreTokens spell arguments)).length ∧
    (Under (Tree.allApplied arguments) (closings follower (moreTokens spell arguments)) → Tree.allUpdatesLast arguments = true) := by
  induction arguments with
  | nil => exact ⟨rfl, fun _ => rfl⟩
  | cons argument arguments ih =>
      have hargument := h argument List.mem_cons_self
      obtain ⟨hmore, hlast⟩ := ih fun other hother => h other (List.mem_cons_of_mem _ hother)
      rw [moreTokens, closings_cons (by decide), closings_append, Tree.allApplied]
      have hlength : (argument.applied false).length =
          (closings (nextOr follower (moreTokens spell arguments)) (render spell 12 argument)).length := hargument.render_length
      refine ⟨?_, fun hunder => ?_⟩
      · rw [List.length_append, List.length_append, hmore]
        exact congrArg (· + _) hlength
      · obtain ⟨hfirst, hrest⟩ := hunder.split hlength
        rw [Tree.allUpdatesLast, hargument.operand hfirst, hlast hrest]
        rfl

end Operands

theorem plain_token {token : Token} (h : token.type ∉ updates) : Plain [token] := plain_cons h plain_nil

theorem Expressible.shows {tree : Tree} (h : Expressible aliases spell tree) : Shows spell tree := by
  induction h with
  | string lexeme => exact shows_of_same rfl (fun _ => rfl) (fun _ => by simp [Tree.applied, Tree.tokens, closings, updates]) fun _ _ => rfl
  | literal type lexeme htype =>
      have hplain : type ∉ updates :=
        (by decide : ∀ type ∈ [TokenType.literalCharacter, .literalInteger, .keywordTrue, .keywordFalse], type ∉ updates) _ htype
      exact shows_of_same rfl (fun _ => rfl) (fun _ => by simp [Tree.applied, Tree.tokens, closings, hplain]) fun _ _ => rfl
  | null => exact shows_of_same rfl (fun _ => rfl) (fun _ => by simp [Tree.applied, Tree.tokens, closings, updates]) fun _ _ => rfl
  | identifier name _ =>
      exact shows_of_same rfl (fun _ => rfl) (fun _ => by simp [Tree.applied, Tree.tokens, closings, updates]) fun _ _ => rfl
  | plotCoordinate isY =>
      exact shows_of_same rfl (fun _ => rfl) (fun _ => by simp [Tree.applied, Tree.tokens, closings, updates]) fun _ _ => rfl
  | @assign target value _ _ iht ihv =>
      have hplain : (⟨.equal, "="⟩ : Token).type ∉ updates := by decide
      exact shows_infix 11 12 iht ihv hplain rfl rfl (fun _ => rfl) rfl
  | @compound operation target value hoperation _ _ iht ihv =>
      have hplain : (⟨operation, ""⟩ : Token).type ∉ updates :=
        (by decide : ∀ type ∈ updateOperators, type ∉ updates) _ hoperation
      refine shows_infix 11 12 iht ihv hplain ?_ rfl (fun _ => ?_) ?_
      · rw [Tree.tokens, if_neg (by simp), if_neg hplain]
        rfl
      · rw [Tree.applied, if_neg (by simp), if_neg hplain]
      · simp [Tree.updatesLast]
  | @update operation target isPostfix hoperation _ iht =>
      have hupdate : (⟨operation, ""⟩ : Token).type ∈ updates := hoperation
      cases isPostfix with
      | true =>
          have hclosings : ∀ follower, closings follower ((Tree.update operation target one true).tokens spell) =
              closings operation (render spell 0 target) ++ [decide (follower = .rparen)] := by
            intro follower
            rw [Tree.tokens, if_pos rfl, closings_append, closings_update hupdate, closings_nil]
            rfl
          have happlied : ∀ outer, (Tree.update operation target one true).applied outer = target.applied true ++ [outer] := by
            intro outer
            rw [Tree.applied, if_pos rfl]
          refine ⟨fun outer follower => ?_, fun outer follower hunder => ?_⟩
          · rw [hclosings, happlied, List.length_append, List.length_append, iht.render_length]
            rfl
          · rw [hclosings, happlied] at hunder
            obtain ⟨htarget, hlast⟩ := hunder.split iht.render_length
            have hoperand := iht.applied htarget ((by decide : ∀ type ∈ updates, type ≠ .rparen) _ hoperation)
            refine ⟨by simp [Tree.updatesLast, hoperand, one], fun _ houter => ?_⟩
            cases hlast with
            | cons hhead _ => exact of_decide_eq_true (hhead houter)
      | false =>
          have happlied : ∀ outer, (Tree.update operation target one false).applied outer = false :: target.applied false := by
            intro outer
            rw [Tree.applied, if_neg (by simp), if_pos hoperation]
          have hclosings : ∀ follower, closings follower ((Tree.update operation target one false).tokens spell) =
              decide (nextOr follower (render spell 1 target) = .rparen) :: closings follower (render spell 1 target) := by
            intro follower
            rw [Tree.tokens, if_neg (by simp), if_pos hoperation, closings_update hupdate]
            rfl
          refine shows_of_same rfl (fun outer => by rw [happlied, happlied]) (fun follower => ?_) fun follower hunder => ?_
          · rw [hclosings, happlied, List.length_cons, List.length_cons, iht.render_length]
          · rw [hclosings, happlied] at hunder
            cases hunder with
            | cons _ htarget => simp [Tree.updatesLast, iht.operand htarget, one]
  | @binary operation left right hoperation _ _ ihl ihr =>
      have hplain : (⟨operation, ""⟩ : Token).type ∉ updates :=
        operatorsAt_plain hoperation operation ((mem_operatorsAt hoperation operation).mpr rfl)
      exact shows_infix _ _ ihl ihr hplain rfl rfl (fun _ => rfl) rfl
  | @unary operation right hoperation _ ihr =>
      have hplain : (⟨operation, ""⟩ : Token).type ∉ updates :=
        (by decide : ∀ type ∈ [TokenType.minus, .bang, .tilde], type ∉ updates) _ hoperation
      exact shows_behind 1 ihr (plain_token hplain) rfl rfl (fun _ => rfl) rfl
  | @addressOf right _ ihr =>
      have hplain : (⟨.ampersand, "&"⟩ : Token).type ∉ updates := by decide
      exact shows_behind 1 ihr (plain_token hplain) rfl rfl (fun _ => rfl) rfl
  | @dereference right _ ihr =>
      have hplain : (⟨.star, "*"⟩ : Token).type ∉ updates := by decide
      exact shows_behind 1 ihr (plain_token hplain) rfl rfl (fun _ => rfl) rfl
  | @subscript array index _ _ iha ihi =>
      have hopening : (⟨.lbracket, "["⟩ : Token).type ∉ updates := by decide
      have hclosing : (⟨.rbracket, "]"⟩ : Token).type ∉ updates := by decide
      have hparts := fun follower => shows_operands follower 0 12 true iha ihi hopening (plain_token hclosing)
      refine shows_of_same rfl (fun _ => rfl) (fun follower => (hparts follower).1) fun follower hunder => ?_
      obtain ⟨harray, hindex⟩ := (hparts follower).2 hunder
      have hoperand := iha.applied harray (by decide)
      simp [Tree.updatesLast, hoperand, hindex]
  | @memberAccess object member throughPointer _ iho =>
      have hplain : Plain [⟨if throughPointer = true then .arrow else .dot, ""⟩, (⟨.identifier, member⟩ : Token)] := by
        cases throughPointer <;> exact plain_cons (by simp [updates]) (plain_token (by simp [updates]))
      have hclosings : ∀ follower, closings follower ((Tree.memberAccess object member throughPointer).tokens spell) =
          closings (if throughPointer = true then .arrow else .dot) (render spell 0 object) := by
        intro follower
        rw [Tree.tokens, closings_append, closings_plain hplain, List.append_nil]
        rfl
      refine shows_of_same rfl (fun _ => rfl) (fun follower => ?_) fun follower hunder => ?_
      · rw [hclosings, Tree.applied]
        exact iho.render_length
      · rw [hclosings, Tree.applied] at hunder
        have hoperand := iho.applied hunder (by cases throughPointer <;> decide)
        simp [Tree.updatesLast, hoperand]
  | @call callee arguments _ _ ihc iha =>
      have hparenthesis : (⟨.lparen, "("⟩ : Token).type ∉ updates := by decide
      cases arguments with
      | nil =>
          have hplain : Plain [(⟨.lparen, "("⟩ : Token), ⟨.rparen, ")"⟩] := plain_cons hparenthesis (plain_token (by decide))
          have hclosings : ∀ follower, closings follower ((Tree.call callee []).tokens spell) =
              closings .lparen (render spell 0 callee) := by
            intro follower
            rw [Tree.tokens, closings_append, closings_plain hplain, List.append_nil]
            rfl
          refine shows_of_same rfl (fun _ => rfl) (fun follower => ?_) fun follower hunder => ?_
          · rw [hclosings, Tree.applied, allApplied, List.append_nil]
            exact ihc.render_length
          · rw [hclosings, Tree.applied, allApplied, List.append_nil] at hunder
            have hoperand := ihc.applied hunder (by decide)
            simp [Tree.updatesLast, allUpdatesLast, hoperand]
      | cons first arguments =>
          have hclosing : Plain [(⟨.rparen, ")"⟩ : Token)] := plain_token (by decide)
          have hfirst := iha first List.mem_cons_self
          have hclosings : ∀ follower, closings follower ((Tree.call callee (first :: arguments)).tokens spell) =
              closings .lparen (render spell 0 callee) ++
                (closings (nextOr .rparen (moreTokens spell arguments)) (render spell 12 first) ++
                  closings .rparen (moreTokens spell arguments)) := by
            intro follower
            have hnext : nextOr follower (moreTokens spell arguments ++ [⟨.rparen, ")"⟩]) =
                nextOr .rparen (moreTokens spell arguments) := by
              cases arguments <;> rfl
            rw [Tree.tokens, closings_append, closings_cons hparenthesis, closings_append, hnext, closings_append,
              closings_plain hclosing, List.append_nil]
            rfl
          obtain ⟨hmore, hmoreLast⟩ := shows_moreTokens .rparen fun argument hmem => iha argument (List.mem_cons_of_mem _ hmem)
          refine shows_of_same rfl (fun _ => rfl) (fun follower => ?_) fun follower hunder => ?_
          · rw [hclosings, Tree.applied, allApplied]
            simp only [List.length_append]
            rw [hmore, ← hfirst.render_length, ← ihc.render_length]
          · rw [hclosings, Tree.applied, allApplied] at hunder
            obtain ⟨hcallee, hrest⟩ := hunder.split ihc.render_length
            obtain ⟨hargument, hrest⟩ := hrest.split hfirst.render_length
            have hoperand := ihc.applied hcallee (by decide)
            simp [Tree.updatesLast, allUpdatesLast, hoperand, hfirst.operand hargument, hmoreLast hrest]
  | @cast type expression htype _ ihe =>
      have hplain : Plain (⟨.lparen, "("⟩ :: (spell type ++ [⟨.rparen, ")"⟩])) :=
        plain_cons (by decide) (htype.plain.append (plain_token (by decide)))
      refine shows_behind 1 ihe hplain ?_ rfl (fun _ => rfl) rfl
      simp only [Tree.tokens, render, List.cons_append, List.append_assoc, List.nil_append]

/-! ## The grammar -/

/-- Whatever the tokens, the parser ends in a tree or in a diagnostic; and a tree of the
table's operators that fits the limits is read back from its tokens if and only if no
postfix operator applies to an increment or decrement behind its operand. -/
theorem parseExpression_iff (aliases : Aliases) (spell : Ty → List Token) :
    (∀ tokens, parseExpression aliases tokens ≠ .error .unfinished) ∧
    ∀ tree, Expressible aliases spell tree → tree.nests + 2 ≤ maxNesting → tree.depth ≤ Tree.maxDepth →
      (parseExpression aliases (render spell 12 tree) = .ok (tree, []) ↔ tree.updatesLast = true) := by
  refine ⟨fun tokens => (parseExpression_reaches aliases tokens).finished, fun tree htree hnests hdepth => ⟨fun hparse => ?_, fun hlast => ?_⟩⟩
  · obtain ⟨used, hused, hmarked⟩ := (parseExpression_reaches aliases _).consumed _ _ hparse
    rw [List.append_nil] at hused
    subst hused
    exact htree.shows.operand (hmarked.inner .endOfFile)
  · have hreads := (htree.readable hdepth hlast).reads 126 12 (Nat.le_refl _) (by
      rw [enclose, if_pos htree.level_le]
      simp only [maxNesting] at hnests
      omega)
    have hread := hreads [] (show 12 < binding .endOfFile by decide)
    rwa [List.append_nil] at hread

/-- `x = (word)y[i] + -z++` is read back. -/
theorem parseExpression_iff_cast :
    let tree := Tree.assign (.identifier "x") (.binary .plus
      (.cast { base := .word, space := .ram } (.subscript (.identifier "y") (.identifier "i")))
      (.unary .minus (.update .plusPlus (.identifier "z") one true)))
    parseExpression [] (render (fun _ => [⟨.keywordWord, "word"⟩]) 12 tree) = .ok (tree, []) := by
  have hname : ∀ name, Expressible [] (fun _ => [⟨.keywordWord, "word"⟩]) (.identifier name) := fun name => .identifier name rfl
  have hcast := ((hname "y").subscript (hname "i")).cast (spells_word [])
  have hstep : Expressible [] _ (.update .plusPlus (.identifier "z") one true) := (hname "z").update true (by decide)
  have hminus : Expressible [] _ (.unary .minus (.update .plusPlus (.identifier "z") one true)) := hstep.unary (by decide)
  have hsum : Expressible [] _ (.binary .plus _ (.unary .minus _)) := hcast.binary (by decide) hminus
  exact ((parseExpression_iff [] _).2 _ ((hname "x").assign hsum) (by decide) (by decide)).mpr rfl

/-- A member behind an increment, as in `p++->x`. -/
def advancedMember : Tree := .memberAccess (.update .plusPlus (.identifier "p") one true) "x" true

/-- The increment ends the postfix operators: the member is left over. -/
theorem parseExpression_advancedMember :
    Expressible [] (fun _ => []) advancedMember ∧ advancedMember.nests + 2 ≤ maxNesting ∧ advancedMember.depth ≤ Tree.maxDepth ∧
    render (fun _ => []) 12 advancedMember =
      [⟨.identifier, "p"⟩, ⟨.plusPlus, ""⟩, ⟨.arrow, ""⟩, ⟨.identifier, "x"⟩] ∧
    parseExpression [] (render (fun _ => []) 12 advancedMember) =
      .ok (.update .plusPlus (.identifier "p") one true, [⟨.arrow, ""⟩, ⟨.identifier, "x"⟩]) ∧
    parseExpression [] (render (fun _ => []) 12 advancedMember) ≠ .ok (advancedMember, []) := by
  have hp : Expressible [] (fun _ => []) (.identifier "p") := .identifier "p" rfl
  have hparse : parseExpression [] (render (fun _ => []) 12 advancedMember) =
      .ok (.update .plusPlus (.identifier "p") one true, [⟨.arrow, ""⟩, ⟨.identifier, "x"⟩]) := rfl
  refine ⟨(hp.update true (by decide)).memberAccess "x" true, by decide, by decide, rfl, hparse, ?_⟩
  rw [hparse]
  intro heq
  cases heq

end Disco.Frontend.Parser
