import Disco.Frontend.Analyzer

/-! # What typing establishes

A typed expression computes with values that fit their types. The exception is a
literal where a `bool` is wanted: it becomes a signed word without a look at its
size.
-/

namespace Disco.Frontend

open IR Library Analyzer ConstantEvaluator
open ScalarFold (scalar truth)

/-- A note repeats what evaluation gives. -/
def NotedBy (note : Note) (fresh : Except String (Option Int)) : Prop :=
  note.isConstant = true → fresh = .ok (some note.constantValue)

theorem NotedBy.eq {note : Note} {fresh : Except String (Option Int)} (h : NotedBy note fresh) :
    noted note fresh = fresh := by
  unfold noted
  split
  · rename_i hnote
    exact (h hnote).symm
  · rfl

/-- The literal fits its type. -/
def Tight : Expr → Prop
  | .literal note kind lexeme => ∀ v, literalValue kind lexeme = some v → convert v note.resultType = v
  | _ => True

def fitsNote (note : Note) : Prop := convert note.constantValue note.resultType = note.constantValue

/-- The evaluation of a node whose own note is ignored. -/
def fresh : Expr → Except String (Option Int)
  | .literal _ kind lexeme => .ok (literalValue kind lexeme)
  | .cast note _ expression => do
      match ← evaluate expression with
      | none => pure none
      | some value => pure (some (convert value note.resultType))
  | .unary note operation right => do
      match ← evaluate right with
      | none => pure none
      | some value => pure (some (convert (negate operation value) note.resultType))
  | .binary note operation left right => do
      match ← evaluate left with
      | none => pure none
      | some a =>
          if operation = .andAnd ∧ a = 0 then pure (some 0)
          else if operation = .orOr ∧ a ≠ 0 then pure (some 1)
          else do
            match ← evaluate right with
            | none => pure none
            | some b => do
                let value ← operate operation a b
                pure (some (convert value note.resultType))
  | _ => .ok none

/-- An integer literal behind a minus sign is one number. -/
def IsNegative (operation : UnaryOperator) (right : Expr) : Prop :=
  operation = .minus ∧ ∃ note lexeme, right = .literal note .integer lexeme

/-- What the analyzer establishes about an expression. -/
def Typed : Expr → Prop
  | .literal note kind lexeme => scalar note.resultType = true ∧ NotedBy note (.ok (literalValue kind lexeme)) ∧
      ∃ v, literalValue kind lexeme = some v ∧
        (convert v note.resultType = v ∨ note.resultType = wordType false)
  | .named note _ _ _ => note.isConstant = true → scalar note.resultType = true ∧ fitsNote note
  | .layoutType note _ _ _ => note.isConstant = true ∧ scalar note.resultType = true ∧ fitsNote note
  | .layoutObject note _ _ => note.isConstant = true ∧ scalar note.resultType = true ∧ fitsNote note
  | .cast note target expression => scalar note.resultType = true ∧ scalar expression.resultType = true ∧
      Typed expression ∧ Tight expression ∧ NotedBy note (fresh (.cast note target expression))
  | .unary note operation right => scalar note.resultType = true ∧ scalar right.resultType = true ∧
      Typed right ∧ NotedBy note (fresh (.unary note operation right)) ∧
      (IsNegative operation right ∨ (operation = .bang ∧ Tight right) ∨
        (operation ≠ .bang ∧ note.resultType = right.resultType))
  | .binary note operation left right => scalar note.resultType = true ∧ scalar left.resultType = true ∧
      scalar right.resultType = true ∧ Typed left ∧ Typed right ∧ Tight left ∧ Tight right ∧
      NotedBy note (fresh (.binary note operation left right)) ∧
      (operation = .andAnd ∨ operation = .orOr → note.resultType = boolean.type)

theorem Typed.evaluate_cast {note : Note} {target : PlainType} {e : Expr} (h : Typed (.cast note target e)) :
    evaluate (.cast note target e) = fresh (.cast note target e) :=
  NotedBy.eq h.2.2.2.2

theorem Typed.evaluate_unary {note : Note} {operation : UnaryOperator} {right : Expr}
    (h : Typed (.unary note operation right)) :
    evaluate (.unary note operation right) = fresh (.unary note operation right) :=
  NotedBy.eq h.2.2.2.1

theorem pointerLevel_of_scalar {type : Ty} (h : scalar type = true) : type.pointerLevel = 0 := by
  unfold scalar at h
  simp only [Bool.and_eq_true, decide_eq_true_eq] at h
  exact h.1.1

theorem evaluate_binary_of_noted {note : Note} {operation : BinaryOperator} {left right : Expr}
    (hlevel : note.resultType.pointerLevel = 0)
    (h : NotedBy note (fresh (.binary note operation left right))) :
    evaluate (.binary note operation left right) = fresh (.binary note operation left right) := by
  have hunfold : evaluate (.binary note operation left right) =
      noted note (fresh (.binary note operation left right)) := by
    rw [evaluate, if_neg (by omega)]
    rfl
  rw [hunfold, h.eq]

theorem Typed.evaluate_binary {note : Note} {operation : BinaryOperator} {left right : Expr}
    (h : Typed (.binary note operation left right)) :
    evaluate (.binary note operation left right) = fresh (.binary note operation left right) :=
  evaluate_binary_of_noted (pointerLevel_of_scalar h.1) h.2.2.2.2.2.2.2.1

theorem convert_truth {condition : Bool} {type : Ty} (hlevel : type.pointerLevel = 0) (hbase : type.base = .bool) :
    convert (truth condition) type = truth condition := by
  unfold convert
  rw [if_neg (by omega), if_pos hbase]
  cases condition <;> rfl

/-- The value of an expression fits its type. -/
theorem Typed.fits {e : Expr} (h : Typed e) (ht : Tight e) {v : Int} (hv : evaluate e = .ok (some v)) :
    convert v e.resultType = v := by
  cases e with
  | literal note kind lexeme =>
      apply ht
      rw [evaluate, h.2.1.eq] at hv
      exact Except.ok.inj hv
  | named note name symbolId storage =>
      unfold evaluate noted at hv
      split at hv
      · rename_i hconst
        cases hv
        exact (h hconst).2
      · cases hv
  | layoutType note query type member =>
      unfold evaluate noted at hv
      rw [if_pos h.1] at hv
      cases hv
      exact h.2.2
  | layoutObject note query object =>
      unfold evaluate noted at hv
      rw [if_pos h.1] at hv
      cases hv
      exact h.2.2
  | cast note target expression =>
      rw [h.evaluate_cast] at hv
      unfold fresh at hv
      obtain ⟨r, -, hv⟩ := bind_eq_ok.mp hv
      cases r with
      | none => cases hv
      | some a =>
          cases hv
          exact convert_convert _ _
  | unary note operation right =>
      rw [h.evaluate_unary] at hv
      unfold fresh at hv
      obtain ⟨r, -, hv⟩ := bind_eq_ok.mp hv
      cases r with
      | none => cases hv
      | some a =>
          cases hv
          exact convert_convert _ _
  | binary note operation left right =>
      rw [h.evaluate_binary] at hv
      unfold fresh at hv
      obtain ⟨r, -, hv⟩ := bind_eq_ok.mp hv
      cases r with
      | none => cases hv
      | some a =>
          dsimp only at hv
          have hboolean := h.2.2.2.2.2.2.2.2
          split at hv
          · rename_i hand
            cases hv
            change convert 0 note.resultType = 0
            rw [hboolean (.inl hand.1)]
            rfl
          · split at hv
            · rename_i hor
              cases hv
              change convert 1 note.resultType = 1
              rw [hboolean (.inr hor.1)]
              rfl
            · obtain ⟨r', -, hv⟩ := bind_eq_ok.mp hv
              cases r' with
              | none => cases hv
              | some b =>
                  obtain ⟨value, -, hv⟩ := bind_eq_ok.mp hv
                  cases hv
                  exact convert_convert _ _

/-! ## Notes -/

theorem finish_typed {e t : Expr} (h : Typed e) (hfinish : finish e = .ok t) :
    Typed t ∧ t.resultType = e.resultType ∧ (Tight e → Tight t) := by
  unfold finish at hfinish
  split at hfinish
  · cases hfinish
    exact ⟨h, rfl, id⟩
  · obtain ⟨r, hr, hfinish⟩ := bind_eq_ok.mp hfinish
    cases r with
    | none =>
        cases hfinish
        exact ⟨h, rfl, id⟩
    | some v =>
        cases hfinish
        cases e with
        | literal note kind lexeme =>
            rw [evaluate, h.2.1.eq] at hr
            exact ⟨⟨h.1, fun _ => hr, h.2.2⟩, rfl, id⟩
        | named note name symbolId storage =>
            unfold evaluate noted at hr
            split at hr
            · rename_i hconst
              cases hr
              exact ⟨fun _ => h hconst, rfl, id⟩
            · cases hr
        | layoutType note query type member =>
            unfold evaluate noted at hr
            rw [if_pos h.1] at hr
            cases hr
            exact ⟨⟨rfl, h.2⟩, rfl, id⟩
        | layoutObject note query object =>
            unfold evaluate noted at hr
            rw [if_pos h.1] at hr
            cases hr
            exact ⟨⟨rfl, h.2⟩, rfl, id⟩
        | cast note target expression =>
            rw [h.evaluate_cast] at hr
            exact ⟨⟨h.1, h.2.1, h.2.2.1, h.2.2.2.1, fun _ => hr⟩, rfl, id⟩
        | unary note operation right =>
            rw [h.evaluate_unary] at hr
            exact ⟨⟨h.1, h.2.1, h.2.2.1, fun _ => hr, h.2.2.2.2⟩, rfl, id⟩
        | binary note operation left right =>
            rw [h.evaluate_binary] at hr
            rcases h with ⟨hs, hl, hr', htl, htr, htil, htir, -, hboolean⟩
            exact ⟨⟨hs, hl, hr', htl, htr, htil, htir, fun _ => hr, hboolean⟩, rfl, id⟩

/-! ## Conversions -/

theorem scalar_iff {type : Ty} : scalar type = true ↔ type.pointerLevel = 0 ∧ type.arraySize = 0 ∧
    (type.base = .byte ∨ type.base = .word ∨ type.base = .bool) := by
  unfold scalar
  simp only [Bool.and_eq_true, decide_eq_true_eq, and_assoc]

theorem sameType_fields {left right : Ty} (h : sameType left right = true) : left.base = right.base ∧
    left.isUnsigned = right.isUnsigned ∧ left.pointerLevel = right.pointerLevel ∧ left.arraySize = right.arraySize := by
  unfold sameType at h
  simp only [Bool.and_eq_true, decide_eq_true_eq] at h
  rcases h with ⟨⟨⟨⟨⟨⟨hbase, -⟩, hsign⟩, hlevel⟩, -⟩, hextent⟩, -⟩
  exact ⟨hbase, hsign, hlevel, hextent⟩

theorem convert_of_sameType {left right : Ty} (h : sameType left right = true) (value : Int) :
    convert value left = convert value right := by
  rcases sameType_fields h with ⟨hbase, hsign, hlevel, -⟩
  simp only [convert, hbase, hsign, hlevel]

theorem scalar_of_sameType {left right : Ty} (h : sameType left right = true) (hs : scalar right = true) :
    scalar left = true := by
  rcases sameType_fields h with ⟨hbase, -, hlevel, hextent⟩
  rw [scalar_iff] at hs ⊢
  rw [hbase, hlevel, hextent]
  exact hs

/-- Only numbers and truth values convert by themselves. -/
theorem scalar_of_canImplicitlyConvert {source target : Ty} (hs : scalar target = true)
    (h : canImplicitlyConvert source target = true) : scalar source = true := by
  unfold canImplicitlyConvert at h
  rw [Bool.or_eq_true] at h
  rcases h with hsame | h
  · exact scalar_of_sameType hsame hs
  · simp only [Bool.and_eq_true, Bool.or_eq_true, decide_eq_true_eq] at h
    rw [scalar_iff] at hs ⊢
    rcases h with ⟨⟨⟨⟨⟨hlevel, -⟩, -⟩, -⟩, hextent⟩, hbase⟩
    refine ⟨hlevel, hextent.trans hs.2.1, ?_⟩
    rcases hbase with (⟨-, hbase⟩ | ⟨hbase, -⟩) | ⟨⟨-, hbase⟩, -⟩
    · exact hbase.elim .inl fun hword => .inr (.inl hword)
    · exact .inr (.inr hbase)
    · exact .inl hbase

/-- A conversion leaves an expression as it is or puts a cast around it. -/
theorem coerceExpr_cases {e t : Expr} {target : PlainType} (h : coerceExpr e target = .ok t) :
    (t = e ∧ sameType e.resultType target.type = true) ∨
      (t = .cast { resultType := target.type } target e ∧
        canImplicitlyConvert e.resultType target.type = true) := by
  unfold coerceExpr at h
  split at h
  · rename_i hsame
    cases h
    exact .inl ⟨rfl, hsame⟩
  · split at h
    · cases h
    · rename_i hconvert
      cases h
      exact .inr ⟨rfl, by simpa using hconvert⟩

theorem coerceExpr_typed {e t : Expr} {target : PlainType} (hs : scalar target.type = true) (he : Typed e)
    (htight : Tight e) (h : coerceExpr e target = .ok t) :
    Typed t ∧ Tight t ∧ scalar t.resultType = true := by
  rcases coerceExpr_cases h with ⟨rfl, hsame⟩ | ⟨rfl, hconvert⟩
  · exact ⟨he, htight, scalar_of_sameType hsame hs⟩
  · have hsource := scalar_of_canImplicitlyConvert hs hconvert
    exact ⟨⟨hs, hsource, he, htight, fun hnote => by cases hnote⟩, trivial, hs⟩

/-! ## Leaves -/

theorem wrap_of_unsigned {modulus v : Int} (h : 0 ≤ v ∧ v < modulus) : wrap modulus true v = v := by
  unfold wrap
  simp [Int.emod_eq_of_lt h.1 h.2]

theorem wrap_of_signed {modulus v : Int} (hpos : 0 < modulus) (hlow : -modulus ≤ 2 * v) (hhigh : 2 * v < modulus)
    (heven : modulus % 2 = 0) : wrap modulus false v = v := by
  unfold wrap
  by_cases hsign : 0 ≤ v
  · rw [Int.emod_eq_of_lt hsign (by omega)]
    simp only [true_and]
    rw [if_neg (by omega)]
  · have hbits : v % modulus = v + modulus := by
      rw [← Int.add_emod_right, Int.emod_eq_of_lt (by omega) (by omega)]
    rw [hbits]
    simp only [true_and]
    rw [if_pos (by omega)]
    omega

theorem convert_word {type : Ty} {v : Int} (hlevel : type.pointerLevel = 0) (hbase : type.base = .word)
    (h : if type.isUnsigned then 0 ≤ v ∧ v ≤ 65535 else -32768 ≤ v ∧ v ≤ 32767) : convert v type = v := by
  unfold convert
  rw [if_neg (by omega), if_neg (by simp [hbase]), if_neg (by simp [hbase])]
  cases hsign : type.isUnsigned with
  | false =>
      simp only [hsign, if_false, Bool.false_eq_true] at h
      exact wrap_of_signed (by norm_num) (by omega) (by omega) (by norm_num)
  | true =>
      simp only [hsign, if_true] at h
      exact wrap_of_unsigned (by omega)

theorem convert_byte {type : Ty} {v : Int} (hlevel : type.pointerLevel = 0) (hbase : type.base = .byte)
    (h : if type.isUnsigned then 0 ≤ v ∧ v ≤ 255 else -128 ≤ v ∧ v ≤ 127) : convert v type = v := by
  unfold convert
  rw [if_neg (by omega), if_neg (by simp [hbase]), if_pos hbase]
  cases hsign : type.isUnsigned with
  | false =>
      simp only [hsign, if_false, Bool.false_eq_true] at h
      exact wrap_of_signed (by norm_num) (by omega) (by omega) (by norm_num)
  | true =>
      simp only [hsign, if_true] at h
      exact wrap_of_unsigned (by omega)

/-- A context is the type of a number or a truth value. -/
def ScalarContext (context : Option PlainType) : Prop := ∀ wanted, context = some wanted → scalar wanted.type = true

/-- No truth value is wanted. -/
def Counts (context : Option PlainType) : Prop := ∀ wanted, context = some wanted → wanted.type.base ≠ .bool

theorem literalType_fits {value : Int} {context : Option PlainType} {type : Ty} (hcontext : ScalarContext context)
    (h : literalType value context = .ok type) :
    scalar type = true ∧ (convert value type = value ∨ type = wordType false) ∧
      (Counts context → convert value type = value) := by
  unfold literalType at h
  cases context with
  | none =>
      dsimp only at h
      have hfits : scalar type = true ∧ convert value type = value := by
        split at h
        · cases h
          exact ⟨rfl, convert_byte rfl rfl (by simp [byteType]; omega)⟩
        · split at h
          · cases h
            exact ⟨rfl, convert_byte rfl rfl (by simp [byteType]; omega)⟩
          · split at h
            · cases h
              exact ⟨rfl, convert_word rfl rfl (by simp [wordType]; omega)⟩
            · split at h
              · cases h
                exact ⟨rfl, convert_word rfl rfl (by simp [wordType]; omega)⟩
              · cases h
      exact ⟨hfits.1, .inl hfits.2, fun _ => hfits.2⟩
  | some wanted =>
      have hs := hcontext wanted rfl
      have hbase := (scalar_iff.mp hs).2.2
      simp only [rejectIf_bind_eq_ok, pure_eq_ok] at h
      rcases h with ⟨hub, hsb, huw, hsw, h⟩
      by_cases hbool : wanted.type.base = .bool
      · rw [if_pos hbool] at h
        subst h
        exact ⟨rfl, .inr rfl, fun hcounts => absurd hbool (hcounts wanted rfl)⟩
      · rw [if_neg hbool] at h
        subst h
        have hfits : convert value (valueType wanted.type) = value := by
          rcases hbase with hbyte | hword | hbase
          · apply convert_byte wanted.level hbyte
            change if wanted.type.isUnsigned then _ else _
            cases hsign : wanted.type.isUnsigned <;> simp [hbyte, hsign] at hub hsb ⊢ <;> omega
          · apply convert_word wanted.level hword
            change if wanted.type.isUnsigned then _ else _
            cases hsign : wanted.type.isUnsigned <;> simp [hword, hsign] at huw hsw ⊢ <;> omega
          · exact absurd hbase hbool
        exact ⟨hs, .inl hfits, fun _ => hfits⟩

theorem parseIntegerLiteral_ok {lexeme : Text} {value : Int} {kind : LiteralKind}
    (hkind : kind = .integer ∨ kind = .character) (h : parseIntegerLiteral lexeme = .ok value) :
    literalValue kind lexeme = some value := by
  unfold parseIntegerLiteral at h
  unfold literalValue
  rcases hkind with rfl | rfl <;> dsimp only <;>
  · split at h
    · cases h
    · rename_i parsed consumed hparse
      split at h
      · rename_i hall
        cases h
        simp [hparse, hall]
      · cases h

theorem visitLiteral_fits {kind : LiteralKind} {lexeme : Text} {context : Option PlainType} {type : Ty}
    (hcontext : ScalarContext context) (h : visitLiteral kind lexeme context = .ok type) :
    scalar type = true ∧ ∃ v, literalValue kind lexeme = some v ∧
      (convert v type = v ∨ type = wordType false) ∧ (Counts context → convert v type = v) := by
  unfold visitLiteral at h
  cases kind with
  | keywordTrue =>
      cases h
      exact ⟨rfl, 1, rfl, .inl rfl, fun _ => rfl⟩
  | keywordFalse =>
      cases h
      exact ⟨rfl, 0, rfl, .inl rfl, fun _ => rfl⟩
  | integer =>
      obtain ⟨v, hv, h⟩ := bind_eq_ok.mp h
      rcases literalType_fits hcontext h with ⟨hs, hfits, hcounts⟩
      exact ⟨hs, v, parseIntegerLiteral_ok (.inl rfl) hv, hfits, hcounts⟩
  | character =>
      obtain ⟨v, hv, h⟩ := bind_eq_ok.mp h
      rcases literalType_fits hcontext h with ⟨hs, hfits, hcounts⟩
      exact ⟨hs, v, parseIntegerLiteral_ok (.inr rfl) hv, hfits, hcounts⟩

theorem analyzeLiteral_typed {kind : LiteralKind} {lexeme : Text} {context : Option PlainType} {t : Expr}
    (hcontext : ScalarContext context) (h : analyzeLiteral kind lexeme context = .ok t) :
    Typed t ∧ scalar t.resultType = true ∧ (Counts context → Tight t) := by
  unfold analyzeLiteral at h
  obtain ⟨type, htype, h⟩ := bind_eq_ok.mp h
  rcases visitLiteral_fits hcontext htype with ⟨hs, v, hv, hfits, hcounts⟩
  have hliteral : Typed (.literal { resultType := type } kind lexeme) :=
    ⟨hs, fun hnote => absurd hnote Bool.false_ne_true, v, hv, hfits⟩
  rcases finish_typed hliteral h with ⟨ht, hresult, htight⟩
  refine ⟨ht, by rw [hresult]; exact hs, ?_⟩
  intro hcontext'
  apply htight
  intro w hw
  rw [hv] at hw
  cases hw
  exact hcounts hcontext'

/-! ## Declarations -/

/-- Named constants fit their types. -/
def Fits (env : Env) : Prop :=
  ∀ name symbol, env.values.lookup name = some symbol → symbol.type.type.base ≠ .none ∧
    ∀ v, symbol.constant = some v → scalar symbol.type.type = true ∧ convert v symbol.type.type = v

theorem layoutBytes_offset {env : Env} {type : Ty} {member : String} {value : Int}
    (h : layoutBytes env .offsetof type member = .ok value) : 0 ≤ value := by
  unfold layoutBytes at h
  dsimp only at h
  split at h
  · cases h
  · split at h
    · rename_i offset _
      cases h
      exact Int.natCast_nonneg offset
    · cases h

theorem layoutValue_range {env : Env} {query : LayoutOperator} {type : Ty} {member : String} {value : Int}
    (h : layoutValue env query type member = .ok value) : 0 ≤ value ∧ value ≤ 65535 := by
  unfold layoutValue at h
  obtain ⟨type', -, h⟩ := bind_eq_ok.mp h
  obtain ⟨v, hv, h⟩ := bind_eq_ok.mp h
  simp only [rejectIf_bind_eq_ok, pure_eq_ok] at h
  rcases h with ⟨hcomplete, hsize, rfl⟩
  have hlow : 0 ≤ v := by
    by_cases hquery : query = .offsetof
    · rw [hquery] at hv
      exact layoutBytes_offset hv
    · by_contra hneg
      exact hcomplete ⟨by omega, hquery⟩
  exact ⟨hlow, by omega⟩

theorem fitsNote_layout {value : Int} (h : 0 ≤ value ∧ value ≤ 65535) (isConstant : Bool) :
    fitsNote ⟨isConstant, value, wordType true⟩ :=
  convert_word rfl rfl h

theorem resolveEnum_plain {env : Env} {target : PlainType} {type : Ty} (h : resolveEnum env target.type = .ok type) :
    type.pointerLevel = 0 ∧ type.arraySize = 0 := by
  unfold resolveEnum at h
  split at h
  · cases h
    exact ⟨target.level, target.extent⟩
  · split at h
    · cases h
    · cases h
      exact ⟨target.level, target.extent⟩

/-- The type of a plain value. -/
def IsPlain (type : Ty) : Prop := type.pointerLevel = 0 ∧ type.arraySize = 0 ∧ type.base ≠ .none

theorem normalizeType_plain {env : Env} {target : PlainType} {type : Ty}
    (h : normalizeType env target.type = .ok type) : IsPlain type := by
  unfold normalizeType at h
  obtain ⟨named, hnamed, h⟩ := bind_eq_ok.mp h
  have hplain := resolveEnum_plain hnamed
  simp only [rejectIf_bind_eq_ok] at h
  rcases h with ⟨-, -, h⟩
  rw [if_neg (by omega)] at h
  split at h
  · rename_i hbase
    cases h
    exact ⟨hplain.1, hplain.2, by simp [hbase]⟩
  · rename_i hbase
    cases h
    exact ⟨hplain.1, hplain.2, by simp [hbase]⟩
  · rename_i hbase
    cases h
    exact ⟨hplain.1, hplain.2, by simp [hbase]⟩
  · rename_i hbase
    cases h
    exact ⟨hplain.1, hplain.2, by simp [hbase]⟩
  · rename_i hbase
    split at h
    · cases h
    · cases h
      exact ⟨hplain.1, hplain.2, by simp [hbase]⟩
  · cases h

/-- A named constant fits its type, whether it comes from an initializer or an enumeration. -/
theorem Fits.cons {env : Env} {name : String} {symbol : ValueSymbol} (h : Fits env)
    (hbase : symbol.type.type.base ≠ .none)
    (hsymbol : ∀ v, symbol.constant = some v → scalar symbol.type.type = true ∧ convert v symbol.type.type = v) :
    Fits { env with values := (name, symbol) :: env.values } := by
  intro other found hfound
  change List.lookup other ((name, symbol) :: env.values) = some found at hfound
  rw [List.lookup_cons] at hfound
  split at hfound
  · cases hfound
    exact ⟨hbase, hsymbol⟩
  · exact h other found hfound

/-! ## Operators -/

theorem IsPlain.of_scalar {type : Ty} (h : scalar type = true) : IsPlain type := by
  rcases scalar_iff.mp h with ⟨hlevel, hextent, hbase⟩
  refine ⟨hlevel, hextent, ?_⟩
  rcases hbase with hbase | hbase | hbase <;> simp [hbase]

theorem IsPlain.scalar_of_integer {type : Ty} (h : IsPlain type)
    (hbase : type.base = .byte ∨ type.base = .word ∨ type.base = .bool) : scalar type = true :=
  scalar_iff.mpr ⟨h.1, h.2.1, hbase⟩

/-- Values can be cast unless they are structs or nothing at all. -/
theorem IsPlain.scalar_of_castable {type : Ty} (h : IsPlain type) (hstruct : type.base ≠ .struct)
    (hvoid : type.base ≠ .void) : scalar type = true := by
  apply h.scalar_of_integer
  have hnone := h.2.2
  cases hbase : type.base <;> simp_all

/-- An operand: typed, within its type. -/
def Operable (e : Expr) : Prop := Typed e ∧ Tight e

theorem coerceExpr_operable {e t : Expr} {target : PlainType} (hs : scalar target.type = true) (he : Operable e)
    (h : coerceExpr e target = .ok t) : Operable t ∧ scalar t.resultType = true := by
  rcases coerceExpr_typed hs he.1 he.2 h with ⟨ht, htight, hscalar⟩
  exact ⟨⟨ht, htight⟩, hscalar⟩

theorem Typed.binary {operation : BinaryOperator} {left right : Expr} {type : Ty} (hs : scalar type = true)
    (hl : Operable left ∧ scalar left.resultType = true) (hr : Operable right ∧ scalar right.resultType = true)
    (hlogical : operation = .andAnd ∨ operation = .orOr → type = boolean.type) :
    Typed (.binary { resultType := type } operation left right) :=
  ⟨hs, hl.2, hr.2, hl.1.1, hr.1.1, hl.1.2, hr.1.2, fun hnote => absurd hnote Bool.false_ne_true, hlogical⟩

theorem adopt_operable {e t : Expr} {isUnsigned : Bool} (he : Operable e) (h : adopt e isUnsigned = .ok t) :
    Operable t := by
  unfold adopt at h
  split at h
  · have hcontext : ScalarContext (some (promoted isUnsigned)) := by
      intro wanted hwanted
      cases hwanted
      rfl
    rcases analyzeLiteral_typed hcontext h with ⟨ht, -, htight⟩
    refine ⟨ht, htight ?_⟩
    intro wanted hwanted
    cases hwanted
    simp [promoted]
  · cases h
    exact he

theorem adoptLiterals_operable {left right : Expr} {adopted : Expr × Expr} (hl : Operable left)
    (hr : Operable right) (h : adoptLiterals left right = .ok adopted) :
    Operable adopted.1 ∧ Operable adopted.2 := by
  unfold adoptLiterals at h
  split at h
  · obtain ⟨right', hright, h⟩ := bind_eq_ok.mp h
    cases h
    exact ⟨hl, adopt_operable hr hright⟩
  · split at h
    · obtain ⟨left', hleft, h⟩ := bind_eq_ok.mp h
      cases h
      exact ⟨adopt_operable hl hleft, hr⟩
    · cases h
      exact ⟨hl, hr⟩

theorem visitBinary_typed {operation : BinaryOperator} {left right t : Expr} (hl : Operable left)
    (hr : Operable right) (h : visitBinary operation left right = .ok t) :
    Typed t ∧ scalar t.resultType = true ∧ Tight t := by
  unfold visitBinary at h
  split at h
  · obtain ⟨left', hleft, h⟩ := bind_eq_ok.mp h
    obtain ⟨right', hright, h⟩ := bind_eq_ok.mp h
    cases h
    exact ⟨Typed.binary rfl (coerceExpr_operable rfl hl hleft) (coerceExpr_operable rfl hr hright) fun _ => rfl,
      rfl, trivial⟩
  · rename_i hlogical
    obtain ⟨divisor, -, h⟩ := bind_eq_ok.mp h
    simp only [rejectIf_bind_eq_ok] at h
    rcases h with ⟨-, -, h⟩
    split at h
    · unfold visitShift at h
      obtain ⟨count, -, h⟩ := bind_eq_ok.mp h
      simp only [rejectIf_bind_eq_ok] at h
      obtain ⟨left', hleft, h⟩ := bind_eq_ok.mp h.2
      obtain ⟨right', hright, h⟩ := bind_eq_ok.mp h
      cases h
      exact ⟨Typed.binary rfl (coerceExpr_operable rfl hl hleft) (coerceExpr_operable rfl hr hright)
        fun h => absurd h hlogical, rfl, trivial⟩
    · unfold visitArithmetic at h
      obtain ⟨adopted, hadopted, h⟩ := bind_eq_ok.mp h
      rcases adoptLiterals_operable hl hr hadopted with ⟨hl', hr'⟩
      simp only [rejectIf_bind_eq_ok] at h
      obtain ⟨left', hleft, h⟩ := bind_eq_ok.mp h.2
      obtain ⟨right', hright, h⟩ := bind_eq_ok.mp h
      cases h
      have hs : scalar (if isComparison operation = true then boolean.type
          else (promoted (leading left right).resultType.isUnsigned).type) = true := by
        split <;> rfl
      exact ⟨Typed.binary hs (coerceExpr_operable rfl hl' hleft) (coerceExpr_operable rfl hr' hright)
        fun h => absurd h hlogical, hs, trivial⟩

/-! ## Expressions -/

/-- What the analysis of an expression establishes. -/
structure Analyzed (context : Option PlainType) (t : Expr) : Prop where
  typed : Typed t
  plain : IsPlain t.resultType
  tight : Counts context → Tight t

theorem Analyzed.operable {t : Expr} (h : Analyzed none t) : Operable t :=
  ⟨h.typed, h.tight fun _ hwanted => nomatch hwanted⟩

theorem Analyzed.of_finish {e t : Expr} {context : Option PlainType} (h : finish e = .ok t) (he : Typed e)
    (hplain : IsPlain e.resultType) (htight : Counts context → Tight e) : Analyzed context t := by
  rcases finish_typed he h with ⟨ht, hresult, htight'⟩
  exact ⟨ht, hresult ▸ hplain, fun hcounts => htight' (htight hcounts)⟩

theorem isNegative_of_negativeLiteral {operation : UnaryOperator} {right : Expr} {negative : Text}
    (h : negativeLiteral operation right = some negative) : IsNegative operation right := by
  unfold negativeLiteral at h
  split at h
  · exact ⟨rfl, _, _, rfl⟩
  · cases h

/-- Typing changes the note of an expression and nothing else. -/
theorem finish_eq {e t : Expr} (h : finish e = .ok t) : ∃ note, t = e.withNote note := by
  unfold finish at h
  split at h
  · cases h
    exact ⟨e.note, by cases e <;> rfl⟩
  · obtain ⟨r, -, h⟩ := bind_eq_ok.mp h
    cases r with
    | none =>
        cases h
        exact ⟨e.note, by cases e <;> rfl⟩
    | some v =>
        cases h
        exact ⟨_, rfl⟩

theorem IsNegative.analyzed {env : Env} {operation : UnaryOperator} {right t : Expr} {context : Option PlainType}
    (h : IsNegative operation right) (ht : analyzeExpr env right context = .ok t) : IsNegative operation t := by
  rcases h with ⟨hminus, note, lexeme, rfl⟩
  unfold analyzeExpr analyzeLiteral at ht
  obtain ⟨type, -, ht⟩ := bind_eq_ok.mp ht
  rcases finish_eq ht with ⟨note', rfl⟩
  exact ⟨hminus, note', lexeme, rfl⟩

theorem noContext : ScalarContext none := fun _ hwanted => nomatch hwanted

section

variable {env : Env} {context : Option PlainType} {t : Expr}

theorem analyzeNamed_typed {note : Note} {name : String} {symbolId : Nat} {storage : AddressSpace} (hfits : Fits env)
    (h : analyzeExpr env (.named note name symbolId storage) context = .ok t) : Analyzed context t := by
  unfold analyzeExpr at h
  split at h
  · cases h
  · rename_i symbol hsymbol
    rcases hfits name symbol hsymbol with ⟨hbase, hconstant⟩
    refine Analyzed.of_finish h ?_ ⟨symbol.type.level, symbol.type.extent, hbase⟩ fun _ => trivial
    intro hconst
    obtain ⟨v, hv⟩ := Option.isSome_iff_exists.mp hconst
    rcases hconstant v hv with ⟨hs, hfit⟩
    refine ⟨hs, ?_⟩
    change convert (symbol.constant.getD 0) symbol.type.type = symbol.constant.getD 0
    rw [hv]
    exact hfit

theorem analyzeLayout_typed {query : LayoutOperator} {type : Ty} {member : String} {value : Int}
    (hvalue : layoutValue env query type member = .ok value) (isConstant : Bool) :
    scalar (wordType true) = true ∧ fitsNote ⟨isConstant, value, wordType true⟩ :=
  ⟨rfl, fitsNote_layout (layoutValue_range hvalue) isConstant⟩

/-- The analyzer types expressions as the evaluator and the lowering need them. -/
theorem analyzeExpr_typed (hfits : Fits env) (e : Expr) (hcontext : ScalarContext context)
    (h : analyzeExpr env e context = .ok t) : Analyzed context t := by
  induction e generalizing context t with
  | literal note kind lexeme =>
      unfold analyzeExpr at h
      rcases analyzeLiteral_typed hcontext h with ⟨ht, hs, htight⟩
      exact ⟨ht, .of_scalar hs, htight⟩
  | named note name symbolId storage => exact analyzeNamed_typed hfits h
  | layoutType note query type member =>
      unfold analyzeExpr at h
      obtain ⟨value, hvalue, h⟩ := bind_eq_ok.mp h
      exact Analyzed.of_finish h ⟨rfl, analyzeLayout_typed hvalue true⟩ (.of_scalar rfl) fun _ => trivial
  | layoutObject note query object ih =>
      unfold analyzeExpr at h
      obtain ⟨object', -, h⟩ := bind_eq_ok.mp h
      obtain ⟨value, hvalue, h⟩ := bind_eq_ok.mp h
      exact Analyzed.of_finish h ⟨rfl, analyzeLayout_typed hvalue true⟩ (.of_scalar rfl) fun _ => trivial
  | unary note operation right ih =>
      rw [analyzeExpr] at h
      split at h
      · rename_i hbang
        obtain ⟨right', hright, h⟩ := bind_eq_ok.mp h
        obtain ⟨coerced, hcoerced, h⟩ := bind_eq_ok.mp h
        rcases coerceExpr_operable rfl (ih noContext hright).operable hcoerced with ⟨hoperable, hs⟩
        exact Analyzed.of_finish h ⟨rfl, hs, hoperable.1, fun hnote => absurd hnote Bool.false_ne_true,
          .inr (.inl ⟨hbang, hoperable.2⟩)⟩ (.of_scalar rfl) fun _ => trivial
      · rename_i hbang
        split at h
        · rename_i negative hnegative
          obtain ⟨type, htype, h⟩ := bind_eq_ok.mp h
          obtain ⟨right', hright, h⟩ := bind_eq_ok.mp h
          have hs := (visitLiteral_fits hcontext htype).1
          have hshape := (isNegative_of_negativeLiteral hnegative).analyzed hright
          have hanalyzed := ih noContext hright
          have hsource : scalar right'.resultType = true := by
            rcases hshape with ⟨-, note', lexeme, rfl⟩
            exact hanalyzed.typed.1
          exact Analyzed.of_finish h ⟨hs, hsource, hanalyzed.typed, fun hnote => absurd hnote Bool.false_ne_true,
            .inl hshape⟩ (.of_scalar hs) fun _ => trivial
        · obtain ⟨right', hright, h⟩ := bind_eq_ok.mp h
          simp only [rejectIf_bind_eq_ok, not_or, not_and_or, not_not] at h
          rcases h with ⟨⟨-, hbase⟩, h⟩
          have hanalyzed := ih hcontext hright
          have hs := hanalyzed.plain.scalar_of_integer (hbase.imp id .inl)
          exact Analyzed.of_finish h ⟨hs, hs, hanalyzed.typed, fun hnote => absurd hnote Bool.false_ne_true,
            .inr (.inr ⟨hbang, rfl⟩)⟩ (.of_scalar hs) fun _ => trivial
  | binary note operation left right ihl ihr =>
      unfold analyzeExpr at h
      obtain ⟨left', hleft, h⟩ := bind_eq_ok.mp h
      obtain ⟨right', hright, h⟩ := bind_eq_ok.mp h
      obtain ⟨typed, htyped, h⟩ := bind_eq_ok.mp h
      rcases visitBinary_typed (ihl noContext hleft).operable (ihr noContext hright).operable htyped with
        ⟨ht, hs, htight⟩
      exact Analyzed.of_finish h ht (.of_scalar hs) fun _ => htight
  | cast note target expression ih =>
      unfold analyzeExpr at h
      obtain ⟨type, htype, h⟩ := bind_eq_ok.mp h
      obtain ⟨expression', hexpression, h⟩ := bind_eq_ok.mp h
      simp only [rejectIf_bind_eq_ok, not_or] at h
      rcases h with ⟨hstruct, hvoid, h⟩
      have hanalyzed := ih noContext hexpression
      have hs := (normalizeType_plain htype).scalar_of_castable hstruct.2 hvoid.2
      have hsource := hanalyzed.plain.scalar_of_castable hstruct.1 hvoid.1
      exact Analyzed.of_finish h ⟨hs, hsource, hanalyzed.typed, hanalyzed.operable.2,
        fun hnote => absurd hnote Bool.false_ne_true⟩ (.of_scalar hs) fun _ => trivial

end

/-! ## Where a type is wanted -/

/-- A truth value made from a literal of any size. -/
def FromLiteral (t : Expr) : Prop :=
  ∃ note target literalNote kind lexeme, t = .cast note target (.literal literalNote kind lexeme) ∧
    note.isConstant = false ∧ note.resultType = target.type ∧ target.type.base = .bool ∧ scalar target.type = true ∧
    Typed (.literal literalNote kind lexeme) ∧ scalar literalNote.resultType = true

/-- `true` and `false` fit their type. -/
theorem tight_of_bool {note : Note} {kind : LiteralKind} {lexeme : Text} (h : Typed (.literal note kind lexeme))
    (hbool : note.resultType.base = .bool) : Tight (.literal note kind lexeme) := by
  rcases h with ⟨-, -, v, hv, hfit⟩
  intro w hw
  rw [hv] at hw
  cases hw
  apply hfit.resolve_right
  intro hword
  rw [hword] at hbool
  cases hbool

theorem convert_coerceExpr {e t : Expr} {target : PlainType} (h : coerceExpr e target = .ok t) (value : Int) :
    convert value t.resultType = convert value target.type := by
  rcases coerceExpr_cases h with ⟨rfl, hsame⟩ | ⟨rfl, -⟩
  · exact convert_of_sameType hsame value
  · rfl

theorem analyzeAs_typed {env : Env} {e t : Expr} {type : PlainType} (hfits : Fits env)
    (hs : scalar type.type = true) (h : analyzeAs env e type = .ok t) :
    (Operable t ∧ scalar t.resultType = true) ∨ FromLiteral t := by
  obtain ⟨typed, htyped, h⟩ := bind_eq_ok.mp h
  have hcontext : ScalarContext (some type) := by
    intro wanted hwanted
    cases hwanted
    exact hs
  have hanalyzed := analyzeExpr_typed hfits e hcontext htyped
  by_cases hbool : type.type.base = .bool
  · cases typed with
    | literal note kind lexeme =>
        rcases coerceExpr_cases h with ⟨rfl, hsame⟩ | ⟨rfl, hconvert⟩
        · exact .inl ⟨⟨hanalyzed.typed, tight_of_bool hanalyzed.typed ((sameType_fields hsame).1.trans hbool)⟩,
            scalar_of_sameType hsame hs⟩
        · exact .inr ⟨_, type, note, kind, lexeme, rfl, rfl, rfl, hbool, hs, hanalyzed.typed,
            hanalyzed.typed.1⟩
    | named => exact .inl (coerceExpr_operable hs ⟨hanalyzed.typed, trivial⟩ h)
    | layoutType => exact .inl (coerceExpr_operable hs ⟨hanalyzed.typed, trivial⟩ h)
    | layoutObject => exact .inl (coerceExpr_operable hs ⟨hanalyzed.typed, trivial⟩ h)
    | unary => exact .inl (coerceExpr_operable hs ⟨hanalyzed.typed, trivial⟩ h)
    | binary => exact .inl (coerceExpr_operable hs ⟨hanalyzed.typed, trivial⟩ h)
    | cast => exact .inl (coerceExpr_operable hs ⟨hanalyzed.typed, trivial⟩ h)
  · have htight := hanalyzed.tight fun wanted hwanted => by
      cases hwanted
      exact hbool
    exact .inl (coerceExpr_operable hs ⟨hanalyzed.typed, htight⟩ h)

/-! ## Declarations -/

/-- The environments that declarations lead to. Scopes and headers of types come and go,
objects and named constants are added. -/
inductive Declared : Env → Prop where
  | start (target : TargetKind) : Declared { target := target }
  | types {env : Env} (h : Declared env) (structs : List (String × StructSymbol)) (enums : List (String × PlainType)) :
      Declared { env with
        structs := structs
        enums := enums }
  | object {env : Env} (h : Declared env) (name : String) (type : PlainType) (complete : type.type.base ≠ .none)
      (symbolId : Nat) (storage : AddressSpace) :
      Declared { env with values := (name, ⟨type, none, symbolId, storage⟩) :: env.values }
  | constant {env : Env} (h : Declared env) (name : String) (type stored : PlainType)
      (initializer typed : Expr) (value : Int) (symbolId : Nat) (storage : AddressSpace)
      (plain : scalar type.type = true) (same : valueType stored.type = valueType type.type)
      (analyzed : analyzeAs env initializer type = .ok typed)
      (evaluated : ConstantEvaluator.evaluate typed = .ok (some value)) :
      Declared { env with values := (name, ⟨stored, some value, symbolId, storage⟩) :: env.values }
  | enumerator {env : Env} (h : Declared env) (name : String) (underlying : PlainType) (value : Int)
      (plain : underlying.type.base = .byte ∨ underlying.type.base = .word)
      (low : minimum underlying.type ≤ value) (high : value ≤ maximum underlying.type) :
      Declared { env with values := (name, ⟨underlying, some value, 0, .ram⟩) :: env.values }

/-- A constant that a cast gives fits the type it is cast to. -/
theorem FromLiteral.fits {t : Expr} {v : Int} (h : FromLiteral t) (hv : evaluate t = .ok (some v)) :
    convert v t.resultType = v := by
  rcases h with ⟨note, target, literalNote, kind, lexeme, rfl, hconst, -⟩
  unfold evaluate noted at hv
  rw [hconst] at hv
  obtain ⟨r, -, hv⟩ := bind_eq_ok.mp hv
  cases r with
  | none => cases hv
  | some a =>
      cases hv
      exact convert_convert _ _

theorem analyzeAs_fits {env : Env} {e t : Expr} {type : PlainType} {v : Int} (hfits : Fits env)
    (hs : scalar type.type = true) (h : analyzeAs env e type = .ok t) (hv : evaluate t = .ok (some v)) :
    convert v type.type = v := by
  have hresult : convert v t.resultType = v := by
    rcases analyzeAs_typed hfits hs h with ⟨hoperable, -⟩ | hliteral
    · exact hoperable.1.fits hoperable.2 hv
    · exact hliteral.fits hv
  obtain ⟨typed, -, h⟩ := bind_eq_ok.mp h
  rwa [convert_coerceExpr h] at hresult

theorem Declared.fits {env : Env} (h : Declared env) : Fits env := by
  induction h with
  | start target => exact fun _ _ hfound => nomatch hfound
  | types h structs enums ih => exact ih
  | object h name type complete symbolId storage ih => exact ih.cons complete fun _ hv => nomatch hv
  | @constant env h name type stored initializer typed value symbolId storage plain same analyzed evaluated ih =>
      have hconvert : convert value stored.type = convert value (valueType stored.type) := rfl
      have hscalar : scalar stored.type = scalar (valueType stored.type) := rfl
      have hs : scalar stored.type = true := by
        rw [hscalar, same]
        exact plain
      have hfit : convert value stored.type = value := by
        rw [hconvert, same]
        exact analyzeAs_fits ih plain analyzed evaluated
      refine ih.cons (IsPlain.of_scalar hs).2.2 ?_
      intro v hv
      cases hv
      exact ⟨hs, hfit⟩
  | @enumerator env h name underlying value plain low high ih =>
      have hs : scalar underlying.type = true :=
        scalar_iff.mpr ⟨underlying.level, underlying.extent, plain.imp id .inl⟩
      refine ih.cons (IsPlain.of_scalar hs).2.2 ?_
      intro v hv
      cases hv
      refine ⟨hs, ?_⟩
      rcases plain with hbyte | hword
      · apply convert_byte underlying.level hbyte
        unfold minimum at low
        unfold maximum at high
        rw [if_pos hbyte] at low high
        split <;> simp_all
      · have hother : underlying.type.base ≠ .byte := by simp [hword]
        apply convert_word underlying.level hword
        unfold minimum at low
        unfold maximum at high
        rw [if_neg hother] at low high
        split <;> simp_all

end Disco.Frontend
