import Mathlib.Data.List.TakeWhile
import PysdkModel.FieldMask.Theorems.Denotation

open TokenType

namespace Lexer

variable {t w : Text} {n : Nat} {k : Text} {ks : List (TokenType × Text)}

-- The token sequence of a text, by the description of the tokens: white space between tokens, single
-- symbols, bare keys that cannot be continued, and whole JSON strings.
inductive Tokenizes : Text → List (TokenType × Text) → Prop
  | nil : Tokenizes [] []
  | space {c : CodePoint} {t : Text} {ks : List (TokenType × Text)} :
    isSpace c → Tokenizes t ks → Tokenizes (c :: t) ks
  | symbol {c : CodePoint} {sym : TokenType} {t : Text} {ks : List (TokenType × Text)} :
    symbol? c = some sym → Tokenizes t ks → Tokenizes (c :: t) ((sym, [c]) :: ks)
  | key {w t : Text} {ks : List (TokenType × Text)} :
    w ≠ [] → (∀ c ∈ w, FieldKey.isSimple c) → (∀ c ∈ t.head?, ¬FieldKey.isSimple c) → Tokenizes t ks →
    Tokenizes (w ++ t) ((.plainKey, w) :: ks)
  | quoted {w k t : Text} {ks : List (TokenType × Text)} :
    Json.scanString w = some (k, []) → Tokenizes t ks →
    Tokenizes (Json.quote :: w ++ t) ((.plainKey, k) :: ks)

section Quoted

variable {c : CodePoint} {r : Text}

theorem quotedLength_quote : quotedLength (Json.quote :: t) = some 1 := by
  simp [quotedLength.eq_def]

theorem quotedLength_backslash : quotedLength (Json.backslash :: c :: t) = (quotedLength t).map (· + 2) := by
  have hq : Json.backslash ≠ Json.quote := by decide
  rw [quotedLength.eq_def]
  simp [hq]

theorem quotedLength_cons (hq : c ≠ Json.quote) (hb : c ≠ Json.backslash) :
    quotedLength (c :: t) = (quotedLength t).map (· + 1) := by
  rw [quotedLength.eq_def]
  simp [hq, hb]

theorem ne_quote_of_hexVal? (h : Json.hexVal? c = some n) : c ≠ Json.quote ∧ c ≠ Json.backslash := by
  constructor <;> rintro rfl <;> simp [Json.hexVal?, Json.quote, Json.backslash] at h

theorem quotedLength_hex4 {x₁ x₂ x₃ x₄ : CodePoint} (h : Json.hex4? x₁ x₂ x₃ x₄ = some n) :
    quotedLength (x₁ :: x₂ :: x₃ :: x₄ :: t) = (quotedLength t).map (· + 4) := by
  simp only [Json.hex4?, Option.bind_eq_bind, Option.bind_eq_some_iff] at h
  obtain ⟨_, h₁, _, h₂, _, h₃, _, h₄, _⟩ := h
  obtain ⟨hq₁, hb₁⟩ := ne_quote_of_hexVal? h₁
  obtain ⟨hq₂, hb₂⟩ := ne_quote_of_hexVal? h₂
  obtain ⟨hq₃, hb₃⟩ := ne_quote_of_hexVal? h₃
  obtain ⟨hq₄, hb₄⟩ := ne_quote_of_hexVal? h₄
  rw [quotedLength_cons hq₁ hb₁, quotedLength_cons hq₂ hb₂, quotedLength_cons hq₃ hb₃,
    quotedLength_cons hq₄ hb₄]
  simp [Function.comp_def]

theorem quotedLength_unit {x₁ x₂ x₃ x₄ : CodePoint} (h : Json.hex4? x₁ x₂ x₃ x₄ = some n) :
    quotedLength (Json.backslash :: Json.letterU :: x₁ :: x₂ :: x₃ :: x₄ :: t) =
      (quotedLength t).map (· + 6) := by
  rw [quotedLength_backslash, quotedLength_hex4 h]
  simp [Function.comp_def]

def StopsBefore (t r : Text) : Prop :=
  ∃ n, quotedLength t = some n ∧ r = t.drop n

theorem StopsBefore.of_map {f : Text × Text → Text × Text} (x : Text)
    (hx : quotedLength (x ++ t) = (quotedLength t).map (· + x.length))
    (ih : ∀ {k : Text}, Json.scanString t = some (k, r) → StopsBefore t r)
    (h : (Json.scanString t).map f = some (k, r)) (hf : ∀ y, (f y).2 = y.2) : StopsBefore (x ++ t) r := by
  obtain ⟨y, hy, hr⟩ := Option.map_eq_some_iff.mp h
  obtain rfl : y.2 = r := (hf y).symm.trans <| congrArg Prod.snd hr
  obtain ⟨n, hn, hr⟩ := ih hy
  exact ⟨n + x.length, by rw [hx, hn, Option.map_some], by rw [hr, Nat.add_comm, List.drop_length_add_append]⟩

theorem stopsBefore_of_scanString (h : Json.scanString t = some (k, r)) : StopsBefore t r := by
  fun_induction Json.scanString t generalizing k
  case case2 => cases h; exact ⟨1, quotedLength_quote, rfl⟩
  case case6 x₁ x₂ x₃ x₄ u hu b e y₁ y₂ y₃ y₄ rest hs u' hu' _ _ ih =>
    obtain ⟨-, rfl, rfl⟩ := hs
    refine .of_map [_, _, _, _, _, _, _, _, _, _, _, _] ?_ ih h fun _ => rfl
    simp only [List.cons_append, List.nil_append, quotedLength_unit hu, quotedLength_unit hu', Option.map_map]
    rfl
  case case7 hu _ _ _ _ _ _ _ _ _ _ _ _ ih =>
    exact .of_map [_, _, _, _, _, _] (quotedLength_unit hu) ih h fun _ => rfl
  case case8 hu _ _ _ _ _ _ _ _ _ ih =>
    exact .of_map [_, _, _, _, _, _] (quotedLength_unit hu) ih h fun _ => rfl
  case case9 hu _ _ _ ih =>
    exact .of_map [_, _, _, _, _, _] (quotedLength_unit hu) ih h fun _ => rfl
  case case11 ih => exact .of_map [_, _] quotedLength_backslash ih h fun _ => rfl
  case case14 hq hb _ ih => exact .of_map [_] (quotedLength_cons hq hb) ih h fun _ => rfl
  all_goals cases h

theorem quotedLength_of_scanString (h : Json.scanString w = some (k, [])) : quotedLength w = some w.length := by
  obtain ⟨n, hn, hr⟩ := stopsBefore_of_scanString h
  have hl := (quotedLength_append (y := []) hn).right
  have hd : w.length ≤ n := List.drop_eq_nil_iff.mp hr.symm
  rw [hn, Nat.le_antisymm hl hd]

theorem quotedLength_take (h : quotedLength t = some n) : quotedLength (t.take n) = some n := by
  fun_induction quotedLength t generalizing n
  case case1 => cases h
  case case2 => cases h; exact quotedLength_quote
  case case3 => cases h
  case case4 ih =>
    obtain ⟨m, hm, rfl⟩ := Option.map_eq_some_iff.mp h
    rw [List.take_succ_cons, List.take_succ_cons, quotedLength_backslash, ih hm, Option.map_some]
  case case5 hq hb ih =>
    obtain ⟨m, hm, rfl⟩ := Option.map_eq_some_iff.mp h
    rw [List.take_succ_cons, quotedLength_cons hq hb, ih hm, Option.map_some]

theorem scanString_of_loads (hn : quotedLength t = some n)
    (h : Json.loads (Json.quote :: t.take n) = some k) : Json.scanString (t.take n) = some (k, []) := by
  simp only [Json.loads, ↓reduceIte] at h
  split at h
  case h_2 => cases h
  case h_1 k' r hs =>
    obtain ⟨m, hm, hr⟩ := stopsBefore_of_scanString hs
    cases hm.symm.trans <| quotedLength_take hn
    rw [List.drop_eq_nil_of_le (List.length_take_le ..)] at hr
    subst hr
    simpa [hs] using h

end Quoted

theorem isSpace_of_isSimple {c : CodePoint} (h : FieldKey.isSimple c) : isSpace c = false := by
  simp only [FieldKey.isSimple, isSpace, Bool.or_eq_true, Bool.and_eq_true, decide_eq_true_eq] at *
  grind

theorem symbol?_of_isSimple {c : CodePoint} (h : FieldKey.isSimple c) : symbol? c = none := by
  by_contra hn
  obtain ⟨sym, hs⟩ := Option.ne_none_iff_exists'.mp hn
  simp [isSimple_symbol hs] at h

theorem lexes_key (hw : w ≠ []) (hs : ∀ c ∈ w, FieldKey.isSimple c)
    (ht : ∀ c ∈ t.head?, ¬FieldKey.isSimple c) (hl : Lexes t ks) : Lexes (w ++ t) ((.plainKey, w) :: ks) := by
  obtain ⟨c, w, rfl⟩ := List.exists_cons_of_ne_nil hw
  have hc : FieldKey.isSimple c := hs c (by simp)
  have hd : (c :: w ++ t).dropWhile isSpace = c :: w ++ t := by simp [isSpace_of_isSimple hc]
  have htake : (c :: w ++ t).takeWhile FieldKey.isSimple = c :: w := by
    rw [List.takeWhile_append_of_pos hs]
    cases t
    case nil => simp
    case cons d t => simp [ht d rfl]
  have hscan : scan ((c :: w ++ t).dropWhile isSpace) = some (.plainKey, (c :: w).length) := by
    have hq : c ≠ Json.quote := by rintro rfl; cases hc
    rw [hd, List.cons_append, scan, symbol?_of_isSimple hc, if_neg hq, if_pos hc, ← List.cons_append, htake]
  refine .cons hscan (by simp) ?_ ?_
  · rw [hd, List.take_left]
    rfl
  · rwa [hd, List.drop_left]

theorem lexes_quoted (hw : Json.scanString w = some (k, [])) (hl : Lexes t ks) :
    Lexes (Json.quote :: w ++ t) ((.plainKey, k) :: ks) := by
  have hd : (Json.quote :: w ++ t).dropWhile isSpace = Json.quote :: w ++ t := by
    simp [show isSpace Json.quote = false from rfl]
  have hscan : scan ((Json.quote :: w ++ t).dropWhile isSpace) = some (.quotedKey, w.length + 1) := by
    have hq := (quotedLength_append (y := t) <| quotedLength_of_scanString hw).left
    rw [hd, List.cons_append, scan, show symbol? Json.quote = none from rfl, if_pos rfl, hq, Option.map_some]
  refine .cons hscan (by simp) ?_ ?_
  · rw [hd, List.cons_append, List.take_succ_cons, List.take_left]
    simp [Token.unquote, Token.kind, Json.loads, hw]
  · rwa [hd, List.cons_append, List.drop_succ_cons, List.drop_left]

theorem Tokenizes.lexes (h : Tokenizes t ks) : Lexes t ks := by
  induction h
  case nil => exact .nil rfl
  case space hc _ ih => exact lexes_of_dropWhile (by simp [hc]) ih
  case symbol hc _ ih => exact lexes_symbol hc ih
  case key hw hs ht _ ih => exact lexes_key hw hs ht ih
  case quoted hw _ ih => exact lexes_quoted hw ih

theorem Tokenizes.of_dropWhile (h : Tokenizes (t.dropWhile isSpace) ks) : Tokenizes t ks := by
  induction t
  case nil => exact h
  case cons c t ih =>
    by_cases hc : isSpace c
    · rw [List.dropWhile_cons_of_pos hc] at h
      exact .space hc <| ih h
    · rwa [List.dropWhile_cons_of_neg hc] at h

theorem Tokenizes.of_scan {type : TokenType} {kind : TokenType × Text} (hs : scan t = some (type, n))
    (ht : type ≠ .eol) (hk : (Token.mk type (t.take n) 0).unquote.map Token.kind = some kind)
    (hl : Tokenizes (t.drop n) ks) : Tokenizes t (kind :: ks) := by
  cases t
  case nil => cases hs; exact absurd rfl ht
  case cons c t =>
    simp only [scan] at hs
    split at hs
    case h_1 sym hc =>
      obtain ⟨rfl, rfl⟩ := Prod.mk.inj <| Option.some.inj hs
      have hq : sym ≠ .quotedKey := by rcases symbol?_cases hc with h | h | h | h | h <;> simp [h.right]
      simp only [Token.unquote, hq, ↓reduceIte, Option.map_some, Option.some.injEq] at hk
      exact hk ▸ .symbol hc hl
    case h_2 =>
      split at hs
      case isTrue hq =>
        obtain ⟨m, hm, he⟩ := Option.map_eq_some_iff.mp hs
        cases he
        subst hq
        simp only [Token.unquote, ↓reduceIte, Option.map_map, Option.map_eq_some_iff] at hk
        obtain ⟨k, hk, rfl⟩ := hk
        have := quoted (scanString_of_loads hm hk) hl
        rwa [List.drop_succ_cons, List.cons_append, List.take_append_drop] at this
      case isFalse hq =>
        split at hs
        case isFalse => cases hs
        case isTrue hc =>
          cases hs
          obtain ⟨w, r, hw, hr, he⟩ : ∃ w r, w = (c :: t).takeWhile FieldKey.isSimple ∧
              r = (c :: t).dropWhile FieldKey.isSimple ∧ c :: t = w ++ r :=
            ⟨_, _, rfl, rfl, List.takeWhile_append_dropWhile.symm⟩
          have hne : w ≠ [] := by simp [hw, hc]
          have hall : ∀ d ∈ w, FieldKey.isSimple d := fun d hd => List.mem_takeWhile_imp (hw ▸ hd)
          have hstop : ∀ d ∈ r.head?, ¬FieldKey.isSimple d := by
            intro d hd
            have := List.head?_dropWhile_not FieldKey.isSimple (c :: t)
            rw [← hr, hd] at this
            simpa using this
          rw [← hw, he] at hk hl
          rw [he]
          rw [List.drop_left] at hl
          rw [List.take_left] at hk
          cases hk
          exact .key hne hall hstop hl

theorem tokenizes_iff : Tokenizes t ks ↔ Lexes t ks := by
  refine ⟨Tokenizes.lexes, fun h => ?_⟩
  induction h
  case nil hn => exact .of_dropWhile <| hn ▸ .nil
  case cons hs ht hk _ ih => exact .of_dropWhile <| .of_scan hs ht hk ih

inductive IsToken : TokenType × Text → Prop
  | key {k : Text} : IsToken (.plainKey, k)
  | symbol {c : CodePoint} {sym : TokenType} : symbol? c = some sym → IsToken (sym, [c])

theorem Tokenizes.isToken (h : Tokenizes t ks) : ∀ k ∈ ks, IsToken k := by
  induction h
  case nil => simp
  case space ih => exact ih
  case symbol hc _ ih => exact List.forall_mem_cons.mpr ⟨.symbol hc, ih⟩
  case key ih => exact List.forall_mem_cons.mpr ⟨.key, ih⟩
  case quoted ih => exact List.forall_mem_cons.mpr ⟨.key, ih⟩

theorem IsToken.cases {k : TokenType × Text} (h : IsToken k) :
    (∃ s : Step FieldKey, k = s.kind) ∨ k = commaKind ∨ k = dotKind ∨ k = lbraceKind ∨ k = rbraceKind := by
  cases h
  case key k => exact .inl ⟨.key k, rfl⟩
  case symbol c sym hc =>
    rcases symbol?_cases hc with ⟨rfl, rfl⟩ | ⟨rfl, rfl⟩ | ⟨rfl, rfl⟩ | ⟨rfl, rfl⟩ | ⟨rfl, rfl⟩
    · exact .inr <| .inl rfl
    · exact .inr <| .inr <| .inl rfl
    · exact .inr <| .inr <| .inr <| .inl rfl
    · exact .inr <| .inr <| .inr <| .inr rfl
    · exact .inl ⟨.any, rfl⟩

end Lexer

namespace Parser

open Lexer

variable {source : Text} {p p' q : Parser} {toks : List Token} {tok : Token}

def Accepts (source : Text) (p : Parser) (toks : List Token) : Prop :=
  ∃ p', p.run source toks = .ok p' ∧ p'.prev = [] ∧ p'.state = .separator

theorem accepts_nil : Accepts source p [] ↔ p.prev = [] ∧ p.state = .separator := by
  simp [Accepts, run_nil]

theorem accepts_cons (h : Accepts source p (tok :: toks)) :
    ∃ p', p.step source tok = .ok p' ∧ Accepts source p' toks := by
  obtain ⟨q, hq, hf⟩ := h
  cases hs : p.step source tok
  case error e => simp [run, List.foldlM_cons, hs, bind, Except.bind] at hq
  case ok p' => exact ⟨p', rfl, q, (run_cons hs).symm.trans hq, hf⟩

-- The current level ends: nothing is left and no level is open, or a brace closes the level.
inductive Ends (source : Text) (prev : List Level) : List Token → Prop
  | done : prev = [] → Ends source prev []
  | rbrace {tok : Token} {toks : List Token} {lvl : Level} {q : Parser} : tok.kind = rbraceKind →
    Accepts source q toks → q.state = .separator → prev = lvl :: q.prev → Ends source prev (tok :: toks)

-- What the parser may read after a segment: a separator in front of the next one, or the end of the
-- level.
inductive Follows (source : Text) (prev : List Level) : List Token → Prop
  | ends {toks : List Token} : Ends source prev toks → Follows source prev toks
  | dot {tok : Token} {toks : List Token} {q : Parser} : tok.kind = dotKind → Accepts source q toks →
    q.state = .key → q.prev = prev → Follows source prev (tok :: toks)
  | comma {tok : Token} {toks : List Token} {q : Parser} : tok.kind = commaKind → Accepts source q toks →
    q.state = .key → q.prev = prev → Follows source prev (tok :: toks)

theorem follows_of_accepts (ht : ∀ t ∈ toks, IsToken t.kind) (hs : p.state = .separator)
    (h : Accepts source p toks) : Follows source p.prev toks := by
  cases toks
  case nil => exact .ends <| .done (accepts_nil.mp h).left
  case cons tok toks =>
    obtain ⟨p', hp, hr⟩ := accepts_cons h
    rcases (ht tok (by simp)).cases with ⟨s, hk⟩ | hk | hk | hk | hk
    · obtain ⟨htype, -⟩ := Prod.mk.inj hk
      cases s <;> simp [step, hs, stepSeparator, show tok.type = _ from htype] at hp
    · cases hp.symm.trans <| step_comma hs hk
      exact .comma hk hr rfl rfl
    · cases hp.symm.trans <| step_dot hs hk
      exact .dot hk hr rfl rfl
    · obtain ⟨htype, -⟩ := Prod.mk.inj hk
      simp [step, hs, stepSeparator, htype] at hp
    · cases hl : p.prev
      case nil =>
        obtain ⟨htype, -⟩ := Prod.mk.inj hk
        simp [step, hs, stepSeparator, htype, hl] at hp
      case cons lvl prev =>
        cases hp.symm.trans <| step_rbrace (by simp [hs]) hl hk
        exact .ends <| .rbrace hk hr rfl rfl

def ReadsMask (source : Text) (prev : List Level) (toks : List Token) : Prop :=
  ∃ (m : MaskExpr) (toks₁ toks₂ : List Token),
    toks = toks₁ ++ toks₂ ∧ toks₁.map Token.kind = m.kinds ∧ Ends source prev toks₂

end Parser

namespace MaskExpr

def dot (s : SegExpr) : MaskExpr → MaskExpr
  | .term t => .term (.dot s t)
  | .comma t m => .comma (.dot s t) m

theorem kinds_dot {s : SegExpr} {m : MaskExpr} : (m.dot s).kinds = s.kinds ++ dotKind :: m.kinds := by
  cases m <;> simp [dot, kinds, TermExpr.kinds]

end MaskExpr

namespace Parser

open Lexer

variable {source : Text} {p p' q : Parser} {toks toks₁ toks₂ : List Token} {tok : Token}

def ReadsBelow (source : Text) (n : Nat) : Prop :=
  ∀ (q : Parser) (toks : List Token), toks.length < n → (∀ t ∈ toks, IsToken t.kind) → q.state = .key →
    Accepts source q toks → ReadsMask source q.prev toks

theorem readsMask_of_seg {prev : List Level} (toks₁ : List Token) (s : SegExpr) (hk : toks₁.map Token.kind = s.kinds)
    (ht : ∀ t ∈ toks₂, IsToken t.kind) (hf : Follows source prev toks₂)
    (ih : ReadsBelow source toks₂.length) : ReadsMask source prev (toks₁ ++ toks₂) := by
  cases hf
  case ends he => exact ⟨.term (.seg s), toks₁, toks₂, rfl, hk, he⟩
  case dot tok toks q hd ha hs hp =>
    obtain ⟨m, toks₃, toks₄, ht, hm, he⟩ := ih q toks (by simp) (List.forall_mem_cons.mp ht).right hs ha
    refine ⟨m.dot s, toks₁ ++ tok :: toks₃, toks₄, by simp [ht], ?_, hp ▸ he⟩
    rw [List.map_append, List.map_cons, hk, hd, hm, MaskExpr.kinds_dot]
  case comma tok toks q hc ha hs hp =>
    obtain ⟨m, toks₃, toks₄, ht, hm, he⟩ := ih q toks (by simp) (List.forall_mem_cons.mp ht).right hs ha
    refine ⟨.comma (.seg s) m, toks₁ ++ tok :: toks₃, toks₄, by simp [ht], ?_, hp ▸ he⟩
    rw [List.map_append, List.map_cons, hk, hc, hm, MaskExpr.kinds, TermExpr.kinds]

theorem accepts_levelStart (hs : p.state = .levelStart) (ht : tok.kind ≠ rbraceKind) (hi : IsToken tok.kind)
    (h : Accepts source p (tok :: toks)) : Accepts source { p with state := .key } (tok :: toks) := by
  have hne : tok.type ≠ .rbrace := by
    intro htype
    rcases hi.cases with ⟨s, hk⟩ | hk | hk | hk | hk
    case inr.inr.inr.inr => exact ht hk
    case inl => cases s <;> cases htype.symm.trans (congrArg Prod.fst hk)
    all_goals cases htype.symm.trans (congrArg Prod.fst hk)
  obtain ⟨p', hp, q, hq, hf⟩ := accepts_cons h
  have hp' : { p with state := .key : Parser }.step source tok = .ok p' := by
    rw [← hp]
    simp only [step, hs]
    exact (if_neg hne).symm
  exact ⟨q, (run_cons hp').trans hq, hf⟩

theorem readsMask_of_lbrace (ht : ∀ t ∈ tok :: toks, IsToken t.kind) (hk : tok.kind = lbraceKind)
    (hs : p.state = .levelStart) {lvl : Level} {prev : List Level} (hp : p.prev = lvl :: prev)
    (h : Accepts source p toks) (ih : ReadsBelow source (toks.length + 1)) : ReadsMask source prev (tok :: toks) := by
  cases toks
  case nil => simp [accepts_nil, hs] at h
  case cons tok' toks =>
    have ht' := (List.forall_mem_cons.mp ht).right
    have hlow {n : Nat} (hn : n ≤ toks.length + 1) : ReadsBelow source n :=
      fun q toks hl => ih q toks <| by simp only [List.length_cons]; omega
    by_cases hr : tok'.kind = rbraceKind
    · obtain ⟨p', hp', ha⟩ := accepts_cons h
      cases hp'.symm.trans <| step_rbrace (by simp [hs]) hp hr
      have ht'' := (List.forall_mem_cons.mp ht').right
      exact readsMask_of_seg [tok, tok'] .unit (by simp [hk, hr, SegExpr.kinds]) ht''
        (follows_of_accepts ht'' rfl ha) (hlow (by omega))
    · have ha := accepts_levelStart hs hr (ht' tok' (by simp)) h
      obtain ⟨m, toks₁, toks₂, he, hm, hend⟩ := ih _ _ (by simp) ht' rfl ha
      rw [he] at ht' ⊢
      cases hend
      case done hn => cases hp.symm.trans hn
      case rbrace tok₂ toks₂ _ q hr ha hq hl =>
        obtain ⟨-, hprev⟩ := List.cons.inj <| hl.symm.trans hp
        have hlen := congrArg List.length he
        simp only [List.length_cons, List.length_append] at hlen
        have ht₂ : ∀ t ∈ toks₂, IsToken t.kind := fun t hm => ht' t (by simp [hm])
        have := readsMask_of_seg (tok :: (toks₁ ++ [tok₂])) (.group m)
          (by simp [hk, hm, hr, SegExpr.kinds]) ht₂ (hprev ▸ follows_of_accepts ht₂ hq ha) (hlow (by omega))
        simpa using this

-- Everything that the state machine accepts is a mask of the grammar. The induction is on the number
-- of tokens: a group is a mask by the hypothesis, and so is what follows a separator.
theorem readsMask_of_accepts (ht : ∀ t ∈ toks, IsToken t.kind) (hs : p.state = .key)
    (h : Accepts source p toks) : ReadsMask source p.prev toks := by
  induction hn : toks.length using Nat.strong_induction_on generalizing p toks
  case h n ih =>
    subst hn
    have hlow : ReadsBelow source toks.length := fun q toks hl ht hs h => ih _ hl ht hs h rfl
    cases toks
    case nil => simp [accepts_nil, hs] at h
    case cons tok toks =>
      obtain ⟨p', hp, ha⟩ := accepts_cons h
      obtain ⟨ht₁, ht'⟩ := List.forall_mem_cons.mp ht
      rcases ht₁.cases with ⟨s, hk⟩ | hk | hk | hk | hk
      case inl =>
        cases hp.symm.trans <| step_entry hs hk
        have hf := follows_of_accepts ht' rfl ha
        exact readsMask_of_seg [tok] (.step s) (by simp [hk, SegExpr.kinds]) ht' hf
          fun q toks hl => hlow q toks (Nat.lt_succ_of_lt hl)
      case inr.inr.inr.inl =>
        cases hp.symm.trans <| step_lbrace hs hk
        exact readsMask_of_lbrace ht hk rfl rfl ha hlow
      all_goals
        obtain ⟨htype, -⟩ := Prod.mk.inj hk
        simp [step, hs, stepKey, htype] at hp

theorem kinds_of_accepts (ht : ∀ t ∈ toks, IsToken t.kind) (h : Accepts source init toks) :
    ∃ m : MaskExpr, toks.map Token.kind = m.kinds := by
  obtain ⟨m, toks₁, toks₂, rfl, hm, he⟩ := readsMask_of_accepts ht rfl h
  cases he
  case done => exact ⟨m, by rwa [List.append_nil]⟩
  case rbrace hl => cases hl

-- The parser accepts exactly the grammar and reports every other text by a `ParseError`.
structure Exact (frames : Nat) (source : Text) : Prop where
  accepts : (∃ r, parseWithin frames source = .ok r) ↔
    (∀ c ∈ source, isSpace c) ∨ ∃ m : MaskExpr, Tokenizes source m.kinds
  rejects : ∀ f, parseWithin frames source = .error f → ∃ e, f = .parseError e

theorem kinds_eq_ok_iff {ks : List (TokenType × Text)} : Lexer.kinds source = .ok ks ↔ Tokenizes source ks := by
  rw [Lexer.kinds, tokens_eq_ok_iff, tokenizes_iff]
  rfl

theorem parseWithin_of_tokenizes (frames : Nat) {m : MaskExpr} (hk : Tokenizes source m.kinds) :
    (∃ r, parseWithin frames source = .ok r) ∧ (∀ p ∈ pathsOf m, p.length < frames) ∨
    parseWithin frames source = .error .recursionError ∧ ¬∀ p ∈ pathsOf m, p.length < frames :=
  (parseWithin_of_kinds frames <| kinds_eq_ok_iff.mpr hk).imp_left <| .imp_left fun ⟨r, hr, _⟩ => ⟨r, hr⟩

theorem parseWithin_of_not_tokenizes (frames : Nat) (hs : (source.dropWhile isSpace).isEmpty = false)
    (hk : ∀ m : MaskExpr, ¬Tokenizes source m.kinds) : ∃ e, parseWithin frames source = .error (.parseError e) := by
  simp only [parseWithin, hs]
  cases ht : (Lexer.init source).tokens
  case error e => exact ⟨e, rfl⟩
  case ok toks =>
    have hl : Tokenizes source (toks.map Token.kind) :=
      kinds_eq_ok_iff.mp <| by simp [Lexer.kinds, ht, Except.map]
    cases hr : init.run source toks
    case error e => exact ⟨e, by simp [Except.bind, hr]⟩
    case ok p =>
      by_cases hprev : p.prev = []
      case neg => simp [Except.bind, hr, hprev]
      case pos =>
        by_cases hstate : p.state = .separator
        case neg => simp [Except.bind, hr, hprev, hstate]
        case pos =>
          have hi t (hm : t ∈ toks) : IsToken t.kind := hl.isToken t.kind <| List.mem_map_of_mem hm
          obtain ⟨m, hm⟩ := kinds_of_accepts hi ⟨p, hr, hprev, hstate⟩
          exact absurd (hm ▸ hl) (hk m)

theorem isSpace_of_isEmpty : (source.dropWhile isSpace).isEmpty ↔ ∀ c ∈ source, isSpace c := by
  simp

-- The parser recognises the grammar on exactly those texts whose masks the interpreter has frames to
-- copy.
theorem parse_exact_iff (frames : Nat) (source : Text) :
    Exact frames source ↔
      ∀ m : MaskExpr, Tokenizes source m.kinds → ∀ p ∈ pathsOf m, p.length < frames := by
  constructor
  · intro hx m hm
    rcases parseWithin_of_tokenizes frames hm with ⟨-, hp⟩ | ⟨hr, -⟩
    · exact hp
    · obtain ⟨e, he⟩ := hx.rejects _ hr
      cases he
  · intro hp
    cases hs : (source.dropWhile isSpace).isEmpty
    case true =>
      have hok : parseWithin frames source = .ok ∅ := by simp only [parseWithin, hs, ↓reduceIte]
      refine ⟨⟨fun _ => .inl <| isSpace_of_isEmpty.mp hs, fun _ => ⟨∅, hok⟩⟩, fun f hf => ?_⟩
      cases hok.symm.trans hf
    case false =>
      have hns : ¬∀ c ∈ source, isSpace c := by simp [← isSpace_of_isEmpty, hs]
      by_cases hg : ∃ m : MaskExpr, Tokenizes source m.kinds
      · obtain ⟨m, hm⟩ := hg
        rcases parseWithin_of_tokenizes frames hm with ⟨⟨r, hr⟩, -⟩ | ⟨-, hn⟩
        · refine ⟨⟨fun _ => .inr ⟨m, hm⟩, fun _ => ⟨r, hr⟩⟩, fun f hf => ?_⟩
          cases hr.symm.trans hf
        · exact absurd (hp m hm) hn
      · obtain ⟨e, he⟩ := parseWithin_of_not_tokenizes frames hs (not_exists.mp hg)
        refine ⟨⟨?_, fun h => absurd h (not_or.mpr ⟨hns, hg⟩)⟩, fun f hf => ⟨e, ?_⟩⟩
        · rintro ⟨r, hr⟩
          cases he.symm.trans hr
        · exact (Except.error.inj <| he.symm.trans hf).symm

section Deep

def deepText : Nat → Text
  | 0 => keyA
  | n + 1 => keyA ++ Lexer.dot :: deepText n

def deepTerm : Nat → TermExpr
  | 0 => .seg (.step (.key keyA))
  | n + 1 => .dot (.step (.key keyA)) (deepTerm n)

theorem tokenizes_deepText (n : Nat) : Tokenizes (deepText n) (deepTerm n).kinds := by
  have hsimple : ∀ c ∈ keyA, FieldKey.isSimple c := fun c hc => by rw [List.mem_singleton.mp hc]; rfl
  have hne : keyA ≠ [] := List.cons_ne_nil _ _
  have hdot : FieldKey.isSimple Lexer.dot = false := rfl
  induction n
  case zero => exact .key (t := []) hne hsimple (by simp) .nil
  case succ n ih => exact .key hne hsimple (by simp [hdot]) <| .symbol rfl ih

theorem replicate_mem_denote (n : Nat) : List.replicate (n + 1) (.key keyA) ∈ (deepTerm n).denote := by
  induction n
  case zero => rfl
  case succ n ih => exact Language.mem_mul.mpr ⟨[.key keyA], rfl, _, ih, rfl⟩

theorem parseWithin_deepText (n : Nat) : parseWithin n (deepText n) = .error .recursionError := by
  have hk : Tokenizes (deepText n) (MaskExpr.term (deepTerm n)).kinds := tokenizes_deepText n
  rcases parseWithin_of_tokenizes n hk with ⟨-, hp⟩ | ⟨hr, -⟩
  case inr => exact hr
  case inl =>
    have hone i (hi : i ∈ (1 : Language (Step FieldKey))) : Shared [] i i := Shared.nil_iff.mpr ⟨hi, hi⟩
    have hs := (MaskExpr.term (deepTerm n)).shared_extensions hone (i := []) rfl (replicate_mem_denote n)
      List.prefix_rfl
    have := hp _ hs
    simp at this

-- With the default limit of 1000 frames a mask of 1001 levels is in the grammar and not parsed.
theorem parse_exact_deepText : Tokenizes (deepText 1000) (MaskExpr.term (deepTerm 1000)).kinds ∧
    parseWithin 1000 (deepText 1000) = .error .recursionError :=
  ⟨tokenizes_deepText 1000, parseWithin_deepText 1000⟩

end Deep

end Parser
