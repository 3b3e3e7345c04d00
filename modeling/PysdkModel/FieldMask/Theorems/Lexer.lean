import PysdkModel.FieldMask.Grammar

namespace Lexer

variable {l : Lexer} {t x y : Text} {type : TokenType} {n : Nat} {k : TokenType × Text}
variable {ks ks' : List (TokenType × Text)}

def scan : Text → Option (TokenType × Nat)
  | [] => some (.eol, 0)
  | c :: cs =>
    match symbol? c with
    | some type => some (type, 1)
    | none =>
      if c = Json.quote then
        (quotedLength cs).map fun n => (.quotedKey, n + 1)
      else if FieldKey.isSimple c then
        some (.plainKey, ((c :: cs).takeWhile FieldKey.isSimple).length)
      else
        none

theorem rest_skipSpace : l.skipSpace.rest = l.rest.dropWhile isSpace := by
  simp only [skipSpace, consume]
  conv => lhs; arg 2; rw [← List.takeWhile_append_dropWhile (p := isSpace) (l := l.rest)]
  exact List.drop_left

theorem nextToken_of_scan (h : scan l.skipSpace.rest = some (type, n)) :
    l.nextToken = .ok (l.skipSpace.take type n) := by
  cases hr : l.skipSpace.rest <;> rw [hr] at h <;> simp only [scan] at h <;> simp only [nextToken, hr]
  case nil => cases h; rfl
  case cons c cs =>
    cases hc : symbol? c <;> simp only [hc] at h ⊢
    case some => cases h; rfl
    split at h
    case isTrue hq =>
      obtain ⟨m, hm, h⟩ := Option.map_eq_some_iff.mp h
      cases h
      simp [hq, scanQuotedKey, hr, hm]
    case isFalse hq =>
      split at h
      case isTrue hs => cases h; simp [hq, hs, scanPlainKey, hr]
      case isFalse => cases h

theorem nextToken_of_scan_none (h : scan l.skipSpace.rest = none) : ∃ e, l.nextToken = .error e := by
  cases hr : l.skipSpace.rest <;> rw [hr] at h <;> simp only [scan] at h <;> simp only [nextToken, hr]
  case nil => cases h
  case cons c cs =>
    cases hc : symbol? c <;> simp only [hc] at h ⊢
    case some => cases h
    split at h
    case isTrue hq => simp_all [scanQuotedKey]
    case isFalse hq =>
      split at h
      case isTrue => cases h
      case isFalse hs => simp [hq, hs]

inductive Lexes : Text → List (TokenType × Text) → Prop
  | nil {t : Text} : t.dropWhile isSpace = [] → Lexes t []
  | cons {t : Text} {type : TokenType} {n : Nat} {k : TokenType × Text} {ks : List (TokenType × Text)} :
    scan (t.dropWhile isSpace) = some (type, n) → type ≠ .eol →
    (Token.mk type ((t.dropWhile isSpace).take n) 0).unquote.map Token.kind = some k →
    Lexes ((t.dropWhile isSpace).drop n) ks → Lexes t (k :: ks)

theorem scan_eq_eol (h : scan t = some (.eol, n)) : t = [] := by
  cases t
  case nil => rfl
  case cons c cs =>
    have hs : symbol? c ≠ some .eol := by
      simp only [symbol?]
      repeat' split
      all_goals simp
    simp only [scan] at h
    repeat' split at h
    all_goals simp_all

theorem unquote_kind {tok : Token} (pos : Nat) :
    tok.unquote.map Token.kind = ({ tok with pos } : Token).unquote.map Token.kind := by
  simp only [Token.unquote]
  split <;> simp [Token.kind, Function.comp_def]

theorem lexes_iff (hs : scan (t.dropWhile isSpace) = some (type, n)) (ht : type ≠ .eol) :
    Lexes t ks ↔ ∃ k ks', ks = k :: ks' ∧
      (Token.mk type ((t.dropWhile isSpace).take n) 0).unquote.map Token.kind = some k ∧
      Lexes ((t.dropWhile isSpace).drop n) ks' := by
  constructor
  · rintro (hn | ⟨hs', _, hk, hl⟩)
    · rw [hn, scan] at hs
      cases hs
      exact absurd rfl ht
    · cases hs.symm.trans hs'
      exact ⟨_, _, rfl, hk, hl⟩
  · rintro ⟨k, ks', rfl, hk, hl⟩
    exact .cons hs ht hk hl

theorem lexes_iff_of_eol (hs : scan (t.dropWhile isSpace) = some (.eol, n)) : Lexes t ks ↔ ks = [] := by
  constructor
  · rintro (_ | ⟨hs', ht, _⟩)
    · rfl
    · cases hs.symm.trans hs'
      exact absurd rfl ht
  · rintro rfl
    exact .nil <| scan_eq_eol hs

theorem not_lexes (hs : scan (t.dropWhile isSpace) = none) : ¬Lexes t ks := by
  rintro (hn | ⟨hs', _⟩)
  · simp [hn, scan] at hs
  · cases hs.symm.trans hs'

theorem scan_of_nextToken {r : Token × Lexer} (h : l.nextToken = .ok r) :
    ∃ type n, scan (l.rest.dropWhile isSpace) = some (type, n) ∧ r = l.skipSpace.take type n := by
  rw [← rest_skipSpace]
  cases hs : scan l.skipSpace.rest
  case none =>
    have ⟨e, he⟩ := nextToken_of_scan_none hs
    cases h.symm.trans he
  case some r' => exact ⟨r'.1, r'.2, rfl, Except.ok.inj <| h.symm.trans <| nextToken_of_scan hs⟩

theorem tokens_eq_ok_iff : l.tokens.map (List.map Token.kind) = .ok ks ↔ Lexes l.rest ks := by
  fun_induction Lexer.tokens l generalizing ks
  case case1 l e he =>
    have hs : scan (l.rest.dropWhile isSpace) = none := by
      rw [← rest_skipSpace]
      by_contra hs
      have ⟨r, hs⟩ := Option.ne_none_iff_exists'.mp hs
      cases he.symm.trans <| nextToken_of_scan hs
    simp [Except.map, not_lexes hs]
  case case2 l r hr hu =>
    obtain ⟨type, n, hs, rfl⟩ := scan_of_nextToken hr
    have ht : type ≠ .eol := by
      rintro rfl
      simp [take, Token.unquote] at hu
    have hu := congrArg (Option.map Token.kind) hu
    simp only [take, unquote_kind 0, rest_skipSpace] at hu
    simp [lexes_iff hs ht, hu, Except.map]
  case case3 l r hr tok hu ht =>
    obtain ⟨type, n, hs, rfl⟩ := scan_of_nextToken hr
    simp only [take] at ht
    subst ht
    simp [lexes_iff_of_eol hs, Except.map, eq_comm]
  case case4 l r hr tok hu ht ih =>
    obtain ⟨type, n, hs, rfl⟩ := scan_of_nextToken hr
    have hu := congrArg (Option.map Token.kind) hu
    simp only [take, unquote_kind 0, rest_skipSpace] at hu ht
    have hrest : (l.skipSpace.take type n).2.rest = (l.rest.dropWhile isSpace).drop n := by
      simp only [take, consume, rest_skipSpace]
    rw [hrest] at ih
    rw [lexes_iff hs ht, hu]
    simp only [← ih]
    cases (l.skipSpace.take type n).2.tokens
    case error e => simp [Except.map, bind, Except.bind]
    case ok toks => simp [Except.map, bind, Except.bind, pure, Except.pure, eq_comm]

section Append

variable {c : CodePoint} {sym : TokenType}

theorem symbol?_cases (h : symbol? c = some sym) :
    (c = comma ∧ sym = .comma) ∨ (c = dot ∧ sym = .dot) ∨ (c = lbrace ∧ sym = .lbrace) ∨
    (c = rbrace ∧ sym = .rbrace) ∨ (c = star ∧ sym = .wildCard) := by
  simp only [symbol?] at h
  repeat' split at h
  all_goals simp_all

theorem isSpace_symbol (h : symbol? c = some sym) : isSpace c = false := by
  rcases symbol?_cases h with h | h | h | h | h <;> rw [h.left] <;> rfl

theorem isSimple_symbol (h : symbol? c = some sym) : FieldKey.isSimple c = false := by
  rcases symbol?_cases h with h | h | h | h | h <;> rw [h.left] <;> rfl

theorem quotedLength_append (h : quotedLength x = some n) : quotedLength (x ++ y) = some n ∧ n ≤ x.length := by
  fun_induction quotedLength x generalizing n
  case case1 => cases h
  case case2 =>
    cases h
    exact ⟨by rw [List.cons_append, quotedLength.eq_def]; simp, by simp⟩
  case case3 => cases h
  case case4 hq ih =>
    obtain ⟨m, hm, rfl⟩ := Option.map_eq_some_iff.mp h
    have ⟨ha, hl⟩ := ih hm
    exact ⟨by rw [List.cons_append, quotedLength.eq_def]; simp [hq, ha], by simpa⟩
  case case5 hq hb ih =>
    obtain ⟨m, hm, rfl⟩ := Option.map_eq_some_iff.mp h
    have ⟨ha, hl⟩ := ih hm
    exact ⟨by rw [List.cons_append, quotedLength.eq_def]; simp [hq, hb, ha], by simpa⟩

theorem scan_append (hs : scan x = some (type, n)) (ht : type ≠ .eol) (hc : symbol? c = some sym) :
    scan (x ++ c :: y) = some (type, n) ∧ n ≤ x.length := by
  cases x
  case nil => cases hs; exact absurd rfl ht
  case cons d x =>
    simp only [scan, List.cons_append] at hs ⊢
    split at hs
    case h_1 => cases hs; simp
    split at hs
    case isTrue hq =>
      obtain ⟨m, hm, h⟩ := Option.map_eq_some_iff.mp hs
      cases h
      have ⟨ha, hl⟩ := quotedLength_append (y := c :: y) hm
      simp [hq, ha, hl]
    case isFalse hq =>
      split at hs
      case isFalse => cases hs
      case isTrue hsimple =>
        cases hs
        have htake : (d :: x ++ c :: y).takeWhile FieldKey.isSimple =
            (d :: x).takeWhile FieldKey.isSimple := by
          rw [List.takeWhile_append]
          split
          case isTrue hl =>
            rw [(List.takeWhile_sublist _).eq_of_length hl]
            simp [isSimple_symbol hc]
          case isFalse => rfl
        rw [← List.cons_append, htake]
        exact ⟨by simp [hq, hsimple], (List.takeWhile_sublist _).length_le⟩

theorem lexes_of_dropWhile (h : x.dropWhile isSpace = y.dropWhile isSpace) (hl : Lexes x ks) : Lexes y ks := by
  rcases hl with hn | ⟨hs, ht, hk, hl⟩
  · exact .nil <| h ▸ hn
  · rw [h] at hs hk hl
    exact .cons hs ht hk hl

theorem lexes_append (hc : symbol? c = some sym) (hx : Lexes x ks) (hy : Lexes (c :: y) ks') :
    Lexes (x ++ c :: y) (ks ++ ks') := by
  induction hx
  case nil x hn =>
    refine lexes_of_dropWhile ?_ hy
    rw [List.dropWhile_append, hn]
    simp
  case cons x type n k ks hs ht hk hl ih =>
    have ⟨hs', hn⟩ := scan_append (y := y) hs ht hc
    have hd : (x ++ c :: y).dropWhile isSpace = x.dropWhile isSpace ++ c :: y := by
      rw [List.dropWhile_append, if_neg]
      intro he
      rw [List.isEmpty_iff.mp he] at hs
      cases hs
      exact ht rfl
    refine .cons (hd ▸ hs') ht ?_ ?_
    · rwa [hd, List.take_append_of_le_length hn]
    · rwa [hd, List.drop_append_of_le_length hn]

theorem lexes_symbol (hc : symbol? c = some sym) (hy : Lexes y ks) : Lexes (c :: y) ((sym, [c]) :: ks) := by
  have hd : (c :: y).dropWhile isSpace = c :: y := by simp [isSpace_symbol hc]
  have hq : sym ≠ .quotedKey ∧ sym ≠ .eol := by
    rcases symbol?_cases hc with h | h | h | h | h <;> simp [h.right]
  have hs : scan ((c :: y).dropWhile isSpace) = some (sym, 1) := by simp [hd, scan, hc]
  refine .cons hs hq.right ?_ ?_
  · simp [hd, Token.unquote, hq.left, Token.kind]
  · simpa [hd]

end Append
end Lexer
