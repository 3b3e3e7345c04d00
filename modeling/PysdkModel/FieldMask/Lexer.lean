import PysdkModel.FieldMask.FieldKey

inductive TokenType
  | comma
  | dot
  | lbrace
  | rbrace
  | wildCard
  | plainKey
  | quotedKey
  | eol
  deriving DecidableEq

structure Token where
  type : TokenType
  value : Text
  pos : Nat

inductive ParseError
  | plain (message : Text)
  | contexted (source : Text) (position : Nat) (summary : Text)
  -- A `ContextedParseError` whose summary is the message of the JSON decoder.
  | invalidJson (source : Text) (position : Nat)
  deriving DecidableEq

namespace TokenType

def name : TokenType → String
  | .comma     => "COMMA"
  | .dot       => "DOT"
  | .lbrace    => "LBRACE"
  | .rbrace    => "RBRACE"
  | .wildCard  => "WILD_CARD"
  | .plainKey  => "PLAIN_KEY"
  | .quotedKey => "QUOTED_KEY"
  | .eol       => "EOL"

end TokenType

namespace Token

def kind (t : Token) : TokenType × Text :=
  (t.type, t.value)

def unquote (t : Token) : Option Token :=
  if t.type = .quotedKey then
    (Json.loads t.value).map fun k => { t with type := .plainKey, value := k }
  else
    some t

def repr (t : Token) : Text :=
  let val := if t.type = .quotedKey then t.value else Json.dumps t.value
  .ofChars s!"Token{t.type.name}(".toList ++ val ++ .ofChars s!" pos {t.pos})".toList

end Token

structure Lexer where
  source : Text
  pos : Nat
  rest : Text

namespace Lexer

def comma : CodePoint := 0x2C

def dot : CodePoint := 0x2E

def lbrace : CodePoint := 0x28

def rbrace : CodePoint := 0x29

def star : CodePoint := 0x2A

def isSpace (c : CodePoint) : Bool :=
  c.val == 0x20 || c.val == 0x0D || c.val == 0x0A || c.val == 0x09

def init (source : Text) : Lexer where
  source := source
  pos := 0
  rest := source

def consume (l : Lexer) (n : Nat) : Lexer :=
  { l with pos := l.pos + n, rest := l.rest.drop n }

def skipSpace (l : Lexer) : Lexer :=
  l.consume (l.rest.takeWhile isSpace).length

def take (l : Lexer) (type : TokenType) (n : Nat) : Token × Lexer :=
  (⟨type, l.rest.take n, l.pos⟩, l.consume n)

def scanPlainKey (l : Lexer) : Token × Lexer :=
  l.take .plainKey (l.rest.takeWhile FieldKey.isSimple).length

-- The number of characters up to and including the closing quote. A backslash skips the character
-- after it, and may thereby skip the end of the source.
def quotedLength : Text → Option Nat
  | [] => none
  | c :: cs =>
    if c = Json.quote then
      some 1
    else if c = Json.backslash then
      match cs with
      | [] => none
      | _ :: cs => (quotedLength cs).map (· + 2)
    else
      (quotedLength cs).map (· + 1)

def scanQuotedKey (l : Lexer) : Except ParseError (Token × Lexer) :=
  match quotedLength (l.rest.drop 1) with
  | some n => .ok <| l.take .quotedKey (n + 1)
  | none   => .error <| .contexted l.source l.pos <| .ofChars "unterminated quoted string".toList

def symbol? (c : CodePoint) : Option TokenType :=
  if c = comma then some .comma
  else if c = dot then some .dot
  else if c = lbrace then some .lbrace
  else if c = rbrace then some .rbrace
  else if c = star then some .wildCard
  else none

def nextToken (l : Lexer) : Except ParseError (Token × Lexer) :=
  let l := l.skipSpace
  match l.rest with
  | [] => .ok <| l.take .eol 0
  | c :: _ =>
    match symbol? c with
    | some type => .ok <| l.take type 1
    | none =>
      if c = Json.quote then
        l.scanQuotedKey
      else if FieldKey.isSimple c then
        .ok l.scanPlainKey
      else
        .error <| .contexted l.source l.pos <| .ofChars "unexpected symbol".toList

-- Every token other than the last one takes a part of the source.
theorem nextToken_cases {l : Lexer} {r : Token × Lexer} (h : l.nextToken = .ok r) : r = l.skipSpace.take .eol 0 ∨
    l.skipSpace.rest ≠ [] ∧ ∃ type n, 0 < n ∧ r = l.skipSpace.take type n := by
  simp only [nextToken] at h
  split at h
  case h_1 => exact .inl <| (Except.ok.inj h).symm
  case h_2 c cs hc =>
    refine .inr ⟨by simp [hc], ?_⟩
    split at h
    case h_1 type _ => exact ⟨type, 1, by simp, (Except.ok.inj h).symm⟩
    split at h
    case isTrue =>
      simp only [scanQuotedKey] at h
      split at h
      case h_1 n _ => exact ⟨_, n + 1, by simp, (Except.ok.inj h).symm⟩
      case h_2 => cases h
    split at h
    case isTrue hs => exact ⟨_, _, by simp [hc, hs], (Except.ok.inj h).symm⟩
    case isFalse => cases h

theorem length_rest_nextToken_lt {l : Lexer} {r : Token × Lexer} (h : l.nextToken = .ok r)
    (ht : r.1.type ≠ .eol) : r.2.rest.length < l.rest.length := by
  rcases nextToken_cases h with rfl | ⟨hne, type, n, hn, rfl⟩
  · simp [take] at ht
  · have := List.length_pos_iff.mpr hne
    simp only [take, skipSpace, consume, List.length_drop] at this ⊢
    omega

def tokens (l : Lexer) : Except ParseError (List Token) :=
  match _h : l.nextToken with
  | .error e => .error e
  | .ok r =>
    match r.1.unquote with
    | none => .error <| .invalidJson l.source r.1.pos
    | some tok => if _ht : r.1.type = .eol then .ok [] else do return tok :: (← r.2.tokens)
termination_by l.rest.length
decreasing_by exact length_rest_nextToken_lt ‹_› ‹_›

end Lexer
