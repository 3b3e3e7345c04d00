import PysdkModel.FieldMask.Lexer
import PysdkModel.FieldMask.Mask
import PysdkModel.Lib.Sharing

-- The grammar of mask texts and the sets of paths that its expressions denote.

abbrev MaskPath := List (Step FieldKey)

mutual

-- mask := term (',' term)*
inductive MaskExpr
  | term (t : TermExpr)
  | comma (t : TermExpr) (m : MaskExpr)

-- term := seg ('.' seg)*
inductive TermExpr
  | seg (s : SegExpr)
  | dot (s : SegExpr) (t : TermExpr)

-- seg := key | '*' | '(' ')' | '(' mask ')'
inductive SegExpr
  | step (s : Step FieldKey)
  | unit
  | group (m : MaskExpr)

end

def Lexer.kinds (source : Text) : Except ParseError (List (TokenType × Text)) :=
  (Lexer.init source).tokens.map (List.map Token.kind)

def Step.kind : Step FieldKey → TokenType × Text
  | .any => (.wildCard, [Lexer.star])
  | .key k => (.plainKey, k)

namespace TokenType

def commaKind : TokenType × Text := (.comma, [Lexer.comma])

def dotKind : TokenType × Text := (.dot, [Lexer.dot])

def lbraceKind : TokenType × Text := (.lbrace, [Lexer.lbrace])

def rbraceKind : TokenType × Text := (.rbrace, [Lexer.rbrace])

end TokenType

open TokenType

mutual

def MaskExpr.kinds : MaskExpr → List (TokenType × Text)
  | .term t => t.kinds
  | .comma t m => t.kinds ++ commaKind :: m.kinds

def TermExpr.kinds : TermExpr → List (TokenType × Text)
  | .seg s => s.kinds
  | .dot s t => s.kinds ++ dotKind :: t.kinds

def SegExpr.kinds : SegExpr → List (TokenType × Text)
  | .step s => [s.kind]
  | .unit => [lbraceKind, rbraceKind]
  | .group m => lbraceKind :: (m.kinds ++ [rbraceKind])

end

mutual

def MaskExpr.denote : MaskExpr → Language (Step FieldKey)
  | .term t => t.denote
  | .comma t m => t.denote + m.denote

def TermExpr.denote : TermExpr → Language (Step FieldKey)
  | .seg s => s.denote
  | .dot s t => s.denote * t.denote

def SegExpr.denote : SegExpr → Language (Step FieldKey)
  | .step s => {[s]}
  | .unit => 1
  | .group m => m.denote

end

def MaskExpr.nodes (m : MaskExpr) : Set MaskPath :=
  { p | ∃ q ∈ m.denote, p <+: q }

-- The keys and '*'s of an expression in the order of the text, each with the paths that it continues,
-- where `I` are the paths that the whole expression continues.
mutual

def MaskExpr.extensions (I : Language (Step FieldKey)) : MaskExpr → List (Extension (Step FieldKey))
  | .term t => t.extensions I
  | .comma t m => t.extensions I ++ m.extensions I

def TermExpr.extensions (I : Language (Step FieldKey)) : TermExpr → List (Extension (Step FieldKey))
  | .seg s => s.extensions I
  | .dot s t => s.extensions I ++ t.extensions (I * s.denote)

def SegExpr.extensions (I : Language (Step FieldKey)) : SegExpr → List (Extension (Step FieldKey))
  | .step s => [⟨I, s⟩]
  | .unit => []
  | .group m => m.extensions I

end
