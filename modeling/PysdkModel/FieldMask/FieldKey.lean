import PysdkModel.Lib.Text

-- A component of paths and masks: an arbitrary Python string.
abbrev FieldKey := Text

namespace FieldKey

def newline : CodePoint := 0x0A

-- The character class `[a-zA-Z0-9_]`, which the encoder and the lexer share.
def isSimple (c : CodePoint) : Bool :=
  (0x61 ≤ c.val && c.val ≤ 0x7A) || (0x41 ≤ c.val && c.val ≤ 0x5A) ||
  (0x30 ≤ c.val && c.val ≤ 0x39) || c.val == 0x5F

-- A match of `_simple_string_pattern`. Its `$` matches at the end of the string and also before a
-- newline that ends the string.
def matchesSimpleString (k : FieldKey) : Bool :=
  !(k.takeWhile isSimple).isEmpty && (k.dropWhile isSimple == [] || k.dropWhile isSimple == [newline])

def marshal (k : FieldKey) : Text :=
  if k.matchesSimpleString then k else Json.dumps k

end FieldKey
