import PysdkModel.Lib.Text

-- base/token_sanitizer.py

def maskString : Text :=
  .ofString "**"

-- `NO_SIGNATURE` is the position `none`. No token without a prefix is recognized, and the mask is a part of its own in
-- a sanitized token.
structure TokenVersion where
  tokenPrefix : Text
  delimiter : CodePoint
  signaturePosition : Option Nat
  tokenPrefix_ne : tokenPrefix ≠ []
  delimiter_nmem : delimiter ∉ maskString

namespace TokenVersion

def dot : CodePoint := 0x2E

theorem dot_nmem : dot ∉ maskString := by
  decide

def v0 : TokenVersion where
  tokenPrefix       := .ofString "v0."
  delimiter := dot
  signaturePosition := none
  tokenPrefix_ne := List.cons_ne_nil _ _
  delimiter_nmem := dot_nmem

def ne1 : TokenVersion where
  tokenPrefix       := .ofString "ne1"
  delimiter := dot
  signaturePosition := some 1
  tokenPrefix_ne := List.cons_ne_nil _ _
  delimiter_nmem := dot_nmem

def accessTokenVersions : List TokenVersion :=
  [v0, ne1]

def parts (v : TokenVersion) (token : Text) : List Text :=
  token.splitOn v.delimiter

end TokenVersion

-- A sanitizer with the `DefaultTokenVersionExtractor` of the given versions.
structure TokenSanitizer where
  versions : List TokenVersion

namespace TokenSanitizer

def accessTokenSanitizer : TokenSanitizer where
  versions := TokenVersion.accessTokenVersions

def extract (s : TokenSanitizer) (token : Text) : Option TokenVersion :=
  s.versions.find? (·.tokenPrefix.isPrefixOf token)

def sanitizeNoSignature (_token tokenPrefix : Text) : Text :=
  tokenPrefix ++ maskString

def sanitizeUnrecognized (_token : Text) : Text :=
  maskString

def sanitize (s : TokenSanitizer) (token : Text) : Text :=
  if token = [] then
    []
  else
    match s.extract token with
    | none => sanitizeUnrecognized token
    | some version =>
      let tokenParts := version.parts token
      match version.signaturePosition with
      | none => sanitizeNoSignature token version.tokenPrefix
      | some position =>
        if tokenParts.length ≤ position then
          sanitizeUnrecognized token
        else
          [version.delimiter].intercalate (tokenParts.set position maskString)

-- A token of which nothing may be seen: one that is not recognized, or has no part at the position of its signature.
def Concealed (s : TokenSanitizer) (token : Text) : Prop :=
  token ≠ [] ∧ (s.extract token = none ∨
    ∃ v p, s.extract token = some v ∧ v.signaturePosition = some p ∧ (v.parts token).length ≤ p)

-- Both tokens are of the version, have a signature at the position, and are the same before it.
structure SameBefore (s : TokenSanitizer) (v : TokenVersion) (p : Nat) (t₁ t₂ : Text) : Prop where
  left : s.extract t₁ = some v
  right : s.extract t₂ = some v
  position : v.signaturePosition = some p
  signed₁ : p < (v.parts t₁).length
  signed₂ : p < (v.parts t₂).length
  before : (v.parts t₁).take p = (v.parts t₂).take p

-- Two tokens that may differ from the signature on, or at all, cannot be told apart when they are sanitized.
structure RevealsNothing (s : TokenSanitizer) (t₁ t₂ : Text) : Prop where
  signature : ∀ v p, s.SameBefore v p t₁ t₂ → s.sanitize t₁ = s.sanitize t₂
  noSignature : ∀ v, s.extract t₁ = some v → s.extract t₂ = some v → v.signaturePosition = none →
    s.sanitize t₁ = s.sanitize t₂
  concealed : s.Concealed t₁ → s.Concealed t₂ → s.sanitize t₁ = s.sanitize t₂

-- Tokens that are the same before the signature are also the same after it.
def SameAfter (s : TokenSanitizer) (t₁ t₂ : Text) : Prop :=
  ∀ v p, s.SameBefore v p t₁ t₂ → (v.parts t₁).drop (p + 1) = (v.parts t₂).drop (p + 1)

end TokenSanitizer
