import PysdkModel.Lib.Except
import PysdkModel.Lib.Text

-- The JSON text of a `FieldMask`: base/protos/json_format.py

namespace Protos

namespace FieldMaskJson

def underscore : CodePoint := 0x5F

def comma : CodePoint := 0x2C

-- The methods `isupper`, `islower`, `upper` and `lower` of a single character. Beyond ASCII they depend on the version
-- of Unicode.
structure CharCase where
  isUpper : CodePoint → Bool
  isLower : CodePoint → Bool
  upper : CodePoint → Text
  lower : CodePoint → Text
  isUpper_ascii : ∀ c : CodePoint, c.val < 0x80 → (isUpper c ↔ 0x41 ≤ c.val ∧ c.val ≤ 0x5A)
  isLower_ascii : ∀ c : CodePoint, c.val < 0x80 → (isLower c ↔ 0x61 ≤ c.val ∧ c.val ≤ 0x7A)
  upper_ascii : ∀ c : CodePoint, 0x61 ≤ c.val → c.val ≤ 0x7A → upper c = [.ofNat (c.val - 0x20)]
  lower_ascii : ∀ c : CodePoint, 0x41 ≤ c.val → c.val ≤ 0x5A → lower c = [.ofNat (c.val + 0x20)]

def CharCase.ascii : CharCase where
  isUpper c := 0x41 ≤ c.val && c.val ≤ 0x5A
  isLower c := 0x61 ≤ c.val && c.val ≤ 0x7A
  upper c := [.ofNat (c.val - 0x20)]
  lower c := [.ofNat (c.val + 0x20)]
  isUpper_ascii := by simp
  isLower_ascii := by simp
  upper_ascii := by simp
  lower_ascii := by simp

-- The `JsonError`s of the two scanners, each with the path that its text quotes.
inductive MaskError
  | uppercase (path : Text)
  | consecutiveUnderscores (path : Text)
  | underscoreBeforeOther (path : Text)
  | trailingUnderscore (path : Text)
  | underscoreInJson (path : Text)
  deriving DecidableEq

section

variable (u : CharCase)

-- The loop of `_snake_to_camel` over the rest of a path. The flag is `capitalize`.
def toCamel (path : Text) : Bool → Text → Except MaskError Text
  | true, [] => throw (.trailingUnderscore path)
  | false, [] => return []
  | capitalize, c :: rest =>
    if u.isUpper c then
      throw (.uppercase path)
    else if c = underscore then
      if capitalize then throw (.consecutiveUnderscores path) else toCamel path true rest
    else if capitalize then
      if !u.isLower c then
        throw (.underscoreBeforeOther path)
      else do
        return u.upper c ++ (← toCamel path false rest)
    else do
      return c :: (← toCamel path false rest)

def snakeToCamel (path : Text) : Except MaskError Text :=
  toCamel u path false path

-- What the loop of `_camel_to_snake` appends for a character.
def snakeOf (c : CodePoint) : Text :=
  if u.isUpper c then underscore :: u.lower c else [c]

def camelToSnake (path : Text) : Except MaskError Text :=
  if underscore ∈ path then throw (.underscoreInJson path) else return path.flatMap (snakeOf u)

-- The branch of `_encode_well_known`.
def encode (paths : List Text) : Except MaskError Text := do
  return [comma].intercalate (← paths.mapM (snakeToCamel u))

-- The branch of `_parse_well_known` for a string.
def parse (value : Text) : Except MaskError (List Text) :=
  if value = [] then return [] else (value.splitOn comma).mapM (camelToSnake u)

end

def IsAscii (t : Text) : Prop :=
  ∀ c ∈ t, c.val < 0x80

instance : DecidablePred IsAscii :=
  fun t => List.decidableBAll (fun c : CodePoint => c.val < 0x80) t

-- Parsing the text of the paths gives the paths, and encoding the paths of a text gives the text.
structure Faithful (u : CharCase) (paths : List Text) (encoded text : Text) : Prop where
  parsed : parse u encoded = .ok paths
  reencoded : ∀ parsed rewritten, parse u text = .ok parsed → encode u parsed = .ok rewritten → rewritten = text

end FieldMaskJson

end Protos
