import PysdkModel.Lib.Decimal
import PysdkModel.Lib.Pattern
import PysdkModel.Lib.Text

-- The durations of the keepalive configuration: `parse_go_duration_ms` of aio/keepalive.py.

namespace Aio

namespace Keepalive

inductive DurationUnit
  | ns
  | us
  -- `us` with a micro sign (U+00B5) and with a Greek mu (U+03BC).
  | microSign
  | greekMu
  | ms
  | s
  | m
  | h
  deriving DecidableEq

namespace DurationUnit

def text : DurationUnit → Text
  | ns => [0x6E, 0x73]
  | us => [0x75, 0x73]
  | microSign => [0xB5, 0x73]
  | greekMu => [0x3BC, 0x73]
  | ms => [0x6D, 0x73]
  | s => [0x73]
  | m => [0x6D]
  | h => [0x68]

def nanoseconds : DurationUnit → Nat
  | ns => 1
  | us => 1000
  | microSign => 1000
  | greekMu => 1000
  | ms => 1000000
  | s => 1000000000
  | m => 60000000000
  | h => 3600000000000

-- The alternatives in the order of the regular expression.
def alternatives : List DurationUnit :=
  [ns, us, microSign, greekMu, ms, s, m, h]

end DurationUnit

def isDigit (c : CodePoint) : Bool :=
  0x30 ≤ c.val && c.val ≤ 0x39

def isPoint (c : CodePoint) : Bool :=
  c.val = 0x2E

-- `[0-9]+(?:\.[0-9]*)?|\.[0-9]+`
def number : Pattern CodePoint :=
  ((Pattern.plus isDigit).seq ((Pattern.one isPoint).seq (Pattern.many isDigit)).opt).alt
    ((Pattern.one isPoint).seq (Pattern.plus isDigit))

-- `ns|us|µs|μs|ms|s|m|h`
def units (t : Text) : List (DurationUnit × Text) :=
  DurationUnit.alternatives.filterMap fun u =>
    if u.text <+: t then some (u, t.drop u.text.length) else none

-- What `_DURATION_PART_RE` matches: the two groups, and the end of the match.
structure Part where
  number : Text
  unit : DurationUnit
  rest : Text

def allMatches (t : Text) : List Part :=
  (number t).flatMap fun n => (units n.2).map fun u => ⟨n.1, u.1, u.2⟩

def match? (t : Text) : Option Part :=
  (allMatches t).head?

theorem sound_number : number.Sound :=
  .alt (.seq (.seq Pattern.sound_one Pattern.sound_many) (.opt (.seq Pattern.sound_one Pattern.sound_many)))
    (.seq Pattern.sound_one (.seq Pattern.sound_one Pattern.sound_many))

theorem mem_units {t rest : Text} {u : DurationUnit} : (u, rest) ∈ units t ↔ t = u.text ++ rest := by
  constructor
  · intro h
    obtain ⟨v, _, hv⟩ := List.mem_filterMap.mp h
    split at hv
    case isFalse => cases hv
    case isTrue hp =>
      cases hv
      exact (List.prefix_iff_eq_append.mp hp).symm
  · rintro rfl
    refine List.mem_filterMap.mpr ⟨u, by cases u <;> decide, ?_⟩
    rw [if_pos (List.prefix_append _ _), List.drop_left]

theorem mem_allMatches {t : Text} {part : Part} :
    part ∈ allMatches t ↔ (part.number, part.unit.text ++ part.rest) ∈ number t := by
  constructor
  · intro h
    obtain ⟨⟨n, r⟩, hn, h⟩ := List.mem_flatMap.mp h
    obtain ⟨⟨u, rest⟩, hu, rfl⟩ := List.mem_map.mp h
    obtain rfl := mem_units.mp hu
    exact hn
  · intro h
    exact List.mem_flatMap.mpr ⟨_, h, List.mem_map.mpr ⟨(part.unit, part.rest), mem_units.mpr rfl, rfl⟩⟩

theorem eq_append_of_match? {t : Text} {part : Part} (h : match? t = some part) :
    t = part.number ++ (part.unit.text ++ part.rest) :=
  sound_number _ _ _ (mem_allMatches.mp (List.mem_of_mem_head? h))

theorem length_lt_of_match? {t : Text} {part : Part} (h : match? t = some part) : part.rest.length < t.length := by
  have hu : 0 < part.unit.text.length := by cases part.unit <;> decide
  rw [eq_append_of_match? h, List.length_append, List.length_append]
  omega

def natOfDigits (t : Text) : Nat :=
  t.foldl (fun n c => 10 * n + (c.val - 0x30)) 0

-- `Decimal(text)` is exact.
def decimalOf (t : Text) : ℚ :=
  let fraction := (t.dropWhile isDigit).drop 1
  natOfDigits (t.takeWhile isDigit ++ fraction) / 10 ^ fraction.length

def context : Decimal.Context where
  prec := 28
  emin := -999999
  emax := 999999
  pos := by decide

inductive DurationError
  | valueError (message : Text)
  -- `decimal.Overflow`, which is an `ArithmeticError`.
  | overflow

def emptyError (name : Text) : DurationError :=
  .valueError (name ++ .ofString " is empty")

def invalidError (name : Text) : DurationError :=
  .valueError (.ofString "parse " ++ name ++ .ofString ": invalid duration")

def negativeError (name : Text) : DurationError :=
  .valueError (name ++ .ofString " must not be negative")

def operation (x : ℚ) : Except DurationError ℚ :=
  match context.round? x with
  | some y => .ok y
  | none => .error .overflow

def durationPartNs (part : Part) : Except DurationError ℚ :=
  operation (decimalOf part.number * part.unit.nanoseconds)

-- The loop. Its text is what comes after `pos`.
def sumParts (name : Text) (total : ℚ) (t : Text) : Except DurationError ℚ :=
  if t = [] then
    .ok total
  else
    match h : match? t with
    | none => .error (invalidError name)
    | some part => do
      have := length_lt_of_match? h
      let total ← operation (total + (← durationPartNs part))
      sumParts name total part.rest
termination_by t.length

def isSpace (c : CodePoint) : Bool :=
  (0x09 ≤ c.val && c.val ≤ 0x0D) || (0x1C ≤ c.val && c.val ≤ 0x20) || c.val = 0x85 || c.val = 0xA0 || c.val = 0x1680 ||
    (0x2000 ≤ c.val && c.val ≤ 0x200A) || c.val = 0x2028 || c.val = 0x2029 || c.val = 0x202F || c.val = 0x205F ||
    c.val = 0x3000

def strip (t : Text) : Text :=
  ((t.dropWhile isSpace).reverse.dropWhile isSpace).reverse

def splitSign : Text → Int × Text
  | 0x2B :: t => (1, t)
  | 0x2D :: t => (-1, t)
  | t => (1, t)

-- What comes after the loop: the sign and the conversion to milliseconds, rounded up.
def milliseconds (name : Text) (sign : Int) (total : ℚ) : Except DurationError Int := do
  let total ← operation (total * sign)
  if total < 0 then
    .error (negativeError name)
  else if total = 0 then
    return 0
  else
    return ⌈← operation (total / 1000000)⌉

def parseGoDurationMs (name value : Text) : Except DurationError Int :=
  let value := strip value
  if value = [] then
    .error (emptyError name)
  else if value = [0x30] then
    .ok 0
  else
    let (sign, value) := splitSign value
    if value = [] then
      .error (invalidError name)
    else
      sumParts name 0 value >>= milliseconds name sign

end Keepalive

end Aio
