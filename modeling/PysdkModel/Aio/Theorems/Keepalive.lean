import PysdkModel.Aio.Keepalive
import PysdkModel.Lib.Except
import Mathlib.Data.List.TakeWhile
import Mathlib.Data.Nat.Digits.Defs

namespace Aio

namespace Keepalive

def isStart (c : CodePoint) : Bool :=
  isDigit c || isPoint c

def digit (d : Fin 10) : CodePoint :=
  .ofNat (0x30 + d.val)

def digits (ds : List (Fin 10)) : Text :=
  ds.map digit

inductive Numeral
  | integer (whole : List (Fin 10)) (h : whole ≠ [])
  | decimal (whole fraction : List (Fin 10)) (h : whole ≠ [])
  | point (fraction : List (Fin 10)) (h : fraction ≠ [])

def natOf (ds : List (Fin 10)) : Nat :=
  Nat.ofDigits 10 (ds.reverse.map Fin.val)

namespace Numeral

def text : Numeral → Text
  | integer whole _ => digits whole
  | decimal whole fraction _ => digits whole ++ 0x2E :: digits fraction
  | point fraction _ => 0x2E :: digits fraction

def value : Numeral → ℚ
  | integer whole _ => natOf whole
  | decimal whole fraction _ => natOf whole + natOf fraction / 10 ^ fraction.length
  | point fraction _ => natOf fraction / 10 ^ fraction.length

end Numeral

structure Component where
  numeral : Numeral
  unit : DurationUnit

namespace Component

def text (c : Component) : Text :=
  c.numeral.text ++ c.unit.text

def nanoseconds (c : Component) : ℚ :=
  c.numeral.value * c.unit.nanoseconds

end Component

def write (cs : List Component) : Text :=
  cs.flatMap Component.text

def sum (cs : List Component) : ℚ :=
  (cs.map Component.nanoseconds).sum

inductive DurationSign
  | unsigned
  | plus
  | minus

namespace DurationSign

def text : DurationSign → Text
  | unsigned => []
  | plus => [0x2B]
  | minus => [0x2D]

def factor : DurationSign → Int
  | unsigned => 1
  | plus => 1
  | minus => -1

end DurationSign

structure Reading where
  sign : DurationSign
  components : List Component
  nonempty : components ≠ []

namespace Reading

def text (r : Reading) : Text :=
  r.sign.text ++ write r.components

def sum (r : Reading) : ℚ :=
  Keepalive.sum r.components * r.sign.factor

end Reading

def Shape (value : Text) (r : Reading) : Prop :=
  ∃ before after, (∀ c ∈ before, isSpace c) ∧ (∀ c ∈ after, isSpace c) ∧ value = before ++ r.text ++ after

theorem val_digit (d : Fin 10) : (digit d).val = 0x30 + d.val :=
  CodePoint.val_ofNat (by omega)

variable {c : CodePoint}

theorem isDigit_iff : isDigit c ↔ 0x30 ≤ c.val ∧ c.val ≤ 0x39 := by
  simp [isDigit]

theorem isPoint_iff : isPoint c ↔ c = 0x2E := by
  simp only [isPoint, decide_eq_true_eq, Fin.ext_iff]
  exact Iff.rfl

theorem isDigit_digit (d : Fin 10) : isDigit (digit d) := by
  rw [isDigit_iff, val_digit]
  omega

theorem isDigit_of_mem_digits {ds : List (Fin 10)} (h : c ∈ digits ds) : isDigit c := by
  obtain ⟨d, _, rfl⟩ := List.mem_map.mp h
  exact isDigit_digit d

theorem exists_digits {t : Text} (h : ∀ c ∈ t, isDigit c) : ∃ ds, t = digits ds := by
  induction t with
  | nil => exact ⟨[], rfl⟩
  | cons c t ih =>
    obtain ⟨hc, ht⟩ := List.forall_mem_cons.mp h
    obtain ⟨ds, rfl⟩ := ih ht
    have hv := isDigit_iff.mp hc
    refine ⟨⟨c.val - 0x30, by omega⟩ :: ds, ?_⟩
    have hd : digit ⟨c.val - 0x30, by omega⟩ = c := by
      refine Fin.ext ?_
      rw [val_digit]
      simp only
      omega
    exact congrArg (· :: digits ds) hd.symm

theorem isPoint_point : isPoint 0x2E := rfl

theorem isDigit_point : isDigit 0x2E = false := rfl

theorem head?_number (n : Numeral) {r : Text} (hr : ∀ c ∈ r.head?, isStart c = false) :
    (number (n.text ++ r)).head? = some (n.text, r) := by
  have hr₁ : ∀ c ∈ r.head?, isDigit c = false := fun c hc => (Bool.or_eq_false_iff.mp (hr c hc)).1
  have hr₂ : ∀ c ∈ r.head?, isPoint c = false := fun c hc => (Bool.or_eq_false_iff.mp (hr c hc)).2
  have hd (ds : List (Fin 10)) : ∀ c ∈ digits ds, isDigit c := fun _ => isDigit_of_mem_digits
  have hne {ds : List (Fin 10)} (h : ds ≠ []) : digits ds ≠ [] := by simpa [digits] using h
  have hp (t : Text) : ∀ c ∈ ((0x2E : CodePoint) :: t).head?, isDigit c = false := by
    rintro c ⟨⟩
    exact isDigit_point
  cases n with
  | integer whole h =>
    have hw := Pattern.head?_plus (hne h) (hd whole) hr₁
    have hf := Pattern.head?_opt_of_eq_nil (Pattern.seq_eq_nil (b := .many isDigit) (Pattern.one_eq_nil hr₂))
    have hseq := Pattern.head?_seq hw hf
    rw [List.append_nil] at hseq
    exact Pattern.head?_alt hseq
  | decimal whole fraction h =>
    have hw := Pattern.head?_plus (hne h) (hd whole) (hp (digits fraction ++ r))
    have hf := Pattern.head?_seq (Pattern.head?_one isPoint_point) (Pattern.head?_many (hd fraction) hr₁)
    rw [Numeral.text, List.append_assoc]
    exact Pattern.head?_alt (Pattern.head?_seq hw (Pattern.head?_opt hf))
  | point fraction h =>
    have hf := Pattern.head?_seq (Pattern.head?_one isPoint_point) (Pattern.head?_plus (hne h) (hd fraction) hr₁)
    exact Pattern.head?_alt_right (Pattern.seq_eq_nil (Pattern.seq_eq_nil (Pattern.one_eq_nil (hp _)))) hf

theorem exists_numeral {t m r : Text} (h : (m, r) ∈ number t) : ∃ n : Numeral, m = n.text := by
  rcases List.mem_append.mp h with h | h
  · obtain ⟨m₁, r₁, m₂, h₁, h₂, rfl⟩ := Pattern.mem_seq.mp h
    obtain ⟨_, hne, hd⟩ := Pattern.mem_plus h₁
    obtain ⟨whole, rfl⟩ := exists_digits hd
    have hw : whole ≠ [] := fun hw => hne (by rw [hw]; rfl)
    rcases List.mem_append.mp h₂ with h₂ | h₂
    · obtain ⟨p, r₂, f, hp, hf, rfl⟩ := Pattern.mem_seq.mp h₂
      obtain ⟨c, hc, rfl, rfl⟩ := Pattern.mem_one.mp hp
      obtain ⟨fraction, rfl⟩ := exists_digits (Pattern.mem_many hf).2
      exact ⟨.decimal whole fraction hw, by rw [isPoint_iff.mp hc]; rfl⟩
    · cases List.mem_singleton.mp h₂
      exact ⟨.integer whole hw, List.append_nil _⟩
  · obtain ⟨p, r₂, f, hp, hf, rfl⟩ := Pattern.mem_seq.mp h
    obtain ⟨c, hc, rfl, rfl⟩ := Pattern.mem_one.mp hp
    obtain ⟨_, hne, hd⟩ := Pattern.mem_plus hf
    obtain ⟨fraction, rfl⟩ := exists_digits hd
    have hf : fraction ≠ [] := fun hf => hne (by rw [hf]; rfl)
    exact ⟨.point fraction hf, by rw [isPoint_iff.mp hc]; rfl⟩

theorem exists_letter (u : DurationUnit) : ∃ l w, u.text = l :: w ∧ isStart l = false := by
  cases u <;> exact ⟨_, _, rfl, rfl⟩

theorem head?_units (u : DurationUnit) {r : Text} (hr : ∀ c ∈ r.head?, isStart c) :
    (units (u.text ++ r)).head? = some (u, r) := by
  have hs : ¬[(0x73 : CodePoint)] <+: r := by
    rintro ⟨t, rfl⟩
    exact absurd (hr 0x73 rfl) (by decide)
  cases u <;> simp [units, DurationUnit.alternatives, DurationUnit.text, List.cons_prefix_cons, hs]

theorem match?_component (c : Component) {r : Text} (hr : ∀ d ∈ r.head?, isStart d) :
    match? (c.text ++ r) = some ⟨c.numeral.text, c.unit, r⟩ := by
  obtain ⟨l, w, hu, hl⟩ := exists_letter c.unit
  have hn : (number (c.text ++ r)).head? = some (c.numeral.text, c.unit.text ++ r) := by
    rw [Component.text, List.append_assoc]
    refine head?_number c.numeral ?_
    rw [hu]
    rintro d ⟨⟩
    exact hl
  obtain ⟨others, he⟩ := List.head?_eq_some_iff.mp hn
  rw [match?, allMatches, he, List.flatMap_cons, List.head?_append, List.head?_map, head?_units c.unit hr]
  rfl

theorem exists_component {t : Text} {part : Part} (h : match? t = some part) : ∃ n : Numeral, part.number = n.text :=
  exists_numeral (mem_allMatches.mp (List.mem_of_mem_head? h))

theorem natOfDigits_concat (t : Text) (c : CodePoint) :
    natOfDigits (t ++ [c]) = 10 * natOfDigits t + (c.val - 0x30) := by
  rw [natOfDigits, List.foldl_append]
  rfl

theorem natOfDigits_append (t u : Text) : natOfDigits (t ++ u) = natOfDigits t * 10 ^ u.length + natOfDigits u := by
  induction u using List.reverseRecOn with
  | nil => simp [natOfDigits]
  | append_singleton u c ih =>
    rw [← List.append_assoc, natOfDigits_concat, natOfDigits_concat, ih, List.length_append, List.length_singleton,
      pow_succ]
    ring

theorem natOfDigits_digits (ds : List (Fin 10)) : natOfDigits (digits ds) = natOf ds := by
  induction ds using List.reverseRecOn with
  | nil => rfl
  | append_singleton ds d ih =>
    rw [digits, List.map_append, ← digits, List.map_singleton, natOfDigits_concat, ih, val_digit]
    simp [natOf, Nat.ofDigits_cons]
    ring

theorem takeWhile_digits (ds : List (Fin 10)) {r : Text} (hr : ∀ c ∈ r.head?, isDigit c = false) :
    (digits ds ++ r).takeWhile isDigit = digits ds ∧ (digits ds ++ r).dropWhile isDigit = r := by
  have hd : ∀ c ∈ digits ds, isDigit c := fun _ => isDigit_of_mem_digits
  rw [List.takeWhile_append_of_pos hd, List.dropWhile_append_of_pos hd]
  cases r with
  | nil => simp
  | cons c r => simp [hr c rfl]

theorem decimalOf_text (n : Numeral) : decimalOf n.text = n.value := by
  cases n with
  | integer whole h =>
    obtain ⟨ht, hd⟩ := takeWhile_digits whole (r := []) (by simp)
    rw [List.append_nil] at ht hd
    simp [decimalOf, Numeral.text, Numeral.value, ht, hd, natOfDigits_digits]
  | decimal whole fraction h =>
    obtain ⟨ht, hd⟩ := takeWhile_digits whole (r := 0x2E :: digits fraction) (by rintro c ⟨⟩; exact isDigit_point)
    simp only [decimalOf, Numeral.text, Numeral.value, ht, hd, List.drop_one, List.tail_cons, natOfDigits_append,
      natOfDigits_digits]
    have hl : (digits fraction).length = fraction.length := List.length_map _
    have hp : (10 : ℚ) ^ fraction.length ≠ 0 := by positivity
    rw [hl]
    push_cast
    field_simp
  | point fraction h =>
    have ht : ((0x2E : CodePoint) :: digits fraction).takeWhile isDigit = [] := by simp [isDigit_point]
    have hd : ((0x2E : CodePoint) :: digits fraction).dropWhile isDigit = 0x2E :: digits fraction := by
      simp [isDigit_point]
    have hl : (digits fraction).length = fraction.length := List.length_map _
    simp only [decimalOf, Numeral.text, Numeral.value, ht, hd, List.drop_one, List.tail_cons, List.nil_append,
      natOfDigits_digits, hl]

theorem value_nonneg (n : Numeral) : 0 ≤ n.value := by
  cases n <;> simp only [Numeral.value] <;> positivity

theorem nanoseconds_nonneg (c : Component) : 0 ≤ c.nanoseconds :=
  mul_nonneg (value_nonneg c.numeral) (by positivity)

theorem sum_cons (c : Component) (cs : List Component) : sum (c :: cs) = c.nanoseconds + sum cs := by
  rw [sum, List.map_cons, List.sum_cons, sum]

theorem sum_nonneg (cs : List Component) : 0 ≤ sum cs := by
  induction cs with
  | nil => exact le_rfl
  | cons c cs ih =>
    rw [sum_cons]
    exact add_nonneg (nanoseconds_nonneg c) ih

variable {name t value : Text} {total : ℚ}

def addPart (total x : ℚ) : Except DurationError ℚ := do
  operation (total + (← operation x))

theorem sumParts_of_match? {part : Part} (h : match? t = some part) :
    sumParts name total t =
      addPart total (decimalOf part.number * part.unit.nanoseconds) >>= (sumParts name · part.rest) := by
  have ht : t ≠ [] := by
    rintro rfl
    exact absurd (length_lt_of_match? h) (Nat.not_lt_zero _)
  rw [sumParts, if_neg ht]
  split
  case h_1 h' => cases h'.symm.trans h
  case h_2 h' =>
    cases h'.symm.trans h
    rw [addPart, bind_assoc, durationPartNs]

theorem sumParts_of_eq_none (ht : t ≠ []) (h : match? t = none) :
    sumParts name total t = .error (invalidError name) := by
  rw [sumParts, if_neg ht]
  split
  case h_1 => rfl
  case h_2 h' => cases h'.symm.trans h

theorem exists_start (n : Numeral) : ∃ c w, n.text = c :: w ∧ isStart c := by
  cases n with
  | integer whole h =>
    cases whole with
    | nil => exact absurd rfl h
    | cons d w => exact ⟨_, _, rfl, by simp [isStart, isDigit_digit]⟩
  | decimal whole fraction h =>
    cases whole with
    | nil => exact absurd rfl h
    | cons d w => exact ⟨_, _, rfl, by simp [isStart, isDigit_digit]⟩
  | point fraction h => exact ⟨_, _, rfl, rfl⟩

theorem head?_write (cs : List Component) : ∀ c ∈ (write cs).head?, isStart c := by
  cases cs with
  | nil => simp [write]
  | cons d cs =>
    obtain ⟨c, w, hn, hc⟩ := exists_start d.numeral
    rw [write, List.flatMap_cons, Component.text, hn]
    rintro e ⟨⟩
    exact hc

def accumulate (total : ℚ) (cs : List Component) : Except DurationError ℚ :=
  cs.foldlM (fun total c => addPart total c.nanoseconds) total

theorem sumParts_write (cs : List Component) : sumParts name total (write cs) = accumulate total cs := by
  induction cs generalizing total with
  | nil => simp [write, sumParts, accumulate, pure, Except.pure]
  | cons c cs ih =>
    have hm : match? (write (c :: cs)) = some ⟨c.numeral.text, c.unit, write cs⟩ := match?_component c (head?_write cs)
    rw [sumParts_of_match? hm, decimalOf_text, accumulate, List.foldlM_cons]
    simp only [ih]
    rfl

theorem write_cons (c : Component) (cs : List Component) : write (c :: cs) = c.text ++ write cs :=
  List.flatMap_cons

theorem operation_cases {s p : ℚ} (hs : context.Fits s) (h₀ : 0 ≤ s) (hp : 0 ≤ p) :
    (∃ y, operation (s + p) = .ok y ∧ context.Fits y ∧ 0 ≤ y ∧ y ≤ s + 2 * p) ∨
      operation (s + p) = .error .overflow ∧ 10 ^ (context.emax + 1) ≤ s + 2 * p := by
  have hsum : 0 ≤ s + p := add_nonneg h₀ hp
  have hle := Decimal.Context.nearest_le hs h₀ hp
  unfold operation
  split
  case h_1 y hy =>
    obtain rfl := Decimal.Context.round?_eq_some hy
    exact .inl ⟨_, rfl, Decimal.Context.fits_nearest hsum, Decimal.Context.nearest_nonneg hsum, hle⟩
  case h_2 hn => exact .inr ⟨rfl, (Decimal.Context.le_of_round?_eq_none hn hsum).trans hle⟩

theorem addPart_cases {x : ℚ} (hs : context.Fits total) (h₀ : 0 ≤ total) (hx : 0 ≤ x) :
    (∃ y, addPart total x = .ok y ∧ context.Fits y ∧ 0 ≤ y ∧ y ≤ total + 4 * x) ∨
      addPart total x = .error .overflow ∧ 10 ^ (context.emax + 1) ≤ total + 4 * x := by
  have hx' := operation_cases Decimal.Context.fits_zero le_rfl hx
  rw [zero_add] at hx'
  rcases hx' with ⟨p, hp, _, hp₀, hple⟩ | ⟨hp, hple⟩
  case inr => exact .inr ⟨by rw [addPart, hp]; rfl, by linarith⟩
  case inl =>
    have hadd : addPart total x = operation (total + p) := by
      rw [addPart, hp]
      rfl
    rw [hadd]
    rcases operation_cases hs h₀ hp₀ with ⟨y, hy, hyf, hy₀, hyle⟩ | ⟨hy, hyle⟩
    case inr => exact .inr ⟨hy, by linarith⟩
    case inl => exact .inl ⟨y, hy, hyf, hy₀, by linarith⟩

theorem sumParts_cases (name t : Text) (hs : context.Fits total) (h₀ : 0 ≤ total) :
    (∃ cs, t = write cs) ∨ sumParts name total t = .error (invalidError name) ∨
      sumParts name total t = .error .overflow ∧
        ∃ cs rest, t = write cs ++ rest ∧ 10 ^ (context.emax + 1) ≤ total + 4 * sum cs := by
  induction hl : t.length using Nat.strong_induction_on generalizing t total with
  | _ l ih =>
    subst hl
    by_cases ht : t = []
    case pos => exact .inl ⟨[], ht⟩
    cases hm : match? t with
    | none => exact .inr (.inl (sumParts_of_eq_none ht hm))
    | some part =>
      obtain ⟨n, hn⟩ := exists_component hm
      obtain ⟨c, rfl, hu⟩ : ∃ c : Component, c.numeral = n ∧ c.unit = part.unit := ⟨⟨n, part.unit⟩, rfl, rfl⟩
      have htext : t = c.text ++ part.rest := by
        rw [eq_append_of_match? hm, hn, Component.text, hu, List.append_assoc]
      rw [sumParts_of_match? hm, hn, decimalOf_text, ← hu, ← Component.nanoseconds]
      rcases addPart_cases hs h₀ (nanoseconds_nonneg c) with ⟨y, hy, hyf, hy₀, hyle⟩ | ⟨hy, hyle⟩
      case inr =>
        refine .inr (.inr ⟨by rw [hy]; rfl, [c], part.rest, ?_, ?_⟩)
        · rw [htext, write_cons, write, List.flatMap_nil, List.append_nil]
        · rwa [sum_cons, sum, List.map_nil, List.sum_nil, add_zero]
      case inl =>
        have hstep : (addPart total c.nanoseconds >>= (sumParts name · part.rest)) = sumParts name y part.rest := by
          rw [hy]
          rfl
        rw [hstep]
        rcases ih _ (length_lt_of_match? hm) part.rest hyf hy₀ rfl with ⟨cs, hcs⟩ | hi | ⟨ho, cs, rest, hcs, hle⟩
        · exact .inl ⟨c :: cs, by rw [htext, hcs, write_cons]⟩
        · exact .inr (.inl hi)
        · refine .inr (.inr ⟨ho, c :: cs, rest, by rw [htext, hcs, write_cons, List.append_assoc], ?_⟩)
          rw [sum_cons]
          linarith

theorem digits_inj {ds ds' : List (Fin 10)} (h : digits ds = digits ds') : ds = ds' := by
  refine List.map_injective_iff.mpr (fun d d' hd => ?_) h
  have hv := congrArg Fin.val hd
  rw [val_digit, val_digit] at hv
  exact Fin.ext (by omega)

namespace Numeral

def whole : Numeral → List (Fin 10)
  | integer whole _ => whole
  | decimal whole _ _ => whole
  | point _ _ => []

def fraction? : Numeral → Option (List (Fin 10))
  | integer _ _ => none
  | decimal _ fraction _ => some fraction
  | point fraction _ => some fraction

def fractionText : Option (List (Fin 10)) → Text
  | none => []
  | some fraction => 0x2E :: digits fraction

theorem text_eq (n : Numeral) : n.text = digits n.whole ++ fractionText n.fraction? := by
  cases n with
  | integer whole _ => exact (List.append_nil _).symm
  | decimal => rfl
  | point => rfl

theorem fractionText_inj {f f' : Option (List (Fin 10))} (h : fractionText f = fractionText f') : f = f' := by
  cases f <;> cases f'
  case none.none => rfl
  case some.some => rw [digits_inj (List.cons.inj h).2]
  all_goals cases h

theorem head?_fractionText (f : Option (List (Fin 10))) : ∀ c ∈ (fractionText f).head?, isDigit c = false := by
  cases f with
  | none => simp [fractionText]
  | some =>
    rintro c ⟨⟩
    exact isDigit_point

theorem text_inj {n n' : Numeral} (h : n.text = n'.text) : n = n' := by
  obtain ⟨ht, hd⟩ := takeWhile_digits n.whole (head?_fractionText n.fraction?)
  obtain ⟨ht', hd'⟩ := takeWhile_digits n'.whole (head?_fractionText n'.fraction?)
  rw [← text_eq] at ht hd ht' hd'
  rw [h] at ht hd
  have hw := digits_inj (ht.symm.trans ht')
  have hf := fractionText_inj (hd.symm.trans hd')
  cases n <;> cases n' <;> simp_all [whole, fraction?]

end Numeral

variable {cs : List Component}

theorem write_inj {cs' : List Component} (h : write cs = write cs') : cs = cs' := by
  have hm (c : Component) (cs : List Component) : match? (write (c :: cs)) = some ⟨c.numeral.text, c.unit, write cs⟩ :=
    match?_component c (head?_write cs)
  have hnil : match? (write []) = none := rfl
  induction cs generalizing cs' with
  | nil =>
    cases cs' with
    | nil => rfl
    | cons c cs' =>
      rw [h, hm] at hnil
      cases hnil
  | cons c cs ih =>
    cases cs' with
    | nil =>
      rw [← h, hm] at hnil
      cases hnil
    | cons c' cs' =>
      have hpart := (hm c cs).symm.trans ((congrArg match? h).trans (hm c' cs'))
      simp only [Option.some.injEq, Part.mk.injEq] at hpart
      obtain ⟨hn, hu, hw⟩ := hpart
      have hc : c = c' := by
        cases c
        cases c'
        simp only [Component.mk.injEq]
        exact ⟨Numeral.text_inj hn, hu⟩
      rw [hc, ih hw]

theorem write_ne_nil (h : cs ≠ []) : write cs ≠ [] :=
  fun hw => h (write_inj hw)

theorem exists_write (h : cs ≠ []) : ∃ c w, write cs = c :: w ∧ isStart c := by
  obtain ⟨c, w, hw⟩ := List.exists_cons_of_ne_nil (write_ne_nil h)
  exact ⟨c, w, hw, head?_write cs c (by rw [hw]; rfl)⟩

theorem splitSign_of_isStart (h : isStart c) : splitSign (c :: t) = (1, c :: t) := by
  unfold splitSign
  split
  case h_1 he =>
    cases he
    cases h
  case h_2 he =>
    cases he
    cases h
  case h_3 => rfl

namespace Reading

variable {r r' : Reading}

theorem splitSign_text (r : Reading) : splitSign r.text = (r.sign.factor, write r.components) := by
  obtain ⟨c, w, hw, hc⟩ := exists_write r.nonempty
  unfold text
  cases r.sign
  case unsigned =>
    rw [hw]
    exact splitSign_of_isStart hc
  case plus => rfl
  case minus => rfl

theorem text_inj (h : r.text = r'.text) : r = r' := by
  obtain ⟨c, w, hw, hc⟩ := exists_write r.nonempty
  obtain ⟨c', w', hw', hc'⟩ := exists_write r'.nonempty
  have hs := congrArg splitSign h
  rw [splitSign_text, splitSign_text] at hs
  have hcs := write_inj (congrArg Prod.snd hs)
  have hsign : r.sign = r'.sign := by
    unfold text at h
    rw [hw, hw'] at h
    cases hr : r.sign <;> cases hr' : r'.sign <;> rw [hr, hr'] at h
    case unsigned.plus => cases h; cases hc
    case unsigned.minus => cases h; cases hc
    case plus.unsigned => cases h; cases hc'
    case minus.unsigned => cases h; cases hc'
    case plus.minus => cases h
    case minus.plus => cases h
  cases r
  cases r'
  simp_all

end Reading

theorem exists_strip (value : Text) :
    ∃ before after, (∀ c ∈ before, isSpace c) ∧ (∀ c ∈ after, isSpace c) ∧ value = before ++ strip value ++ after := by
  have hmem {t : Text} {c : CodePoint} (h : c ∈ t.takeWhile isSpace) : isSpace c := List.mem_takeWhile_imp h
  refine ⟨value.takeWhile isSpace, ((value.dropWhile isSpace).reverse.takeWhile isSpace).reverse, fun _ => hmem,
    fun c hc => hmem (List.mem_reverse.mp hc), ?_⟩
  rw [strip, List.append_assoc, ← List.reverse_append, List.takeWhile_append_dropWhile, List.reverse_reverse,
    List.takeWhile_append_dropWhile]

theorem strip_append {before after : Text} (hb : ∀ c ∈ before, isSpace c) (ha : ∀ c ∈ after, isSpace c)
    (hn : t ≠ []) (h₁ : ∀ c ∈ t.head?, isSpace c = false) (h₂ : ∀ c ∈ t.reverse.head?, isSpace c = false) :
    strip (before ++ t ++ after) = t := by
  have hd {t u : Text} (hn : t ≠ []) (h : ∀ c ∈ t.head?, isSpace c = false) : (t ++ u).dropWhile isSpace = t ++ u := by
    cases t with
    | nil => exact absurd rfl hn
    | cons c t => simp [h c rfl]
  have hr : t.reverse ≠ [] := by simpa using hn
  rw [strip, List.append_assoc, List.dropWhile_append_of_pos hb, hd hn h₁, List.reverse_append,
    List.dropWhile_append_of_pos (by simpa using ha), ← List.append_nil t.reverse, hd hr h₂, List.append_nil,
    List.reverse_reverse]

theorem isSpace_of_isStart (h : isStart c) : isSpace c = false := by
  simp only [isStart, isDigit, isPoint, Bool.or_eq_true, Bool.and_eq_true, decide_eq_true_eq] at h
  simp only [isSpace, Bool.or_eq_false_iff, Bool.and_eq_false_iff, decide_eq_false_iff_not]
  omega

variable {r : Reading}

theorem strip_of_shape (h : Shape value r) : strip value = r.text := by
  obtain ⟨before, after, hb, ha, rfl⟩ := h
  obtain ⟨c, w, hw, hc⟩ := exists_write r.nonempty
  refine strip_append hb ha ?_ ?_ ?_
  · simp [Reading.text, hw]
  · unfold Reading.text
    rw [hw]
    cases r.sign <;> rintro d ⟨⟩
    case unsigned => exact isSpace_of_isStart hc
    all_goals rfl
  · -- The last character is that of a unit.
    obtain ⟨cs, c, hcs⟩ := (List.eq_nil_or_concat r.components).resolve_left r.nonempty
    have hu : ∃ l u, c.unit.text.reverse = l :: u ∧ isSpace l = false := by
      cases c.unit <;> exact ⟨_, _, rfl, rfl⟩
    obtain ⟨l, u, hl, hs⟩ := hu
    simp only [Reading.text, hcs, write, List.concat_eq_append, List.flatMap_append, List.flatMap_singleton,
      Component.text, List.reverse_append, hl, List.cons_append, List.append_assoc]
    rintro d ⟨⟩
    exact hs

theorem shape_iff : Shape value r ↔ strip value = r.text := by
  refine ⟨strip_of_shape, fun h => ?_⟩
  obtain ⟨before, after, hb, ha, he⟩ := exists_strip value
  exact ⟨before, after, hb, ha, h ▸ he⟩

structure InRange (x : ℚ) : Prop where
  digits : Decimal.Context.Significant context.prec x
  lower : x = 0 ∨ 10 ^ (context.emin + 6) ≤ x
  upper : x < 10 ^ (context.emax + 1)

theorem operation_of_significant {x : ℚ} (h : Decimal.Context.Significant context.prec x)
    (hl : x = 0 ∨ 10 ^ context.emin ≤ |x|) (hu : |x| < 10 ^ (context.emax + 1)) : operation x = .ok x := by
  have hr := Decimal.Context.round?_of_significant h hl hu
  unfold operation
  rw [hr]

namespace InRange

variable {x : ℚ}

theorem nonneg (h : InRange x) : 0 ≤ x := by
  rcases h.lower with rfl | hl
  · exact le_rfl
  · exact (Decimal.Context.ten_zpow_pos _).le.trans hl

theorem le_abs (h : InRange x) : x = 0 ∨ 10 ^ context.emin ≤ |x| := by
  refine h.lower.imp_right fun hl => ?_
  rw [abs_of_nonneg h.nonneg]
  exact (Decimal.Context.ten_zpow_le_iff.mpr (by omega)).trans hl

theorem abs_lt (h : InRange x) : |x| < 10 ^ (context.emax + 1) := by
  rw [abs_of_nonneg h.nonneg]
  exact h.upper

theorem operation_eq (h : InRange x) : operation x = .ok x :=
  operation_of_significant h.digits h.le_abs h.abs_lt

theorem operation_neg (h : InRange x) : operation (-x) = .ok (-x) := by
  obtain ⟨m, e, hx, hm⟩ := h.digits
  refine operation_of_significant ⟨-m, e, by rw [hx]; push_cast; ring, by rwa [abs_neg]⟩ ?_
    (by rw [abs_neg]; exact h.abs_lt)
  rw [abs_neg, neg_eq_zero]
  exact h.le_abs

theorem operation_div (h : InRange x) : operation (x / 1000000) = .ok (x / 1000000) := by
  have hten : (1000000 : ℚ) = 10 ^ (6 : ℤ) := by norm_num
  obtain ⟨m, e, hx, hm⟩ := h.digits
  have hdiv : x / 1000000 = m * 10 ^ (e - 6) := by
    rw [hx, hten, zpow_sub₀ (by norm_num), mul_div_assoc]
  have habs : |x / 1000000| = x / 1000000 := abs_of_nonneg (div_nonneg h.nonneg (by norm_num))
  refine operation_of_significant ⟨m, e - 6, hdiv, hm⟩ ?_ ?_
  · rcases h.lower with rfl | hl
    · exact .inl (zero_div _)
    · refine .inr ?_
      rw [habs, hten, le_div_iff₀ (Decimal.Context.ten_zpow_pos _), ← zpow_add₀ (by norm_num)]
      exact hl
  · rw [habs]
    exact (div_le_self h.nonneg (by norm_num)).trans_lt h.upper

end InRange

theorem accumulate_eq (hc : ∀ c ∈ cs, InRange c.nanoseconds)
    (hs : ∀ part, part <+: cs → InRange (total + sum part)) : accumulate total cs = .ok (total + sum cs) := by
  induction cs generalizing total with
  | nil => simp [accumulate, sum, pure, Except.pure]
  | cons c cs ih =>
    obtain ⟨hc, hcs⟩ := List.forall_mem_cons.mp hc
    have h₁ : InRange (total + c.nanoseconds) := by
      have := hs [c] ⟨cs, rfl⟩
      rwa [sum_cons, sum, List.map_nil, List.sum_nil, add_zero] at this
    have hadd : addPart total c.nanoseconds = .ok (total + c.nanoseconds) := by
      rw [addPart, hc.operation_eq]
      exact h₁.operation_eq
    rw [accumulate, List.foldlM_cons, hadd]
    refine (ih hcs fun part hp => ?_).trans (by rw [sum_cons, add_assoc])
    have := hs (c :: part) (List.cons_prefix_cons.mpr ⟨rfl, hp⟩)
    rwa [sum_cons, ← add_assoc] at this

structure Reading.Exact (r : Reading) : Prop where
  products : ∀ c ∈ r.components, InRange c.nanoseconds
  sums : ∀ part, part <+: r.components → InRange (Keepalive.sum part)

theorem sumParts_of_exact (h : r.Exact) : sumParts name 0 (write r.components) = .ok (Keepalive.sum r.components) := by
  rw [sumParts_write, accumulate_eq h.products fun part hp => by rw [zero_add]; exact h.sums part hp, zero_add]

theorem two_le_length_write (h : cs ≠ []) : 2 ≤ (write cs).length := by
  cases cs with
  | nil => exact absurd rfl h
  | cons c cs =>
    obtain ⟨a, w, hn, _⟩ := exists_start c.numeral
    obtain ⟨l, u, hu, _⟩ := exists_letter c.unit
    simp only [write_cons, Component.text, hn, hu, List.length_append, List.length_cons]
    omega

theorem parseGoDurationMs_of_shape (h : Shape value r) :
    parseGoDurationMs name value = sumParts name 0 (write r.components) >>= milliseconds name r.sign.factor := by
  have hl : 2 ≤ r.text.length := by
    rw [Reading.text, List.length_append]
    exact Nat.le_add_left_of_le (two_le_length_write r.nonempty)
  have hn : r.text ≠ [] := by
    intro hn
    rw [hn] at hl
    exact absurd hl (by decide)
  have hz : r.text ≠ [0x30] := by
    intro hz
    rw [hz] at hl
    exact absurd hl (by decide)
  simp only [parseGoDurationMs, strip_of_shape h, if_neg hn, if_neg hz, Reading.splitSign_text,
    if_neg (write_ne_nil r.nonempty)]

theorem operation_sign (h : r.Exact) : operation (Keepalive.sum r.components * r.sign.factor) = .ok r.sum := by
  have hr := h.sums r.components (List.prefix_refl _)
  unfold Reading.sum
  cases r.sign
  case minus =>
    simp only [DurationSign.factor, Int.cast_neg, Int.cast_one, mul_neg, mul_one]
    exact hr.operation_neg
  all_goals
    simp only [DurationSign.factor, Int.cast_one, mul_one]
    exact hr.operation_eq

theorem inRange_sum (h : r.Exact) (hp : 0 < r.sum) : InRange r.sum := by
  have hr := h.sums r.components (List.prefix_refl _)
  unfold Reading.sum at hp ⊢
  cases hs : r.sign <;> rw [hs] at hp
  case minus =>
    simp only [DurationSign.factor, Int.cast_neg, Int.cast_one, mul_neg, mul_one] at hp
    linarith [hr.nonneg]
  all_goals simpa only [DurationSign.factor, Int.cast_one, mul_one] using hr

theorem milliseconds_of_exact (h : r.Exact) :
    milliseconds name r.sign.factor (Keepalive.sum r.components) =
      if r.sum < 0 then .error (negativeError name) else .ok ⌈r.sum / 1000000⌉ := by
  rw [milliseconds, operation_sign h]
  change (if r.sum < 0 then _ else if r.sum = 0 then _ else _) = _
  by_cases hneg : r.sum < 0
  case pos => rw [if_pos hneg, if_pos hneg]
  rw [if_neg hneg, if_neg hneg]
  by_cases hz : r.sum = 0
  · rw [if_pos hz, hz, zero_div, Int.ceil_zero]
    rfl
  · have hp : 0 < r.sum := lt_of_le_of_ne (not_lt.mp hneg) (Ne.symm hz)
    rw [if_neg hz, (inRange_sum h hp).operation_div]
    rfl

theorem parseGoDurationMs_of_exact (h : Shape value r) (he : r.Exact) :
    parseGoDurationMs name value = if r.sum < 0 then .error (negativeError name) else .ok ⌈r.sum / 1000000⌉ := by
  rw [parseGoDurationMs_of_shape h, sumParts_of_exact he]
  exact milliseconds_of_exact he

theorem parseGoDurationMs_of_not_shape (h : ∀ r, ¬Shape value r) (hz : strip value ≠ [0x30]) :
    (∃ message, parseGoDurationMs name value = .error (.valueError message)) ∨
      parseGoDurationMs name value = .error .overflow ∧
        ∃ (sign : DurationSign) (cs : List Component) (rest : Text),
          strip value = sign.text ++ (write cs ++ rest) ∧ 10 ^ context.emax ≤ sum cs := by
  by_cases hn : strip value = []
  case pos => exact .inl ⟨_, by simp only [parseGoDurationMs, if_pos hn]; rfl⟩
  obtain ⟨sign, t, hst, hsp⟩ : ∃ (sign : DurationSign) (t : Text), strip value = sign.text ++ t ∧
      splitSign (strip value) = (sign.factor, t) := by
    unfold splitSign
    split
    case h_1 t _ => exact ⟨.plus, t, by assumption, rfl⟩
    case h_2 t _ => exact ⟨.minus, t, by assumption, rfl⟩
    case h_3 => exact ⟨.unsigned, _, rfl, rfl⟩
  have hparse : parseGoDurationMs name value =
      if t = [] then .error (invalidError name) else sumParts name 0 t >>= milliseconds name sign.factor := by
    simp only [parseGoDurationMs, if_neg hn, if_neg hz, hsp]
  rw [hparse]
  by_cases ht : t = []
  case pos => exact .inl ⟨_, if_pos ht⟩
  rw [if_neg ht]
  rcases sumParts_cases name t Decimal.Context.fits_zero le_rfl with
    ⟨cs, rfl⟩ | hi | ⟨ho, cs, rest, rfl, hle⟩
  · have hcs : cs ≠ [] := by
      rintro rfl
      exact ht rfl
    exact absurd (shape_iff.mpr hst) (h ⟨sign, cs, hcs⟩)
  · exact .inl ⟨_, by rw [hi]; rfl⟩
  · refine .inr ⟨by rw [ho]; rfl, sign, cs, rest, hst, ?_⟩
    rw [zpow_add_one₀ (by norm_num)] at hle
    linarith [Decimal.Context.ten_zpow_pos context.emax]

structure Parses (name value : Text) : Prop where
  unique : ∀ {r r'}, Shape value r → Shape value r' → r = r'
  -- The least number of milliseconds that is not less than the sum.
  least : ∀ {r}, Shape value r → r.Exact → 0 ≤ r.sum →
    ∃ n, parseGoDurationMs name value = .ok n ∧ IsLeast { k : ℤ | r.sum ≤ k * 1000000 } n ∧ (n = 0 → r.sum = 0)
  negative : ∀ {r}, Shape value r → r.Exact → r.sum < 0 →
    ∃ message, parseGoDurationMs name value = .error (.valueError message)
  invalid : (∀ r, ¬Shape value r) → strip value ≠ [0x30] →
    (∃ message, parseGoDurationMs name value = .error (.valueError message)) ∨
      parseGoDurationMs name value = .error .overflow ∧
        ∃ (sign : DurationSign) (cs : List Component) (rest : Text),
          strip value = sign.text ++ (write cs ++ rest) ∧ 10 ^ context.emax ≤ sum cs

theorem isLeast_ceil (x : ℚ) : IsLeast { k : ℤ | x ≤ k * 1000000 } ⌈x / 1000000⌉ := by
  have hk (k : ℤ) : x ≤ k * 1000000 ↔ ⌈x / 1000000⌉ ≤ k := by
    rw [Int.ceil_le, div_le_iff₀ (by norm_num)]
  exact ⟨(hk _).mpr le_rfl, fun k h => (hk k).mp h⟩

theorem parses (name value : Text) : Parses name value where
  unique h h' := Reading.text_inj ((strip_of_shape h).symm.trans (strip_of_shape h'))
  least h he h₀ := by
    refine ⟨_, (parseGoDurationMs_of_exact h he).trans (if_neg (not_lt.mpr h₀)), isLeast_ceil _, fun hz => ?_⟩
    have hle := (Int.ceil_le.mp hz.le).trans_eq Int.cast_zero
    rw [div_le_iff₀ (by norm_num), zero_mul] at hle
    exact le_antisymm hle h₀
  negative h he hn := ⟨_, (parseGoDurationMs_of_exact h he).trans (if_pos hn)⟩
  invalid := parseGoDurationMs_of_not_shape

def tenComponent (n : Nat) : Component where
  numeral := .integer (1 :: List.replicate n 0) (List.cons_ne_nil _ _)
  unit := .ns

def powerOfTen (n : Nat) : Reading where
  sign := .unsigned
  components := [tenComponent n]
  nonempty := List.cons_ne_nil _ _

theorem natOf_powerOfTen (n : Nat) : natOf (1 :: List.replicate n 0) = 10 ^ n := by
  simp [natOf, Nat.ofDigits_append, Nat.ofDigits_replicate_zero]

theorem nanoseconds_tenComponent (n : Nat) : (tenComponent n).nanoseconds = 10 ^ (n : ℤ) := by
  simp [tenComponent, Component.nanoseconds, Numeral.value, natOf_powerOfTen, DurationUnit.nanoseconds]

theorem significant_powerOfTen (n : Nat) : Decimal.Context.Significant context.prec (10 ^ (n : ℤ)) :=
  ⟨1, n, by simp, by decide⟩

theorem parseGoDurationMs_powerOfTen {n : Nat} (h : context.emax + 1 ≤ n) :
    parseGoDurationMs name (powerOfTen n).text = .error .overflow := by
  have hs : Shape (powerOfTen n).text (powerOfTen n) := ⟨[], [], by simp, by simp, by simp⟩
  have hr : context.round? (10 ^ (n : ℤ)) = none := by
    have habs : |(10 : ℚ) ^ (n : ℤ)| = 10 ^ (n : ℤ) := abs_of_pos (Decimal.Context.ten_zpow_pos _)
    rw [Decimal.Context.round?, Decimal.Context.nearest_of_significant (significant_powerOfTen n), if_neg]
    · rw [habs, not_lt]
      exact Decimal.Context.ten_zpow_le_iff.mpr h
    · refine .inr ?_
      rw [habs]
      exact Decimal.Context.ten_zpow_le_iff.mpr (le_trans (by decide) (Int.natCast_nonneg n))
  have hop : operation (10 ^ (n : ℤ)) = .error .overflow := by
    unfold operation
    rw [hr]
  have hcs : (powerOfTen n).components = [tenComponent n] := rfl
  rw [parseGoDurationMs_of_shape hs, sumParts_write, accumulate, hcs, List.foldlM_cons, addPart,
    nanoseconds_tenComponent, hop]
  rfl

-- A numeral with a single significant digit that is too long for the decimal context.
theorem powerOfTen_overflows :
    (∀ c ∈ (powerOfTen 1000000).components, Decimal.Context.Significant context.prec c.nanoseconds) ∧
      (∀ part, part <+: (powerOfTen 1000000).components → Decimal.Context.Significant context.prec (sum part)) ∧
      0 ≤ (powerOfTen 1000000).sum ∧
      parseGoDurationMs [] (powerOfTen 1000000).text = .error .overflow := by
  have hc : ∀ c ∈ (powerOfTen 1000000).components, Decimal.Context.Significant context.prec c.nanoseconds :=
    fun c h => by
      rw [List.mem_singleton.mp h, nanoseconds_tenComponent]
      exact significant_powerOfTen 1000000
  refine ⟨hc, fun part hp => ?_, ?_, parseGoDurationMs_powerOfTen (by decide)⟩
  · rcases List.prefix_cons_iff.mp hp with rfl | ⟨t, rfl, ht⟩
    · exact ⟨0, 0, by simp [sum], by decide⟩
    · rw [List.prefix_nil.mp ht, sum_cons, sum, List.map_nil, List.sum_nil, add_zero]
      exact hc _ List.mem_cons_self
  · rw [Reading.sum, powerOfTen]
    simp only [DurationSign.factor, Int.cast_one, mul_one]
    exact sum_nonneg _

end Keepalive

end Aio
