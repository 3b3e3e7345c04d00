import PysdkModel.Token.TokenFile

-- A token survives the file if its expiration is a whole second: `to_dict` drops the fraction of a second, so that the
-- token that is read back is another one.

namespace Aio.TokenFile

namespace DateTime

variable {d : DateTime} {s : Int}

theorem natAbs_div_lt (d : DateTime) : d.micros.natAbs / 1000000 < 2 ^ 52 := by
  have h := d.ranged
  omega

theorem seconds_eq (d : DateTime) : d.seconds = d.micros.sign *
    if 1000000 ≤ d.micros.natAbs ∧ Rounding.isNearNext d.micros.natAbs 1000000 then
      (d.micros.natAbs / 1000000 + 1 : Nat)
    else (d.micros.natAbs / 1000000 : Nat) := by
  rw [seconds, Rounding.binary64Floor_eq (by decide) d.natAbs_div_lt]

theorem not_isNearNext_of_dvd (h : 1000000 ∣ d.micros) (hle : 1000000 ≤ d.micros.natAbs) :
    Rounding.isNearNext d.micros.natAbs 1000000 = false :=
  Rounding.isNearNext_of_dvd (by decide) d.natAbs_div_lt (by omega) hle

theorem seconds_of_dvd (h : 1000000 ∣ d.micros) : d.seconds = d.micros / 1000000 := by
  have hn : ¬(1000000 ≤ d.micros.natAbs ∧ Rounding.isNearNext d.micros.natAbs 1000000) := fun hn =>
    absurd hn.right (by simp [not_isNearNext_of_dvd h hn.left])
  rw [seconds_eq, if_neg hn]
  rcases lt_trichotomy d.micros 0 with hd | hd | hd
  · rw [Int.sign_eq_neg_one_of_neg hd]
    omega
  · simp [hd]
  · rw [Int.sign_eq_one_of_pos hd]
    omega

theorem micros_of_fromTimestamp (h : fromTimestamp s = some d) :
    d.micros = s * 1000000 ∧ minSecond ≤ s ∧ s ≤ maxSecond := by
  unfold fromTimestamp at h
  split at h
  case isTrue hs =>
    cases h
    exact ⟨rfl, hs⟩
  case isFalse => cases h

theorem fromTimestamp_isSome (h : minSecond ≤ s ∧ s ≤ maxSecond) : ∃ d, fromTimestamp s = some d := by
  simp [fromTimestamp, h]

end DateTime

namespace Token

variable {t u : Token} {s : Stored} {now now' : Int}

theorem isExpired_mono (hn : now ≤ now') (h : t.isExpired now) : t.isExpired now' := by
  unfold isExpired at *
  split at h
  · cases h
  · simp only [decide_eq_true_eq] at h ⊢
    omega

theorem not_isExpired_of_le (hn : now ≤ now') (h : t.isExpired now' = false) : t.isExpired now = false := by
  cases hx : t.isExpired now
  case false => rfl
  case true => exact absurd (isExpired_mono hn hx) (by simp [h])

theorem fromDict_cases (h : fromDict s = some u) : u.token = s.token ∧
    (u.expiration = none ∨ ∃ e d, s.expiresAt = some e ∧ e ≠ 0 ∧ DateTime.fromTimestamp e = some d ∧
      u.expiration = some d) := by
  unfold fromDict at h
  split at h
  case h_1 | h_2 =>
    cases h
    exact ⟨rfl, .inl rfl⟩
  case h_3 e he hs =>
    obtain ⟨d, hd, rfl⟩ := Option.map_eq_some_iff.mp h
    exact ⟨rfl, .inr ⟨e, d, hs, by simpa using he, hd, rfl⟩⟩

theorem isWhole_of_fromDict (h : fromDict s = some u) : u.IsWhole := by
  intro e he
  rcases (fromDict_cases h).right with hn | ⟨n, d, -, hne, hd, hu⟩
  · simp [hn] at he
  · obtain ⟨hm, hmin, hmax⟩ := DateTime.micros_of_fromTimestamp hd
    rw [hu] at he
    cases he
    rw [hm]
    refine ⟨Int.dvd_mul_left _ _, by omega, ?_⟩
    rw [Int.mul_ediv_cancel _ (by decide)]
    exact ⟨hmin, hmax⟩

theorem fromDict_toDict_some {e : DateTime} (ht : t.expiration = some e) (hne : e.seconds ≠ 0)
    (hr : DateTime.minSecond ≤ e.seconds ∧ e.seconds ≤ DateTime.maxSecond) :
    ∃ d, fromDict t.toDict = some ⟨t.token, some d⟩ ∧ d.micros = e.seconds * 1000000 := by
  have hs : t.toDict.expiresAt = some e.seconds := by simp [toDict, ht]
  obtain ⟨d, hd⟩ := DateTime.fromTimestamp_isSome hr
  refine ⟨d, ?_, (DateTime.micros_of_fromTimestamp hd).left⟩
  unfold fromDict
  split
  case h_1 h => simp [hs] at h
  case h_2 h => simp [hs, hne] at h
  case h_3 n _ h =>
    obtain rfl : e.seconds = n := Option.some.inj (hs.symm.trans h)
    simp [toDict, hd]

theorem fromDict_toDict (h : t.IsWhole) : fromDict t.toDict = some t := by
  cases ht : t.expiration
  case none =>
    have hf : fromDict t.toDict = some ⟨t.token, none⟩ := by simp [fromDict, toDict, ht]
    rw [hf, ← ht]
  case some e =>
    obtain ⟨hdvd, hne, hr⟩ := h e ht
    have hs : e.seconds = e.micros / 1000000 := DateTime.seconds_of_dvd hdvd
    obtain ⟨d, hd, hm⟩ := fromDict_toDict_some ht (by omega) (hs ▸ hr)
    have hde : d = e := DateTime.ext (by omega)
    rw [hd, hde, ← ht]

theorem expiresInFile_iff_seconds {e : DateTime} (ht : t.expiration = some e) : t.ExpiresInFile ↔
    e.seconds ≠ 0 ∧ DateTime.minSecond ≤ e.seconds ∧ e.seconds ≤ DateTime.maxSecond ∧
      e.seconds * 1000000 ≤ e.micros := by
  have hs : t.toDict.expiresAt = some e.seconds := by simp [toDict, ht]
  constructor
  · intro h
    obtain ⟨u, hu, hx⟩ := h e.micros (by simp [isExpired, ht])
    rcases (fromDict_cases hu).right with hn | ⟨n, d, hn, hne, hd, hexp⟩
    · simp [isExpired, hn] at hx
    · obtain rfl : e.seconds = n := Option.some.inj (hs.symm.trans hn)
      obtain ⟨hm, hmin, hmax⟩ := DateTime.micros_of_fromTimestamp hd
      simp only [isExpired, hexp, decide_eq_true_eq, hm] at hx
      exact ⟨hne, hmin, hmax, hx⟩
  · rintro ⟨hne, hmin, hmax, hle⟩ now hx
    obtain ⟨d, hd, hm⟩ := fromDict_toDict_some ht hne ⟨hmin, hmax⟩
    refine ⟨_, hd, ?_⟩
    simp only [isExpired, ht, decide_eq_true_eq, hm] at hx ⊢
    omega

theorem expiresInFile_iff : t.ExpiresInFile ↔ t.KeepsExpiry := by
  cases ht : t.expiration
  case none => simp [ExpiresInFile, KeepsExpiry, isExpired, ht]
  case some e =>
    have hk : t.KeepsExpiry ↔ DateTime.minSecond * 1000000 ≤ e.micros ∧
        e.micros < (DateTime.maxSecond + 1) * 1000000 ∧
        (1000000 ≤ e.micros ∧ Rounding.isNearNext e.micros.natAbs 1000000 = false ∨
          e.micros ≤ -1000000 ∧ (1000000 ∣ e.micros ∨ Rounding.isNearNext e.micros.natAbs 1000000)) := by
      simp [KeepsExpiry, ht]
    have hdvd (hn : Rounding.isNearNext e.micros.natAbs 1000000) :
        ¬(1000000 ∣ e.micros ∧ 1000000 ≤ e.micros.natAbs) := fun h =>
      absurd (DateTime.not_isNearNext_of_dvd h.left h.right) (by simp [hn])
    rw [expiresInFile_iff_seconds ht, hk, DateTime.seconds_eq]
    unfold DateTime.minSecond DateTime.maxSecond
    generalize Rounding.isNearNext e.micros.natAbs 1000000 = near at *
    generalize hn : e.micros.natAbs = n at *
    rcases lt_trichotomy e.micros 0 with he | he | he
    · rw [Int.sign_eq_neg_one_of_neg he]
      have hm : e.micros = -(n : Int) := by omega
      cases near
      · simp only [Bool.false_eq_true, and_false, if_false, and_true, or_false]
        omega
      · have hdvd := hdvd rfl
        simp only [and_true, or_true, Bool.true_eq_false, and_false, false_or]
        split <;> omega
    · simp [he]
    · rw [Int.sign_eq_one_of_pos he]
      have hm : e.micros = (n : Int) := by omega
      cases near
      · simp only [Bool.false_eq_true, and_false, if_false, and_true, or_false]
        omega
      · simp only [and_true, or_true, Bool.true_eq_false, and_false, false_or]
        split <;> omega

end Token

namespace CacheFile

variable {f : CacheFile} {name k : String} {t u : Token} {ts : Dict String Token} {now now' : Int}

theorem isWhole_of_loaded (h : f.loaded.get? k = some u) : u.IsWhole := by
  unfold loaded at h
  cases f
  case absent | malformed => simp [yamlParse] at h
  case tokens d =>
    cases hp : d.mapM? Token.fromDict
    case none => simp [yamlParse, hp] at h
    case some ts =>
      simp only [yamlParse, hp, Option.getD_some, Dict.get?_of_mapM? hp] at h
      obtain ⟨s, -, hu⟩ := Option.bind_eq_some_iff.mp h
      exact Token.isWhole_of_fromDict hu

theorem isWhole_of_entry (h : f.entry name = some u) : u.IsWhole :=
  isWhole_of_loaded h

theorem entry_yamlDump_none (h : (ts.get? name).filter (fun t => !t.isExpired now) = none) :
    (yamlDump now ts).entry name = none := by
  unfold entry loaded
  cases hp : (yamlDump now ts).yamlParse
  case none => rfl
  case some ts' =>
    have hm := Dict.get?_of_mapM? hp (k := name)
    simpa [h] using hm

theorem yamlParse_yamlDump (h : ∀ k t, ts.get? k = some t → t.isExpired now = false →
    (Token.fromDict t.toDict).isSome) :
    ∃ ts', (yamlDump now ts).yamlParse = some ts' ∧
      ∀ k, ts'.get? k = ((ts.get? k).filter fun t => !t.isExpired now).bind fun t => Token.fromDict t.toDict := by
  have hall (k : String) (s : Stored)
      (hs : ((ts.filterValues fun t => !t.isExpired now).map Token.toDict).get? k = some s) :
      (Token.fromDict s).isSome := by
    simp only [Dict.get?_map, Dict.get?_filterValues, Option.map_eq_some_iff, Option.filter_eq_some_iff] at hs
    obtain ⟨t, ⟨ht, hx⟩, rfl⟩ := hs
    exact h k t ht (by simpa using hx)
  obtain ⟨ts', hp⟩ := Dict.mapM?_isSome hall
  refine ⟨ts', hp, fun k => ?_⟩
  rw [Dict.get?_of_mapM? hp]
  simp [Option.bind_map]

theorem entry_of_yamlParse (h : f.yamlParse = some ts) : f.entry name = ts.get? name := by
  simp [entry, loaded, h]

theorem entry_set (f : CacheFile) (name : String) (hx : t.isExpired now = false)
    (hu : Token.fromDict t.toDict = some u) : (f.set now name t).entry name = some u := by
  have hread (k : String) (v : Token) (hv : (f.loaded.set name t).get? k = some v) (_ : v.isExpired now = false) :
      (Token.fromDict v.toDict).isSome := by
    rw [Dict.get?_set] at hv
    split at hv
    · cases hv
      simp [hu]
    · simp [Token.fromDict_toDict (isWhole_of_loaded hv)]
  obtain ⟨ts, hp, hget⟩ := yamlParse_yamlDump hread
  have he : (f.set now name t).entry name = ts.get? name := entry_of_yamlParse hp
  simp [he, hget, Option.filter_some, hx, hu]

theorem yamlParse_set_none (hx : t.isExpired now = false) (hu : Token.fromDict t.toDict = none) :
    (f.set now name t).yamlParse = none := by
  cases hp : (f.set now name t).yamlParse
  case none => rfl
  case some ts =>
    have hs := Dict.isSome_of_mapM? (k := name) (v := t.toDict) hp (by simp [Option.filter_some, hx])
    simp [hu] at hs

theorem entry_remove : (f.remove now name).entry name = none := by
  cases f
  case absent => simp [remove, entry, loaded, yamlParse]
  all_goals exact entry_yamlDump_none (by simp)

theorem get_cases (f : CacheFile) (now : Int) (name : String) :
    (∃ u, f.get now name = (some u, f) ∧ f.entry name = some u ∧ u.isExpired now = false) ∨
    (f.get now name).1 = none ∧ (f.get now name).2.entry name = none := by
  unfold get
  split
  case h_1 hp => exact .inr ⟨rfl, by simp [entry, loaded, hp]⟩
  case h_2 ts hp =>
    split
    case h_1 u hu =>
      obtain ⟨hu, hx⟩ := Option.filter_eq_some_iff.mp hu
      exact .inl ⟨u, rfl, (entry_of_yamlParse hp).trans hu, by simpa using hx⟩
    case h_2 => exact .inr ⟨rfl, entry_remove⟩

theorem get_some (h : (f.get now name).1 = some u) : f.entry name = some u := by
  rcases get_cases f now name with ⟨v, hg, hv, -⟩ | ⟨hg, -⟩
  · rw [hg] at h
    exact hv.trans h
  · simp [hg] at h

theorem get_of_entry (ht : f.entry name = some t) (hx : t.isExpired now = false) : f.get now name = (some t, f) := by
  cases hp : f.yamlParse
  case none => simp [entry, loaded, hp] at ht
  case some ts =>
    rw [entry_of_yamlParse hp] at ht
    simp [get, hp, ht, Option.filter_some, hx]

end CacheFile

variable {f : CacheFile} {name : String} {t : Token} {now now' : Int}

theorem survives_of_isWhole (hn : now ≤ now') (hx : t.isExpired now' = false) (h : t.IsWhole) :
    Survives f name t now now' := by
  have he := CacheFile.entry_set f name (Token.not_isExpired_of_le hn hx) (Token.fromDict_toDict h)
  refine ⟨congrArg Prod.fst (CacheFile.get_of_entry he hx), ?_⟩
  have hr : (f.set now name t).removeIfEqual now' name t =
      CacheFile.yamlDump now' ((f.set now name t).loaded.erase name) := by
    simp only [CacheFile.entry, CacheFile.removeIfEqual, CacheFile.set, CacheFile.yamlDump] at he ⊢
    simp [he]
  rw [hr]
  exact CacheFile.entry_yamlDump_none (by simp)

-- A token that can be served survives the file if and only if its expiration is a whole second, within the years that
-- can be read back. And a token is expired whenever it was before it was written, if and only if the second that is
-- written is not after its expiration, and is not the one that stands for no expiration.
theorem survives_iff (f : CacheFile) (name : String) (t : Token) (now now' : Int) (hn : now ≤ now')
    (hx : t.isExpired now' = false) : (Survives f name t now now' ↔ t.IsWhole) ∧ (t.ExpiresInFile ↔ t.KeepsExpiry) := by
  refine ⟨⟨fun h => ?_, survives_of_isWhole hn hx⟩, Token.expiresInFile_iff⟩
  exact CacheFile.isWhole_of_entry (CacheFile.get_some h.left)

def wholeToken : Token :=
  ⟨"t", some ⟨1900000000000000, by decide⟩⟩

def replacingToken : Token :=
  ⟨"u", none⟩

theorem wholeToken_survives : Survives .absent "name" wholeToken 1800000000000000 1800000000500000 ∧
    wholeToken.ExpiresInFile := by
  obtain ⟨hs, he⟩ := survives_iff .absent "name" wholeToken 1800000000000000 1800000000500000 (by decide) (by decide)
  refine ⟨hs.mpr fun e h => ?_, he.mpr fun e h => ?_⟩
  all_goals
    cases h
    decide

def fractionalToken : Token :=
  ⟨"t", some ⟨1900000000500000, by decide⟩⟩

-- In the year 2600, the last microsecond of a second is next to the double of the next second.
def roundedToken : Token :=
  ⟨"t", some ⟨19880899199999999, by decide⟩⟩

def epochToken : Token :=
  ⟨"t", some ⟨500000, by decide⟩⟩

-- The fraction of a second is lost, so that the token is not found again; an expiration far in the future is rounded to
-- the next second; and one in the first second of the epoch is lost altogether.
theorem fractionalToken_lost :
    (((CacheFile.absent.set 1800000000000000 "name" fractionalToken).get 1800000000000000 "name").1.any fun u =>
        u.token = "t" && u ≠ fractionalToken) ∧
      ((CacheFile.absent.set 1800000000000000 "name" fractionalToken).removeIfEqual 1800000000000000 "name"
        fractionalToken).entry "name" ≠ none ∧
      ¬Survives .absent "name" fractionalToken 1800000000000000 1800000000000000 ∧
      ¬roundedToken.ExpiresInFile ∧ ¬epochToken.ExpiresInFile := by
  refine ⟨by decide, by decide, fun h => ?_, fun h => ?_, fun h => ?_⟩
  · exact absurd h.left (by decide)
  · exact absurd (Token.expiresInFile_iff.mp h _ rfl) (by decide)
  · exact absurd (Token.expiresInFile_iff.mp h _ rfl) (by decide)

end Aio.TokenFile
