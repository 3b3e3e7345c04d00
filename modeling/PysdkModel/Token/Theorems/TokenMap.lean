import PysdkModel.Token.TokenCache
import PysdkModel.Token.Theorems.FileCacheBearer
import PysdkModel.Token.Theorems.TokenFile

-- All models of the token file stand for one map from names to tokens. The calls of `TokenCache` are linearizable as
-- operations of this map. So are the operations of `CacheFile`, which also knows what is written to the file, and what
-- the file-cache bearer does with its entry.

namespace Aio

theorem TokenMap.put_none {m : TokenMap} {name : String} (h : m.tokens name = none) : m.put name none = m :=
  TokenMap.ext rfl (h ▸ Function.update_eq_self name _)

def TokenMap.step (m : TokenMap) (c : TokenCache.Op × TokenCache.Outcome) : Option TokenMap :=
  m.apply c.1 c.2

namespace TokenFile

variable {f : CacheFile} {name : String} {t u : Token} {ts : Dict String Token} {now : Int}

-- An expiration before the epoch has passed at all times, as that of second 0 has.
def Token.inSeconds (t : Token) : Aio.Token where
  token := t.token
  expiration := t.expiration.map fun e => (e.micros / 1000000).toNat

theorem Token.isExpired_inSeconds (hn : 0 ≤ now) (h : t.IsWhole) :
    t.inSeconds.isExpired (now / 1000000).toNat = t.isExpired now := by
  cases ht : t.expiration
  case none => simp [Aio.Token.isExpired, isExpired, inSeconds, ht]
  case some e =>
    have hd := (h e ht).left
    simp only [Aio.Token.isExpired, isExpired, inSeconds, ht, Option.map_some, decide_eq_decide]
    omega

theorem Token.inSeconds_inj (hn : 0 ≤ now) (hx : u.isExpired now = false) (hu : u.IsWhole) (ht : t.IsWhole) :
    u.inSeconds = t.inSeconds ↔ u = t := by
  refine ⟨fun h => ?_, congrArg _⟩
  obtain ⟨u, eu⟩ := u
  obtain ⟨t, et⟩ := t
  obtain ⟨rfl, he⟩ := Aio.Token.mk.inj h
  rcases eu with _ | eu <;> rcases et with _ | et <;> simp only [Option.map_none, Option.map_some, reduceCtorEq] at he
  case none.none => rfl
  case some.some =>
    have hu := (hu eu rfl).left
    have ht := (ht et rfl).left
    have he := Option.some.inj he
    simp only [isExpired, decide_eq_false_iff_not] at hx
    rw [show eu = et from DateTime.ext (by omega)]

namespace CacheFile

def map (f : CacheFile) (now : Int) : TokenMap where
  now := (now / 1000000).toNat
  tokens name := ((f.entry name).filter fun t => !t.isExpired now).map Token.inSeconds

theorem map_yamlDump (h : ∀ k t, ts.get? k = some t → t.IsWhole) : ((yamlDump now ts).map now).tokens =
    fun k => ((ts.get? k).filter fun t => !t.isExpired now).map Token.inSeconds := by
  have hread (k : String) (t : Token) (ht : ts.get? k = some t) (_ : t.isExpired now = false) :
      (Token.fromDict t.toDict).isSome := by simp [Token.fromDict_toDict (h k t ht)]
  obtain ⟨ts', hp, hget⟩ := yamlParse_yamlDump hread
  funext k
  simp only [map, entry_of_yamlParse hp, hget]
  cases ht : ts.get? k with
  | none => rfl
  | some t => cases hx : t.isExpired now <;> simp [Option.filter_some, hx, Token.fromDict_toDict (h k t ht)]

theorem map_set (ht : t.IsWhole) : (f.set now name t).map now =
    (f.map now).put name (((some t).filter fun t => !t.isExpired now).map Token.inSeconds) := by
  have hw (k : String) (u : Token) (hu : (f.loaded.set name t).get? k = some u) : u.IsWhole := by
    rw [Dict.get?_set] at hu
    split at hu
    · exact Option.some.inj hu ▸ ht
    · exact isWhole_of_loaded hu
  refine TokenMap.ext rfl ((map_yamlDump hw).trans (funext fun k => ?_))
  by_cases hk : k = name <;> simp [TokenMap.put, map, entry, hk]

theorem map_erase : (yamlDump now (f.loaded.erase name)).map now = (f.map now).put name none := by
  refine TokenMap.ext rfl ((map_yamlDump fun k u hu => ?_).trans (funext fun k => ?_))
  · rw [Dict.get?_erase] at hu
    split at hu
    · cases hu
    · exact isWhole_of_loaded hu
  · by_cases hk : k = name <;> simp [TokenMap.put, map, entry, hk]

theorem map_remove : (f.remove now name).map now = (f.map now).put name none := by
  cases f
  case absent => exact (TokenMap.put_none rfl).symm
  all_goals exact map_erase

theorem map_removeIfEqual (hn : 0 ≤ now) (ht : t.IsWhole) : (f.removeIfEqual now name t).map now =
    if (f.map now).tokens name = some t.inSeconds then (f.map now).put name none else f.map now := by
  have hif : (f.map now).tokens name = some t.inSeconds ↔ f.loaded.get? name = some t ∧ t.isExpired now = false := by
    simp only [map, entry, Option.map_eq_some_iff, Option.filter_eq_some_iff, Bool.not_eq_true']
    constructor
    · rintro ⟨u, ⟨hu, hx⟩, he⟩
      rw [Token.inSeconds_inj hn hx (isWhole_of_loaded hu) ht] at he
      exact he ▸ ⟨hu, hx⟩
    · exact fun h => ⟨t, h, rfl⟩
  have hdump : (yamlDump now (if f.loaded.get? name = some t then f.loaded.erase name else f.loaded)).map now =
      if (f.map now).tokens name = some t.inSeconds then (f.map now).put name none else f.map now := by
    split
    case isFalse he =>
      rw [if_neg fun h => he (hif.mp h).left]
      exact TokenMap.ext rfl (map_yamlDump fun _ _ => isWhole_of_loaded)
    case isTrue he =>
      rw [map_erase]
      split
      case isTrue => rfl
      -- an expired token is not in the map
      case isFalse h =>
        have hx : t.isExpired now := by simpa [hif, he] using h
        exact TokenMap.put_none (by simp [map, entry, he, Option.filter_some, hx])
  cases f
  case absent => rfl
  all_goals exact hdump

-- Each operation on the file is that of the map, with the outcome that it has.
theorem map_apply (f : CacheFile) (name : String) (hn : 0 ≤ now) (ht : t.IsWhole) :
    (f.map now).apply (.set name t.inSeconds) .done = some ((f.set now name t).map now) ∧
    (f.map now).apply (.remove name) .done = some ((f.remove now name).map now) ∧
    (f.map now).apply (.removeIfEqual name t.inSeconds) .done = some ((f.removeIfEqual now name t).map now) ∧
    (f.map now).apply (.get name) (.token ((f.get now name).1.map Token.inSeconds)) =
      some ((f.get now name).2.map now) := by
  refine ⟨?_, congrArg some map_remove.symm, congrArg some (map_removeIfEqual hn ht).symm, ?_⟩
  · rw [map_set ht]
    have hx : t.inSeconds.isExpired (f.map now).now = t.isExpired now := Token.isExpired_inSeconds hn ht
    cases h : t.isExpired now <;> simp [TokenMap.apply, hx, h, Option.filter_some]
  · unfold get
    cases hp : f.yamlParse with
    | none => simp [TokenMap.apply, map, entry, loaded, hp]
    | some ts =>
      dsimp only
      cases hu : (ts.get? name).filter fun t => !t.isExpired now with
      | some u => simp [TokenMap.apply, map, entry_of_yamlParse hp, hu]
      | none =>
        have hm : (f.map now).tokens name = none := by simp [map, entry_of_yamlParse hp, hu]
        simp [TokenMap.apply, map_remove, hm, TokenMap.put_none hm]

end CacheFile

end TokenFile

namespace FileCacheBearer

open Machine (Reaches anyEvent)

variable {b b' : FileCacheBearer} {a : Event} {name : String} {m : TokenMap}

def Sees (b : FileCacheBearer) (name : String) (m : TokenMap) : Prop :=
  m.now = b.now ∧ m.tokens name = b.fileToken

inductive Writes (now : Nat) (file : Option Token) (now' : Nat) (file' : Option Token) : Prop
  | keep : now' = now → file' = file → Writes now file now' file'
  | remove : now' = now → file' = none → Writes now file now' file'
  | set (t : Token) : now' = now → file' = some t ∨ file' = (if t.isExpired now then none else some t) →
    Writes now file now' file'
  | advance (d : Nat) : now' = now + d → file' = file → Writes now file now' file'

theorem CallMove.writes {i : Nat} (m : CallMove i b b') : Writes b.now b.file b'.now b'.file :=
  m.file.elim (.keep m.now) (.remove m.now)

theorem writes_callStep (e : b.callStep a = some b') : Writes b.now b.file b'.now b'.file := by
  unfold callStep at e
  split at e
  case h_1 i o =>
    split at e <;> cases e
    unfold fetch
    dsimp only
    split
    case h_1 => exact CallMove.writes (b := { b with calls := Function.update b.calls i _ }) .afterGet
    case h_2 => exact .keep rfl rfl
  case h_8 => exact (CallMove.resume e).writes
  case h_10 => cases e
  all_goals
    repeat' split at e
    all_goals cases e
    all_goals first
      | exact CallMove.got.writes
      | exact CallMove.read.writes
      | exact CallMove.goto.writes
      | exact CallMove.request.writes
      | exact (CallMove.clean.trans CallMove.got).writes

theorem enterSleep_entry : b.enterSleep.now = b.now ∧ b.enterSleep.file = b.file := by
  unfold enterSleep
  split <;> exact ⟨rfl, rfl⟩

theorem writes_endAttempt (e : b.endAttempt = some b') : Writes b.now b.file b'.now b'.file := by
  unfold endAttempt at e
  split at e
  case h_1 =>
    cases e
    dsimp only
    split
    · exact .keep enterSleep_entry.left enterSleep_entry.right
    · exact .keep rfl rfl
  case h_2 =>
    cases e
    exact .keep enterSleep_entry.left enterSleep_entry.right
  case h_3 =>
    split at e <;> cases e
    exact .keep enterSleep_entry.left enterSleep_entry.right
  case h_4 => cases e

theorem writes_loopStep (e : b.loopStep a = some b') : Writes b.now b.file b'.now b'.file := by
  unfold loopStep at e
  split at e
  case h_9 => exact writes_endAttempt e
  case h_10 =>
    split at e <;> cases e
    case h_1 t _ => exact .set t enterSleep_entry.left (.inr enterSleep_entry.right)
  all_goals
    repeat' split at e
    all_goals cases e
    all_goals first
      | exact .keep rfl rfl
      | exact .keep enterSleep_entry.left enterSleep_entry.right
      | exact .remove enterSleep_entry.left enterSleep_entry.right

theorem writes_step (e : b.step a = some b') : Writes b.now b.file b'.now b'.file := by
  unfold step at e
  split at e
  case h_1 d =>
    cases e
    exact .advance d rfl rfl
  case h_3 t =>
    simp only [Machine.guard_iff] at e
    rw [← e.right]
    exact .set t rfl (.inl rfl)
  case h_5 =>
    obtain ⟨r, -, rfl⟩ := Option.map_eq_some_iff.mp e
    exact .keep rfl rfl
  case h_8 => exact (Option.or_eq_some_iff.mp e).elim writes_callStep fun h => writes_loopStep h.right
  all_goals
    cases e
    first
    | exact .keep rfl rfl
    | exact .remove rfl rfl

theorem Sees.step (h : b.Sees name m) (e : b.step a = some b') :
    ∃ m', Reaches TokenMap.step anyEvent m m' ∧ b'.Sees name m' := by
  obtain ⟨hn, ht⟩ := h
  cases writes_step e
  case keep hn' hf => exact ⟨m, .refl, hn.trans hn'.symm, by rw [ht, fileToken, fileToken, hn', hf]⟩
  case remove hn' hf =>
    refine ⟨_, .single (a := (.remove name, .done)) trivial rfl, hn.trans hn'.symm, ?_⟩
    simp [TokenMap.put, fileToken, hf]
  case set t hn' hf =>
    refine ⟨_, .single (a := (.set name t, .done)) trivial rfl, hn.trans hn'.symm, ?_⟩
    cases hx : t.isExpired b.now <;> rcases hf with hf | hf <;>
      simp [TokenMap.put, fileToken, hn, hn', hf, hx, Option.filter_some]
  case advance d hn' hf =>
    refine ⟨_, .single (a := (.advance d, .done)) trivial rfl, by simp [hn, hn'], ?_⟩
    simp only [ht, fileToken, hn, hn', hf, Token.filter_later]

-- In every run of the bearer, its entry in the file is that of a map on which operations were performed.
theorem reaches_sees {now throttle : Nat} {margin : Option Nat} {file : Option Token}
    (h : Reaches step anyEvent (initial now throttle margin file) b) (name : String) :
    ∃ m, Reaches TokenMap.step anyEvent ⟨now, fun _ => file.filter fun t => !t.isExpired now⟩ m ∧ b.Sees name m :=
  h.simulates (R := (Sees · name ·)) (fun hs _ e => hs.step e) ⟨rfl, rfl⟩

end FileCacheBearer

end Aio
