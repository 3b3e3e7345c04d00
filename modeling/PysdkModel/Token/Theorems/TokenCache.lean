import Mathlib.Data.List.Permutation
import PysdkModel.Token.TokenCache

-- The calls of `TokenCache` are linearizable as long as no clean-up of a `get` meets a token that was stored after
-- the `get` had read the file. All calls take effect while they hold the lock of the file, but for a `get` that finds
-- a token: it takes effect when it reads the file, which only shows when it has compared the expiration.

namespace Aio.TokenCache

open Linearizability

def status : Phase → Status Op Outcome
  | .fresh => .fresh
  | .called op | .opening op => .opened op
  | .read name _ | .missed name | .cleaning name => .opened (.get name)
  | .ended op out => .settled op out
  | .returned op out => .returned op out

variable {c c' : TokenCache} {i j : Nat} {p : Phase} {name : String} {t : Token} {op : Op} {out : Outcome}

theorem status_goto : status ∘ (c.goto i p).calls = Function.update (status ∘ c.calls) i (status p) :=
  Function.comp_update ..

theorem calls_goto : (c.goto i p).calls j = if j = i then p else c.calls j := by
  simp [goto, Function.update_apply]

theorem entry_eq_some_iff : c.entry name = some t ↔ c.tokens.get? name = some t ∧ t.isExpired c.now = false := by
  simp [entry, Option.filter_eq_some_iff]

theorem entry_write {d : Dict String Token} :
    (c.write d).entry name = (d.get? name).filter fun t => !t.isExpired c.now := by
  simp [entry, tokens, write, yamlDump, Option.filter_filter]

theorem entry_later {d : Nat} : TokenCache.entry { c with now := c.now + d } name =
    (c.entry name).filter fun t => !t.isExpired (c.now + d) :=
  Token.filter_later.symm

theorem map_set : (c.write (c.tokens.set name t)).map =
    c.map.put name (if t.isExpired c.now then none else some t) := by
  refine TokenMap.ext rfl (funext fun n => ?_)
  simp only [map, TokenMap.put, entry_write, Dict.get?_set, Function.update_apply]
  split
  · cases h : t.isExpired c.now <;> simp [Option.filter, h]
  · rfl

theorem map_erase : (c.write (c.tokens.erase name)).map = c.map.put name none := by
  refine TokenMap.ext rfl (funext fun n => ?_)
  simp only [map, TokenMap.put, entry_write, Dict.get?_erase, Function.update_apply]
  split <;> rfl

theorem map_withoutEqual : (c.write (withoutEqual c.tokens name t)).map =
    if c.map.tokens name = some t then c.map.put name none else c.map := by
  have hsame : (c.write c.tokens).map = c.map := TokenMap.ext rfl (funext fun n => entry_write)
  unfold withoutEqual
  by_cases he : c.map.tokens name = some t
  case pos =>
    rw [if_pos he, if_pos (entry_eq_some_iff.mp he).left]
    exact map_erase
  case neg =>
    rw [if_neg he]
    split
    case isTrue hg =>
      -- The token is expired, and nobody sees it.
      have hn : c.entry name = none := by
        rw [entry, hg, Option.filter_eq_none_iff]
        simpa using fun hx => he (entry_eq_some_iff.mpr ⟨hg, hx⟩)
      rw [map_erase]
      refine TokenMap.ext rfl (funext fun n => ?_)
      simp only [TokenMap.put, Function.update_apply]
      split
      case isTrue h => rw [h]; exact hn.symm
      case isFalse => rfl
    case isFalse => exact hsame

def Explained (m₀ : TokenMap) (c : TokenCache) : Prop :=
  ∃ cs, Tracks TokenMap.apply m₀ c.history (status ∘ c.calls) cs c.map ∧
    ∀ i name t, c.calls i = .read name (some t) → t.isExpired c.now = false →
      Seen TokenMap.apply m₀ c.history cs i fun m => m.tokens name = some t

namespace Explained

theorem initial {now : Nat} {file : Option (Dict String Token)} :
    Explained (TokenCache.initial now file).map (TokenCache.initial now file) :=
  ⟨[], Tracks.initial, by simp [TokenCache.initial]⟩

variable {m₀ : TokenMap} (h : Explained m₀ c)
include h

theorem goto (hs : status p = status (c.calls i))
    (hr : ∀ name t, p = .read name (some t) → t.isExpired c.now = false → c.entry name = some t) :
    Explained m₀ (c.goto i p) := by
  obtain ⟨cs, ht, hseen⟩ := h
  refine ⟨cs, ?_, fun j n t hj hx => ?_⟩
  · have he : Function.update (status ∘ c.calls) i (status (c.calls i)) = status ∘ c.calls :=
      Function.update_eq_self ..
    rw [status_goto, hs, he]
    exact ht
  · rw [calls_goto] at hj
    split at hj
    · exact ht.now (hr n t hj hx)
    · exact hseen j n t hj hx

theorem touch : Explained m₀ c.touch :=
  h

theorem settle {file : Option (Dict String Token)} (hi : status (c.calls i) = .opened op)
    (hs : c.map.apply op out = some (TokenCache.map { c with file := file })) :
    Explained m₀ (TokenCache.goto { c with file := file } i (.ended op out)) := by
  obtain ⟨cs, ht, hseen⟩ := h
  refine ⟨cs ++ [⟨i, op, out⟩], ?_, fun j n t hj hx => ?_⟩
  · rw [status_goto]
    exact ht.settle hi hs
  · rw [calls_goto] at hj
    split at hj
    · cases hj
    · exact ht.seen_settle hi (hseen j n t hj hx)

attribute [local simp] status TokenMap.apply

theorem hit (hi : c.calls i = .read name (some t)) (hx : t.isExpired c.now = false) :
    Explained m₀ (c.goto i (.ended (.get name) (.token (some t)))) := by
  obtain ⟨cs, ht, hseen⟩ := h
  have hsee := (hseen i name t hi hx).mono (Q := fun m => m.apply (.get name) (.token (some t)) = some m)
    fun m hm => by simp [hm]
  obtain ⟨cs', ht', hkeep⟩ := ht.observe (by simp [hi]) hsee
  refine ⟨cs', ?_, fun j n t hj hx => ?_⟩
  · rw [status_goto]
    exact ht'
  · rw [calls_goto] at hj
    split at hj
    · cases hj
    · exact hkeep j _ (hseen j n t hj hx)

theorem call (hi : c.calls i = .fresh) :
    Explained m₀ { c.goto i (.called op) with history := c.history ++ [.invoke i op] } := by
  obtain ⟨cs, ht, hseen⟩ := h
  refine ⟨cs, ?_, fun j n t hj hx => ?_⟩
  · change Tracks _ _ _ (status ∘ (c.goto i (.called op)).calls) _ _
    rw [status_goto]
    exact ht.invoke (by simp [hi])
  · change (c.goto i (.called op)).calls j = _ at hj
    rw [calls_goto] at hj
    split at hj
    case isTrue => cases hj
    case isFalse hji =>
      refine (hseen j n t hj hx).concat _ fun op' he => hji (Event.invoke.inj he).left.symm

theorem respond (hi : c.calls i = .ended op out) :
    Explained m₀ { c.goto i (.returned op out) with history := c.history ++ [.respond i out] } := by
  obtain ⟨cs, ht, hseen⟩ := h
  refine ⟨cs, ?_, fun j n t hj hx => ?_⟩
  · change Tracks _ _ _ (status ∘ (c.goto i (.returned op out)).calls) _ _
    rw [status_goto]
    exact ht.respond (by simp [hi])
  · change (c.goto i (.returned op out)).calls j = _ at hj
    rw [calls_goto] at hj
    split at hj
    · cases hj
    · exact (hseen j n t hj hx).concat _ (by simp)

theorem advance {d : Nat} (hi : c.calls i = .fresh) :
    Explained m₀ { c.goto i (.returned (.advance d) .done) with
      now := c.now + d
      history := c.history ++ [.invoke i (.advance d)] ++ [.respond i .done] } := by
  obtain ⟨cs, ht, hseen⟩ := h
  have hmap : c.map.apply (.advance d) .done =
      some (TokenCache.map { c with now := c.now + d }) := by
    exact congrArg some (TokenMap.ext rfl (funext fun n => entry_later.symm))
  have hi' : (status ∘ c.calls) i = .fresh := by simp [hi]
  have ht₁ : Tracks _ _ (c.history ++ [.invoke i (.advance d)]) _ _ _ := ht.invoke hi'
  have ht₂ := ht₁.settle (Function.update_self ..) hmap
  have ht₃ := ht₂.respond (Function.update_self ..)
  refine ⟨cs ++ [⟨i, .advance d, .done⟩], ?_, fun j n t hj hx => ?_⟩
  · change Tracks _ _ _ (status ∘ (c.goto i (.returned (.advance d) .done)).calls) _ _
    rw [status_goto]
    rw [Function.update_idem, Function.update_idem] at ht₃
    exact ht₃
  · change (c.goto i (.returned (.advance d) .done)).calls j = _ at hj
    rw [calls_goto] at hj
    split at hj
    case isTrue => cases hj
    case isFalse hji =>
      have hx : t.isExpired c.now = false :=
        Bool.eq_false_iff.mpr fun hx' => by simp [Token.isExpired_mono (Nat.le_add_right _ d) hx'] at hx
      have hs := (hseen j n t hj hx).concat (.invoke i (.advance d)) fun op he => hji (Event.invoke.inj he).left.symm
      exact (ht₁.seen_settle (Function.update_self ..) hs).concat _ (by simp)

theorem enter (hi : c.calls i = .called op) : Explained m₀ (c.enter i op) := by
  have hst : status (c.calls i) = .opened op := by simp [hi]
  have hopen : Explained m₀ (c.touch.goto i (.opening op)) := h.touch.goto hst.symm (by simp)
  have hnone (hf : c.file = none) (n : String) : c.entry n = none := by simp [entry, tokens, hf]
  unfold TokenCache.enter
  split
  case h_1 n hf => exact h.settle hst (by simp [map, hnone hf])
  case h_2 n hf =>
    refine h.settle hst (congrArg some (TokenMap.ext rfl (funext fun n' => ?_)))
    simp only [TokenMap.put, map, Function.update_apply]
    split
    · exact (hnone hf n').symm
    · rfl
  case h_3 n t hf => exact h.settle hst (by simp [map, hnone hf])
  case h_4 => exact hopen

theorem lockedSection (hi : c.calls i = .opening op) (hs : c.lockedSection i op = some c') : Explained m₀ c' := by
  have hst : status (c.calls i) = .opened op := by simp [hi]
  cases op <;> simp only [TokenCache.lockedSection, Option.some.injEq] at hs
  case get n =>
    rw [← hs]
    refine h.goto hst.symm fun n' t hp hx => ?_
    obtain ⟨rfl, hg⟩ := Phase.read.inj hp
    exact entry_eq_some_iff.mpr ⟨hg, hx⟩
  case set n t =>
    rw [← hs]
    exact h.settle hst (congrArg some map_set.symm)
  case remove n =>
    rw [← hs]
    exact h.settle hst (congrArg some map_erase.symm)
  case removeIfEqual n t =>
    rw [← hs]
    exact h.settle hst (congrArg some map_withoutEqual.symm)
  case advance => cases hs

theorem check {ret : Option Token} (hi : c.calls i = .read name ret) : Explained m₀ (c.check i name ret) := by
  have hmiss : Explained m₀ (c.goto i (.missed name)) := h.goto (by simp [hi]) (by simp)
  cases ret
  case none => exact hmiss
  case some t =>
    unfold TokenCache.check
    dsimp only
    split
    case isTrue => exact hmiss
    case isFalse hx => exact h.hit hi (by simpa using hx)

theorem next (hsafe : c.cleansSafely (.next i)) (hs : c.next i = some c') : Explained m₀ c' := by
  unfold TokenCache.next at hs
  split at hs
  case h_1 hi =>
    cases hs
    exact h.enter hi
  case h_2 hi => exact h.lockedSection hi hs
  case h_3 hi =>
    cases hs
    exact h.check hi
  case h_4 n hi =>
    split at hs <;> cases hs
    case h_1 hf =>
      have hn : c.entry n = none := by simp [entry, tokens, hf]
      exact h.settle (by simp [hi]) (by simp [map, hn])
    case h_2 => exact h.goto (by simp [hi]) (by simp)
  case h_5 n hi =>
    cases hs
    -- Nothing is lost, so that the `get` finds nothing now.
    have hn : c.entry n = none := by simpa [cleansSafely, hi] using hsafe
    refine h.settle (by simp [hi]) ?_
    change _ = some (c.write (c.tokens.erase n)).map
    rw [map_erase, TokenMap.apply, if_pos (by exact hn)]
    refine congrArg some (TokenMap.ext rfl (funext fun n' => ?_))
    simp only [TokenMap.put, map, Function.update_apply]
    split
    case isTrue he => rw [he, hn]
    case isFalse => rfl
  case h_6 => cases hs

theorem step {e : TokenCache.Event} (hsafe : c.cleansSafely e) (hs : c.step e = some c') : Explained m₀ c' := by
  cases e <;> simp only [TokenCache.step] at hs
  case call =>
    split at hs <;> cases hs
    case h_2 hi _ => exact h.call hi
  case advance =>
    split at hs <;> cases hs
    case h_1 hi => exact h.advance hi
  case next => exact h.next hsafe hs
  case timeout =>
    split at hs <;> cases hs
    case h_1 hi => exact h.settle (by simp [hi]) (by simp)
    case h_2 hi => exact h.settle (by simp [hi]) (by simp)
  case respond =>
    split at hs <;> cases hs
    case h_1 hi => exact h.respond hi

end Explained

def Op.target? : Op → Option String
  | .set name _ | .remove name | .removeIfEqual name _ => some name
  | .get _ | .advance _ => none

def isCleanUp (c : TokenCache) (name : String) : Event → Prop
  | .next i => c.calls i = .cleaning name
  | _ => False

def isWrite (c : TokenCache) (name : String) : Event → Prop
  | .next i => ∃ op, c.calls i = .opening op ∧ op.target? = some name
  | _ => False

theorem filter_entry : (c.entry name).filter (fun t => !t.isExpired c.now) = c.entry name := by
  simp [entry, Option.filter_filter]

theorem entry_step (name : String) {e : Event} (hs : c.step e = some c') :
    c'.entry name = (c.entry name).filter (fun t => !t.isExpired c'.now) ∨ c.isWrite name e ∨ c.isCleanUp name e := by
  have hkeep {d : TokenCache} (hn : d.now = c.now) (hf : d.entry name = c.entry name) :
      d.entry name = (c.entry name).filter fun t => !t.isExpired d.now := by rw [hn, filter_entry, hf]
  cases e <;> simp only [step] at hs
  case call =>
    split at hs <;> cases hs
    exact .inl (hkeep rfl rfl)
  case advance i d =>
    split at hs <;> cases hs
    exact .inl entry_later
  case timeout =>
    split at hs <;> cases hs <;> exact .inl (hkeep rfl rfl)
  case respond =>
    split at hs <;> cases hs
    exact .inl (hkeep rfl rfl)
  case next i =>
    have hwrite {d : Dict String Token} (hd : d.get? name = c.tokens.get? name) :
        (c.write d).entry name = c.entry name := by rw [entry_write, hd, entry]
    unfold next at hs
    split at hs
    case h_1 =>
      cases hs
      unfold enter
      split <;> exact .inl (hkeep rfl rfl)
    case h_2 op hi =>
      by_cases hop : op.target? = some name
      case pos => exact .inr (.inl ⟨op, hi, hop⟩)
      case neg =>
        left
        cases op <;> simp only [lockedSection, Option.some.injEq] at hs <;> cases hs
        case get => exact hkeep rfl rfl
        all_goals
          simp only [Op.target?, Option.some.injEq] at hop
          refine hkeep rfl (hwrite ?_)
        case set => simp [Ne.symm hop]
        case remove => simp [Ne.symm hop]
        case removeIfEqual =>
          unfold withoutEqual
          split
          · simp [Ne.symm hop]
          · rfl
    case h_3 ret _ =>
      cases hs
      cases ret <;> unfold check <;> dsimp only
      · exact .inl (hkeep rfl rfl)
      · split <;> exact .inl (hkeep rfl rfl)
    case h_4 => split at hs <;> cases hs <;> exact .inl (hkeep rfl rfl)
    case h_5 n hi =>
      cases hs
      by_cases hn : n = name
      · exact .inr (.inr (hn ▸ hi))
      · exact .inl (hkeep rfl (hwrite (by simp [Ne.symm hn])))
    case h_6 => cases hs

theorem entry_cleanUp {e : Event} (hs : c.step e = some c') (hc : c.isCleanUp name e) : c'.entry name = none := by
  unfold isCleanUp at hc
  split at hc
  case h_1 =>
    simp only [step, next, hc, Option.some.injEq] at hs
    rw [← hs]
    change (c.write (c.tokens.erase name)).entry name = none
    simp [entry_write]
  case h_2 => exact hc.elim

theorem cleansSafely_eq_false_iff {e : Event} (hs : c.step e = some c') :
    c.cleansSafely e = false ↔ ∃ name t, c.isCleanUp name e ∧ c.entry name = some t ∧ c'.entry name = none := by
  constructor
  · intro h
    unfold cleansSafely at h
    split at h
    case h_2 => cases h
    case h_1 i =>
      split at h
      case h_2 => cases h
      case h_1 name hi =>
        obtain ⟨t, ht⟩ := Option.isSome_iff_exists.mp (by simpa using h)
        exact ⟨name, t, hi, ht, entry_cleanUp hs hi⟩
  · rintro ⟨name, t, hc, ht, -⟩
    unfold isCleanUp at hc
    split at hc
    · simp [cleansSafely, hc, ht]
    · exact hc.elim

open Machine (Reaches)

-- In a run in which no clean-up of a `get` meets a token, a complete history is linearizable, and no entry changes but
-- by the operations on its name and by its expiration. A clean-up that meets a token loses it.
theorem linearizable_of_cleansSafely {now : Nat} {file : Option (Dict String Token)}
    (h : Reaches step (fun c e => c.cleansSafely e = true) (initial now file) c) :
    (IsComplete c.history → Linearizable TokenMap.apply (initial now file).map c.history) ∧
    ∀ e c', c.step e = some c' →
      (c.cleansSafely e = true → ∀ name,
        c'.entry name = (c.entry name).filter (fun t => !t.isExpired c'.now) ∨ c.isWrite name e) ∧
      (c.cleansSafely e = false ↔
        ∃ name t, c.isCleanUp name e ∧ c.entry name = some t ∧ c'.entry name = none) := by
  have hi : Explained (initial now file).map c :=
    h.invariant (I := Explained (initial now file).map) (fun hi hsafe hs => hi.step hsafe hs) .initial
  refine ⟨fun hc => ?_, fun e c' hs => ⟨fun hsafe name => ?_, cleansSafely_eq_false_iff hs⟩⟩
  · obtain ⟨cs, ht, -⟩ := hi
    exact ht.linearizable hc
  · rcases entry_step name hs with hk | hw | hcl
    · exact .inl hk
    · exact .inr hw
    · -- The clean-up has nothing to delete.
      have hn : c.entry name = none := by
        by_contra hn
        obtain ⟨t, ht⟩ := Option.ne_none_iff_exists'.mp hn
        have hf := (cleansSafely_eq_false_iff hs).mpr ⟨name, t, hcl, ht, entry_cleanUp hs hcl⟩
        simp [hsafe] at hf
      rw [entry_cleanUp hs hcl, hn]
      exact .inl rfl

theorem linearizable_readAndExpire : Linearizable TokenMap.apply (initial 0 none).map
    [.invoke 0 (.set "a" ⟨"t", some 5⟩), .respond 0 .done,
     .invoke 1 (.get "a"), .respond 1 (.token (some ⟨"t", some 5⟩)),
     .invoke 2 (.advance 5), .respond 2 .done, .invoke 3 (.get "a"), .respond 3 (.token none)] := by
  have hrun : ∃ c, Machine.run (Machine.restrict step fun c e => c.cleansSafely e = true) (initial 0 none)
      [.call 0 (.set "a" ⟨"t", some 5⟩), .next 0, .next 0, .respond 0,
       .call 1 (.get "a"), .next 1, .next 1, .next 1, .respond 1, .advance 2 5,
       .call 3 (.get "a"), .next 3, .next 3, .next 3, .next 3, .next 3, .respond 3] = some c ∧
      c.history = [.invoke 0 (.set "a" ⟨"t", some 5⟩), .respond 0 .done,
        .invoke 1 (.get "a"), .respond 1 (.token (some ⟨"t", some 5⟩)),
        .invoke 2 (.advance 5), .respond 2 .done, .invoke 3 (.get "a"), .respond 3 (.token none)] :=
    ⟨_, rfl, rfl⟩
  obtain ⟨c, hc, hh⟩ := hrun
  rw [← hh]
  refine (linearizable_of_cleansSafely (.of_restricted_run hc)).left ?_
  intro i op hm
  rw [hh] at hm ⊢
  simp only [List.mem_cons] at hm ⊢
  rcases hm with hm | hm | hm | hm | hm | hm | hm | hm | hm <;> cases hm <;> simp

-- A `get` finds no token, a `set` stores one and returns, and then the clean-up of the `get` deletes it.
def losingEvents : List Event :=
  [.call 0 (.get "a"), .next 0, .next 0, .next 0, .next 0,
   .call 1 (.set "a" ⟨"t", none⟩), .next 1, .next 1, .respond 1, .next 0, .respond 0,
   .call 2 (.get "a"), .next 2, .next 2, .next 2, .next 2, .next 2, .respond 2]

def losingCalls : List (Call Op Outcome) :=
  [⟨0, .get "a", .token none⟩, ⟨1, .set "a" ⟨"t", none⟩, .done⟩, ⟨2, .get "a", .token none⟩]

def losingHistory : List (Linearizability.Event Op Outcome) :=
  [.invoke 0 (.get "a"), .invoke 1 (.set "a" ⟨"t", none⟩), .respond 1 .done, .respond 0 (.token none),
   .invoke 2 (.get "a"), .respond 2 (.token none)]

theorem losingHistory_calls {a : Call Op Outcome} :
    a.invocation ∈ losingHistory ∧ a.response ∈ losingHistory ↔ a ∈ losingCalls := by
  obtain ⟨i, op, out⟩ := a
  simp only [losingHistory, losingCalls, Call.invocation, Call.response, List.mem_cons, Call.mk.injEq,
    Linearizability.Event.invoke.injEq, Linearizability.Event.respond.injEq, reduceCtorEq, List.not_mem_nil, or_false,
    false_or]
  constructor
  · rintro ⟨h₁, h₂⟩
    rcases h₁ with ⟨rfl, rfl⟩ | ⟨rfl, rfl⟩ | ⟨rfl, rfl⟩ <;> simpa using h₂
  · rintro (⟨rfl, rfl, rfl⟩ | ⟨rfl, rfl, rfl⟩ | ⟨rfl, rfl, rfl⟩) <;> simp

theorem losingEvents_not_linearizable : ∃ c, Machine.run step (initial 0 (some ∅)) losingEvents = some c ∧
    IsComplete c.history ∧ ¬Linearizable TokenMap.apply (initial 0 (some ∅)).map c.history := by
  have hrun : ∃ c, Machine.run step (initial 0 (some ∅)) losingEvents = some c ∧ c.history = losingHistory :=
    ⟨_, rfl, rfl⟩
  obtain ⟨c, hc, hh⟩ := hrun
  refine ⟨c, hc, ?_, ?_⟩
  · rw [hh]
    intro i op hm
    simp only [losingHistory, List.mem_cons] at hm ⊢
    rcases hm with hm | hm | hm | hm | hm | hm | hm <;> cases hm <;> simp
  · rw [hh]
    rintro ⟨cs, hcs⟩
    -- Whatever the order of the three calls is, the second `get` comes after the `set`.
    have hperm : cs.Perm losingCalls := by
      refine (List.perm_ext_iff_of_nodup (.of_map _ hcs.once) (by decide)).mpr fun a => ?_
      rw [hcs.calls, losingHistory_calls]
    have hmem : cs ∈ losingCalls.permutations' := List.mem_permutations'.mpr hperm
    have hsub := hcs.order ⟨1, .set "a" ⟨"t", none⟩, .done⟩ (hperm.mem_iff.mpr (by decide))
      ⟨2, .get "a", .token none⟩ (hperm.mem_iff.mpr (by decide)) (by decide)
    have hall : ∀ cs ∈ losingCalls.permutations', (exec TokenMap.apply (initial 0 (some ∅)).map cs).isSome →
        ¬[⟨1, .set "a" ⟨"t", none⟩, .done⟩, ⟨2, .get "a", .token none⟩].Sublist cs := by decide
    exact hall cs hmem hcs.legal hsub

end Aio.TokenCache
