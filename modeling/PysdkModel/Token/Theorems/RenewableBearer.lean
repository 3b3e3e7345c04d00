import PysdkModel.Token.RenewableBearer

-- A token that a receiver has found invalid is not served again by the renewable bearer, as long as no refresh attempt
-- ends while the cache still holds it: the end of an attempt withdraws the request for a renewal, whether the attempt
-- has a new token or not.

namespace Aio

namespace Ledger

variable {l : Ledger} {n m : Nat} {t u : Token}

theorem after_obtain (h : l.after n t) : (l.obtain u).after n t := by
  simp only [after, obtain, decide_eq_true_eq, List.drop_append] at h ⊢
  exact List.mem_append_left _ h

theorem after_obtain_self (hn : n ≤ l.obtained.length) : (l.obtain t).after n t := by
  simp [after, obtain, List.drop_append, Nat.sub_eq_zero_of_le hn]

theorem after_mono (hn : n ≤ m) (h : l.after m t) : l.after n t := by
  simp only [after, decide_eq_true_eq] at h ⊢
  exact (List.drop_sublist_drop_left _ hn).subset h

end Ledger

namespace Renewal

variable {r : Renewal} {o s : Shared} {f : Nat}

theorem share_futures (h : r.share.1.futures[f]? = some o) : r.futures[f]? = some o ∨ o = .pending := by
  unfold share at h
  split at h
  case h_1 => exact .inl h
  rw [List.getElem?_append] at h
  split at h
  · exact .inl h
  · exact .inr (List.mem_singleton.mp (List.mem_of_getElem? h))

theorem share_pending : r.share.1.futures[r.share.2]? = some .pending := by
  unfold share
  split
  case h_1 f hf => simpa using (Option.filter_eq_some_iff.mp hf).right
  case h_2 => simp

theorem share_joinable : r.share.1.joinable = some r.share.2 := by
  unfold share
  split
  case h_1 h => exact h
  case h_2 => simp [joinable]

theorem share_isFresh : r.share.1.isFresh = r.isFresh := by
  unfold share
  split <;> rfl

theorem share_canProceed : r.share.1.canProceed = r.canProceed := by
  unfold share
  split <;> rfl

theorem share_isStopped : r.share.1.isStopped = r.isStopped := by
  unfold share
  split <;> rfl

theorem share_keeps (h : r.futures[f]? = some o) : r.share.1.futures[f]? = some o := by
  unfold share
  split
  · exact h
  · rw [List.getElem?_append_left (List.getElem?_eq_some_iff.mp h).choose]
    exact h

theorem share_joins (h : r.joinable = some f) : r.share.1.joinable = some f := by
  simp [share, h]

theorem settle_futures (h : (r.settle o).futures[f]? = some s) : r.futures[f]? = some s ∨ o = s := by
  unfold settle at h
  split at h
  case h_1 g _ =>
    rw [List.getElem?_set] at h
    split at h
    · split at h
      · exact .inr (Option.some.inj h)
      · cases h
    · exact .inl h
  case h_2 => exact .inl h

theorem settle_joinable (h : r.joinable = some f) : (r.settle o).futures[f]? = some o := by
  obtain ⟨hc, hp⟩ := Option.filter_eq_some_iff.mp h
  simp only [decide_eq_true_eq] at hp
  have hlt : f < r.futures.length := (List.getElem?_eq_some_iff.mp hp).choose
  simp [settle, h, hlt]

theorem settle_isFresh : (r.settle o).isFresh = r.isFresh := by
  unfold settle
  split <;> rfl

theorem settle_isStopped : (r.settle o).isStopped = r.isStopped := by
  unfold settle
  split <;> rfl

theorem settle_renewRequested : (r.settle o).renewRequested = r.renewRequested := by
  unfold settle
  split <;> rfl

theorem eq_of_discard {r' : Renewal} (h : r.discard = some r') : r' = { r with current := none } := by
  unfold discard at h
  split at h
  case h_1 =>
    split at h <;> cases h
    rfl
  case h_2 => cases h

end Renewal

namespace RenewableBearer

variable {b b' : RenewableBearer} {i : Nat} {t : Token} {p : Phase}

def CallOk (b : RenewableBearer) (c : Call) : Prop :=
  c.since ≤ b.ledger.mark ∧
  match c.phase with
  | .sharing f => ∀ t, b.renewal.futures[f]? = some (.token t) → b.ledger.after c.since t
  | .awaiting true => ∃ t, b.cache = some t ∧ b.ledger.after c.since t
  | .returned t => b.ledger.after c.since t
  | _ => True

-- A token from before the last request of a receiver is in the cache only while a renewal is requested.
structure Inv (b : RenewableBearer) : Prop where
  marked : b.ledger.mark ≤ b.ledger.obtained.length
  cached : ∀ t, b.cache = some t → b.ledger.isValid t ∨ b.renewal.renewRequested
  fresh : b.renewal.isFresh → ∃ t, b.cache = some t ∧ b.ledger.isValid t
  calls : ∀ i, b.CallOk (b.calls i)

theorem CallOk.mono {c : Call} (h : b.CallOk c) (hm : b.ledger.mark ≤ b'.ledger.mark)
    (hl : ∀ n t, b.ledger.after n t → b'.ledger.after n t)
    (hc : ∀ t, b.cache = some t → b'.cache = some t ∨ ∃ t', b'.cache = some t' ∧ b'.ledger.isValid t')
    (hf : ∀ (f : Nat) t, b'.renewal.futures[f]? = some (.token t) →
      b.renewal.futures[f]? = some (.token t) ∨ b'.ledger.isValid t) : b'.CallOk c := by
  obtain ⟨hs, hp⟩ := h
  have hs' := Nat.le_trans hs hm
  refine ⟨hs', ?_⟩
  split at hp
  case h_1 =>
    intro t ht
    rcases hf _ t ht with ht | ht
    · exact hl _ t (hp t ht)
    · exact Ledger.after_mono hs' ht
  case h_2 =>
    obtain ⟨t, ht, ha⟩ := hp
    rcases hc t ht with ht | ⟨t', ht', hv⟩
    · exact ⟨t, ht, hl _ t ha⟩
    · exact ⟨t', ht', Ledger.after_mono hs' hv⟩
  case h_3 => exact hl _ _ hp
  case h_4 => trivial

theorem endAttempt_cases (e : b.endAttempt = some b') :
    (∃ t, b.loop = .fetching (.done t) ∧ b' = b.attemptSucceeded t) ∨
      (b.loop = .fetching .failed ∨ b.loop = .fetching .running) ∧ b' = b.attemptFailed := by
  unfold endAttempt at e
  split at e
  case h_1 t hl => exact .inl ⟨t, hl, (Option.some.inj e).symm⟩
  case h_2 hl => exact .inr ⟨.inl hl, (Option.some.inj e).symm⟩
  case h_3 hl => exact .inr ⟨.inr hl, (Option.some.inj (Option.ite_none_right_eq_some.mp e).2).symm⟩
  case h_4 => cases e

namespace Inv

theorem initial : Inv RenewableBearer.initial := by
  refine ⟨Nat.le_refl 0, by simp [RenewableBearer.initial], by simp [RenewableBearer.initial, Renewal.initial],
    fun i => ⟨Nat.le_refl 0, trivial⟩⟩

variable (h : b.Inv)
include h

theorem update {c : Call} (hc : b.CallOk c) : Inv { b with calls := Function.update b.calls i c } := by
  refine ⟨h.marked, h.cached, h.fresh, fun j => ?_⟩
  dsimp only
  rw [Function.update_apply]
  split
  · exact hc
  · exact h.calls j

theorem goto (hp : b.CallOk { b.calls i with phase := p }) : Inv (b.goto i p) :=
  h.update hp

theorem goto_other (hp : p = .raised () ∨ p = .awaiting false ∨ ∃ w, p = .proceeding w) : Inv (b.goto i p) := by
  refine h.goto ⟨(h.calls i).left, ?_⟩
  rcases hp with rfl | rfl | ⟨w, rfl⟩ <;> trivial

theorem returned (ht : b.ledger.after (b.calls i).since t) : Inv (b.goto i (.returned t)) :=
  h.goto ⟨(h.calls i).left, ht⟩

theorem wakeProceeding : Inv (b.wakeAll .wakeProceeding) := by
  refine ⟨h.marked, h.cached, h.fresh, fun i => ⟨(h.calls i).left, ?_⟩⟩
  have hi := (h.calls i).right
  simp only [wakeAll, Callers.wakeAll]
  cases hp : (b.calls i).phase <;> simp only [hp] at hi <;> exact hi

theorem wakeAwaiting (hc : b.cache = some t) (hv : b.ledger.isValid t) : Inv (b.wakeAll .wakeAwaiting) := by
  refine ⟨h.marked, h.cached, h.fresh, fun i => ⟨(h.calls i).left, ?_⟩⟩
  have hi := (h.calls i).right
  simp only [wakeAll, Callers.wakeAll]
  cases hp : (b.calls i).phase <;> simp only [hp] at hi
  case awaiting => exact ⟨t, hc, Ledger.after_mono (h.calls i).left hv⟩
  all_goals exact hi

theorem renewal {r : Renewal} {l : Loop} (hf : r.futures = b.renewal.futures)
    (hfresh : r.isFresh → b.renewal.isFresh) (hr : b.renewal.renewRequested → r.renewRequested) :
    Inv { b with renewal := r, loop := l } where
  marked := h.marked
  cached t ht := (h.cached t ht).imp id hr
  fresh hr' := h.fresh (hfresh hr')
  calls i := (h.calls i).mono (Nat.le_refl _) (fun _ _ => id) (fun _ => .inl) fun _ _ ht => .inl (hf ▸ ht)

theorem loop {l : Loop} : Inv { b with loop := l } :=
  h.renewal rfl id id

theorem serve (hc : ∀ t, b.cache = some t → b.ledger.after (b.calls i).since t) : Inv (b.serve i) := by
  unfold RenewableBearer.serve
  split
  case h_1 t ht => exact h.returned (hc t ht)
  case h_2 => exact h.goto_other (.inl rfl)

theorem request : Inv (b.request i) := by
  unfold RenewableBearer.request Callers.request
  split
  case isTrue =>
    have hr : Inv { b with renewal := { b.renewal.share.1 with renewRequested := true } } := by
      refine ⟨h.marked, fun t ht => .inr rfl, fun hf => h.fresh ?_, fun j => ?_⟩
      · rwa [← Renewal.share_isFresh]
      · exact (h.calls j).mono (Nat.le_refl _) (fun _ _ => id) (fun _ => .inl) fun f t ht =>
          .inl ((Renewal.share_futures ht).resolve_right (by simp))
    refine hr.goto ⟨(h.calls i).left, fun t ht => ?_⟩
    change b.renewal.share.1.futures[b.renewal.share.2]? = _ at ht
    simp [Renewal.share_pending] at ht
  have hr : Inv { b with renewal := { b.renewal with renewRequested := true } } :=
    h.renewal rfl id fun _ => rfl
  cases hf : b.renewal.isFresh
  case false => exact hr.goto_other (.inr (.inl rfl))
  case true =>
    obtain ⟨t, ht, hv⟩ := h.fresh hf
    exact hr.goto ⟨(h.calls i).left, t, ht, Ledger.after_mono (h.calls i).left hv⟩

theorem startLoop : Inv b.startLoop := by
  unfold RenewableBearer.startLoop
  split
  · exact h.loop
  · exact h

theorem fetch (hs : (b.calls i).since = b.ledger.mark) : Inv (b.fetch i) := by
  have hb : b.startLoop.cache = b.cache ∧ b.startLoop.calls = b.calls ∧ b.startLoop.ledger = b.ledger ∧
      b.startLoop.renewal = b.renewal := by
    unfold RenewableBearer.startLoop
    split <;> exact ⟨rfl, rfl, rfl, rfl⟩
  obtain ⟨hcache, hcalls, hledger, hrenewal⟩ := hb
  have h' := h.startLoop
  unfold RenewableBearer.fetch
  dsimp only
  split
  case isTrue =>
    split
    · have hr : Inv { b.startLoop with renewal := { b.startLoop.renewal with breakPrevious := true } } :=
        h'.renewal rfl id id
      exact hr.goto_other (.inr (.inr ⟨_, rfl⟩))
    · exact h'.request
  case isFalse hn =>
    refine h'.serve fun t ht => ?_
    have hr : b.renewal.renewRequested = false := by
      simp only [isRenewalRequired, hrenewal, Bool.or_eq_true, not_or, Bool.not_eq_true] at hn
      exact hn.left.right
    rw [hcalls, hledger, hs]
    exact (h.cached t (hcache ▸ ht)).resolve_right (by simp [hr])

theorem attemptFailed (hv : b.cache.all b.ledger.isValid) : Inv b.attemptFailed := by
  refine wakeProceeding ⟨h.marked, fun t ht => .inl ?_, fun hf => h.fresh ?_, fun i => ?_⟩
  · simpa [show b.cache = some t from ht] using hv
  · simpa [Renewal.settle_isFresh, Renewal.endWait] using hf
  · refine (h.calls i).mono (Nat.le_refl _) (fun _ _ => id) (fun _ => .inl) fun f t ht => .inl ?_
    exact (Renewal.settle_futures ht).resolve_right (by simp)

theorem attemptSucceeded (hv : b.ledger.isValid t) : Inv (b.attemptSucceeded t) := by
  refine wakeAwaiting (wakeProceeding ⟨h.marked, fun t' ht => .inl ?_, fun _ => ⟨t, rfl, hv⟩, fun i => ?_⟩) rfl hv
  · exact Option.some.inj ht ▸ hv
  · refine (h.calls i).mono (Nat.le_refl _) (fun _ _ => id) (fun _ _ => .inr ⟨t, rfl, hv⟩) fun f t' ht => ?_
    refine (Renewal.settle_futures ht).imp id fun he => ?_
    cases he
    exact hv

theorem endAttempt (hr : b.renews .endAttempt) (e : b.endAttempt = some b') : b'.Inv := by
  rcases endAttempt_cases e with ⟨t, hl, rfl⟩ | ⟨hl, rfl⟩
  · simp only [renews, hl] at hr
    exact h.attemptSucceeded hr
  · exact h.attemptFailed (by rcases hl with hl | hl <;> simpa only [renews, hl] using hr)

theorem retry {n m : Int} {sync : Bool} : Inv (b.retry n m sync) := by
  unfold RenewableBearer.retry Callers.retry
  split
  case isFalse => exact h
  case isTrue hc =>
    have hs : b.renewal.isStopped = false := by simp_all
    have hr : b.renewal.requestRenewal = { b.renewal with isFresh := false, renewRequested := true } := by
      simp [Renewal.requestRenewal, hs]
    rw [hr]
    refine ⟨Nat.le_refl _, fun _ _ => .inr rfl, by simp, fun i => ?_⟩
    exact (h.calls i).mono h.marked (fun _ _ => id) (fun _ => .inl) fun _ _ => .inl

theorem sourceDone : Inv { b with loop := .fetching (.done t), ledger := b.ledger.obtain t } where
  marked := by simpa [Ledger.obtain] using Nat.le_succ_of_le h.marked
  cached t' ht := (h.cached t' ht).imp Ledger.after_obtain id
  fresh hf := by
    obtain ⟨t', ht, hv⟩ := h.fresh hf
    exact ⟨t', ht, Ledger.after_obtain hv⟩
  calls i := (h.calls i).mono (Nat.le_refl _) (fun _ _ => Ledger.after_obtain) (fun _ => .inl) fun _ _ => .inl

theorem resume (e : b.resume i = some b') : b'.Inv := by
  have hi := (h.calls i).right
  unfold RenewableBearer.resume at e
  split at e
  case h_1 f hp =>
    simp only [hp] at hi
    split at e <;> cases e
    case h_1 t ht => exact h.returned (hi t ht)
    case h_2 => exact h.goto_other (.inl rfl)
  case h_2 hp =>
    simp only [hp] at hi
    obtain ⟨t, ht, ha⟩ := hi
    cases e
    refine h.serve fun t' ht' => ?_
    rw [ht] at ht'
    exact Option.some.inj ht' ▸ ha
  case h_3 => cases e

theorem step {a : Event} (hr : b.renews a) (e : b.step a = some b') : b'.Inv := by
  cases a <;> simp only [RenewableBearer.step] at e
  case fetch i o =>
    split at e <;> cases e
    refine Inv.fetch (h.update ⟨Nat.le_refl _, trivial⟩) ?_
    simp
  case proceed =>
    split at e <;> cases e
    exact h.request
  case poll i =>
    split at e
    case h_1 =>
      simp only [Machine.guard_iff] at e
      obtain ⟨t, ht, hv⟩ := h.fresh e.left
      rw [← e.right]
      exact h.goto ⟨(h.calls i).left, t, ht, Ledger.after_mono (h.calls i).left hv⟩
    case h_2 => cases e
  case resume => exact h.resume e
  case timeout =>
    split at e <;> cases e <;> exact h.goto_other (.inl rfl)
  case beginAttempt =>
    split at e <;> cases e
    all_goals
      unfold RenewableBearer.beginAttempt
      split
      · exact h.loop
      · exact h.renewal rfl id id
  case sourceDone =>
    split at e <;> cases e
    exact h.sourceDone
  case sourceFail =>
    split at e <;> cases e
    exact h.loop
  case endAttempt => exact h.endAttempt hr e
  case discard =>
    obtain ⟨r, hd, rfl⟩ := Option.map_eq_some_iff.mp e
    cases Renewal.eq_of_discard hd
    exact h.renewal rfl id id
  case retry =>
    cases e
    exact h.retry
  case stop =>
    cases e
    exact h.renewal rfl (by simp [Renewal.stop]) fun _ => rfl
  case cancelLoop =>
    split at e <;> cases e
    all_goals exact wakeProceeding (h.renewal rfl id id)

end Inv

open Machine (Reaches)

theorem reaches_servesValid (h : Reaches step (fun b a => b.renews a = true) initial b) : b.ServesValid := by
  have hi : b.Inv := h.invariant (I := Inv) (fun hi hr e => hi.step hr e) .initial
  intro i t ht
  have hc := (hi.calls i).right
  rwa [ht] at hc

theorem fetch_cached (hi : (b.calls i).phase = .fresh) (hc : b.cache = some t)
    (hr : b.renewal.renewRequested = false) : ∃ b', b.step (.fetch i .plain) = some b' ∧
      (b'.calls i).phase = .returned t ∧ (b'.calls i).since = b.ledger.mark ∧ b'.ledger = b.ledger := by
  simp only [step, hi, Option.some.injEq, exists_eq_left']
  cases b.loop <;> simp [fetch, startLoop, isRenewalRequired, hc, hr, FetchOptions.plain, serve, goto, Callers.goto]

theorem serves_invalid (hr : b.renews .endAttempt = false) (e : b.endAttempt = some b')
    (hi : (b'.calls i).phase = .fresh) : ∃ t b'', b'.step (.fetch i .plain) = some b'' ∧
      (b''.calls i).phase = .returned t ∧ b''.ledger.after (b''.calls i).since t = false := by
  suffices hs : ∃ t, b'.cache = some t ∧ b'.renewal.renewRequested = false ∧ b'.ledger.isValid t = false by
    obtain ⟨t, hc, hn, hv⟩ := hs
    obtain ⟨b'', hstep, hp, hs, hl⟩ := fetch_cached hi hc hn
    exact ⟨t, b'', hstep, hp, by rw [hs, hl]; exact hv⟩
  have hfailed (hv : b.cache.all b.ledger.isValid = false) : ∃ t, b.attemptFailed.cache = some t ∧
      b.attemptFailed.renewal.renewRequested = false ∧ b.attemptFailed.ledger.isValid t = false := by
    obtain ⟨t, ht, hv⟩ : ∃ t, b.cache = some t ∧ b.ledger.isValid t = false := by
      cases hc : b.cache <;> simp_all
    exact ⟨t, ht, Renewal.settle_renewRequested, hv⟩
  rcases endAttempt_cases e with ⟨t, hl, rfl⟩ | ⟨hl, rfl⟩
  · simp only [renews, hl] at hr
    exact ⟨t, rfl, Renewal.settle_renewRequested, hr⟩
  · exact hfailed (by rcases hl with hl | hl <;> simpa only [renews, hl] using hr)

end RenewableBearer

end Aio
