import PysdkModel.Aio.CrossLoop
import PysdkModel.Lib.Entries

namespace Aio

variable {ρ ε : Type*}

namespace LoopWaiter

variable {f : Option (SharedOutcome ρ ε)} {o : SharedOutcome ρ ε} {r d : Nat} {x : LoopWaiter ρ ε}

def own (x : LoopWaiter ρ ε) : Nat :=
  if x.phase = .publishing then 1 else 0

theorem own_of_ne (h : x.phase ≠ .publishing) : x.own = 0 :=
  if_neg h

-- What holds of a waiter that is registered `r` times and is `d` times among the destinations. Whoever waits for its
-- relay is in exactly one place from which a call of `publish` will come.
structure Ok (f : Option (SharedOutcome ρ ε)) (r d : Nat) (x : LoopWaiter ρ ε) : Prop where
  tokens : r + d + x.queued + x.own + x.copies ≤ 1
  pending : x.relay = .pending → r + d + x.queued + x.own = 1
  copied : ∀ {o}, x.relay = .copied o → f = some o ∧ x.copies = 1
  cancelled : x.relay = .cancelled → x.cancelRequested = true
  waiting : x.relay = .pending → x.phase = .publishing ∨ x.phase = .awaiting
  completed : 0 < d + x.queued + x.own → f.isSome = true
  gone : x.phase = .cancelling ∨ x.phase = .returned → r = 0
  direct : x.phase = .cancelling → x.shielded = false
  aborted : x.phase = .returned → x.shielded = false → x.cancelRequested = true → f.isSome = true

namespace Ok

theorem registered (shielded : Bool) : Ok (ρ := ρ) (ε := ε) none 1 0 { shielded := shielded, phase := .awaiting } := by
  constructor <;> simp [own]

theorem late (shielded : Bool) : Ok (some o) 0 0 { shielded := shielded, phase := .publishing } := by
  constructor <;> simp [own]

theorem complete (h : Ok none r d x) : Ok (some o) r d x where
  __ := h
  copied := fun hr => absurd (h.copied hr).1 (by simp)
  completed := fun _ => rfl
  aborted := fun _ _ _ => rfl

theorem publishOwn (h : Ok f r d x) (hx : x.phase = .publishing) :
    Ok f r d { x with phase := .awaiting, queued := x.queued + 1 } := by
  have ho : x.own = 1 := if_pos hx
  have ht := h.tokens
  constructor
  case pending => exact fun hr => by have := h.pending hr; simp only [own, reduceCtorEq, if_false]; omega
  case copied => exact h.copied
  case cancelled => exact h.cancelled
  case completed => exact fun _ => h.completed (by omega)
  all_goals simp [own]
  omega

theorem detach (h : Ok (some o) r 0 x) : Ok (some o) 0 r x where
  __ := h
  tokens := by simpa using h.tokens
  pending := fun hr => by simpa using h.pending hr
  completed := fun _ => rfl
  gone := fun _ => rfl

theorem queue (h : Ok f r (d + 1) x) : Ok f r d { x with queued := x.queued + 1 } where
  __ := h
  tokens := by have := h.tokens; simp only [own] at *; omega
  pending := fun hr => by have := h.pending hr; simp only [own] at *; omega
  completed := fun _ => h.completed (by omega)

theorem publish (h : Ok (some o) r d x) (hq : 0 < x.queued) : Ok (some o) r d (x.publish o) := by
  have ht := h.tokens
  -- A call for a relay that is done already has no effect but its own end.
  have late : x.relay ≠ .pending → Ok (some o) r d { x with queued := x.queued - 1 } := fun hr =>
    { h with
      tokens := by simp only [own] at *; omega
      pending := fun hr' => absurd hr' hr
      completed := fun _ => rfl }
  unfold LoopWaiter.publish
  split
  case h_1 hr =>
    exact { h with
      tokens := by simp only [own] at *; omega
      pending := nofun
      copied := by
        rintro _ ⟨⟩
        exact ⟨rfl, by simp only; omega⟩
      cancelled := nofun
      waiting := nofun
      completed := fun _ => rfl }
  case h_2 hr => exact late (by simp [hr])
  case h_3 hr => exact late (by simp [hr])

theorem cancel (h : Ok f r d x) (hx : x.phase = .awaiting) : Ok f r d x.cancel := by
  have ho := own_of_ne (x := x) (by simp [hx])
  have marked : x.relay ≠ .pending → Ok f r d { x with cancelRequested := true } := fun hr =>
    { h with
      cancelled := fun _ => rfl
      aborted := fun hp => absurd (hx.symm.trans hp) (by simp) }
  unfold LoopWaiter.cancel
  split
  case h_1 hr =>
    exact { h with
      pending := nofun
      copied := nofun
      cancelled := fun _ => rfl
      waiting := nofun
      aborted := fun hp => absurd (hx.symm.trans hp) (by simp) }
  case h_2 hr => exact marked (by simp [hr])
  case h_3 hr => exact marked (by simp [hr])

theorem wake (h : Ok f r d x) (hx : x.phase = .awaiting) (hr : x.relay ≠ .pending) :
    Ok f r d { x with phase := .leaving } where
  __ := h
  tokens := by have := h.tokens; simp only [own, hx] at *; simpa using this
  pending := fun hr' => absurd hr' hr
  waiting := fun hr' => absurd hr' hr
  completed := fun hq => h.completed (by simp only [own, hx] at *; simpa using hq)
  gone := by simp
  direct := by simp
  aborted := by simp

theorem leave (h : Ok f r d x) (hx : x.phase = .leaving) : Ok f 0 d x.leave := by
  have hr : x.relay ≠ .pending := by
    intro hr
    rcases h.waiting hr with hp | hp <;> simp [hx] at hp
  have ho : x.leave.own = 0 := by
    refine own_of_ne ?_
    simp only [LoopWaiter.leave]
    split <;> simp
  have ht := h.tokens
  exact { h with
    tokens := by rw [ho]; simp only [LoopWaiter.leave]; omega
    pending := fun hr' => absurd hr' hr
    waiting := fun hr' => absurd hr' hr
    completed := fun hq => h.completed (by rw [ho] at hq; simp only [LoopWaiter.leave] at hq; omega)
    gone := fun _ => rfl
    direct := by
      simp only [LoopWaiter.leave]
      split
      case isTrue hc => simp_all
      case isFalse => simp
    aborted := by
      simp only [LoopWaiter.leave]
      split
      case isTrue => simp
      case isFalse hc =>
        intro _ hs hc'
        simp [hs, raisesCancelled, hc'] at hc }

theorem abort (h : Ok f r d x) (hx : x.phase = .cancelling) (hf : f.isSome = true) :
    Ok f r d { x with phase := .returned } where
  __ := h
  tokens := by have := h.tokens; simp only [own, hx] at *; simpa using this
  pending := fun hr => by have := h.pending hr; simp only [own, hx] at *; simpa using this
  waiting := fun hr => by rcases h.waiting hr with hp | hp <;> simp [hx] at hp
  completed := fun _ => hf
  gone := fun _ => h.gone (.inl hx)
  direct := by simp
  aborted := fun _ _ _ => hf

end Ok

end LoopWaiter

namespace SharedHandle

variable {s t : SharedHandle ρ ε} {e : HandleEvent ρ ε} {o : SharedOutcome ρ ε} {x y : LoopWaiter ρ ε} {w : Nat}

open LoopWaiter (Ok)

theorem advance_eq_some {phase : WaitPhase} {f : LoopWaiter ρ ε → LoopWaiter ρ ε} (h : s.advance w phase f = some t) :
    ∃ x, s.waiters[w]? = some x ∧ x.phase = phase ∧ t = { s with waiters := s.waiters.set w (f x) } := by
  unfold advance at h
  split at h
  case h_1 x hw =>
    obtain ⟨hx, h⟩ := Option.ite_none_right_eq_some.mp h
    cases h
    exact ⟨x, hw, hx, rfl⟩
  case h_2 => cases h

theorem complete_set (o : SharedOutcome ρ ε) :
    ({ s with waiters := s.waiters.set w x } : SharedHandle ρ ε).complete o =
      { s.complete o with waiters := (s.complete o).waiters.set w x } := by
  obtain ⟨future, publisher, registry, waiters⟩ := s
  cases future <;> rfl

inductive Moves (s : SharedHandle ρ ε) : HandleEvent ρ ε → SharedHandle ρ ε → Prop
  | complete (o : SharedOutcome ρ ε) :
    s.future = none → Moves s (.complete o) (s.complete o)
  | register (shielded : Bool) :
    s.future = none →
    Moves s (.start shielded) { s with
      registry := s.registry ++ [s.waiters.length]
      waiters := s.waiters ++ [{ shielded := shielded, phase := .awaiting }] }
  | arrive {o : SharedOutcome ρ ε} (shielded : Bool) :
    s.future = some o →
    Moves s (.start shielded) { s with waiters := s.waiters ++ [{ shielded := shielded, phase := .publishing }] }
  | publishOwn {w : Nat} {x : LoopWaiter ρ ε} :
    s.waiters[w]? = some x → x.phase = .publishing →
    Moves s (.publishOwn w)
      { s with waiters := s.waiters.set w { x with phase := .awaiting, queued := x.queued + 1 } }
  | detach :
    s.publisher = .detaching → Moves s .detach { s with publisher := .publishing s.registry, registry := [] }
  | publishNext {w : Nat} {ds : List Nat} :
    s.publisher = .publishing (w :: ds) →
    Moves s .publishNext { s with
      publisher := .publishing ds
      waiters := s.waiters.modify w fun x => { x with queued := x.queued + 1 } }
  | deliver {w : Nat} {x : LoopWaiter ρ ε} {o : SharedOutcome ρ ε} :
    s.waiters[w]? = some x → s.future = some o → 0 < x.queued →
    Moves s (.deliver w) { s with waiters := s.waiters.set w (x.publish o) }
  | cancel {w : Nat} {x : LoopWaiter ρ ε} :
    s.waiters[w]? = some x → x.phase = .awaiting →
    Moves s (.cancel w) { s with waiters := s.waiters.set w x.cancel }
  | wake {w : Nat} {x : LoopWaiter ρ ε} :
    s.waiters[w]? = some x → x.phase = .awaiting → x.relay ≠ .pending →
    Moves s (.wake w) { s with waiters := s.waiters.set w { x with phase := .leaving } }
  | leave {w : Nat} {x : LoopWaiter ρ ε} :
    s.waiters[w]? = some x → x.phase = .leaving →
    Moves s (.leave w) { s with waiters := s.waiters.set w x.leave, registry := s.registry.filter (· ≠ w) }
  | abort {w : Nat} {x : LoopWaiter ρ ε} :
    s.waiters[w]? = some x → x.phase = .cancelling →
    Moves s (.abort w) { s.complete .cancelled with
      waiters := (s.complete .cancelled).waiters.set w { x with phase := .returned } }

theorem step_moves (h : s.step e = some t) : Moves s e t := by
  cases e <;> simp only [step] at h
  case complete o =>
    obtain ⟨hf, h⟩ := Option.ite_none_right_eq_some.mp h
    cases h
    exact .complete o (Option.isNone_iff_eq_none.mp hf)
  case start shielded =>
    split at h <;> cases h
    case h_1 hf => exact .register shielded hf
    case h_2 hf => exact .arrive shielded hf
  case publishOwn w =>
    obtain ⟨x, hw, hx, rfl⟩ := advance_eq_some h
    exact .publishOwn hw hx
  case detach =>
    split at h <;> cases h
    case h_1 hp => exact .detach hp
  case publishNext =>
    split at h <;> cases h
    case h_1 hp => exact .publishNext hp
  case deliver w =>
    split at h
    case h_1 hw hf =>
      obtain ⟨hq, h⟩ := Option.ite_none_right_eq_some.mp h
      cases h
      exact .deliver hw hf hq
    case h_2 => cases h
  case cancel w =>
    obtain ⟨x, hw, hx, rfl⟩ := advance_eq_some h
    exact .cancel hw hx
  case wake w =>
    split at h
    case h_2 => cases h
    case h_1 hw =>
      split at h <;> cases h
      case h_1 hx hr => exact .wake hw hx (by simp [hr])
      case h_2 hx hr => exact .wake hw hx (by simp [hr])
  case leave w =>
    obtain ⟨u, hu, rfl⟩ := Option.map_eq_some_iff.mp h
    obtain ⟨x, hw, hx, rfl⟩ := advance_eq_some hu
    exact .leave hw hx
  case abort w =>
    obtain ⟨u, hu, rfl⟩ := Option.map_eq_some_iff.mp h
    obtain ⟨x, hw, hx, rfl⟩ := advance_eq_some hu
    rw [complete_set]
    exact .abort hw hx

theorem waiters_complete : (s.complete o).waiters = s.waiters := by
  unfold complete
  split <;> rfl

theorem isSome_future_complete : (s.complete o).future.isSome = true := by
  unfold complete
  split <;> simp_all

structure Inv (s : SharedHandle ρ ε) : Prop where
  ok : ∀ {w : Nat} {x}, s.waiters[w]? = some x →
    Ok s.future (s.registry.count w) (s.publisher.destinations.count w) x
  known : ∀ {w : Nat}, w ∈ s.registry ∨ w ∈ s.publisher.destinations → w < s.waiters.length
  idle : s.publisher = .idle ↔ s.future = none
  detached : ∀ {ds}, s.publisher = .publishing ds → s.registry = []

namespace Inv

attribute [local simp] SharedHandle.initial

theorem initial : Inv (ρ := ρ) (ε := ε) initial where
  ok := by simp
  known := by simp [Publisher.destinations]
  idle := by simp
  detached := by simp

theorem complete (hi : Inv s) : Inv (s.complete o) := by
  unfold SharedHandle.complete
  split
  case h_2 => exact hi
  case h_1 hf =>
    have hp := hi.idle.mpr hf
    exact {
      ok := by
        intro w x hw
        have h := hi.ok hw
        simp only [hp, hf, Publisher.destinations] at h ⊢
        exact h.complete
      known := fun hw => hi.known (.inl (by simpa [Publisher.destinations] using hw))
      idle := by simp
      detached := nofun }

theorem set (hi : Inv s) (hy : Ok s.future (s.registry.count w) (s.publisher.destinations.count w) y) :
    Inv { s with waiters := s.waiters.set w y } where
  __ := hi
  ok := by
    intro v z hv
    rcases List.getElem?_set_cases hv with ⟨rfl, rfl⟩ | ⟨_, hv⟩
    · exact hy
    · exact hi.ok hv
  known := fun hv => by simpa using hi.known hv

theorem count_fresh (hi : Inv s) :
    s.registry.count s.waiters.length = 0 ∧ s.publisher.destinations.count s.waiters.length = 0 := by
  refine ⟨List.count_eq_zero.mpr fun h => ?_, List.count_eq_zero.mpr fun h => ?_⟩
  · exact Nat.lt_irrefl _ (hi.known (.inl h))
  · exact Nat.lt_irrefl _ (hi.known (.inr h))

theorem register (hi : Inv s) (hf : s.future = none) (shielded : Bool) :
    Inv { s with
      registry := s.registry ++ [s.waiters.length]
      waiters := s.waiters ++ [{ shielded := shielded, phase := .awaiting }] } where
  ok := by
    intro v z hv
    rcases List.getElem?_concat_cases hv with hv | ⟨rfl, rfl⟩
    · have hne : s.waiters.length ≠ v := Nat.ne_of_gt (List.lt_length_of_getElem? hv)
      simpa [hne] using hi.ok hv
    · have hd : s.publisher.destinations = [] := by simp [hi.idle.mpr hf, Publisher.destinations]
      simpa [hi.count_fresh.1, hd, hf] using Ok.registered shielded
  known := by
    intro v hv
    simp only [List.mem_append, List.mem_singleton, List.length_append, List.length_singleton] at hv ⊢
    rcases hv with (hv | rfl) | hv
    case inl.inl => exact Nat.lt_succ_of_lt (hi.known (.inl hv))
    case inl.inr => exact Nat.lt_succ_self _
    case inr => exact Nat.lt_succ_of_lt (hi.known (.inr hv))
  idle := hi.idle
  detached := fun hp => absurd ((hi.idle.mpr hf).symm.trans hp) (by simp)

theorem arrive (hi : Inv s) (hf : s.future = some o) (shielded : Bool) :
    Inv { s with waiters := s.waiters ++ [{ shielded := shielded, phase := .publishing }] } where
  __ := hi
  ok := by
    intro v z hv
    rcases List.getElem?_concat_cases hv with hv | ⟨rfl, rfl⟩
    · exact hi.ok hv
    · simpa only [hi.count_fresh, hf] using Ok.late shielded
  known := fun hv => Nat.lt_of_lt_of_le (hi.known hv) (by simp)

theorem detach (hi : Inv s) (hp : s.publisher = .detaching) :
    Inv { s with publisher := .publishing s.registry, registry := [] } where
  ok := by
    intro v z hv
    obtain ⟨o, ho⟩ := Option.ne_none_iff_exists'.mp fun hf => absurd (hi.idle.mpr hf) (by simp [hp])
    have h := hi.ok hv
    simp only [hp, ho, Publisher.destinations, List.count_nil] at h ⊢
    exact h.detach
  known := fun hv => hi.known (.inl (by simpa [Publisher.destinations] using hv))
  idle := by
    have := hi.idle
    simp only [hp, reduceCtorEq, false_iff] at this ⊢
    exact this
  detached := fun _ => rfl

theorem publishNext {ds : List Nat} (hi : Inv s) (hp : s.publisher = .publishing (w :: ds)) :
    Inv { s with
      publisher := .publishing ds
      waiters := s.waiters.modify w fun x => { x with queued := x.queued + 1 } } where
  ok := by
    intro v z hv
    rw [List.getElem?_modify] at hv
    obtain ⟨z₀, hv₀, rfl⟩ := Option.map_eq_some_iff.mp hv
    have h := hi.ok hv₀
    simp only [hp, Publisher.destinations, List.count_cons] at h ⊢
    by_cases hwv : w = v
    · simpa [hwv] using Ok.queue (by simpa [hwv] using h)
    · simpa [hwv] using h
  known := by
    intro v hv
    rw [List.length_modify]
    refine hi.known (hv.imp_right fun h => ?_)
    rw [hp]
    exact List.mem_cons_of_mem _ h
  idle := by
    have := hi.idle
    simp only [hp, reduceCtorEq, false_iff] at this ⊢
    exact this
  detached := fun _ => hi.detached hp

theorem leave (hi : Inv s) (hw : s.waiters[w]? = some x) (hx : x.phase = .leaving) :
    Inv { s with waiters := s.waiters.set w x.leave, registry := s.registry.filter (· ≠ w) } where
  __ := hi
  ok := by
    intro v z hv
    rcases List.getElem?_set_cases hv with ⟨rfl, rfl⟩ | ⟨hne, hv⟩
    · have hc : (s.registry.filter (· ≠ v)).count v = 0 := List.count_eq_zero.mpr (by simp)
      exact hc ▸ (hi.ok hw).leave hx
    · have hc : (s.registry.filter (· ≠ w)).count v = s.registry.count v := List.count_filter (by simpa using hne)
      exact hc ▸ hi.ok hv
  known := by
    intro v hv
    rw [List.length_set]
    exact hi.known (hv.imp_left fun h => (List.mem_filter.mp h).1)
  detached := fun hp => by simp [hi.detached hp]

theorem step (hi : Inv s) (h : s.step e = some t) : Inv t := by
  cases step_moves h
  case complete o hf => exact hi.complete
  case register shielded hf => exact hi.register hf shielded
  case arrive o shielded hf => exact hi.arrive hf shielded
  case publishOwn w x hw hx => exact hi.set ((hi.ok hw).publishOwn hx)
  case detach hp => exact hi.detach hp
  case publishNext w ds hp => exact hi.publishNext hp
  case deliver w x o hw hf hq => exact hi.set (hf ▸ Ok.publish (hf ▸ hi.ok hw) hq)
  case cancel w x hw hx => exact hi.set ((hi.ok hw).cancel hx)
  case wake w x hw hx hr => exact hi.set ((hi.ok hw).wake hx hr)
  case leave w x hw hx => exact hi.leave hw hx
  case abort w x hw hx =>
    have hw' : (s.complete .cancelled).waiters[w]? = some x := by rwa [waiters_complete]
    exact hi.complete.set ((hi.complete.ok hw').abort hx isSome_future_complete)

theorem reached (h : Machine.Reaches SharedHandle.step Machine.anyEvent SharedHandle.initial s) : Inv s :=
  h.invariant (I := Inv) (fun hi _ e => hi.step e) .initial

theorem remaining_set {p : Publisher} {rs : List Nat} {f : Option (SharedOutcome ρ ε)} {y : LoopWaiter ρ ε}
    (hw : s.waiters[w]? = some x) (hy : y.remaining < x.remaining)
    (hp : p.remaining rs.length ≤ s.publisher.remaining s.registry.length) :
    (SharedHandle.mk f p rs (s.waiters.set w y)).remaining < s.remaining := by
  have := List.sum_map_set (b := y) LoopWaiter.remaining hw
  simp only [remaining]
  omega

theorem remaining_filter (p : Publisher) (rs : List Nat) (q : Nat → Bool) :
    p.remaining (rs.filter q).length ≤ p.remaining rs.length := by
  have := rs.length_filter_le q
  cases p <;> simp only [Publisher.remaining] <;> omega

theorem publishNext_remaining {ds : List Nat} (hi : Inv s) (hp : s.publisher = .publishing (w :: ds)) :
    { s with
      publisher := .publishing ds
      waiters := s.waiters.modify w fun x => { x with queued := x.queued + 1 } }.remaining < s.remaining := by
  have hlt : w < s.waiters.length := hi.known (.inr (by simp [hp, Publisher.destinations]))
  obtain ⟨x, hw⟩ : ∃ x, s.waiters[w]? = some x := ⟨_, List.getElem?_eq_getElem hlt⟩
  have := List.sum_map_set (b := { x with queued := x.queued + 1 }) LoopWaiter.remaining hw
  have hx : ({ x with queued := x.queued + 1 } : LoopWaiter ρ ε).remaining = x.remaining + 1 := rfl
  simp only [remaining, hp, Publisher.remaining, List.length_cons, List.modify_eq_set_getElem?, hw]
  simp only [Option.map_eq_map, Option.map_some, Option.getD_some]
  omega

theorem complete_remaining (hi : Inv s) :
    (s.complete o).publisher.remaining (s.complete o).registry.length ≤
      s.publisher.remaining s.registry.length := by
  unfold SharedHandle.complete
  split
  case h_1 hf => simp [hi.idle.mpr hf, Publisher.remaining]
  case h_2 => exact Nat.le_refl _

theorem ends (hi : Inv s) (he : e.isInternal = true) (h : s.step e = some t) : t.remaining < s.remaining := by
  cases step_moves h <;> try cases he
  case publishOwn w x hw hx => exact remaining_set hw (by simp only [LoopWaiter.remaining, hx]; omega) (Nat.le_refl _)
  case detach hp => simp [remaining, hp, Publisher.remaining]
  case publishNext w ds hp => exact hi.publishNext_remaining hp
  case deliver w x o hw hf hq =>
    refine remaining_set hw ?_ (Nat.le_refl _)
    unfold LoopWaiter.publish
    split <;> simp only [LoopWaiter.remaining] <;> omega
  case wake w x hw hx hr => exact remaining_set hw (by simp [LoopWaiter.remaining, hx]) (Nat.le_refl _)
  case leave w x hw hx =>
    refine remaining_set hw ?_ (remaining_filter ..)
    cases hr : !x.shielded && x.raisesCancelled <;> simp [LoopWaiter.leave, LoopWaiter.remaining, hx, hr]
  case abort w x hw hx =>
    have hw' : (s.complete .cancelled).waiters[w]? = some x := by rwa [waiters_complete]
    rw [waiters_complete]
    exact remaining_set hw (by simp [LoopWaiter.remaining, hx]) hi.complete_remaining

attribute [local simp] SharedHandle.step

theorem answered (hi : Inv s) (hf : s.future.isSome = true) (hq : s.Quiet) : ∀ x ∈ s.waiters, x.phase = .returned := by
  obtain ⟨o, ho⟩ := Option.isSome_iff_exists.mp hf
  have hp : s.publisher = .publishing [] := by
    cases hp : s.publisher with
    | idle => simp [hi.idle.mp hp] at hf
    | detaching =>
      have := hq .detach rfl
      simp [hp] at this
    | publishing ds =>
      cases ds with
      | nil => rfl
      | cons w ds =>
        have := hq .publishNext rfl
        simp [hp] at this
  intro x hmem
  obtain ⟨w, hw⟩ := List.mem_iff_getElem?.mp hmem
  have hx := hi.ok hw
  cases hph : x.phase
  case returned => rfl
  case publishing =>
    have := hq (.publishOwn w) rfl
    simp [advance, hw, hph] at this
  case leaving =>
    have := hq (.leave w) rfl
    simp [advance, hw, hph] at this
  case cancelling =>
    have := hq (.abort w) rfl
    simp [advance, hw, hph] at this
  case awaiting =>
    have hwake := hq (.wake w) rfl
    cases hr : x.relay with
    | copied o => simp [hw, hph, hr] at hwake
    | cancelled => simp [hw, hph, hr] at hwake
    | pending =>
      have hdeliver := hq (.deliver w) rfl
      have := hx.pending hr
      simp only [hi.detached hp, hp, Publisher.destinations, List.count_nil,
        LoopWaiter.own_of_ne (x := x) (by simp [hph])] at this
      simp [hw, ho, show 0 < x.queued by omega] at hdeliver

theorem released (hi : Inv s) (h : ∀ x ∈ s.waiters, x.phase = .returned) : s.registry = [] := by
  refine List.eq_nil_iff_forall_not_mem.mpr fun w hm => ?_
  have hw := List.getElem?_eq_getElem (hi.known (.inl hm))
  have hr := (hi.ok hw).gone (.inr (h _ (List.mem_of_getElem? hw)))
  exact List.count_eq_zero.mp hr hm

theorem broadcasts (hi : Inv s) : Broadcasts s where
  received := by
    intro w x hw hx hc
    have hok := hi.ok hw
    cases hr : x.relay with
    | pending => rcases hok.waiting hr with hp | hp <;> simp [hx] at hp
    | copied o => exact ⟨o, (hok.copied hr).1, rfl, (hok.copied hr).2⟩
    | cancelled => simp [hok.cancelled hr] at hc
  once := fun hw => by have := (hi.ok hw).tokens; omega
  ends := hi.ends
  answered := hi.answered
  aborted := fun hw => (hi.ok hw).aborted
  released := fun _ => hi.released

end Inv

def cancellationSteps (w : Nat) : List (HandleEvent ρ ε) :=
  [.cancel w, .wake w, .leave w, .abort w]

theorem cancellation_local (hi : Inv s) (hw : s.waiters[w]? = some x) (hx : x.shielded = true)
    (he : e ∈ cancellationSteps w) (h : s.step e = some t) :
    t.future = s.future ∧ ∀ v, v ≠ w → t.waiters[v]? = s.waiters[v]? := by
  simp only [cancellationSteps, List.mem_cons, List.not_mem_nil, or_false] at he
  rcases he with rfl | rfl | rfl | rfl <;> cases step_moves h
  case inr.inr.inr.abort x' hx' hw' =>
    cases hw.symm.trans hw'
    exact absurd ((hi.ok hw).direct hx') (by simp [hx])
  all_goals exact ⟨rfl, fun v hv => List.getElem?_set_ne (Ne.symm hv)⟩

theorem future_abort (h : s.step (.abort w) = some t) : t.future = some (s.future.getD .cancelled) := by
  cases step_moves h
  case abort x hx hw =>
    simp only [complete]
    cases hf : s.future <;> simp [hf]

-- Every waiter that is not cancelled receives the shared outcome once. The cancellation of a shielded waiter stays with
-- the waiter, and that of a direct one cancels a shared future that is pending.
theorem broadcast (h : Machine.Reaches step Machine.anyEvent initial s) :
    Broadcasts s ∧
      (∀ {w : Nat} {x e t}, s.waiters[w]? = some x → x.shielded = true → e ∈ cancellationSteps w → s.step e = some t →
        t.future = s.future ∧ ∀ v, v ≠ w → t.waiters[v]? = s.waiters[v]?) ∧
      (∀ {w : Nat} {t}, s.step (.abort w) = some t → t.future = some (s.future.getD .cancelled)) :=
  have hi := Inv.reached h
  ⟨hi.broadcasts, cancellation_local hi, future_abort⟩

def threeWaiters : SharedHandle Nat Unit where
  future := some (.result 7)
  publisher := .publishing []
  registry := []
  waiters := [⟨true, .returned, .cancelled, 0, true, 0⟩, ⟨false, .returned, .copied (.result 7), 0, false, 1⟩,
    ⟨true, .returned, .copied (.result 7), 0, false, 1⟩]

theorem threeWaiters_broadcast :
    Broadcasts threeWaiters ∧
      (∀ {w : Nat} {x e t}, threeWaiters.waiters[w]? = some x → x.shielded = true → e ∈ cancellationSteps w →
        threeWaiters.step e = some t →
        t.future = threeWaiters.future ∧ ∀ v, v ≠ w → t.waiters[v]? = threeWaiters.waiters[v]?) ∧
      (∀ {w : Nat} {t}, threeWaiters.step (.abort w) = some t →
        t.future = some (threeWaiters.future.getD .cancelled)) :=
  broadcast <| .of_run (show Machine.run step initial
    [.start true, .start false, .cancel 0, .complete (.result 7), .start true, .detach, .publishNext, .publishOwn 2,
      .publishNext, .deliver 0, .deliver 2, .deliver 1, .wake 0, .wake 1, .wake 2, .leave 0, .leave 1, .leave 2] = _
    from rfl)

end SharedHandle

end Aio
