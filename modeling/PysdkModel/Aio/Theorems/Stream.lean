import PysdkModel.Aio.Stream
import PysdkModel.Lib.Entries

namespace Aio

def StreamWork.cancels : StreamWork → Bool
  | cancelClose | abort => true
  | result | next | write | close => false

def StreamTask.owes (t : StreamTask) : Bool :=
  match t.phase with
  | .queued => t.work.cancels
  | .refusing | .aborting | .releasing _ => true
  | _ => false

def StreamCaller.owes : StreamCaller → Bool
  | submitting | cancelReleasing | scheduling | cleanupReleasing => true
  | restoring | checking _ | returned => false

namespace StreamShared

variable {sh sh' : StreamShared} {w : StreamWork} {p p' q : StreamPhase} {o : StreamOutcome}

inductive Advances (sh : StreamShared) (w : StreamWork) : StreamPhase → StreamShared → StreamPhase → Prop
  | begins (hw : ¬w.cancels) : Advances sh w .queued sh .entering
  | resumes (hw : ¬w.cancels) (h : sh.iterator) : Advances sh w .queued sh .inCall
  | declines (hw : ¬w.cancels) : Advances sh w .queued sh .ended
  | closes : Advances sh w .queued sh .aborting
  | expires : Advances sh w .queued sh.expire (.releasing false)
  | enters : Advances sh w .entering { sh with startEntered := true } .waiting
  | joins (h : sh.call.isSome) :
    Advances sh w .entering ({ sh with startEntered := true }.use w).1 .inCall
  | rejoins (h : sh.startError) :
    Advances sh w .entering { sh with startEntered := true }.owe .ended
  | leaves : Advances sh w .waiting sh .ended
  | shares (h : sh.call.isSome) : Advances sh w .waiting (sh.use w).1 .inCall
  | refuses (h : sh.startError ∨ sh.isCancelled) : Advances sh w .waiting sh.owe .ended
  | skips (h : sh.call = none) (he : ¬sh.startError) : Advances sh w .waiting sh .verifying
  | locks (h : sh.call = none) (he : ¬sh.startError) : Advances sh w .waiting sh .authenticating
  | setupFails : Advances sh w .waiting sh.owe .refusing
  | waits {b : Bool} : Advances sh w .authenticating sh (.gathering b)
  | authenticates {b : Bool} : Advances sh w (.gathering b) sh .verifying
  | authFails {b : Bool} : Advances sh w (.gathering b) sh.owe .refusing
  | verifies (h : ¬sh.isCancelled) : Advances sh w .verifying sh .leasing
  | withdraws : Advances sh w .verifying sh.owe .refusing
  | hasLease (h : sh.addressChannel ≠ none) : Advances sh w .leasing sh .dispatching
  | acquires (h : sh.addressChannel = none) : Advances sh w .leasing sh.acquire (.leased sh.leases.length)
  | noRoute : Advances sh w .leasing sh .ended
  | keepsLease {l : Nat} (h : sh.publishes) :
    Advances sh w (.leased l) { sh with addressChannel := some l } .dispatching
  | givesBack {l : Nat} : Advances sh w (.leased l) (sh.giveBack l) .ended
  | opens : Advances sh w .dispatching sh.openCall (.opened sh.calls.length)
  | dispatchFails : Advances sh w .dispatching sh.owe .refusing
  | publishes {c : Nat} (h : sh.publishes) :
    Advances sh w (.opened c) ({ sh with call := some c }.use w).1 .inCall
  | callbackFails {c : Nat} (h : sh.publishes) :
    Advances sh w (.opened c) { sh with call := some c }.owe .refusing
  | cancelsCall {c : Nat} : Advances sh w (.opened c) (sh.cancelCall c).owe .refusing
  | fails :
    Advances sh w .refusing { sh with startError := true }.release .ended
  | completes {b : Bool} :
    Advances sh w .inCall { sh with nativeTerminal := b }.owe (.releasing false)
  | shields : Advances sh w .inCall sh .inCall
  | returns : Advances sh w .inCall sh .ended
  | stops : Advances sh w .inCall sh .aborting
  | aborts {b : Bool} : Advances sh w .aborting sh.abort (.releasing b)
  | again : Advances sh w (.releasing true) sh.release (.releasing false)
  | releases {b : Bool} : Advances sh w (.releasing b) sh.release .ended
  | raises {b : Bool} (h : sh.call.isSome) : Advances sh w (.releasing b) sh.release .raised

theorem begin_advances (h : sh.begin w o = some (sh', p')) : Advances sh w .queued sh' p' := by
  cases w <;> cases o <;> simp only [begin, Option.some.injEq, Prod.mk.injEq, reduceCtorEq] at h <;>
    obtain ⟨rfl, rfl⟩ := h
  case next.ok =>
    split
    case isTrue hi => exact .resumes (by decide) hi
    case isFalse => exact .begins (by decide)
  case write.ok =>
    split
    · exact .begins (by decide)
    · exact .declines (by decide)
  case result.ok => exact .begins (by decide)
  case close.ok | cancelClose.ok | abort.ok => exact .closes
  all_goals exact .expires

theorem start_advances (h : sh.start w o = some (sh', p')) : Advances sh w .waiting sh' p' := by
  unfold start at h
  split at h
  case isTrue hc => cases h; exact .shares hc
  case isFalse hc =>
    have hn : sh.call = none := by simpa using hc
    split at h
    case isTrue he => cases h; exact .refuses (by simpa using he)
    case isFalse he =>
      have he : ¬sh.startError := fun hs => he (by simp [hs])
      cases o <;> cases h
      case ok => exact .skips hn he
      case suspends => exact .locks hn he
      case error => exact .setupFails

theorem await_advances (h : sh.await w o = some (sh', p')) : Advances sh w .inCall sh' p' := by
  cases w <;> cases o <;> simp only [await, Option.some.injEq, Prod.mk.injEq, reduceCtorEq] at h <;>
    obtain ⟨rfl, rfl⟩ := h
  case result.cancelled =>
    split
    · exact .shields
    · exact .stops
  case result.last => exact .completes
  case next.last => exact .completes (b := sh.nativeTerminal)
  case next.ok => exact .returns
  case write.ok => exact .returns
  all_goals exact .stops

theorem advance_advances (h : sh.advance w p o = some (sh', p')) : Advances sh w p sh' p' := by
  unfold advance at h
  split at h
  case h_1 => exact begin_advances h
  case h_2 =>
    dsimp only at h
    split at h
    case isTrue hc => cases h; exact .joins hc
    split at h
    case isTrue he => cases h; exact .rejoins he
    case isFalse => cases h; exact .enters
  case h_3 => cases h; exact .leaves
  case h_4 => exact start_advances h
  case h_5 | h_6 | h_7 => cases h; exact .waits
  case h_8 => cases h; exact .authenticates
  case h_9 | h_10 | h_11 => cases h; exact .authFails
  case h_12 =>
    split at h
    case isTrue => cases h; exact .withdraws
    case isFalse hc => cases h; exact .verifies hc
  case h_13 =>
    split at h
    case h_1 ha => cases h; exact .hasLease (by simp [ha])
    case h_2 ha => cases h; exact .acquires ha
    case h_3 => cases h; exact .noRoute
    case h_4 => cases h
  case h_14 =>
    split at h
    case isTrue hp => cases h; exact .keepsLease hp
    case isFalse => cases h; exact .givesBack
  case h_15 => cases h; exact .opens
  case h_16 => cases h; exact .dispatchFails
  case h_17 =>
    split at h
    case isTrue hp => cases h; exact .publishes hp
    case isFalse => cases h; exact .cancelsCall
  case h_18 =>
    split at h
    case isTrue hp => cases h; exact .callbackFails hp
    case isFalse => cases h; exact .cancelsCall
  case h_19 => cases h; exact .fails
  case h_20 => exact await_advances h
  case h_21 => cases h; exact .aborts
  case h_22 => cases h; exact .again
  case h_23 => cases h; exact .releases
  case h_24 =>
    split at h
    case isTrue hc => cases h; exact .raises (by simp_all)
    case isFalse => cases h
  case h_25 => cases h

def Settled (sh : StreamShared) : Prop :=
  sh.addressChannel = none ∨ sh.released

-- The lease of the stream counts as released once `_released` is set, every other one is given back.
def LeaseOk (sh : StreamShared) (l : Nat) (x : StreamLease) : Prop :=
  x.releases = if sh.addressChannel = some l then sh.released.toNat else 1

def Needs (sh : StreamShared) : Prop :=
  sh.isCancelled ∨ ∃ l x, sh.addressChannel = some l ∧ sh.leases[l]? = some x ∧ x.due

structure Keeps (sh sh' : StreamShared) : Prop where
  call : sh'.call = sh.call
  calls : sh'.calls = sh.calls
  iterator : sh'.iterator = sh.iterator
  startError : sh'.startError = sh.startError
  effective : sh'.effective = sh.effective
  addressChannel : sh'.addressChannel = sh.addressChannel
  released : sh.released → sh'.released
  others : ∀ {l}, sh.addressChannel ≠ some l → sh'.leases[l]? = sh.leases[l]?
  own : ∀ {l x'}, sh.addressChannel = some l → sh'.leases[l]? = some x' →
    ∃ x, sh.leases[l]? = some x ∧ (x.releases = sh.released.toNat → x'.releases = sh'.released.toNat)

namespace Keeps

theorem refl : Keeps sh sh :=
  ⟨rfl, rfl, rfl, rfl, rfl, rfl, id, fun _ => rfl, fun _ hx => ⟨_, hx, id⟩⟩

theorem trans {sh'' : StreamShared} (h : Keeps sh sh') (h' : Keeps sh' sh'') : Keeps sh sh'' where
  call := h'.call.trans h.call
  calls := h'.calls.trans h.calls
  iterator := h'.iterator.trans h.iterator
  startError := h'.startError.trans h.startError
  effective := h'.effective.trans h.effective
  addressChannel := h'.addressChannel.trans h.addressChannel
  released := h'.released ∘ h.released
  others ha := (h'.others (h.addressChannel ▸ ha)).trans (h.others ha)
  own ha hx := by
    obtain ⟨y, hy, hr'⟩ := h'.own (h.addressChannel ▸ ha) hx
    obtain ⟨z, hz, hr⟩ := h.own ha hy
    exact ⟨z, hz, hr' ∘ hr⟩

theorem settled (h : Keeps sh sh') (hs : sh.Settled) : sh'.Settled :=
  hs.imp h.addressChannel.trans h.released

theorem leaseOk {l : Nat} {x' : StreamLease} (h : Keeps sh sh') (hx : sh'.leases[l]? = some x') :
    ∃ x, sh.leases[l]? = some x ∧ (sh.addressChannel ≠ some l → x' = x) ∧ (sh.LeaseOk l x → sh'.LeaseOk l x') := by
  by_cases ha : sh.addressChannel = some l
  · obtain ⟨x, hx, hr⟩ := h.own ha hx
    exact ⟨x, hx, absurd ha, by simpa [LeaseOk, h.addressChannel, ha] using hr⟩
  · rw [h.others ha] at hx
    exact ⟨x', hx, fun _ => rfl, by simp [LeaseOk, h.addressChannel, ha]⟩

end Keeps

theorem keeps_flags {startEntered cancelEvent cancelRequested cancelled nativeTerminal : Bool} :
    Keeps sh { sh with startEntered, cancelEvent, cancelRequested, cancelled, nativeTerminal } :=
  ⟨rfl, rfl, rfl, rfl, rfl, rfl, id, fun _ => rfl, fun _ hx => ⟨_, hx, id⟩⟩

theorem keeps_modify {l : Nat} {r : Bool} {f : StreamLease → StreamLease} (ha : sh.addressChannel = some l)
    (hr : sh.released → r) (hf : ∀ {x}, x.releases = sh.released.toNat → (f x).releases = r.toNat) :
    Keeps sh { sh with released := r, leases := sh.leases.modify l f } := by
  refine ⟨rfl, rfl, rfl, rfl, rfl, rfl, hr, fun {l'} hl => ?_, fun {l' x'} hl hx => ?_⟩
  · exact List.getElem?_modify_ne _ _ fun (he : l = l') => hl (he ▸ ha)
  · cases ha.symm.trans hl
    obtain ⟨x, hx', ⟨_, rfl⟩ | ⟨hn, _⟩⟩ := List.getElem?_modify_cases hx
    · exact ⟨x, hx', hf⟩
    · exact absurd rfl hn

theorem keeps_owe : Keeps sh sh.owe := by
  unfold owe
  split
  case h_1 => exact .refl
  case h_2 ha => exact keeps_modify ha id id

theorem keeps_release : Keeps sh sh.release := by
  unfold release
  split
  case h_1 => exact .refl
  case h_2 ha =>
    split
    case isTrue => exact .refl
    case isFalse hr => exact keeps_modify ha (fun _ => rfl) fun hx => by simp [hx, hr]

theorem settled_release : sh.release.Settled := by
  unfold release
  split
  case h_1 ha => exact .inl ha
  case h_2 =>
    split
    case isTrue hr => exact .inr hr
    case isFalse => exact .inr rfl

@[simp]
theorem cancelled_owe : sh.owe.cancelled = sh.cancelled := by
  unfold owe
  split <;> rfl

@[simp]
theorem cancelled_release : sh.release.cancelled = sh.cancelled := by
  unfold release
  split
  case h_1 => rfl
  case h_2 => split <;> rfl

def Unstarted (sh : StreamShared) : Prop :=
  sh.call = none ∧ ¬sh.startError ∧ sh.calls = []

def PhaseOk (sh : StreamShared) : StreamPhase → Prop
  | .authenticating => sh.Unstarted
  | .gathering _ => sh.Unstarted
  | .verifying => sh.Unstarted
  | .leasing => sh.Unstarted ∧ ¬sh.effective
  | .leased l => sh.Unstarted ∧ ¬sh.effective ∧ sh.addressChannel = none ∧ sh.leases[l]? = some {}
  | .dispatching => sh.Unstarted ∧ ¬sh.effective ∧ sh.addressChannel ≠ none
  | .opened c => sh.call = none ∧ ¬sh.startError ∧ sh.addressChannel ≠ none ∧ c = 0 ∧ sh.calls.length = 1
  | .inCall => sh.call ≠ none
  | .raised => sh.released
  | _ => True

structure Ok (sh : StreamShared) : Prop where
  single : sh.calls.length ≤ 1
  timely : ∀ {k}, k ∈ sh.calls → k.late = false
  lease : sh.call ≠ none → sh.addressChannel ≠ none
  iterator : sh.iterator → sh.call ≠ none
  effective : sh.effective → sh.cancelled
  failed : sh.startError → sh.Settled

theorem Unstarted.keeps (h : Keeps sh sh') (hu : sh.Unstarted) : sh'.Unstarted := by
  simpa [Unstarted, h.call, h.startError, h.calls] using hu

theorem PhaseOk.keeps (h : Keeps sh sh') (hp : sh.PhaseOk p) : sh'.PhaseOk p := by
  cases p
  case authenticating | gathering | verifying => exact Unstarted.keeps h hp
  case leasing => exact ⟨hp.1.keeps h, h.effective ▸ hp.2⟩
  case leased l =>
    obtain ⟨hu, he, ha, hl⟩ := hp
    exact ⟨hu.keeps h, h.effective ▸ he, h.addressChannel.trans ha, (h.others (by simp [ha])).trans hl⟩
  case dispatching => exact ⟨hp.1.keeps h, h.effective ▸ hp.2.1, h.addressChannel ▸ hp.2.2⟩
  case opened c => simpa only [PhaseOk, h.call, h.startError, h.addressChannel, h.calls] using hp
  case inCall => simpa only [PhaseOk, h.call] using hp
  case raised => exact h.released hp
  all_goals trivial

theorem Ok.keeps (h : Keeps sh sh') (hc : sh.effective → sh'.cancelled) (ho : sh.Ok) : sh'.Ok where
  single := h.calls ▸ ho.single
  timely hk := ho.timely (h.calls ▸ hk)
  lease hc := h.addressChannel ▸ ho.lease (h.call ▸ hc)
  iterator hi := h.call ▸ ho.iterator (h.iterator ▸ hi)
  effective e := hc (h.effective ▸ e)
  failed hf := h.settled (ho.failed (h.startError ▸ hf))

theorem ok_use (h : sh.call.isSome) (ho : sh.Ok) : (sh.use w).1.Ok where
  __ := ho
  iterator _ := Option.isSome_iff_ne_none.mp h

namespace Advances

variable (h : Advances sh w p sh' p')
include h

theorem call_ne_none (hc : sh.call ≠ none) : sh'.call ≠ none := by
  cases h
  case publishes => simp [use]
  case callbackFails => simp [keeps_owe.call]
  case aborts => simpa [abort, keeps_owe.call] using hc
  case expires => simpa [expire, keeps_owe.call] using hc
  case cancelsCall => simpa [cancelCall, keeps_owe.call] using hc
  all_goals first | exact hc | simpa [keeps_owe.call, keeps_release.call] using hc

theorem startError (he : sh.startError) : sh'.startError := by
  cases h
  case fails => simp [keeps_release.startError]
  case aborts => simpa [abort, keeps_owe.startError] using he
  case expires => simpa [expire, keeps_owe.startError] using he
  case cancelsCall => simpa [cancelCall, keeps_owe.startError] using he
  all_goals first | exact he | simpa [keeps_owe.startError, keeps_release.startError] using he

theorem released (hr : sh.released) : sh'.released := by
  cases h
  all_goals first | exact hr | exact keeps_owe.released hr | exact keeps_release.released hr

theorem unstarted (hp : ¬p.holdsLock) (hp' : ¬p'.holdsLock) (hu : sh.Unstarted) : sh'.Unstarted := by
  cases h
  case aborts =>
    refine .keeps keeps_owe ?_
    simpa [Unstarted, hu.1] using hu
  case expires | rejoins | refuses | completes => exact .keeps keeps_owe hu
  case again | releases | raises => exact .keeps keeps_release hu
  all_goals first | exact hu | exact absurd rfl hp | exact absurd rfl hp'

theorem phase (ho : sh.Ok) (hp : sh.PhaseOk p)
    (hf : ¬p.holdsLock → p'.holdsLock → sh.call = none → ¬sh.startError → sh.calls = []) : sh'.PhaseOk p' := by
  cases h
  case resumes hi => exact ho.iterator hi
  case joins hc | shares hc => exact Option.isSome_iff_ne_none.mp hc
  case skips hc he | locks hc he => exact ⟨hc, he, hf (by decide) rfl hc he⟩
  case waits | authenticates | shields => exact hp
  case verifies hc => exact ⟨hp, fun he => hc (by simp [isCancelled, ho.effective he])⟩
  case hasLease ha => exact ⟨hp.1, hp.2, ha⟩
  case acquires ha => exact ⟨hp.1, hp.2, ha, by simp [acquire]⟩
  case keepsLease => exact ⟨hp.1, hp.2.1, by simp⟩
  case opens => exact ⟨hp.1.1, hp.1.2.1, hp.2.2, by simp [hp.1.2.2], by simp [openCall, hp.1.2.2]⟩
  case publishes => simp [PhaseOk, use]
  case raises hc =>
    refine settled_release.resolve_left ?_
    rw [keeps_release.addressChannel]
    exact ho.lease (Option.isSome_iff_ne_none.mp hc)
  all_goals trivial

theorem others (hr : ¬q.isRunning) (hl : q.holdsLock → ¬p.holdsLock ∧ ¬p'.holdsLock)
    (hq : sh.PhaseOk q) : sh'.PhaseOk q := by
  cases q
  case authenticating | gathering => exact h.unstarted (hl rfl).1 (hl rfl).2 hq
  case inCall => exact h.call_ne_none hq
  case raised => exact h.released hq
  all_goals trivial

theorem ok (ho : sh.Ok) (hp : sh.PhaseOk p) : sh'.Ok := by
  have howe {sh : StreamShared} (ho : sh.Ok) : sh.owe.Ok := ho.keeps keeps_owe (by simpa using ho.effective)
  have hrelease {sh : StreamShared} (ho : sh.Ok) : sh.release.Ok := ho.keeps keeps_release (by simpa using ho.effective)
  have hcancel (c : Nat) {k : NativeCall} (hk : k ∈ (sh.cancelCall c).calls) : k.late = false := by
    obtain ⟨n, hn⟩ := List.mem_iff_getElem?.mp hk
    obtain ⟨k', hk', ⟨_, rfl⟩ | ⟨_, rfl⟩⟩ := List.getElem?_modify_cases hn
    all_goals
      have := ho.timely (List.mem_of_getElem? hk')
      exact this
  cases h
  case expires => exact howe { ho with effective := fun _ => rfl }
  case enters => exact ho.keeps keeps_flags ho.effective
  case joins hc => exact ok_use hc (ho.keeps keeps_flags ho.effective)
  case rejoins => exact howe (ho.keeps keeps_flags ho.effective)
  case shares hc => exact ok_use hc ho
  case acquires | givesBack => exact { ho with }
  case keepsLease =>
    exact { ho with lease := by simp, failed := fun hf => absurd hf hp.1.2.1 }
  case opens =>
    have hk : sh.openCall.calls = [{ late := sh.effective }] := by simp [openCall, hp.1.2.2]
    have he : sh.effective = false := by simpa using hp.2.1
    exact { ho with single := by simp [hk], timely := by simp [hk, he] }
  case publishes c hpub =>
    exact ok_use rfl { ho with lease := fun _ => hp.2.2.1, iterator := by simp }
  case callbackFails c hpub =>
    exact howe { ho with lease := fun _ => hp.2.2.1, iterator := by simp }
  case cancelsCall c => exact howe { ho with single := by simpa [cancelCall] using ho.single, timely := hcancel c }
  case fails =>
    have hk : Keeps { sh with startError := true } _ := keeps_release
    exact {
      single := by simpa only [hk.calls] using ho.single
      timely := fun hm => ho.timely (by rwa [hk.calls] at hm)
      lease := by simpa only [hk.call, hk.addressChannel] using ho.lease
      iterator := by simpa only [hk.call, hk.iterator] using ho.iterator
      effective := by simpa only [hk.effective, cancelled_release] using ho.effective
      failed := fun _ => settled_release }
  case completes => exact howe (ho.keeps keeps_flags ho.effective)
  case aborts =>
    refine howe { ho with single := ?_, timely := ?_, effective := fun _ => rfl } <;> cases sh.call
    case refine_1.none => exact ho.single
    case refine_1.some => simpa using ho.single
    case refine_2.none => exact ho.timely
    case refine_2.some => exact hcancel _
  all_goals first | exact ho | exact howe ho | exact hrelease ho

theorem calls {c : Nat} {k' : NativeCall} (hp : sh.PhaseOk p) (hk : sh'.calls[c]? = some k') :
    sh'.call = some c ∨ k'.cancelled ∨ p' = .opened c ∨
      ∃ k, sh.calls[c]? = some k ∧ p ≠ .opened c ∧ (sh.call = some c → sh'.call = some c) ∧
        (k.cancelled → k'.cancelled) := by
  cases h
  case opens =>
    rcases List.getElem?_concat_cases hk with hk | ⟨rfl, _⟩
    · exact .inr (.inr (.inr ⟨k', hk, by simp, id, id⟩))
    · exact .inr (.inr (.inl rfl))
  case publishes c' _ =>
    by_cases hc : c' = c
    · exact .inl (congrArg some hc)
    · exact .inr (.inr (.inr ⟨k', hk, by simpa using hc, by simp [hp.1], id⟩))
  case callbackFails c' _ =>
    rw [keeps_owe.calls] at hk
    rw [keeps_owe.call]
    by_cases hc : c' = c
    · exact .inl (congrArg some hc)
    · exact .inr (.inr (.inr ⟨k', hk, by simpa using hc, by simp [hp.1], id⟩))
  case cancelsCall c' =>
    rw [keeps_owe.calls] at hk
    rw [keeps_owe.call]
    obtain ⟨k, hk, ⟨rfl, rfl⟩ | ⟨hc, rfl⟩⟩ := List.getElem?_modify_cases hk
    · exact .inr (.inl rfl)
    · exact .inr (.inr (.inr ⟨_, hk, by simpa using Ne.symm hc, id, id⟩))
  case aborts =>
    unfold abort at hk ⊢
    rw [keeps_owe.calls] at hk
    rw [keeps_owe.call]
    cases hc : sh.call
    case none =>
      rw [hc] at hk
      exact .inr (.inr (.inr ⟨k', hk, by simp, by simp, id⟩))
    rw [hc] at hk
    obtain ⟨k, hk, ⟨rfl, rfl⟩ | ⟨_, rfl⟩⟩ := List.getElem?_modify_cases hk
    · exact .inr (.inl rfl)
    · exact .inr (.inr (.inr ⟨_, hk, by simp, id, id⟩))
  all_goals
    try simp only [expire, keeps_owe.calls, keeps_release.calls] at hk
    exact .inr (.inr (.inr ⟨k', hk, by simp, by simp [expire, use, acquire, giveBack, keeps_owe.call,
      keeps_release.call], id⟩))

theorem leases {l : Nat} {x' : StreamLease} (hp : sh.PhaseOk p) (hx : sh'.leases[l]? = some x') :
    sh'.LeaseOk l x' ∨ x' = {} ∧ p' = .leased l ∨
      ∃ x, sh.leases[l]? = some x ∧ p ≠ .leased l ∧ (sh.LeaseOk l x → sh'.LeaseOk l x') := by
  cases h
  case acquires ha =>
    rcases List.getElem?_concat_cases hx with hx | ⟨rfl, rfl⟩
    · exact .inr (.inr ⟨x', hx, by simp, id⟩)
    · exact .inr (.inl ⟨rfl, rfl⟩)
  case keepsLease l' hpub =>
    by_cases hl : l = l'
    · subst hl
      cases hp.2.2.2.symm.trans hx
      have hr : sh.released = false := by simp_all [StreamShared.publishes]
      exact .inl (by simp [LeaseOk, hr])
    · exact .inr (.inr ⟨x', hx, by simpa using Ne.symm hl, by simp [LeaseOk, hp.2.2.1, Ne.symm hl]⟩)
  case givesBack l' =>
    obtain ⟨x, hx', ⟨rfl, rfl⟩ | ⟨hl, rfl⟩⟩ := List.getElem?_modify_cases hx
    · cases hp.2.2.2.symm.trans hx'
      exact .inl (by simp [LeaseOk, giveBack, hp.2.2.1])
    · exact .inr (.inr ⟨_, hx', by simpa using Ne.symm hl, id⟩)
  all_goals first
    | exact .inr (.inr ⟨x', hx, by simp, id⟩)
    | obtain ⟨x, hx, _, hr⟩ := keeps_owe.leaseOk hx
      exact .inr (.inr ⟨x, hx, by simp, hr⟩)
    | obtain ⟨x, hx, _, hr⟩ := keeps_release.leaseOk hx
      exact .inr (.inr ⟨x, hx, by simp, hr⟩)

theorem owes (hs : ¬sh'.Settled) (ho : StreamTask.owes ⟨w, p⟩) : StreamTask.owes ⟨w, p'⟩ := by
  cases h
  case fails | releases | raises => exact absurd settled_release hs
  case begins hw | resumes hw _ | declines hw => exact absurd ho hw
  all_goals first | rfl | cases ho

theorem needs (hk : sh.Ok) (hp : sh.PhaseOk p) (hs : ¬sh'.Settled) (hn : sh'.Needs) :
    StreamTask.owes ⟨w, p'⟩ ∨ sh.Needs ∧ ¬sh.Settled := by
  cases h
  case rejoins he => exact absurd ((keeps_flags.trans keeps_owe).settled (hk.failed he)) hs
  case refuses h =>
    have hs' : ¬sh.Settled := fun h => hs (keeps_owe.settled h)
    exact .inr ⟨.inl (h.resolve_left fun he => hs' (hk.failed he)), hs'⟩
  case acquires ha => exact absurd (.inl ha) hs
  case givesBack => exact absurd (.inl hp.2.2.1) hs
  case keepsLease hpub =>
    rcases hn with hc | ⟨l', x, ha, hx, hd⟩
    · simp_all [StreamShared.publishes, isCancelled]
    · cases ha
      cases hp.2.2.2.symm.trans hx
      cases hd
  all_goals first | exact .inl rfl | exact .inr ⟨hn, hs⟩ | exact absurd settled_release hs

theorem eq_waiting (hp : ¬p.holdsLock) (hp' : p'.holdsLock) : p = .waiting := by
  cases h <;> first | rfl | exact absurd rfl hp | cases hp'

theorem free (hp : sh.PhaseOk p) (hl : p.holdsLock) (hl' : ¬p'.holdsLock)
    (hc : sh'.call = none) (he : ¬sh'.startError) : sh'.calls = [] := by
  cases h
  case noRoute | givesBack => exact hp.1.2.2
  case publishes => cases hc
  case fails => simp [keeps_release.startError] at he
  all_goals first | exact absurd rfl hl' | cases hl

end Advances

end StreamShared

structure StreamCaller.Moves (sh : StreamShared) (c : StreamCaller) (sh' : StreamShared) (c' : StreamCaller)
    (ts : List StreamTask) : Prop where
  keeps : sh.Keeps sh'
  cancelled : sh.cancelled → sh'.cancelled
  queued : ∀ {t}, t ∈ ts → t.phase = .queued
  owes : ¬sh'.Settled → c.owes → c'.owes ∨ ∃ t ∈ ts, t.owes
  needs : ¬sh'.Settled → sh'.Needs → c'.owes ∨ sh.Needs

theorem StreamCaller.advance_moves {sh sh' : StreamShared} {c c' : StreamCaller} {ts : List StreamTask} {b : Bool}
    (h : c.advance sh b = some (sh', c', ts)) : Moves sh c sh' c' ts := by
  have hrelease (c') : Moves sh c sh.release c' [] :=
    ⟨StreamShared.keeps_release, by simp, by simp, absurd StreamShared.settled_release,
      absurd StreamShared.settled_release⟩
  unfold advance at h
  split at h
  case h_1 => cases h; exact ⟨.refl, id, by simp, by simp [StreamTask.owes, StreamWork.cancels], fun _ => .inr⟩
  case h_2 => cases h; exact ⟨.refl, id, by simp, fun _ _ => .inl rfl, fun _ => .inr⟩
  case h_3 => cases h; exact hrelease _
  case h_4 =>
    cases h
    refine ⟨StreamShared.keeps_flags, id, by simp, by simp [owes], fun _ hn => .inr (hn.imp_left fun hc => ?_)⟩
    simp_all [StreamShared.isCancelled]
  case h_5 =>
    split at h
    case isTrue => cases h; exact ⟨.refl, id, by simp, fun _ _ => .inl rfl, fun _ => .inr⟩
    split at h
    · cases h; exact ⟨StreamShared.keeps_flags, fun _ => rfl, by simp, fun _ _ => .inl rfl, fun _ _ => .inl rfl⟩
    · cases h; exact ⟨.refl, id, by simp, by simp [owes], fun _ => .inr⟩
  case h_6 => cases h; exact ⟨.refl, id, by simp, by simp [StreamTask.owes, StreamWork.cancels], fun _ => .inr⟩
  case h_7 => cases h; exact ⟨.refl, id, by simp, fun _ _ => .inl rfl, fun _ => .inr⟩
  case h_8 => cases h; exact hrelease _
  case h_9 => cases h

namespace StreamState

variable {s s' : StreamState} {i : Nat} {t : StreamTask} {o : StreamOutcome} {e : StreamEvent}

def Owed (s : StreamState) : Prop :=
  (∃ t ∈ s.tasks, t.owes) ∨ ∃ c ∈ s.callers, c.owes

structure Inv (s : StreamState) : Prop where
  shared : s.shared.Ok
  running : ∀ {i : Nat} {t : StreamTask}, s.tasks[i]? = some t → t.phase.isRunning → s.active = some i
  locked : ∀ {i : Nat} {t : StreamTask}, s.tasks[i]? = some t → t.phase.holdsLock → s.startLock = some i
  holder : ∀ {i : Nat}, s.startLock = some i → ∃ t : StreamTask, s.tasks[i]? = some t ∧ t.phase.holdsLock
  phases : ∀ {i : Nat} {t : StreamTask}, s.tasks[i]? = some t → s.shared.PhaseOk t.phase
  free : s.startLock = none → s.shared.call = none → ¬s.shared.startError → s.shared.calls = []
  calls : ∀ {c : Nat} {k : NativeCall}, s.shared.calls[c]? = some k →
    s.shared.call = some c ∨ k.cancelled ∨ ∃ (i : Nat) (t : StreamTask), s.tasks[i]? = some t ∧ t.phase = .opened c
  leases : ∀ {l : Nat} {x : StreamLease}, s.shared.leases[l]? = some x →
    s.shared.LeaseOk l x ∨ x = {} ∧ ∃ (i : Nat) (t : StreamTask), s.tasks[i]? = some t ∧ t.phase = .leased l
  owed : s.shared.Needs → ¬s.shared.Settled → s.Owed

theorem owes_set {t' : StreamTask} (ht : s.tasks[i]? = some t) (h : t.owes → t'.owes)
    (ho : ∃ u ∈ s.tasks, u.owes) : ∃ u ∈ s.tasks.set i t', u.owes :=
  (List.exists_mem_set ht (fun ho => .inl (h ho)) ho).resolve_right id

theorem startLock_of_mayRun {sh' : StreamShared} {p' : StreamPhase} (hm : s.mayRun i t o)
    (h : s.shared.advance t.work t.phase o = some (sh', p')) (hp : ¬t.phase.holdsLock) (hp' : p'.holdsLock) :
    s.startLock = none := by
  have hw := (StreamShared.advance_advances h).eq_waiting hp hp'
  simp only [mayRun, hw, Bool.and_eq_true, Bool.or_eq_true, decide_eq_true_eq] at hm
  rcases hm.2 with (hn | rfl) | hl
  case inl.inl => exact absurd rfl hn
  case inl.inr =>
    rw [hw] at h
    cases h
    cases hp'
  case inr => exact hl

namespace Inv

theorem run {sh' : StreamShared} {p' : StreamPhase} (hi : s.Inv) (ht : s.tasks[i]? = some t) (hm : s.mayRun i t o)
    (h : s.shared.advance t.work t.phase o = some (sh', p')) : (s.park i t sh' p').Inv := by
  have ha := StreamShared.advance_advances h
  have hfree := startLock_of_mayRun hm h
  have hactive : s.active = none ∨ s.active = some i := by
    simp only [mayRun, Bool.and_eq_true, Bool.or_eq_true, decide_eq_true_eq] at hm
    exact hm.1
  -- The other tasks are at their awaits, and none of them holds the lock that this one holds.
  have hrest {j : Nat} {u : StreamTask} (hj : s.tasks[j]? = some u) (hne : j ≠ i) : ¬u.phase.isRunning := by
    intro hr
    have := hi.running hj hr
    simp_all
  have hlock {j : Nat} {u : StreamTask} (hj : s.tasks[j]? = some u) (hne : j ≠ i) (hl : u.phase.holdsLock) :
      ¬t.phase.holdsLock ∧ ¬p'.holdsLock := by
    have hj := hi.locked hj hl
    have ht' : ¬t.phase.holdsLock := fun h => hne (Option.some.inj (hj.symm.trans (hi.locked ht h)))
    exact ⟨ht', fun h => by simp [hfree ht' h] at hj⟩
  have hthis {j : Nat} {u : StreamTask} (hj : s.tasks[j]? = some u) (hr : u.phase.isRunning) : u = t := by
    by_cases hij : j = i
    · subst hij; exact Option.some.inj (hj.symm.trans ht)
    · exact absurd hr (hrest hj hij)
  constructor
  case shared => exact ha.ok hi.shared (hi.phases ht)
  case running =>
    intro j u hj hr
    rcases List.getElem?_set_cases hj with ⟨rfl, rfl⟩ | ⟨hne, hj⟩
    · simp_all [park]
    · exact absurd hr (hrest hj hne)
  case locked =>
    intro j u hj hl
    rcases List.getElem?_set_cases hj with ⟨rfl, rfl⟩ | ⟨hne, hj⟩
    · simp_all [park]
    · have hp' := (hlock hj hne hl).2
      have hj := hi.locked hj hl
      simp [park, hp', hj, hne]
  case holder =>
    intro j hj
    simp only [park] at hj
    split at hj
    case isTrue hp' =>
      cases hj
      exact ⟨_, List.getElem?_set_of_some ht, hp'⟩
    case isFalse hp' =>
      split at hj
      case isTrue => cases hj
      case isFalse hne =>
        obtain ⟨u, hu, hl⟩ := hi.holder hj
        have hij : j ≠ i := fun h => hne (h ▸ hj)
        exact ⟨u, (List.getElem?_set_ne (Ne.symm hij)).trans hu, hl⟩
  case phases =>
    intro j u hj
    rcases List.getElem?_set_cases hj with ⟨rfl, rfl⟩ | ⟨hne, hj⟩
    · exact ha.phase hi.shared (hi.phases ht) (fun hp hp' => hi.free (hfree hp hp'))
    · exact ha.others (hrest hj hne) (hlock hj hne) (hi.phases hj)
  case free =>
    intro hn hc he
    have hp' : ¬p'.holdsLock := fun h => by simp [park, h] at hn
    by_cases hp : t.phase.holdsLock
    case pos => exact ha.free (hi.phases ht) hp hp' hc he
    have hne : s.startLock ≠ some i := by
      intro hl
      obtain ⟨u, hu, hh⟩ := hi.holder hl
      cases ht.symm.trans hu
      exact hp hh
    have hn : s.startLock = none := by simpa [park, hp', hne] using hn
    have hc : s.shared.call = none := by
      by_contra hc'
      exact ha.call_ne_none hc' hc
    have he : ¬s.shared.startError := fun h => he (ha.startError h)
    exact (ha.unstarted hp hp' ⟨hc, he, hi.free hn hc he⟩).2.2
  case calls =>
    intro c k hk
    rcases ha.calls (hi.phases ht) hk with hc | hc | hc | ⟨k', hk', hne, hcall, hcancel⟩
    · exact .inl hc
    · exact .inr (.inl hc)
    · exact .inr (.inr ⟨i, _, List.getElem?_set_of_some ht, hc⟩)
    · rcases hi.calls hk' with hc | hc | ⟨j, u, hj, hu⟩
      · exact .inl (hcall hc)
      · exact .inr (.inl (hcancel hc))
      · exact absurd (hthis hj (by rw [hu]; rfl) ▸ hu) hne
  case leases =>
    intro l x hx
    rcases ha.leases (hi.phases ht) hx with hl | ⟨rfl, hp'⟩ | ⟨x', hx', hne, hl⟩
    · exact .inl hl
    · exact .inr ⟨rfl, i, _, List.getElem?_set_of_some ht, hp'⟩
    · rcases hi.leases hx' with h | ⟨_, j, u, hj, hu⟩
      · exact .inl (hl h)
      · exact absurd (hthis hj (by rw [hu]; rfl) ▸ hu) hne
  case owed =>
    intro hn hs
    rcases ha.needs hi.shared (hi.phases ht) hs hn with ho | ⟨hn, hs'⟩
    · exact .inl ⟨_, List.mem_of_getElem? (List.getElem?_set_of_some ht), ho⟩
    · exact (hi.owed hn hs').imp_left (owes_set ht (ha.owes hs))

theorem off (hi : s.Inv) (hk : s.shared.Keeps s'.shared) (hc : s.shared.effective → s'.shared.cancelled)
    (ha : s'.active = s.active) (hl : s'.startLock = s.startLock)
    (hold : ∀ {j : Nat} {u : StreamTask}, s.tasks[j]? = some u → u.phase ≠ .queued → u.phase ≠ .raised →
      s'.tasks[j]? = some u)
    (hnew : ∀ {j : Nat} {u : StreamTask}, s'.tasks[j]? = some u →
      s.tasks[j]? = some u ∨ u.phase = .queued ∨ u.phase = .ended)
    (ho : s'.shared.Needs → ¬s'.shared.Settled → s'.Owed) : s'.Inv := by
  constructor
  case shared => exact hi.shared.keeps hk hc
  case running =>
    intro j u hj hr
    rcases hnew hj with hj | hq | hq
    case inl => exact ha.trans (hi.running hj hr)
    all_goals rw [hq] at hr; cases hr
  case locked =>
    intro j u hj hh
    rcases hnew hj with hj | hq | hq
    case inl => exact hl.trans (hi.locked hj hh)
    all_goals rw [hq] at hh; cases hh
  case holder =>
    intro j hj
    obtain ⟨u, hu, hh⟩ := hi.holder (hl ▸ hj)
    exact ⟨u, hold hu (fun h => by simp [h, StreamPhase.holdsLock] at hh)
      (fun h => by simp [h, StreamPhase.holdsLock] at hh), hh⟩
  case phases =>
    intro j u hj
    rcases hnew hj with hj | hq | hq
    case inl => exact (hi.phases hj).keeps hk
    all_goals rw [hq]; trivial
  case free =>
    intro hn hcall he
    rw [hk.calls]
    exact hi.free (hl ▸ hn) (hk.call ▸ hcall) (hk.startError ▸ he)
  case calls =>
    intro c k hc
    rw [hk.call]
    rcases hi.calls (hk.calls ▸ hc) with h | h | ⟨j, u, hj, hu⟩
    · exact .inl h
    · exact .inr (.inl h)
    · exact .inr (.inr ⟨j, u, hold hj (by simp [hu]) (by simp [hu]), hu⟩)
  case leases =>
    intro l x hx
    obtain ⟨x', hx', he, hx⟩ := hk.leaseOk hx
    rcases hi.leases hx' with h | ⟨rfl, j, u, hj, hu⟩
    · exact .inl (hx h)
    · have hp := hi.phases hj
      rw [hu] at hp
      exact .inr ⟨he (by simp [hp.2.2.1]), j, u, hold hj (by simp [hu]) (by simp [hu]), hu⟩
  case owed => exact ho

theorem submit {shared : StreamShared} {callers : List StreamCaller} {ts : List StreamTask} (hi : s.Inv)
    (hk : s.shared.Keeps shared) (hc : s.shared.effective → shared.cancelled)
    (hq : ∀ {t}, t ∈ ts → t.phase = .queued)
    (ho : shared.Needs → ¬shared.Settled → Owed { s with shared, callers, tasks := s.tasks ++ ts }) :
    Inv { s with shared, callers, tasks := s.tasks ++ ts } := by
  refine hi.off hk hc rfl rfl ?_ ?_ ho
  · intro j u hj _ _
    rwa [List.getElem?_append_left (List.lt_length_of_getElem? hj)]
  · intro j u hj
    rw [List.getElem?_append] at hj
    split at hj
    · exact .inl hj
    · exact .inr (.inl (hq (List.mem_of_getElem? hj)))

theorem callers {shared : StreamShared} {callers : List StreamCaller} (hi : s.Inv) (hk : s.shared.Keeps shared)
    (hc : s.shared.effective → shared.cancelled)
    (ho : shared.Needs → ¬shared.Settled → Owed { s with shared, callers }) : Inv { s with shared, callers } :=
  hi.off hk hc rfl rfl (fun hj _ _ => hj) .inl ho

theorem finish {shared : StreamShared} {callers : List StreamCaller} (hi : s.Inv) (ht : s.tasks[i]? = some t)
    (hp : t.phase = .queued ∨ t.phase = .raised) (hk : s.shared.Keeps shared)
    (hc : s.shared.effective → shared.cancelled)
    (ho : shared.Needs → ¬shared.Settled →
      Owed { s with tasks := s.tasks.set i { t with phase := .ended }, callers, shared }) :
    Inv { s with tasks := s.tasks.set i { t with phase := .ended }, callers, shared } := by
  refine hi.off hk hc rfl rfl ?_ ?_ ho
  · intro j u hj hq hr
    have hne : j ≠ i := by
      rintro rfl
      cases ht.symm.trans hj
      exact hp.elim hq hr
    exact (List.getElem?_set_ne (Ne.symm hne)).trans hj
  · intro j u hj
    rcases List.getElem?_set_cases hj with ⟨_, rfl⟩ | ⟨_, hj⟩
    · exact .inr (.inr rfl)
    · exact .inl hj

end Inv

-- Whether nothing is lost with a submission of `cancel`: the lease is released, or no cancellation has taken effect on
-- the SDK loop and no lease is waiting for its release.
def spares (s : StreamState) : Bool :=
  s.shared.released || !s.shared.effective && s.shared.leases.all fun x => !x.due || x.releases = 1

def keepsCancellation (s : StreamState) : StreamEvent → Bool
  | .observe i => s.spares || s.tasks[i]?.all (·.phase ≠ .queued)
  | _ => true

namespace Inv

theorem initial (shape : StreamShape) (override : Bool) : (StreamState.initial shape override).Inv := by
  have hn {j : Nat} {u : StreamTask} : (StreamState.initial shape override).tasks[j]? ≠ some u := nofun
  constructor
  case shared => exact ⟨Nat.zero_le _, nofun, absurd rfl, nofun, nofun, nofun⟩
  case running => exact fun h => absurd h hn
  case locked => exact fun h => absurd h hn
  case holder => exact nofun
  case phases => exact fun h => absurd h hn
  case free => exact fun _ _ _ => rfl
  case calls => exact nofun
  case leases =>
    intro l x hx
    cases override
    case false => cases hx
    case true =>
      cases l
      case zero => cases hx; exact .inl rfl
      case succ l => cases hx
  case owed =>
    rintro (hc | ⟨l, x, ha, hx, hd⟩) _
    · cases hc
    · cases override
      case false => cases ha
      case true => cases ha; cases hx; cases hd

theorem observe (hi : s.Inv) (ht : s.tasks[i]? = some t) (hp : t.phase = .queued ∨ t.phase = .raised)
    (hok : s.keepsCancellation (.observe i)) :
    Inv { s with tasks := s.tasks.set i { t with phase := .ended }, shared := s.shared.cancelSubmissionFailed } := by
  cases hr : s.shared.released
  case true =>
    have he : s.shared.cancelSubmissionFailed = s.shared := by simp [StreamShared.cancelSubmissionFailed, hr]
    rw [he]
    exact hi.finish ht hp .refl hi.shared.effective (fun _ hs => absurd (.inr hr) hs)
  case false =>
    have hq : t.phase = .queued := by
      refine hp.resolve_right fun h => ?_
      have := hi.phases ht
      rw [h] at this
      exact absurd (hr.symm.trans this) (by simp)
    simp only [keepsCancellation, spares, hr, ht, hq, Bool.false_or, Bool.or_eq_true, Bool.and_eq_true,
      Bool.not_eq_true', List.all_eq_true, decide_eq_true_eq, Option.all_some, decide_not, decide_true, Bool.not_true,
        Bool.false_eq_true, or_false] at hok
    obtain ⟨he, hd⟩ := hok
    have hf : s.shared.cancelSubmissionFailed = { s.shared with cancelRequested := false, cancelled := false } := by
      simp [StreamShared.cancelSubmissionFailed, hr]
    rw [hf]
    refine hi.finish ht hp StreamShared.keeps_flags (by simp [he]) ?_
    rintro (hc | ⟨l, x, ha, hx, hdue⟩) hs
    case inl => cases hc
    exfalso
    rcases hi.leases hx with hl | ⟨rfl, _⟩
    · have h1 := hd x (List.mem_of_getElem? hx)
      simp_all [StreamShared.LeaseOk]
    · cases hdue

theorem step (hi : s.Inv) (hok : s.keepsCancellation e) (h : s.step e = some s') : s'.Inv := by
  cases e <;> simp only [StreamState.step, Option.bind_eq_bind, Option.bind_eq_some_iff] at h
  case submit work =>
    split at h
    case isFalse => cases h
    cases h
    refine hi.submit .refl hi.shared.effective (by simp) fun hn hs => (hi.owed hn hs).imp_left ?_
    rintro ⟨u, hu, ho⟩
    exact ⟨u, List.mem_append_left _ hu, ho⟩
  case reject work =>
    split at h
    case isFalse => cases h
    cases h
    refine hi.callers .refl hi.shared.effective fun hn hs => (hi.owed hn hs).imp_right ?_
    rintro ⟨c, hc, ho⟩
    exact ⟨c, List.mem_append_left _ hc, ho⟩
  case drop i rejected =>
    obtain ⟨t, ht, h⟩ := h
    split at h
    case isFalse => cases h
    case isTrue hq =>
      cases h
      simp only [Bool.and_eq_true, decide_eq_true_eq] at hq
      refine hi.finish ht (.inl hq.1) .refl hi.shared.effective fun hn hs => ?_
      have hw : ¬t.owes := by
        obtain ⟨w, p⟩ := t
        cases w <;> simp_all [StreamTask.owes, StreamWork.cancels, accepts]
      refine (hi.owed hn hs).imp (owes_set ht fun ho => absurd ho hw) ?_
      rintro ⟨c, hc, ho⟩
      refine ⟨c, ?_, ho⟩
      split
      · exact List.mem_append_left _ hc
      · exact hc
  case observe i =>
    obtain ⟨t, ht, h⟩ := h
    split at h
    case isFalse => cases h
    case isTrue hq =>
      cases h
      simp only [Bool.and_eq_true, Bool.or_eq_true, decide_eq_true_eq] at hq
      exact hi.observe ht hq.2 hok
  case run i o =>
    obtain ⟨t, ht, h⟩ := h
    split at h
    case isFalse => cases h
    case isTrue hm =>
      obtain ⟨⟨sh', p'⟩, ha, h⟩ := Option.bind_eq_some_iff.mp h
      cases h
      exact hi.run ht hm ha
  case cancel =>
    split at h
    case isTrue => cases h
    cases h
    exact hi.callers StreamShared.keeps_flags hi.shared.effective
      fun _ _ => .inr ⟨.submitting, List.mem_append_right _ (List.mem_singleton_self _), rfl⟩
  case call k choice =>
    obtain ⟨c, hc, ⟨sh', c', ts⟩, ha, h⟩ := h
    cases h
    have hm := StreamCaller.advance_moves ha
    refine hi.submit hm.keeps (fun he => hm.cancelled (hi.shared.effective he)) hm.queued fun hn hs => ?_
    have hc' : c' ∈ s.callers.set k c' := List.mem_of_getElem? (List.getElem?_set_of_some hc)
    rcases hm.needs hs hn with ho | hn
    case inl => exact .inr ⟨c', hc', ho⟩
    rcases hi.owed hn (fun h => hs (hm.keeps.settled h)) with ⟨u, hu, ho⟩ | ho
    · exact .inl ⟨u, List.mem_append_left _ hu, ho⟩
    · refine (List.exists_mem_set hc (hm.owes hs) ho).symm.imp_left ?_
      rintro ⟨u, hu, ho⟩
      exact ⟨u, List.mem_append_right _ hu, ho⟩
  case nativeDone =>
    split at h
    case isFalse => cases h
    case isTrue => cases h; exact hi.callers StreamShared.keeps_flags hi.shared.effective hi.owed

end Inv

structure Lifecycle (s : StreamState) : Prop where
  single : s.shared.calls.length ≤ 1
  -- Between the opening of a call and its publication or cancellation there is no await.
  published : ∀ {c : Nat} {k : NativeCall}, s.shared.calls[c]? = some k → s.shared.call = some c ∨ k.cancelled ∨
    ∃ (i : Nat) (t : StreamTask), s.active = some i ∧ s.tasks[i]? = some t ∧ t.phase = .opened c
  timely : ∀ {k : NativeCall}, k ∈ s.shared.calls → k.late = false
  atMostOnce : ∀ {x : StreamLease}, x ∈ s.shared.leases → x.releases ≤ 1
  exactlyOnce : ∀ {x : StreamLease}, x ∈ s.shared.leases → x.due → ¬s.Owed → x.releases = 1

theorem Inv.toLifecycle (hi : s.Inv) : s.Lifecycle where
  single := hi.shared.single
  timely := hi.shared.timely
  published hk := by
    rcases hi.calls hk with h | h | ⟨i, t, ht, hp⟩
    · exact .inl h
    · exact .inr (.inl h)
    · exact .inr (.inr ⟨i, t, hi.running ht (by rw [hp]; rfl), ht, hp⟩)
  atMostOnce hx := by
    obtain ⟨l, hx⟩ := List.mem_iff_getElem?.mp hx
    rcases hi.leases hx with h | ⟨rfl, _⟩
    · rw [StreamShared.LeaseOk] at h
      split at h
      · exact h ▸ Bool.toNat_le _
      · exact h ▸ Nat.le_refl 1
    · exact Nat.zero_le 1
  exactlyOnce hx hd ho := by
    obtain ⟨l, hx⟩ := List.mem_iff_getElem?.mp hx
    rcases hi.leases hx with h | ⟨rfl, _⟩
    case inr => cases hd
    case inl =>
      rw [StreamShared.LeaseOk] at h
      split at h
      case isFalse => exact h
      case isTrue ha =>
        have hs : s.shared.Settled := by
          by_contra hs
          exact ho (hi.owed (.inr ⟨l, _, ha, hx, hd⟩) hs)
        rcases hs with hs | hs
        · cases hs.symm.trans ha
        · rw [h, hs]; rfl

theorem lifecycle {shape : StreamShape} {override : Bool}
    (h : Machine.Reaches step (fun s e => s.keepsCancellation e) (initial shape override) s) : s.Lifecycle :=
  (h.invariant (I := Inv) (fun hi hok he => hi.step hok he) (Inv.initial shape override)).toLifecycle

def duplex : StreamShape := ⟨true, true, false⟩

def cancelledStream : StreamState where
  shared :=
    { shape := duplex, leases := [⟨1, true⟩], calls := [⟨false, true⟩], addressChannel := some 0, call := some 0
      startEntered := true, cancelEvent := true, cancelRequested := true, cancelled := true, released := true
      effective := true }
  tasks := [⟨.write, .ended⟩, ⟨.cancelClose, .ended⟩]
  callers := [.returned]

theorem cancelledStream_lifecycle : cancelledStream.Lifecycle :=
  lifecycle (.of_restricted_run (show Machine.run _ (initial duplex true)
    ([.submit .write] ++ List.replicate 8 (.run 0 .ok) ++ [.cancel, .call 0 true] ++ List.replicate 3 (.run 1 .ok)) =
      some cancelledStream from by decide +kernel))

-- `aclose` takes effect before the stream has a lease, and the submission of a `cancel` is lost. A later `write`
-- opens a native call.
theorem aclose_undone :
    ∃ s, Machine.Reaches step Machine.anyEvent (initial duplex false) s ∧ ∃ k ∈ s.shared.calls, k.late := by
  refine ⟨_, .of_run (show Machine.run _ _ ([.submit .close, .cancel, .call 0 true] ++ List.replicate 3 (.run 0 .ok) ++
    [.observe 1, .submit .write] ++ List.replicate 7 (.run 2 .ok)) = _ from rfl), ?_⟩
  decide +kernel

end StreamState

end Aio
