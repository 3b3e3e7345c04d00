import PysdkModel.Aio.Theorems.Evolution

-- `cancel_submissions` waits for all tasks of the submissions that were admitted before the runtime began to
-- close. It relies on the order of the queue: the callback that creates a task comes before the first
-- `sleep(0)` ends, and the first step of that task before the second one ends.

namespace Aio

namespace AsyncRuntime

open Submission

variable {ρ : Type} {s t u : Submission ρ} {i j : Nat}

def ahead (q : List Job) : List Job :=
  q.takeWhile (· ≠ .closer)

variable {q : List Job}

theorem ahead_append {js : List Job} (h : .closer ∈ q) : ahead (q ++ js) = ahead q := by
  induction q
  case nil => cases h
  case cons j q ih =>
    by_cases hj : j = .closer
    · simp [ahead, hj]
    · rcases List.mem_cons.mp h with rfl | h
      · exact absurd rfl hj
      · simpa [ahead, hj] using ih h

theorem ahead_append_closer (h : .closer ∉ q) : ahead (q ++ [.closer]) = q := by
  induction q
  case nil => rfl
  case cons j q ih =>
    have hj : j ≠ .closer := fun e => h (e ▸ List.mem_cons_self)
    simpa [ahead, hj] using ih fun hq => h (List.mem_cons_of_mem j hq)

-- A queue from which nothing is lost but what satisfies `Spent`, and in which the next step of
-- `cancel_submissions` keeps its place.
structure Queue (Spent : Job → Prop) (q q' : List Job) : Prop where
  kept : ∀ j ∈ q, j ∈ q' ∨ Spent j
  ahead : .closer ∈ q → ∀ j ∈ ahead q, j ∈ ahead q' ∨ Spent j
  once : q'.count .closer = q.count .closer
  head : ∀ rest, q = .closer :: rest → ∃ rest', q' = .closer :: rest'

section

variable {Spent : Job → Prop} {q rest js : List Job} {j k : Job}

theorem mem_of_mem_rest (hq : q = k :: rest) (hj : j ∈ rest) : j ∈ q :=
  hq ▸ List.mem_cons_of_mem k hj

theorem mem_rest (hq : q = k :: rest) (hj : j ∈ q) (hne : j ≠ k) : j ∈ rest :=
  (List.mem_cons.mp (hq ▸ hj)).resolve_left hne

theorem Queue.enqueue (h : .closer ∉ js) : Queue Spent q (q ++ js) where
  kept j hj := .inl (List.mem_append_left _ hj)
  ahead hc j hj := .inl (by rwa [ahead_append hc])
  once := by rw [List.count_append, List.count_eq_zero.mpr h, Nat.add_zero]
  head rest hq := ⟨rest ++ js, by rw [hq]; rfl⟩

theorem Queue.refl : Queue Spent q q := by
  simpa using (Queue.enqueue List.not_mem_nil : Queue Spent q (q ++ []))

theorem Queue.pop (hj : j ≠ .closer) (hs : Spent j) (h : .closer ∉ js) : Queue Spent (j :: rest) (rest ++ js) where
  kept k hk := by
    rcases List.mem_cons.mp hk with rfl | hk
    · exact .inr hs
    · exact .inl (List.mem_append_left _ hk)
  ahead hc k hk := by
    have hc : .closer ∈ rest := (List.mem_cons.mp hc).resolve_left hj.symm
    rw [ahead_append hc]
    simp only [AsyncRuntime.ahead, List.takeWhile_cons, hj, ne_eq, not_false_eq_true, decide_true,
      if_true, List.mem_cons] at hk
    rcases hk with rfl | hk
    · exact .inr hs
    · exact .inl hk
  once := by
    rw [List.count_append, List.count_eq_zero.mpr h, Nat.add_zero, List.count_cons_of_ne hj]
  head rest' hq := by
    cases hq
    exact absurd rfl hj

theorem Queue.drop (hj : j ≠ .closer) (hs : Spent j) : Queue Spent (j :: rest) rest := by
  simpa using (Queue.pop hj hs List.not_mem_nil : Queue Spent (j :: rest) (rest ++ []))

end

def Job.Below (n : Nat) : Job → Prop
  | .dispatch i | .step i | .cancelOnce i | .copy i | .gathered i => i < n
  | .closer => True

def Closer.isQueued : Closer → Bool
  | .starting | .drained | .yielded | .cancelling _ | .yieldedAgain | .finished => true
  | _ => false

structure Entry.Ok (e : Entry ρ) : Prop where
  cancels : e.cancels ≤ 1
  asked : e.cancels = 1 → e.requested ∨ taskDone e.sub

variable {r r' : AsyncRuntime ρ}

structure Base (r : AsyncRuntime ρ) : Prop where
  sound : ∀ i < r.count, Sound (r.sub i)
  entry : ∀ i < r.count, (r.entries i).Ok
  tracked : ∀ i < r.count, (r.sub i).handle ≠ .absent
  lock : ∀ i < r.count, holdsLock (r.sub i) → r.admitting = some i
  dispatch : ∀ i < r.count, isDispatching (r.sub i) → .dispatch i ∈ r.ready
  steps : ∀ i < r.count, isReady (r.sub i) → .step i ∈ r.ready
  indexed : ∀ j ∈ r.ready, j.Below r.count
  gathered : ∀ i < r.count, .gathered i ∈ r.ready → taskDone (r.sub i)
  closing : r.accepting = false → r.admitting = none
  closed : r.closer ≠ .idle → r.accepting = false
  once : r.ready.count .closer = r.closer.isQueued.toNat

def Dispatched (r : AsyncRuntime ρ) : Prop :=
  ∀ i < r.count, isDispatching (r.sub i) = false

def Stepped (r : AsyncRuntime ρ) : Prop :=
  ∀ i < r.count, isReady (r.sub i) = false

def Handled (r : AsyncRuntime ρ) : Prop :=
  (∀ i < r.count, isPending (r.sub i).handle = false) ∧ ∀ b ∈ r.bridges, b ≠ none

def Settled (r : AsyncRuntime ρ) : Prop :=
  r.Dispatched ∧ r.Handled ∧ r.Stepped ∧ ∀ i < r.count, isActive (r.sub i) = false

def Progressed (r : AsyncRuntime ρ) : Prop :=
  match r.closer with
  | .idle | .starting | .draining _ | .drained => True
  | .yielded => ∀ i < r.count, isDispatching (r.sub i) → .dispatch i ∈ ahead r.ready
  | .cancelling is => r.Dispatched ∧ (∃ rest, r.ready = .closer :: rest) ∧
    (∀ i < r.count, isPending (r.sub i).handle → i ∈ is) ∧ (∀ i ∈ is, i < r.count) ∧
    ∀ b ∈ r.bridges, b ≠ none
  | .yieldedAgain => r.Dispatched ∧ r.Handled ∧ ∀ i < r.count, isReady (r.sub i) → .step i ∈ ahead r.ready
  | .finishing w => r.Dispatched ∧ r.Handled ∧ r.Stepped ∧ ∀ i < r.count, isActive (r.sub i) → i ∈ w
  | .finished | .returned => r.Settled

def Spent (r : AsyncRuntime ρ) : Job → Prop
  | .dispatch i => isDispatching (r.sub i) = false
  | .step i => isReady (r.sub i) = false
  | _ => True

structure Later (r r' : AsyncRuntime ρ) : Prop where
  count : r'.count = r.count
  closed : r.accepting = false → r'.accepting = false
  length : r'.bridges.length = r.bridges.length
  bridges : (∀ b ∈ r.bridges, b ≠ none) → ∀ b ∈ r'.bridges, b ≠ none
  evolves : ∀ i < r.count, Evolves (r.sub i) (r'.sub i)

section

variable {r'' : AsyncRuntime ρ}

theorem Later.refl : r.Later r :=
  ⟨rfl, id, rfl, id, fun _ _ => .refl⟩

theorem Later.trans (h : r.Later r') (h' : r'.Later r'') : r.Later r'' where
  count := h'.count.trans h.count
  closed := h'.closed ∘ h.closed
  length := h'.length.trans h.length
  bridges := h'.bridges ∘ h.bridges
  evolves i hi := (h.evolves i hi).trans (h'.evolves i (h.count ▸ hi))

end

section

variable (l : r.Later r')
include l

theorem Dispatched.later (h : r.Dispatched) : r'.Dispatched := by
  intro i hi
  rw [l.count] at hi
  exact Bool.eq_false_iff.mpr fun hd => by simpa [h i hi] using (l.evolves i hi).dispatch hd

theorem Handled.later (h : r.Handled) : r'.Handled := by
  refine ⟨fun i hi => ?_, l.bridges h.right⟩
  rw [l.count] at hi
  exact Bool.eq_false_iff.mpr fun hp => by simpa [h.left i hi] using (l.evolves i hi).handle hp

theorem Stepped.later (hd : r.Dispatched) (h : r.Stepped) : r'.Stepped := by
  intro i hi
  rw [l.count] at hi
  exact Bool.eq_false_iff.mpr fun hr => by simpa [h i hi, hd i hi] using (l.evolves i hi).fresh hr

theorem Later.active (hd : r.Dispatched) (h : r.Stepped) (hi : i < r.count) (ha : isActive (r'.sub i)) :
    isActive (r.sub i) := by
  simpa [h i hi, hd i hi] using (l.evolves i hi).active ha

theorem Settled.later (h : r.Settled) : r'.Settled := by
  obtain ⟨hd, hh, hs, ha⟩ := h
  refine ⟨hd.later l, hh.later l, hs.later l hd, fun i hi => ?_⟩
  rw [l.count] at hi
  exact Bool.eq_false_iff.mpr fun hact => by simpa [ha i hi] using l.active hd hs hi hact

end

structure Moves (r r' : AsyncRuntime ρ) : Prop where
  later : r.Later r'
  accepting : r'.accepting = r.accepting
  closer : r'.closer = r.closer
  closing : r.admitting = none → r'.admitting = none
  lock : ∀ i < r.count, holdsLock (r'.sub i) → r'.admitting = some i
  sound : ∀ i < r.count, Sound (r'.sub i)
  entry : ∀ i < r.count, (r'.entries i).Ok
  queue : Queue r'.Spent r.ready r'.ready
  steps : ∀ i < r.count, isReady (r'.sub i) → isReady (r.sub i) ∨ .step i ∈ r'.ready
  queued : ∀ j ∈ r'.ready, j ∈ r.ready ∨ (j.Below r.count ∧ ∀ i, j = .gathered i → taskDone (r'.sub i))

theorem Base.moves (h : r.Base) (m : r.Moves r') : r'.Base where
  sound i hi := m.sound i (m.later.count ▸ hi)
  entry i hi := m.entry i (m.later.count ▸ hi)
  tracked i hi := fun ha => h.tracked i (m.later.count ▸ hi) <| (m.later.evolves i (m.later.count ▸ hi)).tracked ha
  lock i hi := m.lock i (m.later.count ▸ hi)
  dispatch i hi hd := by
    rw [m.later.count] at hi
    have hj := h.dispatch i hi ((m.later.evolves i hi).dispatch hd)
    rcases m.queue.kept _ hj with hj | hj
    · exact hj
    · exact absurd hd (by simpa [Spent] using hj)
  steps i hi hr := by
    rw [m.later.count] at hi
    rcases m.steps i hi hr with hr' | hj
    · rcases m.queue.kept _ (h.steps i hi hr') with hj | hj
      · exact hj
      · exact absurd hr (by simpa [Spent] using hj)
    · exact hj
  indexed j hj := by
    rw [m.later.count]
    exact (m.queued j hj).elim (h.indexed j) And.left
  gathered i hi hj := by
    rw [m.later.count] at hi
    rcases m.queued _ hj with hj | hd
    · exact (m.later.evolves i hi).done (h.gathered i hi hj)
    · exact hd.right i rfl
  closing ha := m.closing (h.closing (m.accepting ▸ ha))
  closed hc := m.accepting ▸ h.closed (m.closer ▸ hc)
  once := by rw [m.queue.once, m.closer]; exact h.once

section

variable (m : r.Moves r')
include m

theorem Progressed.moves (hb : r.Base) (h : r.Progressed) : r'.Progressed := by
  unfold Progressed at h ⊢
  rw [m.closer]
  have hq (hc : r.closer.isQueued) : .closer ∈ r.ready := by
    refine List.count_pos_iff.mp ?_
    rw [hb.once, hc]
    decide
  cases hc : r.closer <;> simp only [hc] at h ⊢
  case yielded =>
    intro i hi hd
    rw [m.later.count] at hi
    have hj := h i hi ((m.later.evolves i hi).dispatch hd)
    rcases m.queue.ahead (hq (by simp [hc, Closer.isQueued])) _ hj with hj | hj
    · exact hj
    · exact absurd hd (by simpa [Spent] using hj)
  case cancelling is =>
    obtain ⟨hd, ⟨rest, hr⟩, hp, his, hbr⟩ := h
    refine ⟨hd.later m.later, m.queue.head rest hr, fun i hi hpend => ?_, m.later.count ▸ his, m.later.bridges hbr⟩
    rw [m.later.count] at hi
    exact hp i hi ((m.later.evolves i hi).handle hpend)
  case yieldedAgain =>
    obtain ⟨hd, hh, hs⟩ := h
    refine ⟨hd.later m.later, hh.later m.later, fun i hi hr => ?_⟩
    rw [m.later.count] at hi
    have hr' : isReady (r.sub i) := by simpa [hd i hi] using (m.later.evolves i hi).fresh hr
    rcases m.queue.ahead (hq (by simp [hc, Closer.isQueued])) _ (hs i hi hr') with hj | hj
    · exact hj
    · exact absurd hr (by simpa [Spent] using hj)
  case finishing w =>
    obtain ⟨hd, hh, hs, ha⟩ := h
    refine ⟨hd.later m.later, hh.later m.later, hs.later m.later hd, fun i hi hact => ?_⟩
    rw [m.later.count] at hi
    exact ha i hi (m.later.active hd hs hi hact)
  case finished | returned => exact Settled.later m.later h

end

namespace Entry.Ok

variable {e : Entry ρ}

theorem with_sub (h : e.Ok) (hd : taskDone e.sub → taskDone t) : Entry.Ok { e with sub := t } :=
  ⟨h.cancels, fun hc => (h.asked hc).imp id hd⟩

theorem cancelOnce (h : e.Ok) : e.cancelOnce.Ok := by
  unfold Entry.cancelOnce
  split
  case isTrue => exact h
  case isFalse hn =>
    have h₀ : e.cancels = 0 := by
      have h₁ := h.cancels
      by_contra h₀
      exact hn (by simpa [or_comm] using h.asked (by omega))
    exact ⟨by simp [h₀], fun _ => .inl rfl⟩

theorem sub_cancelOnce : (e.cancelOnce).sub = e.sub ∨ e.cancelOnce.sub = e.sub.cancelTask := by
  unfold Entry.cancelOnce
  split
  · exact .inl rfl
  · exact .inr rfl

theorem runner_cancelOnce : e.cancelOnce.sub.runner = e.sub.runner := by
  rcases sub_cancelOnce (e := e) with h | h <;> rw [h]
  exact cancelTask_frame.right.left

end Entry.Ok

variable {e : Entry ρ}

theorem Evolves.cancelOnce : Evolves e.sub e.cancelOnce.sub := by
  rcases Entry.Ok.sub_cancelOnce (e := e) with h | h <;> rw [h]
  · exact .refl
  · obtain ⟨hd, hr, hh, hl, hn⟩ := cancelTask_frame (s := e.sub)
    exact .of_frame (.inl hh) hd hr (by simp [holdsLock, hl]) hn

theorem sound_cancelOnce (h : Sound e.sub) : Sound e.cancelOnce.sub := by
  rcases Entry.Ok.sub_cancelOnce (e := e) with he | he <;> rw [he]
  · exact h
  · exact h.cancelTask

theorem sub_setEntry : (r.setEntry i e).sub j = if j = i then e.sub else r.sub j := by
  unfold sub setEntry
  by_cases h : j = i <;> simp [h]

variable {a : Submission.Event ρ}

theorem runner_of_byThread (ha : byThread a) (e : s.step a = some t) : t.runner = s.runner := by
  cases a <;> simp only [Submission.step, Option.ite_none_right_eq_some, Option.some.injEq] at e <;> cases ha
  case schedule b => rw [← e.right]; cases b <;> rfl
  case withdraw => rw [← e.right]
  case withdrawHandle => rw [← e.right]; exact runner_complete
  case disposeRejected => rw [← e.right]; rfl
  case cancelHandle => split at e <;> cases e; exact runner_complete
  case forward => rw [← e.right]; exact forwardCancellation_frame.right.left
  case forwardEffect => split at e <;> cases e <;> rfl

variable {c : Creation ρ}

section

variable (hb : r.Base)
include hb

theorem Moves.of_setEntry (hi : i < r.count) (hs : Sound e.sub) (ho : e.Ok)
    (hev : Evolves (r.sub i) e.sub)
    (hq : Queue (AsyncRuntime.Spent { r.setEntry i e with ready := q }) r.ready q)
    (hsteps : isReady e.sub → isReady (r.sub i) ∨ .step i ∈ q)
    (hn : ∀ j ∈ q, j ∈ r.ready ∨ (j.Below r.count ∧ ∀ k, j = .gathered k → k = i ∧ taskDone e.sub)) :
    r.Moves { r.setEntry i e with ready := q } := by
  have hsub j : AsyncRuntime.sub { r.setEntry i e with ready := q } j = if j = i then e.sub else r.sub j :=
    sub_setEntry
  refine ⟨⟨rfl, id, rfl, id, fun j hj => ?_⟩, rfl, rfl, id, fun j hj hl => ?_, fun j hj => ?_, fun j hj => ?_, hq,
    fun j hj hr => ?_, fun j hj => ?_⟩
  · rw [hsub]
    split
    case isTrue h => exact h ▸ hev
    case isFalse => exact .refl
  · rw [hsub] at hl
    split at hl
    case isTrue h => exact h ▸ hb.lock i hi (hev.lock hl)
    case isFalse => exact hb.lock j hj hl
  · rw [hsub]
    split
    · exact hs
    · exact hb.sound j hj
  · change (Function.update r.entries i e j).Ok
    rw [Function.update_apply]
    split
    · exact ho
    · exact hb.entry j hj
  · rw [hsub] at hr
    split at hr
    case isTrue h => exact h ▸ hsteps hr
    case isFalse => exact .inl hr
  · refine (hn j hj).imp id fun h => ⟨h.left, fun k hk => ?_⟩
    obtain ⟨hki, hd⟩ := h.right k hk
    rwa [hsub, if_pos hki]

theorem Moves.of_queue (hq : Queue r.Spent r.ready q)
    (hn : ∀ j ∈ q, j ∈ r.ready ∨ (j.Below r.count ∧ ∀ k, j ≠ .gathered k)) : r.Moves { r with ready := q } := by
  refine ⟨⟨rfl, id, rfl, id, fun _ _ => .refl⟩, rfl, rfl, id, hb.lock, hb.sound, hb.entry, hq, fun _ _ => .inl,
    fun j hj => ?_⟩
  exact (hn j hj).imp id fun h => ⟨h.left, fun k hk => absurd hk (h.right k)⟩

theorem Moves.of_step (hi : i < r.count) (e : (r.sub i).step a = some t) (ha : a ≠ .schedule true)
    (hq : Queue (AsyncRuntime.Spent { r.setSub i t with ready := q }) r.ready q)
    (hsteps : isReady t → isReady (r.sub i) ∨ .step i ∈ q)
    (hn : ∀ j ∈ q, j ∈ r.ready ∨ (j.Below r.count ∧ ∀ k, j ≠ .gathered k)) :
    r.Moves { r.setSub i t with ready := q } := by
  have hs := hb.sound i hi
  have hsub : (r.sub i).submitter ≠ .admitting := by
    intro h
    have := hs.submitter
    simp only [SubmitterOk, h] at this
    exact hb.tracked i hi this.left
  have hev := Evolves.step hs e ha hsub
  refine .of_setEntry hb hi (hs.step e) ((hb.entry i hi).with_sub hev.done) hev hq hsteps fun j hj => ?_
  exact (hn j hj).imp id fun h => ⟨h.left, fun k hk => absurd hk (h.right k)⟩

theorem Moves.threadStep (hi : i < r.count) (ha : byThread a) (hc : a ≠ .schedule true)
    (h : r.threadStep i a = some r') : r.Moves r' := by
  unfold AsyncRuntime.threadStep at h
  split at h <;> cases h
  case h_2 s e =>
    have hjobs j (hj : j ∈ threadJobs i (r.sub i) a) : j = .cancelOnce i := by
      unfold threadJobs at hj
      split at hj
      · exact absurd rfl hc
      · split at hj
        · exact List.mem_singleton.mp hj
        · cases hj
      · cases hj
    have m : r.Moves ((r.setSub i s).enqueue (threadJobs i (r.sub i) a)) := by
      refine .of_step hb hi e hc (.enqueue fun h => by cases hjobs _ h) ?_ fun j h => ?_
      · exact fun h => .inl (by simpa [isReady, runner_of_byThread ha e] using h)
      · refine (List.mem_append.mp h).imp id fun h => ?_
        cases hjobs j h
        exact ⟨hi, by simp⟩
    cases hr : releases a
    case false => exact m
    -- The thread has withdrawn its handle and leaves the section of the lock.
    obtain rfl : a = .withdrawHandle := by
      cases a
      case schedule b =>
        cases b
        · cases hr
        · exact absurd rfl hc
      case withdrawHandle => rfl
      all_goals cases hr
    simp only [Submission.step, Machine.guard_iff] at e
    have hadm := hb.lock i hi (by simp [holdsLock, e.left])
    have l := m.later
    refine { m with later := ⟨l.1, l.2, l.3, l.4, l.5⟩, closing := fun _ => rfl, lock := fun j hj hl => ?_ }
    have hji : j ≠ i := by
      rintro rfl
      change holdsLock ((r.setSub j s).sub j) at hl
      rw [setSub, sub_setEntry, if_pos rfl, ← e.right] at hl
      cases hl
    change holdsLock ((r.setSub i s).sub j) at hl
    rw [setSub, sub_setEntry, if_neg hji] at hl
    exact absurd (Option.some.inj ((hb.lock j hj hl).symm.trans hadm)) hji

omit hb in
theorem runner_of_copy (ha : a = .copy ∨ a = .copyDispose ∨ a = .publish)
    (e : s.step a = some t) : t.runner = s.runner := by
  rcases ha with rfl | rfl | rfl <;>
    simp only [Submission.step, Machine.guard_iff] at e
  · split at e <;> cases e
    unfold copyOutcome
    split <;> rfl
  · rw [← e.right]
    rfl
  · split at e <;> cases e
    exact runner_complete

omit hb in
theorem isDispatching_of_ended (h : dispatchEnded s) : isDispatching s = false := by
  unfold dispatchEnded at h
  unfold isDispatching
  cases hd : s.dispatch <;> simp_all

omit hb in
theorem taskDone_cancelOnce : taskDone e.cancelOnce.sub = taskDone e.sub := by
  rcases Entry.Ok.sub_cancelOnce (e := e) with h | h <;> rw [h]
  simp [taskDone, cancelTask_frame.right.left]

omit hb in
theorem ready_of_dispatchStep (e : s.dispatchStep c = some t) (hr : isReady t) :
    isReady s ∨ (s.dispatch = .creating ∧ t.runner = .ready) := by
  have ht : t.runner = .ready := by
    unfold isReady at hr
    split at hr
    · assumption
    · cases hr
  by_cases hc : s.dispatch = .creating
  case pos => exact .inr ⟨hc, ht⟩
  suffices h : t.runner = s.runner by exact .inl (by simpa [isReady, h] using hr)
  unfold Submission.dispatchStep at e
  split at e <;> cases e
  case h_1 => exact startOnLoop_frame.left
  case h_3 h => exact absurd h hc
  case h_4 => unfold startFailed; split <;> rfl
  case h_6 => exact runner_complete
  case h_7 =>
    unfold bindTask
    dsimp only
    split
    · exact cancelTask_frame.right.left
    · rfl
  all_goals rfl

variable {rest : List Job}

attribute [local simp] AsyncRuntime.Spent

theorem Moves.dispatchTurn (hq : r.ready = .dispatch i :: rest)
    (h : r.dispatchTurn i rest c = some r') : r.Moves r' := by
  have hi : i < r.count := hb.indexed (.dispatch i) (by simp [hq])
  unfold AsyncRuntime.dispatchTurn at h
  split at h <;> cases h
  case h_2 s e =>
    have hs := hb.sound i hi
    have hev := Evolves.dispatchStep hs e
    have hjobs j (hj : j ∈ dispatchJobs i (r.sub i) s) : j = .step i ∨ j = .copy i := by
      unfold dispatchJobs at hj
      split at hj
      · exact .inl (List.mem_singleton.mp hj)
      · exact .inr (List.mem_singleton.mp hj)
      · cases hj
    have hc : .closer ∉ dispatchJobs i (r.sub i) s := fun h => by simpa using hjobs _ h
    have hentry : Entry.Ok { dispatchEntry (r.entries i) with sub := s } := by
      unfold dispatchEntry
      split
      · split
        · exact (hb.entry i hi).cancelOnce.with_sub (by rw [taskDone_cancelOnce]; exact hev.done)
        · exact (hb.entry i hi).with_sub hev.done
      · exact (hb.entry i hi).with_sub hev.done
    refine .of_setEntry hb hi (hs.step e) hentry hev ?_ (fun hr => ?_) fun j hj => ?_
    · rw [hq]
      split
      case isTrue hend =>
        refine .pop (by simp) ?_ hc
        simpa [AsyncRuntime.sub, setEntry] using isDispatching_of_ended hend
      case isFalse => exact .enqueue hc
    · refine (ready_of_dispatchStep e hr).imp id fun h => ?_
      exact List.mem_append_right _ (by simp [dispatchJobs, h])
    · rcases List.mem_append.mp hj with hj | hj
      · left
        split at hj
        · exact mem_of_mem_rest hq hj
        · exact hq ▸ hj
      · rcases hjobs j hj with rfl | rfl <;> exact .inr ⟨hi, by simp⟩

theorem Moves.endTask (hq : r.ready = .step i :: rest) (hi : i < r.count)
    (hs : Sound s) (hev : Evolves (r.sub i) s) (hd : taskDone s) : r.Moves (r.endTask i rest s) := by
  have hr : isReady s = false := by
    unfold taskDone at hd
    unfold isReady
    cases h : s.runner <;> simp_all
  have hjobs j (hj : j ∈ r.callbacks i) : j = .copy i ∨ j = .gathered i := by
    unfold callbacks at hj
    split at hj
    · simpa using hj
    · exact .inl (List.mem_singleton.mp hj)
  have ho : Entry.Ok { r.entries i with sub := s, requested := (r.entries i).requested && !s.started } :=
    ⟨(hb.entry i hi).cancels, fun _ => .inr hd⟩
  refine .of_setEntry hb hi hs ho hev ?_ (by simp [hr]) fun j hj => ?_
  · rw [hq]
    refine .pop (by simp) ?_ fun h => by simpa using hjobs _ h
    simpa [AsyncRuntime.sub, setEntry] using hr
  · rcases List.mem_append.mp hj with hj | hj
    · exact .inl (mem_of_mem_rest hq hj)
    · rcases hjobs j hj with rfl | rfl
      · exact .inr ⟨hi, by simp⟩
      · exact .inr ⟨hi, fun k hk => by cases hk; exact ⟨rfl, hd⟩⟩

theorem Moves.stepTurn {e : Option (Ending ρ)} (hq : r.ready = .step i :: rest)
    (h : r.stepTurn i rest e = some r') : r.Moves r' := by
  have hi : i < r.count := hb.indexed (.step i) (by simp [hq])
  have hs := hb.sound i hi
  have hdrop {s : Submission ρ} (hsound : Sound s) (hev : Evolves (r.sub i) s) (hr : isReady s = false) :
      r.Moves { r.setSub i s with ready := rest } := by
    refine .of_setEntry hb hi hsound ((hb.entry i hi).with_sub hev.done) hev ?_ (by simp [hr])
      fun j hj => .inl (mem_of_mem_rest hq hj)
    rw [hq]
    exact .drop (by simp) (by simpa [AsyncRuntime.sub, setEntry] using hr)
  unfold AsyncRuntime.stepTurn at h
  cases hr : (r.sub i).runner <;> simp only [hr] at h
  case ready =>
    split at h <;> cases h
    case h_2 s e' =>
      have hsub : (r.sub i).firstStep e = s := by
        simp only [Submission.step] at e'
        split at e'
        · exact Option.some.inj e'
        · cases e'
      have hev : Evolves (r.sub i) s := hsub ▸ .firstStep hr
      split
      case isTrue hd => exact .endTask hb hq hi (hs.step e') hev hd
      case isFalse => exact hdrop (hs.step e') hev (hsub ▸ Evolves.isReady_firstStep)
  case suspended =>
    cases e
    case none =>
      cases h
      refine .of_queue hb ?_ fun j hj => .inl (mem_of_mem_rest hq hj)
      rw [hq]
      exact .drop (by simp) (by simp [isReady, hr])
    case some e =>
      obtain ⟨s, e', rfl⟩ := Option.map_eq_some_iff.mp h
      have hsub : { r.sub i with runner := .done e } = s := by
        simp only [Submission.step] at e'
        split at e'
        · exact Option.some.inj e'
        · cases e'
      have hev : Evolves (r.sub i) s := by
        rw [← hsub]
        exact ⟨id, id, id, by simp [isReady], by simp [isActive], by simp [taskDone], id, fun _ _ => rfl⟩
      exact .endTask hb hq hi (hs.step e') hev (by simp [← hsub, taskDone])
  all_goals cases h

theorem Moves.cancelOnceTurn (hq : r.ready = .cancelOnce i :: rest) : r.Moves (r.cancelOnceTurn i rest) := by
  have hi : i < r.count := hb.indexed (.cancelOnce i) (by simp [hq])
  have hev : Evolves (r.sub i) { (r.entries i).cancelOnce.sub with cancelScheduled := false } :=
    Evolves.cancelOnce.trans (.of_frame (.inl rfl) rfl rfl id rfl)
  have hs := sound_cancelOnce (hb.sound i hi)
  have hsound : Sound { (r.entries i).cancelOnce.sub with cancelScheduled := false } :=
    ⟨hs.1, hs.2, hs.3, hs.4, hs.5, hs.6, hs.7, hs.8, hs.9, hs.10, hs.11, hs.12, hs.13⟩
  have ho := (hb.entry i hi).cancelOnce
  refine .of_setEntry hb hi hsound ⟨ho.cancels, ho.asked⟩ hev ?_ (fun h => ?_) fun j hj => ?_
  · rw [hq]
    exact .drop (by simp) trivial
  · exact .inl (by simpa [isReady, Entry.Ok.runner_cancelOnce, AsyncRuntime.sub] using h)
  · exact .inl (mem_of_mem_rest hq hj)

theorem Moves.requestCancel (hi : i < r.count) : r.Moves (r.setEntry i (r.entries i).cancelOnce) := by
  refine .of_setEntry hb hi (sound_cancelOnce (hb.sound i hi)) (hb.entry i hi).cancelOnce .cancelOnce .refl
    (fun h => .inl ?_) fun j hj => .inl hj
  simpa [isReady, Entry.Ok.runner_cancelOnce, AsyncRuntime.sub] using h

theorem Moves.copyTurn (hq : r.ready = .copy i :: rest) (h : r.copyTurn i rest = some r') : r.Moves r' := by
  have hi : i < r.count := hb.indexed (.copy i) (by simp [hq])
  unfold AsyncRuntime.copyTurn at h
  cases hc : (r.sub i).copier <;> simp only [hc, Option.map_eq_some_iff] at h
  case waiting =>
    obtain ⟨s, e, rfl⟩ := h
    refine .of_step hb hi e (by simp) .refl (fun h => .inl ?_) fun j hj => .inl hj
    simpa [isReady, runner_of_copy (.inl rfl) e] using h
  case disposing =>
    obtain ⟨s, e, rfl⟩ := h
    refine .of_step hb hi e (by simp) .refl (fun h => .inl ?_) fun j hj => .inl hj
    simpa [isReady, runner_of_copy (.inr (.inl rfl)) e] using h
  case publishing =>
    obtain ⟨s, e, rfl⟩ := h
    refine .of_step hb hi e (by simp) ?_ (fun h => .inl ?_) fun j hj => .inl ?_
    · rw [hq]
      exact .drop (by simp) trivial
    · simpa [isReady, runner_of_copy (.inr (.inr rfl)) e] using h
    · exact mem_of_mem_rest hq hj
  case finished => cases h

theorem Moves.wake (hi : i < r.count) : r.Moves (r.enqueue [.step i]) := by
  refine .of_queue hb (.enqueue (by simp)) fun j hj => (List.mem_append.mp hj).imp id fun hj => ?_
  rw [List.mem_singleton.mp hj]
  exact ⟨hi, by simp⟩

theorem Moves.completeBridge {e : Ending ρ} : r.Moves { r with bridges := r.bridges.set i (some e) } := by
  refine ⟨⟨rfl, id, by simp, fun h b hm => ?_, fun _ _ => .refl⟩, rfl, rfl, id, hb.lock, hb.sound, hb.entry, .refl,
    fun _ _ => .inl, fun _ => .inl⟩
  rcases List.mem_or_eq_of_mem_set hm with hm | rfl
  · exact h b hm
  · simp

omit hb in
theorem cancel_forward (hs : Sound s) (hp : s.handle = .pending) (hr : s.submitter = .returned) :
    let t := { s.complete .cancelled with cancelAccepted := true }.forwardCancellation
    Sound t ∧ Evolves s t ∧ t.runner = s.runner ∧ isPending t.handle = false := by
  have hc : s.complete .cancelled = { s with handle := .completed .cancelled, forwarder := .called } :=
    complete_of_pending hp
  have e₁ : s.step .cancelHandle = some { s.complete .cancelled with cancelAccepted := true } := by
    simp [Submission.step, hr, hp]
  have h₁ := hs.step e₁
  have e₂ : { s.complete .cancelled with cancelAccepted := true }.step .forward =
      some { s.complete .cancelled with cancelAccepted := true }.forwardCancellation := by
    simp [Submission.step, hc]
  obtain ⟨hd, hrun, hh, hl, -⟩ := forwardCancellation_frame (s := { s.complete .cancelled with cancelAccepted := true })
  refine ⟨h₁.step e₂, ?_, hrun.trans runner_complete, by rw [hh, hc]; rfl⟩
  refine (Evolves.step hs e₁ (by simp) (by simp [hr])).trans (.step h₁ e₂ (by simp) ?_)
  simp [hc, hr]

omit hb in
theorem forwardEffect_frame (hs : Sound s) (ha : s.submitter ≠ .admitting) (e : s.step .forwardEffect = some t) :
    Sound t ∧ Evolves s t ∧ t.runner = s.runner ∧ t.handle = s.handle := by
  refine ⟨hs.step e, .step hs e (by simp) ha, runner_of_byThread rfl e, ?_⟩
  simp only [Submission.step] at e
  split at e <;> cases e <;> rfl

theorem submitter_of_pending (hi : i < r.count) (hadm : r.admitting = none) (hp : (r.sub i).handle = .pending) :
    (r.sub i).submitter = .returned := by
  have hs := (hb.sound i hi).submitter
  have hl := hb.lock i hi
  cases h : (r.sub i).submitter <;> simp_all [SubmitterOk, holdsLock]

theorem Moves.cancelSubmitted (hi : i < r.count) (hadm : r.admitting = none) :
    r.Moves (r.cancelSubmitted i) ∧ isPending ((r.cancelSubmitted i).sub i).handle = false := by
  have hset {t : Submission ρ} (jobs : List Job) (hj : ∀ j ∈ jobs, j = .cancelOnce i) (hs : Sound t)
      (hev : Evolves (r.sub i) t) (hr : t.runner = (r.sub i).runner) (hp : isPending t.handle = false) :
      r.Moves ((r.setSub i t).enqueue jobs) ∧ isPending (((r.setSub i t).enqueue jobs).sub i).handle = false := by
    refine ⟨.of_setEntry hb hi hs ((hb.entry i hi).with_sub hev.done) hev
      (.enqueue fun h => by cases hj _ h) (fun h => .inl ?_) fun j h => ?_, ?_⟩
    · simpa [isReady, hr] using h
    · refine (List.mem_append.mp h).imp id fun h => ?_
      cases hj j h
      exact ⟨hi, by simp⟩
    · change isPending ((r.setEntry i _).sub i).handle = false
      rwa [sub_setEntry, if_pos rfl]
  unfold AsyncRuntime.cancelSubmitted
  split
  case isFalse hp =>
    exact ⟨.of_queue hb .refl fun _ => .inl, by simpa using hp⟩
  case isTrue hp =>
    have hp : (r.sub i).handle = .pending := by
      unfold isPending at hp
      split at hp
      · assumption
      · cases hp
    have hret := submitter_of_pending hb hi hadm hp
    obtain ⟨hs, hev, hr, hh⟩ := cancel_forward (hb.sound i hi) hp hret
    have hsub := (forwardCancellation_frame
      (s := { (r.sub i).complete .cancelled with cancelAccepted := true })).right.right.right.left
    dsimp only
    generalize { (r.sub i).complete .cancelled with cancelAccepted := true }.forwardCancellation = t at *
    have hadm : t.submitter ≠ .admitting := by simp [hsub, submitter_complete, hret]
    have heffect {u : Submission ρ} (e : t.step .forwardEffect = some u) : Sound u ∧ Evolves (r.sub i) u ∧
        u.runner = (r.sub i).runner ∧ isPending u.handle = false := by
      obtain ⟨hs', hev', hr', hh'⟩ := forwardEffect_frame hs hadm e
      exact ⟨hs', hev.trans hev', hr'.trans hr, hh' ▸ hh⟩
    split
    case h_1 hf =>
      have e : t.step .forwardEffect = some { t.dispose with forwarder := .finished } := by
        simp [Submission.step, hf]
      obtain ⟨hs, hev, hr, hh⟩ := heffect e
      simpa [AsyncRuntime.enqueue] using hset [] (by simp) hs hev hr hh
    case h_2 hf =>
      have e : t.step .forwardEffect = some { t with cancelScheduled := true, forwarder := .finished } := by
        simp [Submission.step, hf]
      obtain ⟨hs, hev, hr, hh⟩ := heffect e
      exact hset _ (by simp) hs hev hr hh
    case h_3 => simpa [AsyncRuntime.enqueue] using hset [] (by simp) hs hev hr hh

theorem Moves.cancelActive : r.Moves r.cancelActive := by
  have hsub i : r.cancelActive.sub i = if i ∈ r.active then (r.entries i).cancelOnce.sub else r.sub i := by
    unfold sub AsyncRuntime.cancelActive
    dsimp only
    split <;> rfl
  have hev i : Evolves (r.sub i) (r.cancelActive.sub i) := by
    rw [hsub]
    split
    · exact .cancelOnce
    · exact .refl
  refine ⟨⟨rfl, id, rfl, id, fun i _ => hev i⟩, rfl, rfl, id, fun i hi hl => hb.lock i hi ((hev i).lock hl),
    fun i hi => ?_, fun i hi => ?_, .refl, fun i hi hr => .inl ?_, fun _ => .inl⟩
  · rw [hsub]
    split
    · exact sound_cancelOnce (hb.sound i hi)
    · exact hb.sound i hi
  · unfold AsyncRuntime.cancelActive
    dsimp only
    split
    · exact (hb.entry i hi).cancelOnce
    · exact hb.entry i hi
  · rw [hsub] at hr
    split at hr
    · simpa [isReady, Entry.Ok.runner_cancelOnce, AsyncRuntime.sub] using hr
    · exact hr

theorem Base.with_closer {c : Closer} {bs : List (Option (Ending ρ))} (hc : r.accepting = false)
    (hd : ∀ i, .dispatch i ∈ r.ready → .dispatch i ∈ q) (hs : ∀ i, .step i ∈ r.ready → .step i ∈ q)
    (hq : ∀ j ∈ q, j ∈ r.ready ∨ j = .closer) (ho : q.count .closer = c.isQueued.toNat) :
    Base { r with ready := q, closer := c, bridges := bs } where
  sound := hb.sound
  entry := hb.entry
  tracked := hb.tracked
  lock := hb.lock
  dispatch i hi h := hd i (hb.dispatch i hi h)
  steps i hi h := hs i (hb.steps i hi h)
  indexed j hj := by
    rcases hq j hj with hj | rfl
    · exact hb.indexed j hj
    · trivial
  gathered i hi hj := hb.gathered i hi ((hq _ hj).resolve_right (by simp))
  closing := hb.closing
  closed _ := hc
  once := ho

theorem Base.append_closer {c : Closer} (ha : r.accepting = false) (hr : ∀ j ∈ r.ready, (∀ i, j ≠ .gathered i) →
    j ≠ .closer → j ∈ q) (hm : ∀ j ∈ q, j ∈ r.ready) (hn : .closer ∉ q) (hc : c.isQueued) :
    Base { r with ready := q ++ [.closer], closer := c } := by
  refine .with_closer hb ha (fun j hj => ?_) (fun j hj => ?_) (fun j hj => ?_) ?_
  · exact List.mem_append_left _ (hr _ hj (by simp) (by simp))
  · exact List.mem_append_left _ (hr _ hj (by simp) (by simp))
  · exact (List.mem_append.mp hj).imp (hm j) List.mem_singleton.mp
  · rw [List.count_append, List.count_eq_zero.mpr hn, hc]
    rfl

section

variable {rest : List Job} (hq : r.ready = .closer :: rest)
include hq

theorem Base.queued : r.closer.isQueued = true ∧ .closer ∉ rest := by
  have ho := hb.once
  rw [hq, List.count_cons_self] at ho
  cases hc : r.closer.isQueued <;> simp only [hc] at ho
  case false => simp at ho
  case true => exact ⟨rfl, List.count_eq_zero.mp (by simpa using ho)⟩

theorem Base.accepting_of_closer : r.accepting = false := by
  refine hb.closed fun hc => ?_
  simpa [hc, Closer.isQueued] using (hb.queued hq).left

theorem Base.sleep {c : Closer} (hc : c.isQueued) : Base { r with ready := rest ++ [.closer], closer := c } :=
  .append_closer hb (hb.accepting_of_closer hq) (fun _ hj _ => mem_rest hq hj) (fun _ => mem_of_mem_rest hq)
    (hb.queued hq).right hc

theorem Base.leave {c : Closer} (hc : c.isQueued = false) : Base { r with ready := rest, closer := c } := by
  obtain ⟨-, hn⟩ := hb.queued hq
  refine .with_closer hb (hb.accepting_of_closer hq) (fun j hj => ?_) (fun j hj => ?_) (fun j hj => ?_) ?_
  · exact mem_rest hq hj (by simp)
  · exact mem_rest hq hj (by simp)
  · exact .inl (mem_of_mem_rest hq hj)
  · rw [List.count_eq_zero.mpr hn, hc]
    rfl

end

end

namespace Later

variable {rest : List Job}

theorem gatheredTurn : r.Later (r.gatheredTurn i rest) := by
  unfold AsyncRuntime.gatheredTurn
  cases r.closer <;> dsimp only
  case draining | finishing => split <;> exact ⟨rfl, id, rfl, id, fun _ _ => .refl⟩
  all_goals exact ⟨rfl, id, rfl, id, fun _ _ => .refl⟩

theorem closerTurn (hb : r.Base) (e : r.closerTurn rest = some r') : r.Later r' := by
  unfold AsyncRuntime.closerTurn at e
  split at e
  case h_1 =>
    split at e <;> cases e
    · exact ⟨rfl, id, rfl, id, fun _ _ => .refl⟩
    · have h := (Moves.cancelActive hb).later
      exact ⟨h.1, h.2, h.3, h.4, h.5⟩
  case h_3 =>
    cases e
    refine ⟨rfl, id, by simp, fun _ b hm => ?_, fun _ _ => .refl⟩
    obtain ⟨b, -, rfl⟩ := List.mem_map.mp hm
    cases b <;> simp [cancelBridge]
  case h_5 => split at e <;> cases e <;> exact ⟨rfl, id, rfl, id, fun _ _ => .refl⟩
  case h_7 => cases e
  all_goals cases e; exact ⟨rfl, id, rfl, id, fun _ _ => .refl⟩

end Later

structure Inv (r : AsyncRuntime ρ) : Prop where
  base : r.Base
  progressed : r.Progressed

theorem Inv.initial : Inv (initial : AsyncRuntime ρ) := by
  refine ⟨⟨?_, ?_, ?_, ?_, ?_, ?_, ?_, ?_, ?_, ?_, rfl⟩, trivial⟩ <;> simp [AsyncRuntime.initial]

-- A step keeps the invariant. When nothing is admitted any more, the submissions that there are only go on.
structure Keeps (r r' : AsyncRuntime ρ) : Prop where
  inv : r'.Inv
  later : r.accepting = false → r.Later r'

namespace Inv

variable (h : r.Inv)
include h

theorem moves (m : r.Moves r') : r.Keeps r' :=
  ⟨⟨h.base.moves m, h.progressed.moves m h.base⟩, fun _ => m.later⟩

theorem idle (ha : r.accepting = true) : r.closer = .idle := by
  by_contra hc
  simp [h.base.closed hc] at ha

theorem submit (ha : r.accepting = true) (hadm : r.admitting = none) :
    Inv { r.setEntry r.count admitted with count := r.count + 1, admitting := some r.count } := by
  have hsub j : AsyncRuntime.sub { r.setEntry r.count admitted with
      count := r.count + 1, admitting := some r.count } j =
      if j = r.count then Submission.initial.accept true else r.sub j := sub_setEntry
  have hold {j} (hj : j < r.count + 1) (hn : j ≠ r.count) : j < r.count := by omega
  have hb := h.base
  refine ⟨⟨fun j hj => ?_, fun j hj => ?_, fun j hj => ?_, fun j hj hl => ?_, fun j hj hd => ?_, fun j hj hr => ?_,
    fun j hj => ?_, fun j hj hg => ?_, fun hf => ?_, hb.closed, hb.once⟩, ?_⟩
  · rw [hsub]
    split
    · exact initial_sound.accept rfl true
    · exact hb.sound j (hold hj ‹_›)
  · change (Function.update r.entries r.count admitted j).Ok
    rw [Function.update_apply]
    split
    · exact ⟨by simp [admitted], by simp [admitted]⟩
    · exact hb.entry j (hold hj ‹_›)
  · rw [hsub]
    split
    · simp [Submission.accept]
    · exact hb.tracked j (hold hj ‹_›)
  · rw [hsub] at hl
    split at hl
    case isTrue hn => rw [hn]
    case isFalse hn => simpa [hadm] using hb.lock j (hold hj hn) hl
  · rw [hsub] at hd
    split at hd
    case isTrue => cases hd
    case isFalse hn => exact hb.dispatch j (hold hj hn) hd
  · rw [hsub] at hr
    split at hr
    case isTrue => cases hr
    case isFalse hn => exact hb.steps j (hold hj hn) hr
  · have := hb.indexed j hj
    cases j <;> simp only [Job.Below] at this ⊢ <;> omega
  · have hj' : j < r.count := hb.indexed _ hg
    rw [hsub, if_neg (by omega)]
    exact hb.gathered j hj' hg
  · simp [setEntry, ha] at hf
  · unfold Progressed
    simp [setEntry, h.idle ha]

theorem schedule (hi : i < r.count) (hr : r.threadStep i (.schedule true) = some r') : r.Keeps r' := by
  have hb := h.base
  unfold AsyncRuntime.threadStep at hr
  split at hr <;> cases hr
  case h_2 s e =>
    have hs := (hb.sound i hi).step e
    simp only [Submission.step, Machine.guard_iff] at e
    -- A thread between its admission and this event holds `_shutdown_lock`.
    have hadm := hb.lock i hi (by simp [holdsLock, e.left])
    have ha : r.accepting = true := by
      by_contra ha
      simpa [hadm] using hb.closing (by simpa using ha)
    obtain ⟨hsubmitter, rfl⟩ := e
    have hsub j : AsyncRuntime.sub { (r.setSub i ((r.sub i).schedule true)).enqueue [.dispatch i] with
        admitting := none } j = if j = i then (r.sub i).schedule true else r.sub j := sub_setEntry
    have hframe j : ((if j = i then (r.sub i).schedule true else r.sub j).runner = (r.sub j).runner) ∧
        (if j = i then (r.sub i).schedule true else r.sub j).handle = (r.sub j).handle := by
      split
      case isTrue hj => rw [hj]; exact ⟨rfl, rfl⟩
      case isFalse => exact ⟨rfl, rfl⟩
    refine ⟨?_, fun hf => by simp [ha] at hf⟩
    change Inv { (r.setSub i ((r.sub i).schedule true)).enqueue [.dispatch i] with admitting := none }
    refine ⟨⟨fun j hj => ?_, fun j hj => ?_, fun j hj => ?_, fun j hj hl => ?_, fun j hj hd => ?_, fun j hj hr => ?_,
      fun j hj => ?_, fun j hj hg => ?_, fun _ => rfl, hb.closed, ?_⟩, ?_⟩
    · rw [hsub]
      split
      · exact hs
      · exact hb.sound j hj
    · change (Function.update r.entries i _ j).Ok
      rw [Function.update_apply]
      split
      · exact (hb.entry i hi).with_sub id
      · exact hb.entry j hj
    · rw [hsub, (hframe j).right]
      exact hb.tracked j hj
    · rw [hsub] at hl
      split at hl
      case isTrue => cases hl
      case isFalse hji => exact absurd (Option.some.inj ((hb.lock j hj hl).symm.trans hadm)) hji
    · rw [hsub] at hd
      split at hd
      case isTrue hji => exact List.mem_append_right _ (by simp [hji])
      case isFalse => exact List.mem_append_left _ (hb.dispatch j hj hd)
    · rw [hsub, isReady, (hframe j).left] at hr
      exact List.mem_append_left _ (hb.steps j hj hr)
    · rcases List.mem_append.mp hj with hj | hj
      · exact hb.indexed j hj
      · rw [List.mem_singleton.mp hj]
        exact hi
    · rw [hsub, taskDone, (hframe j).left]
      exact hb.gathered j hj ((List.mem_append.mp hg).resolve_right (by simp))
    · change (r.ready ++ [Job.dispatch i]).count .closer = _
      rw [List.count_append, hb.once]
      rfl
    · unfold Progressed
      simp [setSub, setEntry, AsyncRuntime.enqueue, h.idle ha]

theorem thread (hi : i < r.count) (ha : byThread a) (hr : r.threadStep i a = some r') : r.Keeps r' := by
  by_cases hs : a = .schedule true
  · exact h.schedule hi (hs ▸ hr)
  · exact h.moves (.threadStep h.base hi ha hs hr)

theorem beginClose (hadm : r.admitting = none) : Inv { r with accepting := false } := by
  have hb := h.base
  refine ⟨⟨hb.sound, hb.entry, hb.tracked, hb.lock, hb.dispatch, hb.steps, hb.indexed, hb.gathered,
    fun _ => hadm, fun _ => rfl, hb.once⟩, h.progressed⟩

theorem close (ha : r.accepting = false) (hc : r.closer = .idle ∨ r.closer = .returned) :
    Inv { r.enqueue [.closer] with closer := .starting } := by
  have hn : r.ready.count .closer = 0 := by rcases hc with hc | hc <;> rw [h.base.once, hc] <;> rfl
  exact ⟨.append_closer h.base ha (fun _ hj _ _ => hj) (fun _ => id) (List.count_eq_zero.mp hn) rfl, trivial⟩

section

variable {rest : List Job}

theorem gatheredTurn (hq : r.ready = .gathered i :: rest) : (r.gatheredTurn i rest).Inv := by
  have hb := h.base
  have hi : i < r.count := hb.indexed (.gathered i) (by simp [hq])
  have hdone : isActive (r.sub i) = false := by
    have hd := hb.gathered i hi (by simp [hq])
    unfold taskDone at hd
    unfold isActive
    cases hr : (r.sub i).runner <;> simp_all
  have ho : rest.count .closer = r.closer.isQueued.toNat := by
    rw [← hb.once, hq, List.count_cons_of_ne (by simp)]
  have hend {c : Closer} (ha : r.accepting = false) (hc : r.closer.isQueued = false) (hc' : c.isQueued) :
      Base { r with ready := rest ++ [.closer], closer := c } :=
    .append_closer hb ha (fun _ hj hne _ => mem_rest hq hj (hne i)) (fun _ => mem_of_mem_rest hq)
      (List.count_eq_zero.mp (by rw [ho, hc]; rfl)) hc'
  have hgo {c : Closer} (ha : r.accepting = false) (hc : c.isQueued = r.closer.isQueued) :
      Base { r with ready := rest, closer := c } := by
    refine .with_closer hb ha (fun j hj => mem_rest hq hj (by simp)) (fun j hj => mem_rest hq hj (by simp))
      (fun j hj => .inl (mem_of_mem_rest hq hj)) ?_
    rw [ho, hc]
  have hdrop : r.Moves { r with ready := rest } := by
    refine .of_queue hb ?_ fun j hj => .inl (mem_of_mem_rest hq hj)
    rw [hq]
    exact .drop (by simp) trivial
  unfold AsyncRuntime.gatheredTurn
  cases hc : r.closer <;> dsimp only
  case draining w =>
    have ha := hb.closed (by simp [hc])
    split
    · exact ⟨hend ha (by simp [hc, Closer.isQueued]) rfl, trivial⟩
    · exact ⟨hgo ha (by rw [hc]; rfl), trivial⟩
  case finishing w =>
    have ha := hb.closed (by simp [hc])
    have hp := h.progressed
    simp only [Progressed, hc] at hp
    obtain ⟨hd, hh, hs, hw⟩ := hp
    have hw' j (hj : j < r.count) (hact : isActive (r.sub j)) : j ∈ w.erase i := by
      refine (List.mem_erase_of_ne ?_).mpr (hw j hj hact)
      rintro rfl
      simp [hdone] at hact
    split
    case isTrue he =>
      refine ⟨hend ha (by simp [hc, Closer.isQueued]) rfl, hd, hh, hs, fun j hj => ?_⟩
      exact Bool.eq_false_iff.mpr fun hact => by simpa [he] using hw' j hj hact
    case isFalse => exact ⟨hgo ha (by rw [hc]; rfl), hd, hh, hs, hw'⟩
  all_goals exact hc ▸ (h.moves hdrop).inv

theorem closerTurn (hq : r.ready = .closer :: rest) (e : r.closerTurn rest = some r') : r'.Inv := by
  have hb := h.base
  obtain ⟨-, hn⟩ := hb.queued hq
  have hahead : ahead r.ready = [] := by simp [hq, ahead]
  have hsleep : Inv { r with ready := rest ++ [.closer], closer := .yielded } := by
    refine ⟨hb.sleep hq rfl, fun i hi hd => ?_⟩
    rw [ahead_append_closer hn]
    exact mem_rest hq (hb.dispatch i hi hd) (by simp)
  have hactive i (hi : i < r.count) (hact : isActive (r.sub i)) : i ∈ r.active :=
    List.mem_filter.mpr ⟨List.mem_range.mpr hi, hact⟩
  have hp := h.progressed
  unfold AsyncRuntime.closerTurn at e
  unfold Progressed at hp
  split at e
  case h_1 =>
    split at e <;> cases e
    · exact hsleep
    · exact ⟨(hb.moves (.cancelActive hb)).leave hq rfl, trivial⟩
  case h_2 =>
    cases e
    exact hsleep
  case h_3 hc =>
    -- Every callback that was queued before the first `sleep(0)` has run.
    simp only [hc, hahead] at hp
    cases e
    refine ⟨.with_closer hb (hb.accepting_of_closer hq) (fun _ => id) (fun _ => id) (fun _ => .inl) ?_,
      fun i hi => ?_, ⟨rest, hq⟩, fun i hi hpend => ?_, fun i hi => ?_, fun b hm => ?_⟩
    · rw [hb.once, hc]
      rfl
    · exact Bool.eq_false_iff.mpr fun hd => List.not_mem_nil (hp i hi hd)
    · exact List.mem_filter.mpr ⟨List.mem_range.mpr hi, hpend⟩
    · exact List.mem_range.mp (List.mem_filter.mp hi).left
    · obtain ⟨b', -, rfl⟩ := List.mem_map.mp hm
      cases b' <;> simp [cancelBridge]
  case h_4 hc =>
    simp only [hc] at hp
    obtain ⟨hd, -, hh, -, hbr⟩ := hp
    cases e
    refine ⟨hb.sleep hq rfl, hd, ⟨fun i hi => ?_, hbr⟩, fun i hi hr => ?_⟩
    · exact Bool.eq_false_iff.mpr fun hpend => List.not_mem_nil (hh i hi hpend)
    · rw [ahead_append_closer hn]
      exact mem_rest hq (hb.steps i hi hr) (by simp)
  case h_5 hc =>
    -- And every task that existed before the second one has made its first step.
    simp only [hc, hahead] at hp
    obtain ⟨hd, hh, hs⟩ := hp
    have hstepped : r.Stepped := fun i hi => Bool.eq_false_iff.mpr fun hr => List.not_mem_nil (hs i hi hr)
    split at e <;> cases e
    case isTrue ha =>
      refine ⟨hb.leave hq rfl, hd, hh, hstepped, fun i hi => ?_⟩
      exact Bool.eq_false_iff.mpr fun hact => by simpa [ha] using hactive i hi hact
    case isFalse => exact ⟨hb.leave hq rfl, hd, hh, hstepped, hactive⟩
  case h_6 hc =>
    simp only [hc] at hp
    cases e
    exact ⟨hb.leave hq rfl, hp⟩
  case h_7 => cases e

theorem cancelNext {is : List Nat} (hc : r.closer = .cancelling is) (hi : i ∈ is) :
    r.Keeps { r.cancelSubmitted i with closer := .cancelling (is.erase i) } := by
  have hb := h.base
  have hp := h.progressed
  simp only [Progressed, hc] at hp
  have hic := hp.right.right.right.left i hi
  have ha : r.accepting = false := hb.closed (by simp [hc])
  obtain ⟨m, hdone⟩ := Moves.cancelSubmitted hb hic (hb.closing ha)
  have h' := (h.moves m).inv
  have hc' : (r.cancelSubmitted i).closer = .cancelling is := m.closer.trans hc
  have hp' := h'.progressed
  simp only [Progressed, hc'] at hp'
  obtain ⟨hd, hhead, hpend, his, hbr⟩ := hp'
  have l := m.later
  refine ⟨⟨.with_closer h'.base (m.accepting.trans ha) (fun _ => id) (fun _ => id) (fun _ => .inl) ?_,
    hd, hhead, fun j hj hpj => ?_, fun j hj => his j (List.mem_of_mem_erase hj), hbr⟩,
    fun _ => ⟨l.1, l.2, l.3, l.4, l.5⟩⟩
  · rw [h'.base.once, hc']
    rfl
  · refine (List.mem_erase_of_ne ?_).mpr (hpend j hj hpj)
    rintro rfl
    exact Bool.eq_false_iff.mp hdone hpj

theorem turn {o : Option (Ending ρ)} (e : r.turn c o = some r') : r.Keeps r' := by
  have hb := h.base
  unfold AsyncRuntime.turn at e
  split at e
  case h_1 => cases e
  case h_2 hq => exact h.moves (.dispatchTurn hb hq e)
  case h_3 hq => exact h.moves (.stepTurn hb hq e)
  case h_4 hq =>
    cases e
    exact h.moves (.cancelOnceTurn hb hq)
  case h_5 hq => exact h.moves (.copyTurn hb hq e)
  case h_6 hq =>
    cases e
    exact ⟨h.gatheredTurn hq, fun _ => .gatheredTurn⟩
  case h_7 hq => exact ⟨h.closerTurn hq e, fun _ => .closerTurn hb e⟩

theorem bridge (ha : r.accepting = true) : Inv { r with bridges := r.bridges ++ [none] } := by
  have hb := h.base
  refine ⟨⟨hb.sound, hb.entry, hb.tracked, hb.lock, hb.dispatch, hb.steps, hb.indexed, hb.gathered, hb.closing,
    hb.closed, hb.once⟩, ?_⟩
  simp [Progressed, h.idle ha]

theorem step {a : Event ρ} (e : r.step a = some r') : r.Keeps r' := by
  have hb := h.base
  cases a <;> simp only [AsyncRuntime.step, Option.ite_none_right_eq_some, Option.some.injEq] at e
  case submit =>
    rw [← e.right]
    exact ⟨h.submit e.left.left e.left.right, by simp [e.left.left]⟩
  case bridge =>
    rw [← e.right]
    exact ⟨h.bridge e.left.left, by simp [e.left.left]⟩
  case thread => exact h.thread e.left.left e.left.right e.right
  case completeBridge =>
    split at e <;> cases e
    exact h.moves (.completeBridge hb)
  case requestCancel =>
    rw [← e.right]
    exact h.moves (.requestCancel hb e.left.left)
  case wake =>
    rw [← e.right]
    exact h.moves (.wake hb e.left.left)
  case beginClose =>
    rw [← e.right]
    exact ⟨h.beginClose e.left, fun _ => ⟨rfl, fun _ => rfl, rfl, id, fun _ _ => .refl⟩⟩
  case close =>
    rw [← e.right]
    exact ⟨h.close e.left.left e.left.right, fun _ => ⟨rfl, id, rfl, id, fun _ _ => .refl⟩⟩
  case turn => exact h.turn e
  case cancelNext =>
    split at e
    case h_1 hc =>
      simp only [Machine.guard_iff] at e
      rw [← e.right]
      exact h.cancelNext hc e.left
    case h_2 => cases e

end

end Inv

-- No task of a submission runs or is still to make its first step, and no `start_on_loop` will create one. All
-- handles are done.
structure Drained (r : AsyncRuntime ρ) : Prop where
  running : ∀ i < r.count, (r.sub i).runner ≠ .suspended
  stepped : ∀ i < r.count, (r.sub i).runner ≠ .ready
  started : ∀ i < r.count, isDispatching (r.sub i) = false
  handles : ∀ i < r.count, ∃ e, (r.sub i).handle = .completed e
  bridges : ∀ b ∈ r.bridges, ∃ e, b = some e

theorem Settled.drained (h : r.Settled) (hb : r.Base) : r.Drained where
  running i hi hr := by simpa [isActive, hr] using h.right.right.right i hi
  stepped i hi hr := by simpa [isReady, hr] using h.right.right.left i hi
  started := h.left
  handles i hi := by
    have hp := h.right.left.left i hi
    cases hh : (r.sub i).handle <;> simp only [hh, isPending, Bool.true_eq_false] at hp
    case absent => exact absurd hh (hb.tracked i hi)
    case completed e => exact ⟨e, rfl⟩
  bridges b hm := Option.ne_none_iff_exists'.mp (h.right.left.right b hm)

open Machine (Reaches anyEvent)

theorem reaches_inv (h : Reaches step anyEvent initial r) : r.Inv :=
  h.invariant (I := Inv) (fun hi _ e => (hi.step e).inv) .initial

theorem reaches_later (hi : r.Inv) (ha : r.accepting = false) (h : Reaches step anyEvent r r') :
    r'.Inv ∧ r.Later r' := by
  refine h.invariant (I := fun t => t.Inv ∧ r.Later t) (fun ht _ e => ?_) ⟨hi, .refl⟩
  have hk := ht.left.step e
  exact ⟨hk.inv, ht.right.trans (hk.later (ht.right.closed ha))⟩

-- Once `begin_close` has been called, nothing is admitted. When `cancel_submissions` returns, all submissions have
-- come to their end, and this stays so: none of them takes its awaitable to run it. At all times the runtime has
-- cancelled each task at most once.
theorem cancelSubmissions_drains (h : Reaches step anyEvent initial r) :
    (∀ i < r.count, (r.entries i).cancels ≤ 1) ∧
    (r.accepting = false → ∀ r', Reaches step anyEvent r r' →
      r'.count = r.count ∧ r'.bridges.length = r.bridges.length) ∧
    (r.closer = .returned → r.accepting = false ∧ r.Drained ∧ ∀ r', Reaches step anyEvent r r' →
      r'.Drained ∧ ∀ i < r.count, (r'.sub i).starts = (r.sub i).starts) := by
  have hi := reaches_inv h
  refine ⟨fun i hc => (hi.base.entry i hc).cancels, fun ha r' h' => ?_, fun hc => ?_⟩
  · have l := (reaches_later hi ha h').right
    exact ⟨l.count, l.length⟩
  · have ha := hi.base.closed (by simp [hc])
    have hs : r.Settled := by simpa [Progressed, hc] using hi.progressed
    refine ⟨ha, hs.drained hi.base, fun r' h' => ?_⟩
    obtain ⟨hi', l⟩ := reaches_later hi ha h'
    exact ⟨(hs.later l).drained hi'.base, fun i hc => (l.evolves i hc).quiet (hs.left i hc) (hs.right.right.left i hc)⟩

-- Four submissions when the runtime closes: the first runs, the first step of the second and `start_on_loop` of the
-- third are queued, and the handle of the last was cancelled. The third one starts too late for the first `gather`.
def closingEvents : List (Event Nat) :=
  let go n := List.replicate n (.turn .lazy none)
  let stop := .turn .lazy (some .cancelled)
  let submit i := [.submit, .thread i (.schedule true)]
  submit 0 ++ go 4 ++ submit 1 ++ go 3 ++ submit 2 ++ submit 3 ++ [.bridge, .thread 3 .cancelHandle] ++
    [.beginClose, .close] ++ go 8 ++ [.wake 0, .wake 1, stop, stop] ++ go 8 ++ [.cancelNext 2] ++ go 3 ++
    [.wake 2, stop] ++ go 4

theorem closingEvents_drained : ∃ r : AsyncRuntime Nat, Machine.run step initial closingEvents = some r ∧
    r.closer = .returned ∧ r.count = 4 ∧ r.Drained := by
  have h : ∃ r : AsyncRuntime Nat, Machine.run step initial closingEvents = some r ∧
      r.closer = .returned ∧ r.count = 4 := ⟨_, rfl, rfl, rfl⟩
  obtain ⟨r, hr, hc, hn⟩ := h
  exact ⟨r, hr, hc, hn, ((cancelSubmissions_drains (.of_run hr)).right.right hc).right.left⟩

end AsyncRuntime

end Aio
