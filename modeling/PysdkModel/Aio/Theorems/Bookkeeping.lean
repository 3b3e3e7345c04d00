import PysdkModel.Aio.Bookkeeping
import PysdkModel.Lib.Entries

namespace Aio

def SdkHandle.Tracked (x : SdkHandle) : Prop :=
  x.stage = .added ∨ x.discards = true ∧ x.future.isDone = false

def SdkHandle.Listed (x : SdkHandle) : Prop :=
  x.stage = .listed ∨ x.discardsBackground = true ∧ x.future.isDone = false

theorem SdkHandle.Tracked.registered {x : SdkHandle} (ht : x.Tracked) (h : x.stage ≠ .added) :
    x.discards = true ∧ x.future.isDone = false :=
  ht.resolve_left h

theorem SdkHandle.Listed.registered {x : SdkHandle} (hl : x.Listed) (h : x.stage ≠ .listed) :
    x.discardsBackground = true ∧ x.future.isDone = false :=
  hl.resolve_left h

theorem HandleFuture.not_isDone_of_isPending {f : HandleFuture} (h : f.isPending = true) : f.isDone = false := by
  cases f <;> simp_all [HandleFuture.isPending, HandleFuture.isDone]

def SdkTask.InRunner (x : SdkTask) : Prop :=
  x.runner = true ∧ x.phase = .running

def SdkTask.Protected (x : SdkTask) : Prop :=
  x.InRunner ∨ x.runner = false ∧ x.discards = true ∧ x.phase ≠ .settled

namespace Bookkeeping

variable {s s' : Bookkeeping} {e : BookEvent} {h t : Nat} {cancelled : Bool}

structure HandlesKept (s : Bookkeeping) : Prop where
  submissions : ∀ {h : Nat}, h ∈ s.submissions → ∃ x, s.handles[h]? = some x ∧ x.Tracked
  isProtected : s.protectedSubmissions ⊆ s.submissions
  returning : s.closeReturning ⊆ s.submissions
  background : ∀ {h : Nat}, h ∈ s.background → ∃ x, s.handles[h]? = some x ∧ x.Listed

structure TasksKept (s : Bookkeeping) : Prop where
  active : ∀ {t : Nat}, t ∈ s.activeTasks → ∃ x, s.tasks[t]? = some x ∧ x.InRunner
  mapped : ∀ {t : Nat}, (s.taskSubmissions.get? t).isSome = true → ∃ x, s.tasks[t]? = some x ∧ x.InRunner
  requested : ∀ {t : Nat}, t ∈ s.cancellationRequested → ∃ x, s.tasks[t]? = some x ∧ x.InRunner
  isProtected : ∀ {t : Nat}, t ∈ s.protectedTasks → ∃ x, s.tasks[t]? = some x ∧ x.Protected
  cancelling : s.protectedCancelling ⊆ s.protectedTasks

theorem withHandle_eq_some {p : SdkHandle → Bool} {f : SdkHandle → Bookkeeping} (e : s.withHandle h p f = some s') :
    ∃ x, s.handles[h]? = some x ∧ p x = true ∧ f x = s' := by
  unfold withHandle at e
  split at e
  case h_1 x hx =>
    obtain ⟨hp, e⟩ := Option.ite_none_right_eq_some.mp e
    exact ⟨x, hx, hp, Option.some.inj e⟩
  case h_2 => cases e

theorem withTask_eq_some {p : SdkTask → Bool} {f : SdkTask → Bookkeeping} (e : s.withTask t p f = some s') :
    ∃ x, s.tasks[t]? = some x ∧ p x = true ∧ f x = s' := by
  unfold withTask at e
  split at e
  case h_1 x hx =>
    obtain ⟨hp, e⟩ := Option.ite_none_right_eq_some.mp e
    exact ⟨x, hx, hp, Option.some.inj e⟩
  case h_2 => cases e

namespace HandlesKept

variable {x y : SdkHandle}

variable (hk : HandlesKept s)
include hk

theorem setHandle (hx : s.handles[h]? = some x) (hs : h ∈ s.submissions → y.Tracked)
    (hb : h ∈ s.background → y.Listed) : HandlesKept (s.setHandle h y) where
  __ := hk
  submissions := fun hm => List.exists_getElem?_set hx (hk.submissions hm) fun e => hs (e ▸ hm)
  background := fun hm => List.exists_getElem?_set hx (hk.background hm) fun e => hb (e ▸ hm)

theorem advance (hx : s.handles[h]? = some x) (hs : x.Tracked → y.Tracked)
    (hb : x.Listed → y.Listed) : HandlesKept (s.setHandle h y) :=
  hk.setHandle hx (fun hm => hs (List.of_exists_getElem? hx (hk.submissions hm)))
    fun hm => hb (List.of_exists_getElem? hx (hk.background hm))

theorem insertSubmission (hx : s.handles[h]? = some x) (ht : x.Tracked) :
    HandlesKept { s with submissions := insert h s.submissions } where
  __ := hk
  submissions := by
    intro i hi
    rcases Finset.mem_insert.mp hi with rfl | hi
    · exact ⟨x, hx, ht⟩
    · exact hk.submissions hi
  isProtected := hk.isProtected.trans (Finset.subset_insert _ _)
  returning := hk.returning.trans (Finset.subset_insert _ _)

theorem insertBackground (hx : s.handles[h]? = some x) (hl : x.Listed) :
    HandlesKept { s with background := insert h s.background } where
  __ := hk
  background := by
    intro i hi
    rcases Finset.mem_insert.mp hi with rfl | hi
    · exact ⟨x, hx, hl⟩
    · exact hk.background hi

theorem discardSubmission : HandlesKept (s.discardSubmission h) where
  __ := hk
  submissions := fun hm => hk.submissions (Finset.mem_of_mem_erase hm)
  isProtected := Finset.erase_subset_erase _ hk.isProtected
  returning := Finset.erase_subset_erase _ hk.returning

theorem discardBackground : HandlesKept (s.discardBackground h) where
  __ := hk
  background := fun hm => hk.background (Finset.mem_of_mem_erase hm)

theorem complete : HandlesKept (s.complete h cancelled) := by
  unfold Bookkeeping.complete
  split
  case h_2 => exact hk
  case h_1 x hx =>
    split
    case isFalse => exact hk
    case isTrue hf =>
      refine hk.advance hx (fun ht => ?_) (fun hl => ?_)
      · exact ht.imp_right fun ⟨hd, _⟩ => ⟨hd, rfl⟩
      · exact hl.imp_right fun ⟨hd, _⟩ => ⟨hd, rfl⟩

theorem runCallbacks (hx : s.handles[h]? = some x) : HandlesKept (s.runCallbacks h x) := by
  have hs : x.discards = false → h ∈ s.submissions → x.stage = .added := fun hd hm =>
    (List.of_exists_getElem? hx (hk.submissions hm)).resolve_right (by simp [hd])
  have hb : x.discardsBackground = false → h ∈ s.background → x.stage = .listed := fun hd hm =>
    (List.of_exists_getElem? hx (hk.background hm)).resolve_right (by simp [hd])
  cases hd : x.discards <;> cases hd' : x.discardsBackground <;>
    simp only [Bookkeeping.runCallbacks, hd, hd', Bool.false_eq_true, if_true, if_false]
  case false.false => exact hk.setHandle hx (fun hm => .inl (hs hd hm)) (fun hm => .inl (hb hd' hm))
  case false.true =>
    exact hk.discardBackground.setHandle hx (fun hm => .inl (hs hd hm)) (fun hm => absurd hm (Finset.notMem_erase _ _))
  case true.false =>
    exact hk.discardSubmission.setHandle hx (fun hm => absurd hm (Finset.notMem_erase _ _)) (fun hm => .inl (hb hd' hm))
  case true.true =>
    exact hk.discardSubmission.discardBackground.setHandle hx (fun hm => absurd hm (Finset.notMem_erase _ _))
      (fun hm => absurd hm (Finset.notMem_erase _ _))

theorem cancelTaskOnce : HandlesKept (s.cancelTaskOnce t) := by
  unfold Bookkeeping.cancelTaskOnce
  split
  case h_2 => exact hk
  case h_1 =>
    split
    · exact hk
    · exact { hk with }

theorem step (e' : s.step e = some s') : HandlesKept s' := by
  cases e <;> simp only [Bookkeeping.step] at e'
  all_goals try obtain ⟨x, hx, hp, rfl⟩ := withHandle_eq_some e'
  all_goals try obtain ⟨x, hx, hp, rfl⟩ := withTask_eq_some e'
  case accept bridged track background =>
    cases e'
    exact { hk with
      submissions := fun hm => List.exists_getElem?_concat (hk.submissions hm)
      background := fun hm => List.exists_getElem?_concat (hk.background hm) }
  case add h =>
    have hst : x.stage = .admitted := by simpa using hp
    have hk' := hk.advance (y := { x with stage := .added }) hx (fun _ => .inl rfl)
      fun hl => .inr (hl.registered (by simp [hst]))
    exact hk'.insertSubmission (List.getElem?_set_of_some hx) (.inl rfl)
  case register h =>
    have hst : x.stage = .added := by simpa using hp
    have hl : ∀ {d : Bool}, x.Listed → SdkHandle.Listed { x with stage := .tracked, discards := d } :=
      fun hl => .inr (hl.registered (by simp [hst]))
    split
    case isTrue hf =>
      exact hk.advance hx (fun _ => .inr ⟨rfl, HandleFuture.not_isDone_of_isPending hf⟩) hl
    case isFalse hf =>
      exact hk.discardSubmission.setHandle hx (fun hm => absurd hm (Finset.notMem_erase _ _))
        fun hm => hl (List.of_exists_getElem? hx (hk.background hm))
  case schedule h accepted =>
    have hst : x.stage = .tracked := by simpa using hp
    have hk' : ∀ {stage : SubmitStage} {start : StartStage},
        HandlesKept (s.setHandle h { x with stage := stage, start := start }) :=
      hk.advance hx (fun ht => .inr (ht.registered (by simp [hst]))) fun hl => .inr (hl.registered (by simp [hst]))
    split
    · exact hk'
    · exact HandlesKept.complete hk'
  case list h =>
    have hst : x.stage = .scheduled := by simpa using hp
    have hk' := hk.advance (y := { x with stage := .listed }) hx
      (fun ht => .inr (ht.registered (by simp [hst]))) fun _ => .inl rfl
    exact hk'.insertBackground (List.getElem?_set_of_some hx) (.inl rfl)
  case registerBackground h =>
    have hst : x.stage = .listed := by simpa using hp
    have ht : ∀ {d : Bool}, x.Tracked → SdkHandle.Tracked { x with stage := .returned, discardsBackground := d } :=
      fun ht => .inr (ht.registered (by simp [hst]))
    split
    case isTrue hf =>
      exact hk.advance hx ht fun _ => .inr ⟨rfl, HandleFuture.not_isDone_of_isPending hf⟩
    case isFalse hf =>
      exact hk.discardBackground.setHandle hx (fun hm => ht (List.of_exists_getElem? hx (hk.submissions hm)))
        fun hm => absurd hm (Finset.notMem_erase _ _)
  case cancelHandle | completeBridge =>
    exact hk.complete
  case callbacks h =>
    exact hk.runCallbacks hx
  case claim h =>
    exact hk.advance hx id id
  case createFails h =>
    refine HandlesKept.complete ?_
    exact hk.advance hx id id
  case bind h =>
    have hk' := hk.advance (y := { x with start := .finished }) hx id id
    split
    · exact HandlesKept.cancelTaskOnce { hk' with }
    · exact { hk' with }
  case spawn h =>
    cases e'
    exact { hk with }
  case interrupt | protectTask =>
    exact { hk with }
  case firstStep | finish | markCancelling =>
    split <;> exact { hk with }
  case settle t cancelled =>
    have hd : HandlesKept (if x.discards then
        (s.setTask t { x with phase := .settled }).discardProtectedTask t
      else s.setTask t { x with phase := .settled }) := by
      split <;> exact { hk with }
    split
    · exact hd.complete
    · exact hd
  case protectSubmission h =>
    cases e'
    split
    case isTrue hm =>
      exact ⟨hk.submissions, Finset.insert_subset hm hk.isProtected, hk.returning, hk.background⟩
    case isFalse => exact hk
  case markReturning h =>
    cases e'
    split
    case isTrue hm =>
      exact ⟨hk.submissions, hk.isProtected, Finset.insert_subset (hk.isProtected hm) hk.returning, hk.background⟩
    case isFalse => exact hk
  case cancelReturning t already =>
    unfold cancelReturningTask
    split
    case isTrue => exact hk
    split
    · exact hk
    · exact hk.cancelTaskOnce
  case cancelForwarded t =>
    exact hk.cancelTaskOnce
  case cancelActive t =>
    obtain ⟨_, e'⟩ := Option.ite_none_right_eq_some.mp e'
    cases e'
    exact hk.cancelTaskOnce

end HandlesKept

namespace TasksKept

variable {x y : SdkTask}

variable (hk : TasksKept s)
include hk

theorem setTask (hx : s.tasks[t]? = some x) (ha : t ∈ s.activeTasks → y.InRunner)
    (hm : (s.taskSubmissions.get? t).isSome = true → y.InRunner) (hr : t ∈ s.cancellationRequested → y.InRunner)
    (hp : t ∈ s.protectedTasks → y.Protected) : TasksKept (s.setTask t y) where
  __ := hk
  active := fun h => List.exists_getElem?_set hx (hk.active h) fun e => ha (e ▸ h)
  mapped := fun h => List.exists_getElem?_set hx (hk.mapped h) fun e => hm (e ▸ h)
  requested := fun h => List.exists_getElem?_set hx (hk.requested h) fun e => hr (e ▸ h)
  isProtected := fun h => List.exists_getElem?_set hx (hk.isProtected h) fun e => hp (e ▸ h)

theorem advance (hx : s.tasks[t]? = some x) (hr : x.InRunner → y.InRunner)
    (hp : x.Protected → y.Protected) : TasksKept (s.setTask t y) :=
  hk.setTask hx (fun h => hr (List.of_exists_getElem? hx (hk.active h)))
    (fun h => hr (List.of_exists_getElem? hx (hk.mapped h))) (fun h => hr (List.of_exists_getElem? hx (hk.requested h)))
    fun h => hp (List.of_exists_getElem? hx (hk.isProtected h))

theorem concat : TasksKept { s with tasks := s.tasks ++ [y] } :=
  { hk with
    active := fun h => List.exists_getElem?_concat (hk.active h)
    mapped := fun h => List.exists_getElem?_concat (hk.mapped h)
    requested := fun h => List.exists_getElem?_concat (hk.requested h)
    isProtected := fun h => List.exists_getElem?_concat (hk.isProtected h) }

theorem complete : TasksKept (s.complete h cancelled) := by
  unfold Bookkeeping.complete
  split
  case h_2 => exact hk
  case h_1 =>
    split
    case isFalse => exact hk
    case isTrue => exact { hk with }

theorem cancelTaskOnce (hr : ∀ {x}, s.tasks[t]? = some x → x.phase ≠ .ended → x.phase ≠ .settled → x.InRunner) :
    TasksKept (s.cancelTaskOnce t) := by
  unfold Bookkeeping.cancelTaskOnce
  split
  case h_2 => exact hk
  case h_1 x hx =>
    split
    case isTrue => exact hk
    case isFalse hn =>
      simp only [not_or] at hn
      have hin := hr hx hn.1 hn.2.1
      have hk' := hk.advance (y := { x with mustCancel := x.mustCancel || x.phase = .created }) hx id id
      exact { hk' with
        requested := by
          intro i hi
          rcases Finset.mem_insert.mp hi with rfl | hi
          · exact ⟨_, List.getElem?_set_of_some hx, hin⟩
          · exact hk'.requested hi }

theorem discardProtectedTask : TasksKept (s.discardProtectedTask t) where
  __ := hk
  isProtected := fun h => hk.isProtected (Finset.mem_of_mem_erase h)
  cancelling := Finset.erase_subset_erase _ hk.cancelling

theorem enterRunner (hx : s.tasks[t]? = some x) (hr : x.runner = true) : TasksKept (s.enterRunner t x) := by
  have hin : SdkTask.InRunner { x with phase := .running } := ⟨hr, rfl⟩
  have hk' := hk.setTask (y := { x with phase := .running }) hx (fun _ => hin) (fun _ => hin) (fun _ => hin)
    fun _ => .inl hin
  have new : ∀ {P : SdkTask → Prop}, P { x with phase := .running } →
      ∃ z, (s.setTask t { x with phase := .running }).tasks[t]? = some z ∧ P z :=
    fun hp => ⟨_, List.getElem?_set_of_some hx, hp⟩
  exact { hk' with
    active := by
      intro i hi
      rcases Finset.mem_insert.mp hi with rfl | hi
      · exact new hin
      · exact hk'.active hi
    mapped := by
      intro i hi
      rw [show (s.enterRunner t x).taskSubmissions = s.taskSubmissions.set t x.submission from rfl, Dict.get?_set] at hi
      split at hi
      case isTrue e => exact e ▸ new hin
      case isFalse => exact hk'.mapped hi
    isProtected := by
      intro i hi
      simp only [Bookkeeping.enterRunner] at hi
      split at hi
      case isFalse => exact hk'.isProtected hi
      case isTrue =>
        rcases Finset.mem_insert.mp hi with rfl | hi
        · exact new (.inl hin)
        · exact hk'.isProtected hi
    cancelling := by
      refine hk.cancelling.trans ?_
      simp only [Bookkeeping.enterRunner]
      split
      · exact Finset.subset_insert _ _
      · exact Finset.Subset.refl _ }

theorem leaveRunner (hx : s.tasks[t]? = some x) : TasksKept (s.leaveRunner t x) := by
  have erased : TasksKept { s with
      activeTasks := s.activeTasks.erase t
      protectedTasks := s.protectedTasks.erase t
      protectedCancelling := s.protectedCancelling.erase t
      taskSubmissions := s.taskSubmissions.erase t
      cancellationRequested := s.cancellationRequested.erase t } :=
    { active := fun h => hk.active (Finset.mem_of_mem_erase h)
      mapped := fun {i} h => by
        rw [Dict.get?_erase] at h
        split at h
        · cases h
        · exact hk.mapped h
      requested := fun h => hk.requested (Finset.mem_of_mem_erase h)
      isProtected := fun h => hk.isProtected (Finset.mem_of_mem_erase h)
      cancelling := Finset.erase_subset_erase _ hk.cancelling }
  refine erased.setTask hx ?_ ?_ ?_ ?_
  case refine_2 =>
    intro h
    simp [Dict.get?_erase] at h
  all_goals exact fun h => absurd h (Finset.notMem_erase _ _)

theorem protectTask {cancelling : Bool} (hx : s.tasks[t]? = some x) (hph : x.phase = .running) :
    TasksKept (s.protectTask t x cancelling) := by
  let d := x.discards || decide (t ∉ s.protectedTasks ∧ ¬s.taskSubmissions.contains t)
  have hy : SdkTask.Protected { x with discards := d } := by
    by_cases hr : x.runner = true
    case pos => exact .inl ⟨hr, hph⟩
    refine .inr ⟨by simpa using hr, ?_, by simp [hph]⟩
    by_cases hm : t ∈ s.protectedTasks
    · have hd := (List.of_exists_getElem? hx (hk.isProtected hm)).resolve_left fun h => hr h.1
      simp [d, hd.2.1]
    · have hn : ¬s.taskSubmissions.contains t := fun hc =>
        hr (List.of_exists_getElem? hx (hk.mapped (by simpa [Dict.contains] using hc))).1
      simp [d, hm, hn]
  have hk' := hk.advance (y := { x with discards := d }) hx id fun _ => hy
  exact { hk' with
    isProtected := by
      intro i hi
      rcases Finset.mem_insert.mp hi with rfl | hi
      · exact ⟨_, List.getElem?_set_of_some hx, hy⟩
      · exact hk'.isProtected hi
    cancelling := by
      simp only [Bookkeeping.protectTask]
      split
      · exact Finset.insert_subset_insert _ hk.cancelling
      · exact hk.cancelling.trans (Finset.subset_insert _ _) }

theorem settle (hx : s.tasks[t]? = some x) (hph : x.phase = .ended) :
    TasksKept (if x.discards then (s.setTask t { x with phase := .settled }).discardProtectedTask t
      else s.setTask t { x with phase := .settled }) := by
  have hr : ¬x.InRunner := by simp [SdkTask.InRunner, hph]
  split
  case isTrue =>
    refine hk.discardProtectedTask.setTask hx ?_ ?_ ?_ fun h => absurd h (Finset.notMem_erase _ _)
    · exact fun h => absurd (List.of_exists_getElem? hx (hk.active h)) hr
    · exact fun h => absurd (List.of_exists_getElem? hx (hk.mapped h)) hr
    · exact fun h => absurd (List.of_exists_getElem? hx (hk.requested h)) hr
  case isFalse hd =>
    refine hk.advance hx (fun h => absurd h hr) fun hp => ?_
    exact absurd (hp.resolve_left hr).2.1 hd

theorem step (ho : Timely s e) (e' : s.step e = some s') : TasksKept s' := by
  cases e <;> simp only [Bookkeeping.step] at e'
  all_goals try obtain ⟨x, hx, hp, rfl⟩ := withHandle_eq_some e'
  all_goals try obtain ⟨x, hx, hp, rfl⟩ := withTask_eq_some e'
  case accept bridged track background =>
    cases e'
    exact { hk with }
  case add | list | claim =>
    exact { hk with }
  case register | registerBackground =>
    split <;> exact { hk with }
  case schedule h accepted =>
    split
    · exact { hk with }
    · exact TasksKept.complete { hk with }
  case cancelHandle | completeBridge =>
    exact hk.complete
  case callbacks h =>
    simp only [runCallbacks]
    split <;> split <;> exact { hk with }
  case createFails h =>
    exact TasksKept.complete { hk with }
  case bind h =>
    have hc : x.future.isCancelled = false := by simpa [Timely, isTimely, isCancelled, hx] using ho
    rw [if_neg (by simp [hc])]
    exact { hk.concat with }
  case spawn h =>
    cases e'
    exact hk.concat
  case interrupt t =>
    exact hk.advance hx id id
  case firstStep t =>
    simp only [Bool.and_eq_true, decide_eq_true_eq] at hp
    split
    · refine hk.advance hx (fun hr => ?_) fun hpr => ?_
      · simp [SdkTask.InRunner, hp.2] at hr
      · simp [SdkTask.Protected, SdkTask.InRunner, hp] at hpr
    · exact hk.enterRunner hx hp.1
  case finish t =>
    split
    case isTrue => exact hk.leaveRunner hx
    case isFalse hr =>
      refine hk.advance hx (fun h => absurd h.1 hr) fun hpr => ?_
      obtain ⟨hn, hd, _⟩ := hpr.resolve_left fun h => hr h.1
      exact .inr ⟨hn, hd, by simp⟩
  case settle t cancelled =>
    have hph : x.phase = .ended := by simpa using hp
    have hk' := hk.settle hx hph
    split
    · exact hk'.complete
    · exact hk'
  case protectSubmission | markReturning =>
    cases e'
    split <;> exact { hk with }
  case protectTask t cancelling =>
    exact hk.protectTask hx (by simpa using hp)
  case markCancelling t =>
    split
    case isTrue hm =>
      exact ⟨hk.active, hk.mapped, hk.requested, hk.isProtected, Finset.insert_subset hm hk.cancelling⟩
    case isFalse => exact hk
  case cancelReturning t already =>
    unfold cancelReturningTask
    split
    case isTrue => exact hk
    split
    case isTrue => exact hk
    case isFalse hn =>
      have ho : already = true ∨ t ∈ s.activeTasks := by simpa [Timely, isTimely] using ho
      have ha := ho.resolve_left fun h => hn (.inr (.inr (.inl h)))
      exact hk.cancelTaskOnce fun hx _ _ => List.of_exists_getElem? hx (hk.active ha)
  case cancelForwarded t =>
    simp only [Bool.and_eq_true, decide_eq_true_eq] at hp
    refine hk.cancelTaskOnce fun hx' hne hns => ?_
    cases hx.symm.trans hx'
    refine ⟨hp.1.1, ?_⟩
    cases hph : x.phase <;> simp_all
  case cancelActive t =>
    obtain ⟨ha, e'⟩ := Option.ite_none_right_eq_some.mp e'
    cases e'
    exact hk.cancelTaskOnce fun hx _ _ => List.of_exists_getElem? hx (hk.active ha.1)

end TasksKept

theorem HandlesKept.initial : HandlesKept initial := by
  constructor <;> simp [Bookkeeping.initial]

theorem TasksKept.initial : TasksKept initial := by
  constructor <;> simp [Bookkeeping.initial, Dict.get?_empty]

def closed : Bookkeeping :=
  { initial with
    handles := [⟨true, false, false, .returned, .done false, .finished, true, false⟩]
    tasks := [⟨0, true, false, .settled, false, false⟩] }

-- A child task that goes on after its close is recorded as well, and has no `_run_awaitable` around it.
example :
    (Machine.run step initial
      [.accept true true false, .add 0, .register 0, .schedule 0 true, .spawn 0, .protectTask 0 false,
        .cancelReturning 0 false, .finish 0, .settle 0 true, .completeBridge 0 false, .callbacks 0]).map
          (fun s => (s.protectedTasks, s.cancellationRequested)) = some (∅, {0}) := by
  rfl

end Bookkeeping

end Aio
