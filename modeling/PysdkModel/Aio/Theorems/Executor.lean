import PysdkModel.Aio.Executor
import PysdkModel.Lib.Entries

namespace Aio

def Worker.Expects : Worker → WorkFuture → Bool
  | .holding _, f => !f.isStarted
  | .running _, f => f = .running
  | .releasing _, f => f.isDone
  | _, _ => true

-- A future changes without the help of a worker only by being cancelled before it starts.
inductive WorkFuture.Later : WorkFuture → WorkFuture → Prop
  | refl (f : WorkFuture) : Later f f
  | cancel (b : Bool) : Later .pending (.cancelled b)

namespace WorkFuture.Later

variable {f f' : WorkFuture}

theorem isStarted (h : Later f f') : f'.isStarted = f.isStarted := by
  cases h <;> rfl

theorem isDone (h : Later f f') (hf : f'.isDone = false) : f.isDone = false := by
  cases h
  case refl => exact hf
  case cancel => rfl

theorem expects {x : Worker} (h : Later f f') (hx : x.Expects f = true) : x.Expects f' = true := by
  cases h
  case refl => exact hx
  case cancel b => cases x <;> simp_all [Worker.Expects, WorkFuture.isStarted, WorkFuture.isDone]

end WorkFuture.Later

theorem WorkItem.later_cancel (b : Bool) (item : WorkItem) : item.future.Later (item.cancel b).future := by
  unfold WorkItem.cancel
  split
  case isTrue h => exact h ▸ .cancel b
  case isFalse _ => exact .refl _

theorem WorkItem.calls_cancel (b : Bool) (item : WorkItem) : (item.cancel b).calls = item.calls := by
  unfold WorkItem.cancel
  split <;> rfl

theorem WorkItem.isDone_cancel {item : WorkItem} (b : Bool) (h : item.future.isStarted = false) :
    (item.cancel b).future.isDone = true := by
  unfold WorkItem.cancel
  split
  case isTrue => rfl
  case isFalse hne => cases hf : item.future <;> simp_all [WorkFuture.isStarted, WorkFuture.isDone]

-- Where the unfinished items are: each one is in the queue or with one worker.
structure Placed (queued : List Nat) (threads : List Worker) (items : List WorkItem) : Prop where
  nodup : queued.Nodup
  fresh : ∀ {id : Nat}, id ∈ queued → ∃ item, items[id]? = some item ∧ item.future.isStarted = false
  apart : ∀ {w id : Nat} {x}, threads[w]? = some x → x.item? = some id → id ∉ queued
  alone : ∀ {w w' id : Nat} {x x'}, threads[w]? = some x → threads[w']? = some x' → x.item? = some id →
    x'.item? = some id → w = w'
  agrees : ∀ {w id : Nat} {x}, threads[w]? = some x → x.item? = some id →
    ∃ item, items[id]? = some item ∧ x.Expects item.future = true
  placed : ∀ {id : Nat} {item}, items[id]? = some item → item.future.isDone = false →
    id ∈ queued ∨ ∃ (w : Nat) (x : Worker), threads[w]? = some x ∧ x.item? = some id
  once : ∀ {id : Nat} {item}, items[id]? = some item → item.calls = if item.future.isStarted then 1 else 0

namespace Placed

variable {queued : List Nat} {threads : List Worker} {items : List WorkItem} {item item' : WorkItem} {x x' : Worker}
  {w id : Nat}

theorem submit (hp : Placed queued threads items) : Placed (queued ++ [items.length]) threads (items ++ [.new]) := by
  have known : ∀ {id : Nat}, id ∈ queued → id ≠ items.length := by
    rintro _ hid rfl
    obtain ⟨item, hi, _⟩ := hp.fresh hid
    exact Nat.lt_irrefl _ (List.lt_length_of_getElem? hi)
  exact { hp with
    nodup := List.nodup_append.mpr ⟨hp.nodup, List.nodup_singleton _, fun a ha b hb => by
      simp only [List.mem_singleton] at hb
      exact hb ▸ known ha⟩
    fresh := by
      intro id hid
      rcases List.mem_append.mp hid with hid | hid
      · obtain ⟨item, hi, hs⟩ := hp.fresh hid
        exact ⟨item, List.getElem?_concat_of_some hi, hs⟩
      · simp only [List.mem_singleton] at hid
        exact ⟨.new, by simp [hid], rfl⟩
    apart := by
      intro w id x hw hx hid
      rcases List.mem_append.mp hid with hid | hid
      · exact hp.apart hw hx hid
      · obtain ⟨item, hi, _⟩ := hp.agrees hw hx
        simp only [List.mem_singleton] at hid
        exact absurd (List.lt_length_of_getElem? hi) (by omega)
    agrees := by
      intro w id x hw hx
      obtain ⟨item, hi, he⟩ := hp.agrees hw hx
      exact ⟨item, List.getElem?_concat_of_some hi, he⟩
    placed := by
      intro id item hi hd
      rcases List.getElem?_concat_cases hi with hi | ⟨rfl, _⟩
      · exact (hp.placed hi hd).imp_left (List.mem_append_left _)
      · exact .inl (by simp)
    once := by
      intro id item hi
      rcases List.getElem?_concat_cases hi with hi | ⟨_, rfl⟩
      · exact hp.once hi
      · rfl }

theorem hire (hp : Placed queued threads items) : Placed queued (threads ++ [.waiting]) items := by
  have old : ∀ {w id : Nat} {x}, (threads ++ [.waiting])[w]? = some x → x.item? = some id → threads[w]? = some x := by
    intro w id x hw hx
    rcases List.getElem?_concat_cases hw with hw | ⟨_, rfl⟩
    · exact hw
    · cases hx
  exact { hp with
    apart := fun hw hx => hp.apart (old hw hx) hx
    alone := fun hw hw' hx hx' => hp.alone (old hw hx) (old hw' hx') hx hx'
    agrees := fun hw hx => hp.agrees (old hw hx) hx
    placed := by
      intro id item hi hd
      rcases hp.placed hi hd with hid | ⟨w, x, hw, hx⟩
      · exact .inl hid
      · exact .inr ⟨w, x, List.getElem?_concat_of_some hw, hx⟩ }

theorem modify {f : WorkItem → WorkItem} (hp : Placed queued threads items)
    (hl : ∀ item : WorkItem, item.future.Later (f item).future) (hc : ∀ item : WorkItem, (f item).calls = item.calls) :
    Placed queued threads (items.modify id f) := by
  have new : ∀ {i : Nat} {item}, items[i]? = some item → ∃ item', (items.modify id f)[i]? = some item' ∧
      item.future.Later item'.future := by
    intro i item hi
    refine ⟨_, by simp only [List.getElem?_modify, hi]; rfl, ?_⟩
    split
    · exact hl item
    · exact .refl _
  have old : ∀ {i : Nat} {item'}, (items.modify id f)[i]? = some item' → ∃ item, items[i]? = some item ∧
      item.future.Later item'.future ∧ item'.calls = item.calls := by
    intro i item' hi'
    rw [List.getElem?_modify] at hi'
    obtain ⟨item, hi, rfl⟩ := Option.map_eq_some_iff.mp hi'
    refine ⟨item, hi, ?_⟩
    split
    · exact ⟨hl item, hc item⟩
    · exact ⟨.refl _, rfl⟩
  exact { hp with
    fresh := by
      intro i hid
      obtain ⟨item, hi, hs⟩ := hp.fresh hid
      obtain ⟨item', hi', hl⟩ := new hi
      exact ⟨item', hi', hl.isStarted.trans hs⟩
    agrees := by
      intro w i x hw hx
      obtain ⟨item, hi, he⟩ := hp.agrees hw hx
      obtain ⟨item', hi', hl⟩ := new hi
      exact ⟨item', hi', hl.expects he⟩
    placed := by
      intro i item' hi' hd
      obtain ⟨item, hi, hl, _⟩ := old hi'
      exact hp.placed hi (hl.isDone hd)
    once := by
      intro i item' hi'
      obtain ⟨item, hi, hl, hc⟩ := old hi'
      rw [hc, hl.isStarted]
      exact hp.once hi }

theorem drop (hp : Placed (id :: queued) threads items)
    (hd : ∀ {item}, items[id]? = some item → item.future.isDone = true) : Placed queued threads items where
  __ := hp
  nodup := (List.nodup_cons.mp hp.nodup).2
  fresh := fun h => hp.fresh (List.mem_cons_of_mem _ h)
  apart := fun hw hx h => hp.apart hw hx (List.mem_cons_of_mem _ h)
  placed := by
    intro i item hi hf
    rcases hp.placed hi hf with h | h
    · rcases List.mem_cons.mp h with rfl | h
      · exact absurd (hd hi) (by simp [hf])
      · exact .inl h
    · exact .inr h

theorem take (hp : Placed (id :: queued) threads items) (hw : threads[w]? = some .waiting) :
    Placed queued (threads.set w (.holding id)) items := by
  obtain ⟨hnid, hnodup⟩ := List.nodup_cons.mp hp.nodup
  exact { hp with
    nodup := hnodup
    fresh := fun h => hp.fresh (List.mem_cons_of_mem _ h)
    apart := by
      intro v i x hv hx
      rcases List.getElem?_set_cases hv with ⟨_, rfl⟩ | ⟨_, hv⟩
      · cases hx
        exact hnid
      · exact fun h => hp.apart hv hx (List.mem_cons_of_mem _ h)
    alone := by
      intro v v' i x x' hv hv' hx hx'
      rcases List.getElem?_set_cases hv with ⟨e, rfl⟩ | ⟨_, hv₀⟩ <;>
        rcases List.getElem?_set_cases hv' with ⟨e', rfl⟩ | ⟨_, hv₀'⟩
      case inl.inl => exact e.trans e'.symm
      case inl.inr =>
        cases hx
        exact absurd List.mem_cons_self (hp.apart hv₀' hx')
      case inr.inl =>
        cases hx'
        exact absurd List.mem_cons_self (hp.apart hv₀ hx)
      case inr.inr => exact hp.alone hv₀ hv₀' hx hx'
    agrees := by
      intro v i x hv hx
      rcases List.getElem?_set_cases hv with ⟨_, rfl⟩ | ⟨_, hv⟩
      · cases hx
        obtain ⟨item, hi, hs⟩ := hp.fresh List.mem_cons_self
        exact ⟨item, hi, by simpa [Worker.Expects] using hs⟩
      · exact hp.agrees hv hx
    placed := by
      intro i item hi hd
      rcases hp.placed hi hd with h | ⟨v, x, hv, hx⟩
      · rcases List.mem_cons.mp h with rfl | h
        · exact .inr ⟨w, _, List.getElem?_set_of_some hw, rfl⟩
        · exact .inl h
      · refine .inr ⟨v, x, ?_, hx⟩
        rwa [List.getElem?_set_ne]
        rintro rfl
        cases hw.symm.trans hv
        cases hx }

theorem idle (hp : Placed queued threads items) (hw : threads[w]? = some x) (hx' : x'.item? = none)
    (hd : ∀ {id : Nat} {item : WorkItem}, x.item? = some id → x.Expects item.future = true →
      item.future.isDone = true) :
    Placed queued (threads.set w x') items := by
  have old : ∀ {v id : Nat} {y}, (threads.set w x')[v]? = some y → y.item? = some id → threads[v]? = some y := by
    intro v id y hv hy
    rcases List.getElem?_set_cases hv with ⟨_, rfl⟩ | ⟨_, hv⟩
    · cases hx'.symm.trans hy
    · exact hv
  exact { hp with
    apart := fun hv hy => hp.apart (old hv hy) hy
    alone := fun hv hv' hy hy' => hp.alone (old hv hy) (old hv' hy') hy hy'
    agrees := fun hv hy => hp.agrees (old hv hy) hy
    placed := by
      intro i item hi hf
      rcases hp.placed hi hf with h | ⟨v, y, hv, hy⟩
      case inl => exact .inl h
      refine .inr ⟨v, y, ?_, hy⟩
      rwa [List.getElem?_set_ne]
      rintro rfl
      cases hw.symm.trans hv
      obtain ⟨item', hi', he⟩ := hp.agrees hw hy
      cases hi.symm.trans hi'
      exact absurd (hd hy he) (by simp [hf]) }

theorem advance (hp : Placed queued threads items) (hw : threads[w]? = some x) (hx : x.item? = some id)
    (hi : items[id]? = some item) (hx' : x'.item? = some id) (he : x'.Expects item'.future = true)
    (hc : item'.calls = if item'.future.isStarted then 1 else 0) :
    Placed queued (threads.set w x') (items.set id item') := by
  have old : ∀ {v i : Nat} {y}, (threads.set w x')[v]? = some y → y.item? = some i →
      ∃ y', threads[v]? = some y' ∧ y'.item? = some i := by
    intro v i y hv hy
    rcases List.getElem?_set_cases hv with ⟨rfl, rfl⟩ | ⟨_, hv⟩
    · exact ⟨x, hw, hx.trans (hx'.symm.trans hy)⟩
    · exact ⟨y, hv, hy⟩
  exact { hp with
    fresh := by
      intro i hid
      obtain ⟨item, hi, hs⟩ := hp.fresh hid
      refine ⟨item, ?_, hs⟩
      rwa [List.getElem?_set_ne]
      rintro rfl
      exact hp.apart hw hx hid
    apart := by
      intro v i y hv hy
      obtain ⟨y', hv, hy⟩ := old hv hy
      exact hp.apart hv hy
    alone := by
      intro v v' i y z hv hv' hy hz
      obtain ⟨y', hv, hy⟩ := old hv hy
      obtain ⟨z', hv', hz⟩ := old hv' hz
      exact hp.alone hv hv' hy hz
    agrees := by
      intro v i y hv hy
      rcases List.getElem?_set_cases hv with ⟨rfl, rfl⟩ | ⟨hne, hv⟩
      case inl =>
        cases hx'.symm.trans hy
        exact ⟨item', List.getElem?_set_of_some hi, he⟩
      obtain ⟨item₁, hi₁, he₁⟩ := hp.agrees hv hy
      refine ⟨item₁, ?_, he₁⟩
      rwa [List.getElem?_set_ne]
      rintro rfl
      exact hne (hp.alone hv hw hy hx)
    placed := by
      have keep : ∀ {v i : Nat} {y}, threads[v]? = some y → y.item? = some i →
          ∃ (v : Nat) (y : Worker), (threads.set w x')[v]? = some y ∧ y.item? = some i := by
        intro v i y hv hy
        by_cases hvw : v = w
        · cases hvw
          cases hw.symm.trans hv
          exact ⟨w, x', List.getElem?_set_of_some hw, hx'.trans (hx.symm.trans hy)⟩
        · exact ⟨v, y, by rwa [List.getElem?_set_ne (Ne.symm hvw)], hy⟩
      intro i item₁ hi₁ hf
      rcases List.getElem?_set_cases hi₁ with ⟨rfl, _⟩ | ⟨_, hi₁⟩
      · exact .inr (keep hw hx)
      · rcases hp.placed hi₁ hf with h | ⟨v, y, hv, hy⟩
        · exact .inl h
        · exact .inr (keep hv hy)
    once := by
      intro i item₁ hi₁
      rcases List.getElem?_set_cases hi₁ with ⟨_, rfl⟩ | ⟨_, hi₁⟩
      · exact hc
      · exact hp.once hi₁ }

end Placed

namespace DaemonExecutor

variable {max : Nat} {s t : DaemonExecutor} {e : ExecutorEvent} {items : List WorkItem} {queue : List (Option Nat)}
  {x x' y : Worker} {w : Nat}

inductive Moves (max : Nat) (s : DaemonExecutor) : ExecutorEvent → DaemonExecutor → Prop
  | submit :
    s.shutdown = false → Moves max s .submit (s.submit max)
  | addRaisingCallback (id : Nat) :
    Moves max s (.addRaisingCallback id) { s with items := s.items.modify id ({ · with callbackRaises := true }) }
  | cancel (id : Nat) :
    Moves max s (.cancel id) { s with items := s.items.modify id (.cancel false) }
  | stop {w : Nat} {queue : List (Option Nat)} :
    s.threads[w]? = some .waiting → s.workQueue = none :: queue →
    Moves max s (.get w) { s with workQueue := queue, threads := s.threads.set w .exited }
  | take {w id : Nat} {queue : List (Option Nat)} :
    s.threads[w]? = some .waiting → s.workQueue = some id :: queue →
    Moves max s (.get w) { s with workQueue := queue, threads := s.threads.set w (.holding id) }
  | call {w id : Nat} {item : WorkItem} :
    s.threads[w]? = some (.holding id) → s.items[id]? = some item → item.future = .pending →
    Moves max s (.start w) { s with items := s.items.set id item.call, threads := s.threads.set w (.running id) }
  | skip {w id : Nat} {item : WorkItem} {byShutdown : Bool} :
    s.threads[w]? = some (.holding id) → s.items[id]? = some item → item.future = .cancelled byShutdown →
    Moves max s (.start w) { s with threads := s.threads.set w (.releasing id) }
  | unexpected {w id : Nat} {item : WorkItem} :
    s.threads[w]? = some (.holding id) → s.items[id]? = some item → item.future.isStarted = true →
    Moves max s (.start w) { s with threads := s.threads.set w (.releasing id), logged := s.logged + 1 }
  | complete {w id : Nat} {item : WorkItem} (logged : Nat) :
    s.threads[w]? = some (.running id) → s.items[id]? = some item →
    Moves max s (.complete w)
      { s with items := s.items.set id item.finish, threads := s.threads.set w (.releasing id), logged := logged }
  | release {w id : Nat} :
    s.threads[w]? = some (.releasing id) →
    Moves max s (.release w) { s with idleSemaphore := s.idleSemaphore + 1, threads := s.threads.set w .waiting }
  | shutdown (cancelFutures : Bool) :
    Moves max s (.shutdown cancelFutures) (s.beginShutdown cancelFutures)

theorem step_moves (h : s.step max e = some t) : Moves max s e t := by
  cases e <;> simp only [step] at h
  case submit =>
    obtain ⟨hs, h⟩ := Option.ite_none_left_eq_some.mp h
    cases h
    exact .submit (by simpa using hs)
  case addRaisingCallback id =>
    cases h
    exact .addRaisingCallback id
  case cancel id =>
    cases h
    exact .cancel id
  case get w =>
    split at h <;> cases h
    case h_1 hw hq => exact .stop hw hq
    case h_2 hw hq => exact .take hw hq
  case start w =>
    split at h <;> try cases h
    case h_1 hw =>
      split at h <;> try cases h
      case h_1 hi =>
        split at h <;> cases h
        case h_1 hf => exact .call hw hi hf
        case h_2 hf => exact .skip hw hi hf
        case h_3 hf => exact .unexpected hw hi (by rw [hf]; rfl)
        case h_4 hf => exact .unexpected hw hi (by rw [hf]; rfl)
  case complete w =>
    split at h <;> try cases h
    case h_1 hw =>
      split at h <;> cases h
      case h_1 hi => exact .complete _ hw hi
  case release w =>
    split at h <;> cases h
    case h_1 hw => exact .release hw
  case shutdown cancelFutures =>
    cases h
    exact .shutdown cancelFutures

theorem drain_suffix : (drain items queue).workQueue <:+ queue := by
  induction queue generalizing items with
  | nil => exact List.suffix_rfl
  | cons x queue ih =>
    cases x with
    | none => exact ih.trans (List.suffix_cons _ _)
    | some i =>
      unfold drain
      split
      · exact List.suffix_cons _ _
      · exact ih.trans (List.suffix_cons _ _)

theorem drain_placed {threads : List Worker} (hp : Placed (queue.filterMap id) threads items) :
    Placed ((drain items queue).workQueue.filterMap id) threads (drain items queue).items := by
  induction queue generalizing items with
  | nil => exact hp
  | cons x queue ih =>
    cases x with
    | none => exact ih hp
    | some i =>
      have hq : Placed (queue.filterMap id) threads (items.modify i (.cancel true)) := by
        refine (hp.modify (WorkItem.later_cancel true) (WorkItem.calls_cancel true)).drop fun {item} hi => ?_
        obtain ⟨item₀, hi₀, hs⟩ := hp.fresh List.mem_cons_self
        simp only [List.getElem?_modify_eq, hi₀] at hi
        cases hi
        exact WorkItem.isDone_cancel true hs
      unfold drain
      split
      · exact hq
      · exact ih hq

theorem cancelRaises_of_modify_cancel {i j : Nat} (h : items[i]?.any WorkItem.cancelRaises = false) :
    (items.modify j (.cancel true))[i]?.any WorkItem.cancelRaises = false := by
  rw [List.getElem?_modify]
  cases hi : items[i]? with
  | none => rfl
  | some item =>
    simp only [hi, Option.any_some] at h
    simp only [Option.map_eq_map, Option.map_some, Option.any_some]
    split
    · unfold WorkItem.cancel
      split
      · rfl
      · exact h
    · exact h

theorem drain_completes (h : ∀ i ∈ queue.filterMap id, items[i]?.any WorkItem.cancelRaises = false) :
    (drain items queue).raised = false := by
  induction queue generalizing items with
  | nil => rfl
  | cons x queue ih =>
    cases x with
    | none => exact ih h
    | some i =>
      unfold drain
      rw [if_neg (by simp [h i List.mem_cons_self])]
      exact ih fun j hj => cancelRaises_of_modify_cancel (h j (List.mem_cons_of_mem _ hj))

theorem drain_length : (drain items queue).items.length = items.length := by
  induction queue generalizing items with
  | nil => rfl
  | cons x queue ih =>
    cases x with
    | none => exact ih
    | some i =>
      unfold drain
      split
      · exact List.length_modify ..
      · exact ih.trans (List.length_modify ..)

theorem length_held_set (hw : s.threads[w]? = some x) :
    ((s.threads.set w y).filterMap Worker.item?).length + (if x.item?.isSome then 1 else 0) =
      s.held.length + (if y.item?.isSome then 1 else 0) := by
  simp only [held, List.length_filterMap_eq_countP]
  exact List.countP_set_add hw

structure Inv (max : Nat) (s : DaemonExecutor) : Prop where
  placed : Placed s.queued s.threads s.items
  bounded : s.threads.length ≤ max
  -- Until the pool is full, every submission has used up an idle worker or started one.
  balance : s.shutdown = false → s.threads.length < max →
    s.idleSemaphore + s.queued.length + s.held.length = s.threads.length
  hired : s.threads = [] → s.items = [] ∧ s.idleSemaphore = 0
  -- No item is behind a stop marker.
  ordered : s.workQueue.Pairwise fun a b => a = none → b = none
  opened : s.shutdown = false → none ∉ s.workQueue
  staying : s.shutdown = false → ∀ w : Nat, s.threads[w]? ≠ some .exited
  emptied : ∀ {w : Nat}, s.threads[w]? = some .exited → s.queued = []

namespace Inv

attribute [local simp] DaemonExecutor.initial

theorem initial : Inv max initial where
  placed := by constructor <;> simp [queued]
  bounded := Nat.zero_le _
  balance := fun _ _ => rfl
  hired := fun _ => ⟨rfl, rfl⟩
  ordered := .nil
  opened := by simp
  staying := by simp
  emptied := by simp

theorem submit (hmax : 0 < max) (hi : Inv max s) (hs : s.shutdown = false) : Inv max (s.submit max) := by
  have hq : (s.submit max).queued = s.queued ++ [s.items.length] := by
    simp [queued, DaemonExecutor.submit]
  have hp := hi.placed.submit
  have ordered : (s.workQueue ++ [some s.items.length]).Pairwise fun a b => a = none → b = none := by
    refine List.pairwise_append.mpr ⟨hi.ordered, List.pairwise_singleton _ _, ?_⟩
    rintro _ ha _ _ rfl
    exact absurd ha (hi.opened hs)
  have opened : none ∉ s.workQueue ++ [some s.items.length] := by simpa using hi.opened hs
  by_cases hh : ¬0 < s.idleSemaphore ∧ s.threads.length < max
  · have ht : (s.submit max).threads = s.threads ++ [.waiting] := if_pos hh
    have staying : ∀ w : Nat, (s.submit max).threads[w]? ≠ some .exited := by
      intro w hw
      rcases List.getElem?_concat_cases (ht ▸ hw) with hw | ⟨_, e⟩
      · exact hi.staying hs w hw
      · cases e
    exact {
      placed := by
        rw [hq, ht]
        exact hp.hire
      bounded := by simpa [ht, Nat.succ_le_iff] using hh.2
      balance := by
        intro _ _
        have hb := hi.balance hs hh.2
        simp only [held, hq, ht, List.filterMap_append, List.length_append, List.length_singleton]
        simp only [held] at hb
        simp only [DaemonExecutor.submit, List.filterMap_cons, Worker.item?, List.filterMap_nil, List.length_nil]
        omega
      hired := by simp [ht]
      ordered := ordered
      opened := fun _ => opened
      staying := fun _ => staying
      emptied := fun hw => absurd hw (staying _) }
  · have ht : (s.submit max).threads = s.threads := if_neg hh
    exact {
      placed := by
        rw [hq, ht]
        exact hp
      bounded := ht ▸ hi.bounded
      balance := by
        intro _ hlt
        rw [ht] at hlt
        have hb := hi.balance hs hlt
        simp only [held, hq, ht, List.length_append, List.length_singleton]
        simp only [held] at hb
        simp only [DaemonExecutor.submit]
        omega
      hired := by
        intro hn
        rw [ht] at hn
        have := (hi.hired hn).2
        simp only [hn, List.length_nil] at hh
        omega
      ordered := ordered
      opened := fun _ => opened
      staying := fun _ w => ht ▸ hi.staying hs w
      emptied := fun hw => absurd (ht ▸ hw) (hi.staying hs _) }

theorem owner {f : WorkItem → WorkItem} {id : Nat} (hi : Inv max s)
    (hl : ∀ item : WorkItem, item.future.Later (f item).future) (hc : ∀ item : WorkItem, (f item).calls = item.calls) :
    Inv max { s with items := s.items.modify id f } where
  __ := hi
  placed := hi.placed.modify hl hc
  hired := fun hn => ⟨by simp [(hi.hired hn).1], (hi.hired hn).2⟩

theorem worker {semaphore logged : Nat} (hi : Inv max s) (hw : s.threads[w]? = some x) (hx : x' ≠ .exited)
    (hp : Placed (queue.filterMap id) (s.threads.set w x') items) (hq : queue <:+ s.workQueue)
    (hb : semaphore + (queue.filterMap id).length + (if x'.item?.isSome then 1 else 0) =
      s.idleSemaphore + s.queued.length + (if x.item?.isSome then 1 else 0)) :
    Inv max ⟨queue, s.threads.set w x', items, semaphore, s.shutdown, logged⟩ := by
  have hlt := List.lt_length_of_getElem? hw
  have old : ∀ {v : Nat}, (s.threads.set w x')[v]? = some .exited → s.threads[v]? = some .exited := by
    intro v hv
    rcases List.getElem?_set_cases hv with ⟨_, e⟩ | ⟨_, hv⟩
    · exact absurd e.symm hx
    · exact hv
  exact {
    placed := hp
    bounded := by simpa using hi.bounded
    balance := by
      intro hs hm
      simp only [List.length_set] at hm
      have h₁ := hi.balance hs hm
      have h₂ := length_held_set (y := x') hw
      simp only [queued, held, List.length_set] at *
      omega
    hired := by
      intro hn
      have := congrArg List.length hn
      simp only [List.length_set, List.length_nil] at this
      omega
    ordered := hi.ordered.sublist hq.sublist
    opened := fun hs h => hi.opened hs (hq.subset h)
    staying := fun hs v hv => hi.staying hs v (old hv)
    emptied := by
      intro v hv
      have hn := hq.sublist.filterMap id
      rw [show s.workQueue.filterMap id = [] from hi.emptied (old hv)] at hn
      exact List.sublist_nil.mp hn }

theorem stop (hi : Inv max s) (hw : s.threads[w]? = some .waiting) (hq : s.workQueue = none :: queue) :
    Inv max { s with workQueue := queue, threads := s.threads.set w .exited } := by
  have hs : s.shutdown = true := by
    by_contra hs
    exact hi.opened (by simpa using hs) (hq ▸ List.mem_cons_self)
  have ho := hq ▸ hi.ordered
  have hn : queue.filterMap id = [] := by
    refine List.filterMap_eq_nil_iff.mpr fun a ha => ?_
    exact (List.pairwise_cons.mp ho).1 a ha rfl
  have hqueued : s.queued = queue.filterMap id := by simp [queued, hq]
  exact {
    placed := (hqueued ▸ hi.placed).idle hw rfl fun h => by cases h
    bounded := by simpa using hi.bounded
    balance := fun h => absurd h (by simp [hs])
    hired := by
      intro h
      have := congrArg List.length h
      have := List.lt_length_of_getElem? hw
      simp only [List.length_set, List.length_nil] at *
      omega
    ordered := (List.pairwise_cons.mp ho).2
    opened := fun h => absurd h (by simp [hs])
    staying := fun h => absurd h (by simp [hs])
    emptied := fun _ => hn }

theorem beginShutdown (hi : Inv max s) (cancelFutures : Bool) : Inv max (s.beginShutdown cancelFutures) := by
  have hd : Placed ((s.drained cancelFutures).workQueue.filterMap id) s.threads (s.drained cancelFutures).items := by
    cases cancelFutures
    case false => exact hi.placed
    case true => exact drain_placed hi.placed
  have hq : (s.drained cancelFutures).workQueue <:+ s.workQueue := by
    cases cancelFutures
    case false => exact List.suffix_rfl
    case true => exact drain_suffix
  have hl : (s.drained cancelFutures).items.length = s.items.length := by
    cases cancelFutures
    case false => rfl
    case true => exact drain_length
  have hqueued : (s.beginShutdown cancelFutures).queued = (s.drained cancelFutures).workQueue.filterMap id := by
    simp [queued, DaemonExecutor.beginShutdown]
  exact { hi with
    placed := hqueued ▸ hd
    balance := nofun
    hired := fun hn => ⟨List.length_eq_zero_iff.mp (hl.trans (by simp [(hi.hired hn).1])), (hi.hired hn).2⟩
    ordered := by
      refine List.pairwise_append.mpr ⟨hi.ordered.sublist hq.sublist, ?_, ?_⟩
      · exact List.pairwise_replicate.mpr (.inr id)
      · exact fun _ _ b hb _ => List.eq_of_mem_replicate hb
    opened := nofun
    staying := nofun
    emptied := by
      intro w hw
      have hn := hq.sublist.filterMap id
      rw [show s.workQueue.filterMap id = [] from hi.emptied hw] at hn
      exact hqueued.trans (List.sublist_nil.mp hn) }

theorem step (hmax : 0 < max) (hi : Inv max s) (h : s.step max e = some t) : Inv max t := by
  cases step_moves h
  case submit hs => exact hi.submit hmax hs
  case addRaisingCallback i => exact hi.owner (fun _ => .refl _) fun _ => rfl
  case cancel i => exact hi.owner (WorkItem.later_cancel false) (WorkItem.calls_cancel false)
  case stop w queue hw hq => exact hi.stop hw hq
  case take w i queue hw hq =>
    have hqueued : s.queued = i :: queue.filterMap id := by simp [queued, hq]
    refine hi.worker hw (by simp) ((hqueued ▸ hi.placed).take hw) (hq ▸ List.suffix_cons _ _) ?_
    simp [hqueued, Worker.item?]
    omega
  case call w i item hw hit hf =>
    have hc := hi.placed.once hit
    rw [hf] at hc
    refine hi.worker hw (by simp) ?_ List.suffix_rfl rfl
    exact hi.placed.advance hw rfl hit rfl rfl (congrArg Nat.succ hc)
  case skip w i item b hw hit hf =>
    refine hi.worker hw (by simp) ?_ List.suffix_rfl rfl
    have hp : Placed s.queued (s.threads.set w (.releasing i)) (s.items.set i item) :=
      hi.placed.advance hw rfl hit rfl (by rw [hf]; rfl) (hi.placed.once hit)
    rwa [List.set_of_getElem? hit] at hp
  case unexpected w i item hw hit hf =>
    obtain ⟨item', hit', he⟩ := hi.placed.agrees hw rfl
    cases hit.symm.trans hit'
    simp [Worker.Expects, hf] at he
  case complete w i item logged hw hit =>
    obtain ⟨item', hit', he⟩ := hi.placed.agrees hw rfl
    cases hit.symm.trans hit'
    have hf : item.future = .running := by simpa [Worker.Expects] using he
    have hc := hi.placed.once hit
    rw [hf] at hc
    refine hi.worker hw (by simp) ?_ List.suffix_rfl rfl
    exact hi.placed.advance hw rfl hit rfl rfl hc
  case release w i hw =>
    refine hi.worker hw (by simp) (hi.placed.idle hw rfl fun _ he => he) List.suffix_rfl ?_
    simp [queued, Worker.item?]
    omega
  case shutdown cancelFutures => exact hi.beginShutdown cancelFutures

theorem reached {ok : DaemonExecutor → ExecutorEvent → Prop} (hmax : 0 < max)
    (h : Machine.Reaches (DaemonExecutor.step max) ok DaemonExecutor.initial s) : Inv max s :=
  h.invariant (I := Inv max) (fun hi _ e => hi.step hmax e) .initial

end Inv

theorem live_set (hw : s.threads[w]? = some x) :
    (s.threads.set w y).countP (· ≠ .exited) + (if x ≠ .exited then 1 else 0) =
      s.live + (if y ≠ .exited then 1 else 0) := by
  simpa [live] using List.countP_set_add (p := fun y : Worker => decide (y ≠ .exited)) (b := y) hw

theorem live_set_of_ne (hw : s.threads[w]? = some x) (hx : x ≠ .exited) (hy : y ≠ .exited) :
    (s.threads.set w y).countP (· ≠ .exited) = s.live := by
  simpa [hx, hy] using live_set (y := y) hw

theorem live_le : s.live ≤ s.threads.length :=
  List.countP_le_length

theorem posted_le_markers {cancelFutures : Bool} :
    s.posted cancelFutures ≤ (s.beginShutdown cancelFutures).markers := by
  simp [markers, beginShutdown, List.count_append]

theorem stopped_step (ho : Uninterrupted s e) (hs : s.shutdown = true → s.live ≤ s.markers)
    (h : s.step max e = some t) : t.shutdown = true → t.live ≤ t.markers := by
  have going : ∀ {w : Nat} {x x' : Worker}, s.threads[w]? = some x → x ≠ .exited → x' ≠ .exited →
      s.shutdown = true → (s.threads.set w x').countP (· ≠ .exited) ≤ s.markers :=
    fun hw hx hx' h => live_set_of_ne hw hx hx' ▸ hs h
  cases step_moves h
  case submit hn => exact fun h => absurd (hn.symm.trans h) (by simp)
  case addRaisingCallback i => exact hs
  case cancel i => exact hs
  case stop w queue hw hq =>
    intro h
    have h₁ := hs h
    have h₂ := live_set (y := .exited) hw
    simp [markers, hq, live] at *
    omega
  case take w i queue hw hq =>
    have hm : s.markers = queue.count none := by simp [markers, hq]
    intro h
    refine Nat.le_trans (going hw ?_ ?_ h) (Nat.le_of_eq hm) <;> simp
  case call w i item hw hit hf => exact going hw (by simp) (by simp)
  case skip w i item b hw hit hf => exact going hw (by simp) (by simp)
  case unexpected w i item hw hit hf => exact going hw (by simp) (by simp)
  case complete w i item logged hw hit => exact going hw (by simp) (by simp)
  case release w i hw => exact going hw (by simp) (by simp)
  case shutdown cancelFutures =>
    intro _
    have hr : (s.drained cancelFutures).raised = false := by
      cases cancelFutures
      case false => rfl
      case true => exact drain_completes (ho rfl)
    by_cases hp : ¬s.shutdown ∨ cancelFutures
    case pos =>
      have hT : s.posted cancelFutures = s.threads.length := if_pos ⟨by simp [hr], hp⟩
      exact Nat.le_trans live_le (hT ▸ posted_le_markers)
    -- The markers of an earlier shutdown are left alone.
    simp only [not_or, Bool.not_eq_true, Bool.not_eq_false] at hp
    have hm : (s.beginShutdown cancelFutures).markers = s.markers := by
      simp [markers, beginShutdown, drained, posted, hp.1, hp.2]
    exact hm ▸ hs hp.1

theorem notCancelled_step (ho : Patient s e) (hs : ∀ item ∈ s.items, item.future ≠ .cancelled true)
    (h : s.step max e = some t) : ∀ item ∈ t.items, item.future ≠ .cancelled true := by
  have set : ∀ {id : Nat} {item : WorkItem}, item.future ≠ .cancelled true →
      ∀ item' ∈ s.items.set id item, item'.future ≠ .cancelled true := by
    intro id item hf item' hi
    rcases List.mem_or_eq_of_mem_set hi with hi | rfl
    · exact hs item' hi
    · exact hf
  have modify : ∀ {id : Nat} {f : WorkItem → WorkItem},
      (∀ item : WorkItem, item.future ≠ .cancelled true → (f item).future ≠ .cancelled true) →
      ∀ item' ∈ s.items.modify id f, item'.future ≠ .cancelled true := by
    intro id f hf item' hi
    obtain ⟨j, hj⟩ := List.mem_iff_getElem?.mp hi
    rw [List.getElem?_modify] at hj
    obtain ⟨item, hj₀, rfl⟩ := Option.map_eq_some_iff.mp hj
    have hn := hs item (List.mem_of_getElem? hj₀)
    split
    · exact hf item hn
    · exact hn
  cases step_moves h
  case submit hn =>
    intro item hi
    rcases List.mem_append.mp hi with hi | hi
    · exact hs item hi
    · simp [List.mem_singleton.mp hi, WorkItem.new]
  case addRaisingCallback i => exact modify fun _ hf => hf
  case cancel i =>
    refine modify fun item hf => ?_
    unfold WorkItem.cancel
    split
    · simp
    · exact hf
  case stop w queue hw hq => exact hs
  case take w i queue hw hq => exact hs
  case call w i item hw hit hf => exact set (by simp [WorkItem.call])
  case skip w i item b hw hit hf => exact hs
  case unexpected w i item hw hit hf => exact hs
  case complete w i item logged hw hit => exact set (by simp [WorkItem.finish])
  case release w i hw => exact hs
  case shutdown cancelFutures =>
    cases cancelFutures
    case false => exact hs
    case true => exact absurd rfl ho

namespace Inv

theorem held_iff {i : Nat} : i ∈ s.held ↔ ∃ (w : Nat) (x : Worker), s.threads[w]? = some x ∧ x.item? = some i := by
  refine List.mem_filterMap.trans ⟨?_, ?_⟩
  · rintro ⟨x, hm, hx⟩
    obtain ⟨w, hw⟩ := List.mem_iff_getElem?.mp hm
    exact ⟨w, x, hw, hx⟩
  · rintro ⟨w, x, hw, hx⟩
    exact ⟨x, List.mem_of_getElem? hw, hx⟩

theorem unfinished_le (hi : Inv max s) : s.unfinished ≤ s.queued.length + s.held.length := by
  rw [← List.length_append]
  refine List.countP_le_length_of_positions fun {i item} hit hd => ?_
  rw [List.mem_append, held_iff]
  exact hi.placed.placed hit (by simpa using hd)

attribute [local simp] DaemonExecutor.step

theorem settled (hi : Inv max s) (hq : s.Quiet max) : ∀ item ∈ s.items, item.future.isDone = true := by
  have idle : ∀ {w : Nat} {x}, s.threads[w]? = some x → x = .exited ∨ x = .waiting ∧ s.workQueue = [] := by
    intro w x hw
    obtain ⟨hget, hstart, hcomplete, hrelease⟩ := hq w
    cases x
    case waiting =>
      rcases hn : s.workQueue with _ | ⟨_ | i, queue⟩
      case nil => exact .inr ⟨rfl, rfl⟩
      case cons.none => simp [hw, hn] at hget
      case cons.some => simp [hw, hn] at hget
    case holding i =>
      obtain ⟨item, hit, _⟩ := hi.placed.agrees hw rfl
      cases hf : item.future <;> simp [hw, hit, hf] at hstart
    case running i =>
      obtain ⟨item, hit, _⟩ := hi.placed.agrees hw rfl
      simp [hw, hit] at hcomplete
    case releasing i => simp [hw] at hrelease
    case exited => exact .inl rfl
  intro item hmem
  obtain ⟨i, hit⟩ := List.mem_iff_getElem?.mp hmem
  by_contra hd
  rcases hi.placed.placed hit (by simpa using hd) with h | ⟨w, x, hw, hx⟩
  case inr =>
    rcases idle hw with rfl | ⟨rfl, _⟩ <;> cases hx
  case inl =>
    have hne : s.threads ≠ [] := by
      intro hn
      simp [(hi.hired hn).1] at hit
    have hw : s.threads[0]? = some (s.threads.head hne) := by
      rw [← List.head?_eq_getElem?, List.head?_eq_some_head hne]
    rcases idle hw with he | ⟨_, hq⟩
    · simp [hi.emptied (he ▸ hw)] at h
    · simp [queued, hq] at h

theorem sound (hi : Inv max s) (hs : s.shutdown = true → s.live ≤ s.markers) : Sound max s where
  bounded := hi.bounded
  staffed := by
    intro hn
    rcases Nat.lt_or_eq_of_le hi.bounded with hlt | heq
    · have := hi.balance hn hlt
      have := hi.unfinished_le
      exact .inl (by omega)
    · exact .inr heq
  once := by
    intro item hmem
    obtain ⟨i, hit⟩ := List.mem_iff_getElem?.mp hmem
    rw [hi.placed.once hit]
    split <;> simp
  kept := by
    intro i item hit
    have hc := hi.placed.once hit
    cases hf : item.future
    case cancelled b => exact .inr (.inr (.inr ⟨b, rfl⟩))
    case finished => exact .inr (.inr (.inl (by simpa [hf, WorkFuture.isStarted] using hc)))
    case running => exact .inr (.inr (.inl (by simpa [hf, WorkFuture.isStarted] using hc)))
    case pending =>
      rcases hi.placed.placed hit (by rw [hf]; rfl) with h | h
      · exact .inl h
      · exact .inr (.inl (held_iff.mpr h))
  settled := hi.settled
  stopped := hs

end Inv

theorem exits_with_marker {v : Nat} (h : s.step max e = some t) (hv : s.threads[v]? ≠ some .exited)
    (hv' : t.threads[v]? = some .exited) : e = .get v ∧ s.workQueue.head? = some none := by
  have set : ∀ {w : Nat} {x' : Worker}, x' ≠ .exited → (s.threads.set w x')[v]? ≠ some .exited := by
    intro w x' hx' he
    rcases List.getElem?_set_cases he with ⟨_, e⟩ | ⟨_, he⟩
    · exact hx' e.symm
    · exact hv he
  cases step_moves h
  case submit hn =>
    simp only [submit] at hv'
    split at hv'
    · rcases List.getElem?_concat_cases hv' with he | ⟨_, e⟩
      · exact absurd he hv
      · cases e
    · exact absurd hv' hv
  case stop w queue hw hq =>
    rcases List.getElem?_set_cases hv' with ⟨rfl, _⟩ | ⟨_, he⟩
    · exact ⟨rfl, by simp [hq]⟩
    · exact absurd he hv
  case addRaisingCallback i => exact absurd hv' hv
  case cancel i => exact absurd hv' hv
  case shutdown cancelFutures => exact absurd hv' hv
  case take w i queue hw hq => exact absurd hv' (set (by simp))
  case call w i item hw hit hf => exact absurd hv' (set (by simp))
  case skip w i item b hw hit hf => exact absurd hv' (set (by simp))
  case unexpected w i item hw hit hf => exact absurd hv' (set (by simp))
  case complete w i item logged hw hit => exact absurd hv' (set (by simp))
  case release w i hw => exact absurd hv' (set (by simp))

-- The executor neither loses nor stalls work as long as no callback interrupts the cancellation of queued futures.
theorem keeps_work (hmax : 0 < max) (h : Machine.Reaches (step max) Uninterrupted initial s) :
    s.Sound max ∧
      (Machine.Reaches (step max) Patient initial s → ∀ item ∈ s.items, item.future ≠ .cancelled true) ∧
      (∀ {e t} {v : Nat}, s.step max e = some t → s.threads[v]? ≠ some .exited → t.threads[v]? = some .exited →
        e = .get v ∧ s.workQueue.head? = some none) := by
  refine ⟨(Inv.reached hmax h).sound ?stopped, fun hp => ?patient, exits_with_marker⟩
  case stopped =>
    exact h.invariant (I := fun s => s.shutdown = true → s.live ≤ s.markers)
      (fun hs ho e => stopped_step ho hs e) nofun
  case patient =>
    exact hp.invariant (I := fun s => ∀ item ∈ s.items, item.future ≠ .cancelled true)
      (fun hs ho e => notCancelled_step ho hs e) nofun

def cancelled : DaemonExecutor where
  workQueue := [none]
  threads := [.waiting]
  items := [⟨.finished, 1, true⟩, ⟨.cancelled true, 0, false⟩]
  idleSemaphore := 1
  shutdown := true
  logged := 1

theorem cancelled_keeps_work :
    cancelled.Sound 1 ∧
      (Machine.Reaches (step 1) Patient initial cancelled → ∀ item ∈ cancelled.items, item.future ≠ .cancelled true) ∧
      (∀ {e t} {v : Nat}, cancelled.step 1 e = some t → cancelled.threads[v]? ≠ some .exited →
        t.threads[v]? = some .exited → e = .get v ∧ cancelled.workQueue.head? = some none) :=
  keeps_work Nat.one_pos <| .of_restricted_run (show Machine.run _ _
    [.submit, .submit, .addRaisingCallback 0, .get 0, .start 0, .shutdown true, .complete 0, .release 0] = _ from rfl)

-- A callback that raises in the loop that empties the queue keeps the stop markers from being posted, also by a second
-- shutdown. The worker waits for ever.
theorem raisingCallback_unstopped :
    ∃ s, Machine.Reaches (step 1) Machine.anyEvent initial s ∧ ¬s.Sound 1 ∧ s.Quiet 1 ∧ s.live = 1 := by
  refine ⟨⟨[], [.waiting], [⟨.finished, 1, false⟩, ⟨.cancelled true, 0, true⟩], 1, true, 0⟩,
    .of_run (show Machine.run _ _ [.submit, .submit, .addRaisingCallback 1, .get 0, .start 0, .shutdown true,
      .complete 0, .release 0, .shutdown false] = _ from rfl), fun h => ?_, ?_, rfl⟩
  · exact absurd (h.stopped rfl) (by decide)
  · rintro (_ | w) <;> simp [step]

end DaemonExecutor

end Aio
