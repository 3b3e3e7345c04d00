import PysdkModel.Aio.ExceptionHandler
import PysdkModel.Lib.Entries

namespace Aio

variable {α : Type*}

def StoredHandler.rank : Option (StoredHandler α) → Nat
  | some (.staged i) => i + 1
  | _ => 0

namespace BorrowedLoop

open StoredHandler (rank)

variable {s t : BorrowedLoop α} {original : Option α} {as : List (StagedHandler α)} {a b : StagedHandler α}
  {h : Option (StoredHandler α)} {i n m : Nat}

theorem updateAssignment_eq_some {caller : HandlerCaller} {update : StagedHandler α → StagedHandler α}
    (e : s.updateAssignment i caller update = some t) :
    ∃ a, s.assignments[i]? = some a ∧ a.caller = caller ∧
      t = { s with assignments := s.assignments.set i (update a) } := by
  unfold updateAssignment at e
  split at e
  case h_1 a ha =>
    obtain ⟨hc, e⟩ := Option.ite_none_right_eq_some.mp e
    cases e
    exact ⟨a, ha, hc, rfl⟩
  case h_2 => cases e

inductive Moves (s : BorrowedLoop α) : BorrowedLoop α → Prop
  | configure (handler : α) :
    s.restoring = none →
    Moves s ⟨s.assignments ++ [⟨handler, .pending, s.exceptionHandler, .waiting⟩],
      some (.staged s.assignments.length), s.restoring⟩
  | commit {i : Nat} {a : StagedHandler α} :
    s.assignments[i]? = some a → a.caller = .waiting →
    Moves s ⟨s.assignments.set i a.commit, s.exceptionHandler, s.restoring⟩
  | interrupt {i : Nat} {a : StagedHandler α} :
    s.assignments[i]? = some a → a.caller = .waiting →
    Moves s ⟨s.assignments.set i a.interrupt, s.exceptionHandler, s.restoring⟩
  | rollback {i : Nat} {a : StagedHandler α} :
    s.restoring = none → s.assignments[i]? = some a → a.caller = .interrupted →
    Moves s ⟨s.assignments.set i a.rollback, s.exceptionHandler, some i⟩
  | restore {i : Nat} :
    s.restoring = some i → Moves s ⟨s.assignments, s.afterRestoring i, none⟩

theorem step_moves {e : HandlerEvent α} (h : s.step e = some t) : Moves s t := by
  cases e
  case configure handler =>
    obtain ⟨hr, h⟩ := Option.ite_none_right_eq_some.mp h
    cases h
    exact .configure handler hr
  case commit i =>
    obtain ⟨a, ha, hc, rfl⟩ := updateAssignment_eq_some h
    exact .commit ha hc
  case interrupt i =>
    obtain ⟨a, ha, hc, rfl⟩ := updateAssignment_eq_some h
    exact .interrupt ha hc
  case rollback i =>
    obtain ⟨hr, h⟩ := Option.ite_none_right_eq_some.mp h
    obtain ⟨u, hu, rfl⟩ := Option.map_eq_some_iff.mp h
    obtain ⟨a, ha, hc, rfl⟩ := updateAssignment_eq_some hu
    exact .rollback hr ha hc
  case restore =>
    simp only [step] at h
    split at h
    case h_1 hi =>
      cases h
      exact .restore hi
    case h_2 => cases h

-- The handler is the original one or one of the first `n` assignments, and all that were installed between it and
-- the assignment `n` are rolled back.
structure Precedes (original : Option α) (as : List (StagedHandler α)) (n : Nat) (h : Option (StoredHandler α)) :
    Prop where
  rank_le : rank h ≤ n
  original : rank h = 0 → h = original.map .foreign
  rolledBack : ∀ {k : Nat} {b}, rank h ≤ k → k < n → as[k]? = some b → b.stage = .rolledBack

namespace Precedes

theorem append (hp : Precedes original as n h) (hn : n ≤ as.length) : Precedes original (as ++ [b]) n h where
  __ := hp
  rolledBack := fun hk hkn hb => hp.rolledBack hk hkn (by rwa [List.getElem?_append_left (by omega)] at hb)

theorem staged_length : Precedes original (as ++ [b]) (as ++ [b]).length (some (.staged as.length)) where
  rank_le := by simp [rank]
  original := by simp [rank]
  rolledBack := by
    intro k c hk hkn _
    simp only [rank, List.length_append, List.length_singleton] at hk hkn
    omega

theorem set (hp : Precedes original as n h) (ha : as[i]? = some a) (hs : a.stage ≠ .rolledBack) :
    Precedes original (as.set i b) n h where
  __ := hp
  rolledBack := by
    intro k c hk hkn hc
    rcases List.getElem?_set_cases hc with ⟨rfl, _⟩ | ⟨_, hc⟩
    · exact absurd (hp.rolledBack hk hkn ha) hs
    · exact hp.rolledBack hk hkn hc

theorem trans (hp : Precedes original as n (some (.staged i))) (ha : as[i]? = some a) (hs : a.stage = .rolledBack)
    (hq : Precedes original as i h) : Precedes original as n h where
  __ := hq
  rank_le := by have := hp.rank_le; have := hq.rank_le; simp only [rank] at *; omega
  rolledBack := by
    intro k b hk hkn hb
    rcases Nat.lt_trichotomy k i with hki | rfl | hik
    · exact hq.rolledBack hk hki hb
    · exact Option.some.inj (ha.symm.trans hb) ▸ hs
    · exact hp.rolledBack hik hkn hb

end Precedes

def Usable (as : List (StagedHandler α)) (h : Option (StoredHandler α)) : Prop :=
  ∀ {i : Nat} {a}, h = some (.staged i) → as[i]? = some a → a.stage ≠ .rolledBack

structure Inv (original : Option α) (s : BorrowedLoop α) : Prop where
  handler : Precedes original s.assignments s.assignments.length s.exceptionHandler
  previous : ∀ {i : Nat} {a}, s.assignments[i]? = some a → a.stage ≠ .committed →
    Precedes original s.assignments i a.previousHandler
  pending : ∀ {i : Nat} {a}, s.assignments[i]? = some a → a.caller ≠ .finished → a.stage = .pending
  -- Only the assignment that is being restored can be rolled back and still be the handler.
  restored : ∀ {i : Nat} {a}, s.exceptionHandler = some (.staged i) → s.assignments[i]? = some a →
    a.stage = .rolledBack → s.restoring = some i
  undone : ∀ {i : Nat} {a}, s.restoring = some i → s.assignments[i]? = some a → a.stage = .rolledBack

namespace Inv

attribute [local simp] BorrowedLoop.initial

theorem initial : Inv original (initial original) where
  handler := by cases original <;> exact ⟨Nat.le_refl 0, fun _ => rfl, fun _ h => absurd h (Nat.not_lt_zero _)⟩
  previous := by simp
  pending := by simp
  restored := by simp
  undone := by simp

theorem skipRolledBack (hi : Inv original s) (hp : Precedes original s.assignments n h) (hm : rank h ≤ m) :
    Precedes original s.assignments n (skipRolledBack s.assignments m h) ∧
      Usable s.assignments (BorrowedLoop.skipRolledBack s.assignments m h) := by
  induction m generalizing h with
  | zero =>
    refine ⟨by simpa only [BorrowedLoop.skipRolledBack] using hp, ?_⟩
    rintro i a rfl
    simp [rank] at hm
  | succ m ih =>
    unfold BorrowedLoop.skipRolledBack
    split
    case h_2 hne =>
      refine ⟨hp, ?_⟩
      rintro i a rfl
      exact absurd rfl (hne m i rfl)
    case h_1 m' i hm' =>
      cases hm'
      split
      case h_2 hn =>
        refine ⟨hp, fun e ha => ?_⟩
        cases e
        exact absurd (hn.symm.trans ha) (by simp)
      case h_1 a ha =>
        split
        case isTrue hs =>
          have hq := hi.previous ha (by simp [hs])
          exact ih (hp.trans ha hs hq) (Nat.le_trans hq.rank_le (by simpa [rank] using hm))
        case isFalse hs =>
          refine ⟨hp, fun e hb => ?_⟩
          cases e
          exact Option.some.inj (ha.symm.trans hb) ▸ hs

theorem restorablePredecessor (hi : Inv original s) (ha : s.assignments[i]? = some a) (hs : a.stage = .rolledBack)
    (hp : Precedes original s.assignments n (some (.staged i))) :
    Precedes original s.assignments n (s.restorablePredecessor a) ∧
      Usable s.assignments (s.restorablePredecessor a) := by
  have hq := hi.previous ha (by simp [hs])
  exact hi.skipRolledBack (hp.trans ha hs hq) (Nat.le_trans hq.rank_le (Nat.le_of_lt (List.lt_length_of_getElem? ha)))

theorem update {r : Option Nat} (hi : Inv original s) (ha : s.assignments[i]? = some a) (hc : a.caller ≠ .finished)
    (hprev : b.stage ≠ .committed → b.previousHandler = a.previousHandler)
    (hpend : b.caller ≠ .finished → b.stage = .pending)
    (hr : r = s.restoring ∧ b.stage ≠ .rolledBack ∨ s.restoring = none ∧ r = some i ∧ b.stage = .rolledBack) :
    Inv original ⟨s.assignments.set i b, s.exceptionHandler, r⟩ := by
  have hs : a.stage ≠ .rolledBack := by simp [hi.pending ha hc]
  exact {
    handler := by simpa only [List.length_set] using hi.handler.set ha hs
    previous := by
      intro k c hk hcs
      rcases List.getElem?_set_cases hk with ⟨rfl, rfl⟩ | ⟨_, hk⟩
      · exact hprev hcs ▸ (hi.previous ha (by simp [hi.pending ha hc])).set ha hs
      · exact (hi.previous hk hcs).set ha hs
    pending := List.forall_getElem?_set hpend hi.pending
    restored := by
      intro k c hh hk hcs
      rcases List.getElem?_set_cases hk with ⟨rfl, rfl⟩ | ⟨_, hk⟩
      · exact (hr.resolve_left fun h => h.2 hcs).2.1
      · have hj := hi.restored hh hk hcs
        exact (hr.resolve_right fun h => absurd (h.1.symm.trans hj) (by simp)).1.trans hj
    undone := by
      intro k c hrk hk
      rcases hr with ⟨rfl, _⟩ | ⟨_, rfl, hb⟩
      · rcases List.getElem?_set_cases hk with ⟨rfl, rfl⟩ | ⟨_, hk⟩
        · exact absurd (hi.undone hrk ha) hs
        · exact hi.undone hrk hk
      · rcases List.getElem?_set_cases hk with ⟨_, rfl⟩ | ⟨hne, _⟩
        · exact hb
        · exact absurd (Option.some.inj hrk).symm hne }

theorem configure (hi : Inv original s) (hr : s.restoring = none) (handler : α) :
    Inv original ⟨s.assignments ++ [⟨handler, .pending, s.exceptionHandler, .waiting⟩],
      some (.staged s.assignments.length), s.restoring⟩ := by
  exact {
    handler := .staged_length
    previous := by
      intro k c hk hcs
      rcases List.getElem?_concat_cases hk with hk | ⟨rfl, rfl⟩
      · exact (hi.previous hk hcs).append (Nat.le_of_lt (List.lt_length_of_getElem? hk))
      · exact hi.handler.append (Nat.le_refl _)
    pending := by
      intro k c hk hc
      rcases List.getElem?_concat_cases hk with hk | ⟨rfl, rfl⟩
      · exact hi.pending hk hc
      · rfl
    restored := by
      intro k c hh hk hcs
      cases hh
      rcases List.getElem?_concat_cases hk with hk | ⟨_, rfl⟩
      · exact absurd (List.lt_length_of_getElem? hk) (Nat.lt_irrefl _)
      · cases hcs
    undone := by
      intro k c hrk
      exact absurd (hr.symm.trans hrk) (by simp) }

theorem afterRestoring (hi : Inv original s) (hr : s.restoring = some i) :
    Precedes original s.assignments s.assignments.length (s.afterRestoring i) ∧
      Usable s.assignments (s.afterRestoring i) := by
  have hh := hi.handler
  have hu : ∀ {j : Nat} {a}, s.exceptionHandler = some (.staged j) → s.assignments[j]? = some a →
      a.stage = .rolledBack → j = i :=
    fun e ha hs => Option.some.inj ((hi.restored e ha hs).symm.trans hr)
  unfold BorrowedLoop.afterRestoring
  split
  case h_1 j a e ha =>
    split
    case isTrue hj =>
      subst hj
      exact hi.restorablePredecessor ha (hi.undone hr ha) (e ▸ hh)
    case isFalse hj =>
      refine ⟨e ▸ hh, fun e' hb hs => hj ?_⟩
      cases e'
      exact hu e hb hs
  case h_2 hne =>
    refine ⟨hh, fun e hb hs => ?_⟩
    cases hu e hb hs
    exact hne _ _ e hb

theorem step {e : HandlerEvent α} (hi : Inv original s) (h : s.step e = some t) : Inv original t := by
  cases step_moves h
  case configure handler hr => exact hi.configure hr handler
  case commit i a ha hc =>
    exact hi.update ha (by simp [hc]) (fun h => absurd rfl h) (fun h => absurd rfl h)
      (.inl ⟨rfl, by simp [StagedHandler.commit]⟩)
  case interrupt i a ha hc =>
    have hp := hi.pending ha (by simp [hc])
    exact hi.update ha (by simp [hc]) (fun _ => rfl) (fun _ => hp) (.inl ⟨rfl, by simp [StagedHandler.interrupt, hp]⟩)
  case rollback i a hr ha hc =>
    exact hi.update ha (by simp [hc]) (fun _ => rfl) (fun h => absurd rfl h) (.inr ⟨hr, rfl, rfl⟩)
  case restore i hr =>
    have ha := hi.afterRestoring hr
    exact ⟨ha.1, hi.previous, hi.pending, fun e hb hs => absurd hs (ha.2 e hb), fun h => absurd h (by simp)⟩

theorem reached (h : Machine.Reaches BorrowedLoop.step Machine.anyEvent (BorrowedLoop.initial original) s) :
    Inv original s :=
  h.invariant (I := Inv original) (fun hi _ e => hi.step e) .initial

theorem recipient (hi : Inv original s) :
    Precedes original s.assignments s.assignments.length s.recipient ∧ Usable s.assignments s.recipient := by
  have hh := hi.handler
  unfold BorrowedLoop.recipient
  split
  case h_1 i e =>
    rw [e] at hh
    split
    case h_1 a ha =>
      split
      case isTrue hs => exact hi.restorablePredecessor ha hs hh
      case isFalse hs =>
        refine ⟨hh, fun e hb => ?_⟩
        cases e
        exact Option.some.inj (ha.symm.trans hb) ▸ hs
    case h_2 hn =>
      refine ⟨hh, fun e hb => ?_⟩
      cases e
      exact absurd (hn.symm.trans hb) (by simp)
  case h_2 hne => exact ⟨hh, fun e => absurd e (hne _)⟩

end Inv

theorem Precedes.latest (hp : Precedes original s.assignments s.assignments.length h) (hu : Usable s.assignments h) :
    Latest (·.stage ≠ .rolledBack) s original h := by
  have above : ∀ {k : Nat} {b}, rank h ≤ k → s.assignments[k]? = some b → ¬b.stage ≠ .rolledBack :=
    fun hk hb => not_not_intro (hp.rolledBack hk (List.lt_length_of_getElem? hb) hb)
  rcases h with _ | _ | i
  case none => exact hp.original rfl ▸ .original (above (Nat.zero_le _))
  case some.foreign => exact hp.original rfl ▸ .original (above (Nat.zero_le _))
  case some.staged =>
    have ha := List.getElem?_eq_getElem (l := s.assignments) hp.rank_le
    exact .staged ha (hu rfl ha) above

theorem Latest.congr {p q : StagedHandler α → Prop} (hl : Latest p s original h)
    (hpq : ∀ {i : Nat} {a}, s.assignments[i]? = some a → (p a ↔ q a)) : Latest q s original h := by
  cases hl
  case staged i a ha hp hk => exact .staged ha ((hpq ha).mp hp) fun hik hb hq => hk hik hb ((hpq hb).mpr hq)
  case original hk => exact .original fun hb hq => hk hb ((hpq hb).mpr hq)

-- At every moment diagnostics go to the most recently installed assignment that is not rolled back, and when all
-- assignments are settled the loop's handler is the most recently installed one that was committed. If there is none,
-- it is the original handler.
theorem transactional (h : Machine.Reaches step Machine.anyEvent (initial original) s) :
    Latest (·.stage ≠ .rolledBack) s original s.recipient ∧
      (s.Settled → Latest (·.stage = .committed) s original s.exceptionHandler) := by
  have hi := Inv.reached h
  refine ⟨hi.recipient.1.latest hi.recipient.2, fun hs => ?_⟩
  have hu : Usable s.assignments s.exceptionHandler :=
    fun e ha hb => absurd (hs.restoring.symm.trans (hi.restored e ha hb)) (by simp)
  refine (hi.handler.latest hu).congr fun {i a} ha => ?_
  have hp := hs.assignments ha
  cases hst : a.stage <;> simp_all

theorem outOfOrder_transactional : let s : BorrowedLoop Nat :=
      { assignments := [⟨1, .committed, none, .finished⟩, ⟨2, .rolledBack, some (.staged 0), .finished⟩,
          ⟨3, .rolledBack, some (.staged 1), .finished⟩]
        exceptionHandler := some (.staged 0)
        restoring := none }
    Latest (·.stage ≠ .rolledBack) s (some 0) s.recipient ∧
      (s.Settled → Latest (·.stage = .committed) s (some 0) s.exceptionHandler) :=
  transactional <| .of_run (show Machine.run step (initial (some 0))
    [.configure 1, .configure 2, .commit 0, .configure 3, .interrupt 1, .rollback 1, .restore, .interrupt 2,
      .rollback 2, .restore] = _ from rfl)

end BorrowedLoop

end Aio
