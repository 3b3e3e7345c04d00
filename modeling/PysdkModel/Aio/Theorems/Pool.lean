import Mathlib.Algebra.Order.Group.Multiset
import Mathlib.Data.Finset.Card
import PysdkModel.Aio.Pool

-- Who owns a transport of the pool. A wrapper that is not retired stands for its transport, and there is at most
-- one of these for each transport.

namespace Aio

namespace Pool

variable {Address : Type} {max : Nat} {s t : Pool Address} {o : Op Address} {w w' l : Wrapper Address}
  {a : Address}

def Op.subject : Op Address → Option (Wrapper Address)
  | .creating _ => none
  | .popped w | .leasing w | .deferred w _ | .releasing w _ | .lost w | .deciding w _ _ | .returning w _ _
  | .closing w _ | .registering w => some w

def Op.getting : Op Address → Option (Wrapper Address)
  | .popped w | .leasing w => some w
  | _ => none

def Op.reserved : Op Address → Option (Wrapper Address)
  | .deciding w _ true | .returning w _ true | .closing w true => some w
  | _ => none

def Op.returned : Op Address → Option (Wrapper Address)
  | .deciding w _ _ | .returning w _ _ => some w
  | _ => none

def Op.lease : Op Address → Option (Wrapper Address)
  | .returning _ lease _ => lease
  | _ => none

def getting (s : Pool Address) : Multiset (Wrapper Address) := s.ops.filterMap Op.getting

def tracked (s : Pool Address) : Multiset (Wrapper Address) := s.free + s.handed + s.getting

def Live (s : Pool Address) (w : Wrapper Address) : Prop := w ∈ s.issued ∧ w ∉ s.retired

def Dead (s : Pool Address) (transport : Nat) : Prop := ∀ w, s.Live w → w.transport ≠ transport

theorem Op.subject_of_returned (h : o.returned = some w) : o.subject = some w := by
  cases o <;> simp_all [Op.returned, Op.subject]

theorem Op.subject_of_reserved (h : o.reserved = some w) : o.subject = some w := by
  unfold Op.reserved at h
  split at h <;> simp_all [Op.subject]

@[simp] theorem getting_push_of_none (h : o.getting = none) : (s.push o).getting = s.getting :=
  Multiset.filterMap_cons_none o s.ops h

@[simp] theorem getting_push_of_some (h : o.getting = some w) : (s.push o).getting = w ::ₘ s.getting :=
  Multiset.filterMap_cons_some Op.getting o s.ops h

theorem tracked_push_of_none (h : o.getting = none) : (s.push o).tracked = s.tracked := by
  simp only [tracked, getting_push_of_none h]
  rfl

theorem tracked_push_of_some (h : o.getting = some w) : (s.push o).tracked = w ::ₘ s.tracked := by
  simp only [tracked, getting_push_of_some h, Multiset.add_cons]
  rfl

theorem mem_tracked : w ∈ s.tracked ↔ w ∈ s.free ∨ w ∈ s.handed ∨ w ∈ s.getting := by
  simp [tracked, or_assoc]

theorem mem_push {o' : Op Address} : o' ∈ (s.push o).ops ↔ o' = o ∨ o' ∈ s.ops := Multiset.mem_cons

theorem forall_mem_push {p : Op Address → Prop} : (∀ o' ∈ (s.push o).ops, p o') ↔ p o ∧ ∀ o' ∈ s.ops, p o' :=
  Multiset.forall_mem_cons

theorem exists_mem_push {p : Op Address → Prop} : (∃ o' ∈ (s.push o).ops, p o') ↔ p o ∨ ∃ o' ∈ s.ops, p o' := by
  simp [mem_push]

theorem getting_le_push (s : Pool Address) (o : Op Address) : s.getting ≤ (s.push o).getting :=
  Multiset.filterMap_le_filterMap _ (Multiset.le_cons_self s.ops o)

theorem tracked_le_push (s : Pool Address) (o : Op Address) : s.tracked ≤ (s.push o).tracked :=
  add_le_add_right (getting_le_push s o) _

variable [DecidableEq Address]

structure Exclusive (max : Nat) (s : Pool Address) : Prop where
  nodup : s.tracked.Nodup
  known : ∀ w ∈ s.tracked, w ∈ s.issued
  fresh : ∀ w ∈ s.issued, w.id < s.nextWrapper ∧ w.transport < s.nextTransport
  retired : ∀ w ∈ s.retired, w ∈ s.issued
  free : ∀ w ∈ s.free, w ∉ s.retired
  gotten : ∀ w ∈ s.getting, w ∉ s.retired
  unique : ∀ w w', s.Live w → s.Live w' → w.transport = w'.transport → w = w'
  unscheduled : ∀ x ∈ s.scheduled, x < s.nextTransport ∧ s.Dead x
  leased : ∀ w ∈ s.leased, w ∈ s.handed ∧ (w ∈ s.retired → s.Dead w.transport)
  capacity : ∀ a, (s.freeAt a).length ≤ max
  pending : ∀ w ∈ s.pending, w ∈ s.retired ∧ w.transport ∈ s.scheduled
  busy : ∀ o ∈ s.ops, o.getting = none → ∀ w, o.subject = some w →
    w ∈ s.issued ∧ w ∉ s.free ∧ w ∉ s.getting
  returned : ∀ o ∈ s.ops, ∀ w, o.returned = some w → w ∉ s.leased
  reserved : ∀ o ∈ s.ops, ∀ w, o.reserved = some w → w ∈ s.retired ∧ s.Dead w.transport
  leases : (s.ops.filterMap Op.lease).Nodup
  lease : ∀ o ∈ s.ops, ∀ lease, o.lease = some lease → lease ∉ s.issued ∧ lease.id < s.nextWrapper ∧
    ∀ w, o.subject = some w → lease.transport = w.transport ∧ lease.address = w.address

theorem initial_exclusive : Exclusive max (initial : Pool Address) := by
  constructor <;> simp [initial, tracked, getting, Live, freeAt]

theorem push_pop (h : o ∈ s.ops) : (s.pop o).push o = s := by
  simp [push, pop, Multiset.cons_erase h]

namespace Exclusive

theorem of_push (h : Exclusive max (s.push o)) : Exclusive max s :=
  { h with
    nodup := Multiset.nodup_of_le (tracked_le_push s o) h.nodup
    known := fun w hw => h.known w (Multiset.mem_of_le (tracked_le_push s o) hw)
    gotten := fun w hw => h.gotten w (Multiset.mem_of_le (getting_le_push s o) hw)
    busy := fun o' ho hg w hw => by
      obtain ⟨h₁, h₂, h₃⟩ := h.busy o' (mem_push.mpr <| .inr ho) hg w hw
      exact ⟨h₁, h₂, fun hw => h₃ (Multiset.mem_of_le (getting_le_push s o) hw)⟩
    returned := (forall_mem_push.mp h.returned).2
    reserved := (forall_mem_push.mp h.reserved).2
    leases := Multiset.nodup_of_le (Multiset.filterMap_le_filterMap _ (Multiset.le_cons_self s.ops o)) h.leases
    lease := (forall_mem_push.mp h.lease).2 }

structure Admits (s : Pool Address) (o : Op Address) : Prop where
  busy : o.getting = none → ∀ w, o.subject = some w → w ∈ s.issued ∧ w ∉ s.free ∧ w ∉ s.getting
  gotten : ∀ w, o.getting = some w → w ∈ s.issued ∧ w ∉ s.retired ∧ w ∉ s.tracked ∧
    ∀ o' ∈ s.ops, o'.getting = none → o'.subject ≠ some w
  returned : ∀ w, o.returned = some w → w ∉ s.leased
  reserved : ∀ w, o.reserved = some w → w ∈ s.retired ∧ s.Dead w.transport
  lease : ∀ l, o.lease = some l → l ∉ s.issued ∧ l.id < s.nextWrapper ∧
    (∀ w, o.subject = some w → l.transport = w.transport ∧ l.address = w.address) ∧
    l ∉ s.ops.filterMap Op.lease

theorem push (h : Exclusive max s) (ho : Admits s o) : Exclusive max (s.push o) := by
  have hg : ∀ w, w ∈ (s.push o).getting → o.getting = some w ∨ w ∈ s.getting := by
    cases hg : o.getting with
    | none => simp [getting_push_of_none hg]
    | some v => simp [getting_push_of_some hg, eq_comm]
  exact {
    h with
    nodup := by
      cases hg : o.getting with
      | none => exact tracked_push_of_none (s := s) hg ▸ h.nodup
      | some w =>
        rw [tracked_push_of_some hg]
        exact Multiset.nodup_cons.mpr ⟨(ho.gotten w hg).2.2.1, h.nodup⟩
    known := by
      intro w hw
      cases hg : o.getting with
      | none => exact h.known w (tracked_push_of_none (s := s) hg ▸ hw)
      | some v =>
        rw [tracked_push_of_some hg] at hw
        exact Multiset.forall_mem_cons.mpr ⟨(ho.gotten v hg).1, h.known⟩ w hw
    gotten := fun w hw => (hg w hw).elim (fun hg => (ho.gotten w hg).2.1) (h.gotten w)
    busy := by
      refine forall_mem_push.mpr ⟨fun hn => getting_push_of_none (s := s) hn ▸ ho.busy hn, fun o' ho' hn w hw => ?_⟩
      obtain ⟨h₁, h₂, h₃⟩ := h.busy o' ho' hn w hw
      exact ⟨h₁, h₂, fun hw' => (hg w hw').elim (fun hg => (ho.gotten w hg).2.2.2 o' ho' hn hw) h₃⟩
    returned := forall_mem_push.mpr ⟨ho.returned, h.returned⟩
    reserved := forall_mem_push.mpr ⟨ho.reserved, h.reserved⟩
    leases := by
      cases hl : o.lease with
      | none =>
        have e : (s.push o).ops.filterMap Op.lease = s.ops.filterMap Op.lease :=
          Multiset.filterMap_cons_none o s.ops hl
        exact e ▸ h.leases
      | some l =>
        have e : (s.push o).ops.filterMap Op.lease = l ::ₘ s.ops.filterMap Op.lease :=
          Multiset.filterMap_cons_some Op.lease o s.ops hl
        exact e ▸ Multiset.nodup_cons.mpr ⟨(ho.lease l hl).2.2.2, h.leases⟩
    lease := by
      refine forall_mem_push.mpr ⟨fun l hl => ?_, h.lease⟩
      obtain ⟨h₁, h₂, h₃, -⟩ := ho.lease l hl
      exact ⟨h₁, h₂, h₃⟩ }

theorem admits (h : Exclusive max (s.push o)) : Admits s o where
  busy := fun hg w hw => by
    obtain ⟨h₁, h₂, h₃⟩ := (forall_mem_push.mp h.busy).1 hg w hw
    exact ⟨h₁, h₂, getting_push_of_none (s := s) hg ▸ h₃⟩
  gotten := fun w hg => by
    have hn := h.nodup
    have hk := h.known w
    have hr := h.gotten w
    rw [tracked_push_of_some hg] at hn hk
    rw [getting_push_of_some hg] at hr
    refine ⟨hk (Multiset.mem_cons_self ..), hr (Multiset.mem_cons_self ..), (Multiset.nodup_cons.mp hn).1, ?_⟩
    intro o' ho' hn' hw
    have := (h.busy o' (mem_push.mpr <| .inr ho') hn' w hw).2.2
    rw [getting_push_of_some hg] at this
    exact this (Multiset.mem_cons_self ..)
  returned := (forall_mem_push.mp h.returned).1
  reserved := (forall_mem_push.mp h.reserved).1
  lease := fun l hl => by
    obtain ⟨h₁, h₂, h₃⟩ := (forall_mem_push.mp h.lease).1 l hl
    have hn := h.leases
    have e : (s.push o).ops.filterMap Op.lease = l ::ₘ s.ops.filterMap Op.lease :=
      Multiset.filterMap_cons_some Op.lease o s.ops hl
    rw [e] at hn
    exact ⟨h₁, h₂, h₃, (Multiset.nodup_cons.mp hn).1⟩

theorem shrink (h : Exclusive max s) {free : List (Wrapper Address)}
    (hf : (free : Multiset (Wrapper Address)) ≤ (s.free : Multiset (Wrapper Address))) :
    Exclusive max { s with free := free } :=
  have hm {w} (hw : w ∈ free) : w ∈ s.free := Multiset.mem_of_le hf hw
  { h with
    nodup := Multiset.nodup_of_le (add_le_add_left (add_le_add_left hf _) _) h.nodup
    known := fun w hw => h.known w <| by
      simp only [mem_tracked] at hw ⊢
      exact hw.imp_left hm
    free := fun w hw => h.free w (hm hw)
    capacity := fun a => le_trans (Multiset.card_le_card (Multiset.filter_le_filter _ hf)) (h.capacity a)
    busy := fun o ho hg w hw => by
      obtain ⟨h₁, h₂, h₃⟩ := h.busy o ho hg w hw
      exact ⟨h₁, fun hw => h₂ (hm hw), h₃⟩ }

theorem live_of_retire (h : Live { s with retired := insert w s.retired } w') : s.Live w' :=
  ⟨h.1, fun hr => h.2 (Finset.mem_insert_of_mem hr)⟩

theorem dead_of_retire (h : Exclusive max s) (hw : s.Live w) :
    Dead { s with retired := insert w s.retired } w.transport := fun w' hw' e =>
  hw'.2 (h.unique w' w (live_of_retire hw') hw e ▸ Finset.mem_insert_self ..)

theorem retire (h : Exclusive max s) (hw : w ∈ s.issued) (hf : w ∉ s.free) (hg : w ∉ s.getting)
    (hl : w ∈ s.leased → w ∉ s.retired) : Exclusive max { s with retired := insert w s.retired } :=
  have hd {x} (hx : s.Dead x) : Dead { s with retired := insert w s.retired } x := fun w' hw' =>
    hx w' (live_of_retire hw')
  { h with
    retired := fun w' hw' => (Finset.mem_insert.mp hw').elim (· ▸ hw) (h.retired w')
    free := fun w' hw' hr => (Finset.mem_insert.mp hr).elim (fun e => hf (e ▸ hw')) (h.free w' hw')
    gotten := fun w' hw' hr => (Finset.mem_insert.mp hr).elim (fun e => hg (e ▸ hw')) (h.gotten w' hw')
    unique := fun w₁ w₂ h₁ h₂ => h.unique w₁ w₂ (live_of_retire h₁) (live_of_retire h₂)
    unscheduled := fun x hx => ⟨(h.unscheduled x hx).1, hd (h.unscheduled x hx).2⟩
    leased := fun w' hw' => ⟨(h.leased w' hw').1, fun hr => by
      rcases Finset.mem_insert.mp hr with rfl | hr
      · exact h.dead_of_retire ⟨hw, hl hw'⟩
      · exact hd ((h.leased w' hw').2 hr)⟩
    pending := fun w' hw' => ⟨Finset.mem_insert_of_mem (h.pending w' hw').1, (h.pending w' hw').2⟩
    reserved := fun o ho w' hw' =>
      ⟨Finset.mem_insert_of_mem (h.reserved o ho w' hw').1, hd (h.reserved o ho w' hw').2⟩ }

theorem schedule (h : Exclusive max s) {x : Nat} (hx : x < s.nextTransport) (hd : s.Dead x) :
    Exclusive max { s with scheduled := insert x s.scheduled } :=
  { h with
    unscheduled := (Finset.forall_mem_insert ..).mpr ⟨⟨hx, hd⟩, h.unscheduled⟩
    pending := fun w hw => ⟨(h.pending w hw).1, Finset.mem_insert_of_mem (h.pending w hw).2⟩ }

theorem push_busy (h : Exclusive max s) (hw : w ∈ s.issued ∧ w ∉ s.free ∧ w ∉ s.getting) (hs : o.subject = some w)
    (hg : o.getting = none) (hl : o.lease = none) (hn : o.returned = some w → w ∉ s.leased)
    (hr : o.reserved = some w → w ∈ s.retired ∧ s.Dead w.transport) : Exclusive max (s.push o) := by
  refine h.push ⟨fun _ w' hw' => ?busy, by simp [hg], fun w' hw' => ?returned, fun w' hw' => ?reserved, by simp [hl]⟩
  case busy =>
    cases hs.symm.trans hw'
    exact hw
  case returned =>
    cases hs.symm.trans (Op.subject_of_returned hw')
    exact hn hw'
  case reserved =>
    cases hs.symm.trans (Op.subject_of_reserved hw')
    exact hr hw'

theorem push_plain (h : Exclusive max s) (hw : w ∈ s.issued ∧ w ∉ s.free ∧ w ∉ s.getting) (hs : o.subject = some w)
    (hg : o.getting = none) (hn : o.returned = none) (hr : o.reserved = none) (hl : o.lease = none) :
    Exclusive max (s.push o) :=
  h.push_busy hw hs hg hl (by simp [hn]) (by simp [hr])

attribute [local simp] Op.reserved

theorem push_getting (h : Exclusive max s) (hg : o.getting = some w) (hw : s.Live w) (ht : w ∉ s.tracked)
    (ho : ∀ o' ∈ s.ops, o'.getting = none → o'.subject ≠ some w) : Exclusive max (s.push o) := by
  refine h.push ⟨by simp [hg], fun w' hw' => ?_, ?_, ?_, ?_⟩
  case refine_1 =>
    cases hg.symm.trans hw'
    exact ⟨hw.1, hw.2, ht, ho⟩
  all_goals cases o <;> simp_all [Op.getting, Op.returned, Op.lease]

theorem scheduleAddressChannelClose {r : Bool} (h : Exclusive max (s.push (.closing w r))) :
    Exclusive max (s.scheduleAddressChannelClose w r) := by
  have ha := h.admits
  replace h := h.of_push
  obtain ⟨hi, hf, hg⟩ := ha.busy rfl w rfl
  unfold Pool.scheduleAddressChannelClose
  split
  case isTrue => exact h
  case isFalse hr =>
    have hfree : s.free.filter (· ≠ w) = s.free :=
      List.filter_eq_self.mpr fun w' hw' => by
        simp only [ne_eq, decide_not, Bool.not_eq_eq_eq_not, Bool.not_true, decide_eq_false_iff_not]
        exact fun e => hf (e ▸ hw')
    rw [hfree]
    have hd : Dead { s with retired := insert w s.retired } w.transport := by
      cases r with
      | true =>
        obtain ⟨hr, hd⟩ := ha.reserved w rfl
        rwa [Finset.insert_eq_of_mem hr]
      | false => exact h.dead_of_retire ⟨hi, by simpa using hr⟩
    have h₁ : Exclusive max { s with retired := insert w s.retired } := by
      by_cases hr : w ∈ s.retired
      · rwa [Finset.insert_eq_of_mem hr]
      · exact h.retire hi hf hg fun _ => hr
    have h₂ := h₁.schedule (h.fresh w hi).2 hd
    exact h₂.push_plain ⟨hi, hf, hg⟩ rfl rfl rfl rfl rfl

theorem skip (h : Exclusive max s) {m n : Nat} (hm : s.nextWrapper ≤ m) (hn : s.nextTransport ≤ n) :
    Exclusive max { s with nextWrapper := m, nextTransport := n } :=
  { h with
    fresh := fun w hw => ⟨(h.fresh w hw).1.trans_le hm, (h.fresh w hw).2.trans_le hn⟩
    unscheduled := fun x hx => ⟨(h.unscheduled x hx).1.trans_le hn, (h.unscheduled x hx).2⟩
    lease := fun o ho l hl => by
      obtain ⟨h₁, h₂, h₃⟩ := h.lease o ho l hl
      exact ⟨h₁, h₂.trans_le hm, h₃⟩ }

theorem issue (h : Exclusive max s) (hi : l ∉ s.issued) (hf : l.id < s.nextWrapper ∧ l.transport < s.nextTransport)
    (hd : s.Dead l.transport) (hs : l.transport ∉ s.scheduled)
    (hr : ∀ w ∈ s.retired, w.transport = l.transport → w ∉ s.leased ∧ ∀ o ∈ s.ops, o.reserved ≠ some w)
    (hn : l ∉ s.ops.filterMap Op.lease) : Exclusive max { s with issued := insert l s.issued } := by
  -- the other dead transports stay dead
  have dead {x : Nat} (hx : s.Dead x) (hne : l.transport ≠ x) : Dead { s with issued := insert l s.issued } x := by
    intro w hw
    rcases Finset.mem_insert.mp hw.1 with rfl | hi
    · exact hne
    · exact hx w ⟨hi, hw.2⟩
  exact { h with
    known := fun w hw => Finset.mem_insert_of_mem (h.known w hw)
    fresh := (Finset.forall_mem_insert ..).mpr ⟨hf, h.fresh⟩
    retired := fun w hw => Finset.mem_insert_of_mem (h.retired w hw)
    unique := fun w w' hw hw' e => by
      rcases Finset.mem_insert.mp hw.1 with rfl | hm <;> rcases Finset.mem_insert.mp hw'.1 with rfl | hm'
      case inl.inl => rfl
      case inl.inr => exact absurd e.symm (hd w' ⟨hm', hw'.2⟩)
      case inr.inl => exact absurd e (hd w ⟨hm, hw.2⟩)
      case inr.inr => exact h.unique w w' ⟨hm, hw.2⟩ ⟨hm', hw'.2⟩ e
    unscheduled := fun x hx => ⟨(h.unscheduled x hx).1, dead (h.unscheduled x hx).2 fun e => hs (e ▸ hx)⟩
    leased := fun w hw => ⟨(h.leased w hw).1, fun hw' =>
      dead ((h.leased w hw).2 hw') fun e => (hr w hw' e.symm).1 hw⟩
    busy := fun o ho hg w hw => by
      obtain ⟨h₁, h₂, h₃⟩ := h.busy o ho hg w hw
      exact ⟨Finset.mem_insert_of_mem h₁, h₂, h₃⟩
    reserved := fun o ho w hw => by
      obtain ⟨h₁, h₂⟩ := h.reserved o ho w hw
      exact ⟨h₁, dead h₂ fun e => (hr w h₁ e.symm).2 o ho hw⟩
    lease := fun o ho l' hl => by
      obtain ⟨h₁, h₂, h₃⟩ := h.lease o ho l' hl
      refine ⟨fun hi => ?_, h₂, h₃⟩
      rcases Finset.mem_insert.mp hi with rfl | hi
      · exact hn ((Multiset.mem_filterMap _ _).mpr ⟨o, ho, hl⟩)
      · exact h₁ hi }

theorem notMem_lease_of_nextWrapper_le (h : Exclusive max s) (hl : s.nextWrapper ≤ l.id) :
    l ∉ s.ops.filterMap Op.lease := by
  intro hm
  obtain ⟨o, ho, e⟩ := (Multiset.mem_filterMap _ _).mp hm
  exact absurd (h.lease o ho l e).2.1 hl.not_gt

theorem createAddressChannel {a : Address} (h : Exclusive max s) (onSdkLoop : Bool) :
    Exclusive max (s.createAddressChannel a onSdkLoop) := by
  have hn : (⟨s.nextWrapper, s.nextTransport, a, onSdkLoop⟩ : Wrapper Address) ∉ s.issued := fun hi =>
    absurd (h.fresh _ hi).1 (lt_irrefl _)
  have ht {w} (hw : w ∈ s.issued) : w.transport ≠ s.nextTransport := (h.fresh w hw).2.ne
  have h₁ := (h.skip (Nat.le_succ _) (Nat.le_succ _)).issue hn ⟨Nat.lt_succ_self _, Nat.lt_succ_self _⟩
    (fun w hw => ht hw.1) (fun hx => absurd (h.unscheduled _ hx).1 (lt_irrefl _))
    (fun w hw e => absurd e (ht (h.retired w hw))) (h.notMem_lease_of_nextWrapper_le le_rfl)
  exact h₁.push_getting rfl ⟨Finset.mem_insert_self .., fun hr => hn (h.retired _ hr)⟩ (fun ht => hn (h.known _ ht))
    fun o ho hg hs => hn (h.busy o ho hg _ hs).1

theorem checkState (h : Exclusive max (s.push (.popped w))) (shutdown : Bool) :
    Exclusive max (s.checkState w shutdown) := by
  obtain ⟨hi, hr, ht, ho⟩ := h.admits.gotten w rfl
  replace h := h.of_push
  unfold Pool.checkState
  cases shutdown with
  | true =>
    refine h.push_plain (w := w) ⟨hi, fun hf => ht ?_, fun hg => ht ?_⟩ rfl rfl rfl rfl rfl
    case refine_1 => exact mem_tracked.mpr <| .inl hf
    case refine_2 => exact mem_tracked.mpr <| .inr <| .inr hg
  | false => exact h.push_getting rfl ⟨hi, hr⟩ ht ho

theorem leaseAddressChannel (h : Exclusive max (s.push (.leasing w))) : Exclusive max (s.leaseAddressChannel w) := by
  obtain ⟨hi, hr, ht, ho⟩ := h.admits.gotten w rfl
  have hn := h.nodup
  have hk := h.known
  rw [tracked_push_of_some rfl] at hn hk
  replace h := h.of_push
  have hm : w ∉ s.free ∧ w ∉ s.handed ∧ w ∉ s.getting := by simpa [mem_tracked] using ht
  unfold Pool.leaseAddressChannel
  split
  case isTrue => exact h.push_plain ⟨hi, hm.1, hm.2.2⟩ rfl rfl rfl rfl rfl
  have e : tracked { s with leased := insert w s.leased, handed := w ::ₘ s.handed } = w ::ₘ s.tracked := by
    simp only [tracked, getting, Multiset.add_cons, Multiset.cons_add]
  exact { h with
    nodup := e ▸ hn
    known := e ▸ hk
    leased := fun w' hw' => by
      rcases Finset.mem_insert.mp hw' with rfl | hw'
      · exact ⟨Multiset.mem_cons_self .., fun hr' => absurd hr' hr⟩
      · exact ⟨Multiset.mem_cons_of_mem (h.leased w' hw').1, (h.leased w' hw').2⟩
    returned := fun o ho' w' hw' hl => by
      rcases Finset.mem_insert.mp hl with rfl | hl
      · refine ho o ho' ?_ ?_ <;> cases o <;> simp_all [Op.returned, Op.getting, Op.subject]
      · exact h.returned o ho' w' hw' hl }

theorem unlease (h : Exclusive max s) {leased : Finset (Wrapper Address)} (hl : leased ⊆ s.leased) :
    Exclusive max { s with leased := leased } :=
  { h with
    leased := fun w hw => h.leased w (hl hw)
    returned := fun o ho w hw hw' => h.returned o ho w hw (hl hw') }

theorem releaseClosed (h : Exclusive max s) (hw : w ∈ s.issued ∧ w ∉ s.free ∧ w ∉ s.getting) :
    Exclusive max (s.releaseClosed w) := by
  have hl : (if s.snapshot.isSome then s.leased.erase w else s.leased) ⊆ s.leased := by
    split
    · exact Finset.erase_subset ..
    · exact Finset.Subset.refl _
  by_cases hm : w ∈ s.leased
  · simp only [Pool.releaseClosed, if_pos hm]
    exact h.unlease hl
  · simp only [Pool.releaseClosed, if_neg hm]
    exact (h.unlease hl).push_plain (o := .lost w) hw rfl rfl rfl rfl rfl

theorem releaseAddressChannel {discard : Bool} (h : Exclusive max (s.push (.releasing w discard))) :
    Exclusive max (s.releaseAddressChannel w discard) := by
  obtain ⟨hi, hf, hg⟩ := h.admits.busy rfl w rfl
  replace h := h.of_push
  unfold Pool.releaseAddressChannel
  split
  case isTrue => exact h.releaseClosed ⟨hi, hf, hg⟩
  have h₁ := h.unlease (Finset.erase_subset w s.leased)
  have hl : w ∉ s.leased.erase w := Finset.notMem_erase w s.leased
  cases discard with
  | false => exact h₁.push_busy (w := w) ⟨hi, hf, hg⟩ rfl rfl rfl (fun _ => hl) (by simp)
  | true =>
    have h₂ := h₁.retire hi hf hg fun hm => absurd hm hl
    refine h₂.push_busy (w := w) ⟨hi, hf, hg⟩ rfl rfl rfl (fun _ => hl) fun hw => ?_
    have hr : w ∉ s.retired := fun hr => by simp [hr] at hw
    exact ⟨Finset.mem_insert_self .., h₁.dead_of_retire ⟨hi, hr⟩⟩

theorem releaseLost (h : Exclusive max (s.push (.lost w))) : Exclusive max (s.releaseLost w) := by
  have hw := h.admits.busy rfl w rfl
  replace h := h.of_push
  unfold Pool.releaseLost
  split
  · exact h
  · exact h.push_plain hw rfl rfl rfl rfl rfl

theorem newLease {discard reserved : Bool} (h : Exclusive max (s.push (.deciding w discard reserved)))
    (c : Choice) : Exclusive max (s.newLease w discard reserved c) := by
  have ha := h.admits
  obtain ⟨hi, hf, hg⟩ := ha.busy rfl w rfl
  replace h := h.of_push
  have h₁ := h.skip (Nat.le_succ s.nextWrapper) le_rfl
  refine h₁.push ⟨fun _ w' hw' => ?_, by simp [Op.getting], fun w' hw' => ha.returned w' hw', fun w' hw' => ?_,
    fun l hl => ?_⟩
  case refine_1 =>
    cases hw'
    exact ⟨hi, hf, hg⟩
  case refine_2 =>
    refine ha.reserved w' ?_
    cases reserved with
    | true => exact hw'
    | false => simp at hw'
  case refine_3 =>
    simp only [Op.lease, Option.ite_none_right_eq_some, Option.some.injEq] at hl
    obtain ⟨-, rfl⟩ := hl
    refine ⟨fun hi => absurd (h.fresh _ hi).1 (lt_irrefl _), Nat.lt_succ_self _, fun w' hw' => ?_,
      h.notMem_lease_of_nextWrapper_le le_rfl⟩
    cases hw'
    exact ⟨rfl, rfl⟩

theorem keep (h : Exclusive max s) (hl : s.Live l) (ht : l ∉ s.tracked)
    (ho : ∀ o ∈ s.ops, o.getting = none → o.subject ≠ some l) (hc : (s.freeAt l.address).length < max) :
    Exclusive max { s with free := s.free ++ [l] } := by
  have htr : tracked { s with free := s.free ++ [l] } = l ::ₘ s.tracked := by
    simp only [tracked, getting, ← Multiset.coe_add, Multiset.coe_singleton]
    rw [Multiset.add_comm _ {l}, Multiset.singleton_add, Multiset.cons_add, Multiset.cons_add]
  have hm {w} (hw : w ∈ s.free ++ [l]) : w ∈ s.free ∨ w = l := by simpa using hw
  exact { h with
    nodup := htr ▸ Multiset.nodup_cons.mpr ⟨ht, h.nodup⟩
    known := htr ▸ Multiset.forall_mem_cons.mpr ⟨hl.1, h.known⟩
    free := fun w hw => (hm hw).elim (h.free w) (· ▸ hl.2)
    capacity := fun a => by
      have hca := h.capacity a
      simp only [freeAt, List.filter_append, List.length_append] at hca hc ⊢
      by_cases hla : l.address = a
      · subst hla
        have : ([l].filter (·.address = l.address)).length ≤ 1 := List.length_filter_le ..
        omega
      · simpa [hla] using hca
    busy := fun o ho' hg w hw => by
      obtain ⟨h₁, h₂, h₃⟩ := h.busy o ho' hg w hw
      exact ⟨h₁, fun hw' => (hm hw').elim h₂ fun e => ho o ho' hg (e ▸ hw), h₃⟩ }

theorem replace (h : Exclusive max s) (hw : s.Live w) (hf : w ∉ s.free) (hg : w ∉ s.getting) (hl : w ∉ s.leased)
    (hi : l ∉ s.issued) (hid : l.id < s.nextWrapper) (ht : l.transport = w.transport) (ha : l.address = w.address)
    (hc : (s.freeAt w.address).length < max) (hn : l ∉ s.ops.filterMap Op.lease) :
    Exclusive max { s with retired := insert w s.retired, free := s.free ++ [l], issued := insert l s.issued } := by
  have h₁ := h.retire hw.1 hf hg fun hl' => absurd hl' hl
  have h₂ := h₁.issue hi ⟨hid, ht ▸ (h.fresh w hw.1).2⟩ (ht ▸ h.dead_of_retire hw)
    (fun hx => (h.unscheduled _ hx).2 w hw ht.symm) (fun w' hw' e => ?_) hn
  case refine_1 =>
    have e : w.transport = w'.transport := ht.symm.trans e.symm
    rcases Finset.mem_insert.mp hw' with rfl | hw'
    · exact ⟨hl, fun o ho hr => hw.2 (h.reserved o ho w' hr).1⟩
    · exact ⟨fun hl => (h.leased w' hl).2 hw' w hw e, fun o ho hr => (h.reserved o ho w' hr).2 w hw e⟩
  refine h₂.keep ⟨Finset.mem_insert_self .., fun hr => ?_⟩ (fun hm => hi (h.known l hm))
    (fun o ho hg hs => hi (h.busy o ho hg l hs).1) (ha ▸ hc)
  exact hi ((Finset.mem_insert.mp hr).elim (· ▸ hw.1) (h.retired l))

theorem returnLease {lease : Option (Wrapper Address)} {reserved : Bool}
    (h : Exclusive max (s.push (.returning w lease reserved))) :
    Exclusive max (returnLease max s w lease reserved) := by
  have ha := h.admits
  have hw := ha.busy rfl w rfl
  replace h := h.of_push
  have close : Exclusive max (s.push (.closing w reserved)) := by
    refine h.push_busy hw rfl rfl rfl (by simp [Op.returned]) fun hr => ha.reserved w ?_
    cases reserved with
    | true => exact hr
    | false => simp at hr
  unfold Pool.returnLease
  cases lease with
  | none => exact close
  | some l =>
    dsimp only
    split
    case isTrue => exact close
    case isFalse hc =>
      simp only [not_or] at hc
      split
      case isTrue => exact h
      split
      case isTrue hlen =>
        obtain ⟨h₁, h₂, h₃, h₄⟩ := ha.lease l rfl
        exact h.replace ⟨hw.1, hc.2.2.2⟩ hw.2.1 hw.2.2 (ha.returned w rfl) h₁ h₂ (h₃ w rfl).1 (h₃ w rfl).2 hlen h₄
      case isFalse => exact close

theorem perm_of_find (h : s.free.reverse.find? (fits a) = some w) :
    s.free.Perm (w :: (s.free.reverse.eraseP (fits a)).reverse) := by
  obtain ⟨hw, l₁, l₂, e, hn⟩ := List.find?_eq_some_iff_append.mp h
  have hn : ∀ w ∈ l₁, ¬ fits a w = true := fun w hw => by simpa using hn w hw
  have he : s.free.reverse.eraseP (fits a) = l₁ ++ l₂ := by
    rw [e, List.eraseP_append_right _ hn, List.eraseP_cons_of_pos hw]
  have hp : s.free.reverse.Perm (w :: s.free.reverse.eraseP (fits a)) := by
    rw [he, e]
    exact List.perm_middle
  exact (List.reverse_perm _).symm.trans <| hp.trans <| (List.reverse_perm _).symm.cons w

theorem get (h : Exclusive max s) (a : Address) : Exclusive max (s.get a) := by
  unfold Pool.get
  split
  case isTrue => exact h
  split
  case h_1 w hw =>
    have hp := Multiset.coe_eq_coe.mpr (perm_of_find hw)
    rw [← Multiset.cons_coe] at hp
    have hm : w ∈ s.free := by simpa using List.mem_of_find?_eq_some hw
    have hn := h.nodup
    have ht : s.tracked = w ::ₘ tracked { s with free := (s.free.reverse.eraseP (fits a)).reverse } := by
      simp only [tracked, hp, Multiset.cons_add]
      rfl
    rw [ht] at hn
    exact (h.shrink (hp ▸ Multiset.le_cons_self _ w)).push_getting rfl
      ⟨h.known w (mem_tracked.mpr <| .inl hm), h.free w hm⟩ (Multiset.nodup_cons.mp hn).1
      fun o ho hg hs => (h.busy o ho hg w hs).2.1 hm
  case h_2 =>
    exact h.push ⟨by simp [Op.subject], by simp [Op.getting], by simp [Op.returned], by simp,
      by simp [Op.lease]⟩

theorem of_handed (h : Exclusive max s) (hw : w ∈ s.handed) : w ∈ s.issued ∧ w ∉ s.free ∧ w ∉ s.getting := by
  have hn := h.nodup
  simp only [tracked, Multiset.nodup_add, Multiset.disjoint_left, Multiset.mem_add, Multiset.mem_coe] at hn
  exact ⟨h.known w (mem_tracked.mpr <| .inr <| .inl hw), fun hf => hn.1.2.2 hf hw, fun hg => hn.2.2 (.inr hw) hg⟩

theorem releaseChannelOnSdkLoop (h : Exclusive max s) (hw : w ∈ s.handed) (discard : Bool) :
    Exclusive max (s.releaseChannelOnSdkLoop w discard) := by
  unfold Pool.releaseChannelOnSdkLoop
  split
  · exact h.releaseClosed (h.of_handed hw)
  · exact h.push_plain (h.of_handed hw) rfl rfl rfl rfl rfl

theorem releaseChannelSoon (h : Exclusive max s) (hw : w ∈ s.handed) (discard : Bool) :
    Exclusive max (s.releaseChannelSoon w discard) := by
  unfold Pool.releaseChannelSoon
  split <;> exact h.push_plain (h.of_handed hw) rfl rfl rfl rfl rfl

theorem takeSnapshot (h : Exclusive max s) : Exclusive max s.takeSnapshot := by
  have hmem {w} : w ∈ s.free.toFinset ∪ s.leased ↔ w ∈ s.free ∨ w ∈ s.leased := by simp
  have hlive {w} (hw : Live s.takeSnapshot w) : s.Live w ∧ ¬ (w ∈ s.free ∨ w ∈ s.leased) := by
    obtain ⟨hi, hr⟩ := hw
    simp only [Pool.takeSnapshot, Finset.mem_union, not_or] at hi hr
    exact ⟨⟨hi, hr.1⟩, fun hc => hc.elim (fun hf => hr.2.1 (by simpa using hf)) hr.2.2⟩
  have hd {x} (hd : s.Dead x) : Dead s.takeSnapshot x := fun w hw => hd w (hlive hw).1
  have hc {w} (hw : w ∈ s.free ∨ w ∈ s.leased) : w ∈ s.issued ∧ Dead s.takeSnapshot w.transport := by
    have hi : w ∈ s.issued := by
      refine h.known w (mem_tracked.mpr ?_)
      exact hw.imp_right fun hw => .inl (h.leased w hw).1
    refine ⟨hi, fun w' hw' e => ?_⟩
    by_cases hr : w ∈ s.retired
    · refine hw.elim (fun hw => h.free w hw hr) fun hw => ?_
      exact (h.leased w hw).2 hr w' (hlive hw').1 e
    · exact (hlive hw').2 (h.unique w' w (hlive hw').1 ⟨hi, hr⟩ e ▸ hw)
  have hr {w} (hw : w ∈ s.retired) : w ∈ s.takeSnapshot.retired := Finset.mem_union_left _ hw
  have hle : s.takeSnapshot.tracked ≤ s.tracked := by
    simp only [tracked, Pool.takeSnapshot, Multiset.coe_nil, Multiset.zero_add]
    exact add_le_add_left (Multiset.le_add_left ..) _
  exact {
    h with
    nodup := Multiset.nodup_of_le hle h.nodup
    known := fun w hw => h.known w (Multiset.mem_of_le hle hw)
    retired := fun w hw => (Finset.mem_union.mp hw).elim (h.retired w) fun hw => (hc (hmem.mp hw)).1
    free := by simp [Pool.takeSnapshot]
    gotten := fun w hw hr => by
      rcases Finset.mem_union.mp hr with hr | hr
      · exact h.gotten w hw hr
      · have hn := h.nodup
        simp only [tracked, Multiset.nodup_add, Multiset.disjoint_left, Multiset.mem_add, Multiset.mem_coe] at hn
        exact hn.2.2 ((hmem.mp hr).imp_right fun hl => (h.leased w hl).1) hw
    unique := fun w w' hw hw' => h.unique w w' (hlive hw).1 (hlive hw').1
    unscheduled := fun x hx => by
      rcases Finset.mem_union.mp hx with hx | hx
      · exact ⟨(h.unscheduled x hx).1, hd (h.unscheduled x hx).2⟩
      · obtain ⟨w, hw, rfl⟩ := Finset.mem_image.mp hx
        obtain ⟨hi, hdw⟩ := hc (hmem.mp hw)
        exact ⟨(h.fresh w hi).2, hdw⟩
    leased := fun w hw => ⟨(h.leased w hw).1, fun _ => (hc (.inr hw)).2⟩
    capacity := fun a => by simp [freeAt, Pool.takeSnapshot]
    pending := fun w hw => by
      have hw : w ∈ s.free.toFinset ∪ s.leased := hw
      exact ⟨Finset.mem_union_right _ hw, Finset.mem_union_right _ (Finset.mem_image_of_mem _ hw)⟩
    busy := fun o ho hg w hw => by
      obtain ⟨h₁, -, h₃⟩ := h.busy o ho hg w hw
      exact ⟨h₁, by simp [Pool.takeSnapshot], h₃⟩
    reserved := fun o ho w hw => by
      obtain ⟨h₁, h₂⟩ := h.reserved o ho w hw
      exact ⟨hr h₁, hd h₂⟩ }

theorem closeSnapshot (h : Exclusive max s) (hw : w ∈ s.pending) : Exclusive max (s.closeSnapshot w) := by
  obtain ⟨hr, hx⟩ := h.pending w hw
  have hp {w'} (hw' : w' ∈ s.pending.erase w) : w' ∈ s.pending := Multiset.mem_of_mem_erase hw'
  unfold Pool.closeSnapshot
  split
  case isTrue => exact { h with pending := fun w' hw' => h.pending w' (hp hw') }
  have h₁ : Exclusive max { s with pending := s.pending.erase w } :=
    { h with pending := fun w' hw' => h.pending w' (hp hw') }
  exact h₁.push_busy ⟨h.retired w hr, fun hf => h.free w hf hr, fun hg => h.gotten w hg hr⟩ rfl rfl rfl
    (by simp [Op.returned]) fun _ => ⟨hr, (h.unscheduled _ hx).2⟩

theorem advance (h : Exclusive max (s.push o)) (c : Choice) : Exclusive max (advance max s c o) := by
  cases o with
  | creating a => exact h.of_push.createAddressChannel c.onSdkLoop
  | popped w => exact h.checkState c.shutdown
  | leasing w => exact h.leaseAddressChannel
  | deferred w discard =>
    exact h.of_push.push_plain (h.admits.busy rfl w rfl) rfl rfl rfl rfl rfl
  | releasing w discard => exact h.releaseAddressChannel
  | lost w => exact h.releaseLost
  | deciding w discard reserved => exact h.newLease c
  | returning w lease reserved => exact h.returnLease
  | closing w alreadyRetired => exact h.scheduleAddressChannelClose
  | registering w =>
    have h := h.of_push
    show Exclusive max (s.registerClose w c.ownerRuns)
    unfold Pool.registerClose
    repeat' split
    all_goals exact { h with }

end Exclusive

-- The condition on a run: a deferred release that was accepted is also started.
def Started (_ : Pool Address) : Event Address → Prop
  | .abandon _ _ => False
  | _ => True

instance (s : Pool Address) (a : Event Address) : Decidable (Started s a) :=
  match a with
  | .abandon _ _ => .isFalse id
  | .get _ | .release .. | .releaseSoon .. | .advance .. | .reject .. | .beginClose | .stopAccepting | .takeSnapshot
  | .closeSnapshot _ | .finishCleaning _ | .startClose _ | .rejectClose _ | .finishClose _ | .forget | .complete =>
    .isTrue trivial

-- A deferred release that has not started does not close a wrapper which somebody else has retired.
def Benign (s : Pool Address) : Event Address → Prop
  | .abandon w _ => w ∈ s.marked ∨ w ∉ s.retired
  | _ => True

omit [DecidableEq Address] in
theorem Started.benign {a : Event Address} (h : Started s a) : Benign s a := by
  cases a with
  | abandon => exact h.elim
  | _ => trivial

theorem Exclusive.step {a : Event Address} (h : Exclusive max s) (ha : Benign s a) (e : step max s a = some t) :
    Exclusive max t := by
  cases a <;> simp only [Pool.step, Option.ite_none_right_eq_some, Option.some.injEq] at e
  case get a => exact e ▸ h.get a
  case release w discard => exact e.2 ▸ h.releaseChannelOnSdkLoop e.1 discard
  case releaseSoon w discard => exact e.2 ▸ h.releaseChannelSoon e.1 discard
  case advance o c =>
    rw [← push_pop e.1] at h
    exact e.2 ▸ h.advance c
  case reject w discard =>
    rw [← push_pop e.1] at h
    exact e.2 ▸ h.of_push
  case abandon w discard =>
    rw [← push_pop e.1] at h
    have hw := h.admits.busy rfl w rfl
    replace h := h.of_push
    rw [← e.2]
    unfold finishUnstarted
    split
    case isTrue => exact h
    case isFalse hm =>
      have hr : w ∉ (s.pop (.deferred w discard)).retired := ha.resolve_left hm
      rw [decide_eq_false hr]
      exact h.push_plain hw rfl rfl rfl rfl rfl
  case beginClose => exact e ▸ { h with }
  case stopAccepting => exact e ▸ { h with }
  case takeSnapshot => exact e.2 ▸ h.takeSnapshot
  case closeSnapshot w => exact e.2 ▸ h.closeSnapshot e.1
  case finishCleaning w => exact e.2 ▸ { h with }
  case startClose w => exact e.2 ▸ { h with }
  case rejectClose w => exact e.2 ▸ { h with }
  case finishClose w => exact e.2 ▸ { h with }
  case forget =>
    split at e
    case h_1 channels hc =>
      simp only [Machine.guard_iff] at e
      exact e.2 ▸ { h.unlease (Finset.sdiff_subset (s := s.leased) (t := channels)) with }
    case h_2 => simp at e
  case complete => exact e.2 ▸ { h with }

theorem reaches_exclusive (r : Machine.Reaches (step max) Started (initial : Pool Address) s) : Exclusive max s :=
  r.invariant (I := Exclusive max) (fun h ha => h.step ha.benign) initial_exclusive

def checkedOut (s : Pool Address) (transport : Nat) : Multiset (Wrapper Address) :=
  (s.handed + s.getting).filter fun w => w ∉ s.retired ∧ w.transport = transport

theorem Exclusive.owners (h : Exclusive max s) (x : Nat) :
    (s.free.filter (·.transport = x)).length + (s.checkedOut x).card + (if x ∈ s.scheduled then 1 else 0) ≤ 1 := by
  have e : (s.free.filter (·.transport = x)).length + (s.checkedOut x).card =
      (s.tracked.filter fun w => w ∉ s.retired ∧ w.transport = x).card := by
    have hf : s.free.filter (fun w => decide (w.transport = x)) =
        s.free.filter fun w => decide (w ∉ s.retired ∧ w.transport = x) :=
      List.filter_congr fun w hw => by simp [h.free w hw]
    rw [hf, tracked, Multiset.add_assoc, Multiset.filter_add, Multiset.card_add]
    rfl
  have hlive {w} (hw : w ∈ s.tracked.filter fun w => w ∉ s.retired ∧ w.transport = x) :
      s.Live w ∧ w.transport = x := by
    obtain ⟨hw, hr, hx⟩ := Multiset.mem_filter.mp hw
    exact ⟨⟨h.known w hw, hr⟩, hx⟩
  rw [e]
  split
  case isTrue hx =>
    have : (s.tracked.filter fun w => w ∉ s.retired ∧ w.transport = x) = 0 :=
      Multiset.eq_zero_of_forall_notMem fun w hw => (h.unscheduled x hx).2 w (hlive hw).1 (hlive hw).2
    simp [this]
  -- all of them are the same wrapper, and no wrapper is tracked twice
  refine Finset.card_le_one (s := ⟨_, h.nodup.filter _⟩).mpr fun w hw w' hw' => ?_
  exact h.unique w w' (hlive hw).1 (hlive hw').1 ((hlive hw).2.trans (hlive hw').2.symm)

def Event.releases : Event Address → Option (Wrapper Address)
  | .release w _ | .releaseSoon w _ | .reject w _ | .abandon w _ => some w
  | .advance o _ => if o.getting = none then o.subject else none
  | _ => none

structure Untouched (s t : Pool Address) (w : Wrapper Address) : Prop where
  issued : w ∈ s.issued → w ∈ t.issued
  free : w ∈ t.free ↔ w ∈ s.free
  leased : w ∈ t.leased ↔ w ∈ s.leased
  retired : w ∈ t.retired ↔ w ∈ s.retired

namespace Untouched

omit [DecidableEq Address] in
theorem refl (s : Pool Address) (w : Wrapper Address) : Untouched s s w := ⟨id, .rfl, .rfl, .rfl⟩

omit [DecidableEq Address] in
theorem push (s : Pool Address) (o : Op Address) : Untouched s (s.push o) w := ⟨id, .rfl, .rfl, .rfl⟩

theorem releaseClosed (hn : w' ≠ w) : Untouched s (s.releaseClosed w) w' where
  issued := id
  free := .rfl
  leased := by
    simp only [Pool.releaseClosed]
    split <;> simp [hn]
  retired := .rfl

theorem releaseAddressChannel (hn : w' ≠ w) (discard : Bool) : Untouched s (s.releaseAddressChannel w discard) w' := by
  unfold Pool.releaseAddressChannel
  split
  · exact releaseClosed hn
  · constructor <;> cases discard <;> simp [hn]

theorem returnLease {lease : Option (Wrapper Address)} {reserved : Bool}
    (h : Exclusive max (s.push (.returning w lease reserved))) (hi : w' ∈ s.issued) (hn : w' ≠ w) :
    Untouched s (returnLease max s w lease reserved) w' := by
  unfold Pool.returnLease
  cases lease with
  | none => exact push s _
  | some l =>
    have hl : w' ≠ l := fun e => (h.admits.lease l rfl).1 (e ▸ hi)
    dsimp only
    split
    case isTrue => exact push s _
    split
    case isTrue => exact refl s w'
    split
    · constructor <;> simp [hn, hl]
    · exact push s _

theorem advance (h : Exclusive max (s.push o)) (c : Choice) (hs : o.subject = some w) (hg : o.getting = none)
    (hi : w' ∈ s.issued) (hn : w' ≠ w) : Untouched s (advance max s c o) w' := by
  cases o <;> simp only [Op.subject, Op.getting, reduceCtorEq, Option.some.injEq] at hs hg
  case deferred w discard => exact push s _
  case releasing w discard => exact releaseAddressChannel (hs ▸ hn) discard
  case lost w =>
    show Untouched s (s.releaseLost w) w'
    unfold releaseLost
    split <;> exact ⟨id, .rfl, .rfl, .rfl⟩
  case deciding w discard r => exact ⟨id, .rfl, .rfl, .rfl⟩
  case returning w lease reserved => exact returnLease h hi (hs ▸ hn)
  case closing w alreadyRetired =>
    show Untouched s (s.scheduleAddressChannelClose w alreadyRetired) w'
    have hn : w' ≠ w := hs ▸ hn
    unfold scheduleAddressChannelClose
    split
    · exact refl s w'
    · constructor <;> simp [Pool.push, hn]
  case registering w =>
    show Untouched s (s.registerClose w c.ownerRuns) w'
    unfold registerClose
    repeat' split
    all_goals exact ⟨id, .rfl, .rfl, .rfl⟩

theorem step {a : Event Address} (h : Exclusive max s) (e : step max s a = some t) (ha : a.releases = some w)
    (hi : w' ∈ s.issued) (hn : w' ≠ w) : Untouched s t w' := by
  cases a <;> simp only [Event.releases, reduceCtorEq, Option.some.injEq, Option.ite_none_right_eq_some] at ha <;>
    simp only [Pool.step, Machine.guard_iff] at e
  case release w discard =>
    rw [← e.2]
    unfold releaseChannelOnSdkLoop
    split
    · exact releaseClosed (ha ▸ hn)
    · exact push s _
  case releaseSoon w discard => exact e.2 ▸ push s _
  case advance o c =>
    rw [← push_pop e.1] at h
    exact e.2 ▸ { advance h c ha.2 ha.1 hi hn with }
  case reject w discard => exact e.2 ▸ ⟨id, .rfl, .rfl, .rfl⟩
  case abandon w discard =>
    rw [← e.2]
    unfold finishUnstarted
    split <;> exact ⟨id, .rfl, .rfl, .rfl⟩

end Untouched

theorem Exclusive.handed_step {a : Event Address} (h : Exclusive max s) (e : Pool.step max s a = some t) :
    t.handed = s.handed ∨
      ∃ w, t.handed = w ::ₘ s.handed ∧ s.closed = false ∧ w ∉ s.retired ∧ w.transport ∉ s.scheduled := by
  cases a <;> simp only [Pool.step, Option.ite_none_right_eq_some, Option.some.injEq] at e
  case advance o c =>
    obtain ⟨ho, rfl⟩ := e
    rw [← push_pop ho] at h
    cases o <;> simp only [Pool.advance]
    case leasing w =>
      obtain ⟨hi, hr, -⟩ := h.admits.gotten w rfl
      unfold Pool.leaseAddressChannel
      split
      case isTrue => exact .inl rfl
      case isFalse hc =>
        have hc : s.closed ≠ true := hc
        refine .inr ⟨w, rfl, by simpa using hc, hr, fun hx => ?_⟩
        exact (h.unscheduled _ hx).2 w ⟨hi, hr⟩ rfl
    case releasing w discard =>
      left
      unfold Pool.releaseAddressChannel
      split <;> rfl
    case lost w =>
      left
      unfold Pool.releaseLost
      split <;> rfl
    case returning w lease reserved =>
      left
      unfold Pool.returnLease
      repeat' split
      all_goals rfl
    case closing w alreadyRetired =>
      left
      unfold Pool.scheduleAddressChannelClose
      split <;> rfl
    case registering w =>
      left
      unfold Pool.registerClose
      repeat' split
      all_goals rfl
    all_goals exact .inl rfl
  all_goals left
  case get a =>
    rw [← e]
    unfold Pool.get
    repeat' split
    all_goals rfl
  case release w discard =>
    rw [← e.2]
    unfold Pool.releaseChannelOnSdkLoop
    split <;> rfl
  case abandon w discard =>
    rw [← e.2]
    unfold Pool.finishUnstarted
    split <;> rfl
  case closeSnapshot w =>
    rw [← e.2]
    unfold Pool.closeSnapshot
    split <;> rfl
  case forget =>
    split at e
    case h_1 channels hc =>
      simp only [Machine.guard_iff] at e
      rw [← e.2]
    case h_2 => simp at e
  case beginClose => rw [← e]
  case stopAccepting => rw [← e]
  all_goals exact e.2 ▸ rfl

-- The pool owns its transports exclusively, in every run in which the deferred releases that were accepted are
-- started. A transport is one free entry, one checked-out wrapper that is not retired, or closing. Leases are only
-- handed out while the channel is open, and not for a transport whose close was scheduled. The release of a
-- wrapper leaves every other wrapper as it is, and schedules no close of a transport that another one stands for.
-- The pool keeps no more than `max` free entries for an address.
theorem ownership_exclusive {Address : Type} [DecidableEq Address] {max : Nat} {s : Pool Address}
    (r : Machine.Reaches (step max) Started (initial : Pool Address) s) :
    (∀ x, (s.free.filter (·.transport = x)).length + (s.checkedOut x).card +
      (if x ∈ s.scheduled then 1 else 0) ≤ 1) ∧
    (∀ a t, step max s a = some t → t.handed = s.handed ∨
      ∃ w, t.handed = w ::ₘ s.handed ∧ s.closed = false ∧ w ∉ s.retired ∧ w.transport ∉ s.scheduled) ∧
    (∀ a t w w', step max s a = some t → Started s a → a.releases = some w → w' ∈ s.issued → w' ≠ w →
      Untouched s t w' ∧ (w' ∉ s.retired → w'.transport ∉ t.scheduled)) ∧
    (∀ a, (s.freeAt a).length ≤ max) := by
  have h := reaches_exclusive r
  refine ⟨h.owners, fun a t e => h.handed_step e, fun a t w w' e ha hw hi hn => ?_, h.capacity⟩
  have hu := Untouched.step h e hw hi hn
  refine ⟨hu, fun hr hx => ?_⟩
  have ht := h.step ha.benign e
  exact (ht.unscheduled _ hx).2 w' ⟨hu.issued hi, fun h => hr (hu.retired.mp h)⟩ rfl

def leasedAgain : List (Event Unit) :=
  let c : Choice := ⟨false, false, true, true⟩
  let w₀ : Wrapper Unit := ⟨0, 0, (), true⟩
  let w₁ : Wrapper Unit := ⟨1, 0, (), true⟩
  [.get (), .advance (.creating ()) c, .advance (.leasing w₀) c, .release w₀ false,
    .advance (.releasing w₀ false) c, .advance (.deciding w₀ false false) c,
    .advance (.returning w₀ (some w₁) false) c, .get (), .advance (.popped w₁) c, .advance (.leasing w₁) c,
    .release w₀ true]

def afterLeasedAgain : Pool Unit := (Machine.run (step 2) initial leasedAgain).getD initial

theorem ownership_exclusive_leasedAgain :
    afterLeasedAgain.handed.card = 2 ∧ (afterLeasedAgain.checkedOut 0).card ≤ 1 := by
  have r : Machine.run (Machine.restrict (step 2) Started) initial leasedAgain = some afterLeasedAgain := rfl
  have h := (ownership_exclusive (.of_restricted_run r)).1 0
  exact ⟨rfl, by omega⟩

end Pool

end Aio
