import PysdkModel.Aio.Theorems.Pool

-- The transports that are closed when the channel is closed. Every transport either has a wrapper that stands for
-- it, or somebody owes its close, or its close was started.

namespace Aio

namespace Pool

variable {Address : Type} {max : Nat} {s t : Pool Address} {o o' : Op Address} {w w' l : Wrapper Address}

def Op.token : Op Address → Option (Wrapper Address)
  | .deciding w _ true | .returning w _ true | .closing w true | .registering w => some w
  | _ => none

def Op.owner : Op Address → Option (Wrapper Address)
  | .popped w | .leasing w | .lost w | .deciding w _ false | .returning w _ false | .closing w false => some w
  | _ => none

attribute [local simp] Op.owner

theorem Op.subject_of_owner (h : o.owner = some w) : o.subject = some w := by
  cases o with
  | deciding _ _ r | returning _ _ r | closing _ r => cases r <;> simp_all [owner, subject]
  | _ => simp_all [owner, subject]

theorem Op.getting_of_owner (h : o.owner = some w) (hg : o.getting = some w') : w' = w := by
  cases o <;> simp_all [owner, getting]

def owed (s : Pool Address) : Multiset Nat :=
  (s.ops.filterMap Op.token).map Wrapper.transport + s.starting.map Wrapper.transport +
    s.pending.map Wrapper.transport + s.started

theorem owed_push_of_none (h : o.token = none) : (s.push o).owed = s.owed := by
  simp only [owed, push, Multiset.filterMap_cons_none o s.ops h]

theorem owed_push_of_some (h : o.token = some w) : (s.push o).owed = w.transport ::ₘ s.owed := by
  simp only [owed, push, Multiset.filterMap_cons_some Op.token o s.ops h, Multiset.map_cons, Multiset.cons_add]

theorem owed_push_congr (h : o'.token = o.token) : (s.push o').owed = (s.push o).owed := by
  cases ho : o.token with
  | none => rw [owed_push_of_none ho, owed_push_of_none (h.trans ho)]
  | some w => rw [owed_push_of_some ho, owed_push_of_some (h.trans ho)]

structure Accounted (s : Pool Address) : Prop where
  nodup : s.owed.Nodup
  bound : ∀ x ∈ s.owed, x < s.nextTransport
  live : ∀ w, s.Live w → w.transport ∉ s.owed
  covered : ∀ w ∈ s.issued, w.transport ∈ s.owed ∨ ∃ w', s.Live w' ∧ w'.transport = w.transport
  located : ∀ w, s.Live w → w ∈ s.free ∨ w ∈ s.leased ∨ ∃ o ∈ s.ops, o.owner = some w
  leased : s.snapshot = none → ∀ w ∈ s.leased, w ∉ s.retired
  owner : s.snapshot = none → ∀ o ∈ s.ops, ∀ w, o.owner = some w → w ∉ s.leased
  unsnapped : s.snapshot = none → s.pending = 0
  snapped : s.snapshot ≠ none → s.closed = true ∧ s.free = [] ∧ ∀ w ∈ s.leased, w ∈ s.retired
  -- all transports belong to the loop of the SDK
  onSdkLoop : ∀ w ∈ s.issued, w.onSdkLoop = true
  lease : ∀ o ∈ s.ops, ∀ l, o.lease = some l → l.onSdkLoop = true
  registered : ∀ w ∈ s.registered, w ∈ s.starting ∨ w.transport ∈ s.started
  starting : ∀ w ∈ s.starting, w ∈ s.registered
  running : ∀ w ∈ s.running, w.transport ∈ s.started
  forgotten : s.forgotten = true → s.snapshot ≠ none ∧ s.pending = 0

theorem initial_accounted : Accounted (initial : Pool Address) := by
  constructor <;> simp [initial, owed, Live]

namespace Accounted

theorem exchange (h : Accounted (s.push o)) (ht : o'.token = o.token)
    (ho : ∀ w, o.owner = some w → w ∉ s.retired → o'.owner = some w)
    (hn : s.snapshot = none → ∀ w, o'.owner = some w → w ∉ s.leased)
    (hl : ∀ l, o'.lease = some l → l.onSdkLoop = true) : Accounted (s.push o') :=
  { h with
    nodup := owed_push_congr (s := s) ht ▸ h.nodup
    bound := owed_push_congr (s := s) ht ▸ h.bound
    live := owed_push_congr (s := s) ht ▸ h.live
    covered := owed_push_congr (s := s) ht ▸ h.covered
    located := fun w hw => (h.located w hw).imp_right <| Or.imp_right fun he =>
      exists_mem_push.mpr ((exists_mem_push.mp he).imp_left fun e => ho w e hw.2)
    owner := fun hs => forall_mem_push.mpr ⟨hn hs, (forall_mem_push.mp (h.owner hs)).2⟩
    lease := forall_mem_push.mpr ⟨hl, (forall_mem_push.mp h.lease).2⟩ }

theorem push (h : Accounted s) (ht : o.token = none) (hn : s.snapshot = none → ∀ w, o.owner = some w → w ∉ s.leased)
    (hl : o.lease = none) : Accounted (s.push o) :=
  { h with
    nodup := owed_push_of_none (s := s) ht ▸ h.nodup
    bound := owed_push_of_none (s := s) ht ▸ h.bound
    live := owed_push_of_none (s := s) ht ▸ h.live
    covered := owed_push_of_none (s := s) ht ▸ h.covered
    located := fun w hw => (h.located w hw).imp_right <| Or.imp_right fun he => exists_mem_push.mpr (.inr he)
    owner := fun hs => forall_mem_push.mpr ⟨hn hs, h.owner hs⟩
    lease := forall_mem_push.mpr ⟨by simp [hl], h.lease⟩ }

theorem of_push (h : Accounted (s.push o)) (ht : o.token = none) (ho : ∀ w, o.owner = some w → w ∈ s.retired) :
    Accounted s :=
  { h with
    nodup := owed_push_of_none (s := s) ht ▸ h.nodup
    bound := owed_push_of_none (s := s) ht ▸ h.bound
    live := owed_push_of_none (s := s) ht ▸ h.live
    covered := owed_push_of_none (s := s) ht ▸ h.covered
    located := fun w hw => (h.located w hw).imp_right <| Or.imp_right fun he =>
      (exists_mem_push.mp he).resolve_left fun e => hw.2 (ho w e)
    owner := fun hs => (forall_mem_push.mp (h.owner hs)).2
    lease := (forall_mem_push.mp h.lease).2 }

variable [DecidableEq Address]

theorem owe (h : Accounted (s.push o)) (hu : ∀ w', s.Live w' → w'.transport = w.transport → w' = w) (hw : s.Live w)
    (hb : w.transport < s.nextTransport) (hl : w ∉ s.leased ∨ s.snapshot ≠ none) (ht : o.token = none)
    (ho : ∀ w', o.owner = some w' → w' = w) (ht' : o'.token = some w) (ho' : o'.owner = none)
    (hl' : o'.lease = none) : Accounted ({ s with retired := insert w s.retired }.push o') := by
  have hlive {w'} (hw' : Live { s with retired := insert w s.retired } w') : s.Live w' ∧ w' ≠ w := by
    obtain ⟨hi, hr⟩ := hw'
    simp only [Finset.mem_insert, not_or] at hr
    exact ⟨⟨hi, hr.2⟩, hr.1⟩
  have hs := owed_push_of_none (s := s) ht
  have hs' : ({ s with retired := insert w s.retired }.push o').owed = w.transport ::ₘ s.owed :=
    owed_push_of_some ht'
  exact {
    h with
    nodup := by
      rw [hs']
      exact Multiset.nodup_cons.mpr ⟨hs ▸ h.live w hw, hs ▸ h.nodup⟩
    bound := hs' ▸ Multiset.forall_mem_cons.mpr ⟨hb, hs ▸ h.bound⟩
    live := fun w' hw' => by
      rw [hs']
      intro hx
      rcases Multiset.mem_cons.mp hx with hx | hx
      · exact (hlive hw').2 (hu w' (hlive hw').1 hx)
      · exact h.live w' (hlive hw').1 (hs ▸ hx)
    covered := fun w' hw' => by
      rw [hs']
      rcases h.covered w' hw' with hx | ⟨w'', hw'', e⟩
      · exact .inl <| Multiset.mem_cons_of_mem (hs ▸ hx)
      · by_cases hn : w'' = w
        · exact .inl <| Multiset.mem_cons.mpr <| .inl (hn ▸ e.symm)
        · exact .inr ⟨w'', ⟨hw''.1, by simpa [hn, Pool.push] using hw''.2⟩, e⟩
    located := fun w' hw' => (h.located w' (hlive hw').1).imp_right <| Or.imp_right fun he =>
      exists_mem_push.mpr <| .inr <| (exists_mem_push.mp he).resolve_left fun e => (hlive hw').2 (ho w' e)
    leased := fun hn w' hw' hr => by
      rcases Finset.mem_insert.mp hr with rfl | hr
      · exact hl.elim (fun hl => hl hw') fun hl => hl hn
      · exact h.leased hn w' hw' hr
    owner := fun hn => forall_mem_push.mpr ⟨by simp [-Op.owner, ho'], (forall_mem_push.mp (h.owner hn)).2⟩
    snapped := fun hn => by
      obtain ⟨h₁, h₂, h₃⟩ := h.snapped hn
      exact ⟨h₁, h₂, fun w' hw' => Finset.mem_insert_of_mem (h₃ w' hw')⟩
    lease := forall_mem_push.mpr ⟨by simp [hl'], (forall_mem_push.mp h.lease).2⟩ }

theorem unique_of_live (h : Exclusive max s) (hw : s.Live w) : ∀ w', s.Live w' → w'.transport = w.transport → w' = w :=
  fun w' hw' e => h.unique w' w hw' hw e

theorem scheduleAddressChannelClose {r : Bool} (hx : Exclusive max (s.push (.closing w r)))
    (h : Accounted (s.push (.closing w r))) : Accounted (s.scheduleAddressChannelClose w r) := by
  have ha := hx.admits
  obtain ⟨hi, hf, hg⟩ := ha.busy rfl w rfl
  unfold Pool.scheduleAddressChannelClose
  have hfree : s.free.filter (· ≠ w) = s.free :=
    List.filter_eq_self.mpr fun w' hw' => by
      simp only [ne_eq, decide_not, Bool.not_eq_eq_eq_not, Bool.not_true, decide_eq_false_iff_not]
      exact fun e => hf (e ▸ hw')
  rw [hfree]
  cases r with
  | true =>
    obtain ⟨hr, -⟩ := ha.reserved w rfl
    simp only [Bool.not_true, Bool.false_and, Bool.false_eq_true, if_false, Finset.insert_eq_of_mem hr]
    have h' : Accounted (s.push (.registering w)) :=
      h.exchange rfl (by simp) (by simp) (by simp [Op.lease])
    exact { h' with }
  | false =>
    by_cases hr : w ∈ s.retired
    · simp only [Bool.not_false, Bool.true_and, hr, decide_true, if_true]
      refine h.of_push rfl fun w' hw' => ?_
      cases hw'
      exact hr
    · simp only [Bool.not_false, Bool.true_and, hr, decide_false, Bool.false_eq_true, if_false]
      have hl : w ∉ s.leased ∨ s.snapshot ≠ none := by
        by_cases hn : s.snapshot = none
        · exact .inl <| (forall_mem_push.mp (h.owner hn)).1 w rfl
        · exact .inr hn
      have h' : Accounted ({ s with retired := insert w s.retired }.push (.registering w)) :=
        h.owe (unique_of_live hx.of_push ⟨hi, hr⟩) ⟨hi, hr⟩ (hx.fresh w hi).2 hl rfl
          (fun w' hw' => by cases hw'; rfl) rfl rfl rfl
      exact { h' with }

theorem registerClose (hx : Exclusive max (s.push (.registering w))) (h : Accounted (s.push (.registering w)))
    (ownerRuns : Bool) : Accounted (s.registerClose w ownerRuns) := by
  obtain ⟨hi, -, -⟩ := hx.admits.busy rfl w rfl
  have hs : (s.push (.registering w)).owed = w.transport ::ₘ s.owed := owed_push_of_some rfl
  have hn : w.transport ∉ s.owed := by
    have := h.nodup
    rw [hs] at this
    exact (Multiset.nodup_cons.mp this).1
  have hloop : w.onSdkLoop = true := h.onSdkLoop w hi
  have hr : w ∉ s.registered := fun hr => hn <| by
    rcases h.registered w hr with hw | hw
    · simp [owed, Multiset.mem_map_of_mem Wrapper.transport (show w ∈ s.starting from hw)]
    · simp [owed, show w.transport ∈ s.started from hw]
  simp only [Pool.registerClose, hloop, if_true, if_neg hr]
  have hs' : owed { s with registered := insert w s.registered, starting := w ::ₘ s.starting } =
      (s.push (.registering w)).owed := by
    rw [hs]
    simp only [owed, Multiset.map_cons, Multiset.add_cons, Multiset.cons_add]
  exact {
    h with
    nodup := hs' ▸ h.nodup
    bound := hs' ▸ h.bound
    live := hs' ▸ h.live
    covered := hs' ▸ h.covered
    located := fun w' hw' => (h.located w' hw').imp_right <| Or.imp_right fun he =>
      (exists_mem_push.mp he).resolve_left (by simp)
    owner := fun hn => (forall_mem_push.mp (h.owner hn)).2
    lease := (forall_mem_push.mp h.lease).2
    registered := (Finset.forall_mem_insert ..).mpr
      ⟨.inl <| Multiset.mem_cons_self .., fun w' hw' => (h.registered w' hw').imp_left Multiset.mem_cons_of_mem⟩
    starting := Multiset.forall_mem_cons.mpr
      ⟨Finset.mem_insert_self .., fun w' hw' => Finset.mem_insert_of_mem (h.starting w' hw')⟩ }

theorem unlease {discard : Bool} (h : Accounted (s.push (.releasing w discard))) :
    Accounted ({ s with leased := s.leased.erase w }.push (.deciding w discard false)) :=
  have e : ({ s with leased := s.leased.erase w }.push (.deciding w discard false)).owed =
    (s.push (.releasing w discard)).owed := owed_push_congr (s := s) rfl
  { h with
    nodup := e ▸ h.nodup
    bound := e ▸ h.bound
    live := e ▸ h.live
    covered := e ▸ h.covered
    located := fun w' hw' => by
      by_cases hn : w' = w
      · exact .inr <| .inr ⟨_, mem_push.mpr <| .inl rfl, by simp [hn]⟩
      · refine (h.located w' hw').imp_right <| Or.imp (fun hl => Finset.mem_erase.mpr ⟨hn, hl⟩) fun he => ?_
        exact exists_mem_push.mpr <| .inr <| (exists_mem_push.mp he).resolve_left (by simp)
    leased := fun hn w' hw' => h.leased hn w' (Finset.mem_of_mem_erase hw')
    owner := fun hn o₁ ho₁ w' hw' hl => by
      rcases mem_push.mp ho₁ with rfl | ho₁
      · cases hw'
        exact Finset.notMem_erase _ _ hl
      · exact h.owner hn o₁ (mem_push.mpr <| .inr ho₁) w' hw' (Finset.mem_of_mem_erase hl)
    snapped := fun hn => by
      obtain ⟨h₁, h₂, h₃⟩ := h.snapped hn
      exact ⟨h₁, h₂, fun w' hw' => h₃ w' (Finset.mem_of_mem_erase hw')⟩
    lease := forall_mem_push.mpr ⟨by simp [Op.lease], (forall_mem_push.mp h.lease).2⟩ }

theorem releaseClosed (h : Accounted s) (w : Wrapper Address) : Accounted (s.releaseClosed w) := by
  have h₁ : Accounted { s with leased := if s.snapshot.isSome then s.leased.erase w else s.leased } := by
    split
    case isFalse => exact h
    case isTrue hs =>
      have hn : s.snapshot ≠ none := Option.isSome_iff_ne_none.mp hs
      obtain ⟨hc, hf, hl⟩ := h.snapped hn
      exact { h with
        located := fun w' hw' => (h.located w' hw').imp_right <| Or.imp_left fun hl' => absurd (hl w' hl') hw'.2
        leased := fun hn' => absurd hn' hn
        owner := fun hn' => absurd hn' hn
        snapped := fun _ => ⟨hc, hf, fun w' hw' => hl w' (Finset.mem_of_mem_erase hw')⟩ }
  by_cases hm : w ∈ s.leased
  case pos => simpa only [Pool.releaseClosed, if_pos hm] using h₁
  simp only [Pool.releaseClosed, if_neg hm]
  refine h₁.push (o := .lost w) rfl (fun hn w' hw' => ?_) rfl
  cases hw'
  have hn : s.snapshot = none := hn
  simpa [hn] using hm

theorem releaseAddressChannel {discard : Bool} (hx : Exclusive max (s.push (.releasing w discard)))
    (h : Accounted (s.push (.releasing w discard))) : Accounted (s.releaseAddressChannel w discard) := by
  obtain ⟨hi, -, -⟩ := hx.admits.busy rfl w rfl
  unfold Pool.releaseAddressChannel
  split
  case isTrue => exact (h.of_push rfl (by simp)).releaseClosed w
  have h₁ := h.unlease
  by_cases hd : discard = true ∧ w ∉ s.retired
  · obtain ⟨rfl, hr⟩ := hd
    simp only [if_true, Bool.true_and, hr, not_false_eq_true, decide_true]
    exact h₁.owe (unique_of_live (s := s) hx.of_push ⟨hi, hr⟩) ⟨hi, hr⟩ (hx.fresh w hi).2
      (.inl <| Finset.notMem_erase _ _) rfl (fun w' hw' => by cases hw'; rfl) rfl rfl rfl
  · have hd' : (discard && decide (w ∉ s.retired)) = false := by
      cases discard <;> simp_all
    have hr : (if discard = true then insert w s.retired else s.retired) = s.retired := by
      cases discard with
      | false => rfl
      | true => exact Finset.insert_eq_of_mem (by simpa using hd)
    rw [hd', hr]
    exact h₁

theorem releaseLost (h : Accounted (s.push (.lost w))) : Accounted (s.releaseLost w) := by
  unfold Pool.releaseLost
  split
  case isTrue hr =>
    refine h.of_push rfl fun w' hw' => ?_
    cases hw'
    exact hr
  refine h.exchange rfl (fun w' hw' _ => hw') (fun hn w' hw' => ?_) (by simp [Op.lease])
  exact (forall_mem_push.mp (h.owner hn)).1 w' hw'

theorem newLease {discard reserved : Bool} (hx : Exclusive max (s.push (.deciding w discard reserved)))
    (h : Accounted (s.push (.deciding w discard reserved))) (c : Choice) :
    Accounted (s.newLease w discard reserved c) := by
  obtain ⟨hi, -, -⟩ := hx.admits.busy rfl w rfl
  have h' : Accounted (s.push (.returning w (if !discard && w ∉ s.retired && w.onSdkLoop && !c.shutdown &&
      !c.leaseFails then some { w with id := s.nextWrapper } else none) reserved)) := by
    refine h.exchange (by cases reserved <;> rfl) (by cases reserved <;> simp) (fun hn w' hw' => ?_)
      (fun l hl => ?_)
    case refine_1 =>
      refine (forall_mem_push.mp (h.owner hn)).1 w' ?_
      cases reserved with
      | true => simp at hw'
      | false => exact hw'
    case refine_2 =>
      simp only [Op.lease, Option.ite_none_right_eq_some, Option.some.injEq] at hl
      exact hl.2 ▸ h.onSdkLoop w hi
  exact { h' with }

theorem returnLease {lease : Option (Wrapper Address)} {reserved : Bool}
    (hx : Exclusive max (s.push (.returning w lease reserved)))
    (h : Accounted (s.push (.returning w lease reserved))) : Accounted (returnLease max s w lease reserved) := by
  have ha := hx.admits
  obtain ⟨hi, hf, -⟩ := ha.busy rfl w rfl
  have close : Accounted (s.push (.closing w reserved)) := by
    refine h.exchange (by cases reserved <;> rfl) (by cases reserved <;> simp) (fun hn w' hw' => ?_)
      (by simp [Op.lease])
    refine (forall_mem_push.mp (h.owner hn)).1 w' ?_
    cases reserved with
    | true => simp at hw'
    | false => exact hw'
  unfold Pool.returnLease
  cases lease with
  | none => exact close
  | some l =>
    obtain ⟨hl, -, hlw, -⟩ := ha.lease l rfl
    dsimp only
    split
    case isTrue => exact close
    case isFalse hc =>
      simp only [not_or, Bool.not_eq_true] at hc
      obtain ⟨-, -, hc, hr⟩ := hc
      split
      case isFalse => exact close
      -- the fresh wrapper stands for the transport now
      obtain rfl : reserved = false := by
        cases reserved with
        | false => rfl
        | true => exact absurd (ha.reserved w rfl).1 hr
      have hlive {w'} (hi : w' ∈ insert l s.issued) (hr : w' ∉ insert w s.retired) :
          w' = l ∨ (s.Live w' ∧ w' ≠ w) := by
        simp only [Finset.mem_insert, not_or] at hi hr
        exact hi.imp_right fun hi => ⟨⟨hi, hr.2⟩, hr.1⟩
      have hs : (s.push (.returning w (some l) false)).owed = s.owed := owed_push_of_none rfl
      have hn : s.snapshot = none := by
        by_contra hn
        have := (h.snapped hn).1
        simp only [Pool.push] at this
        simp [this] at hc
      have hlo : l.onSdkLoop = true := h.lease _ (mem_push.mpr <| .inl rfl) l rfl
      exact {
        h with
        nodup := hs ▸ h.nodup
        bound := hs ▸ h.bound
        live := fun w' hw' => by
          rcases hlive hw'.1 hw'.2 with rfl | hw'
          · rw [(hlw w rfl).1]
            exact hs ▸ h.live w ⟨hi, hr⟩
          · exact hs ▸ h.live w' hw'.1
        covered := fun w' hw' => by
          have hlr : l ∉ insert w s.retired := by
            rw [Finset.mem_insert, not_or]
            exact ⟨fun e => hl (e ▸ hi), fun hr => hl (hx.retired l hr)⟩
          rcases Finset.mem_insert.mp hw' with rfl | hw'
          case inl => exact .inr ⟨w', ⟨Finset.mem_insert_self .., hlr⟩, rfl⟩
          rcases h.covered w' hw' with hx | ⟨w'', hw'', e⟩
          case inl => exact .inl (hs ▸ hx)
          by_cases hn : w'' = w
          · refine .inr ⟨l, ⟨Finset.mem_insert_self .., hlr⟩, ?_⟩
            rw [(hlw w rfl).1, ← hn, e]
          · refine .inr ⟨w'', ⟨Finset.mem_insert_of_mem hw''.1, ?_⟩, e⟩
            rw [Finset.mem_insert, not_or]
            exact ⟨hn, hw''.2⟩
        located := fun w' hw' => by
          rcases hlive hw'.1 hw'.2 with rfl | hw'
          · exact .inl <| List.mem_append_right _ <| List.mem_singleton_self _
          · refine (h.located w' hw'.1).imp (List.mem_append_left _) <| Or.imp_right fun he => ?_
            exact (exists_mem_push.mp he).resolve_left fun e => hw'.2 (Option.some.inj e).symm
        leased := fun hn w' hw' hr' => by
          rcases Finset.mem_insert.mp hr' with rfl | hr'
          · exact (forall_mem_push.mp (h.owner hn)).1 w' rfl hw'
          · exact h.leased hn w' hw' hr'
        owner := fun hn => (forall_mem_push.mp (h.owner hn)).2
        snapped := fun hn' => absurd hn hn'
        onSdkLoop := (Finset.forall_mem_insert ..).mpr ⟨hlo, h.onSdkLoop⟩
        lease := (forall_mem_push.mp h.lease).2 }

theorem createAddressChannel {a : Address} (hx : Exclusive max (s.push (.creating a)))
    (h : Accounted (s.push (.creating a))) : Accounted (s.createAddressChannel a true) := by
  have h := h.of_push rfl (by simp)
  have hx := hx.of_push
  have hs : ∀ o : Op Address, o.token = none → (Pool.push { s with
      nextWrapper := s.nextWrapper + 1
      nextTransport := s.nextTransport + 1
      issued := insert ⟨s.nextWrapper, s.nextTransport, a, true⟩ s.issued } o).owed = s.owed :=
    fun o ho => owed_push_of_none ho
  have hs := hs (.leasing ⟨s.nextWrapper, s.nextTransport, a, true⟩) rfl
  exact {
    h with
    nodup := hs ▸ h.nodup
    bound := fun x hx' => Nat.lt_succ_of_lt (h.bound x (hs ▸ hx'))
    live := fun w hw hx' => by
      rcases Finset.mem_insert.mp hw.1 with rfl | hi
      · exact absurd (h.bound _ (hs ▸ hx')) (lt_irrefl _)
      · exact h.live w ⟨hi, hw.2⟩ (hs ▸ hx')
    covered := fun w hw => by
      rcases Finset.mem_insert.mp hw with rfl | hw
      · refine .inr ⟨_, ⟨hw, fun hr => ?_⟩, rfl⟩
        exact absurd (hx.fresh _ (hx.retired _ hr)).1 (lt_irrefl _)
      · refine (h.covered w hw).imp (fun hx => hs ▸ hx) ?_
        rintro ⟨w', hw', e⟩
        exact ⟨w', ⟨Finset.mem_insert_of_mem hw'.1, hw'.2⟩, e⟩
    located := fun w hw => by
      rcases Finset.mem_insert.mp hw.1 with rfl | hi
      · exact .inr <| .inr <| exists_mem_push.mpr <| .inl rfl
      · exact (h.located w ⟨hi, hw.2⟩).imp_right <| Or.imp_right fun he => exists_mem_push.mpr (.inr he)
    owner := fun hn => by
      refine forall_mem_push.mpr ⟨fun w hw hl => ?_, h.owner hn⟩
      cases hw
      have hi := hx.known _ (mem_tracked.mpr <| .inr <| .inl (hx.leased _ hl).1)
      exact absurd (hx.fresh _ hi).1 (lt_irrefl _)
    onSdkLoop := (Finset.forall_mem_insert ..).mpr ⟨rfl, h.onSdkLoop⟩
    lease := forall_mem_push.mpr ⟨by simp [Op.lease], h.lease⟩ }

theorem get (hx : Exclusive max s) (h : Accounted s) (a : Address) : Accounted (s.get a) := by
  unfold Pool.get
  split
  case isTrue => exact h
  case isFalse hc =>
    have hn : s.snapshot = none := by
      by_contra hn
      exact hc (h.snapped hn).1
    split
    case h_1 w hw =>
      have hp := Exclusive.perm_of_find hw
      have hm : w ∈ s.free := hp.mem_iff.mpr (List.mem_cons_self ..)
      have hs : ({ s with free := (s.free.reverse.eraseP (fits a)).reverse }.push (.popped w)).owed = s.owed :=
        owed_push_of_none rfl
      exact {
        h with
        nodup := hs ▸ h.nodup
        bound := hs ▸ h.bound
        live := hs ▸ h.live
        covered := hs ▸ h.covered
        located := fun w' hw' => by
          rcases h.located w' hw' with hf | hl | he
          · rcases List.mem_cons.mp (hp.mem_iff.mp hf) with rfl | hf
            · exact .inr <| .inr <| exists_mem_push.mpr <| .inl rfl
            · exact .inl hf
          · exact .inr <| .inl hl
          · exact .inr <| .inr <| exists_mem_push.mpr <| .inr he
        owner := fun _ => by
          refine forall_mem_push.mpr ⟨fun w' hw' hl => ?_, h.owner hn⟩
          cases hw'
          exact (hx.of_handed (hx.leased w hl).1).2.1 hm
        snapped := fun hn' => absurd hn hn'
        lease := forall_mem_push.mpr ⟨by simp [Op.lease], h.lease⟩ }
    case h_2 => exact h.push rfl (by simp) rfl

omit [DecidableEq Address] in
theorem checkState (h : Accounted (s.push (.popped w))) (shutdown : Bool) : Accounted (s.checkState w shutdown) := by
  unfold Pool.checkState
  cases shutdown <;>
    exact h.exchange rfl (fun w' hw' _ => hw') (fun hn => (forall_mem_push.mp (h.owner hn)).1) (by simp [Op.lease])

theorem leaseAddressChannel (hx : Exclusive max (s.push (.leasing w))) (h : Accounted (s.push (.leasing w))) :
    Accounted (s.leaseAddressChannel w) := by
  obtain ⟨hi, hr, ht, ho⟩ := hx.admits.gotten w rfl
  unfold Pool.leaseAddressChannel
  split
  case isTrue =>
    refine h.exchange rfl (fun w' hw' _ => hw') (fun hn w' hw' => ?_) (by simp [Op.lease])
    exact (forall_mem_push.mp (h.owner hn)).1 w' hw'
  case isFalse hc =>
    have hn : s.snapshot = none := by
      by_contra hn
      exact hc (h.snapped hn).1
    have hs : (s.push (.leasing w)).owed = s.owed := owed_push_of_none rfl
    have hg : w ∉ s.getting := fun hg => ht (mem_tracked.mpr <| .inr <| .inr hg)
    exact {
      h with
      nodup := hs ▸ h.nodup
      bound := hs ▸ h.bound
      live := hs ▸ h.live
      covered := hs ▸ h.covered
      located := fun w' hw' => by
        rcases h.located w' hw' with hf | hl | he
        case inl => exact .inl hf
        case inr.inl => exact .inr <| .inl <| Finset.mem_insert_of_mem hl
        rcases exists_mem_push.mp he with hw₁ | he
        · cases hw₁
          exact .inr <| .inl <| Finset.mem_insert_self ..
        · exact .inr <| .inr he
      leased := fun _ => (Finset.forall_mem_insert ..).mpr ⟨hr, h.leased hn⟩
      owner := fun _ o₁ ho₁ w' hw' hl => by
        rcases Finset.mem_insert.mp hl with rfl | hl
        · -- nobody else holds a wrapper that is being leased
          cases hgo : o₁.getting with
          | none => exact ho o₁ ho₁ hgo (Op.subject_of_owner hw')
          | some v =>
            rw [Op.getting_of_owner hw' hgo] at hgo
            exact hg ((Multiset.mem_filterMap _ _).mpr ⟨o₁, ho₁, hgo⟩)
        · exact h.owner hn o₁ (mem_push.mpr <| .inr ho₁) w' hw' hl
      snapped := fun hn' => absurd hn hn'
      lease := (forall_mem_push.mp h.lease).2 }

theorem takeSnapshot (hx : Exclusive max s) (h : Accounted s) (hn : s.snapshot = none) : Accounted s.takeSnapshot := by
  have hmem {w} : w ∈ s.free.toFinset ∪ s.leased ↔ w ∈ s.free ∨ w ∈ s.leased := by simp
  have hc {w} (hw : w ∈ s.free.toFinset ∪ s.leased) : s.Live w := by
    refine ⟨hx.known w (mem_tracked.mpr ?_), ?_⟩
    case refine_1 => exact (hmem.mp hw).imp_right fun hw => .inl (hx.leased w hw).1
    case refine_2 => exact (hmem.mp hw).elim (hx.free w) (h.leased hn w)
  have hlive {w} (hw : Live s.takeSnapshot w) : s.Live w ∧ w ∉ s.free.toFinset ∪ s.leased := by
    obtain ⟨hi, hr⟩ := hw
    have hr : w ∉ s.retired ∪ (s.free.toFinset ∪ s.leased) := hr
    rw [Finset.mem_union, not_or] at hr
    exact ⟨⟨hi, hr.1⟩, hr.2⟩
  have hs : s.takeSnapshot.owed = s.owed + (s.free.toFinset ∪ s.leased).val.map Wrapper.transport := by
    simp only [owed, Pool.takeSnapshot, h.unsnapped hn, Multiset.map_zero, Multiset.add_zero]
    rw [Multiset.add_assoc, Multiset.add_comm (Multiset.map _ _) s.started, ← Multiset.add_assoc]
  exact {
    h with
    nodup := by
      rw [hs, Multiset.nodup_add]
      refine ⟨h.nodup, ?_, ?_⟩
      case refine_1 =>
        refine Multiset.Nodup.map_on (fun w hw w' hw' e => ?_) (Finset.nodup _)
        exact hx.unique w w' (hc hw) (hc hw') e
      case refine_2 =>
        rw [Multiset.disjoint_right]
        intro x hx'
        obtain ⟨w, hw, rfl⟩ := Multiset.mem_map.mp hx'
        exact h.live w (hc hw)
    bound := fun x hx' => by
      rw [hs, Multiset.mem_add] at hx'
      rcases hx' with hx' | hx'
      · exact h.bound x hx'
      · obtain ⟨w, hw, rfl⟩ := Multiset.mem_map.mp hx'
        exact (hx.fresh w (hc hw).1).2
    live := fun w hw hx' => by
      rw [hs, Multiset.mem_add] at hx'
      rcases hx' with hx' | hx'
      · exact h.live w (hlive hw).1 hx'
      · obtain ⟨w', hw', e⟩ := Multiset.mem_map.mp hx'
        exact (hlive hw).2 (hx.unique w' w (hc hw') (hlive hw).1 e ▸ hw')
    covered := fun w hw => by
      rw [hs, Multiset.mem_add]
      rcases h.covered w hw with hx' | ⟨w', hw', e⟩
      case inl => exact .inl <| .inl hx'
      by_cases hm : w' ∈ s.free.toFinset ∪ s.leased
      · exact .inl <| .inr <| e ▸ Multiset.mem_map_of_mem _ hm
      · refine .inr ⟨w', ⟨hw'.1, fun hr => ?_⟩, e⟩
        exact (Finset.mem_union.mp hr).elim hw'.2 hm
    located := fun w hw => by
      have hm := (hlive hw).2
      rw [hmem, not_or] at hm
      refine .inr <| .inr ?_
      exact ((h.located w (hlive hw).1).resolve_left hm.1).resolve_left hm.2
    leased := fun hn' => by simp [Pool.takeSnapshot] at hn'
    owner := fun hn' => by simp [Pool.takeSnapshot] at hn'
    unsnapped := fun hn' => by simp [Pool.takeSnapshot] at hn'
    snapped := fun _ => ⟨rfl, rfl, fun w hw => Finset.mem_union_right _ (Finset.mem_union_right _ hw)⟩
    forgotten := fun hf => absurd hn (h.forgotten hf).1 }

theorem closeSnapshot (hx : Exclusive max s) (h : Accounted s) (hw : w ∈ s.pending) :
    Accounted (s.closeSnapshot w) := by
  have hloop := h.onSdkLoop w (hx.retired w (hx.pending w hw).1)
  have hn : s.snapshot ≠ none := fun hn => by simp [h.unsnapped hn] at hw
  simp only [Pool.closeSnapshot, hloop, if_true]
  have hs : owed { s with
      pending := s.pending.erase w
      cleaning := w ::ₘ s.cleaning
      started := w.transport ::ₘ s.started } = s.owed := by
    simp only [owed]
    conv_rhs => rw [← Multiset.cons_erase hw, Multiset.map_cons]
    simp only [Multiset.add_cons, Multiset.cons_add]
  exact {
    h with
    nodup := hs ▸ h.nodup
    bound := hs ▸ h.bound
    live := hs ▸ h.live
    covered := hs ▸ h.covered
    unsnapped := fun hn' => absurd hn' hn
    registered := fun w' hw' => (h.registered w' hw').imp_right Multiset.mem_cons_of_mem
    running := fun w' hw' => Multiset.mem_cons_of_mem (h.running w' hw')
    forgotten := fun hf => by simp [(h.forgotten hf).2] at hw }

theorem startClose (h : Accounted s) (hw : w ∈ s.starting) : Accounted (s.startClose w) := by
  have hs : (s.startClose w).owed = s.owed := by
    simp only [owed, Pool.startClose]
    conv_rhs => rw [← Multiset.cons_erase hw, Multiset.map_cons]
    simp only [Multiset.add_cons, Multiset.cons_add]
  exact {
    h with
    nodup := hs ▸ h.nodup
    bound := hs ▸ h.bound
    live := hs ▸ h.live
    covered := hs ▸ h.covered
    registered := fun w' hw' => by
      by_cases hn : w' = w
      · exact .inr <| hn ▸ Multiset.mem_cons_self ..
      · exact (h.registered w' hw').imp (Multiset.mem_erase_of_ne hn).mpr Multiset.mem_cons_of_mem
    starting := fun w' hw' => h.starting w' (Multiset.mem_of_mem_erase hw')
    running := Multiset.forall_mem_cons.mpr
      ⟨Multiset.mem_cons_self .., fun w' hw' => Multiset.mem_cons_of_mem (h.running w' hw')⟩ }

theorem finishClose (h : Accounted s) (hw : w ∈ s.running) : Accounted (s.finishClose w) :=
  { h with
    registered := fun w' hw' => h.registered w' (Finset.mem_of_mem_erase hw')
    starting := fun w' hw' => by
      refine Finset.mem_erase.mpr ⟨?_, h.starting w' hw'⟩
      -- a close that is running is not started a second time
      rintro rfl
      have hn := h.nodup
      simp only [owed, Multiset.nodup_add, Multiset.disjoint_left] at hn
      refine hn.2.2 (Multiset.mem_add.mpr <| .inl <| Multiset.mem_add.mpr <| .inr ?_) (h.running w' hw)
      exact Multiset.mem_map_of_mem _ hw'
    running := fun w' hw' => h.running w' (Multiset.mem_of_mem_erase hw') }

theorem advance (hx : Exclusive max (s.push o)) (h : Accounted (s.push o)) {c : Choice}
    (hc : ∀ a, o = .creating a → c.onSdkLoop = true) : Accounted (advance max s c o) := by
  cases o with
  | creating a =>
    show Accounted (s.createAddressChannel a c.onSdkLoop)
    rw [hc a rfl]
    exact h.createAddressChannel hx
  | popped w => exact h.checkState c.shutdown
  | leasing w => exact h.leaseAddressChannel hx
  | deferred w discard =>
    exact h.exchange rfl (by simp) (by simp) (by simp [Op.lease])
  | releasing w discard => exact h.releaseAddressChannel hx
  | lost w => exact h.releaseLost
  | deciding w discard reserved => exact h.newLease hx c
  | returning w lease reserved => exact h.returnLease hx
  | closing w alreadyRetired => exact h.scheduleAddressChannelClose hx
  | registering w => exact h.registerClose hx c.ownerRuns

end Accounted

-- The condition on a run: new transports belong to the loop of the SDK; the deferred release of a wrapper that is
-- still in the lease table, or that was retired before, is neither rejected nor abandoned; the loop creates the task
-- of every close that was accepted; and the cleanup is not completed while another call is in the middle of leasing
-- or closing a transport.
def Harmless (s : Pool Address) : Event Address → Prop
  | .advance (.creating _) c => c.onSdkLoop = true
  | .releaseSoon w _ => s.accepting = false → w ∈ s.leased → w ∈ s.retired
  | .abandon w _ => w ∈ s.marked ∨ (w ∉ s.retired ∧ w ∉ s.leased)
  | .rejectClose _ => False
  | .complete => ∀ o ∈ s.ops, o.token = none ∧ o.owner = none
  | _ => True

theorem Harmless.benign {a : Event Address} (h : Harmless s a) : Benign s a := by
  cases a with
  | abandon w discard => exact h.imp_right And.left
  | _ => trivial

variable [DecidableEq Address]

theorem Accounted.step {a : Event Address} (hx : Exclusive max s) (h : Accounted s) (ha : Harmless s a)
    (e : step max s a = some t) : Accounted t := by
  cases a <;> simp only [Pool.step, Option.ite_none_right_eq_some, Option.some.injEq] at e
  case get a => exact e ▸ h.get hx a
  case release w discard =>
    rw [← e.2]
    unfold releaseChannelOnSdkLoop
    split
    · exact h.releaseClosed w
    · exact h.push rfl (by simp) rfl
  case releaseSoon w discard =>
    rw [← e.2]
    unfold releaseChannelSoon
    split
    case isTrue => exact h.push rfl (by simp) rfl
    case isFalse hc =>
      refine h.push rfl (fun hn w' hw' hl => ?_) rfl
      cases hw'
      exact h.leased hn w hl (ha (by simpa using hc) hl)
  case advance o c =>
    rw [← push_pop e.1] at h hx
    refine e.2 ▸ h.advance hx ?_
    rintro a rfl
    exact ha
  case reject w discard =>
    rw [← push_pop e.1] at h
    exact e.2 ▸ h.of_push rfl (by simp)
  case abandon w discard =>
    rw [← push_pop e.1] at h
    rw [← e.2]
    unfold finishUnstarted
    split
    case isTrue => exact h.of_push rfl (by simp)
    case isFalse hm =>
      obtain ⟨hr, hl⟩ := ha.resolve_left hm
      have hr : w ∉ (s.pop (.deferred w discard)).retired := hr
      rw [decide_eq_false hr]
      refine h.exchange rfl (by simp) (fun _ w' hw' => ?_) (by simp [Op.lease])
      cases hw'
      exact hl
  case beginClose => exact e ▸ { h with snapped := fun hn => ⟨rfl, (h.snapped hn).2⟩ }
  case stopAccepting => exact e ▸ { h with }
  case takeSnapshot => exact e.2 ▸ h.takeSnapshot hx e.1
  case closeSnapshot w => exact e.2 ▸ h.closeSnapshot hx e.1
  case finishCleaning w => exact e.2 ▸ { h with }
  case startClose w => exact e.2 ▸ h.startClose e.1
  case rejectClose w => exact ha.elim
  case finishClose w => exact e.2 ▸ h.finishClose e.1
  case forget =>
    split at e
    case h_1 channels hc =>
      simp only [Machine.guard_iff] at e
      have hn : s.snapshot ≠ none := by simp [hc]
      obtain ⟨h₁, h₂, h₃⟩ := h.snapped hn
      rw [← e.2]
      exact { h with
        located := fun w hw => (h.located w hw).imp_right <| Or.imp_left fun hl => absurd (h₃ w hl) hw.2
        leased := fun hn' => absurd hn' hn
        owner := fun hn' => absurd hn' hn
        snapped := fun _ => ⟨h₁, h₂, fun w hw => h₃ w (Finset.mem_sdiff.mp hw).1⟩
        forgotten := fun _ => ⟨hn, e.1.1⟩ }
    case h_2 => simp at e
  case complete => exact e.2 ▸ { h with }

omit [DecidableEq Address] in
theorem Accounted.started_of_complete (h : Accounted s) (hf : s.forgotten = true) (hr : s.registered = ∅)
    (ho : ∀ o ∈ s.ops, o.token = none ∧ o.owner = none) (hw : w ∈ s.issued) : s.started.count w.transport = 1 := by
  obtain ⟨hn, hp⟩ := h.forgotten hf
  have hstart : s.starting = 0 :=
    Multiset.eq_zero_of_forall_notMem fun w hw => by simpa [hr] using h.starting w hw
  have htok : s.ops.filterMap Op.token = 0 := by
    refine Multiset.eq_zero_of_forall_notMem fun w hw => ?_
    obtain ⟨o, ho', e⟩ := (Multiset.mem_filterMap _ _).mp hw
    simp [(ho o ho').1] at e
  have hs : s.owed = s.started := by simp [owed, hstart, htok, hp]
  refine Multiset.count_eq_one_of_mem (hs ▸ h.nodup) ?_
  rcases h.covered w hw with hx | ⟨w', hw', -⟩
  case inl => exact hs ▸ hx
  -- a wrapper that stands for a transport would be free, leased or held by a call
  obtain ⟨-, hfree, hl⟩ := h.snapped hn
  rcases h.located w' hw' with hf | hl' | ⟨o, ho', e⟩
  · simp [hfree] at hf
  · exact absurd (hl w' hl') hw'.2
  · cases (ho o ho').2.symm.trans e

-- Every transport is closed exactly once, in every run that meets the condition: no native close is ever started
-- twice, and when `_close_internal` completes the native close of every transport was started.
theorem closed_exactly_once {Address : Type} [DecidableEq Address] {max : Nat} {s : Pool Address}
    (r : Machine.Reaches (step max) Harmless (initial : Pool Address) s) :
    (∀ x, s.started.count x ≤ 1) ∧
    (∀ t, Harmless s .complete → step max s .complete = some t →
      ∀ w ∈ t.issued, t.started.count w.transport = 1) := by
  obtain ⟨-, h⟩ := r.invariant (I := fun s => Exclusive max s ∧ Accounted s)
    (fun h ha e => ⟨h.1.step ha.benign e, h.2.step h.1 ha e⟩) ⟨initial_exclusive, initial_accounted⟩
  refine ⟨fun x => ?_, fun t ha e w hw => ?_⟩
  case refine_1 =>
    refine Multiset.nodup_iff_count_le_one.mp (Multiset.nodup_of_le ?_ h.nodup) x
    exact Multiset.le_add_left ..
  case refine_2 =>
    simp only [step, Machine.guard_iff] at e
    obtain ⟨⟨hf, hr⟩, rfl⟩ := e
    exact h.started_of_complete hf hr ha hw

instance (s : Pool Address) (a : Event Address) : Decidable (Harmless s a) :=
  match a with
  | .advance (.creating _) c => inferInstanceAs (Decidable (c.onSdkLoop = true))
  | .releaseSoon w _ => inferInstanceAs (Decidable (s.accepting = false → w ∈ s.leased → w ∈ s.retired))
  | .abandon w _ => inferInstanceAs (Decidable (w ∈ s.marked ∨ (w ∉ s.retired ∧ w ∉ s.leased)))
  | .rejectClose _ => .isFalse id
  | .complete => inferInstanceAs (Decidable (∀ o ∈ s.ops, o.token = none ∧ o.owner = none))
  | .advance (.popped _) _ | .advance (.leasing _) _ | .advance (.deferred ..) _ | .advance (.releasing ..) _
  | .advance (.lost _) _ | .advance (.deciding ..) _ | .advance (.returning ..) _ | .advance (.closing ..) _
  | .advance (.registering _) _ | .get _ | .release .. | .reject .. | .beginClose | .stopAccepting | .takeSnapshot
  | .closeSnapshot _ | .finishCleaning _ | .startClose _ | .finishClose _ | .forget => .isTrue trivial

def leasedAtClose : List (Event Unit) :=
  let c : Choice := ⟨false, false, true, true⟩
  let w₀ : Wrapper Unit := ⟨0, 0, (), true⟩
  let w₁ : Wrapper Unit := ⟨1, 1, (), true⟩
  [.get (), .advance (.creating ()) c, .advance (.leasing w₀) c, .get (), .advance (.creating ()) c,
    .advance (.leasing w₁) c, .release w₀ true, .advance (.releasing w₀ true) c,
    .advance (.deciding w₀ true true) c, .advance (.returning w₀ none true) c, .advance (.closing w₀ true) c,
    .advance (.registering w₀) c, .beginClose, .stopAccepting, .startClose w₀, .takeSnapshot, .closeSnapshot w₁,
    .finishCleaning w₁, .forget, .finishClose w₀]

def afterLeasedAtClose : Pool Unit := (Machine.run (step 2) initial leasedAtClose).getD initial

theorem closed_exactly_once_leasedAtClose :
    afterLeasedAtClose.issued.card = 2 ∧ ∀ w ∈ afterLeasedAtClose.issued,
      afterLeasedAtClose.started.count w.transport = 1 := by
  have r : Machine.run (Machine.restrict (step 2) Harmless) initial leasedAtClose = some afterLeasedAtClose := rfl
  have h := (closed_exactly_once (.of_restricted_run r)).2 { afterLeasedAtClose with completed := true }
    (by decide) rfl
  exact ⟨rfl, h⟩

-- No transport is lost: at every moment its close is owed once or was started, or else a wrapper that is not retired
-- stands for it, and this is free, leased or in the hands of a call.
theorem nothing_lost {Address : Type} [DecidableEq Address] {max : Nat} {s : Pool Address}
    (r : Machine.Reaches (step max) Harmless (initial : Pool Address) s) :
    s.owed.Nodup ∧ ∀ w ∈ s.issued, Xor (w.transport ∈ s.owed) (∃ w', s.Live w' ∧ w'.transport = w.transport ∧
      (w' ∈ s.free ∨ w' ∈ s.leased ∨ ∃ o ∈ s.ops, o.owner = some w')) := by
  obtain ⟨-, h⟩ := r.invariant (I := fun s => Exclusive max s ∧ Accounted s)
    (fun h ha e => ⟨h.1.step ha.benign e, h.2.step h.1 ha e⟩) ⟨initial_exclusive, initial_accounted⟩
  refine ⟨h.nodup, fun w hw => ?_⟩
  by_cases ho : w.transport ∈ s.owed
  · refine .inl ⟨ho, ?_⟩
    rintro ⟨w', hl, ht, -⟩
    exact h.live w' hl (ht ▸ ho)
  · obtain ⟨w', hl, ht⟩ := (h.covered w hw).resolve_left ho
    exact .inr ⟨⟨w', hl, ht, h.located w' hl⟩, ho⟩

theorem nothing_lost_leasedAtClose : afterLeasedAtClose.issued.card = 2 ∧ afterLeasedAtClose.owed.Nodup :=
  have r : Machine.run (Machine.restrict (step 2) Harmless) initial leasedAtClose = some afterLeasedAtClose := rfl
  ⟨rfl, (nothing_lost (.of_restricted_run r)).left⟩

-- The deferred release of a leased transport is rejected, because the runtime is closing, before `_close_internal`
-- takes its snapshot. The fallback closes the transport, but leaves it in the lease table.
def rejectedRelease : List (Event Unit) :=
  let c : Choice := ⟨false, false, true, true⟩
  let w : Wrapper Unit := ⟨0, 0, (), true⟩
  [.get (), .advance (.creating ()) c, .advance (.leasing w) c, .beginClose, .stopAccepting, .releaseSoon w false,
    .advance (.closing w false) c, .advance (.registering w) c, .takeSnapshot, .startClose w, .closeSnapshot w]

-- A transport is discarded, and its close is accepted by the runtime. The loop then rejects the task of the close,
-- and the shutdown completes.
def rejectedClose : List (Event Unit) :=
  let c : Choice := ⟨false, false, true, true⟩
  let w : Wrapper Unit := ⟨0, 0, (), true⟩
  [.get (), .advance (.creating ()) c, .advance (.leasing w) c, .release w true, .advance (.releasing w true) c,
    .advance (.deciding w true true) c, .advance (.returning w none true) c, .advance (.closing w true) c,
    .advance (.registering w) c, .rejectClose w, .beginClose, .stopAccepting, .takeSnapshot, .forget, .complete]

theorem closed_exactly_once_rejectedRelease :
    (Machine.run (step 2) (initial : Pool Unit) rejectedRelease).any (fun s => s.started.count 0 = 2) = true ∧
    (Machine.run (step 2) (initial : Pool Unit) rejectedClose).any (fun s =>
      s.completed && s.issued.card = 1 && s.started.count 0 = 0) = true := by
  decide

end Pool

end Aio
