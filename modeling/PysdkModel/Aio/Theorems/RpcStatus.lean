import PysdkModel.Aio.RpcStatus

namespace Aio

open Protos

theorem statusCode_value (c : StatusCode) : statusCode c.value = c := by
  cases c <;> rfl

theorem mapError_eq_ok_iff {α ε ε' : Type*} {x : Except ε α} {f : ε → ε'} {a : α} :
    x.mapError f = .ok a ↔ x = .ok a := by
  cases x <;> simp [Except.mapError]

theorem eq_filter_of_append {α : Type*} {p : α → Bool} {as bs : List α} (h : as = as.filter (!p ·) ++ bs) :
    bs = as.filter p := by
  have hn : bs.filter (!p ·) = [] := by
    have := congrArg (List.filter (!p ·)) h
    simpa [List.filter_append, List.filter_filter] using this
  have hb : bs.filter p = bs := by
    refine List.filter_eq_self.mpr fun b hb => ?_
    simpa using List.filter_eq_nil_iff.mp hn b hb
  calc
    bs = [] ++ bs.filter p := by rw [hb, List.nil_append]
    _ = (as.filter (!p ·) ++ bs).filter p := by simp [List.filter_append, List.filter_filter]
    _ = as.filter p := by rw [← h]

namespace Registry

variable {R : Registry} {d : AnyDetail} {ds rest : List AnyDetail} {e : ServiceError} {errors : List ServiceError}

def Unpacks (R : Registry) (d : AnyDetail) (e : ServiceError) : Prop :=
  ∃ c, R.serviceErrorClass d = some (e.fullName, c) ∧ Message.fromString R.schema c d.value = .ok e.message

-- The service errors come after all other details, and each one is what `pack_any` makes of it.
def Canonical (R : Registry) (ds : List AnyDetail) : Prop :=
  ∃ rest errors, ds = rest ++ errors ∧ (∀ d ∈ rest, R.isServiceError d = false) ∧
    ∀ d ∈ errors, ∃ e, R.Unpacks d e ∧ R.packAny e = .ok d

theorem Unpacks.isServiceError (h : R.Unpacks d e) : R.isServiceError d = true := by
  obtain ⟨c, hc, _⟩ := h
  simp [Registry.isServiceError, hc]

theorem Unpacks.unique {e' : ServiceError} (h : R.Unpacks d e) (h' : R.Unpacks d e') : e = e' := by
  obtain ⟨c, hc, hm⟩ := h
  obtain ⟨c', hc', hm'⟩ := h'
  obtain ⟨hn, rfl⟩ := Prod.mk.inj (Option.some.inj (hc.symm.trans hc'))
  have he := Except.ok.inj (hm.symm.trans hm')
  cases e
  cases e'
  simp_all

theorem splitDetails_eq_ok (h : R.splitDetails ds = .ok (rest, errors)) :
    rest = ds.filter (!R.isServiceError ·) ∧ List.Forall₂ R.Unpacks (ds.filter R.isServiceError) errors := by
  induction ds generalizing rest errors with
  | nil =>
    cases h
    exact ⟨rfl, .nil⟩
  | cons d ds ih =>
    simp only [splitDetails] at h
    split at h
    case h_1 hc =>
      obtain ⟨⟨rest', errors'⟩, hs, h⟩ := Except.bind_eq_ok_iff.mp h
      cases h
      have hd : R.isServiceError d = false := by simp [isServiceError, hc]
      obtain ⟨rfl, hf⟩ := ih hs
      simpa [List.filter_cons, hd] using hf
    case h_2 fullName c hc =>
      obtain ⟨message, hm, h⟩ := Except.bind_eq_ok_iff.mp h
      obtain ⟨⟨rest', errors'⟩, hs, h⟩ := Except.bind_eq_ok_iff.mp h
      cases h
      have hd : R.isServiceError d = true := by simp [isServiceError, hc]
      obtain ⟨rfl, hf⟩ := ih hs
      simpa [List.filter_cons, hd] using ⟨⟨c, hc, hm⟩, hf⟩

theorem packs_of_canonical (hu : List.Forall₂ R.Unpacks ds errors)
    (hc : ∀ d ∈ ds, ∃ e, R.Unpacks d e ∧ R.packAny e = .ok d) : errors.mapM R.packAny = .ok ds := by
  rw [Except.mapM_eq_ok_iff]
  induction hu with
  | nil => exact .nil
  | cons hd _ ih =>
    obtain ⟨⟨e, he, hp⟩, hc⟩ := List.forall_mem_cons.mp hc
    exact .cons (hd.unique he ▸ hp) (ih hc)

theorem canonical_of_packs (hu : List.Forall₂ R.Unpacks ds errors) (hp : errors.mapM R.packAny = .ok ds) :
    ∀ d ∈ ds, ∃ e, R.Unpacks d e ∧ R.packAny e = .ok d := by
  rw [Except.mapM_eq_ok_iff] at hp
  induction hu with
  | nil => simp
  | cons hd _ ih =>
    cases hp
    case cons hp hps => exact List.forall_mem_cons.mpr ⟨⟨_, hd, hp⟩, ih hps⟩

theorem rebuilt_iff (hu : List.Forall₂ R.Unpacks (ds.filter R.isServiceError) errors) :
    (∃ packed, errors.mapM R.packAny = .ok packed ∧ ds.filter (!R.isServiceError ·) ++ packed = ds) ↔
      R.Canonical ds := by
  constructor
  · rintro ⟨packed, hp, he⟩
    obtain rfl := eq_filter_of_append he.symm
    exact ⟨_, _, he.symm, fun d hd => by simpa using (List.mem_filter.mp hd).2, canonical_of_packs hu hp⟩
  · rintro ⟨rest, es, rfl, hr, he⟩
    have hs : ∀ d ∈ es, R.isServiceError d = true := fun d hd => by
      obtain ⟨e, hu, _⟩ := he d hd
      exact hu.isServiceError
    have h₁ : (rest ++ es).filter (!R.isServiceError ·) = rest := by
      rw [List.filter_append, List.filter_eq_self.mpr (by simpa using hr),
        List.filter_eq_nil_iff.mpr (by simpa using hs),
        List.append_nil]
    have h₂ : (rest ++ es).filter R.isServiceError = es := by
      rw [List.filter_append, List.filter_eq_nil_iff.mpr (by simpa using hr), List.filter_eq_self.mpr hs,
        List.nil_append]
    rw [h₂] at hu
    exact ⟨es, packs_of_canonical hu he, by rw [h₁]⟩

end Registry

namespace RequestStatusExtended

variable {R : Registry} {s r : RpcStatus} {v : RequestStatusExtended} {c : StatusCode} {m : Option Text}

structure Views (R : Registry) (s : RpcStatus) (v : RequestStatusExtended) : Prop where
  code : v.code = statusCode s.code
  message : v.message = some s.message
  rawStatus : v.rawStatus = s
  details : v.details = s.details.filter (!R.isServiceError ·)
  errors : List.Forall₂ R.Unpacks (s.details.filter R.isServiceError) v.serviceErrors
  state : extendedState R v.code v.message v.details v.serviceErrors = .ok v.originalExtendedState

theorem fromRpcStatus_views (h : fromRpcStatus R s = .ok v) : Views R s v := by
  obtain ⟨_, _, h⟩ := Except.bind_eq_ok_iff.mp h
  obtain ⟨⟨details, errors⟩, hs, h⟩ := Except.bind_eq_ok_iff.mp h
  obtain ⟨state, hst, h⟩ := Except.bind_eq_ok_iff.mp h
  cases h
  obtain ⟨hd, he⟩ := Registry.splitDetails_eq_ok (mapError_eq_ok_iff.mp hs)
  exact ⟨rfl, rfl, rfl, hd, he, mapError_eq_ok_iff.mp hst⟩

theorem extendedState_eq_ok {details : List AnyDetail} {errors : List ServiceError} {state : ExtendedState}
    (h : extendedState R c m details errors = .ok state) (c' : StatusCode) (m' : Option Text) :
    state.code = c ∧ state.message = m ∧
      extendedState R c' m' details errors = .ok { state with code := c', message := m' } := by
  obtain ⟨ds, hds, h⟩ := Except.bind_eq_ok_iff.mp h
  obtain ⟨es, hes, h⟩ := Except.bind_eq_ok_iff.mp h
  cases h
  refine ⟨rfl, rfl, ?_⟩
  simp only [extendedState, hds, hes]
  rfl

def edited (s : RpcStatus) (c : StatusCode) (m : Option Text) : RpcStatus :=
  { s with
    code := if c ≠ statusCode s.code then c.value else s.code
    message := if m ≠ some s.message then m.getD [] else s.message }

theorem toRpcStatus_edit (hv : Views R s v) (c : StatusCode) (m : Option Text) :
    ({ v with code := c, message := m } : RequestStatusExtended).toRpcStatus R =
      if c = statusCode s.code ∧ m = some s.message then
        .ok s
      else do
        let packed ← (v.serviceErrors.mapM R.packAny).mapError .encode
        return { edited s c m with details := v.details ++ packed } := by
  obtain ⟨hc, hm, hst⟩ := extendedState_eq_ok hv.state c m
  have hc' : v.originalExtendedState.code = statusCode s.code := hc.trans hv.code
  have hm' : v.originalExtendedState.message = some s.message := hm.trans hv.message
  have heq : ({ v.originalExtendedState with code := c, message := m } : ExtendedState) = v.originalExtendedState ↔
      c = statusCode s.code ∧ m = some s.message := by
    rw [← hc', ← hm']
    constructor
    · exact fun h => ⟨congrArg ExtendedState.code h, congrArg ExtendedState.message h⟩
    · rintro ⟨rfl, rfl⟩
      rfl
  rw [toRpcStatus]
  refine (congrArg (· >>= _) (mapError_eq_ok_iff.mpr hst)).trans ?_
  by_cases hu : c = statusCode s.code ∧ m = some s.message
  · rw [if_pos hu]
    refine (if_pos (heq.mpr hu)).trans ?_
    simp [hc', hm', hv.rawStatus, hu]
    rfl
  · rw [if_neg hu]
    refine (if_neg (mt heq.mp hu)).trans ?_
    simp only [hc', hm', hv.rawStatus]
    rfl

structure Preserves (R : Registry) (s : RpcStatus) (v : RequestStatusExtended) (c : StatusCode) (m : Option Text) :
    Prop where
  roundTrip : ∃ r, v.toRpcStatus R = .ok r ∧ r.serialize true = s.serialize true
  edit : ∃ r, ({ v with code := c, message := m } : RequestStatusExtended).toRpcStatus R = .ok r ∧
    statusCode r.code = c ∧ r.message = m.getD [] ∧ r.details = s.details
  rest : v.details = s.details.filter (!R.isServiceError ·)
  errors : List.Forall₂ R.Unpacks (s.details.filter R.isServiceError) v.serviceErrors

theorem edited_code_message (s : RpcStatus) (c : StatusCode) (m : Option Text) :
    statusCode (edited s c m).code = c ∧ (edited s c m).message = m.getD [] := by
  constructor
  · simp only [edited]
    split
    case isTrue => exact statusCode_value c
    case isFalse h => exact (not_not.mp h).symm
  · simp only [edited]
    split
    case isTrue => rfl
    case isFalse h => rw [not_not.mp h, Option.getD_some]

theorem edit_iff (hv : Views R s v) :
    (∃ r, ({ v with code := c, message := m } : RequestStatusExtended).toRpcStatus R = .ok r ∧
      statusCode r.code = c ∧ r.message = m.getD [] ∧ r.details = s.details) ↔
      (c = statusCode s.code ∧ m = some s.message) ∨ R.Canonical s.details := by
  rw [toRpcStatus_edit hv]
  by_cases hu : c = statusCode s.code ∧ m = some s.message
  · rw [if_pos hu]
    obtain ⟨rfl, rfl⟩ := hu
    exact ⟨fun _ => .inl ⟨rfl, rfl⟩, fun _ => ⟨s, rfl, rfl, rfl, rfl⟩⟩
  · rw [if_neg hu, ← Registry.rebuilt_iff hv.errors]
    simp only [hu, false_or]
    constructor
    · rintro ⟨r, hr, _, _, hd⟩
      obtain ⟨packed, hp, hr⟩ := Except.bind_eq_ok_iff.mp hr
      cases hr
      exact ⟨packed, mapError_eq_ok_iff.mp hp, hv.details ▸ hd⟩
    · rintro ⟨packed, hp, hd⟩
      refine ⟨_, Except.bind_eq_ok_iff.mpr ⟨packed, mapError_eq_ok_iff.mpr hp, rfl⟩, ?_⟩
      exact ⟨(edited_code_message s c m).1, (edited_code_message s c m).2, hv.details ▸ hd⟩

theorem preserves_iff (h : fromRpcStatus R s = .ok v) (c : StatusCode) (m : Option Text) :
    Preserves R s v c m ↔ (c = statusCode s.code ∧ m = some s.message) ∨ R.Canonical s.details := by
  have hv := fromRpcStatus_views h
  refine ⟨fun hp => (edit_iff hv).mp hp.edit, fun hc => ⟨⟨s, ?_, rfl⟩, (edit_iff hv).mpr hc, hv.details, hv.errors⟩⟩
  exact (toRpcStatus_edit hv v.code v.message).trans (if_pos ⟨hv.code, hv.message⟩)

def errorRegistry : Registry where
  messageClass := fun name => if serviceErrorNames.contains name then some 0 else none
  schema := fun _ => ⟨[], [], MessageClass.hardMaxDepth, List.nodup_nil, List.nodup_nil⟩

def errorDetail : AnyDetail :=
  ⟨.ofString "type.googleapis.com/nebius.common.v1.ServiceError", [], []⟩

def helpDetail : AnyDetail :=
  ⟨.ofString "type.googleapis.com/google.rpc.Help", [], []⟩

def failed (details : List AnyDetail) : RpcStatus :=
  ⟨5, .ofString "gone", details, []⟩

theorem fromString_nil : Message.fromString errorRegistry.schema 0 [] = .ok (.empty 0) := by
  simp only [Message.fromString, Message.mergeFromString, errorRegistry, MessageClass.nestingLimit]
  rw [MessageClass.hardMaxDepth, Nat.min_self, Message.mergeString, Message.mergeRecords]
  rfl

theorem exists_ok_of_isSome {α ε : Type*} {x : Except ε α} (h : x.toOption.isSome = true) : ∃ a, x = .ok a := by
  cases x
  case error => cases h
  case ok a => exact ⟨a, rfl⟩

theorem fromRpcStatus_failed (details : List AnyDetail) {rest : List AnyDetail} {errors : List ServiceError}
    (hd : (details.mapM AnyDetail.serialize).toOption.isSome = true)
    (hs : errorRegistry.splitDetails details = .ok (rest, errors))
    (he : (extendedState errorRegistry .notFound (some (.ofString "gone")) rest errors).toOption.isSome = true) :
    ∃ v, fromRpcStatus errorRegistry (failed details) = .ok v := by
  obtain ⟨bs, hbs⟩ := exists_ok_of_isSome hd
  obtain ⟨state, hst⟩ := exists_ok_of_isSome he
  refine ⟨⟨.notFound, some (.ofString "gone"), rest, errors, failed details, state⟩, ?_⟩
  refine Except.bind_eq_ok_iff.mpr ⟨bs, mapError_eq_ok_iff.mpr hbs, ?_⟩
  refine Except.bind_eq_ok_iff.mpr ⟨_, mapError_eq_ok_iff.mpr hs, ?_⟩
  exact Except.bind_eq_ok_iff.mpr ⟨state, mapError_eq_ok_iff.mpr hst, rfl⟩

theorem serviceErrorClass_errorDetail :
    errorRegistry.serviceErrorClass errorDetail = some (.ofString "nebius.common.v1.ServiceError", 0) := by
  decide +kernel

theorem serviceErrorClass_helpDetail : errorRegistry.serviceErrorClass helpDetail = none := by
  decide +kernel

theorem fromRpcStatus_pair {details : List AnyDetail}
    (h : details = [helpDetail, errorDetail] ∨ details = [errorDetail, helpDetail]) :
    ∃ v, fromRpcStatus errorRegistry (failed details) = .ok v := by
  have hs : errorRegistry.splitDetails details =
      .ok ([helpDetail], [⟨.ofString "nebius.common.v1.ServiceError", .empty 0⟩]) := by
    rcases h with rfl | rfl <;>
      simp only [Registry.splitDetails, serviceErrorClass_errorDetail, serviceErrorClass_helpDetail] <;>
      rw [show errorDetail.value = [] from rfl, fromString_nil] <;>
      rfl
  refine fromRpcStatus_failed details ?_ hs (by decide +kernel)
  rcases h with rfl | rfl <;> decide +kernel

theorem helpFirst_preserves :
    ∃ v, fromRpcStatus errorRegistry (failed [helpDetail, errorDetail]) = .ok v ∧
      (Preserves errorRegistry (failed [helpDetail, errorDetail]) v .internal none ↔
        (StatusCode.internal = statusCode 5 ∧ none = some (Text.ofString "gone")) ∨
          errorRegistry.Canonical [helpDetail, errorDetail]) := by
  obtain ⟨v, hv⟩ := fromRpcStatus_pair (.inl rfl)
  exact ⟨v, hv, preserves_iff hv .internal none⟩

-- The service error comes first. When the code is changed, it comes last.
theorem errorFirst_reordered :
    ∃ v, fromRpcStatus errorRegistry (failed [errorDetail, helpDetail]) = .ok v ∧
      ¬Preserves errorRegistry (failed [errorDetail, helpDetail]) v .internal (some (.ofString "gone")) := by
  obtain ⟨v, hv⟩ := fromRpcStatus_pair (.inr rfl)
  refine ⟨v, hv, fun hp => ?_⟩
  have hviews := fromRpcStatus_views hv
  rcases (edit_iff hviews).mp hp.edit with ⟨hc, _⟩ | hc
  case inl => exact absurd hc (by decide)
  obtain ⟨packed, _, hd⟩ := (Registry.rebuilt_iff hviews.errors).mpr hc
  have hh : (failed [errorDetail, helpDetail]).details.filter (!errorRegistry.isServiceError ·) = [helpDetail] := by
    decide +kernel
  rw [hh] at hd
  exact absurd (List.cons.inj hd).1 (by decide +kernel)

end RequestStatusExtended

end Aio
