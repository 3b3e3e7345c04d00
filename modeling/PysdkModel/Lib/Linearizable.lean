import Mathlib.Data.List.Basic

-- Linearizable histories of an object that is called concurrently: all calls seem to happen one after the
-- other, each at some point between its invocation and its response.

namespace Linearizability

variable {ι ο σ : Type*}

-- Call `i` of the operation `op` begins, or it ends with the outcome `out`.
inductive Event (ι ο : Type*)
  | invoke (i : Nat) (op : ι)
  | respond (i : Nat) (out : ο)
  deriving DecidableEq

structure Call (ι ο : Type*) where
  id : Nat
  op : ι
  out : ο
  deriving DecidableEq

def Call.invocation (c : Call ι ο) : Event ι ο :=
  .invoke c.id c.op

def Call.response (c : Call ι ο) : Event ι ο :=
  .respond c.id c.out

-- The calls of a sequential object, one after the other. `spec s op out` is the state after the operation `op`
-- on the state `s`, where `out` is a possible outcome of it.
def exec (spec : σ → ι → ο → Option σ) (s : σ) (cs : List (Call ι ο)) : Option σ :=
  cs.foldlM (fun s c => spec s c.op c.out) s

def IsComplete (h : List (Event ι ο)) : Prop :=
  ∀ i op, .invoke i op ∈ h → ∃ out, .respond i out ∈ h

section

variable (spec : σ → ι → ο → Option σ) (s₀ : σ)

structure IsLinearization (h : List (Event ι ο)) (cs : List (Call ι ο)) : Prop where
  calls : ∀ c, c ∈ cs ↔ c.invocation ∈ h ∧ c.response ∈ h
  once : (cs.map Call.id).Nodup
  legal : (exec spec s₀ cs).isSome
  order : ∀ a ∈ cs, ∀ b ∈ cs, [a.response, b.invocation].Sublist h → [a, b].Sublist cs

def Linearizable (h : List (Event ι ο)) : Prop :=
  ∃ cs, IsLinearization spec s₀ h cs

end

inductive Status (ι ο : Type*)
  | fresh
  | opened (op : ι)
  | settled (op : ι) (out : ο)
  | returned (op : ι) (out : ο)

namespace Status

def op? : Status ι ο → Option ι
  | .fresh => none
  | .opened op | .settled op _ | .returned op _ => some op

def effect? : Status ι ο → Option (ι × ο)
  | .fresh | .opened _ => none
  | .settled op out | .returned op out => some (op, out)

def out? : Status ι ο → Option ο
  | .returned _ out => some out
  | _ => none

end Status

-- The calls that are settled in the order `cs` explain the history so far, and lead to the state `s`.
structure Tracks (spec : σ → ι → ο → Option σ) (s₀ : σ) (h : List (Event ι ο)) (st : Nat → Status ι ο)
    (cs : List (Call ι ο)) (s : σ) : Prop where
  invoked : ∀ i op, .invoke i op ∈ h ↔ (st i).op? = some op
  responded : ∀ i out, .respond i out ∈ h ↔ (st i).out? = some out
  settled : ∀ c, c ∈ cs ↔ (st c.id).effect? = some (c.op, c.out)
  once : (cs.map Call.id).Nodup
  legal : exec spec s₀ cs = some s
  order : ∀ a ∈ cs, ∀ b ∈ cs, [a.response, b.invocation].Sublist h → [a, b].Sublist cs

-- At some point since the invocation of call `i`, the state had the property `P`.
def Seen (spec : σ → ι → ο → Option σ) (s₀ : σ) (h : List (Event ι ο)) (cs : List (Call ι ο)) (i : Nat)
    (P : σ → Prop) : Prop :=
  ∃ as bs s, cs = as ++ bs ∧ exec spec s₀ as = some s ∧ P s ∧
    ∀ b ∈ bs, ∀ op, ¬[b.response, .invoke i op].Sublist h

theorem pair_sublist_concat {α : Type*} {x y e : α} {l : List α} :
    [x, y].Sublist (l ++ [e]) ↔ [x, y].Sublist l ∨ x ∈ l ∧ y = e := by
  constructor
  · intro h
    obtain ⟨l₁, l₂, hl, h₁, h₂⟩ := List.sublist_append_iff.mp h
    rcases List.sublist_singleton.mp h₂ with rfl | rfl
    · rw [List.append_nil] at hl
      exact .inl (hl ▸ h₁)
    · obtain ⟨rfl, he⟩ := List.append_inj' (show [x] ++ [y] = l₁ ++ [e] from hl) rfl
      exact .inr ⟨List.singleton_sublist.mp h₁, List.singleton_inj.mp he⟩
  · rintro (h | ⟨hx, rfl⟩)
    · exact h.trans (List.sublist_append_left _ _)
    · exact (List.singleton_sublist.mpr hx).append (List.Sublist.refl [y])

theorem exec_cons {spec : σ → ι → ο → Option σ} {s : σ} {c : Call ι ο} {cs : List (Call ι ο)} :
    exec spec s (c :: cs) = (spec s c.op c.out).bind (exec spec · cs) :=
  rfl

theorem exec_append {spec : σ → ι → ο → Option σ} {s : σ} {as bs : List (Call ι ο)} :
    exec spec s (as ++ bs) = (exec spec s as).bind (exec spec · bs) := by
  simp [exec, List.foldlM_append]

section

variable {spec : σ → ι → ο → Option σ} {s₀ s s' : σ} {h : List (Event ι ο)} {st : Nat → Status ι ο}
variable {cs : List (Call ι ο)} {i j : Nat} {op : ι} {out : ο} {P : σ → Prop}

theorem Tracks.initial : Tracks spec s₀ [] (fun _ => .fresh) [] s₀ := by
  refine ⟨?_, ?_, ?_, List.nodup_nil, rfl, ?_⟩ <;> simp [Status.op?, Status.out?, Status.effect?]

namespace Seen

theorem concat (e : Event ι ο) (he : ∀ op, e ≠ .invoke i op) (hs : Seen spec s₀ h cs i P) :
    Seen spec s₀ (h ++ [e]) cs i P := by
  obtain ⟨as, bs, s, hcs, hexec, hp, hb⟩ := hs
  refine ⟨as, bs, s, hcs, hexec, hp, fun b hm op hsub => ?_⟩
  rcases pair_sublist_concat.mp hsub with hsub | ⟨-, rfl⟩
  · exact hb b hm op hsub
  · exact he op rfl

theorem mono {Q : σ → Prop} (hs : Seen spec s₀ h cs i P) (hpq : ∀ s, P s → Q s) : Seen spec s₀ h cs i Q := by
  obtain ⟨as, bs, s, hcs, hexec, hp, hb⟩ := hs
  exact ⟨as, bs, s, hcs, hexec, hpq s hp, hb⟩

end Seen

namespace Tracks

variable (t : Tracks spec s₀ h st cs s)
include t

theorem now (hp : P s) : Seen spec s₀ h cs i P :=
  ⟨cs, [], s, by simp, t.legal, hp, by simp⟩

theorem not_mem (ho : (st i).effect? = none) {c : Call ι ο} (hc : c ∈ cs) : c.id ≠ i := by
  rintro rfl
  simpa [ho] using (t.settled c).mp hc

theorem not_responded (ho : (st i).out? = none) {b : Event ι ο} : ¬[.respond i out, b].Sublist h := by
  intro hsub
  have := (t.responded i out).mp (hsub.subset List.mem_cons_self)
  simp [ho] at this

attribute [local simp] Status.op? Status.out? Status.effect?

theorem invoke (hi : st i = .fresh) :
    Tracks spec s₀ (h ++ [.invoke i op]) (Function.update st i (.opened op)) cs s where
  __ := t
  invoked j o := by
    by_cases hj : j = i
    · simp [hj, t.invoked, hi, eq_comm]
    · simp [hj, t.invoked]
  responded j o := by
    by_cases hj : j = i <;> simp [hj, t.responded, hi]
  settled c := by
    by_cases hj : c.id = i <;> simp [hj, t.settled, hi]
  order a ha b hb hsub := by
    refine t.order a ha b hb ((pair_sublist_concat.mp hsub).resolve_right ?_)
    rintro ⟨-, he⟩
    exact t.not_mem (by simp [hi]) hb (Event.invoke.inj he).left

theorem settle (hi : st i = .opened op) (hs : spec s op out = some s') :
    Tracks spec s₀ h (Function.update st i (.settled op out)) (cs ++ [⟨i, op, out⟩]) s' where
  invoked j o := by
    by_cases hj : j = i <;> simp [hj, t.invoked, hi]
  responded j o := by
    by_cases hj : j = i <;> simp [hj, t.responded, hi]
  settled c := by
    obtain ⟨j, op', out'⟩ := c
    by_cases hj : j = i
    · simp [hj, t.settled, hi, eq_comm]
    · simp [hj, t.settled]
  once := by
    rw [List.map_append, List.nodup_append]
    refine ⟨t.once, by simp, fun k hk k' hk' => ?_⟩
    obtain ⟨c, hc, rfl⟩ := List.mem_map.mp hk
    rw [List.mem_singleton.mp hk']
    exact t.not_mem (by simp [hi]) hc
  legal := by
    rw [exec_append, t.legal, Option.bind_some, exec_cons, hs]
    rfl
  order a ha b hb hsub := by
    have hout : (st i).out? = none := by simp [hi]
    rcases List.mem_append.mp ha with ha | ha
    · rcases List.mem_append.mp hb with hb | hb
      · exact (t.order a ha b hb hsub).trans (List.sublist_append_left _ _)
      · rw [List.mem_singleton.mp hb]
        exact pair_sublist_concat.mpr (.inr ⟨ha, rfl⟩)
    · rw [List.mem_singleton.mp ha] at hsub
      exact absurd hsub (t.not_responded hout)

theorem observe (hi : st i = .opened op) (hs : Seen spec s₀ h cs i fun s => spec s op out = some s) :
    ∃ cs', Tracks spec s₀ h (Function.update st i (.settled op out)) cs' s ∧
      ∀ j P, Seen spec s₀ h cs j P → Seen spec s₀ h cs' j P := by
  obtain ⟨as, bs, u, rfl, hexec, hspec, hb⟩ := hs
  have hout : (st i).out? = none := by simp [hi]
  have hlegal {ds : List (Call ι ο)} : exec spec s₀ (as ++ ⟨i, op, out⟩ :: ds) = exec spec s₀ (as ++ ds) := by
    simp only [exec_append, hexec, Option.bind_some, exec_cons, hspec]
  have hsub {ds : List (Call ι ο)} : (as ++ ds).Sublist (as ++ ⟨i, op, out⟩ :: ds) :=
    (List.Sublist.refl as).append (List.sublist_cons_self _ ds)
  refine ⟨as ++ ⟨i, op, out⟩ :: bs, ⟨fun j o => ?_, fun j o => ?_, fun c => ?_, ?_, ?_, ?_⟩, fun j P hj => ?_⟩
  · by_cases hj : j = i <;> simp [hj, t.invoked, hi]
  · by_cases hj : j = i <;> simp [hj, t.responded, hi]
  · have hc := t.settled c
    obtain ⟨j, op', out'⟩ := c
    by_cases hj : j = i
    · subst hj
      simp [hi] at hc
      simp [hc, eq_comm]
    · simpa [hj] using hc
  · rw [(List.perm_middle.map Call.id).nodup_iff, List.map_cons]
    refine List.nodup_cons.mpr ⟨fun hm => ?_, t.once⟩
    obtain ⟨c, hc, he⟩ := List.mem_map.mp hm
    exact t.not_mem (by simp [hi]) hc he
  · rw [hlegal]
    exact t.legal
  · intro a ha b hb' hab
    have hsplit {c : Call ι ο} (hc : c ∈ as ++ ⟨i, op, out⟩ :: bs) : c = ⟨i, op, out⟩ ∨ c ∈ as ++ bs := by
      simpa [or_left_comm] using hc
    rcases hsplit ha with rfl | ha
    · exact absurd hab (t.not_responded hout)
    · rcases hsplit hb' with rfl | hb'
      · have ha : a ∈ as := (List.mem_append.mp ha).resolve_right fun ha => hb a ha op hab
        exact (List.singleton_sublist.mpr ha).append (List.singleton_sublist.mpr List.mem_cons_self)
      · exact (t.order a ha b hb' hab).trans hsub
  · obtain ⟨as', bs', u', happ, hexec', hp, hb'⟩ := hj
    rcases List.append_eq_append_iff.mp happ with ⟨xs, rfl, rfl⟩ | ⟨xs, rfl, rfl⟩
    · refine ⟨as ++ ⟨i, op, out⟩ :: xs, bs', u', by simp, by rw [hlegal]; exact hexec', hp, hb'⟩
    · refine ⟨as', xs ++ ⟨i, op, out⟩ :: bs, u', by simp, hexec', hp, fun b hb op' hsub' => ?_⟩
      rcases List.mem_append.mp hb with hm | hm
      · exact hb' b (List.mem_append_left _ hm) op' hsub'
      · rcases List.mem_cons.mp hm with rfl | hm
        · exact t.not_responded hout hsub'
        · exact hb' b (List.mem_append_right _ hm) op' hsub'

theorem respond (hi : st i = .settled op out) :
    Tracks spec s₀ (h ++ [.respond i out]) (Function.update st i (.returned op out)) cs s where
  __ := t
  invoked j o := by
    by_cases hj : j = i <;> simp [hj, t.invoked, hi]
  responded j o := by
    by_cases hj : j = i
    · simp [hj, t.responded, hi, eq_comm]
    · simp [hj, t.responded]
  settled c := by
    by_cases hj : c.id = i <;> simp [hj, t.settled, hi]
  order a ha b hb hsub := by
    refine t.order a ha b hb ((pair_sublist_concat.mp hsub).resolve_right ?_)
    rintro ⟨-, he⟩
    cases he

theorem seen_settle (hi : st i = .opened op) (hs : Seen spec s₀ h cs j P) :
    Seen spec s₀ h (cs ++ [⟨i, op, out⟩]) j P := by
  obtain ⟨as, bs, u, rfl, hexec, hp, hb⟩ := hs
  refine ⟨as, bs ++ [⟨i, op, out⟩], u, by simp, hexec, hp, fun b hm op' hsub => ?_⟩
  rcases List.mem_append.mp hm with hm | hm
  · exact hb b hm op' hsub
  · rw [List.mem_singleton.mp hm] at hsub
    exact t.not_responded (by simp [hi]) hsub

theorem linearizable (hc : IsComplete h) : Linearizable spec s₀ h := by
  refine ⟨cs, fun c => ?_, t.once, by simp [t.legal], t.order⟩
  constructor
  · intro hm
    have hs := (t.settled c).mp hm
    have hop : c.invocation ∈ h := by
      refine (t.invoked c.id c.op).mpr ?_
      cases hst : st c.id <;> simp_all
    obtain ⟨out, ho⟩ := hc c.id c.op hop
    refine ⟨hop, ?_⟩
    have ho' := (t.responded c.id out).mp ho
    have : out = c.out := by
      cases hst : st c.id <;> simp_all
    rwa [Call.response, ← this]
  · rintro ⟨hop, ho⟩
    have hop := (t.invoked c.id c.op).mp hop
    have ho := (t.responded c.id c.out).mp ho
    refine (t.settled c).mpr ?_
    cases hst : st c.id <;> simp_all

end Tracks

end

end Linearizability
