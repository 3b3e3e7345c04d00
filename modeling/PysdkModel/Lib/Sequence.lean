import Mathlib.Data.List.Basic

-- Positions and slices of Python lists.

structure Slice where
  start : Option Int
  stop : Option Int
  step : Option Int

namespace Sequence

variable {α : Type} {a b : α} {as bs cs : List α}

-- The position that an index denotes in a list of `n` items. Negative indices count from the end.
def position? (n : Nat) (i : Int) : Option Nat :=
  let i := if i < 0 then i + n else i
  if 0 ≤ i ∧ i < n then some i.toNat else none

-- `as[i] = a`. A failure is an `IndexError`.
def setItem? (as : List α) (i : Int) (a : α) : Option (List α) :=
  (position? as.length i).map fun n => as.set n a

def deleteItem? (as : List α) (i : Int) : Option (List α) :=
  (position? as.length i).map as.eraseIdx

-- `as.insert(i, a)` takes an index that is out of range for the nearest end.
def insertAt (as : List α) (i : Int) (a : α) : List α :=
  let i := if i < 0 then max 0 (i + as.length) else i
  as.insertIdx (min i.toNat as.length) a

theorem mem_of_mem_setItem? {i : Int} (h : setItem? as i a = some bs) (hb : b ∈ bs) : b ∈ as ∨ b = a := by
  obtain ⟨n, _, rfl⟩ := Option.map_eq_some_iff.mp h
  exact List.mem_or_eq_of_mem_set hb

theorem mem_of_mem_deleteItem? {i : Int} (h : deleteItem? as i = some bs) (hb : b ∈ bs) : b ∈ as := by
  obtain ⟨n, _, rfl⟩ := Option.map_eq_some_iff.mp h
  exact List.mem_of_mem_eraseIdx hb

theorem mem_of_mem_insertAt {i : Int} (hb : b ∈ insertAt as i a) : b = a ∨ b ∈ as := by
  rw [insertAt, List.mem_insertIdx (Nat.min_le_right _ _)] at hb
  exact hb

theorem insertAt_length : insertAt as as.length a = as ++ [a] := by
  have hn : ¬(as.length : Int) < 0 := by omega
  simp only [insertAt, if_neg hn, Int.toNat_natCast, Nat.min_self, List.insertIdx_length_self]

end Sequence

namespace Slice

variable {α : Type} {b : α} {as bs cs : List α} {s : Slice}

def stepOf (s : Slice) : Int :=
  s.step.getD 1

-- The bounds that `slice.indices` puts on the start and the stop.
def lower (s : Slice) : Int :=
  if s.stepOf < 0 then -1 else 0

def upper (s : Slice) (n : Nat) : Int :=
  if s.stepOf < 0 then n - 1 else n

def clamp (s : Slice) (n : Nat) (i : Int) : Int :=
  max s.lower <| min (s.upper n) <| if i < 0 then i + n else i

def first (s : Slice) (n : Nat) : Int :=
  match s.start with
  | some i => s.clamp n i
  | none => if s.stepOf < 0 then s.upper n else s.lower

def last (s : Slice) (n : Nat) : Int :=
  match s.stop with
  | some i => s.clamp n i
  | none => if s.stepOf < 0 then s.lower else s.upper n

def count (s : Slice) (n : Nat) : Nat :=
  if s.stepOf < 0 then
    if s.last n < s.first n then ((s.first n - s.last n - 1) / -s.stepOf + 1).toNat else 0
  else
    if s.first n < s.last n then ((s.last n - s.first n - 1) / s.stepOf + 1).toNat else 0

-- The positions that the slice selects in a list of `n` items, in its order.
def positions (s : Slice) (n : Nat) : List Nat :=
  (List.range (s.count n)).map fun i => (s.first n + i * s.stepOf).toNat

def before (s : Slice) (as : List α) : List α :=
  as.take (s.first as.length).toNat

def after (s : Slice) (as : List α) : List α :=
  as.drop (max (s.first as.length) (s.last as.length)).toNat

-- `as[s] = bs`. A failure is a `ValueError`: the step is zero, or a slice with a step selects another number of items.
def assign? (s : Slice) (as bs : List α) : Option (List α) :=
  if s.stepOf = 0 then
    none
  else if s.stepOf = 1 then
    some (s.before as ++ bs ++ s.after as)
  else if bs.length = s.count as.length then
    some <| ((s.positions as.length).zip bs).foldl (fun as p => as.set p.1 p.2) as
  else
    none

def delete? (s : Slice) (as : List α) : Option (List α) :=
  if s.stepOf = 0 then
    none
  else if s.stepOf = 1 then
    some (s.before as ++ s.after as)
  else
    some <| (as.zipIdx.filter fun a => a.2 ∉ s.positions as.length).map Prod.fst

theorem mem_of_mem_foldl_set {ps : List (Nat × α)} (hb : b ∈ ps.foldl (fun as p => as.set p.1 p.2) as) :
    b ∈ as ∨ ∃ p ∈ ps, b = p.2 := by
  induction ps generalizing as with
  | nil => exact .inl hb
  | cons p ps ih =>
    rcases ih hb with h | ⟨q, hq, rfl⟩
    · rcases List.mem_or_eq_of_mem_set h with h | rfl
      · exact .inl h
      · exact .inr ⟨p, List.mem_cons_self, rfl⟩
    · exact .inr ⟨q, List.mem_cons_of_mem p hq, rfl⟩

theorem mem_of_mem_assign? (h : s.assign? as bs = some cs) (hb : b ∈ cs) : b ∈ as ∨ b ∈ bs := by
  simp only [assign?] at h
  split at h
  case isTrue => cases h
  split at h
  case isTrue =>
    cases h
    rcases List.mem_append.mp hb with hb | hb
    · rcases List.mem_append.mp hb with hb | hb
      · exact .inl (List.mem_of_mem_take hb)
      · exact .inr hb
    · exact .inl (List.mem_of_mem_drop hb)
  split at h
  case isFalse => cases h
  cases h
  rcases mem_of_mem_foldl_set hb with hb | ⟨p, hp, rfl⟩
  · exact .inl hb
  · exact .inr (List.of_mem_zip hp).2

theorem mem_of_mem_delete? (h : s.delete? as = some cs) (hb : b ∈ cs) : b ∈ as := by
  simp only [delete?] at h
  split at h
  case isTrue => cases h
  split at h
  case isTrue =>
    cases h
    rcases List.mem_append.mp hb with hb | hb
    · exact List.mem_of_mem_take hb
    · exact List.mem_of_mem_drop hb
  cases h
  obtain ⟨p, hp, rfl⟩ := List.mem_map.mp hb
  exact List.fst_mem_of_mem_zipIdx (List.mem_filter.mp hp).1

end Slice
