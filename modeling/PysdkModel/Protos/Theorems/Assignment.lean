import PysdkModel.Lib.Atomic
import PysdkModel.Protos.Assignment

-- Assignments that raise change nothing: whatever can raise comes before the first effect.

namespace Protos

open EStateM (Atomic Total)

variable {V K T F ε α : Type} {P : Python V ε} {c : ValueCodec V T ε}

namespace RepeatedValues

theorem atomic_setItem (index : ItemIndex) (v : V) : Atomic Eq (setItem P c index v) := by
  cases index with
  | int i =>
    refine .ofExcept_bind _ fun prepared => .get_bind fun r => ?_
    split
    · exact .throw _
    · exact Total.atomic fun _ => ⟨_, _, rfl⟩
  | slice s =>
    refine .ofExcept_bind _ fun it => .ofExcept_bind _ fun prepared => .get_bind fun r => ?_
    split
    · exact .throw _
    · exact Total.atomic fun _ => ⟨_, _, rfl⟩
  | other =>
    unfold setItem
    cases c.prepare v with
    | ok => exact .throw _
    | error => exact .throw _

theorem atomic_deleteItem (index : ItemIndex) : Atomic Eq (deleteItem P c index) := by
  refine .get_bind fun r => ?_
  cases index with
  | other => exact .throw _
  | int | slice =>
    dsimp only
    split
    · exact .throw _
    · exact Total.atomic fun _ => ⟨_, _, rfl⟩

theorem atomic_insert (index : ItemIndex) (v : V) : Atomic Eq (insert P c index v) := by
  refine .ofExcept_bind _ fun prepared => ?_
  cases index with
  | int => exact Total.atomic fun _ => ⟨_, _, rfl⟩
  | slice | other => exact .throw _

theorem atomic_extend (v : V) : Atomic Eq (extend P c v) := by
  refine .ofExcept_bind _ fun it => .ofExcept_bind _ fun prepared => Total.atomic fun r => ?_
  cases prepared <;> exact ⟨_, _, rfl⟩

theorem atomic_replace (convert : V → Except ε V) (it : Iteration V ε) : Atomic Eq (replace c convert it) :=
  .ofExcept_bind _ fun _ => Total.atomic fun _ => ⟨_, _, rfl⟩

end RepeatedValues

namespace MapValues

variable [DecidableEq K] {key : V → Except ε K}

theorem atomic_setItem (k v : V) : Atomic Eq (setItem key c k v) :=
  .ofExcept_bind _ fun _ => .ofExcept_bind _ fun _ => Total.atomic fun _ => ⟨_, _, rfl⟩

theorem atomic_deleteItem (k : V) : Atomic Eq (deleteItem P key c k) := by
  refine .ofExcept_bind _ fun k => .get_bind fun m => ?_
  split
  · exact Total.atomic fun _ => ⟨_, _, rfl⟩
  · exact .throw _

theorem atomic_replace (it : Iteration (V × V) ε) : Atomic Eq (replace key c it) :=
  .ofExcept_bind _ fun _ => Total.atomic fun _ => ⟨_, _, rfl⟩

end MapValues

namespace Stored

structure Unchanged (s t : Stored F K T) : Prop where
  singular : t.singular = s.singular
  repeated : ∀ f, (t.repeated f).getD [] = (s.repeated f).getD []
  maps : ∀ f, (t.maps f).getD ∅ = (s.maps f).getD ∅
  present : t.present = s.present
  oneofs : t.oneofs = s.oneofs
  resets : t.resets = s.resets
  notified : t.notified = s.notified

instance : Std.Refl (Unchanged (F := F) (K := K) (T := T)) where
  refl _ := ⟨rfl, fun _ => rfl, fun _ => rfl, rfl, rfl, rfl, rfl⟩

theorem Unchanged.written {D : F → Member V K T ε} {s t : Stored F K T} (h : Unchanged s t) (f : F) :
    t.written D f = s.written D f := by
  simp only [Stored.written, h.maps, h.repeated, h.present, h.singular]

variable [DecidableEq F]

theorem getD_update {I : Type} {values : F → Option I} {new : I} {f : F} (g : F) :
    (Function.update values f (some ((values f).getD new)) g).getD new = (values g).getD new := by
  by_cases h : g = f
  · subst h
    simp
  · rw [Function.update_of_ne h]

theorem atomic_onRepeated {f : F} {x : EStateM ε (RepeatedValues T) α} (h : Atomic Eq x) :
    Atomic Unchanged (onRepeated (K := K) f x) := by
  intro s e t hx
  simp only [onRepeated, onContainer] at hx
  split at hx
  case h_1 => cases hx
  case h_2 hc =>
    cases h hc
    cases hx
    exact ⟨rfl, getD_update, fun _ => rfl, rfl, rfl, rfl, rfl⟩

theorem atomic_onMap {f : F} {x : EStateM ε (MapValues K T) α} (h : Atomic Eq x) : Atomic Unchanged (onMap f x) := by
  intro s e t hx
  simp only [onMap, onContainer] at hx
  split at hx
  case h_1 => cases hx
  case h_2 hc =>
    cases h hc
    cases hx
    exact ⟨rfl, fun _ => rfl, getD_update, rfl, rfl, rfl, rfl⟩

variable {D : F → Member V K T ε}

theorem atomic_replaceRepeated (f : F) (v : V) : Atomic Unchanged (replaceRepeated P D f v) := by
  unfold replaceRepeated
  split
  · exact .throw _
  · exact .ofExcept_bind _ fun it => atomic_onRepeated (RepeatedValues.atomic_replace ..)

theorem atomic_setExtension (f : F) (v : V) : Atomic Unchanged (setExtension P D f v) := by
  unfold setExtension
  split
  · exact .throw _
  · split
    · exact atomic_replaceRepeated f v
    · exact .ofExcept_bind _ fun owned => Total.atomic fun _ => ⟨_, _, rfl⟩

variable [DecidableEq K]

theorem atomic_setField (f : F) (v : V) : Atomic Unchanged (setField P D f v) := by
  unfold setField
  split
  · exact Total.atomic fun _ => ⟨_, _, rfl⟩
  · split
    · refine .ofExcept_bind _ fun it => .bind_total ?_ fun _ _ => ⟨_, _, rfl⟩
      exact atomic_onMap (MapValues.atomic_replace it)
    · exact .throw _
    · split
      · exact .bind_total (atomic_replaceRepeated f v) fun _ _ => ⟨_, _, rfl⟩
      · exact .ofExcept_bind _ fun owned => Total.atomic fun _ => ⟨_, _, rfl⟩

end Stored

namespace Assignment

open Stored

variable [DecidableEq F] [DecidableEq K] {D : F → Member V K T ε}

theorem atomic_run (a : Assignment F V) : Atomic Unchanged (a.run P D) := by
  cases a with
  | field f v => exact atomic_setField f v
  | extension f v => exact atomic_setExtension f v
  | setItem f index v => exact atomic_onRepeated (RepeatedValues.atomic_setItem index v)
  | deleteItem f index => exact atomic_onRepeated (RepeatedValues.atomic_deleteItem index)
  | insert f index v => exact atomic_onRepeated (RepeatedValues.atomic_insert index v)
  | extend f v => exact atomic_onRepeated (RepeatedValues.atomic_extend v)
  | replace f v =>
    exact .ofExcept_bind _ fun it => atomic_onRepeated (RepeatedValues.atomic_replace ..)
  | setEntry f k v =>
    dsimp only [run]
    split
    · exact atomic_onMap (MapValues.atomic_setItem k v)
    · exact .throw _
  | deleteEntry f k =>
    dsimp only [run]
    split
    · exact atomic_onMap (MapValues.atomic_deleteItem k)
    · exact .throw _
  | replaceEntries f v =>
    dsimp only [run]
    split
    · exact atomic_onMap (MapValues.atomic_replace _)
    · exact .throw _
    · exact .throw _

-- An assignment that raises leaves the message as it was: the values with their bindings, the presence, the oneofs, the
-- reset mask and what is serialized. Nor does it notify the parent.
theorem unchanged_of_raised {a : Assignment F V} {s t : Stored F K T} {e : ε} (h : a.run P D s = .error e t) :
    Unchanged s t ∧ ∀ f, t.written D f = s.written D f :=
  ⟨atomic_run a h, (atomic_run a h).written⟩

def digits : Python (List Int) Unit where
  isNone _ := false
  isText _ := false
  iterable? v := some ⟨v.map ([·]), none⟩
  mapping? _ := none
  typeError := ()
  valueError := ()
  indexError := ()
  keyError := ()
  attributeError := ()

def digitField : Member (List Int) Unit Int Unit where
  protoName := []
  codec := ⟨fun v => if v.sum < 10 then .ok v.sum else .error (), .ok, true⟩
  mapKeyCodec := none
  repeated := true
  oneof := none
  hasPresence := false
  fromPython := none
  isDefault _ := false
  accessible := true

def oneDigit : Stored Unit Unit Int where
  singular _ := none
  repeated _ := some [⟨1, true⟩]
  maps _ := none
  present _ := false
  oneofs _ := none
  resets _ := false
  resetsSuspended := false
  notified := 0

theorem secondItem_unchanged : ∃ t, (extend () [2, 11]).run digits (fun _ => digitField) oneDigit = .error () t ∧
    t.written (fun _ => digitField) () = oneDigit.written (fun _ => digitField) () := by
  have h : ∃ t, (extend () [2, 11]).run digits (fun _ => digitField) oneDigit = .error () t := ⟨_, rfl⟩
  obtain ⟨t, h⟩ := h
  exact ⟨t, h, (unchanged_of_raised h).2 ()⟩

end Assignment

end Protos
