import PysdkModel.Lib.Except

-- Readers of byte sequences. A reader consumes the beginning of its input and returns what is left.

abbrev Reader (ε : Type) := StateT (List UInt8) (Except ε)

namespace Reader

variable {ε α β : Type}

def Reads (p : Reader ε α) (x : List UInt8) (a : α) : Prop :=
  ∀ rest, p (x ++ rest) = .ok (a, rest)

def Streaming (p : Reader ε α) : Prop :=
  ∀ i a rest, p i = .ok (a, rest) → ∃ x, i = x ++ rest ∧ p.Reads x a

-- The same for inputs of fewer than `n` bytes. With this a loop is shown to be streaming by induction.
def StreamingTo (n : Nat) (p : Reader ε α) : Prop :=
  ∀ i a rest, i.length < n → p i = .ok (a, rest) → ∃ x, i = x ++ rest ∧ p.Reads x a

def Progress (p : Reader ε α) : Prop :=
  ∀ i a rest, p i = .ok (a, rest) → rest.length < i.length

def exact (e : ε) (n : Nat) : Reader ε (List UInt8) := fun i =>
  if i.length < n then .error e else .ok (i.take n, i.drop n)

def byte (e : ε) : Reader ε UInt8
  | [] => .error e
  | b :: i => .ok (b, i)

def fail (e : ε) : Reader ε α := fun _ =>
  .error e

def Raises (E : ε → Prop) (p : Reader ε α) : Prop :=
  ∀ i e, p i = .error e → E e

def withRaw (p : Reader ε α) : Reader ε (α × List UInt8) := fun i =>
  match p i with
  | .error e => .error e
  | .ok (a, rest) => .ok ((a, i.take (i.length - rest.length)), rest)

variable {i : List UInt8}

section

variable {p : Reader ε α} {f : α → Reader ε β} {x y : List UInt8} {a : α} {b : β}

theorem bind_eq : (p >>= f) i = match p i with
      | .error e => .error e
      | .ok (a, rest) => f a rest := by
  change (p i >>= fun r => f r.1 r.2) = _
  cases p i <;> rfl

theorem pure_eq : (pure a : Reader ε α) i = .ok (a, i) :=
  rfl

theorem bind_eq_ok_iff {r : β × List UInt8} :
    (p >>= f) i = .ok r ↔ ∃ a rest, p i = .ok (a, rest) ∧ f a rest = .ok r := by
  rw [bind_eq]
  cases hp : p i
  case error => simp
  case ok r => have ⟨a, rest⟩ := r; simp

theorem Reads.pure : (pure a : Reader ε α).Reads [] a :=
  fun _ => rfl

theorem Reads.bind (hp : p.Reads x a) (hf : (f a).Reads y b) : (p >>= f).Reads (x ++ y) b := by
  intro rest
  rw [List.append_assoc, bind_eq, hp]
  exact hf rest

variable {rest : List UInt8}

theorem Reads.bind_apply (hp : p.Reads x a) : (p >>= f) (x ++ rest) = f a rest := by
  rw [bind_eq, hp]

theorem Reads.bind_nil (hp : p.Reads x a) (hf : (f a).Reads [] b) : (p >>= f).Reads x b :=
  List.append_nil x ▸ hp.bind hf

theorem Reads.map {f : α → β} (hp : p.Reads x a) (hf : f a = b) : (p >>= fun a => Pure.pure (f a)).Reads x b := by
  refine hp.bind_nil ?_
  rw [hf]
  exact .pure

theorem Reads.byte {e : ε} {c : UInt8} : (byte e).Reads [c] c :=
  fun _ => rfl

theorem Reads.exact {e : ε} : (exact e x.length).Reads x x := by
  intro rest
  simp [Reader.exact]

theorem Reads.withRaw (hp : p.Reads x a) : p.withRaw.Reads x (a, x) := by
  intro rest
  simp [Reader.withRaw, hp rest]

theorem Streaming.pure : (pure a : Reader ε α).Streaming := by
  intro i a' rest h
  cases h
  exact ⟨[], rfl, Reads.pure⟩

theorem Streaming.fail {e : ε} : (fail e : Reader ε α).Streaming := by
  intro _ _ _ h
  cases h

theorem Streaming.bind (hp : p.Streaming) (hf : ∀ a, (f a).Streaming) : (p >>= f).Streaming := by
  intro i b rest h
  have ⟨a, i', ha, hb⟩ := bind_eq_ok_iff.mp h
  have ⟨x, hx, hrx⟩ := hp _ _ _ ha
  have ⟨y, hy, hry⟩ := hf a _ _ _ hb
  exact ⟨x ++ y, by rw [hx, hy, List.append_assoc], hrx.bind hry⟩

theorem Streaming.exact {e : ε} {n : Nat} : (exact e n).Streaming := by
  intro i a rest h
  simp only [Reader.exact] at h
  split at h
  case isTrue => cases h
  case isFalse hn =>
    cases h
    refine ⟨i.take n, (List.take_append_drop ..).symm, ?_⟩
    have hl : (i.take n).length = n := List.length_take_of_le (by omega)
    nth_rewrite 1 [← hl]
    exact Reads.exact

theorem Streaming.byte {e : ε} : (byte e).Streaming := by
  intro i a rest h
  cases i
  case nil => cases h
  case cons c i =>
    cases h
    exact ⟨[_], rfl, Reads.byte⟩

theorem Streaming.ite {c : Prop} [Decidable c] {p q : Reader ε α} (hp : p.Streaming) (hq : q.Streaming) :
    (if c then p else q).Streaming := by
  split
  · exact hp
  · exact hq

theorem Streaming.raw (hp : p.Streaming) (h : p.withRaw i = .ok ((a, x), rest)) : i = x ++ rest ∧ p.Reads x a := by
  simp only [Reader.withRaw] at h
  split at h
  case h_1 => cases h
  case h_2 b rest' hb =>
    have ⟨y, hy, hr⟩ := hp _ _ _ hb
    simp only [hy, List.length_append, Nat.add_sub_cancel, List.take_left] at h
    cases h
    exact ⟨hy, hr⟩

theorem Streaming.withRaw (hp : p.Streaming) : p.withRaw.Streaming := by
  intro i (a, x) rest h
  have ⟨hi, hr⟩ := hp.raw h
  exact ⟨x, hi, hr.withRaw⟩

theorem Streaming.eq_ok_iff (hp : p.Streaming) : p i = .ok (a, rest) ↔ ∃ x, i = x ++ rest ∧ p.Reads x a := by
  refine ⟨hp i a rest, ?_⟩
  rintro ⟨x, rfl, hx⟩
  exact hx rest

theorem Streaming.reads_iff (hp : p.Streaming) : p.Reads x a ↔ p x = .ok (a, []) := by
  rw [hp.eq_ok_iff]
  simp

theorem Streaming.length_le (hp : p.Streaming) (h : p i = .ok (a, rest)) : rest.length ≤ i.length := by
  have ⟨x, hx, _⟩ := hp _ _ _ h
  simp [hx]

theorem Streaming.to {n : Nat} (hp : p.Streaming) : p.StreamingTo n :=
  fun i a rest _ => hp i a rest

theorem Streaming.of_to (hp : ∀ n, p.StreamingTo n) : p.Streaming :=
  fun i a rest => hp (i.length + 1) i a rest (Nat.lt_succ_self _)

theorem Streaming.bind_to {n : Nat} (hp : p.Streaming) (hf : ∀ a, (f a).StreamingTo n) : (p >>= f).StreamingTo n := by
  intro i b rest hi h
  have ⟨a, i', ha, hb⟩ := bind_eq_ok_iff.mp h
  have ⟨x, hx, hrx⟩ := hp _ _ _ ha
  have hle : i'.length ≤ i.length := by simp [hx]
  have ⟨y, hy, hry⟩ := hf a _ _ _ (by omega) hb
  exact ⟨x ++ y, by rw [hx, hy, List.append_assoc], hrx.bind hry⟩

theorem Progress.bind_to {n : Nat} (hg : p.Progress) (hp : p.Streaming) (hf : ∀ a, (f a).StreamingTo n) :
    (p >>= f).StreamingTo (n + 1) := by
  intro i b rest hi h
  have ⟨a, i', ha, hb⟩ := bind_eq_ok_iff.mp h
  have ⟨x, hx, hrx⟩ := hp _ _ _ ha
  have hlt := hg _ _ _ ha
  have ⟨y, hy, hry⟩ := hf a _ _ _ (by omega) hb
  exact ⟨x ++ y, by rw [hx, hy, List.append_assoc], hrx.bind hry⟩

theorem Progress.byte {e : ε} : (byte e).Progress := by
  intro i a rest h
  cases i
  case nil => cases h
  case cons => cases h; simp

theorem Progress.withRaw (hp : p.Progress) : p.withRaw.Progress := by
  intro i a rest h
  simp only [Reader.withRaw] at h
  split at h
  case h_1 => cases h
  case h_2 hb =>
    cases h
    exact hp _ _ _ hb

theorem Progress.bind (hp : p.Progress) (hf : ∀ a, (f a).Streaming) : (p >>= f).Progress := by
  intro i b rest h
  have ⟨a, i', ha, hb⟩ := bind_eq_ok_iff.mp h
  have := hp _ _ _ ha
  have := (hf a).length_le hb
  omega

end

section

variable {x : Except ε α} {a : α}

theorem lift_eq_ok_iff {r : α × List UInt8} : (liftM x : Reader ε α) i = .ok r ↔ x = .ok r.1 ∧ i = r.2 := by
  change (x >>= fun a => Except.ok (a, i)) = .ok r ↔ _
  cases x
  case error => simp [Except.bind_eq_ok_iff]
  case ok => cases r; simp [Except.bind_eq_ok_iff]

theorem Reads.lift (h : x = .ok a) : (liftM x : Reader ε α).Reads [] a :=
  fun _ => lift_eq_ok_iff.mpr ⟨h, rfl⟩

theorem Streaming.lift : (liftM x : Reader ε α).Streaming := by
  rintro i a rest h
  obtain ⟨ha, rfl⟩ := lift_eq_ok_iff.mp h
  exact ⟨[], rfl, Reads.lift ha⟩

end

section

variable {p q : Reader ε α} {f g : α → Reader ε β} {i : List UInt8}

theorem bind_congr (hq : q i = p i) (hf : ∀ a rest, p i = .ok (a, rest) → g a rest = f a rest) :
    (q >>= g) i = (p >>= f) i := by
  rw [bind_eq, bind_eq, hq]
  cases hp : p i
  case error => rfl
  case ok => exact hf _ _ hp

theorem withRaw_congr (hq : q i = p i) : q.withRaw i = p.withRaw i := by
  rw [Reader.withRaw, Reader.withRaw, hq]

end

section

variable {E : ε → Prop} {e : ε} {p : Reader ε α} {f : α → Reader ε β}

theorem Raises.pure {a : α} : (pure a : Reader ε α).Raises E := by
  rintro i e ⟨⟩

theorem Raises.fail (h : E e) : (fail e : Reader ε α).Raises E := by
  rintro i _ ⟨⟩
  exact h

theorem Raises.bind (hp : p.Raises E) (hf : ∀ a, (f a).Raises E) : (p >>= f).Raises E := by
  intro i e h
  rw [bind_eq] at h
  cases hi : p i
  case error => exact hp i e (by simpa [hi] using h)
  case ok r => exact hf r.1 r.2 e (by simpa [hi] using h)

theorem Raises.lift {x : Except ε α} (h : ∀ e, x = .error e → E e) : (liftM x : Reader ε α).Raises E := by
  rintro i e he
  cases x
  case error => cases he; exact h _ rfl
  case ok => cases he

theorem Raises.ite {c : Prop} [Decidable c] {p q : Reader ε α} (hp : p.Raises E) (hq : q.Raises E) :
    (if c then p else q).Raises E := by
  split
  · exact hp
  · exact hq

theorem Raises.byte (h : E e) : (byte e).Raises E := by
  rintro (_ | _) _ ⟨⟩
  exact h

theorem Raises.exact (h : E e) {n : Nat} : (exact e n).Raises E := by
  intro i e' hi
  unfold Reader.exact at hi
  split at hi
  · cases hi; exact h
  · cases hi

theorem Raises.withRaw (hp : p.Raises E) : p.withRaw.Raises E := by
  intro i e h
  unfold Reader.withRaw at h
  split at h
  case h_1 he => cases h; exact hp i e he
  case h_2 => cases h

end

end Reader
