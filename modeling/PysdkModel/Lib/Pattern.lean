import Mathlib.Data.List.Basic

-- Regular expressions as a backtracking engine matches them: the ways to match at the beginning of a text, in the order
-- in which they are tried. Each one is what is matched and what follows it.

abbrev Pattern (α : Type) := List α → List (List α × List α)

namespace Pattern

variable {α : Type} {a b : Pattern α} {p : α → Bool} {c : α} {w cs m r : List α}

-- `[...]*`
def many (p : α → Bool) : Pattern α
  | [] => [([], [])]
  | c :: cs => (if p c then (many p cs).map fun m => (c :: m.1, m.2) else []) ++ [([], c :: cs)]

-- `[...]`
def one (p : α → Bool) : Pattern α
  | [] => []
  | c :: cs => if p c then [([c], cs)] else []

def seq (a b : Pattern α) : Pattern α :=
  fun cs => (a cs).flatMap fun m => (b m.2).map fun n => (m.1 ++ n.1, n.2)

def alt (a b : Pattern α) : Pattern α :=
  fun cs => a cs ++ b cs

-- `(?:...)?`
def opt (a : Pattern α) : Pattern α :=
  fun cs => a cs ++ [([], cs)]

-- `[...]+`
def plus (p : α → Bool) : Pattern α :=
  (one p).seq (many p)

theorem mem_many (h : (m, r) ∈ many p cs) : cs = m ++ r ∧ ∀ c ∈ m, p c := by
  induction cs generalizing m with
  | nil =>
    cases List.mem_singleton.mp h
    simp
  | cons c cs ih =>
    rw [many] at h
    rcases List.mem_append.mp h with h | h
    · split at h
      case isFalse => cases h
      case isTrue hc =>
        obtain ⟨⟨m, r⟩, hm, he⟩ := List.mem_map.mp h
        cases he
        obtain ⟨rfl, ha⟩ := ih hm
        exact ⟨rfl, List.forall_mem_cons.mpr ⟨hc, ha⟩⟩
    · cases List.mem_singleton.mp h
      simp

theorem mem_one : (m, r) ∈ one p cs ↔ ∃ c, p c ∧ m = [c] ∧ cs = c :: r := by
  cases cs with
  | nil => simp [one]
  | cons c cs =>
    rw [one]
    constructor
    · intro h
      split at h
      case isFalse => cases h
      case isTrue hc =>
        cases List.mem_singleton.mp h
        exact ⟨c, hc, rfl, rfl⟩
    · rintro ⟨d, hd, rfl, he⟩
      cases he
      simp [hd]

theorem mem_seq : (m, r) ∈ a.seq b cs ↔ ∃ m₁ r₁ m₂, (m₁, r₁) ∈ a cs ∧ (m₂, r) ∈ b r₁ ∧ m = m₁ ++ m₂ := by
  constructor
  · intro h
    obtain ⟨⟨m₁, r₁⟩, h₁, h⟩ := List.mem_flatMap.mp h
    obtain ⟨⟨m₂, r₂⟩, h₂, he⟩ := List.mem_map.mp h
    cases he
    exact ⟨m₁, r₁, m₂, h₁, h₂, rfl⟩
  · rintro ⟨m₁, r₁, m₂, h₁, h₂, rfl⟩
    exact List.mem_flatMap.mpr ⟨_, h₁, List.mem_map.mpr ⟨_, h₂, rfl⟩⟩

def Sound (a : Pattern α) : Prop :=
  ∀ cs m r, (m, r) ∈ a cs → cs = m ++ r

theorem sound_many : Sound (many p) :=
  fun _ _ _ h => (mem_many h).1

theorem sound_one : Sound (one p) := by
  intro cs m r h
  obtain ⟨c, _, rfl, rfl⟩ := mem_one.mp h
  rfl

theorem Sound.seq (ha : Sound a) (hb : Sound b) : Sound (a.seq b) := by
  intro cs m r h
  obtain ⟨m₁, r₁, m₂, h₁, h₂, rfl⟩ := mem_seq.mp h
  rw [ha _ _ _ h₁, hb _ _ _ h₂, List.append_assoc]

theorem Sound.alt (ha : Sound a) (hb : Sound b) : Sound (a.alt b) :=
  fun cs m r h => (List.mem_append.mp h).elim (ha cs m r) (hb cs m r)

theorem Sound.opt (ha : Sound a) : Sound a.opt := by
  intro cs m r h
  rcases List.mem_append.mp h with h | h
  · exact ha cs m r h
  · cases List.mem_singleton.mp h
    rfl

theorem mem_plus (h : (m, r) ∈ plus p cs) : cs = m ++ r ∧ m ≠ [] ∧ ∀ c ∈ m, p c := by
  obtain ⟨m₁, r₁, m₂, h₁, h₂, rfl⟩ := mem_seq.mp h
  obtain ⟨c, hc, rfl, rfl⟩ := mem_one.mp h₁
  obtain ⟨rfl, ha⟩ := mem_many h₂
  exact ⟨rfl, by simp, List.forall_mem_cons.mpr ⟨hc, ha⟩⟩

theorem head?_seq {m₁ r₁ m₂ : List α} (h₁ : (a cs).head? = some (m₁, r₁)) (h₂ : (b r₁).head? = some (m₂, r)) :
    (a.seq b cs).head? = some (m₁ ++ m₂, r) := by
  obtain ⟨others₁, he₁⟩ := List.head?_eq_some_iff.mp h₁
  obtain ⟨others₂, he₂⟩ := List.head?_eq_some_iff.mp h₂
  rw [seq, he₁, List.flatMap_cons, he₂, List.map_cons, List.cons_append, List.head?_cons]

theorem head?_alt (h : (a cs).head? = some (m, r)) : (a.alt b cs).head? = some (m, r) := by
  rw [alt, List.head?_append, h, Option.some_or]

theorem head?_alt_right (ha : a cs = []) (h : (b cs).head? = some (m, r)) : (a.alt b cs).head? = some (m, r) := by
  rw [alt, ha, List.nil_append, h]

theorem head?_opt (h : (a cs).head? = some (m, r)) : (a.opt cs).head? = some (m, r) := by
  rw [opt, List.head?_append, h, Option.some_or]

theorem head?_opt_of_eq_nil (h : a cs = []) : (a.opt cs).head? = some ([], cs) := by
  rw [opt, h, List.nil_append, List.head?_cons]

theorem head?_one {t : List α} (h : p c) : (one p (c :: t)).head? = some ([c], t) := by
  rw [one, if_pos h, List.head?_cons]

theorem one_eq_nil (h : ∀ c ∈ cs.head?, p c = false) : one p cs = [] := by
  cases cs with
  | nil => rfl
  | cons c cs => simp [one, h c rfl]

theorem seq_eq_nil (h : a cs = []) : a.seq b cs = [] := by
  rw [seq, h, List.flatMap_nil]

theorem head?_many (hw : ∀ c ∈ w, p c) (hr : ∀ c ∈ r.head?, p c = false) : (many p (w ++ r)).head? = some (w, r) := by
  induction w with
  | nil =>
    cases r with
    | nil => rfl
    | cons c r => simp [many, hr c rfl]
  | cons c w ih =>
    obtain ⟨hc, hw⟩ := List.forall_mem_cons.mp hw
    rw [List.cons_append, many, if_pos hc, List.head?_append, List.head?_map, ih hw]
    rfl

theorem head?_plus (hn : w ≠ []) (hw : ∀ c ∈ w, p c) (hr : ∀ c ∈ r.head?, p c = false) :
    (plus p (w ++ r)).head? = some (w, r) := by
  cases w with
  | nil => exact absurd rfl hn
  | cons c w =>
    obtain ⟨hc, hw⟩ := List.forall_mem_cons.mp hw
    exact head?_seq (head?_one hc) (head?_many hw hr)

end Pattern
