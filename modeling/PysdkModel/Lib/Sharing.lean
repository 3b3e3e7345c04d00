import Mathlib.Computability.Language

-- Rooted graphs with labelled edges that grow by one fresh node at a time, where the fresh node may
-- be attached below several nodes at once. Paths that lead to the same node share everything that
-- is attached to it later on.

abbrev Edges (σ : Type*) := Nat → σ → Option Nat

namespace Edges

variable {σ : Type*} {g : Edges σ} {r : Nat} {p : List σ} {s : σ}

def walk (g : Edges σ) (r : Nat) : List σ → Option Nat
  | [] => some r
  | s :: p => (g r s).bind (walk g · p)

theorem walk_append {q : List σ} : g.walk r (p ++ q) = (g.walk r p).bind (g.walk · q) := by
  induction p generalizing r
  case nil => rfl
  case cons s p ih =>
    simp only [List.cons_append, walk]
    cases g r s <;> simp [ih]

theorem walk_concat : g.walk r (p ++ [s]) = (g.walk r p).bind (g · s) := by
  rw [walk_append]
  congr! with v
  simp [walk]

def Cyclic (g : Edges σ) (r : Nat) : Prop :=
  ∃ p v s q, g.walk r p = some v ∧ g.walk v (s :: q) = some v

variable {n : Nat}

theorem acyclic_induction {motive : Nat → Prop} (hb : ∀ {v s w}, g v s = some w → w < n) (hr : r < n) (ha : ¬g.Cyclic r)
    (h : ∀ v, v < n → (∀ s w, g v s = some w → motive w) → motive v) : motive r := by
  -- The nodes below a node of the graph, nearest last.
  let below (w v : Fin n) : Prop := (∃ p, g.walk r p = some v) ∧ ∃ s q, g.walk v (s :: q) = some w
  have htrans : IsTrans (Fin n) below := by
    refine ⟨fun u w v hu hw => ⟨hw.left, ?_⟩⟩
    obtain ⟨s, q, hq⟩ := hw.right
    obtain ⟨s', q', hq'⟩ := hu.right
    exact ⟨s, q ++ s' :: q', by rw [← List.cons_append, walk_append, hq]; exact hq'⟩
  have hirrefl : Std.Irrefl below := by
    refine ⟨fun v hv => ha ?_⟩
    obtain ⟨⟨p, hp⟩, s, q, hq⟩ := hv
    exact ⟨p, v, s, q, hp, hq⟩
  have hwf : WellFounded below := Finite.wellFounded_of_trans_of_irrefl _
  have hall (v : Fin n) : (∃ p, g.walk r p = some v.val) → motive v := by
    induction v using hwf.induction
    case h v ih =>
      rintro ⟨p, hp⟩
      refine h v v.isLt fun s w hw => ih ⟨w, hb hw⟩ ⟨⟨p, hp⟩, s, [], ?_⟩ ⟨p ++ [s], ?_⟩
      · simp [walk, hw]
      · rw [walk_concat, hp, Option.bind_some, hw]
  exact hall ⟨r, hr⟩ ⟨[], rfl⟩

structure Ascending (g : Edges σ) (n : Nat) : Prop where
  lt : ∀ {v s w}, g v s = some w → v < w
  bound : ∀ {v s w}, g v s = some w → w < n

theorem Ascending.walk_lt (h : g.Ascending n) (hr : r < n) {v : Nat} (hp : g.walk r p = some v) : v < n := by
  induction p generalizing r
  case nil => simp [walk] at hp; omega
  case cons s p ih =>
    simp only [walk, Option.bind_eq_some_iff] at hp
    have ⟨w, hw, hp⟩ := hp
    exact ih (h.bound hw) hp

-- The graph `g'` is `g` with the fresh node `n` attached by an `s`-edge below each node of `A` that
-- has no such edge.
def Extends (g g' : Edges σ) (n : Nat) (A : Set Nat) (s : σ) : Prop :=
  ∀ v t, (v ∈ A ∧ t = s ∧ g v s = none → g' v t = some n) ∧
    (¬(v ∈ A ∧ t = s ∧ g v s = none) → g' v t = g v t)

namespace Extends

variable {g' : Edges σ} {n : Nat} {A : Set Nat}

theorem mono (h : g.Extends g' n A s) {v : Nat} {t : σ} {w : Nat} (hw : g v t = some w) : g' v t = some w := by
  rw [← hw]
  refine (h v t).right fun ⟨_, ht, hn⟩ => ?_
  subst ht
  simp [hn] at hw

theorem walk_mono (h : g.Extends g' n A s) {v : Nat} (hp : g.walk r p = some v) : g'.walk r p = some v := by
  induction p generalizing r
  case nil => exact hp
  case cons s p ih =>
    simp only [walk, Option.bind_eq_some_iff] at hp ⊢
    have ⟨w, hw, hp⟩ := hp
    exact ⟨w, h.mono hw, ih hp⟩

theorem ascending (h : g.Extends g' n A s) (ha : g.Ascending n) (hA : ∀ v ∈ A, v < n) : g'.Ascending (n + 1) := by
  have hc {v t w} (hw : g' v t = some w) : v < w ∧ w < n + 1 := by
    by_cases hn : v ∈ A ∧ t = s ∧ g v s = none
    · rw [(h v t).left hn] at hw
      cases hw
      exact ⟨hA v hn.left, by omega⟩
    · rw [(h v t).right hn] at hw
      have := ha.bound hw
      exact ⟨ha.lt hw, by omega⟩
  exact ⟨(hc · |>.left), (hc · |>.right)⟩

-- The walks of the extended graph are the old ones and those that end in the fresh node. The
-- induction is on the end of the path, as only its last step can be new.
theorem walk_eq_some_iff (h : g.Extends g' n A s) (ha : g.Ascending n) (hr : r < n)
    (hA : ∀ v ∈ A, v < n) {v : Nat} :
    g'.walk r p = some v ↔
      g.walk r p = some v ∨
      (v = n ∧ ∃ q, p = q ++ [s] ∧ ∃ a ∈ A, g.walk r q = some a ∧ g a s = none) := by
  induction p using List.reverseRecOn generalizing v
  case nil => simp [walk]
  case append_singleton p t ih =>
    simp only [walk_concat, Option.bind_eq_some_iff]
    constructor
    · intro ⟨w, hw, hv⟩
      cases ih.mp hw
      case inl hw =>
        by_cases hn : w ∈ A ∧ t = s ∧ g w s = none
        · rw [(h w t).left hn] at hv
          cases hv
          exact .inr ⟨rfl, p, by rw [hn.right.left], w, hn.left, hw, hn.right.right⟩
        · exact .inl ⟨w, hw, (h w t).right hn ▸ hv⟩
      case inr hw =>
        have hn : ¬(w ∈ A ∧ t = s ∧ g w s = none) := fun hn => by
          have := hA w hn.left; omega
        rw [(h w t).right hn] at hv
        have := ha.lt hv; have := ha.bound hv; omega
    · rintro (⟨w, hw, hv⟩ | ⟨rfl, q, hq, a, haA, hw, hn⟩)
      · exact ⟨w, ih.mpr <| .inl hw, h.mono hv⟩
      · have ⟨hp, ht⟩ := List.append_inj' hq rfl
        cases ht
        exact ⟨a, ih.mpr <| .inl <| hp ▸ hw, (h a _).left ⟨haA, rfl, hn⟩⟩

end Extends

def Tree (g : Edges σ) (r : Nat) : Prop :=
  ∀ {p q v}, g.walk r p = some v → g.walk r q = some v → p = q

def Reached (g : Edges σ) (r v : Nat) : Prop :=
  ∃ p, g.walk r p = some v

section Reached

variable {g' : Edges σ} {v c d : Nat} {t : σ}

theorem Reached.refl : g.Reached r r :=
  ⟨[], rfl⟩

theorem walk_cons (hc : g r s = some c) : g.walk r (s :: p) = g.walk c p := by
  rw [walk, hc, Option.bind_some]

theorem Reached.head (hc : g r s = some c) (hv : g.Reached c v) : g.Reached r v := by
  obtain ⟨p, hp⟩ := hv
  exact ⟨s :: p, by rw [walk_cons hc, hp]⟩

theorem Reached.cases (h : g.Reached r v) : v = r ∨ ∃ s c, g r s = some c ∧ g.Reached c v := by
  obtain ⟨p, hp⟩ := h
  cases p
  case nil => exact .inl (Option.some.inj hp).symm
  case cons s p =>
    obtain ⟨c, hc, hp⟩ := Option.bind_eq_some_iff.mp hp
    exact .inr ⟨s, c, hc, p, hp⟩

theorem walk_congr (h : ∀ v, g.Reached r v → g' v = g v) : g'.walk r p = g.walk r p := by
  induction p generalizing r
  case nil => rfl
  case cons s p ih =>
    rw [walk, walk, h r .refl]
    cases hc : g r s
    case none => rfl
    case some c => exact ih fun v hv => h v <| hv.head hc

theorem reached_congr (h : ∀ v, g.Reached r v → g' v = g v) : g'.Reached r v ↔ g.Reached r v :=
  exists_congr fun _ => by rw [walk_congr h]

theorem walk_of_le (h : ∀ v s c, g' v s = some c → g v s = some c) (hp : g'.walk r p = some v) :
    g.walk r p = some v := by
  induction p generalizing r
  case nil => exact hp
  case cons s p ih =>
    obtain ⟨c, hc, hp⟩ := Option.bind_eq_some_iff.mp hp
    rw [walk_cons (h r s c hc)]
    exact ih hp

theorem Reached.of_le (h : ∀ v s c, g' v s = some c → g v s = some c) (hv : g'.Reached r v) : g.Reached r v :=
  hv.imp fun _ => walk_of_le h

theorem Tree.of_le (h : ∀ v s c, g' v s = some c → g v s = some c) (ht : g.Tree r) : g'.Tree r :=
  fun hp hq => ht (walk_of_le h hp) (walk_of_le h hq)

theorem Tree.child (ht : g.Tree r) (hc : g r s = some c) : g.Tree c := by
  intro p q v hp hq
  exact List.cons_injective <| ht ((walk_cons hc).trans hp) ((walk_cons hc).trans hq)

theorem Tree.not_reached_root (ht : g.Tree r) (hc : g r s = some c) : ¬g.Reached c r := by
  rintro ⟨p, hp⟩
  exact List.cons_ne_nil s p <| ht ((walk_cons hc).trans hp) rfl

theorem Tree.not_reached_of_ne (ht : g.Tree r) (hc : g r s = some c) (hd : g r t = some d) (hst : s ≠ t)
    (hv : g.Reached c v) : ¬g.Reached d v := by
  obtain ⟨p, hp⟩ := hv
  rintro ⟨q, hq⟩
  exact hst <| List.head_eq_of_cons_eq <| ht ((walk_cons hc).trans hp) ((walk_cons hd).trans hq)

def DepthLt (g : Edges σ) (r n : Nat) : Prop :=
  ∀ p v, g.walk r p = some v → p.length < n

theorem DepthLt.child (h : g.DepthLt r (n + 1)) (hc : g r s = some c) : g.DepthLt c n :=
  fun p v hp => Nat.lt_of_succ_lt_succ <| h (s :: p) v <| (walk_cons hc).trans hp

theorem DepthLt.of_le (hle : ∀ v s c, g' v s = some c → g v s = some c) (h : g.DepthLt r n) : g'.DepthLt r n :=
  fun p v hp => h p v <| walk_of_le hle hp

theorem DepthLt.congr (he : ∀ v, g.Reached r v → g' v = g v) (h : g.DepthLt r n) : g'.DepthLt r n :=
  fun p v hp => h p v <| walk_congr he ▸ hp

end Reached

theorem Extends.walk_eq_some_iff_of_tree {g' : Edges σ} {a : Nat} {q : List σ}
    (h : g.Extends g' n {a} s) (ha : g.Ascending n) (hr : r < n) (ht : g.Tree r)
    (hq : g.walk r q = some a) (hn : g a s = none) {v : Nat} :
    g'.walk r p = some v ↔ g.walk r p = some v ∨ (p = q ++ [s] ∧ v = n) := by
  have hA b (hb : b ∈ ({a} : Set Nat)) : b < n := hb ▸ ha.walk_lt hr hq
  rw [h.walk_eq_some_iff ha hr hA]
  refine or_congr_right ⟨?_, ?_⟩
  · rintro ⟨rfl, q', rfl, b, rfl, hq', _⟩
    exact ⟨by rw [ht hq' hq], rfl⟩
  · rintro ⟨rfl, rfl⟩
    exact ⟨rfl, q, rfl, a, rfl, hq, hn⟩

theorem Extends.tree {g' : Edges σ} {a : Nat} {q : List σ} (h : g.Extends g' n {a} s)
    (ha : g.Ascending n) (hr : r < n) (ht : g.Tree r) (hq : g.walk r q = some a) (hn : g a s = none) : g'.Tree r := by
  intro p p' v hp hp'
  rw [h.walk_eq_some_iff_of_tree ha hr ht hq hn] at hp hp'
  rcases hp with hp | ⟨rfl, rfl⟩ <;> rcases hp' with hp' | ⟨rfl, hv⟩
  · exact ht hp hp'
  · have := ha.walk_lt hr hp; omega
  · have := ha.walk_lt hr hp'; omega
  · rfl

end Edges

-- One extension: the paths whose nodes get the fresh node, and the label of the new edges.
structure Extension (σ : Type*) where
  paths : Language σ
  label : σ

-- The relation "leads to the same node" after one more extension. All paths that the extension adds
-- lead to its fresh node.
def share {σ : Type*} (R : List σ → List σ → Prop) (e : Extension σ) (p q : List σ) : Prop :=
  R p q ∨ ∃ p' q', p = p' ++ [e.label] ∧ q = q' ++ [e.label] ∧
    (∃ i ∈ e.paths, R p' i) ∧ (∃ i ∈ e.paths, R q' i) ∧ ¬R p p ∧ ¬R q q

def Shared {σ : Type*} (es : List (Extension σ)) : List σ → List σ → Prop :=
  es.foldl share fun p q => p = [] ∧ q = []

namespace Shared

variable {σ : Type*} {es : List (Extension σ)} {e : Extension σ} {p q : List σ}

theorem nil_iff : Shared ([] : List (Extension σ)) p q ↔ p = [] ∧ q = [] :=
  Iff.rfl

theorem concat_eq : Shared (es ++ [e]) = share (Shared es) e := by
  simp [Shared]

theorem mono {es' : List (Extension σ)} (h : Shared es p q) : Shared (es ++ es') p q := by
  induction es' using List.reverseRecOn
  case nil => simpa
  case append_singleton es' e ih =>
    rw [← List.append_assoc, concat_eq]
    exact .inl ih

theorem refl_concat_iff :
    Shared (es ++ [e]) p p ↔
      Shared es p p ∨ ∃ p', p = p' ++ [e.label] ∧ ∃ i ∈ e.paths, Shared es p' i := by
  rw [concat_eq]
  constructor
  · rintro (h | ⟨p', _, hp, -, h, -⟩)
    · exact .inl h
    · exact .inr ⟨p', hp, h⟩
  · rintro (h | ⟨p', hp, h⟩)
    · exact .inl h
    · by_cases hn : Shared es p p
      · exact .inl hn
      · exact .inr ⟨p', p', hp, hp, h, h, hn, hn⟩

theorem refl_subset_iff {D : Set (List σ)} (hD : [] ∈ D) :
    (∀ p, Shared es p p → p ∈ D) ↔
      ∀ pre e post, es = pre ++ e :: post → ∀ i ∈ e.paths, ∀ p, Shared pre p i → p ++ [e.label] ∈ D := by
  induction es using List.reverseRecOn
  case nil =>
    constructor
    · intro _ pre e post h; simp at h
    · intro _ p hp; exact (nil_iff.mp hp).left ▸ hD
  case append_singleton es e ih =>
    simp only [refl_concat_iff]
    constructor
    · intro h pre e' post he i hi p hp
      cases post using List.reverseRecOn
      case nil =>
        have ⟨hp', he'⟩ := List.append_inj' he rfl
        cases he'
        exact h _ <| .inr ⟨p, rfl, i, hi, hp' ▸ hp⟩
      case append_singleton post e'' _ =>
        rw [← List.cons_append, ← List.append_assoc] at he
        have ⟨he, _⟩ := List.append_inj' he rfl
        exact ih.mp (fun p hp => h p <| .inl hp) pre e' post he i hi p hp
    · rintro h p (hp | ⟨p', rfl, i, hi, hp⟩)
      · refine ih.mpr (fun pre e' post he => ?_) p hp
        exact h pre e' (post ++ [e]) (by simp [he])
      · exact h es e [] rfl i hi p' hp

theorem eq_of_single (h : ∀ e ∈ es, ∀ i ∈ e.paths, ∀ j ∈ e.paths, i = j) (hs : Shared es p q) : p = q := by
  induction es using List.reverseRecOn generalizing p q
  case nil =>
    have ⟨hp, hq⟩ := nil_iff.mp hs
    rw [hp, hq]
  case append_singleton es e ih =>
    have ih {p q} : Shared es p q → p = q := ih fun e' he => h e' (by simp [he])
    rw [concat_eq] at hs
    rcases hs with hs | ⟨p', q', rfl, rfl, ⟨i, hi, hp⟩, ⟨j, hj, hq⟩, -⟩
    · exact ih hs
    · rw [ih hp, ih hq, h e (by simp) i hi j hj]

end Shared

namespace Edges

variable {σ : Type*} {g g' : Edges σ} {r n : Nat} {R : List σ → List σ → Prop} {s : σ}

def Represents (g : Edges σ) (r : Nat) (R : List σ → List σ → Prop) : Prop :=
  ∀ p q, R p q ↔ ∃ v, g.walk r p = some v ∧ g.walk r q = some v

structure Reaches (g : Edges σ) (r : Nat) (I : Language σ) (A : Set Nat) : Prop where
  total : ∀ i ∈ I, ∃ v ∈ A, g.walk r i = some v
  onto : ∀ v ∈ A, ∃ i ∈ I, g.walk r i = some v

theorem Represents.refl_iff {p : List σ} (h : g.Represents r R) : R p p ↔ ∃ v, g.walk r p = some v := by
  simp [h p p]

theorem Represents.extends {I : Language σ} {A : Set Nat} (h : g.Represents r R)
    (he : g.Extends g' n A s) (ha : g.Ascending n) (hr : r < n) (hI : g.Reaches r I A) :
    g'.Represents r (share R ⟨I, s⟩) := by
  have hA v (hv : v ∈ A) : v < n := by
    have ⟨i, _, hi⟩ := hI.onto v hv
    exact ha.walk_lt hr hi
  have hnew {p} : (∃ q, p = q ++ [s] ∧ ∃ a ∈ A, g.walk r q = some a ∧ g a s = none) ↔
      ∃ q, p = q ++ [s] ∧ (∃ i ∈ I, R q i) ∧ ¬R p p := by
    refine exists_congr fun q => and_congr_right fun hp => ?_
    subst hp
    rw [h.refl_iff, walk_concat]
    constructor
    · intro ⟨a, haA, hq, hn⟩
      have ⟨i, hi, hw⟩ := hI.onto a haA
      exact ⟨⟨i, hi, (h q i).mpr ⟨a, hq, hw⟩⟩, by simp [hq, hn]⟩
    · intro ⟨⟨i, hi, hq⟩, hn⟩
      have ⟨a, hq, hi'⟩ := (h q i).mp hq
      have ⟨b, hb, hi⟩ := hI.total i hi
      cases hi.symm.trans hi'
      exact ⟨a, hb, hq, by simpa [hq, Option.eq_none_iff_forall_ne_some] using hn⟩
  intro p q
  simp only [he.walk_eq_some_iff ha hr hA, hnew]
  constructor
  · rintro (hpq | ⟨p', q', hp, hq, hi, hj, hnp, hnq⟩)
    · have ⟨v, hp, hq⟩ := (h p q).mp hpq
      exact ⟨v, .inl hp, .inl hq⟩
    · exact ⟨n, .inr ⟨rfl, p', hp, hi, hnp⟩, .inr ⟨rfl, q', hq, hj, hnq⟩⟩
  · rintro ⟨v, hp | ⟨rfl, p', hp, hi, hnp⟩, hq | ⟨hv, q', hq, hj, hnq⟩⟩
    · exact .inl <| (h p q).mpr ⟨v, hp, hq⟩
    · have := ha.walk_lt hr hp; omega
    · have := ha.walk_lt hr hq; omega
    · exact .inr ⟨p', q', hp, hq, hi, hj, hnp, hnq⟩

end Edges
