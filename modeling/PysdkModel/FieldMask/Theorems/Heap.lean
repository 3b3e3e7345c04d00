import PysdkModel.FieldMask.Heap
import PysdkModel.FieldMask.Theorems.Nodes

namespace MaskHeap

variable {κ : Type} [DecidableEq κ] {h : MaskHeap κ} {r : Nat} {m : Mask κ}

structure Unfolds (h : MaskHeap κ) (r : Nat) (m : Mask κ) : Prop where
  nodes : ∀ p, p ∈ m.nodes ↔ ∃ v, h.child?.walk r p = some v
  bound : ∀ p v, h.child?.walk r p = some v → v < h.length

variable {s : Step κ}

theorem child?_of_copy {n : Nat} (hc : h.copy (n + 1) r = some m) : m.child? s = (h.child? r s).bind (h.copy n) := by
  simp only [copy, Option.bind_eq_bind, Option.bind_eq_some_iff, Option.pure_def,
    Option.some.injEq] at hc
  obtain ⟨o, ho, any, ha, fieldParts, hf, rfl⟩ := hc
  cases s
  case any =>
    simp only [child?, ho, Option.bind_some, MaskObject.child?, Mask.child?_any, Mask.any_mk]
    cases hoa : o.any <;> simp_all
    case some a => cases hca : h.copy n a <;> simp_all
  case key k =>
    simp [child?, ho, MaskObject.child?, Dict.get?_of_mapM? hf]

theorem copy_isSome {n : Nat} (hr : r < h.length)
    (hc : ∀ s c, h.child? r s = some c → (h.copy n c).isSome) : ∃ m, h.copy (n + 1) r = some m := by
  have ho : h[r]? = some h[r] := List.getElem?_eq_getElem hr
  obtain ⟨fieldParts, hf⟩ := Dict.mapM?_isSome (d := h[r].fieldParts) (f := h.copy n) fun k c hk =>
    hc (.key k) c <| by simpa [child?, ho, MaskObject.child?]
  have hany a (ha : h[r].any = some a) : (h.copy n a).isSome :=
    hc .any a <| by simpa [child?, ho, MaskObject.child?]
  cases ha : h[r].any
  case none => exact ⟨.mk none fieldParts, by simp [copy, ho, ha, hf]⟩
  case some a =>
    obtain ⟨m, hm⟩ := Option.isSome_iff_exists.mp <| hany a ha
    exact ⟨.mk (some m) fieldParts, by simp [copy, ho, ha, hf, hm]⟩

theorem isSome_of_copy {n c : Nat} (hc : h.copy (n + 1) r = some m)
    (hs : h.child? r s = some c) : (h.copy n c).isSome := by
  simp only [copy, Option.bind_eq_bind, Option.bind_eq_some_iff, Option.pure_def,
    Option.some.injEq] at hc
  obtain ⟨o, ho, any, ha, fieldParts, hf, -⟩ := hc
  simp only [child?, ho, Option.bind_some] at hs
  cases s
  case any =>
    simp only [MaskObject.child?] at hs
    simp only [hs, Option.elim_some, Option.map_eq_some_iff] at ha
    obtain ⟨_, ha, -⟩ := ha
    simp [ha]
  case key k => exact Dict.isSome_of_mapM? hf hs

theorem unfolds_of_copy (ha : h.child?.Ascending h.length) {n : Nat} (hr : r < h.length)
    (hc : h.copy n r = some m) : h.Unfolds r m := by
  induction n generalizing r m
  case zero => cases hc
  case succ n ih =>
    refine ⟨fun p => ?_, fun p v => ha.walk_lt hr⟩
    cases p
    case nil => simp [Mask.nil_mem_nodes, Edges.walk]
    case cons s p =>
      rw [Mask.cons_mem_nodes, child?_of_copy hc, Edges.walk]
      cases hs : h.child? r s
      case none => simp
      case some c =>
        obtain ⟨m', hm'⟩ := Option.isSome_iff_exists.mp <| isSome_of_copy hc hs
        simp [hm', (ih (ha.bound hs) hm').nodes p]

theorem copy_isSome_iff (ha : h.child?.Ascending h.length) {n : Nat} (hr : r < h.length) :
    (h.copy n r).isSome ↔ ∀ p v, h.child?.walk r p = some v → p.length < n := by
  induction n generalizing r
  case zero => simpa [copy] using ⟨[], r, rfl⟩
  case succ n ih =>
    constructor
    · intro hc p v hp
      obtain ⟨m, hm⟩ := Option.isSome_iff_exists.mp hc
      cases p
      case nil => simp
      case cons s p =>
        obtain ⟨c, hs, hp⟩ := Option.bind_eq_some_iff.mp hp
        have := (ih (ha.bound hs)).mp (isSome_of_copy hm hs) p v hp
        simpa using this
    · intro hp
      obtain ⟨m, hm⟩ := copy_isSome (n := n) hr fun s c hs => (ih (ha.bound hs)).mpr fun p v hv => by
        have := hp (s :: p) v (by simp [Edges.walk, hs, hv])
        simpa using this
      simp [hm]

theorem copy_unfolds (ha : h.child?.Ascending h.length) (hr : r < h.length) : ∃ m, h.Unfolds r m := by
  have hc {n : Nat} {r : Nat} (hr : r < h.length) (hn : h.length ≤ n + r) : (h.copy n r).isSome := by
    induction n generalizing r
    case zero => omega
    case succ n ih =>
      obtain ⟨m, hm⟩ := copy_isSome (n := n) hr fun s c hs => by
        have := ha.lt hs
        exact ih (ha.bound hs) (by omega)
      simp [hm]
  obtain ⟨m, hm⟩ := Option.isSome_iff_exists.mp <| hc hr (Nat.le_add_right ..)
  exact ⟨m, unfolds_of_copy ha hr hm⟩

namespace Unfolds

theorem lt_length (hu : h.Unfolds r m) : r < h.length :=
  hu.bound [] r rfl

theorem child {c : Nat} (hu : h.Unfolds r m) (hc : h.child? r s = some c) :
    ∃ m', m.child? s = some m' ∧ h.Unfolds c m' := by
  have hw p : h.child?.walk r (s :: p) = h.child?.walk c p := by simp [Edges.walk, hc]
  obtain ⟨m', hm⟩ := Mask.singleton_mem_nodes.mp <| (hu.nodes [s]).mpr ⟨c, by rw [hw]; rfl⟩
  refine ⟨m', hm, fun p => ?_, fun p v hv => hu.bound (s :: p) v (hw p ▸ hv)⟩
  rw [← hw, ← hu.nodes, Mask.cons_mem_nodes, hm]
  simp

theorem child?_isSome {m' : Mask κ} (hu : h.Unfolds r m) (hm : m.child? s = some m') : ∃ c, h.child? r s = some c := by
  have ⟨v, hv⟩ := (hu.nodes [s]).mp <| Mask.singleton_mem_nodes.mpr ⟨m', hm⟩
  exact ⟨v, by simpa [Edges.walk] using hv⟩

theorem walk {p : List (Step κ)} {v : Nat} (hu : h.Unfolds r m) (hv : h.child?.walk r p = some v) :
    ∃ m', h.Unfolds v m' ∧ m'.size ≤ m.size := by
  induction p generalizing r m
  case nil => cases hv; exact ⟨m, hu, le_rfl⟩
  case cons s p ih =>
    simp only [Edges.walk, Option.bind_eq_some_iff] at hv
    obtain ⟨c, hc, hv⟩ := hv
    obtain ⟨m', hm, hu'⟩ := hu.child hc
    obtain ⟨m'', hu'', hs⟩ := ih hu' hv
    exact ⟨m'', hu'', hs.trans (Mask.size_child?_lt hm).le⟩

theorem acyclic {m : Mask κ} {p : List (Step κ)} (hu : h.Unfolds r m) : h.child?.walk r (s :: p) ≠ some r := by
  intro hw
  have ⟨c, hc, hp⟩ := Option.bind_eq_some_iff.mp hw
  have ⟨m', hm, hu'⟩ := hu.child hc
  have ⟨m'', hu'', hs⟩ := hu'.walk hp
  have := Mask.size_child?_lt hm
  exact hu''.acyclic hw
termination_by m.size

end Unfolds
end MaskHeap
