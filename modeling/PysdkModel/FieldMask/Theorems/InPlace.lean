import PysdkModel.FieldMask.InPlace
import PysdkModel.FieldMask.Theorems.Division
import PysdkModel.FieldMask.Theorems.Heap
import PysdkModel.Lib.Except

namespace MaskObject

variable {κ : Type} [DecidableEq κ] {o : MaskObject κ} {s t : Step κ}

theorem child?_removeChild : (o.removeChild s).child? t = if t = s then none else o.child? t := by
  cases s <;> cases t <;> simp [removeChild, child?]

theorem isEmpty_iff : o.isEmpty ↔ ∀ s, o.child? s = none := by
  simp only [isEmpty, Bool.and_eq_true, Option.isNone_iff_eq_none, Dict.isEmpty_iff]
  constructor
  · rintro ⟨ha, hf⟩ s
    cases s
    case any => exact ha
    case key => exact hf _
  · exact fun h => ⟨h .any, fun k => h (.key k)⟩

theorem mem_steps_of_child? {c : Nat} (h : o.child? s = some c) : s ∈ o.steps := by
  cases s
  case any => exact List.mem_cons_self
  case key k => exact List.mem_cons_of_mem _ <| List.mem_map_of_mem <| Dict.mem_keys_iff.mpr ⟨c, h⟩

omit [DecidableEq κ] in
theorem nodup_steps : o.steps.Nodup := by
  refine List.nodup_cons.mpr ⟨by simp, ?_⟩
  exact List.Nodup.map (fun _ _ => Step.key.inj) o.fieldParts.nodup

end MaskObject

namespace MaskHeap

variable {κ : Type} [DecidableEq κ] {h g : MaskHeap κ} {r v a b c : Nat} {s t : Step κ} {m x : Mask κ}

section Objects

theorem child?_congr (he : g[v]? = h[v]?) : g.child? v = h.child? v := by
  funext s
  rw [child?, child?, he]

theorem child?_of_getElem? {o : MaskObject κ} (ho : h[r]? = some o) : h.child? r s = o.child? s := by
  rw [child?, ho, Option.bind_some]

theorem getElem?_setChild_of_ne (hv : v ≠ r) : (h.setChild r s c)[v]? = h[v]? := by
  simp [setChild, Ne.symm hv]

theorem getElem?_removeChild_of_ne (hv : v ≠ r) : (h.removeChild r s)[v]? = h[v]? := by
  simp [removeChild, Ne.symm hv]

theorem length_removeChild : (h.removeChild r s).length = h.length := by
  simp [removeChild]

theorem child?_removeChild : (h.removeChild r s).child? v t = if v = r ∧ t = s then none else h.child? v t := by
  by_cases hv : v = r
  · subst hv
    simp only [child?, removeChild, List.getElem?_modify, if_true, true_and]
    cases h[v]? <;> simp [MaskObject.child?_removeChild]
  · rw [child?_congr (getElem?_removeChild_of_ne hv), if_neg fun h => hv h.left]

theorem isEmpty_iff (hr : r < h.length) : h.isEmpty r ↔ ∀ s, h.child? r s = none := by
  obtain ⟨o, ho⟩ : ∃ o, h[r]? = some o := ⟨_, List.getElem?_eq_getElem hr⟩
  simp only [isEmpty, ho, Option.any_some, MaskObject.isEmpty_iff, child?_of_getElem? ho]

end Objects

namespace Unfolds

theorem of_children (hr : r < h.length) (hc : ∀ s, Option.Rel h.Unfolds (h.child? r s) (m.child? s)) :
    h.Unfolds r m := by
  refine ⟨fun p => ?_, fun p v hv => ?_⟩
  · cases p
    case nil => exact iff_of_true Mask.nil_mem_nodes ⟨r, rfl⟩
    case cons s p =>
      rw [Mask.cons_mem_nodes, Edges.walk]
      have hs := hc s
      generalize h.child? r s = o, m.child? s = z at hs
      cases hs
      case none => simp
      case some c x hu => simp [hu.nodes p]
  · cases p
    case nil => rwa [← Option.some.inj hv]
    case cons s p =>
      obtain ⟨c, hs, hv⟩ := Option.bind_eq_some_iff.mp hv
      have hu := hc s
      generalize m.child? s = z at hu
      rw [hs] at hu
      cases hu
      case some x hu => exact hu.bound p v hv

theorem children (hu : h.Unfolds r m) (s : Step κ) : Option.Rel h.Unfolds (h.child? r s) (m.child? s) := by
  cases hs : h.child? r s
  case some c =>
    obtain ⟨x, hx, hc⟩ := hu.child hs
    rw [hx]
    exact .some hc
  case none =>
    cases hx : m.child? s
    case none => exact .none
    case some x =>
      obtain ⟨c, hc⟩ := hu.child?_isSome hx
      cases hs.symm.trans hc

theorem congr (hu : h.Unfolds r m) (he : ∀ v, h.child?.Reached r v → g[v]? = h[v]?) : g.Unfolds r m := by
  have hw p : g.child?.walk r p = h.child?.walk r p := Edges.walk_congr fun v hv => child?_congr (he v hv)
  refine ⟨fun p => by rw [hu.nodes, hw], fun p v hv => ?_⟩
  rw [hw] at hv
  have hv := (he v ⟨p, hv⟩).trans <| List.getElem?_eq_getElem (hu.bound p v hv)
  exact (List.getElem?_eq_some_iff.mp hv).1

theorem isEmpty_iff (hu : h.Unfolds r m) : h.isEmpty r ↔ m.isEmpty := by
  rw [MaskHeap.isEmpty_iff hu.lt_length, Mask.isEmpty_iff]
  refine forall_congr' fun s => ?_
  have hs := hu.children s
  generalize h.child? r s = o, m.child? s = z at hs
  cases hs <;> simp

end Unfolds

theorem rel_unfolds_mono {o : Option Nat} {z : Option (Mask κ)} (hr : Option.Rel h.Unfolds o z)
    (hu : ∀ c x, o = some c → h.Unfolds c x → g.Unfolds c x) : Option.Rel g.Unfolds o z := by
  cases hr
  case none => exact .none
  case some c x hx => exact .some <| hu c x rfl hx

-- The mask `a` after the branches of `L` have been subtracted from. The branches outside of `R` have not been touched.
structure Subtracting (h g : MaskHeap κ) (a : Nat) (m t : Mask κ) (L R : Set (Step κ)) : Prop where
  length : g.length = h.length
  frame : ∀ v, ¬h.child?.Reached a v → g[v]? = h[v]?
  edges : ∀ v s c, g.child? v s = some c → h.child? v s = some c
  done : ∀ s ∈ L, Option.Rel g.Unfolds (g.child? a s) (Mask.dumbBranch (m.child? s) (t.child? s))
  rest : ∀ s ∉ R, g.child? a s = h.child? a s ∧
    ∀ c v, h.child? a s = some c → h.child?.Reached c v → g[v]? = h[v]?

structure Subtracted (h g : MaskHeap κ) (a : Nat) (m : Mask κ) : Prop where
  length : g.length = h.length
  frame : ∀ v, ¬h.child?.Reached a v → g[v]? = h[v]?
  edges : ∀ v s c, g.child? v s = some c → h.child? v s = some c
  unfolds : g.Unfolds a m

namespace Subtracting

variable {g₁ : MaskHeap κ} {t y : Mask κ} {L R : Set (Step κ)}

theorem initial : Subtracting h h a m t ∅ ∅ where
  length := rfl
  frame := fun _ _ => rfl
  edges := fun _ _ _ => id
  done := fun _ hs => absurd hs (Set.notMem_empty _)
  rest := fun _ _ => ⟨rfl, fun _ _ _ _ => rfl⟩

theorem descend (hg : Subtracting h g a m t L L) (ht : h.child?.Tree a) (hs : s ∉ L) (hc : h.child? a s = some c)
    (h₁ : Subtracted g g₁ c x) : Subtracting h g₁ a m t L (insert s L) ∧ g₁.child? a s = some c := by
  have hle {v} (hv : g.child?.Reached c v) : h.child?.Reached c v := hv.of_le hg.edges
  have hroot : g₁[a]? = g[a]? := h₁.frame a fun hr => ht.not_reached_root hc (hle hr)
  have hother {s' d v} (hne : s' ≠ s) (hd : h.child? a s' = some d) (hv : h.child?.Reached d v) : g₁[v]? = g[v]? :=
    h₁.frame v fun hr => ht.not_reached_of_ne hc hd (Ne.symm hne) (hle hr) hv
  refine ⟨⟨h₁.length.trans hg.length, fun v hv => ?_, fun v s' d hd => hg.edges v s' d <| h₁.edges v s' d hd,
    fun s' hs' => ?_, fun s' hs' => ?_⟩, ?_⟩
  · exact (h₁.frame v fun hr => hv <| (hle hr).head hc).trans <| hg.frame v hv
  · have hne : s' ≠ s := fun he => hs (he ▸ hs')
    rw [child?_congr hroot]
    refine rel_unfolds_mono (hg.done s' hs') fun d z hd hu => hu.congr fun v hv => ?_
    exact hother hne (hg.edges _ _ _ hd) <| hv.of_le hg.edges
  · obtain ⟨hne, hs'⟩ := not_or.mp <| mt Set.mem_insert_iff.mpr hs'
    obtain ⟨he, hv⟩ := hg.rest s' hs'
    rw [child?_congr hroot]
    exact ⟨he, fun d v hd hr => (hother hne hd hr).trans <| hv d v hd hr⟩
  · rw [child?_congr hroot, (hg.rest s hs).left, hc]

theorem keep (hg : Subtracting h g a m t L (insert s L))
    (hs : Option.Rel g.Unfolds (g.child? a s) (Mask.dumbBranch (m.child? s) (t.child? s))) :
    Subtracting h g a m t (insert s L) (insert s L) :=
  ⟨hg.length, hg.frame, hg.edges, Set.forall_mem_insert.mpr ⟨hs, hg.done⟩, hg.rest⟩

theorem remove (hg : Subtracting h g a m t L (insert s L)) (ht : h.child?.Tree a) (hs : s ∉ L)
    (hn : Mask.dumbBranch (m.child? s) (t.child? s) = none) :
    Subtracting h (g.removeChild a s) a m t (insert s L) (insert s L) := by
  have hroot {s' d v} (hd : h.child? a s' = some d) (hv : h.child?.Reached d v) : v ≠ a := by
    rintro rfl
    exact ht.not_reached_root hd hv
  refine ⟨length_removeChild.trans hg.length, fun v hv => ?_, fun v s' d hd => ?_, fun s' hs' => ?_, fun s' hs' => ?_⟩
  · have hva : v ≠ a := by
      rintro rfl
      exact hv .refl
    rw [getElem?_removeChild_of_ne hva, hg.frame v hv]
  · rw [child?_removeChild] at hd
    split at hd
    · cases hd
    · exact hg.edges v s' d hd
  · obtain rfl | hs' := Set.mem_insert_iff.mp hs'
    · rw [child?_removeChild, if_pos ⟨rfl, rfl⟩, hn]
      exact .none
    · have hne : s' ≠ s := fun he => hs (he ▸ hs')
      rw [child?_removeChild, if_neg fun h => hne h.right]
      refine rel_unfolds_mono (hg.done s' hs') fun d z hd hu => hu.congr fun v hv => getElem?_removeChild_of_ne ?_
      exact hroot (hg.edges _ _ _ hd) <| hv.of_le hg.edges
  · have hne : s' ≠ s := fun he => hs' (he ▸ Set.mem_insert _ _)
    obtain ⟨he, hv⟩ := hg.rest s' hs'
    rw [child?_removeChild, if_neg fun h => hne h.right]
    exact ⟨he, fun d v hd hr => (getElem?_removeChild_of_ne <| hroot hd hr).trans <| hv d v hd hr⟩

end Subtracting

structure Operands (h : MaskHeap κ) (a b : Nat) (m t : Mask κ) : Prop where
  left : h.Unfolds a m
  tree : h.child?.Tree a
  right : h.Unfolds b t
  apart : ∀ v, h.child?.Reached a v → ¬h.child?.Reached b v

def Subtracts (κ : Type) [DecidableEq κ] (n : Nat) : Prop :=
  ∀ {h : MaskHeap κ} {a b : Nat} {m t : Mask κ}, Operands h a b m t → h.child?.DepthLt a n →
    ∃ g, subtractDumb n a b h = some g ∧ Subtracted h g a (m.subtractDumb t)

section Subtraction

variable {t : Mask κ} {n : Nat} {L : Set (Step κ)}

theorem Operands.branch {y : Mask κ} {d : Nat} (ho : Operands h a b m t) (hg : Subtracting h g a m t L L) (hs : s ∉ L)
    (hc : h.child? a s = some c) (hd : h.child? b s = some d) (hx : h.Unfolds c x) (hy : h.Unfolds d y) :
    Operands g c d x y where
  left := hx.congr fun v hv => (hg.rest s hs).right c v hc hv
  tree := Edges.Tree.of_le hg.edges <| Edges.Tree.child ho.tree hc
  right := hy.congr fun v hv => hg.frame v fun ha => ho.apart v ha <| hv.head hd
  apart := fun v hv hd' => ho.apart v ((hv.of_le hg.edges).head hc) <| (hd'.of_le hg.edges).head hd

theorem subtractBranch_spec (hsub : Subtracts κ n) (ho : Operands h a b m t) (hn : h.child?.DepthLt a (n + 1))
    (hg : Subtracting h g a m t L L) (hs : s ∉ L) : ∃ g', subtractBranch (subtractDumb n) a b g s = some g' ∧
      Subtracting h g' a m t (insert s L) (insert s L) := by
  have hgb : g.child? b = h.child? b := child?_congr <| hg.frame b fun hr => ho.apart b hr .refl
  have hga : g.child? a s = h.child? a s := (hg.rest s hs).left
  have hg' : Subtracting h g a m t L (insert s L) :=
    ⟨hg.length, hg.frame, hg.edges, hg.done, fun s' hs' => hg.rest s' <| mt (Set.mem_insert_of_mem s) hs'⟩
  have hm := ho.left.children s
  have ht := ho.right.children s
  rw [subtractBranch, hgb, hga]
  cases hc : h.child? a s
  case none =>
    rw [hc] at hga hm
    refine ⟨g, rfl, hg'.keep ?_⟩
    generalize m.child? s = z at hm ⊢
    cases hm
    rw [hga]
    exact .none
  case some c =>
    rw [hc] at hga hm
    obtain ⟨x, hmx, hx⟩ := ho.left.child hc
    cases hd : h.child? b s
    case none =>
      have hts : t.child? s = none := by
        rw [hd] at ht
        generalize t.child? s = z at ht
        cases ht
        rfl
      refine ⟨g, rfl, hg'.keep ?_⟩
      rw [hga, hmx, hts]
      exact .some <| hx.congr fun v hv => (hg.rest s hs).right c v hc hv
    case some d =>
      obtain ⟨y, hty, hy⟩ := ho.right.child hd
      obtain ⟨g₁, h₁, hsub⟩ := hsub (ho.branch hg hs hc hd hx hy) <| (hn.child hc).of_le hg.edges
      obtain ⟨hg₁, hc₁⟩ := hg.descend ho.tree hs hc hsub
      simp only [h₁, Option.map_some, hsub.unfolds.isEmpty_iff]
      refine ⟨_, rfl, ?_⟩
      split
      case isTrue he =>
        refine hg₁.remove ho.tree hs ?_
        rw [hmx, hty, Mask.dumbBranch, if_pos he]
      case isFalse he =>
        refine hg₁.keep ?_
        rw [hc₁, hmx, hty, Mask.dumbBranch, if_neg he]
        exact .some hsub.unfolds

theorem subtractDumb_spec (n : Nat) : Subtracts κ n := by
  induction n
  case zero => exact fun _ hn => absurd (hn [] _ rfl) (by simp)
  case succ n ih =>
    intro h a b m t ho hn
    obtain ⟨g₁, h₁, hg₁⟩ := subtractBranch_spec ih ho hn .initial (Set.notMem_empty .any)
    have hl : a < g₁.length := hg₁.length ▸ ho.left.lt_length
    obtain ⟨o, hoa⟩ : ∃ o, g₁[a]? = some o := ⟨_, List.getElem?_eq_getElem hl⟩
    have hkeys : (o.fieldParts.keys.map Step.key).Nodup := List.Nodup.map (fun _ _ => Step.key.inj) o.fieldParts.nodup
    obtain ⟨g₂, h₂, hg₂⟩ := List.foldlM_visits (P := fun L g => Subtracting h g a m t L L)
      (fun hs hg => subtractBranch_spec ih ho hn hg hs) hg₁ hkeys (by simp)
    refine ⟨g₂, ?_, hg₂.length, hg₂.frame, hg₂.edges, .of_children (hg₂.length ▸ ho.left.lt_length) fun s => ?_⟩
    · rw [subtractDumb, h₁]
      simp only [Option.bind_eq_bind, Option.bind_some, hoa, h₂]
    · rw [Mask.child?_subtractDumb]
      by_cases hs : s ∈ insert .any ∅ ∪ { s | s ∈ o.fieldParts.keys.map .key }
      case pos => exact hg₂.done s hs
      have hs' : s ∉ (insert .any ∅ : Set (Step κ)) := fun hm => hs <| .inl hm
      have hn : g₁.child? a s = none := by
        rw [child?_of_getElem? hoa]
        cases s
        case any => exact absurd (Set.mem_insert _ _) hs'
        case key k =>
          exact Dict.get?_eq_none_iff.mpr fun hk => hs <| .inr <| List.mem_map_of_mem hk
      rw [(hg₁.rest s hs').left] at hn
      have hm := ho.left.children s
      rw [hn] at hm
      rw [(hg₂.rest s hs).left, hn]
      generalize m.child? s = z at hm ⊢
      cases hm
      exact .none

end Subtraction

-- The new object `h.length` after the branches of `L` have been copied to it from `r`.
structure Copying (h g : MaskHeap κ) (r : Nat) (L : Set (Step κ)) : Prop where
  old : ∀ v < h.length, g[v]? = h[v]?
  lt : h.length < g.length
  fresh : ∀ v, g.child?.Reached h.length v → h.length ≤ v ∧ v < g.length
  tree : g.child?.Tree h.length
  done : ∀ s ∈ L, ∀ p, (g.child?.walk h.length (s :: p)).isSome ↔ (h.child?.walk r (s :: p)).isSome
  rest : ∀ s ∉ L, g.child? h.length s = none

structure Copied (h g : MaskHeap κ) (r : Nat) : Prop where
  old : ∀ v < h.length, g[v]? = h[v]?
  lt : h.length < g.length
  fresh : ∀ v, g.child?.Reached h.length v → h.length ≤ v ∧ v < g.length
  tree : g.child?.Tree h.length
  paths : ∀ p, (g.child?.walk h.length p).isSome ↔ (h.child?.walk r p).isSome

def Copies (κ : Type) [DecidableEq κ] (n : Nat) : Prop :=
  ∀ {h : MaskHeap κ} {r : Nat} {m : Mask κ}, h.Unfolds r m → h.child?.DepthLt r n →
    ∃ g, copyMask n r h = some (g, h.length) ∧ Copied h g r

section Copy

variable {n : Nat} {L : Set (Step κ)} {g₁ : MaskHeap κ}

theorem Unfolds.lt_of_reached (hu : h.Unfolds r m) (hv : h.child?.Reached r v) : v < h.length := by
  obtain ⟨p, hp⟩ := hv
  exact hu.bound p v hp

theorem Copied.unfolds (hc : Copied h g r) (hu : h.Unfolds r m) : g.Unfolds h.length m := by
  refine ⟨fun p => ?_, fun p v hv => (hc.fresh v ⟨p, hv⟩).right⟩
  rw [hu.nodes, ← Option.isSome_iff_exists, ← Option.isSome_iff_exists, hc.paths]

theorem Copying.initial : Copying h h.alloc r ∅ where
  old := fun v hv => by rw [alloc, List.getElem?_append_left hv]
  lt := by rw [length_alloc]; omega
  fresh := fun v hv => by
    obtain rfl | ⟨s, c, hc, -⟩ := hv.cases
    · exact ⟨le_rfl, by rw [length_alloc]; omega⟩
    · rw [child?_alloc, child?_eq_none_of_ge le_rfl] at hc
      cases hc
  tree := fun {p q v} hp hq => by
    have hn s p : h.alloc.child?.walk h.length (s :: p) = none := by
      rw [Edges.walk, child?_alloc, child?_eq_none_of_ge le_rfl, Option.bind_none]
    cases p <;> cases q
    case nil.nil => rfl
    all_goals simp [hn] at hp hq
  done := fun _ hs => absurd hs (Set.notMem_empty _)
  rest := fun s _ => by rw [child?_alloc, child?_eq_none_of_ge le_rfl]

namespace Copying

section

variable (hg : Copying h g r L) (h₁ : Copied g g₁ c)

include hg h₁

theorem child?_root (hst : t ≠ s) : (g₁.setChild h.length s g.length).child? h.length t = g.child? h.length t := by
  rw [child?_setChild (hg.lt.trans h₁.lt), if_neg fun h => hst h.right, child?_congr (h₁.old _ hg.lt)]

theorem walk_attached (s : Step κ) (p : List (Step κ)) :
    (g₁.setChild h.length s g.length).child?.walk h.length (s :: p) = g₁.child?.walk g.length p := by
  have hc : (g₁.setChild h.length s g.length).child? h.length s = some g.length := by
    rw [child?_setChild (hg.lt.trans h₁.lt), if_pos ⟨rfl, rfl⟩]
  rw [Edges.walk_cons hc]
  refine Edges.walk_congr fun v hv => child?_congr <| getElem?_setChild_of_ne ?_
  have := (h₁.fresh v hv).left
  have := hg.lt
  omega

theorem walk_others (hst : t ≠ s) (p : List (Step κ)) :
    (g₁.setChild h.length s g.length).child?.walk h.length (t :: p) = g.child?.walk h.length (t :: p) := by
  rw [Edges.walk, Edges.walk, child?_root hg h₁ hst]
  cases hd : g.child? h.length t
  case none => rfl
  case some d =>
    refine Edges.walk_congr fun v hv => child?_congr ?_
    have hr : v ≠ h.length := by
      rintro rfl
      exact Edges.Tree.not_reached_root hg.tree hd hv
    rw [getElem?_setChild_of_ne hr, h₁.old v (hg.fresh v <| hv.head hd).right]

theorem fresh_attached (hv : (g₁.setChild h.length s g.length).child?.Reached h.length v) :
    h.length ≤ v ∧ v < g₁.length := by
  obtain ⟨p, hp⟩ := hv
  have := hg.lt
  have := h₁.lt
  cases p
  case nil =>
    cases hp
    omega
  case cons t p =>
    by_cases hst : t = s
    · subst hst
      rw [walk_attached hg h₁] at hp
      have := h₁.fresh v ⟨p, hp⟩
      omega
    · rw [walk_others hg h₁ hst] at hp
      have := hg.fresh v ⟨_, hp⟩
      omega

theorem tree_attached : (g₁.setChild h.length s g.length).child?.Tree h.length := by
  have hlt := hg.lt
  -- The attached branch consists of nodes that are newer than all others.
  have hnew {t p v} (hp : (g₁.setChild h.length s g.length).child?.walk h.length (t :: p) = some v) :
      t = s ∧ g.length ≤ v ∧ g₁.child?.walk g.length p = some v ∨
      t ≠ s ∧ v < g.length ∧ g.child?.walk h.length (t :: p) = some v := by
    by_cases hst : t = s
    · subst hst
      rw [walk_attached hg h₁] at hp
      exact .inl ⟨rfl, (h₁.fresh v ⟨p, hp⟩).left, hp⟩
    · rw [walk_others hg h₁ hst] at hp
      exact .inr ⟨hst, (hg.fresh v ⟨_, hp⟩).right, hp⟩
  have hroot {t p} (hp : (g₁.setChild h.length s g.length).child?.walk h.length (t :: p) = some h.length) : False := by
    obtain ⟨-, hv, -⟩ | ⟨-, -, hp⟩ := hnew hp
    · omega
    · exact List.cons_ne_nil _ _ <| hg.tree hp rfl
  intro p q v hp hq
  cases p <;> cases q
  case nil.nil => rfl
  case nil.cons =>
    cases hp
    exact (hroot hq).elim
  case cons.nil =>
    cases hq
    exact (hroot hp).elim
  case cons.cons =>
    obtain ⟨hs, hv, hp'⟩ | ⟨-, hv, hp'⟩ := hnew hp <;> obtain ⟨hs', hv', hq'⟩ | ⟨-, hv', hq'⟩ := hnew hq
    · rw [hs, hs', h₁.tree hp' hq']
    · omega
    · omega
    · exact hg.tree hp' hq'

theorem attach (hs : s ∉ L) (hc : ∀ p, (g.child?.walk c p).isSome ↔ (h.child?.walk r (s :: p)).isSome) :
    Copying h (g₁.setChild h.length s g.length) r (insert s L) := by
  have := hg.lt
  have := h₁.lt
  refine ⟨fun v hv => ?_, ?_, fun v hv => ?_, tree_attached hg h₁, fun t ht p => ?_, fun t ht => ?_⟩
  · rw [getElem?_setChild_of_ne (by omega), h₁.old v (by omega), hg.old v hv]
  · rw [length_setChild]
    omega
  · rw [length_setChild]
    exact fresh_attached hg h₁ hv
  · obtain rfl | ht := Set.mem_insert_iff.mp ht
    · rw [walk_attached hg h₁, h₁.paths, hc]
    · have hst : t ≠ s := fun he => hs (he ▸ ht)
      rw [walk_others hg h₁ hst, hg.done t ht]
  · obtain ⟨hst, ht⟩ := not_or.mp <| mt Set.mem_insert_iff.mpr ht
    rw [child?_root hg h₁ hst, hg.rest t ht]

end

theorem keep (hg : Copying h g r L) (hs : h.child? r s = none) (hsL : s ∉ L) : Copying h g r (insert s L) := by
  refine ⟨hg.old, hg.lt, hg.fresh, hg.tree, Set.forall_mem_insert.mpr ⟨fun p => ?_, hg.done⟩, fun t ht => ?_⟩
  · rw [Edges.walk, Edges.walk, hs, hg.rest s hsL, Option.bind_none, Option.bind_none]
  · exact hg.rest t <| mt (Set.mem_insert_of_mem s) ht

end Copying

theorem copyBranch_spec (hcopy : Copies κ n) (hu : h.Unfolds r m) (hn : h.child?.DepthLt r (n + 1))
    (hg : Copying h g r L) (hs : s ∉ L) :
    ∃ g', copyBranch (copyMask n) r h.length g s = some g' ∧ Copying h g' r (insert s L) := by
  rw [copyBranch, child?_congr (hg.old r hu.lt_length)]
  cases hc : h.child? r s
  case none => exact ⟨g, rfl, hg.keep hc hs⟩
  case some c =>
    obtain ⟨x, -, hx⟩ := hu.child hc
    have he v (hv : h.child?.Reached c v) : g[v]? = h[v]? := hg.old v <| hx.lt_of_reached hv
    have he' v (hv : h.child?.Reached c v) : g.child? v = h.child? v := child?_congr (he v hv)
    obtain ⟨g₁, h₁, hg₁⟩ := hcopy (hx.congr he) <| (hn.child hc).congr he'
    refine ⟨g₁.setChild h.length s g.length, by simp only [h₁, Option.map_some], hg.attach hg₁ hs fun p => ?_⟩
    rw [Edges.walk_cons hc, Edges.walk_congr he']

theorem copyMask_spec (n : Nat) : Copies κ n := by
  induction n
  case zero => exact fun _ hn => absurd (hn [] _ rfl) (by simp)
  case succ n ih =>
    intro h r m hu hn
    obtain ⟨o, hor⟩ : ∃ o, h[r]? = some o := ⟨_, List.getElem?_eq_getElem hu.lt_length⟩
    obtain ⟨g, hg, hL⟩ := List.foldlM_visits (P := fun L g => Copying h g r L)
      (fun hs hg => copyBranch_spec ih hu hn hg hs) .initial o.nodup_steps (fun _ _ => Set.notMem_empty _)
    refine ⟨g, ?_, hL.old, hL.lt, hL.fresh, hL.tree, fun p => ?_⟩
    · rw [copyMask, hor]
      simp only [Option.bind_eq_bind, Option.bind_some, hg, Option.pure_def]
    · cases p
      case nil => exact iff_of_true rfl rfl
      case cons s p =>
        by_cases hs : s ∈ ∅ ∪ { s | s ∈ o.steps }
        case pos => exact hL.done s hs p
        have hc : h.child? r s = none := by
          rw [child?_of_getElem? hor]
          by_contra hn
          obtain ⟨c, hc⟩ := Option.ne_none_iff_exists'.mp hn
          exact hs <| .inr <| MaskObject.mem_steps_of_child? hc
        rw [Edges.walk, Edges.walk, hc, hL.rest s hs, Option.bind_none, Option.bind_none]

end Copy

section Division

variable {t : Mask κ} {n : Nat}

theorem length_le_of_mem_nodes {p : List (Step κ)} (h : p ∈ m.nodes) : p.length ≤ m.size := by
  induction p generalizing m
  case nil => exact Nat.zero_le _
  case cons s p ih =>
    obtain ⟨c, hc, hp⟩ := Mask.cons_mem_nodes.mp h
    exact (ih hp).trans_lt <| Mask.size_child?_lt hc

theorem Unfolds.depthLt (hu : h.Unfolds r m) (hn : m.size < n) : h.child?.DepthLt r n :=
  fun p v hp => (length_le_of_mem_nodes <| (hu.nodes p).mpr ⟨v, hp⟩).trans_lt hn

theorem truediv_spec (hm : h.Unfolds a m) (ht : h.Unfolds b t) (hn : h.child?.DepthLt a n) :
    ∃ g r, truediv n a b h = some (g, r) ∧ g.Unfolds r (m / t) ∧ ∀ v < h.length, g[v]? = h[v]? := by
  obtain ⟨g₁, h₁, hc⟩ := copyMask_spec n hm hn
  have hb v (hv : h.child?.Reached b v) : g₁[v]? = h[v]? := hc.old v <| ht.lt_of_reached hv
  have ho : Operands g₁ h.length b m.copy t := by
    refine ⟨?_, hc.tree, ht.congr hb, fun v hv hv' => ?_⟩
    · have hu := hc.unfolds hm
      exact ⟨fun p => by rw [Mask.nodes_copy, hu.nodes], hu.bound⟩
    · have := (hc.fresh v hv).left
      have := ht.lt_of_reached <| (Edges.reached_congr fun v hv => child?_congr (hb v hv)).mp hv'
      omega
  have hn' : g₁.child?.DepthLt h.length n := by
    intro p v hp
    obtain ⟨w, hw⟩ := Option.isSome_iff_exists.mp <| (hc.paths p).mp <| Option.isSome_iff_exists.mpr ⟨v, hp⟩
    exact hn p w hw
  obtain ⟨g, hg, hs⟩ := subtractDumb_spec n ho hn'
  refine ⟨g, h.length, ?_, hs.unfolds, fun v hv => ?_⟩
  · simp only [truediv, h₁, hg, Option.bind_eq_bind, Option.bind_some, Option.pure_def]
  · rw [hs.frame v, hc.old v hv]
    intro hr
    have := (hc.fresh v hr).left
    omega

-- What `/` does to the objects `a` and `b`, which stand for the masks `m` and `o`: it leaves all objects as they are
-- and returns a new one, whose leaf chains are those of `m` that are not chains of nodes of `o`.
structure Divides (h : MaskHeap κ) (a b : Nat) (m o : Mask κ) : Prop where
  returns : ∃ depth, ∀ n ≥ depth, ∃ g r, truediv n a b h = some (g, r) ∧ g.Unfolds r (m / o) ∧
    ∀ v < h.length, g[v]? = h[v]?
  chains : ∀ c, Mask.LeafChain (m / o) c ↔ Mask.LeafChain m c ∧ c ∉ o.nodes
  empty : (m / o).isEmpty ↔ ¬∃ c, Mask.LeafChain m c ∧ c ∉ o.nodes
  idem : m / o / o == m / o
  comm : ∀ o', m / o / o' == m / o' / o

theorem divides (hm : h.Unfolds a m) (ho : h.Unfolds b t) : Divides h a b m t where
  returns := ⟨m.size + 1, fun _ hn => truediv_spec hm ho <| hm.depthLt hn⟩
  chains := fun _ => Mask.leafChain_div
  empty := Mask.isEmpty_div_iff
  idem := Mask.div_idem
  comm := fun _ => Mask.div_right_comm

def wildcardHeap : MaskHeap FieldKey :=
  [{ any := some 1, fieldParts := ∅ }, ∅]

theorem wildcardHeap_unfolds : wildcardHeap.Unfolds 0 (.mk (some ∅) ∅) := by
  have hleaf : wildcardHeap.Unfolds 1 ∅ := by
    refine .of_children (by decide) fun s => ?_
    rw [Mask.child?_empty]
    cases s <;> exact .none
  refine .of_children (by decide) fun s => ?_
  cases s
  case any =>
    rw [Mask.child?_any, Mask.any_mk]
    exact .some hleaf
  case key =>
    rw [Mask.child?_key, Mask.fieldParts_mk]
    exact .none

theorem wildcardHeap_divides : wildcardHeap.Unfolds 0 (.mk (some ∅) ∅) ∧
    Divides wildcardHeap 0 0 (.mk (some ∅) ∅) (.mk (some ∅) ∅) :=
  ⟨wildcardHeap_unfolds, divides wildcardHeap_unfolds wildcardHeap_unfolds⟩

end Division

end MaskHeap
