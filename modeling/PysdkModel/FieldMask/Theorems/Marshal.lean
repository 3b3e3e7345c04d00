import PysdkModel.FieldMask.Marshal
import PysdkModel.FieldMask.Theorems.Heap
import PysdkModel.FieldMask.Theorems.Lattice

namespace Marshal

theorem join_perm {ret ret' : List Text} (h : ret.Perm ret') : join ret = join ret' := by
  have hs : ret.insertionSort (· ≤ ·) = ret'.insertionSort (· ≤ ·) :=
    List.Perm.eq_of_sortedLE List.sortedLE_insertionSort List.sortedLE_insertionSort <|
      (List.perm_insertionSort ..).trans <| h.trans (List.perm_insertionSort ..).symm
  rw [join, join, h.length_eq, hs]

theorem join_congr {α β : Type} {xs : List (Step FieldKey × α)} {ys : List (Step FieldKey × β)}
    {f : Step FieldKey × α → Text} {g : Step FieldKey × β → Text} (hx : (xs.map Prod.fst).Nodup)
    (hy : (ys.map Prod.fst).Nodup) (hxy : ∀ s a, (s, a) ∈ xs → ∃ b, (s, b) ∈ ys ∧ f (s, a) = g (s, b))
    (hyx : ∀ s b, (s, b) ∈ ys → ∃ a, (s, a) ∈ xs) : join (xs.map f) = join (ys.map g) := by
  have hp : (xs.map fun x => (x.1, f x)).Perm (ys.map fun y => (y.1, g y)) := by
    have hn {γ : Type} {zs : List (Step FieldKey × γ)} {h : Step FieldKey × γ → Text}
        (hz : (zs.map Prod.fst).Nodup) : (zs.map fun z => (z.1, h z)).Nodup :=
      .of_map Prod.fst <| by simpa [Function.comp_def] using hz
    rw [List.perm_ext_iff_of_nodup (hn hx) (hn hy)]
    intro ⟨s, t⟩
    simp only [List.mem_map, Prod.mk.injEq, Prod.exists]
    constructor
    · rintro ⟨s, a, ha, rfl, rfl⟩
      have ⟨b, hb, he⟩ := hxy s a ha
      exact ⟨s, b, hb, rfl, he.symm⟩
    · rintro ⟨s, b, hb, rfl, rfl⟩
      have ⟨a, ha⟩ := hyx s b hb
      have ⟨b', hb', he⟩ := hxy s a ha
      cases List.inj_on_of_nodup_map hy hb hb' rfl
      exact ⟨s, a, ha, rfl, he⟩
  simpa [Function.comp_def] using join_perm <| hp.map Prod.snd

end Marshal

variable {m : Mask FieldKey}

namespace Mask

theorem segments_eq (m : Mask FieldKey) :
    m.segments = (m.children.map fun e => segmentOf e.1 e.2.segments).mergeSort := by
  conv => rhs; arg 1; rw [← List.attach_map_subtype_val m.children]
  rw [segments, List.map_map]
  rfl

theorem sorted_segments (m : Mask FieldKey) : m.segments.Pairwise (· ≤ ·) := by
  rw [segments_eq]
  have := List.pairwise_mergeSort' (α := Text) (· ≤ ·) (m.children.map fun e => segmentOf e.1 e.2.segments)
  simpa using this

theorem ne_nil_of_mem_segments {t : Text} (h : t ∈ m.segments) : t ≠ [] := by
  rw [segments_eq, List.mem_mergeSort, List.mem_map] at h
  obtain ⟨e, -, rfl⟩ := h
  have := e.1.text_ne_nil
  unfold segmentOf
  split <;> simp [this]

theorem segment_marshalTree {s : Step FieldKey} {c : Mask FieldKey} :
    Marshal.segment s c.marshalTree = segmentOf s c.segments := by
  have hne : ∀ t ∈ c.segments, t ≠ [] := fun _ => ne_nil_of_mem_segments
  unfold marshalTree
  generalize c.segments = ts at hne
  unfold segmentOf Marshal.segment
  rcases ts with _ | ⟨t, _ | ⟨t', ts⟩⟩
  case nil => simp [List.intercalate]
  case cons.nil => simp [List.intercalate, hne t List.mem_cons_self]
  case cons.cons => simp [List.intercalate]

theorem marshalTree_eq (m : Mask FieldKey) :
    m.marshalTree = Marshal.join (m.children.map fun e => Marshal.segment e.1 e.2.marshalTree) := by
  simp only [segment_marshalTree]
  rw [marshalTree, segments_eq, List.length_mergeSort, List.mergeSort_eq_insertionSort]
  rfl

theorem marshalTree_congr {a b : Mask FieldKey} (h : a.nodes = b.nodes) : a.marshalTree = b.marshalTree := by
  induction a using branch_induction generalizing b
  case h a ih =>
    rw [marshalTree_eq, marshalTree_eq]
    have hr := nodes_eq_iff_branches.mp h
    refine Marshal.join_congr nodup_branches nodup_branches (fun s x hx => ?_) fun s y hy => ?_
    case refine_1 =>
      have hs := hr s
      rw [mem_children_iff] at hx
      rw [hx] at hs
      cases hb : b.child? s <;> rw [hb] at hs <;> cases hs
      case some y hxy =>
        have := ih s x hx hxy
        exact ⟨y, mem_children_iff.mpr hb, by simp only [this]⟩
    case refine_2 =>
      have hs := hr s
      rw [mem_children_iff] at hy
      rw [hy] at hs
      cases ha : a.child? s <;> rw [ha] at hs <;> cases hs
      case some x hxy => exact ⟨x, mem_children_iff.mpr ha⟩

end Mask

namespace Marshal

variable {h : MaskHeap FieldKey} {results : Results} {visiting : List Nat} {pending : List (Nat × Bool)}

section Loop

variable {r : Nat} {o : MaskObject FieldKey}

theorem loop_cons {expanded : Bool} (ho : h[r]? = some o) :
    loop h ⟨results, visiting, (r, expanded) :: pending⟩ =
      if expanded then
        match segments results o with
        | none => .error .key
        | some ret => loop h ⟨results.set r (join ret), visiting.erase r, pending⟩
      else if results.contains r then
        loop h ⟨results, visiting, pending⟩
      else if visiting.contains r then
        .error .recursion
      else
        loop h ⟨results, r :: visiting, push results r o pending⟩ := by
  conv => lhs; rw [loop]
  split
  case h_1 hn => cases hn
  case h_2 hp =>
    cases hp
    split
    case h_1 hn => simp [hn] at ho
    case h_2 o' ho' => cases ho.symm.trans ho'; rfl

theorem loop_expanded {ret : List Text} (ho : h[r]? = some o) (hs : segments results o = some ret) :
    loop h ⟨results, visiting, (r, true) :: pending⟩ =
      loop h ⟨results.set r (join ret), visiting.erase r, pending⟩ := by
  simp [loop_cons ho, hs]

theorem loop_finished (ho : h[r]? = some o) (hr : results.contains r) :
    loop h ⟨results, visiting, (r, false) :: pending⟩ = loop h ⟨results, visiting, pending⟩ := by
  simp [loop_cons ho, hr]

theorem loop_enter (ho : h[r]? = some o) (hr : results.contains r = false) (hv : r ∉ visiting) :
    loop h ⟨results, visiting, (r, false) :: pending⟩ =
      loop h ⟨results, r :: visiting, push results r o pending⟩ := by
  simp [loop_cons ho, hr, hv]

end Loop

def Correct (h : MaskHeap FieldKey) (results : Results) : Prop :=
  ∀ r t, results.get? r = some t → ∃ m, h.Unfolds r m ∧ t = m.marshalTree

-- The loop takes an item from the stack and thereby adds results of `cs`, among others.
def Processes (h : MaskHeap FieldKey) (visiting : List Nat) (items : List (Nat × Bool)) (cs : List Nat) : Prop :=
  ∀ results pending, Correct h results →
    ∃ results', loop h ⟨results, visiting, items ++ pending⟩ = loop h ⟨results', visiting, pending⟩ ∧
      Correct h results' ∧ (∀ x, results.contains x → results'.contains x) ∧
      ∀ c ∈ cs, results'.contains c

theorem Processes.children {cs : List Nat} (hc : ∀ c ∈ cs, Processes h visiting [(c, false)] [c]) :
    Processes h visiting (cs.map (·, false)) cs := by
  induction cs
  case nil => exact fun results pending hr => ⟨results, rfl, hr, fun _ => id, by simp⟩
  case cons c cs ih =>
    intro results pending hr
    obtain ⟨r₁, hl₁, hr₁, hm₁, hc₁⟩ := hc c (by simp) results (cs.map (·, false) ++ pending) hr
    obtain ⟨r₂, hl₂, hr₂, hm₂, hc₂⟩ := ih (fun c h => hc c (by simp [h])) r₁ pending hr₁
    refine ⟨r₂, hl₁.trans hl₂, hr₂, fun x hx => hm₂ x <| hm₁ x hx, ?_⟩
    simp only [List.mem_cons, forall_eq_or_imp]
    exact ⟨hm₂ c <| hc₁ c (by simp), hc₂⟩

theorem segments_eq {o : MaskObject FieldKey} (hc : ∀ s c, o.child? s = some c → results.contains c) :
    segments results o = some (o.children.map fun e => segment e.1 ((results.get? e.2).getD default)) := by
  have hc e (he : e ∈ o.children) : ∃ t, results.get? e.2 = some t :=
    Dict.contains_iff.mp <| hc e.1 e.2 <| MaskObject.mem_children_iff.mp he
  rw [segments]
  generalize o.children = es at hc
  induction es
  case nil => rfl
  case cons e es ih =>
    have ⟨t, ht⟩ := hc e (by simp)
    simp [ht, ih fun e he => hc e (by simp [he])]

theorem join_segments {r : Nat} {o : MaskObject FieldKey} (ho : h[r]? = some o)
    (hu : h.Unfolds r m) (hr : Correct h results) (hc : ∀ s c, o.child? s = some c → results.contains c) :
    join (o.children.map fun e => segment e.1 ((results.get? e.2).getD default)) = m.marshalTree := by
  have hchild s : h.child? r s = o.child? s := by simp [MaskHeap.child?, ho]
  rw [Mask.marshalTree_eq]
  refine join_congr nodup_branches nodup_branches (fun s c hm => ?_) fun s m' hm => ?_
  case refine_1 =>
    rw [MaskObject.mem_children_iff, ← hchild] at hm
    obtain ⟨m', hm', hu'⟩ := hu.child hm
    obtain ⟨t, ht⟩ := Dict.contains_iff.mp <| hc s c (hchild s ▸ hm)
    obtain ⟨m'', hu'', ht'⟩ := hr c t ht
    refine ⟨m', Mask.mem_children_iff.mpr hm', ?_⟩
    have : m''.nodes = m'.nodes := Set.ext fun p => (hu''.nodes p).trans (hu'.nodes p).symm
    simp [ht, ht', Mask.marshalTree_congr this]
  case refine_2 =>
    obtain ⟨c, hc⟩ := hu.child?_isSome <| Mask.mem_children_iff.mp hm
    exact ⟨c, MaskObject.mem_children_iff.mpr <| hchild s ▸ hc⟩

-- The loop on an object that stands for a tree. The induction is on the tree, and the objects that are
-- being visited are no descendants of the object, so the loop does not take them for a cycle.
theorem processes_object {r : Nat} (hu : h.Unfolds r m)
    (hv : ∀ p v, h.child?.walk r p = some v → v ∉ visiting) : Processes h visiting [(r, false)] [r] := by
  induction m using Mask.branch_induction generalizing r visiting
  case h m ih =>
    intro results pending hr
    obtain ⟨o, ho⟩ : ∃ o, h[r]? = some o := ⟨_, List.getElem?_eq_getElem hu.lt_length⟩
    have hchild s : h.child? r s = o.child? s := by simp [MaskHeap.child?, ho]
    cases hres : results.contains r
    case true =>
      exact ⟨results, loop_finished ho hres, hr, fun _ => id, by simpa using hres⟩
    rw [List.singleton_append, loop_enter ho hres <| hv [] r rfl, push]
    -- The children that have no result yet come first. None of them leads back to `r`.
    have hp : Processes h (r :: visiting)
        (((o.children.map Prod.snd).filter fun c => !results.contains c).reverse.map (·, false))
        ((o.children.map Prod.snd).filter fun c => !results.contains c).reverse := by
      refine .children fun c hc => ?_
      obtain ⟨s, hs⟩ : ∃ s, h.child? r s = some c := by
        simp only [List.mem_reverse, List.mem_filter, List.mem_map, Prod.exists, exists_eq_right] at hc
        obtain ⟨⟨s, hs⟩, _⟩ := hc
        exact ⟨s, hchild s ▸ MaskObject.mem_children_iff.mp hs⟩
      obtain ⟨m', hm', hu'⟩ := hu.child hs
      have hw p : h.child?.walk r (s :: p) = h.child?.walk c p := by simp [Edges.walk, hs]
      refine ih s m' hm' hu' fun p v hv' => ?_
      rw [← hw] at hv'
      simp only [List.mem_cons, not_or]
      exact ⟨by rintro rfl; exact hu.acyclic hv', hv _ v hv'⟩
    obtain ⟨r', hl, hr', hm, hc⟩ := hp results ((r, true) :: pending) hr
    have hall s c (hs : o.child? s = some c) : r'.contains c := by
      by_cases hrc : results.contains c
      · exact hm c hrc
      · refine hc c ?_
        simp only [List.mem_reverse, List.mem_filter, List.mem_map, Prod.exists, exists_eq_right]
        exact ⟨⟨s, MaskObject.mem_children_iff.mpr hs⟩, by simpa using hrc⟩
    rw [hl, loop_expanded ho (segments_eq hall), join_segments ho hu hr' hall, List.erase_cons_head]
    refine ⟨_, rfl, fun x t hx => ?_, fun x hx => ?_, by simp [Dict.contains]⟩
    · rw [Dict.get?_set] at hx
      split at hx
      case isTrue he => cases hx; exact ⟨m, he ▸ hu, rfl⟩
      case isFalse => exact hr' x t hx
    · have := hm x hx
      simp only [Dict.contains, Dict.get?_set] at this ⊢
      split <;> simp_all

end Marshal

namespace MaskHeap

theorem marshal'_eq {h : MaskHeap FieldKey} {r : Nat} (hu : h.Unfolds r m) : h.marshal' r = .ok m.marshalTree := by
  have hp : Marshal.Processes h [] [(r, false)] [r] := Marshal.processes_object hu (by simp)
  obtain ⟨results, hl, hr, _, hc⟩ := hp ∅ [] (by simp [Marshal.Correct])
  obtain ⟨t, ht⟩ := Dict.contains_iff.mp <| hc r (by simp)
  obtain ⟨m', hu', ht'⟩ := hr r t ht
  have : m'.nodes = m.nodes := Set.ext fun p => (hu'.nodes p).trans (hu.nodes p).symm
  have hn : Marshal.loop h ⟨results, [], []⟩ = .ok results := by rw [Marshal.loop]
  simp only [List.singleton_append] at hl
  simp [marshal', hl, hn, bind, Except.bind, ht, ht', Mask.marshalTree_congr this, pure, Except.pure]

end MaskHeap
