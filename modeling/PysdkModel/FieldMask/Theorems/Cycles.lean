import PysdkModel.FieldMask.Theorems.Marshal

structure MaskGraph where
  heap : MaskHeap FieldKey
  root : Nat
  root_lt : root < heap.length
  closed : ∀ {r s c}, heap.child? r s = some c → c < heap.length

namespace MaskHeap

variable {h : MaskHeap FieldKey} {r : Nat}

theorem unfolds_of_children (hr : r < h.length)
    (hc : ∀ s c, h.child? r s = some c → ∃ m, h.Unfolds c m) : ∃ m, h.Unfolds r m := by
  classical
  let tree (c : Nat) : Mask FieldKey := if hm : ∃ m, h.Unfolds c m then hm.choose else ∅
  have htree s c (hs : h.child? r s = some c) : h.Unfolds c (tree c) := by
    simp only [tree, dif_pos (hc s c hs)]
    exact (hc s c hs).choose_spec
  obtain ⟨o, ho⟩ : ∃ o, h[r]? = some o := ⟨_, List.getElem?_eq_getElem hr⟩
  have hchild s : h.child? r s = o.child? s := by simp [child?, ho]
  have hm s : (Mask.mk (o.any.map tree) (o.fieldParts.map tree)).child? s = (h.child? r s).map tree := by
    cases s <;> simp [hchild, MaskObject.child?, Dict.get?_map]
  refine ⟨.mk (o.any.map tree) (o.fieldParts.map tree), fun p => ?_, fun p v hp => ?_⟩
  case refine_1 =>
    cases p
    case nil => simp [Mask.nil_mem_nodes, Edges.walk]
    case cons s p =>
      rw [Mask.cons_mem_nodes, hm, Edges.walk]
      cases hs : h.child? r s
      case none => simp
      case some c => simp [(htree s c hs).nodes p]
  case refine_2 =>
    cases p
    case nil => cases hp; exact hr
    case cons s p =>
      obtain ⟨c, hs, hp⟩ := Option.bind_eq_some_iff.mp hp
      exact (htree s c hs).bound p v hp

theorem Unfolds.not_cyclic {m : Mask FieldKey} (hu : h.Unfolds r m) : ¬h.child?.Cyclic r := by
  rintro ⟨p, v, s, q, hp, hq⟩
  obtain ⟨m', hu', -⟩ := hu.walk hp
  exact hu'.acyclic hq

end MaskHeap

namespace Marshal

variable {h : MaskHeap FieldKey} {r x : Nat} {o : MaskObject FieldKey} {m : Marshal}
variable {results : Results} {visiting : List Nat} {pending : List (Nat × Bool)}

-- The invariant of the loop on any graph. An object waits in the stack below all of its children that
-- have no result yet, so the results of the children are there when it is taken from the stack.
structure Invariant (h : MaskHeap FieldKey) (r : Nat) (m : Marshal) : Prop where
  bound : ∀ x b, (x, b) ∈ m.pending → x < h.length
  unfolds : ∀ x, m.results.contains x → ∃ t, h.Unfolds x t
  covered : ∀ above x below, m.pending = above ++ (x, true) :: below →
    ∀ s c, h.child? x s = some c → m.results.contains c ∨ ∃ b, (c, b) ∈ above
  root : m.results.contains r ∨ ∃ b, (r, b) ∈ m.pending

namespace Invariant

theorem init (hr : r < h.length) : Invariant h r ⟨∅, [], [(r, false)]⟩ where
  bound x b hx := by simp_all
  unfolds x hx := by simp [Dict.contains] at hx
  covered above x below he := by
    have : (x, true) ∈ above ++ (x, true) :: below := by simp
    simp [← he] at this
  root := .inr ⟨false, by simp⟩

theorem pop {b : Bool} (hi : Invariant h r ⟨results, visiting, (x, b) :: pending⟩) {results' : Results}
    {visiting' : List Nat} (hx : results'.contains x) (hmono : ∀ y, results.contains y → results'.contains y)
    (hu : ∀ y, results'.contains y → ∃ t, h.Unfolds y t) : Invariant h r ⟨results', visiting', pending⟩ where
  bound y b' hy := hi.bound y b' (by simp [hy])
  unfolds := hu
  covered above y below he s c hs := by
    have he : (x, b) :: pending = ((x, b) :: above) ++ (y, true) :: below := congrArg _ he
    rcases hi.covered _ y below he s c hs with hc | ⟨b', hc⟩
    · exact .inl <| hmono c hc
    · rcases List.mem_cons.mp hc with hc | hc
      · cases hc; exact .inl hx
      · exact .inr ⟨b', hc⟩
  root := by
    rcases hi.root with hc | ⟨b', hc⟩
    · exact .inl <| hmono r hc
    · rcases List.mem_cons.mp hc with hc | hc
      · cases hc; exact .inl hx
      · exact .inr ⟨b', hc⟩

theorem expanded_cases {items above below : List (Nat × Bool)} {y : Nat} (hf : ∀ e ∈ items, e.2 = false)
    (he : items ++ (x, true) :: pending = above ++ (y, true) :: below) : above = items ∧ y = x ∧ below = pending ∨
    ∃ above', above = items ++ (x, true) :: above' ∧ pending = above' ++ (y, true) :: below := by
  induction items generalizing above
  case nil =>
    cases above
    case nil => simp_all
    case cons e above =>
      obtain ⟨rfl, rfl⟩ := List.cons.inj he
      exact .inr ⟨above, rfl, rfl⟩
  case cons e items ih =>
    cases above
    case nil =>
      obtain ⟨rfl, -⟩ := List.cons.inj he
      cases hf (y, true) (by simp)
    case cons e' above =>
      obtain ⟨rfl, he'⟩ := List.cons.inj he
      rcases ih (fun e h => hf e (by simp [h])) he' with ⟨rfl, h⟩ | ⟨above', rfl, h⟩
      · exact .inl ⟨rfl, h⟩
      · exact .inr ⟨above', rfl, h⟩

theorem enter (hi : Invariant h r ⟨results, visiting, (x, false) :: pending⟩) (ho : h[x]? = some o)
    (hclosed : ∀ {r s c}, h.child? r s = some c → c < h.length) {visiting' : List Nat} :
    Invariant h r ⟨results, visiting', push results x o pending⟩ := by
  have hchild s : h.child? x s = o.child? s := by simp [MaskHeap.child?, ho]
  have hmem {c : Nat} {b : Bool} :
      (c, b) ∈ ((o.children.map Prod.snd).filter fun c => !results.contains c).reverse.map (·, false) ↔
        (∃ s, h.child? x s = some c) ∧ results.contains c = false ∧ b = false := by
    simp only [List.mem_map, List.mem_reverse, List.mem_filter, Prod.exists, exists_eq_right,
      MaskObject.mem_children_iff, hchild, Prod.mk.injEq, Bool.not_eq_true']
    constructor
    · rintro ⟨a, ⟨hs, hn⟩, rfl, rfl⟩; exact ⟨hs, hn, rfl⟩
    · rintro ⟨hs, hn, rfl⟩; exact ⟨c, ⟨hs, hn⟩, rfl, rfl⟩
  constructor
  case bound =>
    intro y b hy
    rcases List.mem_append.mp hy with hy | hy
    · obtain ⟨⟨s, hs⟩, -⟩ := hmem.mp hy
      exact hclosed hs
    · rcases List.mem_cons.mp hy with hy | hy
      · cases hy; exact hi.bound x false (by simp)
      · exact hi.bound y b (by simp [hy])
  case unfolds => exact hi.unfolds
  case covered =>
    intro above y below he s c hs
    rcases expanded_cases (fun e h => (hmem (c := e.1).mp h).right.right) he with ⟨rfl, rfl, rfl⟩ | ⟨above', rfl, he'⟩
    · by_cases hc : results.contains c
      · exact .inl hc
      · exact .inr ⟨false, hmem.mpr ⟨⟨s, hs⟩, by simpa using hc, rfl⟩⟩
    · rcases hi.covered ((x, false) :: above') y below (congrArg _ he') s c hs with hc | ⟨b, hc⟩
      · exact .inl hc
      · rcases List.mem_cons.mp hc with hc | hc
        · cases hc; exact .inr ⟨true, by simp⟩
        · exact .inr ⟨b, by simp [hc]⟩
  case root =>
    rcases hi.root with hc | ⟨b, hc⟩
    · exact .inl hc
    · rcases List.mem_cons.mp hc with hc | hc
      · cases hc; exact .inr ⟨true, by simp [push]⟩
      · exact .inr ⟨b, by simp [push, hc]⟩

end Invariant

-- What the loop ends with on any graph: an error that reports a cycle, or results of objects that stand
-- for trees, with the root among them.
def Ended (h : MaskHeap FieldKey) (r : Nat) : Except Error Results → Prop
  | .error e => e = .recursion
  | .ok results => results.contains r ∧ ∀ x, results.contains x → ∃ t, h.Unfolds x t

theorem Invariant.children (hi : Invariant h r ⟨results, visiting, (x, true) :: pending⟩)
    (ho : h[x]? = some o) {s : Step FieldKey} {c : Nat} (hs : o.child? s = some c) : results.contains c := by
  have hs : h.child? x s = some c := by simpa [MaskHeap.child?, ho]
  rcases hi.covered [] x pending rfl s c hs with hc | ⟨b, hc⟩
  · exact hc
  · cases hc

theorem ended_loop (hclosed : ∀ {r s c}, h.child? r s = some c → c < h.length) (hi : Invariant h r m) :
    Ended h r (loop h m) := by
  fun_induction loop h m
  case case1 m hp =>
    obtain ⟨results, visiting, pending⟩ := m
    subst hp
    exact ⟨hi.root.resolve_right (by simp), hi.unfolds⟩
  case case2 m x b pending hp hx =>
    have := hi.bound x b (by simp [hp])
    have := List.getElem?_eq_none_iff.mp hx
    omega
  case case3 m x pending o ho hs hp =>
    obtain ⟨results, visiting, _⟩ := m
    subst hp
    cases hs.symm.trans <| segments_eq fun s c => hi.children ho
  case case4 m x pending o ho ret hs hp ih =>
    obtain ⟨results, visiting, _⟩ := m
    subst hp
    have hchild s : h.child? x s = o.child? s := by simp [MaskHeap.child?, ho]
    have hx : ∃ t, h.Unfolds x t := MaskHeap.unfolds_of_children (hi.bound x true (by simp)) fun s c hc =>
      hi.unfolds c <| hi.children ho <| hchild s ▸ hc
    have hset y : (results.set x (join ret)).contains y ↔ y = x ∨ results.contains y := by
      simp only [Dict.contains, Dict.get?_set]
      split <;> simp_all
    refine ih <| hi.pop ((hset x).mpr <| .inl rfl) (fun y hy => (hset y).mpr <| .inr hy) fun y hy => ?_
    rcases (hset y).mp hy with rfl | hy
    · exact hx
    · exact hi.unfolds y hy
  case case5 m x b pending hp o ho _ hx ih =>
    obtain ⟨results, visiting, _⟩ := m
    subst hp
    exact ih <| hi.pop hx (fun _ => id) hi.unfolds
  case case6 => rfl
  case case7 m x b pending hp o ho hb _ _ ih =>
    obtain ⟨results, visiting, _⟩ := m
    subst hp
    obtain rfl : b = false := by simpa using hb
    exact ih <| hi.enter ho hclosed

end Marshal

namespace MaskGraph

-- The encoder returns on every graph of mask objects. It reports a cycle iff one can be reached from the
-- root. Otherwise it returns the number and the text of the segments of the unfolded tree, which are sorted at
-- every level.
theorem marshal_agrees (g : MaskGraph) :
    (g.heap.marshal' g.root = .error .recursion ↔ g.heap.child?.Cyclic g.root) ∧
    (¬g.heap.child?.Cyclic g.root → ∃ m, g.heap.Unfolds g.root m) ∧
    ∀ m, g.heap.Unfolds g.root m →
      g.heap.marshal' g.root = .ok (m.segments.length, [Lexer.comma].intercalate m.segments) ∧
      ∀ p c, m.walk p = some c → c.segments.Pairwise (· ≤ ·) := by
  have htree (ha : ¬g.heap.child?.Cyclic g.root) : ∃ m, g.heap.Unfolds g.root m :=
    Edges.acyclic_induction g.closed g.root_lt ha fun _ => MaskHeap.unfolds_of_children
  refine ⟨⟨fun he => ?_, fun hc => ?_⟩, htree, fun m hm => ⟨MaskHeap.marshal'_eq hm, fun _ c _ => c.sorted_segments⟩⟩
  case refine_1 =>
    by_contra ha
    obtain ⟨m, hm⟩ := htree ha
    cases he.symm.trans <| MaskHeap.marshal'_eq hm
  case refine_2 =>
    have hend := Marshal.ended_loop g.closed <| Marshal.Invariant.init g.root_lt
    rw [MaskHeap.marshal']
    cases hl : Marshal.loop g.heap ⟨∅, [], [(g.root, false)]⟩
    case error e =>
      rw [hl] at hend
      rw [show e = .recursion from hend]
      rfl
    case ok results =>
      rw [hl] at hend
      obtain ⟨m, hm⟩ := hend.right g.root hend.left
      exact absurd hc hm.not_cyclic

end MaskGraph
