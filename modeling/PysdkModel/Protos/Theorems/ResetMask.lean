import PysdkModel.FieldMask.Grammar
import PysdkModel.FieldMask.Theorems.Heap
import PysdkModel.Protos.ResetMask

namespace MaskHeap

variable {κ : Type} [DecidableEq κ] {h h' : MaskHeap κ} {r s : Nat} {t : Step κ}

structure Grown (h : MaskHeap κ) : Prop where
  ascending : h.child?.Ascending h.length
  root_lt : 0 < h.length
  tree : h.child?.Tree 0

theorem child?_singleton : child? ([∅] : MaskHeap κ) r t = none := by
  have ha : ([∅] : MaskHeap κ) = alloc [] := rfl
  rw [ha, child?_alloc]
  rfl

theorem Grown.singleton : Grown ([∅] : MaskHeap κ) where
  ascending := by constructor <;> simp [child?_singleton]
  root_lt := by simp
  tree := by
    have hn {p v} (hp : (child? ([∅] : MaskHeap κ)).walk 0 p = some v) : p = [] := by
      cases p
      case nil => rfl
      case cons => simp [Edges.walk, child?_singleton] at hp
    intro p q v hp hq
    rw [hn hp, hn hq]

theorem Grown.alloc (hg : h.Grown) : h.alloc.Grown where
  ascending := by
    rw [child?_alloc, length_alloc]
    exact ⟨hg.ascending.lt, fun hw => (hg.ascending.bound hw).trans (by omega)⟩
  root_lt := by rw [length_alloc]; omega
  tree := by rw [child?_alloc]; exact hg.tree

-- The branch of `r`, created and attached if it does not exist.
def attach (h : MaskHeap κ) (r : Nat) (t : Step κ) : MaskHeap κ × Nat :=
  let (h', c) := h.childOrNew r t
  (h'.setChild r t c, c)

theorem Grown.lt_length (hg : h.Grown) {q : List (Step κ)} (hq : h.child?.walk 0 q = some r) : r < h.length :=
  hg.ascending.walk_lt hg.root_lt hq

theorem extends_attach (hr : r < h.length) (hc : h.child? r t = none) :
    h.child?.Extends (h.attach r t).1.child? h.length {r} t := by
  have hr' : r < h.alloc.length := by rw [length_alloc]; omega
  intro v u
  simp only [attach, childOrNew, hc, child?_setChild hr', child?_alloc, Set.mem_singleton_iff]
  constructor
  case left =>
    rintro ⟨hv, hu, _⟩
    simp [hv, hu]
  case right =>
    intro hn
    refine if_neg fun h => hn ⟨h.left, h.right, by rw [h.left, hc]⟩

theorem attach_of_child? {c : Nat} (hr : r < h.length) (hc : h.child? r t = some c) :
    (h.attach r t).1.child? = h.child? ∧ (h.attach r t).1.length = h.length ∧ (h.attach r t).2 = c := by
  simp only [attach, childOrNew, hc, length_setChild, and_self, and_true]
  funext v u
  rw [child?_setChild hr]
  split
  case isTrue hv => rw [hv.left, hv.right, hc]
  case isFalse => rfl

theorem Grown.attach (hg : h.Grown) {q : List (Step κ)} (hq : h.child?.walk 0 q = some r) :
    (h.attach r t).1.Grown ∧ ∀ {p v}, (h.attach r t).1.child?.walk 0 p = some v ↔
      h.child?.walk 0 p = some v ∨ (p = q ++ [t] ∧ v = (h.attach r t).2) := by
  have hr := hg.lt_length hq
  cases hc : h.child? r t
  case none =>
    have he := extends_attach hr hc
    have h2 : (h.attach r t).2 = h.length := by simp [MaskHeap.attach, childOrNew, hc]
    have hl : (h.attach r t).1.length = h.length + 1 := by
      simp [MaskHeap.attach, childOrNew, hc, length_setChild, length_alloc]
    refine ⟨⟨?_, by omega, he.tree hg.ascending hg.root_lt hg.tree hq hc⟩, fun {p v} => ?_⟩
    · rw [hl]
      exact he.ascending hg.ascending fun v hv => hv ▸ hr
    · rw [h2]
      exact he.walk_eq_some_iff_of_tree hg.ascending hg.root_lt hg.tree hq hc
  case some c =>
    obtain ⟨h1, hl, h2⟩ := attach_of_child? hr hc
    refine ⟨⟨by rw [h1, hl]; exact hg.ascending, by rw [hl]; exact hg.root_lt, by rw [h1]; exact hg.tree⟩,
      fun {p v} => ?_⟩
    rw [h1, h2]
    refine ⟨.inl, ?_⟩
    rintro (hp | ⟨rfl, rfl⟩)
    · exact hp
    · simp [Edges.walk_concat, hq, hc]

theorem childOrNew_setChild {c v : Nat} {u : Step κ} (hr : r < h.length) (hv : v ≠ r) :
    (h.setChild r t c).childOrNew v u =
      ((h.childOrNew v u).1.setChild r t c, (h.childOrNew v u).2) := by
  have hc : (h.setChild r t c).child? v u = h.child? v u := by simp [child?_setChild hr, hv]
  have ha : (h.setChild r t c).alloc = h.alloc.setChild r t c := by
    apply List.ext_getElem?
    intro i
    simp only [MaskHeap.alloc, setChild, List.getElem?_append, List.getElem?_modify, List.length_modify]
    by_cases hi : i < h.length
    · simp [hi]
    · simp [hi, show r ≠ i by omega]
  simp only [childOrNew, hc, length_setChild, ha]
  cases h.child? v u <;> rfl

theorem setChild_comm {c d v : Nat} {u : Step κ} (hv : v ≠ r) :
    (h.setChild r t c).setChild v u d = (h.setChild v u d).setChild r t c := by
  simp only [setChild]
  rw [List.modify_modify_ne _ _ _ hv.symm]

end MaskHeap

namespace Protos

def Field.resetSteps (f : Field) : MaskPath :=
  if f.map || f.repeated then [.key f.protoName, .any] else [.key f.protoName]

namespace Message

-- The fields that the reset mask names in a message: those without a value, those with the default
-- scalar, set messages and non-empty containers of messages.
def Resets (m : Message) (f : Field) : Prop :=
  ¬m.resetSkips f ∧ (¬m.fieldHasValue f (m.values f.key) ∨ f.message ∨
    (¬(f.map || f.repeated) ∧ equalsDefault f (m.values f.key)))

-- The message at the end of a path and its depth. A path does not continue through a field that the
-- reset mask leaves out.
inductive Located (S : Schema) : Message → Nat → MaskPath → Message → Prop
  | root {m} : Located S m 0 [] m
  | child {m f c d q s} :
    f ∈ (S m.cls).fields → c ∈ m.resetChildren f → Located S c d q s →
    Located S m (d + 1) (f.resetSteps ++ q) s

inductive ResetPath (S : Schema) (m : Message) : MaskPath → Prop
  | field {d q s f} :
    Located S m d q s → f ∈ (S s.cls).fields → s.Resets f → ResetPath S m (q ++ [.key f.protoName])
  | elements {d q s f} :
    Located S m d q s → f ∈ (S s.cls).fields → s.Resets f → f.message → f.map || f.repeated →
    s.fieldHasValue f (s.values f.key) → ResetPath S m (q ++ [.key f.protoName, .any])

def resetNodes (S : Schema) (m : Message) : Set MaskPath :=
  { p | p = [] ∨ ∃ p', ResetPath S m p' ∧ p <+: p' }

inductive FieldResetNode (S : Schema) (m : Message) (f : Field) : MaskPath → Prop
  | field : m.Resets f → FieldResetNode S m f [.key f.protoName]
  | elements :
    m.Resets f → f.message → f.map || f.repeated → m.fieldHasValue f (m.values f.key) →
    FieldResetNode S m f [.key f.protoName, .any]
  | child {c p} : c ∈ m.resetChildren f → p ∈ resetNodes S c → FieldResetNode S m f (f.resetSteps ++ p)

variable {S : Schema} {m c : Message} {f : Field} {p : MaskPath}

theorem of_mem_resetChildren (hc : c ∈ m.resetChildren f) :
    ¬m.resetSkips f ∧ m.fieldHasValue f (m.values f.key) ∧ f.message := by
  unfold resetChildren at hc
  split at hc
  case isTrue => simp at hc
  case isFalse h => simpa [not_or, and_assoc] using h

theorem resets_of_mem_resetChildren (hc : c ∈ m.resetChildren f) : m.Resets f :=
  have ⟨hs, _, hm⟩ := of_mem_resetChildren hc
  ⟨hs, .inr <| .inl hm⟩

theorem ResetPath.child (hf : f ∈ (S m.cls).fields) (hc : c ∈ m.resetChildren f) (hp : ResetPath S c p) :
    ResetPath S m (f.resetSteps ++ p) := by
  cases hp
  case field hl hf' hr =>
    rw [← List.append_assoc]
    exact .field (.child hf hc hl) hf' hr
  case elements hl hf' hr hm hc' hv =>
    rw [← List.append_assoc]
    exact .elements (.child hf hc hl) hf' hr hm hc' hv

theorem ResetPath.cases_field (hp : ResetPath S m p) : (∃ f ∈ (S m.cls).fields, FieldResetNode S m f p) ∨
    ∃ f ∈ (S m.cls).fields, ∃ c ∈ m.resetChildren f, ∃ p', ResetPath S c p' ∧ p = f.resetSteps ++ p' := by
  cases hp
  case field f hl hf hr =>
    cases hl
    case root => exact .inl ⟨f, hf, .field hr⟩
    case child f' c _ _ hf' hc hl =>
      exact .inr ⟨f', hf', c, hc, _, .field hl hf hr, by rw [List.append_assoc]⟩
  case elements f hl hf hr hm hc' hv =>
    cases hl
    case root => exact .inl ⟨f, hf, .elements hr hm hc' hv⟩
    case child f' c _ _ hf' hc hl =>
      exact .inr ⟨f', hf', c, hc, _, .elements hl hf hr hm hc' hv, by rw [List.append_assoc]⟩

theorem nil_mem_resetNodes : [] ∈ resetNodes S m :=
  .inl rfl

theorem resetNodes_of_isPrefix {p' : MaskPath} (hp' : p' ∈ resetNodes S m) (hp : p <+: p') : p ∈ resetNodes S m := by
  rcases hp' with rfl | ⟨p'', hp'', h⟩
  · exact .inl <| List.prefix_nil.mp hp
  · exact .inr ⟨p'', hp'', hp.trans h⟩

theorem isPrefix_pair {σ : Type} {s t : σ} {p : List σ} (hp : p <+: [s, t]) : p = [] ∨ p = [s] ∨ p = [s, t] := by
  rcases List.prefix_cons_iff.mp hp with h | ⟨p₁, rfl, hp₁⟩
  · exact .inl h
  · rcases List.prefix_cons_iff.mp hp₁ with rfl | ⟨p₂, rfl, hp₂⟩
    · exact .inr <| .inl rfl
    · rw [List.prefix_nil.mp hp₂]
      exact .inr <| .inr rfl

theorem FieldResetNode.of_isPrefix_field (hr : m.Resets f) (hp : p <+: [.key f.protoName]) :
    p = [] ∨ FieldResetNode S m f p := by
  rcases isPrefix_pair (hp.trans ⟨[.any], rfl⟩) with h | rfl | rfl
  · exact .inl h
  · exact .inr <| .field hr
  · simp at hp

theorem FieldResetNode.of_isPrefix_elements (hr : m.Resets f) (hm : f.message) (hc : f.map || f.repeated)
    (hv : m.fieldHasValue f (m.values f.key)) (hp : p <+: [.key f.protoName, .any]) :
    p = [] ∨ FieldResetNode S m f p := by
  rcases isPrefix_pair hp with h | rfl | rfl
  · exact .inl h
  · exact .inr <| .field hr
  · exact .inr <| .elements hr hm hc hv

theorem FieldResetNode.of_isPrefix {p' : MaskPath} (hp' : FieldResetNode S m f p') (hp : p <+: p') :
    p = [] ∨ FieldResetNode S m f p := by
  cases hp'
  case field hr => exact of_isPrefix_field hr hp
  case elements hr hm hc hv => exact of_isPrefix_elements hr hm hc hv hp
  case child c p' hc hp' =>
    have hr := resets_of_mem_resetChildren hc
    have ⟨_, hv, hm⟩ := of_mem_resetChildren hc
    rcases List.prefix_or_prefix_of_prefix hp (List.prefix_append f.resetSteps p') with h | ⟨p₁, rfl⟩
    · by_cases hcont : f.map || f.repeated
      · rw [Field.resetSteps, if_pos hcont] at h
        exact of_isPrefix_elements hr hm hcont hv h
      · rw [Field.resetSteps, if_neg hcont] at h
        exact of_isPrefix_field hr h
    · exact .inr <| .child hc <| resetNodes_of_isPrefix hp' <| (List.prefix_append_right_inj _).mp hp

theorem mem_resetNodes_iff : p ∈ resetNodes S m ↔ p = [] ∨ ∃ f ∈ (S m.cls).fields, FieldResetNode S m f p := by
  constructor
  · rintro (rfl | ⟨p', hp', h⟩)
    · exact .inl rfl
    · have ⟨f, hf, hn⟩ : ∃ f ∈ (S m.cls).fields, FieldResetNode S m f p' := by
        rcases hp'.cases_field with hn | ⟨f, hf, c, hc, p₁, hp₁, rfl⟩
        · exact hn
        · exact ⟨f, hf, .child hc <| .inr ⟨p₁, hp₁, List.prefix_refl _⟩⟩
      exact hn.of_isPrefix h |>.imp_right (⟨f, hf, ·⟩)
  · rintro (rfl | ⟨f, hf, hn⟩)
    · exact nil_mem_resetNodes
    · cases hn
      case field hr => exact .inr ⟨_, .field .root hf hr, List.prefix_refl _⟩
      case elements hr hm hc hv => exact .inr ⟨_, .elements .root hf hr hm hc hv, List.prefix_refl _⟩
      case child c p hc hp =>
        rcases hp with rfl | ⟨p', hp', h⟩
        · have hr := resets_of_mem_resetChildren hc
          have ⟨_, hv, hm⟩ := of_mem_resetChildren hc
          by_cases hcont : f.map || f.repeated
          · rw [Field.resetSteps, if_pos hcont]
            exact .inr ⟨_, .elements .root hf hr hm hcont hv, List.prefix_refl _⟩
          · rw [Field.resetSteps, if_neg hcont]
            exact .inr ⟨_, .field .root hf hr, List.prefix_refl _⟩
        · exact .inr ⟨_, hp'.child hf hc, (List.prefix_append_right_inj _).mpr h⟩

theorem fieldResetNode_iff :
    FieldResetNode S m f p ↔
      (m.Resets f ∧ p = [.key f.protoName]) ∨
      (m.Resets f ∧ f.message ∧ (f.map || f.repeated) ∧ m.fieldHasValue f (m.values f.key) ∧
        p = [.key f.protoName, .any]) ∨
      ∃ c ∈ m.resetChildren f, ∃ p' ∈ resetNodes S c, p = f.resetSteps ++ p' := by
  constructor
  · intro hp
    cases hp
    case field hr => exact .inl ⟨hr, rfl⟩
    case elements hr hm hc hv => exact .inr <| .inl ⟨hr, hm, hc, hv, rfl⟩
    case child c p hc hp => exact .inr <| .inr ⟨c, hc, p, hp, rfl⟩
  · rintro (⟨hr, rfl⟩ | ⟨hr, hm, hc, hv, rfl⟩ | ⟨c, hc, p', hp', rfl⟩)
    · exact .field hr
    · exact .elements hr hm hc hv
    · exact .child hc hp'

theorem Located.snoc {d : Nat} {q : MaskPath} {s : Message} (hl : Located S m d q s)
    (hf : f ∈ (S s.cls).fields) (hc : c ∈ s.resetChildren f) : Located S m (d + 1) (q ++ f.resetSteps) c := by
  induction hl
  case root =>
    rw [List.nil_append, ← List.append_nil f.resetSteps]
    exact .child hf hc .root
  case child hf' hc' _ ih =>
    rw [List.append_assoc]
    exact .child hf' hc' <| ih hf hc

end Message

namespace ResetLoop

variable {S : Schema} {l : ResetLoop} {item : ResetItem} {f : Field} {q : MaskPath}

structure Good (l : ResetLoop) : Prop where
  grown : l.heap.Grown
  reachable : ∀ i ∈ l.pending, ∃ q, l.heap.child?.walk 0 q = some i.mask

def covers (S : Schema) (l : ResetLoop) : Set MaskPath :=
  { p | ∃ v, l.heap.child?.walk 0 p = some v } ∪
  { p | ∃ i ∈ l.pending, ∃ q, l.heap.child?.walk 0 q = some i.mask ∧
      ∃ p' ∈ i.message.resetNodes S, p = q ++ p' }

section

variable {heap : MaskHeap FieldKey} (hl : l.Good) (hg : heap.Grown)
  (hm : ∀ {p v}, l.heap.child?.walk 0 p = some v → heap.child?.walk 0 p = some v)
include hl hg hm

theorem Good.grow : Good { l with heap } where
  grown := hg
  reachable i hi := (hl.reachable i hi).imp fun _ => hm

theorem covers_grow : covers S { l with heap } = covers S l ∪ { p | ∃ v, heap.child?.walk 0 p = some v } := by
  -- A mask of the worklist has the same path as before.
  have hp i (hi : i ∈ l.pending) q :
      heap.child?.walk 0 q = some i.mask ↔ l.heap.child?.walk 0 q = some i.mask := by
    refine ⟨fun hq => ?_, hm⟩
    have ⟨q', hq'⟩ := hl.reachable i hi
    rw [hg.tree hq (hm hq')]
    exact hq'
  ext p
  simp only [covers, Set.mem_union, Set.mem_ofPred_eq]
  constructor
  · rintro (h | ⟨i, hi, q, hq, h⟩)
    · exact .inr h
    · exact .inl <| .inr ⟨i, hi, q, (hp i hi q).mp hq, h⟩
  · rintro ((⟨v, hv⟩ | ⟨i, hi, q, hq, h⟩) | h)
    · exact .inl ⟨v, hm hv⟩
    · exact .inr ⟨i, hi, q, hm hq, h⟩
    · exact .inl h

end

theorem mem_push {messages : List Message} {mask depth : Nat} {i : ResetItem} :
    i ∈ l.push messages mask depth ↔
      (i.message ∈ messages ∧ i.mask = mask ∧ i.depth = depth) ∨ i ∈ l.pending := by
  simp only [push, List.mem_append, List.mem_map, List.mem_reverse]
  refine or_congr_left ⟨?_, ?_⟩
  · rintro ⟨m, hm, rfl⟩
    exact ⟨hm, rfl, rfl⟩
  · rintro ⟨hm, rfl, rfl⟩
    exact ⟨i.message, hm, rfl⟩

section

variable {messages : List Message} {mask depth : Nat} (hl : l.Good)
  (hq : l.heap.child?.walk 0 q = some mask)
include hl hq

theorem Good.push : Good { l with pending := l.push messages mask depth } where
  grown := hl.grown
  reachable i hi := by
    rcases mem_push.mp hi with ⟨_, hi, _⟩ | hi
    · exact ⟨q, hi ▸ hq⟩
    · exact hl.reachable i hi

theorem covers_push :
    covers S { l with pending := l.push messages mask depth } =
      covers S l ∪ { p | ∃ c ∈ messages, ∃ p' ∈ c.resetNodes S, p = q ++ p' } := by
  ext p
  simp only [covers, Set.mem_union, Set.mem_ofPred_eq, mem_push, or_assoc]
  refine or_congr_right ⟨?_, ?_⟩
  · rintro ⟨i, ⟨hc, hi, -⟩ | hi, q', hq', p', hp', rfl⟩
    · rw [hl.grown.tree hq' (hi ▸ hq)]
      exact .inr ⟨i.message, hc, p', hp', rfl⟩
    · exact .inl ⟨i, hi, q', hq', p', hp', rfl⟩
  · rintro (⟨i, hi, h⟩ | ⟨c, hc, p', hp', rfl⟩)
    · exact ⟨i, .inr hi, h⟩
    · exact ⟨⟨c, mask, depth⟩, .inl ⟨hc, rfl, rfl⟩, q, hq, p', hp', rfl⟩

end

def attach (l : ResetLoop) (r : Nat) (t : Step FieldKey) : ResetLoop :=
  { l with heap := (l.heap.attach r t).1 }

section

variable {r : Nat} {t : Step FieldKey} (hl : l.Good) (hq : l.heap.child?.walk 0 q = some r)
include hl hq

theorem Good.attach : Good (l.attach r t) := by
  have ⟨hg, hw⟩ := hl.grown.attach (t := t) hq
  exact hl.grow hg fun h => hw.mpr <| .inl h

theorem walk_attach : (l.attach r t).heap.child?.walk 0 (q ++ [t]) = some (l.heap.attach r t).2 :=
  (hl.grown.attach hq).right.mpr <| .inr ⟨rfl, rfl⟩

theorem walk_attach_mono {p : MaskPath} {v : Nat} (hp : l.heap.child?.walk 0 p = some v) :
    (l.attach r t).heap.child?.walk 0 p = some v :=
  (hl.grown.attach hq).right.mpr <| .inl hp

theorem covers_attach : covers S (l.attach r t) = covers S l ∪ {q ++ [t]} := by
  have ⟨hg, hw⟩ := hl.grown.attach (t := t) hq
  rw [attach, covers_grow hl hg fun h => hw.mpr <| .inl h]
  ext p
  simp only [Set.mem_union, Set.mem_ofPred_eq, Set.mem_singleton_iff, hw]
  constructor
  · rintro (h | ⟨v, hv | ⟨h, _⟩⟩)
    · exact .inl h
    · exact .inl <| .inl ⟨v, hv⟩
    · exact .inr h
  · rintro (h | h)
    · exact .inl h
    · exact .inr ⟨_, .inr ⟨h, rfl⟩⟩

end

structure Adds (S : Schema) (q : MaskPath) (l l' : ResetLoop) (P : MaskPath → Prop) : Prop where
  good : l'.Good
  mono : ∀ {p v}, l.heap.child?.walk 0 p = some v → l'.heap.child?.walk 0 p = some v
  covers : l'.covers S = l.covers S ∪ { p | ∃ p', P p' ∧ p = q ++ p' }

namespace Adds

variable {P Q : MaskPath → Prop} {l' l'' : ResetLoop}

theorem congr (h : Adds S q l l' P) (hP : ∀ p, Q p ↔ P p) : Adds S q l l' Q :=
  ⟨h.good, h.mono, by simp only [h.covers, hP]⟩

theorem trans {w : MaskPath} (h : Adds S q l l' P) (h' : Adds S (q ++ w) l' l'' Q) :
    Adds S q l l'' fun p => P p ∨ ∃ p', Q p' ∧ p = w ++ p' := by
  refine ⟨h'.good, h'.mono ∘ h.mono, ?_⟩
  rw [h'.covers, h.covers, Set.union_assoc]
  congr 1
  ext p
  simp only [Set.mem_union, Set.mem_ofPred_eq]
  constructor
  · rintro (⟨p', hp, rfl⟩ | ⟨p', hp, rfl⟩)
    · exact ⟨p', .inl hp, rfl⟩
    · exact ⟨w ++ p', .inr ⟨p', hp, rfl⟩, List.append_assoc ..⟩
  · rintro ⟨_, hp | ⟨p', hp, rfl⟩, rfl⟩
    · exact .inl ⟨_, hp, rfl⟩
    · exact .inr ⟨p', hp, (List.append_assoc ..).symm⟩

variable {r depth : Nat} (hl : l.Good) (hq : l.heap.child?.walk 0 q = some r)
include hl hq

theorem attach {t : Step FieldKey} : Adds S q l (l.attach r t) (· = [t]) :=
  ⟨hl.attach hq, walk_attach_mono hl hq, by simp [covers_attach hl hq]⟩

theorem push {messages : List Message} :
    Adds S q l { l with pending := l.push messages r depth } fun p => ∃ c ∈ messages, p ∈ c.resetNodes S := by
  refine ⟨hl.push hq, id, (covers_push hl hq).trans ?_⟩
  congr 1
  ext p
  constructor
  · rintro ⟨c, hc, p', hp, rfl⟩
    exact ⟨p', ⟨c, hc, hp⟩, rfl⟩
  · rintro ⟨p', ⟨c, hc, hp⟩, rfl⟩
    exact ⟨c, hc, p', hp, rfl⟩

end Adds

theorem childOrNew_any {h : MaskHeap FieldKey} {r : Nat} {t : Step FieldKey} (hg : h.Grown)
    (hq : h.child?.walk 0 q = some r) :
    let new := h.childOrNew r t
    let inner := new.1.childOrNew new.2 .any
    (inner.1.setChild new.2 .any inner.2).setChild r t new.2 =
      ((h.attach r t).1.attach (h.attach r t).2 .any).1 ∧
    inner.2 = ((h.attach r t).1.attach (h.attach r t).2 .any).2 := by
  intro new inner
  have hr : r < new.1.length := by
    have := hg.lt_length hq
    simp only [new, MaskHeap.childOrNew]
    split <;> simp [MaskHeap.length_alloc] <;> omega
  have hne : new.2 ≠ r := by
    have := hg.lt_length hq
    simp only [new, MaskHeap.childOrNew]
    split
    case h_1 hc => exact (hg.ascending.lt hc).ne'
    case h_2 => simp; omega
  have ha : h.attach r t = (new.1.setChild r t new.2, new.2) := rfl
  rw [ha]
  simp only [MaskHeap.attach, MaskHeap.childOrNew_setChild hr hne, MaskHeap.setChild_comm hne]
  exact ⟨rfl, rfl⟩

theorem childOrNew_grown {h : MaskHeap FieldKey} {r : Nat} {t : Step FieldKey} (hg : h.Grown) :
    (h.childOrNew r t).1.Grown ∧ (h.childOrNew r t).1.child? = h.child? := by
  simp only [MaskHeap.childOrNew]
  split
  case h_1 => exact ⟨hg, rfl⟩
  case h_2 => exact ⟨hg.alloc, MaskHeap.child?_alloc⟩

theorem visitField_adds (hl : l.Good) (hq : l.heap.child?.walk 0 q = some item.mask) :
    Adds S q l (visitField item l f) (item.message.FieldResetNode S f) := by
  rcases visitField_cases item l f with
    ⟨hs, hc, h⟩ | ⟨hs, hc, hd, h⟩ | ⟨hs, hc, hv, hm, hd, h⟩ | ⟨hs, hv, hm, hc, h⟩ | ⟨hs, hv, hm, hc, h⟩
  · have hn p : ¬item.message.FieldResetNode S f p := by
      simp [Message.fieldResetNode_iff, hc, Message.Resets, hs]
    rw [h]
    exact ⟨hl, id, by simp [hn]⟩
  · have hr : item.message.Resets f := ⟨hs, hd.imp_right fun h => .inr ⟨h.left, h.right.right⟩⟩
    have hn p : item.message.FieldResetNode S f p ↔ p = [.key f.protoName] := by
      rw [Message.fieldResetNode_iff]
      constructor
      · rintro (⟨_, hp⟩ | ⟨_, hm, _, hv, _⟩ | ⟨c, hc', _⟩)
        · exact hp
        · exact absurd hv <| hd.resolve_right fun h => h.right.left hm
        · simp [hc] at hc'
      · exact fun hp => .inl ⟨hr, hp⟩
    rw [h]
    exact (Adds.attach hl hq).congr hn
  · have hr : ¬item.message.Resets f := by
      rintro ⟨_, hn | hm' | ⟨hc', hd'⟩⟩
      · exact hn hv
      · exact hm hm'
      · exact hd.elim hc' (· hd')
    have hn p : ¬item.message.FieldResetNode S f p := by
      simp [Message.fieldResetNode_iff, hc, hr]
    obtain ⟨hg, hch⟩ := childOrNew_grown (r := item.mask) (t := .key f.protoName) hl.grown
    have hw {p v} (hp : l.heap.child?.walk 0 p = some v) :
        (l.heap.childOrNew item.mask (.key f.protoName)).1.child?.walk 0 p = some v := hch ▸ hp
    rw [h]
    refine ⟨hl.grow hg hw, hw, ?_⟩
    rw [covers_grow hl hg hw, hch]
    simp [hn, covers]
  · have hr : item.message.Resets f := ⟨hs, .inr <| .inl hm⟩
    have hl₁ := hl.attach (t := .key f.protoName) hq
    have hq₁ := walk_attach (t := .key f.protoName) hl hq
    obtain ⟨ha₁, ha₂⟩ := childOrNew_any (t := .key f.protoName) hl.grown hq
    rw [h, ha₁, ha₂]
    refine ((Adds.attach hl hq).trans ((Adds.attach hl₁ hq₁).trans
      (Adds.push (hl₁.attach hq₁) (walk_attach hl₁ hq₁)))).congr fun p => ?_
    simp only [Message.fieldResetNode_iff, hr, hm, hc, hv, Field.resetSteps, true_and, if_true]
    grind
  · have hr : item.message.Resets f := ⟨hs, .inr <| .inl hm⟩
    rw [h]
    refine ((Adds.attach hl hq).trans (Adds.push (hl.attach hq) (walk_attach hl hq))).congr fun p => ?_
    simp only [Message.fieldResetNode_iff, hr, hc, Field.resetSteps]
    grind

theorem visit_adds (hl : l.Good) (hq : l.heap.child?.walk 0 q = some item.mask) :
    Adds S q l (visit S item l) fun p =>
      ∃ f ∈ (S item.message.cls).fields, item.message.FieldResetNode S f p := by
  -- The induction is on the fields that are left.
  suffices h : ∀ fs : List Field, Adds S q l (fs.foldl (visitField item) l) fun p =>
      ∃ f ∈ fs, item.message.FieldResetNode S f p from h _
  intro fs
  induction fs generalizing l
  case nil => exact ⟨hl, id, by simp⟩
  case cons f fs ih =>
    have ha := visitField_adds (S := S) (f := f) hl hq
    refine (ha.trans (w := []) (by simpa using ih ha.good (ha.mono hq))).congr fun p => ?_
    simp

theorem mem_pending_visitField {i : ResetItem} (hi : i ∈ (visitField item l f).pending) :
    i ∈ l.pending ∨ (i.message ∈ item.message.resetChildren f ∧ i.depth = item.depth + 1) := by
  rcases visitField_cases item l f with
    ⟨_, _, h⟩ | ⟨_, _, _, h⟩ | ⟨_, _, _, _, _, h⟩ | ⟨_, _, _, _, h⟩ | ⟨_, _, _, _, h⟩ <;> rw [h] at hi
  case inl | inr.inl | inr.inr.inl => exact .inl hi
  all_goals
    rcases mem_push.mp hi with ⟨hm, _, hd⟩ | hi
    · exact .inr ⟨hm, hd⟩
    · exact .inl hi

theorem mem_pending_visit {i : ResetItem} (hi : i ∈ (visit S item l).pending) :
    i ∈ l.pending ∨ ∃ f ∈ (S item.message.cls).fields,
      i.message ∈ item.message.resetChildren f ∧ i.depth = item.depth + 1 := by
  suffices h : ∀ (fs : List Field) (l : ResetLoop), i ∈ (fs.foldl (visitField item) l).pending →
      i ∈ l.pending ∨ ∃ f ∈ fs, i.message ∈ item.message.resetChildren f ∧ i.depth = item.depth + 1 from
    h _ l hi
  intro fs
  induction fs
  case nil => exact fun _ => .inl
  case cons f fs ih =>
    intro l hi
    rcases ih _ hi with hi | ⟨f', hf', h⟩
    · exact mem_pending_visitField hi |>.imp_right (⟨f, List.mem_cons_self, ·⟩)
    · exact .inr ⟨f', List.mem_cons_of_mem _ hf', h⟩

inductive Picks (S : Schema) (l : ResetLoop) : ResetLoop → Prop
  | pick {item rest} :
    l.pending.Perm (item :: rest) → item.depth < maxDepth →
    Picks S l (visit S item { l with pending := rest })

structure Inv (S : Schema) (m : Message) (l : ResetLoop) : Prop where
  good : l.Good
  covers : l.covers S = m.resetNodes S
  located : ∀ i ∈ l.pending, ∃ q, m.Located S i.depth q i.message

def start (m : Message) : ResetLoop :=
  ⟨[∅], [⟨m, Message.root, 0⟩]⟩

variable {m : Message}

theorem Inv.start : Inv S m (start m) where
  good := {
    grown := .singleton
    reachable := by
      simp only [ResetLoop.start, List.mem_singleton, forall_eq]
      exact ⟨[], rfl⟩
  }
  covers := by
    have hn {p v} (hp : (MaskHeap.child? ([∅] : MaskHeap FieldKey)).walk 0 p = some v) : p = [] := by
      cases p
      case nil => rfl
      case cons => simp [Edges.walk, MaskHeap.child?_singleton] at hp
    ext p
    simp only [ResetLoop.covers, ResetLoop.start, Set.mem_union, Set.mem_ofPred_eq, List.mem_singleton,
      exists_eq_left]
    constructor
    · rintro (⟨v, hp⟩ | ⟨q, hq, p', hp', rfl⟩)
      · rw [hn hp]
        exact Message.nil_mem_resetNodes
      · rw [hn hq]
        exact hp'
    · exact fun hp => .inr ⟨[], rfl, p, hp, rfl⟩
  located := by
    simp only [ResetLoop.start, List.mem_singleton, forall_eq]
    exact ⟨[], .root⟩

theorem covers_perm {rest : List ResetItem} (hp : l.pending.Perm (item :: rest)) :
    covers S l = covers S { l with pending := item :: rest } := by
  simp only [covers, hp.mem_iff]

theorem Inv.pick {l' : ResetLoop} (hi : Inv S m l) (hp : Picks S l l') : Inv S m l' := by
  cases hp
  case pick item rest hp _ =>
    have hmem {i} (h : i ∈ rest) : i ∈ l.pending := hp.mem_iff.mpr <| List.mem_cons_of_mem _ h
    have hl : Good { l with pending := rest } := ⟨hi.good.grown, fun i h => hi.good.reachable i (hmem h)⟩
    have ⟨q, hq⟩ := hi.good.reachable item <| hp.mem_iff.mpr List.mem_cons_self
    have ha := visit_adds (S := S) hl hq
    refine ⟨ha.good, ?_, fun i h => ?_⟩
    · rw [ha.covers, ← hi.covers, covers_perm hp]
      have hc : ResetLoop.covers S { l with
          pending := push { l with pending := rest } [item.message] item.mask item.depth } = _ :=
        covers_push hl hq
      refine Eq.trans ?_ hc.symm
      ext p
      simp only [Set.mem_union, Set.mem_ofPred_eq, List.mem_singleton, exists_eq_left,
        Message.mem_resetNodes_iff]
      constructor
      · rintro (h | ⟨p', hp', h⟩)
        · exact .inl h
        · exact .inr ⟨p', .inr hp', h⟩
      · rintro (h | ⟨p', rfl | hp', rfl⟩)
        · exact .inl h
        · exact .inl <| .inl ⟨_, by rw [List.append_nil]; exact hq⟩
        · exact .inr ⟨p', hp', rfl⟩
    · rcases mem_pending_visit h with h | ⟨f, hf, hc, hd⟩
      · exact hi.located i <| hmem h
      · have ⟨q, hlo⟩ := hi.located item <| hp.mem_iff.mpr List.mem_cons_self
        exact ⟨_, hd ▸ hlo.snoc hf hc⟩

theorem Picks.measure_lt {l' : ResetLoop} (hp : Picks S l l') : l'.measure S < l.measure S := by
  cases hp
  case pick item rest hp hd =>
    have hm : l.measure S = measure S { l with pending := item :: rest } :=
      (hp.map _).sum_nat
    rw [hm]
    exact measure_visit_lt (l := { l with pending := rest }) hd

theorem Inv.picks {l' : ResetLoop} (hi : Inv S m l) (hp : Relation.ReflTransGen (Picks S) l l') : Inv S m l' := by
  induction hp
  case refl => exact hi
  case tail hp ih => exact ih.pick hp

theorem loop_picks (hi : Inv S m l) (hd : ∀ {d q s}, m.Located S d q s → d < maxDepth) :
    ∃ heap, loop S l = .ok heap ∧ Relation.ReflTransGen (Picks S) l ⟨heap, []⟩ := by
  fun_induction loop
  case case1 l hp =>
    refine ⟨l.heap, rfl, ?_⟩
    rw [← hp]
  case case2 l item rest hp hge =>
    have ⟨_, hl⟩ := hi.located item (by simp [hp])
    exact absurd (hd hl) (by omega)
  case case3 l item rest hp hlt ih =>
    have hpick : Picks S l _ := .pick (.of_eq hp) (Nat.lt_of_not_le hlt)
    have ⟨heap, hok, hr⟩ := ih (hi.pick hpick)
    exact ⟨heap, hok, .head hpick hr⟩

theorem Inv.unfolds {heap : MaskHeap FieldKey} (hi : Inv S m ⟨heap, []⟩) :
    ∃ r, heap.Unfolds Message.root r ∧ r.nodes = m.resetNodes S := by
  have ⟨r, hu⟩ := MaskHeap.copy_unfolds hi.good.grown.ascending hi.good.grown.root_lt
  refine ⟨r, hu, ?_⟩
  rw [← hi.covers]
  ext p
  simp [hu.nodes, ResetLoop.covers]

end ResetLoop

namespace Message

open ResetLoop (Picks maxDepth start)

-- The reset mask has the paths that the located messages contribute, whichever element of the worklist
-- each iteration takes: all orders end, none of them meets the depth bound, and all build these paths.
theorem getFullUpdateResetMask_nodes {S : Schema} {m : Message}
    (hd : ∀ {d q s}, m.Located S d q s → d < maxDepth) :
    (∃ heap r, m.getFullUpdateResetMask S = .ok heap ∧ heap.Unfolds root r ∧ r.nodes = m.resetNodes S) ∧
    WellFounded (fun l' l => Picks S l l') ∧
    ∀ l, Relation.ReflTransGen (Picks S) (start m) l →
      (∀ i ∈ l.pending, i.depth < maxDepth) ∧
      (l.pending = [] → ∃ r, l.heap.Unfolds root r ∧ r.nodes = m.resetNodes S) := by
  refine ⟨?_, Subrelation.wf Picks.measure_lt (measure (ResetLoop.measure S)).wf, ?_⟩
  · have ⟨heap, hok, hr⟩ := ResetLoop.loop_picks (S := S) .start hd
    have ⟨r, hu, hn⟩ := (ResetLoop.Inv.start.picks hr).unfolds
    exact ⟨heap, r, hok, hu, hn⟩
  · intro l hl
    have hi := (ResetLoop.Inv.start (S := S) (m := m)).picks hl
    refine ⟨fun i h => ?_, fun hp => ?_⟩
    · have ⟨_, hl⟩ := hi.located i h
      exact hd hl
    · have ⟨heap, pending⟩ := l
      cases hp
      exact hi.unfolds

-- A message `0` with the message `1` in its field "i", whose field "x" is not set.
def nestedSchema (immutable : Bool) : Schema
  | 0 => {
      fields := [{
        protoName := [0x69], number := 1, codec := .message 1, repeated := false, packed := false,
        explicitPresence := false, required := false, oneof := none, defaultFactory := none,
        mapKeyCodec := none, immutable, immutableOneof := false
      }]
      extensions := [], maxNestingDepth := 100, nodup := by simp, nodup_extensions := by simp
    }
  | _ => {
      fields := [{
        protoName := [0x78], number := 1, codec := .int32, repeated := false, packed := false,
        explicitPresence := false, required := false, oneof := none, defaultFactory := none,
        mapKeyCodec := none, immutable := false, immutableOneof := false
      }]
      extensions := [], maxNestingDepth := 100, nodup := by simp, nodup_extensions := by simp
    }

def nestedInner : Message :=
  .empty 1

def nested : Message :=
  ((empty 0).setValue (.field 1) (some (.singular (.message nestedInner)))).setPresent (.field 1) true

theorem nested_located {immutable : Bool} {d : Nat} {q : MaskPath} {s : Message}
    (hl : nested.Located (nestedSchema immutable) d q s) : d ≤ 1 := by
  cases hl
  case root => exact Nat.zero_le _
  case child f c d q hf hc hl =>
    have hc : c = nestedInner := by
      obtain ⟨hs, hv, hm⟩ := of_mem_resetChildren hc
      obtain rfl := List.mem_singleton.mp hf
      have hn : nested.values (.field 1) = some (.singular (.message nestedInner)) := rfl
      simp_all [resetChildren, Slot.message?, Value.message?, Field.map, Field.key]
    subst hc
    cases hl
    case root => exact le_rfl
    case child f' c' _ _ hf' hc' _ =>
      obtain ⟨_, _, hm⟩ := of_mem_resetChildren hc'
      obtain rfl := List.mem_singleton.mp hf'
      simp [Field.message, Codec.isMessage] at hm

-- The fields of a message that is set in an immutable field are missing in the reset mask.
theorem getFullUpdateResetMask_immutable :
    ∃ f ∈ (nestedSchema true nested.cls).fields,
      nested.fieldHasValue f (nested.values f.key) ∧
      nested.values f.key = some (.singular (.message nestedInner)) ∧
      ∃ g ∈ (nestedSchema true nestedInner.cls).fields,
        ¬nestedInner.resetSkips g ∧ ¬nestedInner.fieldHasValue g (nestedInner.values g.key) ∧
        ∃ heap r, nested.getFullUpdateResetMask (nestedSchema true) = .ok heap ∧ heap.Unfolds root r ∧
          [.key f.protoName, .key g.protoName] ∉ r.nodes := by
  refine ⟨_, List.mem_singleton_self _, by decide, rfl, _, List.mem_singleton_self _, by decide,
    by decide, [∅], ∅, ?_, ?_, ?_⟩
  · have hv : ResetLoop.visit (nestedSchema true) ⟨nested, root, 0⟩ ⟨[∅], []⟩ = ⟨[∅], []⟩ := rfl
    rw [getFullUpdateResetMask, ResetLoop.loop]
    simp only [maxDepth, ge_iff_le, Nat.le_zero, OfNat.ofNat_ne_zero, ↓reduceDIte, hv]
    rw [ResetLoop.loop]
  · refine ⟨fun p => ?_, fun p v => MaskHeap.Grown.singleton.lt_length⟩
    cases p <;> simp [Mask.nodes_empty, Edges.walk, MaskHeap.child?_singleton]
  · simp [Mask.nodes_empty]

theorem getFullUpdateResetMask_nodes_nested :
    (∃ heap r, nested.getFullUpdateResetMask (nestedSchema false) = .ok heap ∧ heap.Unfolds root r ∧
      r.nodes = nested.resetNodes (nestedSchema false)) ∧
    WellFounded (fun l' l => Picks (nestedSchema false) l l') ∧
    ∀ l, Relation.ReflTransGen (Picks (nestedSchema false)) (start nested) l →
      (∀ i ∈ l.pending, i.depth < maxDepth) ∧
      (l.pending = [] → ∃ r, l.heap.Unfolds root r ∧ r.nodes = nested.resetNodes (nestedSchema false)) :=
  getFullUpdateResetMask_nodes fun hl => (nested_located hl).trans_lt (by decide)

end Message
end Protos
