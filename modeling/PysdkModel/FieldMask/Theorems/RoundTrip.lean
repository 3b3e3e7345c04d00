import PysdkModel.FieldMask.Theorems.Marshal
import PysdkModel.FieldMask.Theorems.Recognition

open TokenType

namespace FieldKey

variable {k : FieldKey}

-- A non-empty simple word and a newline. The encoder's pattern accepts it as a whole, but the newline
-- is a space for the lexer.
def EndsInNewline (k : FieldKey) : Prop :=
  k.takeWhile isSimple ≠ [] ∧ k.dropWhile isSimple = [newline]

instance : DecidablePred EndsInNewline :=
  fun _ => inferInstanceAs (Decidable (_ ∧ _))

def strip (k : FieldKey) : FieldKey :=
  if k.EndsInNewline then k.takeWhile isSimple else k

theorem lexes_marshal (hk : k.IsScalar) : Lexer.Lexes k.marshal [(.plainKey, k.strip)] := by
  rw [marshal]
  split
  case isTrue hm =>
    simp only [matchesSimpleString, Bool.and_eq_true, Bool.not_eq_true', List.isEmpty_eq_false_iff,
      Bool.or_eq_true, beq_iff_eq] at hm
    have hs c (hc : c ∈ k.takeWhile isSimple) : isSimple c :=
      List.all_eq_true.mp List.all_takeWhile c hc
    have hsplit := k.takeWhile_append_dropWhile (p := isSimple)
    rcases hm with ⟨hne, hd | hd⟩
    · have hstrip : k.strip = k := if_neg fun h => by cases hd.symm.trans h.right
      have hw : k.takeWhile isSimple = k := by rwa [hd, List.append_nil] at hsplit
      rw [hstrip]
      have := Lexer.lexes_key (t := []) hne hs (by simp) <| .nil rfl
      rwa [hw, List.append_nil] at this
    · have hstrip : k.strip = k.takeWhile isSimple := if_pos ⟨hne, hd⟩
      have hn : isSimple newline = false := rfl
      rw [hstrip]
      have := Lexer.lexes_key (t := [newline]) hne hs (by simp [hn]) <| .nil rfl
      rwa [← hd, hsplit] at this
  case isFalse hm =>
    have hstrip : k.strip = k := by
      refine if_neg ?_
      rintro ⟨hne, hd⟩
      exact hm <| by simp_all [matchesSimpleString]
    rw [hstrip]
    simpa [Json.dumps] using Lexer.lexes_quoted (Json.scanString_flatMap hk) <| .nil (t := []) rfl

end FieldKey

variable {s : Step FieldKey}

namespace Step

def strip : Step FieldKey → Step FieldKey
  | .any => .any
  | .key k => .key k.strip

theorem lexes_text (hs : ∀ k, s = .key k → k.IsScalar) : Lexer.Lexes s.text [s.strip.kind] := by
  cases s
  case any => exact Lexer.lexes_symbol rfl <| .nil rfl
  case key k => exact FieldKey.lexes_marshal <| hs k rfl

end Step

variable {p : MaskPath}

namespace MaskExpr

def ofTerms (t : TermExpr) : List TermExpr → MaskExpr
  | [] => .term t
  | t' :: ts => .comma t (ofTerms t' ts)

variable {t : TermExpr} {ts : List TermExpr}

theorem mem_denote_ofTerms {q : MaskPath} : q ∈ (ofTerms t ts).denote ↔ ∃ u ∈ t :: ts, q ∈ u.denote := by
  induction ts generalizing t
  case nil => simp [ofTerms, denote]
  case cons t' ts ih => simp [ofTerms, denote, Language.mem_add, ih]

theorem mem_nodes_ofTerms : p ∈ (ofTerms t ts).nodes ↔ ∃ u ∈ t :: ts, ∃ q ∈ u.denote, p <+: q := by
  constructor
  · rintro ⟨q, hq, hp⟩
    have ⟨u, hu, hq⟩ := mem_denote_ofTerms.mp hq
    exact ⟨u, hu, q, hq, hp⟩
  · rintro ⟨u, hu, q, hq, hp⟩
    exact ⟨q, mem_denote_ofTerms.mpr ⟨u, hu, hq⟩, hp⟩

theorem mem_extensions_ofTerms {I : Language (Step FieldKey)} {e : Extension (Step FieldKey)} :
    e ∈ (ofTerms t ts).extensions I ↔ ∃ u ∈ t :: ts, e ∈ u.extensions I := by
  induction ts generalizing t
  case nil => simp [ofTerms, extensions]
  case cons t' ts ih => simp [ofTerms, extensions, ih]

theorem lexes_ofTerms {α : Type*} {text : α → Text} {term : α → TermExpr} {a : α} {as : List α}
    (h : ∀ b ∈ a :: as, Lexer.Lexes (text b) (term b).kinds) :
    Lexer.Lexes ([Lexer.comma].intercalate ((a :: as).map text)) (ofTerms (term a) (as.map term)).kinds := by
  induction as generalizing a
  case nil => simpa [List.intercalate, ofTerms, kinds] using h a (by simp)
  case cons b as ih =>
    have hb := ih fun c (hc : c ∈ b :: as) => h c (List.mem_cons_of_mem a hc)
    have ha := h a (by simp)
    have := Lexer.lexes_append rfl ha <| Lexer.lexes_symbol (c := Lexer.comma) rfl hb
    simpa [List.intercalate, ofTerms, kinds, commaKind] using this

end MaskExpr

variable {t : TermExpr}

namespace TermExpr

def nodes (t : TermExpr) : Set MaskPath :=
  { p | ∃ q ∈ t.denote, p <+: q }

def Single (t : TermExpr) : Prop :=
  ∀ I : Language (Step FieldKey), (∀ i ∈ I, ∀ j ∈ I, i = j) →
    ∀ e ∈ t.extensions I, ∀ i ∈ e.paths, ∀ j ∈ e.paths, i = j

theorem single_step : (seg (.step s)).Single := by
  intro I hI e he
  obtain rfl := List.mem_singleton.mp he
  exact hI

theorem single_dot (h : t.Single) : (dot (.step s) t).Single := by
  intro I hI e he
  rcases List.mem_append.mp he with he | he
  · obtain rfl := List.mem_singleton.mp he
    exact hI
  · refine h _ (fun i hi j hj => ?_) e he
    obtain ⟨i, hi', _, rfl, rfl⟩ := Language.mem_mul.mp hi
    obtain ⟨j, hj', _, rfl, rfl⟩ := Language.mem_mul.mp hj
    rw [hI i hi' j hj']

theorem mem_nodes_step : p ∈ (seg (.step s)).nodes ↔ p = [] ∨ p = [s] := by
  constructor
  · rintro ⟨q, hq, hp⟩
    obtain rfl : q = [s] := hq
    rcases List.prefix_cons_iff.mp hp with rfl | ⟨t, rfl, ht⟩
    · exact .inl rfl
    · exact .inr <| by rw [List.prefix_nil.mp ht]
  · rintro (rfl | rfl)
    · exact ⟨[s], rfl, List.nil_prefix⟩
    · exact ⟨[s], rfl, List.prefix_refl _⟩

theorem mem_nodes_dot : p ∈ (dot (.step s) t).nodes ↔ p = [] ∨ ∃ p', p = s :: p' ∧ p' ∈ t.nodes := by
  constructor
  · rintro ⟨q, hq, hp⟩
    obtain ⟨_, rfl, q, hq', rfl⟩ := Language.mem_mul.mp hq
    cases p
    case nil => exact .inl rfl
    case cons s' p =>
      obtain ⟨hs, hp⟩ := List.cons_prefix_cons.mp hp
      exact .inr ⟨p, by rw [hs], q, hq', hp⟩
  · have hmem q (hq : q ∈ t.denote) : s :: q ∈ (dot (.step s) t).denote :=
      Language.mem_mul.mpr ⟨[s], rfl, q, hq, rfl⟩
    rintro (rfl | ⟨p, rfl, q, hq, hp⟩)
    · obtain ⟨q, hq⟩ := t.denote_nonempty
      exact ⟨s :: q, hmem q hq, List.nil_prefix⟩
    · exact ⟨s :: q, hmem q hq, List.cons_prefix_cons.mpr ⟨rfl, hp⟩⟩

end TermExpr

namespace Mask

variable {m c : Mask FieldKey} {s : Step FieldKey}

def AllKeys (m : Mask FieldKey) (P : FieldKey → Prop) : Prop :=
  ∀ p ∈ m.nodes, ∀ k, Step.key k ∈ p → P k

theorem AllKeys.child {P : FieldKey → Prop} (h : m.AllKeys P) (hc : m.child? s = some c) :
    (∀ k, s = .key k → P k) ∧ c.AllKeys P := by
  constructor
  · rintro k rfl
    exact h [.key k] (singleton_mem_nodes.mpr ⟨c, hc⟩) k (by simp)
  · intro p hp k hk
    exact h (s :: p) (cons_mem_nodes.mpr ⟨c, hc, hp⟩) k (by simp [hk])

def stripped (m : Mask FieldKey) : Set MaskPath :=
  List.map Step.strip '' m.nodes

theorem mem_stripped_iff :
    p ∈ m.stripped ↔ p = [] ∨ ∃ s c p', m.child? s = some c ∧ p = s.strip :: p' ∧ p' ∈ c.stripped := by
  constructor
  · rintro ⟨q, hq, rfl⟩
    cases q
    case nil => exact .inl rfl
    case cons s q =>
      have ⟨c, hc, hq⟩ := cons_mem_nodes.mp hq
      exact .inr ⟨s, c, q.map Step.strip, hc, rfl, q, hq, rfl⟩
  · rintro (rfl | ⟨s, c, _, hc, rfl, q, hq, rfl⟩)
    · exact ⟨[], nil_mem_nodes, rfl⟩
    · exact ⟨s :: q, cons_mem_nodes.mpr ⟨c, hc, hq⟩, rfl⟩

structure Renders (m : Mask FieldKey) (t : TermExpr) (ts : List TermExpr) : Prop where
  count : m.marshalTree.1 = ts.length + 1
  lexes : Lexer.Lexes m.marshalTree.2 (MaskExpr.ofTerms t ts).kinds
  nodes : (MaskExpr.ofTerms t ts).nodes = m.stripped
  single : ∀ u ∈ t :: ts, u.Single

theorem children_of_isEmpty (h : m.isEmpty) : m.children = [] :=
  List.eq_nil_iff_forall_not_mem.mpr fun e he => by
    simpa [isEmpty_iff.mp h] using mem_children_iff.mp he

theorem marshalTree_of_isEmpty (h : m.isEmpty) : m.marshalTree = (0, []) := by
  rw [marshalTree_eq, children_of_isEmpty h]
  simp [Marshal.join]

theorem stripped_of_isEmpty (h : m.isEmpty) : m.stripped = {[]} := by
  rw [stripped, isEmpty_iff_nodes.mp h, Set.image_singleton]
  rfl

theorem Renders.text_ne_nil {ts : List TermExpr} (h : m.Renders t ts) : m.marshalTree.2 ≠ [] := by
  intro hn
  have ⟨k, ks, hk, _⟩ := (MaskExpr.ofTerms t ts).kinds_head
  have hl := h.lexes
  rw [hn, hk] at hl
  rcases hl with _ | ⟨hs, ht, _⟩
  cases hs
  exact ht rfl

theorem Renders.subterm {ts : List TermExpr} (h : m.Renders t ts) :
    ∃ u : TermExpr, u.Single ∧ u.nodes = m.stripped ∧
      Lexer.Lexes (if m.marshalTree.1 = 1 then m.marshalTree.2 else Lexer.lbrace :: (m.marshalTree.2 ++ [Lexer.rbrace]))
        u.kinds := by
  cases ts
  case nil =>
    refine ⟨t, h.single t (by simp), h.nodes, ?_⟩
    have hc : m.marshalTree.1 = 1 := h.count
    rw [if_pos hc]
    exact h.lexes
  case cons t' ts =>
    refine ⟨.seg <| .group <| .ofTerms t (t' :: ts), ?_, h.nodes, ?_⟩
    · intro I hI e he
      have ⟨u, hu, he⟩ := MaskExpr.mem_extensions_ofTerms.mp he
      exact h.single u hu I hI e he
    · rw [if_neg (by rw [h.count]; simp)]
      have hr : Lexer.Lexes [Lexer.rbrace] [rbraceKind] := Lexer.lexes_symbol rfl <| .nil rfl
      exact Lexer.lexes_symbol rfl <| Lexer.lexes_append rfl h.lexes hr

theorem segment_renders (hs : ∀ k, s = .key k → k.IsScalar) (hc : c.isEmpty ∨ ∃ t ts, c.Renders t ts) :
    ∃ u : TermExpr, Lexer.Lexes (Marshal.segment s c.marshalTree) u.kinds ∧ u.Single ∧
      ∀ p, p ∈ u.nodes ↔ p = [] ∨ ∃ p', p = s.strip :: p' ∧ p' ∈ c.stripped := by
  rcases hc with hc | ⟨t, ts, hc⟩
  · refine ⟨.seg <| .step s.strip, ?_, TermExpr.single_step, fun p => ?_⟩
    · rw [marshalTree_of_isEmpty hc, Marshal.segment, if_pos rfl]
      exact Step.lexes_text hs
    · rw [TermExpr.mem_nodes_step, stripped_of_isEmpty hc]
      simp
  · have ⟨u, hu, hn, hl⟩ := hc.subterm
    refine ⟨.dot (.step s.strip) u, ?_, TermExpr.single_dot hu, fun p => ?_⟩
    · have := Lexer.lexes_append rfl (Step.lexes_text hs) <| Lexer.lexes_symbol (c := Lexer.dot) rfl hl
      rw [Marshal.segment, if_neg hc.text_ne_nil]
      split at this <;> simp_all [TermExpr.kinds, SegExpr.kinds, dotKind]
    · rw [TermExpr.mem_nodes_dot, hn]

def sortedChildren (m : Mask FieldKey) : List (Step FieldKey × Mask FieldKey) :=
  m.children.insertionSort fun e e' =>
    Marshal.segment e.1 e.2.marshalTree ≤ Marshal.segment e'.1 e'.2.marshalTree

theorem mem_sortedChildren {e : Step FieldKey × Mask FieldKey} : e ∈ m.sortedChildren ↔ e ∈ m.children :=
  List.mem_insertionSort _

theorem marshalTree_eq_sorted : m.marshalTree =
    (m.sortedChildren.length, [Lexer.comma].intercalate
      (m.sortedChildren.map fun e => Marshal.segment e.1 e.2.marshalTree)) := by
  rw [marshalTree_eq, Marshal.join, sortedChildren,
    List.map_insertionSort _ (· ≤ ·) _ _ fun _ _ _ _ => Iff.rfl]
  simp

theorem renders (hk : m.AllKeys Text.IsScalar) (hm : ¬m.isEmpty) : ∃ t ts, m.Renders t ts := by
  induction m using branch_induction
  case h m ih =>
    have hterm e (he : e ∈ m.children) := by
      have hc := mem_children_iff.mp he
      have ⟨hs, hk'⟩ := hk.child hc
      exact segment_renders hs <| Decidable.or_iff_not_imp_left.mpr fun hne => ih e.1 e.2 hc hk' hne
    have : Nonempty TermExpr := ⟨.seg .unit⟩
    choose! term hterm using hterm
    have hsorted e (he : e ∈ m.sortedChildren) := hterm e <| mem_sortedChildren.mp he
    cases hcs : m.sortedChildren
    case nil =>
      refine absurd (isEmpty_iff.mpr fun s => ?_) hm
      by_contra hc
      have ⟨c, hc⟩ := Option.ne_none_iff_exists'.mp hc
      have := mem_sortedChildren.mpr <| mem_children_iff.mpr hc
      simp [hcs] at this
    case cons e es =>
      refine ⟨term e, es.map term, ?_, ?_, ?_, ?_⟩
      · rw [marshalTree_eq_sorted, hcs]
        simp
      · rw [marshalTree_eq_sorted, hcs]
        exact MaskExpr.lexes_ofTerms fun e he => (hsorted e <| hcs ▸ he).left
      · ext p
        rw [MaskExpr.mem_nodes_ofTerms, mem_stripped_iff, ← List.map_cons, ← hcs]
        simp only [List.mem_map, exists_exists_and_eq_and]
        constructor
        · rintro ⟨e, he, hp⟩
          refine ((hsorted e he).right.right p |>.mp hp).imp_right fun ⟨p', hp, hp'⟩ => ?_
          exact ⟨e.1, e.2, p', mem_children_iff.mp <| mem_sortedChildren.mp he, hp, hp'⟩
        · rintro (rfl | ⟨s, c, p', hc, hp⟩)
          · exact ⟨e, by simp [hcs], (hsorted e (by simp [hcs])).right.right [] |>.mpr <| .inl rfl⟩
          · have he := mem_sortedChildren.mpr <| mem_children_iff.mpr hc
            exact ⟨(s, c), he, (hsorted _ he).right.right p |>.mpr <| .inr ⟨p', hp⟩⟩
      · simp only [← List.map_cons, ← hcs, List.mem_map, forall_exists_index, and_imp]
        rintro _ e he rfl
        exact (hsorted e he).right.left

theorem Renders.leakFree {ts : List TermExpr} (h : m.Renders t ts) : (MaskExpr.ofTerms t ts).LeakFree := by
  refine MaskExpr.leakFree_of_single fun e he => ?_
  obtain ⟨u, hu, he⟩ := MaskExpr.mem_extensions_ofTerms.mp he
  exact h.single u hu 1 (fun i hi j hj => hi.trans hj.symm) e he

-- The mask is shallow enough to be read back with the given number of frames. An empty mask is not copied.
def Shallow (m : Mask FieldKey) (frames : Nat) : Prop :=
  m.isEmpty ∨ ∀ p ∈ m.nodes, p.length < frames

theorem length_of_mem_stripped {frames : Nat} :
    (∀ p ∈ m.stripped, p.length < frames) ↔ ∀ p ∈ m.nodes, p.length < frames := by
  simp [stripped]

theorem unmarshal_marshalTree (frames : Nat) (hk : m.AllKeys Text.IsScalar) :
    ((∃ r, unmarshal frames m.marshalTree.2 = .ok r) ↔ m.Shallow frames) ∧
    ∀ r, unmarshal frames m.marshalTree.2 = .ok r → r.nodes = m.stripped := by
  by_cases hm : m.isEmpty
  · rw [marshalTree_of_isEmpty hm, stripped_of_isEmpty hm]
    refine ⟨iff_of_true ⟨∅, rfl⟩ (.inl hm), fun r hr => ?_⟩
    cases hr
    exact nodes_empty
  · obtain ⟨t, ts, hr⟩ := renders hk hm
    have hl : Lexer.kinds m.marshalTree.2 = .ok (MaskExpr.ofTerms t ts).kinds :=
      Lexer.tokens_eq_ok_iff.mpr hr.lexes
    have hp := (Parser.pathsOf_eq_nodes_iff _).mpr hr.leakFree |>.trans hr.nodes
    refine ⟨?_, fun r hr => (Parser.nodes_of_parseWithin hl hr).trans hp⟩
    rw [unmarshal, Parser.parseWithin_eq_ok_iff hl, hp, length_of_mem_stripped, Shallow, or_iff_right hm]

theorem length_le_size (hp : p ∈ m.nodes) : p.length ≤ m.size := by
  induction p generalizing m
  case nil => exact Nat.zero_le _
  case cons s p ih =>
    obtain ⟨c, hc, hp⟩ := cons_mem_nodes.mp hp
    have := size_child?_lt hc
    have := ih hp
    simp only [List.length_cons]
    omega

-- With enough frames every mask is read back from its text, up to the newlines at the end of keys.
theorem stripped_eq_of_text_eq {m' : Mask FieldKey} (hk : m.AllKeys Text.IsScalar)
    (hk' : m'.AllKeys Text.IsScalar) (ht : m.marshalTree.2 = m'.marshalTree.2) : m.stripped = m'.stripped := by
  have hs : m.Shallow (m.size + 1) := .inr fun p hp => Nat.lt_succ_of_le <| length_le_size hp
  obtain ⟨r, hr⟩ := (unmarshal_marshalTree _ hk).left.mpr hs
  rw [← (unmarshal_marshalTree _ hk).right r hr, (unmarshal_marshalTree _ hk').right r (ht ▸ hr)]

theorem not_endsInNewline_strip {k : FieldKey} : ¬k.strip.EndsInNewline := by
  rw [FieldKey.strip]
  split
  case isFalse h => exact h
  rintro ⟨_, hd⟩
  have hs : ∀ c ∈ k.takeWhile FieldKey.isSimple, FieldKey.isSimple c :=
    List.all_eq_true.mp List.all_takeWhile
  have : FieldKey.newline ∈ (k.takeWhile FieldKey.isSimple).dropWhile FieldKey.isSimple := by simp [hd]
  exact absurd (hs _ <| (List.dropWhile_sublist _).subset this) (by decide)

theorem stripped_eq_nodes_iff : m.stripped = m.nodes ↔ m.AllKeys fun k => ¬k.EndsInNewline := by
  constructor
  · intro h p hp k hk
    rw [← h] at hp
    obtain ⟨q, _, rfl⟩ := hp
    have ⟨s, _, hs⟩ := List.mem_map.mp hk
    cases s <;> cases hs
    exact not_endsInNewline_strip
  · intro h
    have hid p (hp : p ∈ m.nodes) : p.map Step.strip = p := by
      refine (List.map_congr_left fun s hs => ?_).trans p.map_id
      cases s
      case any => rfl
      case key k => exact congrArg Step.key <| if_neg <| h p hp k hs
    ext p
    constructor
    · rintro ⟨q, hq, rfl⟩
      rwa [hid q hq]
    · exact fun hp => ⟨p, hp, hid p hp⟩

end Mask

def Mask.ofKey (k : FieldKey) : Mask FieldKey :=
  .mk none ⟨[(k, ∅)], by simp⟩

namespace MaskHeap

variable {h : MaskHeap FieldKey} {r r' : Nat} {m m' : Mask FieldKey}

theorem marshal_eq (hu : h.Unfolds r m) : h.marshal r = .ok m.marshalTree.2 := by
  rw [marshal, marshal'_eq hu]
  rfl

-- Reading back the text of a mask gives the mask iff no key of the mask is a simple word with a newline
-- at its end, and the interpreter has frames to copy the mask. Masks without such keys have the same text iff they
-- are equal.
theorem unmarshal_marshal_iff (frames : Nat) (hu : h.Unfolds r m) (hu' : h.Unfolds r' m')
    (hk : m.AllKeys Text.IsScalar) (hk' : m'.AllKeys Text.IsScalar) :
    ∃ t t', h.marshal r = .ok t ∧ h.marshal r' = .ok t' ∧
      ((∃ x, Mask.unmarshal frames t = .ok x ∧ x == m) ↔
        (m.AllKeys fun k => ¬k.EndsInNewline) ∧ m.Shallow frames) ∧
      ((m.AllKeys fun k => ¬k.EndsInNewline) → (m'.AllKeys fun k => ¬k.EndsInNewline) →
        (t = t' ↔ m == m')) := by
  refine ⟨_, _, marshal_eq hu, marshal_eq hu', ?_, fun hn hn' => ?_⟩
  case refine_1 =>
    obtain ⟨hok, hnodes⟩ := Mask.unmarshal_marshalTree frames hk
    rw [← Mask.stripped_eq_nodes_iff, ← hok]
    constructor
    · rintro ⟨x, hx, he⟩
      exact ⟨(hnodes x hx).symm.trans <| Mask.beq_iff_nodes.mp he, x, hx⟩
    · rintro ⟨hn, x, hx⟩
      exact ⟨x, hx, Mask.beq_iff_nodes.mpr <| (hnodes x hx).trans hn⟩
  case refine_2 =>
    rw [Mask.beq_iff_nodes]
    constructor
    · intro ht
      rw [← Mask.stripped_eq_nodes_iff.mpr hn, ← Mask.stripped_eq_nodes_iff.mpr hn']
      exact Mask.stripped_eq_of_text_eq hk hk' ht
    · intro he
      rw [Mask.marshalTree_congr he]

section SingleKey

def ofKey (k : FieldKey) : MaskHeap FieldKey :=
  [⟨none, ⟨[(k, 1)], by simp⟩⟩, ∅]

-- The text of the key "a\n" is the key as it is, which the parser reads as "a".
theorem unmarshal_marshal_newline : marshal (ofKey [0x61, 0x0A]) 0 = .ok [0x61, 0x0A] ∧
    (Mask.unmarshal 1000 [0x61, 0x0A]).toOption.map (· == Mask.ofKey [0x61, 0x0A]) = some false := by
  decide +kernel

theorem child?_ofKey {k : FieldKey} {v : Nat} : (ofKey k).child? v s = if v = 0 ∧ s = .key k then some 1 else none := by
  match v, s with
  | 0, .any => rfl
  | 0, .key j => simp [child?, ofKey, MaskObject.child?, Dict.get?, eq_comm]
  | 1, .any => rfl
  | 1, .key _ => rfl
  | _ + 2, _ => rfl

attribute [local simp] Edges.walk child?_ofKey

theorem unfolds_ofKey {k : FieldKey} : (ofKey k).Unfolds 0 (.ofKey k) := by
  have hc s : (Mask.ofKey k).child? s = if s = .key k then some ∅ else none := by
    cases s <;> simp [Mask.ofKey, Dict.get?, eq_comm]
  constructor
  case nodes =>
    rintro (_ | ⟨s, _ | ⟨t, p⟩⟩)
    · simp [Mask.nil_mem_nodes]
    · by_cases hs : s = .key k <;> simp [Mask.singleton_mem_nodes, hc, hs]
    · by_cases hs : s = .key k <;> simp [Mask.cons_mem_nodes, hc, hs]
  case bound =>
    rintro (_ | ⟨s, _ | ⟨t, p⟩⟩) v hv
    · cases hv
      simp [ofKey]
    · by_cases hs : s = .key k <;> simp [hs] at hv
      subst hv
      simp [ofKey]
    · by_cases hs : s = .key k <;> simp [hs] at hv

theorem allKeys_ofKey {k : FieldKey} {P : FieldKey → Prop} (hk : P k) : (Mask.ofKey k).AllKeys P := by
  intro p hp j hj
  have ⟨v, hv⟩ := (unfolds_ofKey.nodes p).mp hp
  match p with
  | [s] =>
    by_cases hs : s = .key k
    · simp_all
    · simp [hs] at hv
  | s :: t :: p => by_cases hs : s = .key k <;> simp [hs] at hv

end SingleKey

theorem isScalar_quote : Text.IsScalar [0x22, 0x0A] := by
  intro c hc
  simp only [List.mem_cons, List.not_mem_nil, or_false] at hc
  rcases hc with rfl | rfl <;> simp [CodePoint.IsScalar]

theorem unmarshal_marshal_iff_quote :
    ∃ t t', marshal (ofKey [0x22, 0x0A]) 0 = .ok t ∧ marshal (ofKey [0x22, 0x0A]) 0 = .ok t' ∧
      ((∃ x, Mask.unmarshal 1000 t = .ok x ∧ x == Mask.ofKey [0x22, 0x0A]) ↔
        ((Mask.ofKey [0x22, 0x0A]).AllKeys fun k => ¬k.EndsInNewline) ∧ (Mask.ofKey [0x22, 0x0A]).Shallow 1000) ∧
      (((Mask.ofKey [0x22, 0x0A]).AllKeys fun k => ¬k.EndsInNewline) →
        ((Mask.ofKey [0x22, 0x0A]).AllKeys fun k => ¬k.EndsInNewline) →
        (t = t' ↔ Mask.ofKey [0x22, 0x0A] == Mask.ofKey [0x22, 0x0A])) :=
  unmarshal_marshal_iff 1000 unfolds_ofKey unfolds_ofKey (allKeys_ofKey isScalar_quote)
    (allKeys_ofKey isScalar_quote)

end MaskHeap
