import PysdkModel.FieldMask.Theorems.Lattice
import PysdkModel.FieldMask.Theorems.Lexer
import PysdkModel.FieldMask.Theorems.Parser

open TokenType

mutual

theorem MaskExpr.denote_nonempty : ∀ (m : MaskExpr), ∃ q, q ∈ m.denote
  | .term t => t.denote_nonempty
  | .comma t _ => have ⟨q, hq⟩ := t.denote_nonempty; ⟨q, .inl hq⟩

theorem TermExpr.denote_nonempty : ∀ (t : TermExpr), ∃ q, q ∈ t.denote
  | .seg s => s.denote_nonempty
  | .dot s t =>
    have ⟨q, hq⟩ := s.denote_nonempty
    have ⟨r, hr⟩ := t.denote_nonempty
    ⟨q ++ r, q, hq, r, hr, rfl⟩

theorem SegExpr.denote_nonempty : ∀ (s : SegExpr), ∃ q, q ∈ s.denote
  | .step s => ⟨[s], rfl⟩
  | .unit => ⟨[], rfl⟩
  | .group m => m.denote_nonempty

end

theorem MaskExpr.nil_mem_nodes (m : MaskExpr) : [] ∈ m.nodes :=
  have ⟨q, hq⟩ := m.denote_nonempty
  ⟨q, hq, List.nil_prefix⟩

mutual

theorem MaskExpr.shared_extensions (m : MaskExpr) {es : List (Extension (Step FieldKey))}
    {I : Language (Step FieldKey)} (hI : ∀ i ∈ I, Shared es i i) {i p q : MaskPath} (hi : i ∈ I)
    (hq : q ∈ m.denote) (hp : p <+: q) : Shared (es ++ m.extensions I) (i ++ p) (i ++ p) := by
  match m with
  | .term t => exact t.shared_extensions hI hi hq hp
  | .comma t m =>
    rw [MaskExpr.extensions, ← List.append_assoc]
    rcases hq with hq | hq
    · exact .mono <| t.shared_extensions hI hi hq hp
    · exact m.shared_extensions (fun i hi => .mono <| hI i hi) hi hq hp

theorem TermExpr.shared_extensions (t : TermExpr) {es : List (Extension (Step FieldKey))}
    {I : Language (Step FieldKey)} (hI : ∀ i ∈ I, Shared es i i) {i p q : MaskPath} (hi : i ∈ I)
    (hq : q ∈ t.denote) (hp : p <+: q) : Shared (es ++ t.extensions I) (i ++ p) (i ++ p) := by
  match t with
  | .seg s => exact s.shared_extensions hI hi hq hp
  | .dot s t =>
    obtain ⟨q₁, hq₁, q₂, hq₂, rfl⟩ := Language.mem_mul.mp hq
    rw [TermExpr.extensions, ← List.append_assoc]
    rcases List.prefix_or_prefix_of_prefix hp (List.prefix_append q₁ q₂) with hp' | ⟨r, rfl⟩
    · exact .mono <| s.shared_extensions hI hi hq₁ hp'
    · rw [← List.append_assoc]
      refine t.shared_extensions (fun j hj => ?_) (Language.mem_mul.mpr ⟨i, hi, q₁, hq₁, rfl⟩) hq₂ <|
        (List.prefix_append_right_inj q₁).mp hp
      obtain ⟨j, hj', q, hq, rfl⟩ := Language.mem_mul.mp hj
      exact s.shared_extensions hI hj' hq <| List.prefix_refl q

theorem SegExpr.shared_extensions (s : SegExpr) {es : List (Extension (Step FieldKey))}
    {I : Language (Step FieldKey)} (hI : ∀ i ∈ I, Shared es i i) {i p q : MaskPath} (hi : i ∈ I)
    (hq : q ∈ s.denote) (hp : p <+: q) : Shared (es ++ s.extensions I) (i ++ p) (i ++ p) := by
  match s with
  | .step s =>
    obtain rfl : q = [s] := hq
    refine Shared.refl_concat_iff.mpr ?_
    rcases List.prefix_cons_iff.mp hp with rfl | ⟨t, rfl, ht⟩
    · exact .inl <| by simpa using hI i hi
    · exact .inr ⟨i, by rw [List.prefix_nil.mp ht], i, hi, hI i hi⟩
  | .unit =>
    obtain rfl : q = [] := hq
    obtain rfl := List.prefix_nil.mp hp
    simpa [SegExpr.extensions] using hI i hi
  | .group m => exact m.shared_extensions hI hi hq hp

end

mutual

theorem MaskExpr.extensions_nodes (m : MaskExpr) {I : Language (Step FieldKey)}
    {e : Extension (Step FieldKey)} (he : e ∈ m.extensions I) {i : MaskPath} (hi : i ∈ e.paths) :
    ∃ j ∈ I, ∃ q ∈ m.denote, ∃ p, p <+: q ∧ i ++ [e.label] = j ++ p := by
  match m with
  | .term t => exact t.extensions_nodes he hi
  | .comma t m =>
    rcases List.mem_append.mp he with he | he
    · have ⟨j, hj, q, hq, hp⟩ := t.extensions_nodes he hi
      exact ⟨j, hj, q, .inl hq, hp⟩
    · have ⟨j, hj, q, hq, hp⟩ := m.extensions_nodes he hi
      exact ⟨j, hj, q, .inr hq, hp⟩

theorem TermExpr.extensions_nodes (t : TermExpr) {I : Language (Step FieldKey)}
    {e : Extension (Step FieldKey)} (he : e ∈ t.extensions I) {i : MaskPath} (hi : i ∈ e.paths) :
    ∃ j ∈ I, ∃ q ∈ t.denote, ∃ p, p <+: q ∧ i ++ [e.label] = j ++ p := by
  match t with
  | .seg s => exact s.extensions_nodes he hi
  | .dot s t =>
    rcases List.mem_append.mp he with he | he
    · have ⟨j, hj, q, hq, p, hp, h⟩ := s.extensions_nodes he hi
      have ⟨r, hr⟩ := t.denote_nonempty
      exact ⟨j, hj, q ++ r, Language.mem_mul.mpr ⟨q, hq, r, hr, rfl⟩, p, hp.trans (List.prefix_append ..), h⟩
    · have ⟨_, hj, q, hq, p, hp, h⟩ := t.extensions_nodes he hi
      obtain ⟨j, hj', r, hr, rfl⟩ := Language.mem_mul.mp hj
      refine ⟨j, hj', r ++ q, Language.mem_mul.mpr ⟨r, hr, q, hq, rfl⟩, r ++ p, ?_, by simpa using h⟩
      exact (List.prefix_append_right_inj r).mpr hp

theorem SegExpr.extensions_nodes (s : SegExpr) {I : Language (Step FieldKey)}
    {e : Extension (Step FieldKey)} (he : e ∈ s.extensions I) {i : MaskPath} (hi : i ∈ e.paths) :
    ∃ j ∈ I, ∃ q ∈ s.denote, ∃ p, p <+: q ∧ i ++ [e.label] = j ++ p := by
  match s with
  | .step s =>
    obtain rfl := List.mem_singleton.mp he
    exact ⟨i, hi, [s], rfl, [s], List.prefix_refl _, rfl⟩
  | .unit => simp [SegExpr.extensions] at he
  | .group m => exact m.extensions_nodes he hi

end

namespace MaskExpr

-- Whenever a key or '*' of the text continues a path, all paths that by then share their mask object
-- with it are continued to nodes of the denotation as well.
def LeakFree (m : MaskExpr) : Prop :=
  ∀ pre ext post, m.extensions 1 = pre ++ ext :: post →
    ∀ i ∈ ext.paths, ∀ p, Shared pre p i → p ++ [ext.label] ∈ m.nodes

theorem leakFree_of_single {m : MaskExpr}
    (h : ∀ e ∈ m.extensions 1, ∀ i ∈ e.paths, ∀ j ∈ e.paths, i = j) : m.LeakFree := by
  intro pre e post he i hi p hp
  have hpre e' (he' : e' ∈ pre) := h e' (by simp [he, he'])
  have hmem : e ∈ m.extensions 1 := by simp [he]
  obtain rfl := Shared.eq_of_single hpre hp
  have ⟨j, hj, q, hq, p', hp', heq⟩ := m.extensions_nodes hmem hi
  obtain rfl : j = [] := hj
  exact ⟨q, hq, heq ▸ hp'⟩

-- What the parser needs in order to return the denoted mask with the given number of frames.
structure Denoted (m : MaskExpr) (frames : Nat) : Prop where
  leakFree : m.LeakFree
  depth : ∀ p ∈ m.nodes, p.length < frames

def append : MaskExpr → MaskExpr → MaskExpr
  | .term t, m₂ => .comma t m₂
  | .comma t m, m₂ => .comma t (m.append m₂)

theorem kinds_append : ∀ {m₁ m₂ : MaskExpr}, (m₁.append m₂).kinds = m₁.kinds ++ commaKind :: m₂.kinds
  | .term t, m₂ => rfl
  | .comma t m, m₂ => by simp [append, kinds, kinds_append]

theorem denote_append : ∀ {m₁ m₂ : MaskExpr}, (m₁.append m₂).denote = m₁.denote + m₂.denote
  | .term t, m₂ => rfl
  | .comma t m, m₂ => by simp [append, denote, denote_append, add_assoc]

theorem nodes_append {m₁ m₂ : MaskExpr} : (m₁.append m₂).nodes = m₁.nodes ∪ m₂.nodes := by
  ext p
  simp only [nodes, denote_append, Language.mem_add, Set.mem_union, Set.mem_ofPred_eq, or_and_right,
    exists_or]

end MaskExpr

namespace Parser

variable {source x y : Text} {m : MaskExpr}

def pathsOf (m : MaskExpr) : Set MaskPath :=
  { p | Shared (m.extensions 1) p p }

theorem pathsOf_eq_nodes_iff (m : MaskExpr) : pathsOf m = m.nodes ↔ m.LeakFree := by
  rw [MaskExpr.LeakFree, ← Shared.refl_subset_iff m.nil_mem_nodes]
  constructor
  · exact fun h p hp => h ▸ hp
  · intro h
    refine Set.Subset.antisymm h fun p ⟨q, hq, hp⟩ => ?_
    have hn i (hi : i ∈ (1 : Language (Step FieldKey))) : Shared [] i i :=
      Shared.nil_iff.mpr ⟨hi, hi⟩
    exact m.shared_extensions hn rfl hq hp

theorem dropWhile_ne_nil (hk : Lexer.kinds source = .ok m.kinds) :
    (source.dropWhile Lexer.isSpace).isEmpty = false := by
  by_contra h
  have hn : Lexer.Lexes source [] := .nil <| by simpa using h
  have ⟨k, ks, hm, _⟩ := m.kinds_head
  have hn : Lexer.kinds source = .ok [] := Lexer.tokens_eq_ok_iff.mpr hn
  cases hm.symm.trans <| Except.ok.inj <| hk.symm.trans hn

-- Both loops read a text of the grammar to its end. The copy then needs a frame for every level of the mask.
theorem parseWithin_of_kinds (frames : Nat) (hk : Lexer.kinds source = .ok m.kinds) :
    (∃ r, parseWithin frames source = .ok r ∧ r.nodes = pathsOf m) ∧ (∀ p ∈ pathsOf m, p.length < frames) ∨
    parseWithin frames source = .error .recursionError ∧ ¬∀ p ∈ pathsOf m, p.length < frames := by
  have hsp := dropWhile_ne_nil hk
  simp only [Lexer.kinds] at hk
  cases ht : (Lexer.init source).tokens
  case error => simp [ht, Except.map] at hk
  case ok toks =>
    have hk : toks.map Token.kind = m.kinds := by simpa [ht, Except.map] using hk
    obtain ⟨p, _, _, hr, hrd, -⟩ :=
      @MaskExpr.run_kinds source m _ _ _ _ _ hk rfl built_init reaches_init reaches_init reaches_zero
    have hb := hrd.built
    have hpaths : (p.heap.copy frames root).isSome ↔ ∀ q ∈ pathsOf m, q.length < frames := by
      rw [MaskHeap.copy_isSome_iff hb.ascending hb.root_lt]
      exact forall_congr' fun q => forall_exists_index.symm.trans <| imp_congr_left hb.shared.refl_iff.symm
    simp only [parseWithin, hsp, ht, Except.bind, hr, hrd.prev, hrd.state, ← hpaths]
    cases hc : p.heap.copy frames root
    case none => exact .inr ⟨by simp [init], by simp⟩
    case some r =>
      have hu := MaskHeap.unfolds_of_copy hb.ascending hb.root_lt hc
      exact .inl ⟨⟨r, by simp [init], Set.ext fun q => (hu.nodes q).trans hb.shared.refl_iff.symm⟩, by simp⟩

theorem parseWithin_eq_ok_iff {frames : Nat} (hk : Lexer.kinds source = .ok m.kinds) :
    (∃ r, parseWithin frames source = .ok r) ↔ ∀ p ∈ pathsOf m, p.length < frames := by
  rcases parseWithin_of_kinds frames hk with ⟨⟨r, hr, -⟩, hp⟩ | ⟨he, hp⟩
  · exact iff_of_true ⟨r, hr⟩ hp
  · simp [he, hp]

theorem nodes_of_parseWithin {frames : Nat} {r : Mask FieldKey} (hk : Lexer.kinds source = .ok m.kinds)
    (hr : parseWithin frames source = .ok r) : r.nodes = pathsOf m := by
  rcases parseWithin_of_kinds frames hk with ⟨⟨r', hr', hn⟩, -⟩ | ⟨he, -⟩
  · rwa [← Except.ok.inj <| hr'.symm.trans hr]
  · cases he.symm.trans hr

theorem parseWithin_nodes_iff {frames : Nat} (hk : Lexer.kinds source = .ok m.kinds) :
    (∃ r, parseWithin frames source = .ok r ∧ r.nodes = m.nodes) ↔ m.Denoted frames := by
  constructor
  · rintro ⟨r, hr, hn⟩
    have hp := (nodes_of_parseWithin hk hr).symm.trans hn
    exact ⟨(pathsOf_eq_nodes_iff m).mp hp, hp ▸ (parseWithin_eq_ok_iff hk).mp ⟨r, hr⟩⟩
  · rintro ⟨hl, hd⟩
    have hp := (pathsOf_eq_nodes_iff m).mpr hl
    obtain ⟨r, hr⟩ := (parseWithin_eq_ok_iff hk).mpr <| hp ▸ hd
    exact ⟨r, hr, (nodes_of_parseWithin hk hr).trans hp⟩

theorem kinds_comma {m₁ m₂ : MaskExpr} (h₁ : Lexer.kinds x = .ok m₁.kinds) (h₂ : Lexer.kinds y = .ok m₂.kinds) :
    Lexer.kinds (x ++ Lexer.comma :: y) = .ok (m₁.append m₂).kinds := by
  have hc : Lexer.symbol? Lexer.comma = some .comma := rfl
  simp only [Lexer.kinds, Lexer.tokens_eq_ok_iff, Lexer.init, MaskExpr.kinds_append] at h₁ h₂ ⊢
  exact Lexer.lexes_append hc h₁ <| Lexer.lexes_symbol hc h₂

-- The parser accepts every text of the grammar whose mask the interpreter has frames to copy. It returns the
-- denoted mask iff there are enough frames for this mask, and no key or '*' of the text is also added to an
-- undenoted path. Under this condition a comma is the union of masks.
theorem parse_denotes_iff (frames : Nat) (x : Text) (m₁ : MaskExpr) (h₁ : Lexer.kinds x = .ok m₁.kinds) :
    ((∃ r, parseWithin frames x = .ok r) ↔ ∀ p ∈ pathsOf m₁, p.length < frames) ∧
    ((∃ r, parseWithin frames x = .ok r ∧ r.nodes = m₁.nodes) ↔ m₁.Denoted frames) ∧
    ∀ (y : Text) (m₂ : MaskExpr), Lexer.kinds y = .ok m₂.kinds → m₁.Denoted frames → m₂.Denoted frames →
      ((∃ r₁ r₂ r, parseWithin frames x = .ok r₁ ∧ parseWithin frames y = .ok r₂ ∧
        parseWithin frames (x ++ Lexer.comma :: y) = .ok r ∧ r == r₁ + r₂) ↔ (m₁.append m₂).LeakFree) := by
  refine ⟨parseWithin_eq_ok_iff h₁, parseWithin_nodes_iff h₁, fun y m₂ h₂ hd₁ hd₂ => ?_⟩
  obtain ⟨r₁, hr₁, hn₁⟩ := (parseWithin_nodes_iff h₁).mpr hd₁
  obtain ⟨r₂, hr₂, hn₂⟩ := (parseWithin_nodes_iff h₂).mpr hd₂
  have hboth r : r == r₁ + r₂ ↔ r.nodes = (m₁.append m₂).nodes := by
    rw [Mask.beq_iff_nodes, Mask.nodes_add, hn₁, hn₂, MaskExpr.nodes_append]
  have hdepth p (hp : p ∈ (m₁.append m₂).nodes) : p.length < frames := by
    rw [MaskExpr.nodes_append] at hp
    exact hp.elim (hd₁.depth p) (hd₂.depth p)
  have hiff : (∃ r, parseWithin frames _ = .ok r ∧ r.nodes = _) ↔ _ := parseWithin_nodes_iff <| kinds_comma h₁ h₂
  constructor
  · rintro ⟨_, _, r, h₁, h₂, hr, he⟩
    cases hr₁.symm.trans h₁
    cases hr₂.symm.trans h₂
    exact (hiff.mp ⟨r, hr, (hboth r).mp he⟩).leakFree
  · intro hl
    obtain ⟨r, hr, hn⟩ := hiff.mpr ⟨hl, hdepth⟩
    exact ⟨r₁, r₂, r, hr₁, hr₂, hr, (hboth r).mpr hn⟩

section Sharing

def keyA : FieldKey := .ofChars ['a']

def keyB : FieldKey := .ofChars ['b']

def keyC : FieldKey := .ofChars ['c']

def keyD : FieldKey := .ofChars ['d']

def sharingSource : Text :=
  .ofChars ['(', 'a', ',', 'b', ')', '.', 'c', ',', 'a', '.', 'c', '.', 'd']

def sharingExpr : MaskExpr :=
  .comma
    (.dot (.group <| .comma (.seg <| .step <| .key keyA) <| .term <| .seg <| .step <| .key keyB) <|
      .seg <| .step <| .key keyC)
    (.term <| .dot (.step <| .key keyA) <| .dot (.step <| .key keyC) <| .seg <| .step <| .key keyD)

theorem not_mem_nodes_sharingExpr : [.key keyB, .key keyC, .key keyD] ∉ sharingExpr.nodes := by
  rintro ⟨q, hq, hp⟩
  have hs {s : Step FieldKey} {p : MaskPath} : p ∈ ({[s]} : Language (Step FieldKey)) ↔ p = [s] := Iff.rfl
  simp only [sharingExpr, MaskExpr.denote, TermExpr.denote, SegExpr.denote, Language.mem_add,
    Language.mem_mul, hs] at hq
  rcases hq with ⟨_, rfl | rfl, _, rfl, rfl⟩ | ⟨_, rfl, _, ⟨_, rfl, _, rfl, rfl⟩, rfl⟩ <;>
    revert hp <;> decide

-- The objects of a.c and b.c are the same, so the last term also adds d to the latter.
theorem parse_shares_branches :
    Lexer.kinds sharingSource = .ok sharingExpr.kinds ∧
    ∃ r, parseWithin 1000 sharingSource = .ok r ∧
      [.key keyB, .key keyC, .key keyD] ∈ r.nodes ∧ r.nodes ≠ sharingExpr.nodes := by
  have hk : Lexer.kinds sharingSource = .ok sharingExpr.kinds := by decide +kernel
  have hd : (parseWithin 1000 sharingSource).toOption.any
      (fun r => (r.walk [.key keyB, .key keyC, .key keyD]).isSome) = true := by decide +kernel
  cases hr : parseWithin 1000 sharingSource
  case error => cases hr ▸ hd
  case ok r =>
    have hm : [.key keyB, .key keyC, .key keyD] ∈ r.nodes := by
      rw [hr] at hd
      exact hd
    exact ⟨hk, r, rfl, hm, fun h => not_mem_nodes_sharingExpr <| h ▸ hm⟩

theorem parse_denotes_iff_sharing :
    (∃ r, parseWithin 1000 sharingSource = .ok r ∧ r.nodes = sharingExpr.nodes) ↔ sharingExpr.Denoted 1000 :=
  (parse_denotes_iff 1000 sharingSource sharingExpr (by decide +kernel)).right.left

end Sharing
end Parser
