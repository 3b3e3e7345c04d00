import PysdkModel.FieldMask.Grammar
import PysdkModel.FieldMask.Theorems.Enter
import PysdkModel.FieldMask.Theorems.Heap

open TokenType

mutual

theorem MaskExpr.kinds_head : ∀ (m : MaskExpr), ∃ k ks, m.kinds = k :: ks ∧ k.1 ≠ .rbrace
  | .term t => t.kinds_head
  | .comma t m => by
    have ⟨k, ks, h, hk⟩ := t.kinds_head
    exact ⟨k, ks ++ commaKind :: m.kinds, by simp [MaskExpr.kinds, h], hk⟩

theorem TermExpr.kinds_head : ∀ (t : TermExpr), ∃ k ks, t.kinds = k :: ks ∧ k.1 ≠ .rbrace
  | .seg s => s.kinds_head
  | .dot s t => by
    have ⟨k, ks, h, hk⟩ := s.kinds_head
    exact ⟨k, ks ++ dotKind :: t.kinds, by simp [TermExpr.kinds, h], hk⟩

theorem SegExpr.kinds_head : ∀ (s : SegExpr), ∃ k ks, s.kinds = k :: ks ∧ k.1 ≠ .rbrace
  | .step s => ⟨s.kind, [], rfl, by cases s <;> simp [Step.kind]⟩
  | .unit => ⟨lbraceKind, [rbraceKind], rfl, by simp [lbraceKind]⟩
  | .group m => ⟨lbraceKind, m.kinds ++ [rbraceKind], rfl, by simp [lbraceKind]⟩

end

namespace Parser

variable {source : Text} {p p' p'' : Parser} {h h' h'' : MaskHeap FieldKey}
variable {es : List (Extension (Step FieldKey))} {I : Language (Step FieldKey)}

structure Built (h : MaskHeap FieldKey) (es : List (Extension (Step FieldKey))) : Prop where
  root_lt : root < h.length
  ascending : h.child?.Ascending h.length
  shared : h.child?.Represents root (Shared es)

def Grows (h h' : MaskHeap FieldKey) : Prop :=
  ∀ p v, h.child?.walk root p = some v → h'.child?.walk root p = some v

abbrev Reaches (h : MaskHeap FieldKey) (I : Language (Step FieldKey)) (refs : List Nat) : Prop :=
  h.child?.Reaches root I { a | a ∈ refs }

theorem Grows.refl : Grows h h :=
  fun _ _ => id

theorem Grows.trans (h₁ : Grows h h') (h₂ : Grows h' h'') : Grows h h'' :=
  fun p v hp => h₂ p v <| h₁ p v hp

theorem Grows.reaches {refs : List Nat} (hg : Grows h h') (hr : Reaches h I refs) : Reaches h' I refs where
  total i hi := have ⟨v, hv, hw⟩ := hr.total i hi; ⟨v, hv, hg _ _ hw⟩
  onto v hv := have ⟨i, hi, hw⟩ := hr.onto v hv; ⟨i, hi, hg _ _ hw⟩

theorem reaches_zero : Reaches h 0 [] where
  total _ hi := hi.elim
  onto _ hv := by simp at hv

theorem reaches_append {J : Language (Step FieldKey)} {refs refs' : List Nat} (h₁ : Reaches h I refs)
    (h₂ : Reaches h J refs') : Reaches h (I + J) (refs ++ refs') where
  total i hi := by
    rcases hi with hi | hi
    · have ⟨v, hv, hw⟩ := h₁.total i hi
      exact ⟨v, List.mem_append_left _ hv, hw⟩
    · have ⟨v, hv, hw⟩ := h₂.total i hi
      exact ⟨v, List.mem_append_right _ hv, hw⟩
  onto v hv := by
    rcases List.mem_append.mp hv with hv | hv
    · have ⟨i, hi, hw⟩ := h₁.onto v hv
      exact ⟨i, .inl hi, hw⟩
    · have ⟨i, hi, hw⟩ := h₂.onto v hv
      exact ⟨i, .inr hi, hw⟩

theorem built_init : Built init.heap [] where
  root_lt := by decide
  ascending := by
    have hn v s : init.heap.child? v s = none := by
      rw [show init.heap = MaskHeap.alloc [] from rfl, MaskHeap.child?_alloc]
      rfl
    constructor <;> simp [hn]
  shared q q' := by
    have hn v s : init.heap.child? v s = none := by
      rw [show init.heap = MaskHeap.alloc [] from rfl, MaskHeap.child?_alloc]
      rfl
    rw [Shared.nil_iff]
    cases q <;> cases q' <;> simp [Edges.walk, hn]

theorem reaches_init : Reaches init.heap 1 [root] where
  total i hi := ⟨root, by simp, by rw [(Language.mem_one i).mp hi]; rfl⟩
  onto v hv := ⟨[], by simp, by rw [List.mem_singleton.mp hv]; rfl⟩

theorem enter_extends {s : Step FieldKey} {l l' : Level} (he : l.enter h s = (l', h'))
    (hb : Built h es) (hI : Reaches h I l.active) : Built h' (es ++ [⟨I, s⟩]) ∧ Grows h h' ∧
    ∃ active, l' = { l with active } ∧ Reaches h' (I * {[s]}) active := by
  have ha a (ha : a ∈ l.active) : a < h.length := by
    have ⟨i, _, hi⟩ := hI.onto a ha
    exact hb.ascending.walk_lt hb.root_lt hi
  have ⟨hx, hn, hl, active, hl', hc⟩ := Level.enter_spec he hb.ascending ha
  have hg : Grows h h' := fun _ _ hp => hx.walk_mono hp
  refine ⟨?_, hg, active, hl', ?_⟩
  case refine_1 =>
    refine ⟨Nat.lt_of_lt_of_le hb.root_lt hl, hn, ?_⟩
    rw [Shared.concat_eq]
    exact hb.shared.extends hx hb.ascending hb.root_lt hI
  case refine_2 =>
    constructor
    case total =>
      intro i hi
      obtain ⟨i, hi', _, rfl, rfl⟩ := Language.mem_mul.mp hi
      have ⟨a, ha, hw⟩ := hI.total i hi'
      have ⟨c, hac⟩ : ∃ c, h'.child? a s = some c := by
        cases hs : h.child? a s
        case none => exact ⟨_, (hx a s).left ⟨ha, rfl, hs⟩⟩
        case some c => exact ⟨c, hx.mono hs⟩
      exact ⟨c, (hc c).mpr ⟨a, ha, hac⟩, by rw [Edges.walk_concat, hg _ _ hw, Option.bind_some, hac]⟩
    case onto =>
      intro c hm
      have ⟨a, ha, hac⟩ := (hc c).mp hm
      have ⟨i, hi, hw⟩ := hI.onto a ha
      refine ⟨i ++ [s], Language.mem_mul.mpr ⟨i, hi, [s], rfl, rfl⟩, ?_⟩
      rw [Edges.walk_concat, hg _ _ hw, Option.bind_some, hac]

section Run

variable {toks toks' : List Token} {tok : Token}

theorem step_entry {s : Step FieldKey} (hp : p.state = .key) (ht : tok.kind = s.kind) :
    p.step source tok = .ok ⟨(p.lvl.enter p.heap s).2, (p.lvl.enter p.heap s).1, p.prev, .separator⟩ := by
  have ⟨htype, hvalue⟩ := Prod.mk.inj ht
  cases s <;>
    simp only at htype hvalue <;>
    simp [step, stepKey, hp, htype, hvalue, Level.addKey, Level.addAny]

theorem step_lbrace (hp : p.state = .key) (ht : tok.kind = lbraceKind) :
    p.step source tok = .ok ⟨p.heap, p.lvl.pushLevel tok.pos, p.lvl :: p.prev, .levelStart⟩ := by
  have ⟨htype, _⟩ := Prod.mk.inj ht
  simp [step, stepKey, hp, htype]

theorem step_rbrace {lvl : Level} {prev : List Level} (hp : p.state ≠ .key) (hl : p.prev = lvl :: prev)
    (ht : tok.kind = rbraceKind) : p.step source tok = .ok ⟨p.heap, p.lvl.popLevel lvl, prev, .separator⟩ := by
  have ⟨htype, _⟩ := Prod.mk.inj ht
  cases hs : p.state <;> simp_all [step, stepSeparator]

theorem step_dot (hp : p.state = .separator) (ht : tok.kind = dotKind) :
    p.step source tok = .ok { p with state := .key } := by
  have ⟨htype, _⟩ := Prod.mk.inj ht
  simp [step, stepSeparator, hp, htype]

theorem step_comma (hp : p.state = .separator) (ht : tok.kind = commaKind) :
    p.step source tok = .ok { p with lvl := p.lvl.newMask, state := .key } := by
  have ⟨htype, _⟩ := Prod.mk.inj ht
  simp [step, stepSeparator, hp, htype]

theorem run_nil : p.run source [] = .ok p :=
  rfl

theorem run_append (h₁ : p.run source toks = .ok p') (h₂ : p'.run source toks' = .ok p'') :
    p.run source (toks ++ toks') = .ok p'' := by
  simp only [run] at h₁ h₂
  rw [run, List.foldlM_append, h₁]
  exact h₂

theorem run_cons (h₁ : p.step source tok = .ok p') : p.run source (tok :: toks) = p'.run source toks := by
  simp only [run, List.foldlM_cons, h₁]
  rfl

theorem run_levelStart {m : MaskExpr} (hs : p.state = .levelStart) (hk : toks.map Token.kind = m.kinds) :
    p.run source toks = { p with state := .key : Parser }.run source toks := by
  have ⟨k, ks, hm, hne⟩ := m.kinds_head
  obtain ⟨tok, toks, rfl, rfl, -⟩ := List.map_eq_cons_iff.mp <| hk.trans hm
  have : p.step source tok = { p with state := .key : Parser }.step source tok := by
    simp only [step, hs]
    exact if_neg hne
  simp only [run, List.foldlM_cons, this]

end Run

structure Read (p p' : Parser) (es ext : List (Extension (Step FieldKey))) : Prop where
  state : p'.state = .separator
  prev : p'.prev = p.prev
  grows : Grows p.heap p'.heap
  built : Built p'.heap (es ++ ext)

theorem Read.trans {ext ext' : List (Extension (Step FieldKey))} (h₁ : Read p p' es ext)
    (h₂ : Read p' p'' (es ++ ext) ext') : Read p p'' es (ext ++ ext') where
  state := h₂.state
  prev := h₂.prev.trans h₁.prev
  grows := h₁.grows.trans h₂.grows
  built := List.append_assoc .. ▸ h₂.built

end Parser

open Parser

section

variable {source : Text} {p : Parser} {es : List (Extension (Step FieldKey))}
variable {I : Language (Step FieldKey)} {toks : List Token}

def ReadActive (source : Text) (p : Parser) (toks : List Token) (es ext : List (Extension (Step FieldKey)))
    (J : Language (Step FieldKey)) : Prop :=
  ∃ p' active, p.run source toks = .ok p' ∧ Read p p' es ext ∧ p'.lvl = { p.lvl with active } ∧
    Reaches p'.heap J active

theorem SegExpr.run_step {s : Step FieldKey} (hk : toks.map Token.kind = (SegExpr.step s).kinds)
    (hp : p.state = .key) (hb : Built p.heap es) (hI : Reaches p.heap I p.lvl.active) :
    ReadActive source p toks es ((SegExpr.step s).extensions I) (I * (SegExpr.step s).denote) := by
  obtain ⟨tok, rfl, ht⟩ := List.map_eq_singleton_iff.mp hk
  have ⟨hx, hg, active, hl, hr⟩ := enter_extends (Prod.mk.eta (p := p.lvl.enter p.heap s)).symm hb hI
  exact ⟨_, active, run_cons (step_entry hp ht), ⟨rfl, rfl, hg, hx⟩, hl, hr⟩

theorem SegExpr.run_unit (hk : toks.map Token.kind = SegExpr.unit.kinds) (hp : p.state = .key)
    (hb : Built p.heap es) (hI : Reaches p.heap I p.lvl.active) :
    ReadActive source p toks es (SegExpr.unit.extensions I) (I * SegExpr.unit.denote) := by
  obtain ⟨t₁, toks, rfl, h₁, hk⟩ := List.map_eq_cons_iff.mp hk
  obtain ⟨t₂, rfl, h₂⟩ := List.map_eq_singleton_iff.mp hk
  refine ⟨{ p with state := .separator }, p.lvl.active, ?_, ⟨rfl, rfl, .refl, ?_⟩, rfl, ?_⟩
  · rw [run_cons (step_lbrace hp h₁)]
    exact run_cons (step_rbrace (by simp) rfl h₂)
  · simpa [SegExpr.extensions] using hb
  · simpa [SegExpr.denote] using hI

mutual

theorem MaskExpr.run_kinds (m : MaskExpr) {p : Parser} {es : List (Extension (Step FieldKey))}
    {I E : Language (Step FieldKey)} {toks : List Token} (hk : toks.map Token.kind = m.kinds)
    (hp : p.state = .key) (hb : Built p.heap es) (hI : Reaches p.heap I p.lvl.active)
    (hS : Reaches p.heap I p.lvl.starts) (hE : Reaches p.heap E p.lvl.ends) :
    ∃ p' ends active, p.run source toks = .ok p' ∧ Read p p' es (m.extensions I) ∧
      p'.lvl = { p.lvl with ends, active } ∧ Reaches p'.heap (E + I * m.denote) (ends ++ active) := by
  match m with
  | .term t =>
    have ⟨p', active, hr, hrd, hl, ha⟩ := t.run_kinds hk hp hb hI
    exact ⟨p', p.lvl.ends, active, hr, hrd, hl, reaches_append (hrd.grows.reaches hE) ha⟩
  | .comma t m =>
    obtain ⟨toks₁, toks', rfl, hk₁, hk⟩ := List.map_eq_append_iff.mp hk
    obtain ⟨tok, toks₂, rfl, ht, hk₂⟩ := List.map_eq_cons_iff.mp hk
    have ⟨p₁, active₁, hr₁, hrd₁, hl₁, ha₁⟩ := t.run_kinds hk₁ hp hb hI
    have hS₁ : Reaches p₁.heap I p₁.lvl.starts := by rw [hl₁]; exact hrd₁.grows.reaches hS
    have hE₁ : Reaches p₁.heap (E + I * t.denote) (p₁.lvl.ends ++ p₁.lvl.active) := by
      rw [hl₁]
      exact reaches_append (hrd₁.grows.reaches hE) ha₁
    have ⟨p₂, ends, active, hr₂, hrd₂, hl₂, ha₂⟩ :=
      m.run_kinds (p := { p₁ with lvl := p₁.lvl.newMask, state := .key }) hk₂ rfl hrd₁.built hS₁ hS₁ hE₁
    refine ⟨p₂, ends, active, ?_, ?_, ?_, ?_⟩
    · exact run_append hr₁ <| (run_cons <| step_comma hrd₁.state ht).trans hr₂
    · exact hrd₁.trans ⟨hrd₂.state, hrd₂.prev, hrd₂.grows, hrd₂.built⟩
    · rw [hl₂, Level.newMask, hl₁]
    · rw [MaskExpr.denote, mul_add, ← add_assoc]
      exact ha₂

theorem TermExpr.run_kinds (t : TermExpr) {p : Parser} {es : List (Extension (Step FieldKey))}
    {I : Language (Step FieldKey)} {toks : List Token} (hk : toks.map Token.kind = t.kinds)
    (hp : p.state = .key) (hb : Built p.heap es) (hI : Reaches p.heap I p.lvl.active) :
    ReadActive source p toks es (t.extensions I) (I * t.denote) := by
  match t with
  | .seg s => exact s.run_kinds hk hp hb hI
  | .dot s t =>
    obtain ⟨toks₁, toks', rfl, hk₁, hk⟩ := List.map_eq_append_iff.mp hk
    obtain ⟨tok, toks₂, rfl, ht, hk₂⟩ := List.map_eq_cons_iff.mp hk
    have ⟨p₁, active₁, hr₁, hrd₁, hl₁, ha₁⟩ := s.run_kinds hk₁ hp hb hI
    have ⟨p₂, active₂, hr₂, hrd₂, hl₂, ha₂⟩ :=
      t.run_kinds (p := { p₁ with state := .key }) (I := I * s.denote) hk₂ rfl hrd₁.built
        (by rw [hl₁]; exact ha₁)
    refine ⟨p₂, active₂, ?_, ?_, ?_, ?_⟩
    · exact run_append hr₁ <| (run_cons <| step_dot hrd₁.state ht).trans hr₂
    · exact hrd₁.trans ⟨hrd₂.state, hrd₂.prev, hrd₂.grows, hrd₂.built⟩
    · rw [hl₂, hl₁]
    · rw [TermExpr.denote, ← mul_assoc]
      exact ha₂

theorem SegExpr.run_kinds (s : SegExpr) {p : Parser} {es : List (Extension (Step FieldKey))}
    {I : Language (Step FieldKey)} {toks : List Token} (hk : toks.map Token.kind = s.kinds)
    (hp : p.state = .key) (hb : Built p.heap es) (hI : Reaches p.heap I p.lvl.active) :
    ReadActive source p toks es (s.extensions I) (I * s.denote) := by
  match s with
  | .step s => exact SegExpr.run_step hk hp hb hI
  | .unit => exact SegExpr.run_unit hk hp hb hI
  | .group m =>
    obtain ⟨t₁, toks, rfl, h₁, hk⟩ := List.map_eq_cons_iff.mp hk
    obtain ⟨toks₁, toks₂, rfl, hk₁, hk⟩ := List.map_eq_append_iff.mp hk
    obtain ⟨t₂, rfl, h₂⟩ := List.map_eq_singleton_iff.mp hk
    let p₁ : Parser := ⟨p.heap, p.lvl.pushLevel t₁.pos, p.lvl :: p.prev, .levelStart⟩
    have ⟨p₂, ends, active, hr₂, hrd₂, hl₂, ha₂⟩ :=
      m.run_kinds (p := { p₁ with state := .key }) hk₁ rfl hb hI hI reaches_zero
    rw [← run_levelStart (p := p₁) rfl hk₁] at hr₂
    refine ⟨⟨p₂.heap, p₂.lvl.popLevel p.lvl, p.prev, .separator⟩, ends ++ active, ?_, ?_, ?_, ?_⟩
    · rw [run_cons (step_lbrace hp h₁)]
      refine run_append hr₂ <| run_cons <| step_rbrace ?_ hrd₂.prev h₂
      simp [hrd₂.state]
    · exact ⟨rfl, rfl, hrd₂.grows, hrd₂.built⟩
    · rw [Level.popLevel, hl₂]
    · rwa [zero_add] at ha₂

end

end
