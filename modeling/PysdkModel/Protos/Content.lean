import PysdkModel.Protos.Message

-- What can be observed of messages, without the containers and children that they store but that nobody
-- has written to, and the merging of what is observed.

namespace Protos

def Scalar.isFloat : Scalar → Bool
  | .float _ => true
  | .double _ => true
  | _ => false

def Field.Floatless (f : Field) : Prop :=
  f.codec ≠ .float ∧ f.codec ≠ .double ∧ !f.default.isFloat

def Schema.Floatless (S : Schema) : Prop :=
  ∀ ⦃c k f⦄, (S c).member? k = some f → f.Floatless

inductive Observation (μ : Type)
  | absent
  | singular (v : Value μ)
  | repeated (vs : List (Value μ))
  | map (g : Scalar → Option (Value μ))

-- What can be observed of a message whose nested messages are observed as values of `μ`.
@[ext]
structure Node (μ : Type) where
  cls : ClassId
  members : Key → Observation μ
  oneofs : Text → Option Nat
  unknownFields : List Bytes

def Content : Nat → Type
  | 0 => Unit
  | n + 1 => Node (Content n)

namespace Message

section

variable {μ : Type} (observe : Message → μ) (m : Message)

-- A field without presence has its default value if nothing is stored.
def observation (k : Key) (f : Field) : Observation μ :=
  match f.mapKeyCodec with
  | some _ => .map fun key => ((m.mapItems k).get? key).map (Value.map observe)
  | none =>
    if f.repeated then
      .repeated ((m.repeatedItems k).map (Value.map observe))
    else if f.hasPresence then
      match m.present k, m.values k with
      | true, some (.singular v) => .singular (v.map observe)
      | _, _ => .absent
    else
      match m.values k with
      | some (.singular v) => .singular (v.map observe)
      | _ => .singular (.scalar f.default)

def node (S : Schema) : Node μ where
  cls := m.cls
  members k := ((S m.cls).member? k).elim .absent (m.observation observe k)
  oneofs := m.oneofs
  unknownFields := m.unknownFields

end

def content (S : Schema) : (n : Nat) → Message → Content n
  | 0, _ => ()
  | n + 1, m => m.node (content S n) S

def SameContent (S : Schema) (m m' : Message) : Prop :=
  ∀ n, m.content S n = m'.content S n

end Message

namespace Observation

variable {μ : Type} (combine : μ → μ → μ)

-- Values of fields without presence are replaced unless the new value is the default.
def merge (f : Field) : Observation μ → Observation μ → Observation μ
  | .map g, .map h => .map fun key => (h key).or (g key)
  | .repeated vs, .repeated ws => .repeated (vs ++ ws)
  | .singular (.message m), .singular (.message m') => .singular (.message (combine m m'))
  | a, .singular (.scalar s) =>
    if !f.hasPresence && s.eq f.default then a else .singular (.scalar s)
  | a, .absent => a
  | _, b => b

end Observation

def Field.isSingular (f : Field) : Bool :=
  f.mapKeyCodec.isNone && !f.repeated

-- The oneof of `f` has selected another member, which is `k`.
def Deselects (oneofs : Text → Option Nat) (f : Field) (k : Key) : Prop :=
  ∃ o number, f.oneof = some o ∧ oneofs o = some number ∧ k = .field number ∧ number ≠ f.number

namespace Node

variable {μ : Type} (c : MessageClass) (combine : μ → μ → μ)

def update (n : Node μ) (k : Key) (o : Observation μ) : Node μ :=
  { n with members := Function.update n.members k o }

open Classical in
noncomputable def select (n : Node μ) (f : Field) : Node μ where
  cls := n.cls
  members k := if Deselects n.oneofs f k then .absent else n.members k
  oneofs o := if f.oneof = some o then some f.number else n.oneofs o
  unknownFields := n.unknownFields

theorem members_update {n : Node μ} {k k' : Key} {o : Observation μ} :
    (n.update k o).members k' = if k' = k then o else n.members k' :=
  Function.update_apply ..

theorem members_select_of_deselects {n : Node μ} {f : Field} {k : Key} (h : Deselects n.oneofs f k) :
    (n.select f).members k = .absent :=
  if_pos h

theorem members_select_of_not_deselects {n : Node μ} {f : Field} {k : Key}
    (h : ¬Deselects n.oneofs f k) : (n.select f).members k = n.members k :=
  if_neg h

-- A singular field of whose oneof `b` has selected another member in `L`.
def Cleared (L : Set Key) (b : Node μ) (f : Field) : Prop :=
  f.isSingular ∧ ∃ k ∈ L, Deselects b.oneofs f k

open Classical in
-- The node `b` merged into `a`, as far as the members in `L` are concerned.
noncomputable def mergeOn (L : Set Key) (a b : Node μ) : Node μ where
  cls := a.cls
  members k := (c.member? k).elim .absent fun f =>
    if Cleared L b f then
      .absent
    else if k ∈ L then
      (a.members k).merge combine f (b.members k)
    else
      a.members k
  oneofs o := if ∃ number, b.oneofs o = some number ∧ .field number ∈ L then b.oneofs o else a.oneofs o
  unknownFields := a.unknownFields

noncomputable def merge (a b : Node μ) : Node μ :=
  { mergeOn c combine Set.univ a b with unknownFields := a.unknownFields ++ b.unknownFields }

end Node

noncomputable def Content.merge (S : Schema) : (n : Nat) → Content n → Content n → Content n
  | 0, _, _ => ()
  | n + 1, a, b => Node.merge (S a.cls) (Content.merge S n) a b

end Protos
