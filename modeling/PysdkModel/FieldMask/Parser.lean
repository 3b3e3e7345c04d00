import PysdkModel.FieldMask.Heap
import PysdkModel.FieldMask.Lexer

-- The parser extends a graph of mask objects in place. It follows all branches of the current level
-- at once, by a list of references to the objects that they have reached.
structure Level where
  starts : List Nat
  ends : List Nat
  active : List Nat
  pos : Nat

namespace Level

-- The state of the loop in `add_key` and `add_any`: the heap, the new mask and the new active masks.
abbrev Loop := MaskHeap FieldKey × Option Nat × List Nat

-- The body of the loop for one active mask. The new mask is created once, for the first active mask
-- without the branch, and becomes the branch of all of them.
def enterBody (s : Step FieldKey) : Loop → Nat → Loop
  | (h, mask, newActive), a =>
    match h.child? a s with
    | some c => (h, mask, newActive ++ [c])
    | none =>
      match mask with
      | some m => (h.setChild a s m, some m, newActive)
      | none => (h.alloc.setChild a s h.length, some h.length, newActive ++ [h.length])

def enter (l : Level) (h : MaskHeap FieldKey) (s : Step FieldKey) : Level × MaskHeap FieldKey :=
  let (h, _, newActive) := l.active.foldl (enterBody s) (h, none, [])
  ({ l with active := newActive }, h)

def addKey (l : Level) (h : MaskHeap FieldKey) (k : FieldKey) : Level × MaskHeap FieldKey :=
  l.enter h (.key k)

def addAny (l : Level) (h : MaskHeap FieldKey) : Level × MaskHeap FieldKey :=
  l.enter h .any

def newMask (l : Level) : Level :=
  { l with ends := l.ends ++ l.active, active := l.starts }

-- The source creates the new level with a root mask of its own, which is dropped right away.
def pushLevel (l : Level) (pos : Nat) : Level where
  starts := l.active
  ends := []
  active := l.active
  pos := pos

def popLevel (l prev : Level) : Level :=
  { prev with active := l.ends ++ l.active }

end Level

inductive State
  | key
  | separator
  | levelStart
  deriving DecidableEq

-- The heap, the current level with the levels around it, innermost first, and the state of the state
-- machine.
structure Parser where
  heap : MaskHeap FieldKey
  lvl : Level
  prev : List Level
  state : State

namespace Parser

def root : Nat := 0

def init : Parser where
  heap := [∅]
  lvl := { starts := [root], ends := [], active := [root], pos := 0 }
  prev := []
  state := .key

def unexpected (source : Text) (tok : Token) (expecting : String) : ParseError :=
  .contexted source tok.pos <|
    .ofChars "unexpected token ".toList ++ tok.repr ++ .ofChars s!", expecting {expecting}".toList

def stepKey (source : Text) (p : Parser) (tok : Token) : Except ParseError Parser :=
  match tok.type with
  | .plainKey =>
    let (lvl, heap) := p.lvl.addKey p.heap tok.value
    .ok { p with heap, lvl, state := .separator }
  | .wildCard =>
    let (lvl, heap) := p.lvl.addAny p.heap
    .ok { p with heap, lvl, state := .separator }
  | .lbrace => .ok { p with lvl := p.lvl.pushLevel tok.pos, prev := p.lvl :: p.prev, state := .levelStart }
  | _       => .error <| unexpected source tok "field or submask"

def stepSeparator (source : Text) (p : Parser) (tok : Token) : Except ParseError Parser :=
  match tok.type with
  | .dot => .ok { p with state := .key }
  | .comma => .ok { p with lvl := p.lvl.newMask, state := .key }
  | .rbrace =>
    match p.prev with
    | []          => .error <| .contexted source tok.pos <| .ofChars "unmatched right brace".toList
    | lvl :: prev => .ok { p with lvl := p.lvl.popLevel lvl, prev, state := .separator }
  | _       => .error <| unexpected source tok "separator or closing brace"

-- The iterations of the loop for one token. At the start of a level the first iteration only chooses
-- the state in which the second one reads the token.
def step (source : Text) (p : Parser) (tok : Token) : Except ParseError Parser :=
  match p.state with
  | .levelStart => if tok.type = .rbrace then p.stepSeparator source tok else p.stepKey source tok
  | .key => p.stepKey source tok
  | .separator => p.stepSeparator source tok

def run (source : Text) (p : Parser) (toks : List Token) : Except ParseError Parser :=
  toks.foldlM (step source) p

-- What a call of `parse` raises. The copy at its end is recursive, so the interpreter may run out of
-- frames for a mask of many levels.
inductive Failure
  | parseError (e : ParseError)
  | recursionError

-- `parse` where the interpreter has the given number of frames left for the nested calls of `copy`.
def parseWithin (frames : Nat) (source : Text) : Except Failure (Mask FieldKey) :=
  if (source.dropWhile Lexer.isSpace).isEmpty then
    .ok ∅
  else
    match (Lexer.init source).tokens.bind (init.run source) with
    | .error e => .error <| .parseError e
    | .ok p =>
      if p.prev ≠ [] then
        .error <| .parseError <| .contexted source p.lvl.pos <| .ofChars "unclosed left brace".toList
      else if p.state ≠ .separator then
        .error <| .parseError <| .plain <| .ofChars "unexpected end of mask".toList
      else
        match p.heap.copy frames root with
        | some m => .ok m
        | none => .error .recursionError

end Parser
