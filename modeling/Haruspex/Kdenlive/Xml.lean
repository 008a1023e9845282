import Haruspex.Library.Splicing

/-! An index over a project's text (`video/kdenlive/xml.rs`). What the XML reader finds, and where, is its own; an
entity in a text is resolved by the reader. -/
namespace Haruspex.Kdenlive.Xml
open Splicing
set_option autoImplicit false

/-! ## Reading a project -/

/-- What the reader finds next; `start` stands for `Start` and `Empty`. -/
inductive Event where
  | start (name : String) (attrs : Except String (List (String × String)))
  | close
  | text (text : String)
  | other

/-- What is read, one after the other, each with where it ends, up to the end of the file or to what cannot be read. -/
abbrev Reading := List (Except String Event × ℕ)

/-- `span` goes from `start` to `stop`. -/
structure Node where
  name : String
  attrs : List (String × String)
  start : ℕ
  stop : ℕ
  innerStart : ℕ
  innerEnd : ℕ
  children : List ℕ
  text : String
deriving DecidableEq

namespace Node

variable (n : Node)

def attr (name : String) : Option String := (n.attrs.find? fun kv => kv.1 == name).map Prod.snd

def selfClosing : Bool := n.innerStart == n.stop

end Node

structure Tree where
  nodes : List Node
  root : ℕ

/-- `stack` holds the open elements, the innermost first. -/
structure Parsing where
  nodes : List Node
  stack : List ℕ
  root : Option ℕ

/-- `ends_with(b"/>")` -/
def selfCloses (text : List UInt8) : Bool := [0x2f, 0x3e].isSuffixOf text

namespace Parsing

def addText (p : Parsing) (text : String) : Parsing :=
  match p.stack with
  | [] => p
  | id :: _ => { p with nodes := p.nodes.modify id fun n => { n with text := n.text ++ text } }

/-- A start tag: the innermost open element gets a child. -/
def openTag (p : Parsing) (name : String) (attrs : List (String × String)) (closing : Bool) (before after : ℕ) : Parsing :=
  let id := p.nodes.length
  let nodes := p.nodes ++ [⟨name, attrs, before, after, after, after, [], ""⟩]
  { nodes :=
      match p.stack with
      | parent :: _ => nodes.modify parent fun n => { n with children := n.children ++ [id] }
      | [] => nodes
    stack := if closing then p.stack else id :: p.stack
    root :=
      match p.stack with
      | _ :: _ => p.root
      | [] => p.root.or (some id) }

def read (p : Parsing) (text : List UInt8) (before after : ℕ) : Event → Except String Parsing
  | .start name attrs =>
    match attrs with
    | .error err => .error s!"bad attribute: {err}"
    | .ok attrs => .ok (p.openTag name attrs (selfCloses (text.take after)) before after)
  | .close =>
    match p.stack with
    | [] => .error "unbalanced end tag"
    | id :: stack =>
      .ok { p with nodes := p.nodes.modify id fun n => { n with innerEnd := before, stop := after }, stack := stack }
  | .text more => .ok (p.addText more)
  | .other => .ok p

def loop (text : List UInt8) : Parsing → ℕ → Reading → Except String Parsing
  | p, _, [] => .ok p
  | _, _, (.error e, _) :: _ => .error s!"not a readable Kdenlive project: {e}"
  | p, before, (.ok event, after) :: rest => (p.read text before after event).bind fun p => loop text p after rest

end Parsing

namespace Tree

def parse (reader : List UInt8 → Reading) (text : List UInt8) : Except String Tree :=
  (Parsing.loop text ⟨[], [], none⟩ 0 (reader text)).bind fun p =>
    if p.stack ≠ [] then .error "the project ends before its last element closes"
    else
      match p.root with
      | none => .error "the project is empty"
      | some root => .ok ⟨p.nodes, root⟩

variable (tree : Tree)

def childrenNamed (id : ℕ) (name : String) : List ℕ :=
  match tree.nodes[id]? with
  | none => []
  | some n => n.children.filter fun c => (tree.nodes[c]?).any fun child => child.name == name

def propertyNode (id : ℕ) (name : String) : Option ℕ :=
  (tree.childrenNamed id "property").find? fun p => (tree.nodes[p]?).any fun child => child.attr "name" == some name

def byId (id : String) : Option ℕ :=
  ((tree.nodes[tree.root]?).map Node.children).bind fun children =>
    children.find? fun c => (tree.nodes[c]?).any fun child => child.attr "id" == some id

end Tree

/-! ## Editing its text -/

namespace Splices

/-- `sort_by_key` is stable. -/
def sorted (edits : List (Edit UInt8)) : List (Edit UInt8) := edits.insertionSort Before

/-- `edits.windows(2)` -/
def overlapping : List (Edit UInt8) → Bool
  | a :: b :: rest => decide (b.start < a.stop) || overlapping (b :: rest)
  | _ => false

/-- `&text[from..to]`, which panics outside the text. -/
def slice (text : List UInt8) (since until_ : ℕ) : Option (List UInt8) :=
  if since ≤ until_ ∧ until_ ≤ text.length then some ((text.drop since).take (until_ - since)) else none

def copy (text : List UInt8) : ℕ → List (Edit UInt8) → Option (List UInt8)
  | since, [] => slice text since text.length
  | since, e :: edits =>
    (slice text since e.start).bind fun before => (copy text e.stop edits).map fun rest => before ++ e.text ++ rest

/-- `none` for a panic. -/
def apply (edits : List (Edit UInt8)) (text : List UInt8) : Option (Except String (List UInt8)) :=
  if overlapping (sorted edits) then some (.error "internal error: overlapping project edits")
  else (copy text 0 (sorted edits)).map .ok

end Splices

end Haruspex.Kdenlive.Xml
