import AnyFlow.Tree.Basic

namespace AnyFlow

/-- Nodes are numbered in the order in which they are added, and get the position that was set
last. -/
structure Builder where
  tree : Tree
  line : Nat
  column : Nat
deriving Inhabited

structure UnknownParent where
  parent : Nat
deriving DecidableEq

def UnknownParent.message (e : UnknownParent) : String := "unknown parent node " ++ e.parent.repr

namespace Builder

def new (file : String) : Builder := ⟨⟨file, [], #[]⟩, 1, 1⟩

def nextId (b : Builder) : Nat := b.tree.size

def atPosition (b : Builder) (line column : Nat) : Builder :=
  { b with line := line, column := column }

def newNode (b : Builder) (parent : Option Nat) (role : Option Role) (kind : Kind) : Node where
  id := b.nextId
  parent := parent
  kind := kind
  role := role
  value := .null
  children := []
  location := ⟨b.tree.file, b.line, b.column, Span.zero⟩

def mapNodes (f : Array Node → Array Node) : Builder → Builder
  | ⟨⟨file, roots, nodes⟩, line, column⟩ => ⟨⟨file, roots, f nodes⟩, line, column⟩

def root (b : Builder) (kind : Kind) : Builder :=
  let tree := { b.tree with
    roots := b.tree.roots ++ [b.nextId]
    nodes := b.tree.nodes.push (b.newNode none none kind) }
  { b with tree := tree }

def addChild (b : Builder) (parent : Nat) (role : Role) (kind : Kind) : Builder :=
  let id := b.nextId
  let node := b.newNode (some parent) (some role) kind
  b.mapNodes fun nodes ↦
    (nodes.modify parent fun n ↦ { n with children := n.children ++ [id] }).push node

def child (b : Builder) (parent : Nat) (role : Role) (kind : Kind) :
    Except UnknownParent Builder :=
  if parent < b.tree.size then .ok (b.addChild parent role kind) else .error ⟨parent⟩

def setValue (b : Builder) (id : Nat) (value : Json.Value) : Builder :=
  b.mapNodes (·.modify id fun n ↦ { n with value := value })

def setSpan (b : Builder) (id : Nat) (span : Span) : Builder :=
  b.mapNodes (·.modify id fun n ↦ { n with location := { n.location with span := span } })

end Builder

inductive BuildStep
  | position (line column : Nat)
  | root (kind : Kind)
  | child (parent : Nat) (role : Role) (kind : Kind)
  | value (id : Nat) (value : Json.Value)
  | span (id : Nat) (span : Span)

namespace Builder

def outcome (b : Builder) : BuildStep → Except UnknownParent (Option Nat)
  | .root _ => .ok (some b.nextId)
  | .child parent _ _ => if parent < b.tree.size then .ok (some b.nextId) else .error ⟨parent⟩
  | _ => .ok none

/-- The builder after a step. A step that fails leaves it as it is. -/
def perform (b : Builder) : BuildStep → Builder
  | .position line column => b.atPosition line column
  | .root kind => b.root kind
  | .child parent role kind => if parent < b.tree.size then b.addChild parent role kind else b
  | .value id value => b.setValue id value
  | .span id span => b.setSpan id span

def performAll (b : Builder) (steps : List BuildStep) : Builder := steps.foldl perform b

end Builder

end AnyFlow
