import AnyFlow.Tree.Walk

namespace AnyFlow.Tree

def isPatternLink (child parent : Node) : Bool :=
  match parent.kind, child.role with
  | .property, some .value
  | .objectPattern, some .properties
  | .arrayPattern, some .elements
  | .assignmentPattern, some .left
  | .restElement, some .argument => true
  | _, _ => false

variable (t : Tree)

/-- The links from a node up to its root, each with its child first. -/
def linksAbove (n : Node) : List (Node × Node) :=
  let above := t.ancestors n.id
  (n :: above).zip above

def patternExit? (n : Node) : Option (Node × Node) :=
  (t.linksAbove n).find? fun l ↦ !isPatternLink l.1 l.2

/-- The initialised declarator whose pattern binds an identifier. An identifier that is declared
by itself is in no pattern. -/
def destructuringDeclarator? (leaf : Node) : Option Node :=
  if leaf.kind ≠ .identifier then none
  else match t.patternExit? leaf with
    | none => none
    | some (child, parent) =>
      if parent.kind = .variableDeclarator ∧ child.role = some .id ∧ child.id ≠ leaf.id ∧
          (t.childIn? parent.id .init).isSome then some parent
      else none

end AnyFlow.Tree
