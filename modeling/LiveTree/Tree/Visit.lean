import LiveTree.Tree.Forest

/-! Visiting a subtree: parents before children, children before parents, or level by level. A
visitor gets each wrapper with its path from where the visit started, carries something along, and
can stop the visit. It may change the tree, so what is below a node is looked up after the node's
own visit. -/

namespace LiveTree

/-- What is done at each wrapper of a visit. -/
abbrev Visitor (σ β : Type) : Type := β → WrapperRef → Path → TreeM σ (ForInStep β)

namespace TreeM

variable {σ β : Type}

/-- How deep a visit may go that deepens the tree itself, beyond the nodes there are. -/
def visitMargin : Nat := 1000

/-- How deep a visit of a tree goes at most. -/
def visitDepth : TreeM σ Nat := do return (← forest).store.nodes.size + visitMargin

/-- The keys of a wrapper's children. -/
def childKeys (w : WrapperRef) : TreeM σ (List String) := do
  return ((← forest).nodeAt w).children.keys

/-- Goes into the children under some keys, as far as they are there, until one visit stops. -/
def intoChildren (go : Visitor σ β) (w : WrapperRef) (path : Path) :
    List String → β → TreeM σ (ForInStep β)
  | [], b => return .yield b
  | key :: rest, b => do
    match ← updateForest (·.child w key) with
    | none => intoChildren go w path rest b
    | some c =>
      match ← go b c (path ++ [key]) with
      | .yield b => intoChildren go w path rest b
      | .done b => return .done b

/-- Visits parents before children, to a given depth. -/
def preOrderTo (visit : Visitor σ β) : Nat → Visitor σ β
  | 0, _, _, _ => throw .endless
  | n + 1, b, w, path => do
    match ← visit b w path with
    | .yield b => intoChildren (preOrderTo visit n) w path (← childKeys w) b
    | .done b => return .done b

/-- Visits parents before children. -/
def preOrder (w : WrapperRef) (b : β) (visit : Visitor σ β) : TreeM σ β := do
  return (← preOrderTo visit (← visitDepth) b w []).value

/-- Visits children before parents, to a given depth. -/
def postOrderTo (visit : Visitor σ β) : Nat → Visitor σ β
  | 0, _, _, _ => throw .endless
  | n + 1, b, w, path => do
    match ← intoChildren (postOrderTo visit n) w path (← childKeys w) b with
    | .yield b => visit b w path
    | .done b => return .done b

/-- Visits children before parents. -/
def postOrder (w : WrapperRef) (b : β) (visit : Visitor σ β) : TreeM σ β := do
  return (← postOrderTo visit (← visitDepth) b w []).value

/-- The wrappers under some keys with their paths. -/
def childrenWithPaths (w : WrapperRef) (path : Path) :
    List String → TreeM σ (List (WrapperRef × Path))
  | [] => return []
  | key :: rest => do
    match ← updateForest (·.child w key) with
    | none => childrenWithPaths w path rest
    | some c => do return (c, path ++ [key]) :: (← childrenWithPaths w path rest)

/-- Visits the wrappers of one level in order and gathers those of the next. -/
def visitLevel (visit : Visitor σ β) (next : List (WrapperRef × Path)) :
    List (WrapperRef × Path) → β → TreeM σ (ForInStep β × List (WrapperRef × Path))
  | [], b => return (.yield b, next)
  | (w, path) :: rest, b => do
    match ← visit b w path with
    | .yield b => do
      let below ← childrenWithPaths w path (← childKeys w)
      visitLevel visit (next ++ below) rest b
    | .done b => return (.done b, next)

/-- Visits level by level, so many levels. -/
def levelOrderTo (visit : Visitor σ β) : Nat → List (WrapperRef × Path) → β → TreeM σ β
  | _, [], b => return b
  | 0, _, _ => throw .endless
  | n + 1, level, b => do
    match ← visitLevel visit [] level b with
    | (.yield b, next) => levelOrderTo visit n next b
    | (.done b, _) => return b

/-- Visits level by level. -/
def levelOrder (w : WrapperRef) (b : β) (visit : Visitor σ β) : TreeM σ β := do
  levelOrderTo visit (← visitDepth) [(w, [])] b

/-- The wrappers of a subtree that pass a test, with their paths, parents before children. -/
def select (w : WrapperRef) (test : WrapperRef → TreeM σ Bool) :
    TreeM σ (List (WrapperRef × Path)) :=
  preOrder w [] fun found w path => do
    return .yield (if ← test w then found ++ [(w, path)] else found)

/-- All wrappers of a subtree with their paths. -/
def entries (w : WrapperRef) : TreeM σ (List (WrapperRef × Path)) := select w fun _ => return true

/-- The wrappers of a subtree that pass a test. -/
def findAll (w : WrapperRef) (test : WrapperRef → TreeM σ Bool) : TreeM σ (List WrapperRef) := do
  return (← select w test).map Prod.fst

/-- The first wrapper of a subtree that passes a test. -/
def find (w : WrapperRef) (test : WrapperRef → TreeM σ Bool) : TreeM σ (Option WrapperRef) :=
  preOrder w none fun _ w _ => do
    if ← test w then return .done (some w) else return .yield none

/-- The wrappers below a wrapper. -/
def descendants (w : WrapperRef) : TreeM σ (List WrapperRef) := do
  return (← findAll w fun _ => return true).filter (· ≠ w)

/-- The number of nodes of a subtree. -/
def count (w : WrapperRef) : TreeM σ Nat := do return (← entries w).length

end TreeM

end LiveTree
