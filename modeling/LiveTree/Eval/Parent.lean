import LiveTree.Fault
import LiveTree.Store

/-! Finding the node that holds another in one of its maps, by identity and depth first: children
before metadata before constraints, and an entry before what lies below it. -/

namespace LiveTree

namespace Store

variable (s : Store)

/-- The entries of a node in the order of the search. -/
def held (r : NodeRef) : List NodeRef :=
  let n := s.node r
  n.children.values ++ n.metadata.values ++ n.constraints.values

/-- Searches the entries of one node for the target, each before what lies below it. -/
def searchEntries (below : NodeRef → Except Fault (Option NodeRef)) (target holder : NodeRef) :
    List NodeRef → Except Fault (Option NodeRef)
  | [] => .ok none
  | entry :: rest =>
    if entry = target then .ok (some holder)
    else do
      match ← below entry with
      | some found => return some found
      | none => searchEntries below target holder rest

/-- Searches below a node to a given depth. -/
def searchBelow (target : NodeRef) : Nat → NodeRef → Except Fault (Option NodeRef)
  | 0, _ => .error .endless
  | n + 1, r => searchEntries (searchBelow target n) target r (s.held r)

/-- The first node from `root` that holds the target. The root itself counts as held by none. -/
def findParent (target root : NodeRef) : Except Fault (Option NodeRef) :=
  if root = target then .ok none else s.searchBelow target s.depthBound root

end Store

/-- A way to find parents: some that are known, and a root to search from for the others. Without
a root the others have none. -/
structure Lookup where
  known : List (NodeRef × Option NodeRef)
  root : Option NodeRef
  deriving Inhabited

namespace Lookup

/-- The parent of a node. -/
def parent (l : Lookup) (s : Store) (r : NodeRef) : Except Fault (Option NodeRef) :=
  match l.known.find? (·.1 = r) with
  | some (_, p) => .ok p
  | none =>
    match l.root with
    | some root => s.findParent r root
    | none => .ok none

end Lookup

end LiveTree
