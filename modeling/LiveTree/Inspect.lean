import LiveTree.Eval.Context
import LiveTree.Value.Text

/-! Looking at nodes: the sorts of expression and declaration they are, the chain of their types,
and an outline of everything they hold. -/

namespace LiveTree

namespace Kind

/-- The sorts of node that a kind belongs to, by the names of the tests for them. -/
def guards (k : Kind) : List String :=
  let sorts : List (String × Bool) :=
    [("is_constraint", k == constraint), ("is_expr", k.isExpression || k == expr),
      ("is_lit", k == lit), ("is_op", k == op), ("is_operator", k == operator),
      ("is_ref", k == ref), ("is_type", k == type)]
  (sorts.filter Prod.snd).map Prod.fst

end Kind

namespace Store

variable (s : Store)

/-- The ids of the types above a node, up to one that is its own type, so many at most. -/
def typeChainTo : Nat → NodeRef → List String
  | 0, _ => []
  | n + 1, r =>
    let t := (s.node r).type
    (s.node t).id :: if (s.node t).type = t then [] else typeChainTo n t

/-- The ids of the types above a node, up to the type of all types. -/
def typeChain (r : NodeRef) : List String := s.typeChainTo s.depthBound r

/-- One line of an outline: where a node stands, and the node. -/
abbrev Line : Type := String × NodeRef

/-- A node and everything it holds, to a given depth: its value if that is a node, then the
entries of its maps. -/
def outlineTo : Nat → String → NodeRef → List Line
  | 0, _, _ => []
  | n + 1, path, r =>
    let node := s.node r
    let value := match node.value with
      | .node v => outlineTo n (path ++ "/value") v
      | _ => []
    let maps := Role.all.flatMap fun role =>
      (node.entries role).toList.flatMap fun p =>
        outlineTo n (path ++ "/" ++ role.name ++ "." ++ p.1) p.2
    (path, r) :: value ++ maps

/-- A node and everything it holds. -/
def outline (r : NodeRef) : List Line := s.outlineTo s.depthBound "" r

end Store

end LiveTree
