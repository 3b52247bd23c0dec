import LiveTree.Form.Encode
import LiveTree.Form.Interchange
import LiveTree.Form.Same
import LiveTree.Tree.Change

/-! Showing, copying and comparing trees. -/

namespace LiveTree

namespace Forest

/-- The description of a wrapper: id, type and path. -/
def describe (f : Forest) (w : WrapperRef) : String :=
  let path := Text.undotted (f.path w)
  "TreeNode(" ++ Text.joined ", " [Text.quote (f.nodeAt w).id,
    "type=" ++ Text.quote (f.typeAt w).id,
    "path=" ++ Text.quote (if path.isEmpty then "root" else path)] ++ ")"

end Forest

namespace TreeM

variable {σ : Type}

/-- So many levels of indentation. -/
def indentation (levels : Int) : String := String.ofList (List.replicate (2 * levels).toNat ' ')

/-- The lines for the children under some keys. -/
def printChildren (go : Int → WrapperRef → TreeM σ (List String)) (indent : Int) (w : WrapperRef) :
    List String → TreeM σ (List String)
  | [] => return []
  | key :: rest => do
    match ← updateForest (·.child w key) with
    | none => printChildren go indent w rest
    | some c => do
      let lines ← go (indent + 2) c
      return (indentation indent ++ "  [" ++ key ++ "]:") :: lines
        ++ (← printChildren go indent w rest)

/-- The lines for a subtree, to a given depth. -/
def printTo : Nat → Int → WrapperRef → TreeM σ (List String)
  | 0, _, _ => throw .endless
  | n + 1, indent, w => do
    let f ← forest
    let node := f.nodeAt w
    let value ← if node.value.isNone then pure "" else do
      let d ← check (·.form node.value)
      check fun _ => return " = " ++ (← Data.interchange .line 0 d)
    let line := indentation indent ++ node.id ++ " (" ++ (f.typeAt w).id ++ ")" ++ value
    return line :: (← printChildren (printTo n) indent w (← childKeys w))

/-- A subtree as indented text, a line for each node and one for each key. -/
def printTree (w : WrapperRef) (indent : Int) : TreeM σ String := do
  return Text.joined "\n" (← printTo (← visitDepth) indent w)

/-- The serialized form of a subtree. -/
def toForm {ν : Type} (w : WrapperRef) : TreeM σ (Data ν) := do
  let r := ((← forest).wrapper w).node
  check (·.nodeForm r)

/-- A wrapper of a node, without parent. -/
def wrap (r : NodeRef) (registry : Option Registry) : TreeM σ WrapperRef :=
  updateForest (·.allocWrapper (.ofNode r registry))

/-- A copy of a subtree under a wrapper of its own, with the same registry. -/
def clone (w : WrapperRef) : TreeM σ WrapperRef := do
  let copy ← build (copyNode ((← forest).wrapper w).node)
  wrap copy ((← forest).registry w)

/-- Whether two subtrees are structurally equal. -/
def equals (w v : WrapperRef) : TreeM σ Bool := do
  let f ← forest
  check (·.sameNodes (f.wrapper w).node (f.wrapper v).node)

end TreeM

end LiveTree
