import LiveTree.Text.Display
import LiveTree.Tree.Visit
import LiveTree.Value.Text

/-! Drawing a tree with guides: a line for each node, with lines from it to its children below. -/

namespace LiveTree

/-- A drawing: a label, and the drawings below it. -/
inductive Drawing where
  | mk (label : String) (branches : List Drawing)
  deriving Inhabited

namespace Drawing

/-- Hangs lines on a guide: one sign before the first of them, another before the others. -/
def hang (first others : String) : List String → List String
  | [] => []
  | line :: rest => (first ++ line) :: rest.map (others ++ ·)

mutual

/-- The lines of a drawing. -/
def lines : Drawing → List String
  | mk label branches => Text.displayLines label ++ branchLines branches

/-- The lines of the drawings below a label. The guide ends at the last of them. -/
def branchLines : List Drawing → List String
  | [] => []
  | [d] => hang "└── " "    " d.lines
  | d :: next :: rest => hang "├── " "│   " d.lines ++ branchLines (next :: rest)

end

end Drawing

namespace TreeM

variable {σ : Type}

/-- The label of a node in a drawing: the key it is under or else its id, its type, its value if
there is one, and the names of its constraints if there are any. -/
def label (key : String) (w : WrapperRef) : TreeM σ String := do
  let f ← forest
  let n := f.nodeAt w
  let value ← if n.value.isNone then pure "" else do
    pure (" = " ++ (← check (·.writtenValue n.value)))
  let constraints :=
    if n.constraints.isEmpty then "" else " " ++ Text.quoteList n.constraints.keys
  let name := if key.isEmpty then n.id else key
  return name ++ " (" ++ (f.typeAt w).id ++ ")" ++ value ++ constraints

/-- The drawings of the children under some keys. -/
def drawChildren (go : String → WrapperRef → TreeM σ Drawing) (w : WrapperRef) :
    List String → TreeM σ (List Drawing)
  | [] => return []
  | key :: rest => do
    match ← updateForest (·.child w key) with
    | none => drawChildren go w rest
    | some c => do
      let drawing ← go key c
      return drawing :: (← drawChildren go w rest)

/-- The drawing of a subtree under a key, to a given depth. -/
def drawTo : Nat → String → WrapperRef → TreeM σ Drawing
  | 0, _, _ => throw .endless
  | n + 1, key, w => do
    let label ← label key w
    return .mk label (← drawChildren (drawTo n) w (← childKeys w))

/-- The drawing of a subtree. -/
def draw (w : WrapperRef) : TreeM σ Drawing := do drawTo (← visitDepth) "" w

end TreeM

end LiveTree
