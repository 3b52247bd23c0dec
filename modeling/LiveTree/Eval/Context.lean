import LiveTree.Eval.Gather
import LiveTree.Eval.Parent

/-! What an evaluation runs in: the node that `self` means, the root, the operators by name, and
the loop variables. -/

namespace LiveTree

/-- The operators of the standard library. -/
inductive StandardOp where
  | add | sub | mul | div
  | eq | neq | lt | lte | gt | gte
  | and | or | not | choose
  | concat | toText | textLength | includes | upper | lower | trim
  | isNotNull | isNotBlank
  | map | filter | reduce
  deriving DecidableEq, Inhabited, Repr

namespace StandardOp

/-- The standard operators under their names, in the order of their installation. -/
def table : List (String × StandardOp) :=
  [("add", add), ("sub", sub), ("mul", mul), ("div", div), ("eq", eq), ("neq", neq), ("lt", lt),
    ("lte", lte), ("gt", gt), ("gte", gte), ("and", and), ("or", or), ("not", not),
    ("if", choose), ("concat", concat), ("to_string", toText), ("strlen", textLength),
    ("includes", includes), ("upper", upper), ("lower", lower), ("trim", trim),
    ("is_not_null", isNotNull), ("is_not_blank", isNotBlank), ("map", map), ("filter", filter),
    ("reduce", reduce)]

end StandardOp

/-- What a name in a registry stands for: a standard operator, one that always gives the same
value, or one that the host program supplies under a name of its own. -/
inductive Operator where
  | standard (op : StandardOp)
  | constant (v : Value)
  | host (name : String)
  deriving Inhabited

/-- The operators by name. -/
abbrev Registry : Type := Entries Operator

namespace Registry

/-- Adds every standard operator, replacing those of the same name. -/
def withStandard (g : Registry) : Registry :=
  g.insertAll (StandardOp.table.map fun p => (p.1, .standard p.2))

/-- The registry of the standard operators. -/
def standard : Registry := withStandard ∅

end Registry

/-- What an evaluation runs in. -/
structure Context where
  /-- The node that `self` means. -/
  current : NodeRef
  root : NodeRef
  registry : Registry
  /-- The loop variables, if there are any. -/
  bindings : Option (Entries Value)
  /-- How many evaluations this one is nested in. -/
  depth : Int
  /-- How parents are found. Without it they are searched for from the root. -/
  lookup : Option Lookup

namespace Context

/-- The parent of a node. -/
def parent (c : Context) (s : Store) (r : NodeRef) : Except Fault (Option NodeRef) :=
  match c.lookup with
  | some l => l.parent s r
  | none => s.findParent r c.root

/-- The loop variables, none at all as an empty map. -/
def loopVariables (c : Context) : Entries Value := c.bindings.getD ∅

/-- The context with more loop variables over those it has. -/
def withBindings (c : Context) (extra : Entries Value) : Context :=
  { c with bindings := some (c.loopVariables.insertAll extra.toList) }

/-- The context one evaluation further in. -/
def deeper (c : Context) : Context := { c with depth := c.depth + 1 }

/-- The context in which an expression sees another node as `self`. -/
def focus (c : Context) (r : NodeRef) : Context := { c with current := r }

end Context

/-- Evaluates a node in a context. -/
abbrev Evaluator : Type := Context → NodeRef → EvalM Value

/-- The operators that a host program supplies. An operator gets its arguments unevaluated, and
the evaluator to use on them. -/
class Host where
  call : String → Evaluator → Context → List NodeRef → EvalM Value

/-- Evaluates nodes one after another. -/
def Evaluator.all (eval : Evaluator) (c : Context) (args : List NodeRef) : EvalM (List Value) :=
  args.mapM (eval c)

/-- Evaluates nodes in turns. -/
def Evaluator.gather (eval : Evaluator) (c : Context) (args : List NodeRef) : EvalM (List Value) :=
  EvalM.gather (args.map (eval c))

end LiveTree
