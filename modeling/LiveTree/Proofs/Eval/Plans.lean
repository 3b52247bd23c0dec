import LiveTree.Eval.Standard

/-! Plans of operators. What a standard operator does, the loops apart, is fixed beforehand up to
what its arguments and the store turn out to be: it asks for the value of an argument, looks at the
store, and in the end computes. So it can be carried out by anything that answers for the arguments.
-/

namespace LiveTree

/-- What is done to come to a value. -/
inductive Plan where
  /-- A last computation on the store. -/
  | compute (m : EvalM Value)
  /-- The value of a node, and what is done with it. -/
  | ask (r : NodeRef) (k : Value → Plan)
  /-- A look at the store, and what is done then. -/
  | look (k : Store → Plan)

namespace Plan

/-- Carries out a plan, with the values of nodes from elsewhere. -/
def run (answer : NodeRef → EvalM Value) : Plan → EvalM Value
  | compute m => m
  | ask r k => do (k (← answer r)).run answer
  | look k => do
    let s ← EvalM.read id
    (k s).run answer

end Plan

/-- The operators that go through the elements of a collection. -/
inductive Loop where
  | map
  | filter
  | reduce
  deriving DecidableEq, Inhabited, Repr

/-- The operator of the standard library. -/
def Loop.standard : Loop → StandardOp
  | map => .map
  | filter => .filter
  | reduce => .reduce

namespace StandardOp

open Plan

section

variable (args : List NodeRef)

end

end StandardOp

section

variable {eval : Evaluator} {c : Context} {args : List NodeRef}

namespace Plan

end Plan

open Plan

end

end LiveTree
