import LiveTree.Eval.Arguments
import LiveTree.Eval.Reference
import LiveTree.Eval.Standard

/-! Evaluation. A literal gives the value it holds, a reference what its path leads to, an operator
call what the operator makes of its arguments, and any other node the value it holds. Evaluations
nest up to a limit, so a circular reference fails. -/

namespace LiveTree

/-- How deep evaluations may nest. -/
def maxDepth : Int := 1000

section

variable [Host]

/-- What an operator gives for its arguments. -/
def Operator.apply (eval : Evaluator) (c : Context) (args : List NodeRef) : Operator → EvalM Value
  | standard op => op.apply eval c args
  | constant v => pure v
  | host name => Host.call name eval c args

/-- Evaluates a node with so many levels left. -/
def evaluateWithin : Nat → Evaluator
  | 0, _, _ => .fail .tooDeep
  | n + 1, c, r => do
    let node ← EvalM.read (·.node r)
    match node.kind with
    | .ref => resolvePath (evaluateWithin n) c.deeper node.value
    | .op =>
      match c.registry.get? node.id with
      | none => EvalM.fail (.unknownOperator node.id)
      | some op => do
        let args ← orderedArguments r
        op.apply (evaluateWithin n) c.deeper args
    | _ => return node.value

/-- A descent without end counts as nesting too deep. -/
def Fault.orTooDeep : Fault → Fault
  | .endless => .tooDeep
  | e => e

/-- Evaluates a node, with the levels that the depth of the context leaves. -/
def evaluate : Evaluator := fun c r =>
  (evaluateWithin (maxDepth - c.depth).toNat c r).mapFault Fault.orTooDeep

/-- Resolves a path in a context. -/
def resolve (c : Context) (path : Value) : EvalM Value := resolvePath evaluate c path

end

end LiveTree
