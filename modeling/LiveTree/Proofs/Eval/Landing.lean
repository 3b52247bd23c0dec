import LiveTree.Eval.Reference

/-! Where a path lands. Following a path evaluates nothing on the way: it comes to a value, or to a
node that is then evaluated for the owner that the path has last met. So resolving a reference is
finding out where its path lands, and after that at most one evaluation. -/

namespace LiveTree

/-- Where a path lands. -/
inductive Landing where
  | value (v : Value)
  /-- A node to be evaluated, with the node that it sees as `self`. -/
  | expression (owner r : NodeRef)

/-- The value that a path has landed on, or that of the node. -/
def Landing.result (eval : Evaluator) (c : Context) : Landing → EvalM Value
  | value v => return v
  | expression owner r => eval (c.focus owner) r

section

variable (c : Context)

end

section

variable {eval : Evaluator} {c : Context}

end

end LiveTree
