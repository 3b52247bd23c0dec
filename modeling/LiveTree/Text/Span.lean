/-! Sets of code points as tables of spans. -/

namespace LiveTree.Text

/-- Whether a character lies in one of the spans. -/
def inSpans (spans : List (Nat × Nat)) (c : Char) : Bool :=
  spans.any fun (first, last) => first ≤ c.toNat && c.toNat ≤ last

end LiveTree.Text
