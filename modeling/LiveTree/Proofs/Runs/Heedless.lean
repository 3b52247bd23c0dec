import LiveTree.Proofs.Eval.Operators
import LiveTree.Proofs.Runs.Tame

/-! The argument orders that a store remembers are looked up when the arguments of an operator call
are put in order, and by nothing else. Every other reading of a store gives the same whatever is
remembered, and what adds to a store hands on what is. -/

namespace LiveTree

variable {α β : Type}

namespace Store

variable (s : Store) (o : Array (Option (List String)))

/-- The store with other argument orders remembered. -/
def withOrders : Store := { s with argOrders := o }

/-- Whether an operation on stores does the same whatever argument orders are remembered. -/
def Heedless (f : Store → Except Fault (α × Store)) : Prop :=
  ∀ s o, f (s.withOrders o) = (fun p => (p.1, p.2.withOrders o)) <$> f s

/-! ### Readings -/

theorem equalTo_withOrders (n : Nat) : (s.withOrders o).equalTo n = s.equalTo n := by
  induction n with
  | zero => rfl
  | succ n ih =>
    funext a b
    unfold equalTo
    rw [ih]
    rfl

theorem equal_withOrders (a b : Value) : (s.withOrders o).equal a b = s.equal a b :=
  congrFun (congrFun (s.equalTo_withOrders o _) a) b

theorem orderTo_withOrders (rel : Relation) (n : Nat) :
    (s.withOrders o).orderTo rel n = s.orderTo rel n := by
  induction n with
  | zero => rfl
  | succ n ih =>
    funext a b
    unfold orderTo
    rw [ih, equalTo_withOrders]
    rfl

theorem order_withOrders (rel : Relation) (a b : Value) :
    (s.withOrders o).order rel a b = s.order rel a b :=
  congrFun (congrFun (s.orderTo_withOrders o rel _) a) b

theorem hashableTo_withOrders (n : Nat) : (s.withOrders o).hashableTo n = s.hashableTo n := by
  induction n with
  | zero => rfl
  | succ n ih =>
    funext v
    unfold hashableTo
    rw [ih]
    rfl

theorem segments_withOrders (path : Value) : (s.withOrders o).segments path = s.segments path := by
  have hsegment : (s.withOrders o).segment = s.segment := by
    funext v
    have hhashable := congrFun (s.hashableTo_withOrders o s.depthBound) v
    cases v with
    | str t => rfl
    | _ => exact congrArg Segment.foreign hhashable
  unfold segments
  rw [hsegment]
  rfl

theorem written_withOrders (n : Nat) : (s.withOrders o).written n = s.written n := by
  induction n with
  | zero => rfl
  | succ n ih =>
    funext within v
    unfold written
    rw [ih]
    rfl

theorem shownText_withOrders (v : Value) : (s.withOrders o).shownText v = s.shownText v := by
  have htext : ∀ v, (s.withOrders o).writtenValue v = s.writtenValue v := fun v =>
    congrFun (congrFun (s.written_withOrders o _) []) v
  cases v <;> simp only [shownText, valueText, htext]

theorem searchBelow_withOrders (target : NodeRef) (n : Nat) :
    (s.withOrders o).searchBelow target n = s.searchBelow target n := by
  induction n with
  | zero => rfl
  | succ n ih =>
    funext r
    rw [searchBelow, searchBelow, ih]
    rfl

theorem parent_withOrders (c : Context) (r : NodeRef) :
    c.parent (s.withOrders o) r = c.parent s r := by
  have hfind : ∀ root, (s.withOrders o).findParent r root = s.findParent r root := fun root => by
    rw [findParent, findParent, show (s.withOrders o).depthBound = s.depthBound from rfl,
      searchBelow_withOrders]
  simp only [Context.parent, Lookup.parent, hfind]

/-! ### Operations -/

theorem field_withOrders (r : NodeRef) (word : String) : (s.withOrders o).field r word =
    ((s.field r word).1, (s.field r word).2.withOrders o) := by
  unfold field
  dsimp only
  split
  · rfl
  · cases Keyword.ofName? word with
    | none => rfl
    | some keyword => cases keyword <;> rfl

namespace Heedless

variable {f : Store → Except Fault (α × Store)} {r : Except Fault β}

theorem of_check {f : Store → Except Fault α} (h : ∀ s o, f (s.withOrders o) = f s) :
    Heedless fun s => (·, s) <$> f s := by
  intro s o
  simp only [h]
  cases f s <;> rfl

theorem add (a b : Value) : Heedless fun s => s.add a b := by
  intro s o
  simp only [Store.add]
  split
  · rename_i x y _ _
    cases x.combine (· + ·) (· + ·) y <;> rfl
  · cases a <;> cases b <;> rfl

theorem subtract (a b : Value) : Heedless fun s => s.subtract a b := by
  intro s o
  simp only [Store.subtract]
  split
  · rename_i x y _ _
    cases x.combine (· - ·) (· - ·) y <;> rfl
  · rfl

theorem repeatValue (n : Int) (a : Value) : Heedless fun s => s.repeatValue n a := by
  intro s o
  cases a with
  | str t =>
    simp only [Store.repeatValue]
    cases checkCount .tooLarge n t.length <;> rfl
  | list r =>
    simp only [Store.repeatValue]
    show (checkCount .outOfMemory n (s.list r).length >>= _) = _
    cases checkCount .outOfMemory n (s.list r).length <;> rfl
  | tuple r =>
    simp only [Store.repeatValue]
    show (checkCount .outOfMemory n (s.tuple r).length >>= _) = _
    cases checkCount .outOfMemory n (s.tuple r).length <;> rfl
  | _ => rfl

theorem multiply (a b : Value) : Heedless fun s => s.multiply a b := by
  intro s o
  simp only [Store.multiply]
  split
  · rename_i x y _ _
    cases x.combine (· * ·) (· * ·) y <;> rfl
  · split
    · exact repeatValue _ _ s o
    · exact repeatValue _ _ s o
    · rfl

theorem divide (a b : Value) : Heedless fun s => s.divide a b := by
  intro s o
  simp only [Store.divide]
  split
  · rename_i x y _ _
    cases x.divide y <;> rfl
  · rfl

end Heedless

end Store

end LiveTree
