import LiveTree.Proofs.Mirroring
import LiveTree.Proofs.Tree.Revision

/-! Changes in two worlds side by side. When one world shows the same nodes and the same wrappers as
another, as far as changes look at them, a change does the same to both, provided that what relates
the worlds survives new contents of nodes and going down to children. What is announced is left out
here. -/

namespace LiveTree

variable {σ τ α β : Type}

namespace World

/-- A world with another forest. -/
def withForest (x : World σ) (f : Forest) : World σ := { x with forest := f }

/-- A world with another store. -/
def withStore (x : World σ) (s : Store) : World σ := x.withForest { x.forest with store := s }

end World

/-- Whether something that looks up wrappers finds the same in two worlds, one of those that `S` is
about and that has been made, and leaves the worlds related. -/
structure FindsAlike (S : WrapperRef → Prop) (R : World σ → World τ → Prop)
    (op : Forest → Option WrapperRef × Forest) (x : World σ) (y : World τ) : Prop where
  result : (op y.forest).1 = (op x.forest).1
  related : R (x.withForest (op x.forest).2) (y.withForest (op y.forest).2)
  size_le : x.forest.wrappers.size ≤ (op x.forest).2.wrappers.size
  found : ∀ c, (op x.forest).1 = some c → S c ∧ c.index < (op x.forest).2.wrappers.size

/-- Whether a relation between worlds lets changes at certain wrappers through. -/
structure Transparent (S : WrapperRef → Prop) (R : World σ → World τ → Prop) : Prop where
  store : ∀ {x y}, R x y → y.forest.store = x.forest.store
  size : ∀ {x y}, R x y → y.forest.wrappers.size = x.forest.wrappers.size
  node : ∀ {x y}, R x y → ∀ v, (y.forest.wrapper v).node = (x.forest.wrapper v).node
  destroyed : ∀ {x y}, R x y → ∀ v, (y.forest.wrapper v).destroyed = (x.forest.wrapper v).destroyed
  cells : ∀ {x y s}, R x y → x.forest.store.KeepsChildren s → R (x.withStore s) (y.withStore s)
  findsAlike_child : ∀ {x y}, R x y → ∀ v key, S v → v.index < x.forest.wrappers.size →
    FindsAlike S R (·.child v key) x y

/-- Whether worlds are related and so many wrappers have been made. -/
def Made (R : World σ → World τ → Prop) (n : ℕ) (x : World σ) (y : World τ) : Prop :=
  R x y ∧ n ≤ x.forest.wrappers.size

/-- Whether a wrapper that has been looked up, if any, is one of those that `S` is about and has
been made. -/
def Found (S : WrapperRef → Prop) (R : World σ → World τ → Prop) (n : ℕ) (c : Option WrapperRef)
    (x : World σ) (y : World τ) : Prop :=
  Made R n x y ∧ ∀ c', c = some c' → S c' ∧ c'.index < x.forest.wrappers.size

namespace Mirrors

variable {I E : World σ → World τ → Prop} {J : α → World σ → World τ → Prop}

/-- What reads the same goes on the same. -/
theorem read {r : Forest → β} {k : β → TreeM σ α} {l : β → TreeM τ α}
    (hr : ∀ x y, I x y → r y.forest = r x.forest) (hk : ∀ b, Mirrors I (k b) (l b) J E) :
    Mirrors I (TreeM.forest >>= fun f => k (r f)) (TreeM.forest >>= fun f => l (r f)) J E := by
  intro x y hxy
  rw [TreeM.forest_bind, TreeM.forest_bind, hr x y hxy]
  exact hk _ x y hxy

theorem readIf {r : Forest → Bool} {m₁ m₂ : TreeM σ α} {m₁' m₂' : TreeM τ α}
    (hr : ∀ x y, I x y → r y.forest = r x.forest) (h₁ : Mirrors I m₁ m₁' J E)
    (h₂ : Mirrors I m₂ m₂' J E) :
    Mirrors I (TreeM.forest >>= fun f => if r f = true then m₁ else m₂)
      (TreeM.forest >>= fun f => if r f = true then m₁' else m₂') J E :=
  read (k := fun b => if b = true then m₁ else m₂) (l := fun b => if b = true then m₁' else m₂') hr
    fun b => by cases b <;> assumption

end Mirrors

namespace Transparent

variable {S : WrapperRef → Prop} {R E : World σ → World τ → Prop} {x : World σ} {y : World τ}
variable {n : ℕ} {v w : WrapperRef}

theorem nodeAt (hR : Transparent S R) (hxy : R x y) (v : WrapperRef) :
    y.forest.nodeAt v = x.forest.nodeAt v := by
  rw [Forest.nodeAt, Forest.nodeAt, hR.store hxy, hR.node hxy]

theorem findsAlike_descend (hR : Transparent S R) (hxy : R x y) (hv : S v)
    (hmade : v.index < x.forest.wrappers.size) (path : Path) :
    FindsAlike S R (·.descend v path) x y := by
  induction path generalizing x y v with
  | nil =>
    refine ⟨rfl, hxy, Nat.le_refl _, ?_⟩
    rintro _ ⟨⟩
    exact ⟨hv, hmade⟩
  | cons key rest ih =>
    have hchild := hR.findsAlike_child hxy v key hv hmade
    cases hx : x.forest.child v key with
    | mk c f =>
    cases hy : y.forest.child v key with
    | mk c' g =>
    have hresult := hchild.result
    have hrelated := hchild.related
    have hsize := hchild.size_le
    have hfound := hchild.found
    simp only [hx, hy] at hresult hrelated hsize hfound
    subst hresult
    cases c' with
    | none =>
      constructor <;> simp only [Forest.descend, hx, hy]
      · exact hrelated
      · exact hsize
      · intro c hc
        cases hc
    | some c =>
      obtain ⟨hc, hlt⟩ := hfound c rfl
      have hrest := ih hrelated hc hlt
      constructor <;> simp only [Forest.descend, hx, hy]
      · exact hrest.result
      · exact hrest.related
      · exact Nat.le_trans hsize hrest.size_le
      · exact hrest.found

theorem lookUp {op : Forest → Option WrapperRef × Forest}
    (hop : ∀ x y, Made R n x y → FindsAlike S R op x y) :
    Mirrors (Made R n) (TreeM.updateForest op) (TreeM.updateForest op) (Found S R n) E := by
  intro x y hxy
  have h := hop x y hxy
  show (op x.forest).1 = (op y.forest).1 ∧ Found S R n (op x.forest).1 _ _
  exact ⟨h.result.symm, ⟨h.related, Nat.le_trans hxy.2 h.size_le⟩, h.found⟩

/-- A wrapper that has been found is one of those that `S` is about. -/
theorem found {c : WrapperRef} {m : TreeM σ α} {m' : TreeM τ α}
    {J : α → World σ → World τ → Prop}
    (h : S c → Mirrors (Made R (max n (c.index + 1))) m m' J E) :
    Mirrors (Found S R n (some c)) m m' J E := by
  intro x y hxy
  obtain ⟨hc, hlt⟩ := hxy.2 c rfl
  exact h hc x y ⟨hxy.1.1, Nat.max_le.mpr ⟨hxy.1.2, hlt⟩⟩

theorem notFound {m : TreeM σ α} {m' : TreeM τ α} {J : α → World σ → World τ → Prop}
    (h : Mirrors (Made R n) m m' J E) : Mirrors (Found S R n none) m m' J E :=
  h.mono (fun _ _ hxy => hxy.1) (fun _ _ _ hj => hj) fun _ _ he => he

/-- Fewer wrappers have been made as well. -/
theorem fewer {m : TreeM σ α} {m' : TreeM τ α} {k : ℕ} (hk : n ≤ k)
    (h : Mirrors (Made R k) m m' (fun _ => Made R k) E) :
    Mirrors (Made R k) m m' (fun _ => Made R n) E :=
  h.mono (fun _ _ hxy => hxy) (fun _ _ _ hj => ⟨hj.1, Nat.le_trans hk hj.2⟩) fun _ _ he => he

section Operations

variable (hR : Transparent S R) (hE : ∀ x y, R x y → E x y)

include hR

theorem child (hv : S v) (hn : v.index < n) (key : String) :
    Mirrors (Made R n) (TreeM.updateForest (·.child v key)) (TreeM.updateForest (·.child v key))
      (Found S R n) E :=
  lookUp fun _ _ hxy => hR.findsAlike_child hxy.1 v key hv (Nat.lt_of_lt_of_le hn hxy.2)

theorem descend (hv : S v) (hn : v.index < n) (path : Path) :
    Mirrors (Made R n) (TreeM.descend v path) (TreeM.descend v path) (Found S R n) E :=
  lookUp fun _ _ hxy => hR.findsAlike_descend hxy.1 hv (Nat.lt_of_lt_of_le hn hxy.2) path

theorem hasDefault (v : WrapperRef) :
    Mirrors (Made R n) (TreeM.hasDefault v) (TreeM.hasDefault v) (fun _ => Made R n) E :=
  .read (r := fun f => !(f.nodeAt v).default.isNone) (fun _ _ hxy => by rw [hR.nodeAt hxy.1])
    fun _ => .pure fun _ _ hxy => hxy

theorem childKeys (v : WrapperRef) :
    Mirrors (Made R n) (TreeM.childKeys v) (TreeM.childKeys v) (fun _ => Made R n) E :=
  .read (r := fun f => (f.nodeAt v).children.keys) (fun _ _ hxy => by rw [hR.nodeAt hxy.1])
    fun _ => .pure fun _ _ hxy => hxy

theorem visitDepth :
    Mirrors (Made R n) (TreeM.visitDepth : TreeM σ ℕ) TreeM.visitDepth (fun _ => Made R n) E :=
  .read (r := fun f => f.store.nodes.size + TreeM.visitMargin)
    (fun _ _ hxy => by rw [hR.store hxy.1])
    fun _ => .pure fun _ _ hxy => hxy

theorem modifyNodeAt (v : WrapperRef) {g : Node → Node} (hg : ∀ n, (g n).children = n.children) :
    Mirrors (Made R n) (TreeM.modifyForest (·.modifyNodeAt v g))
      (TreeM.modifyForest (·.modifyNodeAt v g)) (fun _ => Made R n) E := by
  intro x y hxy
  refine ⟨rfl, ?_, hxy.2⟩
  have hstep := hR.cells hxy.1 (Store.keepsChildren_modifyNode (x.forest.wrapper v).node hg)
  have hy : y.forest.modifyNodeAt v g =
      { y.forest with store := x.forest.store.modifyNode (x.forest.wrapper v).node g } := by
    rw [Forest.modifyNodeAt, Forest.modifyStore, hR.store hxy.1, hR.node hxy.1]
  show R (x.withForest (x.forest.modifyNodeAt v g)) (y.withForest (y.forest.modifyNodeAt v g))
  rw [hy]
  exact hstep

theorem intoChildren {go : Visitor σ β} {go' : Visitor τ β}
    (hgo : ∀ k b c path, S c → c.index < k →
      Mirrors (Made R k) (go b c path) (go' b c path) (fun _ => Made R k) E)
    (hv : S v) (hn : v.index < n) (path : Path) (keys : List String) (b : β) :
    Mirrors (Made R n) (TreeM.intoChildren go v path keys b)
      (TreeM.intoChildren go' v path keys b) (fun _ => Made R n) E := by
  induction keys generalizing b with
  | nil => exact .pure fun _ _ hxy => hxy
  | cons key rest ih =>
    refine .bind (hR.child hv hn key) fun c => ?_
    cases c with
    | none => exact notFound (ih b)
    | some c =>
      refine found fun hc => .bind
        (fewer (Nat.le_max_left _ _) (hgo _ b c _ hc (Nat.le_max_right _ _))) fun step => ?_
      cases step with
      | done b => exact .pure fun _ _ hxy => hxy
      | yield b => exact ih b

include hE

theorem checkAlive (v : WrapperRef) :
    Mirrors (Made R n) (TreeM.checkAlive v) (TreeM.checkAlive v) (fun _ => Made R n) E := by
  intro x y hxy
  rw [TreeM.checkAlive, TreeM.checkAlive, TreeM.forest_bind, TreeM.forest_bind,
    hR.destroyed hxy.1, hR.nodeAt hxy.1]
  cases (x.forest.wrapper v).destroyed with
  | true => exact ⟨rfl, hE x y hxy.1⟩
  | false => exact ⟨rfl, hxy⟩

/-- Adding to the store is the same on both sides. -/
theorem build {m : StoreM α} (hm : ∀ s : Store, Keeps (s.Extends ·) m fun _ => True) :
    Mirrors (Made R n) (TreeM.build m) (TreeM.build m) (fun _ => Made R n) E := by
  intro x y hxy
  simp only [TreeM.build, EStateM.run, hR.store hxy.1]
  cases hms : m x.forest.store with
  | ok a s =>
    have hextends := ((hm x.forest.store).ok Store.Extends.refl hms).1
    exact ⟨rfl, hR.cells hxy.1 hextends.keepsChildren, hxy.2⟩
  | error e s =>
    have hextends := (hm x.forest.store).error Store.Extends.refl hms
    exact ⟨rfl, hE _ _ (hR.cells hxy.1 hextends.keepsChildren)⟩

theorem applyValue (hv : S v) (hn : v.index < n) (a : Value) (path : Path) (silent : Bool) :
    Mirrors (Made R n) (Revision.applyValue v a path silent)
      (Revision.applyValue v a path silent) (fun _ => Made R n) E := by
  refine .bind (hR.checkAlive hE v) fun _ => .bind (hR.descend hv hn path) fun target => ?_
  cases target with
  | none => exact notFound (.pure fun _ _ hxy => hxy)
  | some target =>
    refine found fun _ => fewer (Nat.le_max_left _ _) ?_
    exact .bind (hR.modifyNodeAt target fun _ => rfl) fun _ => .pure fun _ _ hxy => hxy

theorem applyReset (hv : S v) (hn : v.index < n) (silent : Bool) :
    Mirrors (Made R n) (Revision.applyReset v silent) (Revision.applyReset v silent)
      (fun _ => Made R n) E := by
  refine .bind (hR.checkAlive hE v) fun _ => .bind (hR.hasDefault v) fun has => ?_
  cases has with
  | false => exact .pure fun _ _ hxy => hxy
  | true =>
    refine .read (r := fun f => (f.nodeAt v).default)
      (k := fun d => TreeM.build (copyValue d) >>= fun a => Revision.applyValue v a [] silent)
      (l := fun d => TreeM.build (copyValue d) >>= fun a => Revision.applyValue v a [] silent)
      (fun _ _ hxy => by rw [hR.nodeAt hxy.1]) fun d => ?_
    exact .bind (hR.build hE fun _ => keeps_extends_copyValue d) fun a =>
      hR.applyValue hE hv hn a [] silent

theorem preOrderTo {visit : Visitor σ β} {visit' : Visitor τ β}
    (hvisit : ∀ k b c path, S c → c.index < k →
      Mirrors (Made R k) (visit b c path) (visit' b c path) (fun _ => Made R k) E)
    (depth : ℕ) (hv : S v) (hn : v.index < n) (b : β) (path : Path) :
    Mirrors (Made R n) (TreeM.preOrderTo visit depth b v path)
      (TreeM.preOrderTo visit' depth b v path) (fun _ => Made R n) E := by
  induction depth generalizing n b v path with
  | zero => exact .throw _ fun _ _ hxy => hE _ _ hxy.1
  | succ depth ih =>
    refine .bind (hvisit n b v path hv hn) fun step => ?_
    cases step with
    | done b => exact .pure fun _ _ hxy => hxy
    | yield b =>
      refine .bind (hR.childKeys v) fun keys => ?_
      exact hR.intoChildren (fun k b c path hc hk => ih hc hk b path) hv hn path keys b

theorem preOrder {visit : Visitor σ β} {visit' : Visitor τ β}
    (hvisit : ∀ k b c path, S c → c.index < k →
      Mirrors (Made R k) (visit b c path) (visit' b c path) (fun _ => Made R k) E)
    (hv : S v) (hn : v.index < n) (b : β) :
    Mirrors (Made R n) (TreeM.preOrder v b visit) (TreeM.preOrder v b visit')
      (fun _ => Made R n) E :=
  .bind hR.visitDepth fun depth => .bind (hR.preOrderTo hE hvisit depth hv hn b []) fun _ =>
    .pure fun _ _ hxy => hxy

/-- What a change does, apart from its announcement, it does in both worlds. -/
theorem apply {e : Revision} (he : e.LeavesChildren) (hv : S v) (hn : v.index < n) :
    Mirrors (Made R n) (e.apply v) (e.apply v) (fun _ => Made R n) E := by
  cases e with
  | setValue a path silent => exact hR.applyValue hE hv hn a path silent
  | reset silent => exact hR.applyReset hE hv hn silent
  | resetDeep silent =>
    refine .bind (hR.checkAlive hE v) fun _ => .bind ?_ fun _ => .pure fun _ _ hxy => hxy
    refine hR.preOrder hE (fun k changed c path hc hk => ?_) hv hn []
    refine .bind (hR.hasDefault c) fun has => ?_
    cases has with
    | false => exact .pure fun _ _ hxy => hxy
    | true => exact .bind (hR.applyReset hE hc hk true) fun _ => .pure fun _ _ hxy => hxy
  | setEntry role key r silent =>
    refine .bind (hR.checkAlive hE v) fun _ => .bind ?_ fun _ => .pure fun _ _ hxy => hxy
    exact hR.modifyNodeAt v fun n => n.children_withEntries he _
  | removeEntry role key silent =>
    refine .bind (hR.checkAlive hE v) fun _ =>
      .readIf (r := fun f => ((f.nodeAt v).entries role).contains key)
        (fun _ _ hxy => by rw [hR.nodeAt hxy.1]) ?_ (.pure fun _ _ hxy => hxy)
    exact .bind (hR.modifyNodeAt v fun n => n.children_withEntries he _) fun _ =>
      .pure fun _ _ hxy => hxy
  | emitChange path =>
    exact .bind (hR.checkAlive hE v) fun _ => .pure fun _ _ hxy => hxy

end Operations

end Transparent

end LiveTree
