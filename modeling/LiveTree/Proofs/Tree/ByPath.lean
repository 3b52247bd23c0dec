import LiveTree.Proofs.Tree.Revision

/-! Setting a value from above. A wrapper can set the value of a node below it by path, and the
wrapper of that node can set it directly. Both lead to the same nodes, but the announcement begins
where the value was set: by path, the wrappers below the one that was asked are passed over, also
that of the changed node. From there on upwards both ways tell the same, unless a wrapper in between
holds the direct announcement back. -/

namespace LiveTree

variable {σ : Type} {f g : Forest} {w c : WrapperRef} {p : Path}

namespace Forest

theorem store_child (f : Forest) (w : WrapperRef) (key : String) :
    (f.child w key).2.store = f.store := by
  rcases f.child_cases w key with ⟨-, e⟩ | ⟨c, -, -, e⟩ | ⟨r, -, e⟩ <;> rw [e]
  rw [store_wrapChild, store_dropCached]

/-- Going down changes no cell. -/
theorem store_descend (f : Forest) (w : WrapperRef) (p : Path) :
    (f.descend w p).2.store = f.store :=
  descend_closed (P := fun g => g.store = f.store)
    (fun g v key hg => (g.store_child v key).trans hg) w p rfl

/-- The forest after the value of a wrapper's node has been set. -/
def withValue (f : Forest) (c : WrapperRef) (v : Value) : Forest :=
  f.modifyNodeAt c fun n => { n with value := v }

theorem line_withValue (f : Forest) (c : WrapperRef) (v : Value) (w : WrapperRef) :
    (f.withValue c v).line w = f.line w :=
  line_congr (P := fun _ => True) (fun _ _ => ⟨rfl, rfl, rfl⟩)
    (fun _ _ => Store.children_modifyNode _ _ fun _ => rfl) (fun _ _ _ _ => trivial) trivial

end Forest

namespace TreeM

variable {note : σ → Call → σ}

/-- Where nobody holds back, those at the beginning are told first, and then the rest of the line as
if it began there. -/
theorem announced_append {between : List Station}
    (h : ∀ q ∈ between, (f.wrapper q.1).batched = none) (line : List Station) (paths : List Path)
    (u : σ) : announced note (between ++ line) paths ⟨f, u⟩ = announced note line paths
      ⟨f, ((f.tellings between paths).flatMap Telling.calls).foldl note u⟩ := by
  simp only [announced, Forest.tellings_append h, Forest.collect_append h, List.flatMap_append,
    List.foldl_append]

/-- What is announced below a line is announced along it with the keys in front. -/
theorem announced_under (line : List Station) (keys : Path) (paths : List Path) (x : World σ) :
    announced note (line.map (·.under keys)) paths x =
      announced note line (paths.map (keys ++ ·)) x := by
  simp only [announced, Forest.tellings_under, Forest.collect_under]

theorem setValue_of_none (hlive : (f.wrapper w).destroyed = false)
    (hget : f.descend w p = (none, g)) (notify : Notify σ) (v : Value) (silent : Bool) (u : σ) :
    setValue notify w v p silent ⟨f, u⟩ = .ok () ⟨g, u⟩ := by
  have hdescend : descend w p (⟨f, u⟩ : World σ) = .ok none ⟨g, u⟩ := by
    show EStateM.Result.ok (f.descend w p).1 _ = _
    rw [hget]
  rw [setValue, bind_of_ok (checkAlive_of_live hlive), bind_of_ok hdescend]
  rfl

theorem setValue_of_some (hlive : (f.wrapper w).destroyed = false)
    (hget : f.descend w p = (some c, g)) (v : Value) (u : σ) :
    setValue (noting note) w v p false ⟨f, u⟩ =
      .ok () (announced note (g.line w) [p] ⟨g.withValue c v, u⟩) := by
  have hdescend : descend w p (⟨f, u⟩ : World σ) = .ok (some c) ⟨g, u⟩ := by
    show EStateM.Result.ok (f.descend w p).1 _ = _
    rw [hget]
  rw [setValue, bind_of_ok (checkAlive_of_live hlive), bind_of_ok hdescend]
  refine (emit_noting note w [p] ⟨g.withValue c v, u⟩).trans ?_
  rw [Forest.line_withValue]

/-- Setting a value by path, against setting it directly at the wrapper that the path leads to. A
path that leads nowhere changes no cell and tells nobody. Otherwise both ways set the value of the
same node. By path, the change is announced along the line of the wrapper that was asked; directly,
it is announced at the wrapper of the node and at those in between first, and if none of them holds
back, then to the same subscribers with the same paths as by path. -/
theorem setValue_by_path (h : f.Arises false) (hw : w.index < f.wrappers.size)
    (hlive : (f.wrapper w).destroyed = false) (p : Path) (v : Value) (note : σ → Call → σ) (u : σ) :
    match f.descend w p with
    | (none, g) => setValue (noting note) w v p false ⟨f, u⟩ = .ok () ⟨g, u⟩ ∧ g.store = f.store
    | (some c, g) => ∃ between : List Station,
      between.map Prod.fst ++ w :: g.ancestors w = c :: g.ancestors c ∧
      setValue (noting note) w v p false ⟨f, u⟩ =
        .ok () (announced note (g.line w) [p] ⟨g.withValue c v, u⟩) ∧
      setValue (noting note) c v [] false ⟨g, u⟩ = .ok () (announced note
        (between ++ (g.line w).map (·.under p)) [[]] ⟨g.withValue c v, u⟩) ∧
      ((∀ q ∈ between, (g.wrapper q.1).batched = none) →
        setValue (noting note) c v [] false ⟨g, u⟩ =
          .ok () (announced note (g.line w) [p] ⟨g.withValue c v,
            (((g.withValue c v).tellings between [[]]).flatMap Telling.calls).foldl note u⟩)) := by
  have harises := h.descend hw p
  have hstore := f.store_descend w p
  cases hget : f.descend w p with
  | mk target g =>
  rw [hget] at harises hstore
  cases target with
  | none => exact ⟨setValue_of_none hlive hget _ v false u, hstore⟩
  | some c =>
    obtain ⟨halong, hkept, hbeyond, -⟩ := h.kept.descend hw hget
    have hlive' : (g.wrapper c).destroyed = false := by
      refine halong.live harises.lively ?_
      obtain ⟨cache, e⟩ := hbeyond.self
      rw [e]
      exact hlive
    obtain ⟨between, -, hancestors, hline⟩ :=
      (halong.leads hkept harises.lively).exists_line hkept.toOrdered
    have hdirect : setValue (noting note) c v [] false ⟨g, u⟩ =
        .ok () (announced note (g.line c) [[]] ⟨g.withValue c v, u⟩) :=
      setValue_of_some hlive' rfl v u
    rw [hline] at hdirect
    refine ⟨between, hancestors, setValue_of_some hlive hget v u, hdirect, fun hopen => ?_⟩
    rw [hdirect, announced_append (f := g.withValue c v) hopen, announced_under,
      List.map_singleton, List.append_nil]

end TreeM

theorem listeningForm_by_path : ∃ g,
    TreeM.setValue (TreeM.noting fun l c => l ++ [c]) ⟨0⟩ (.str "Lund") ["address", "city"] false
      ⟨Forest.listeningForm, []⟩ = .ok () ⟨g, [(0, ["address.city"])]⟩ ∧
    TreeM.setValue (TreeM.noting fun l c => l ++ [c]) ⟨2⟩ (.str "Lund") [] false
      ⟨Forest.listeningForm, []⟩ = .ok () ⟨g, [(2, ["city"]), (0, ["address.city"])]⟩ := by
  obtain ⟨-, -, hpath, -⟩ := TreeM.setValue_by_path (w := ⟨0⟩)
    (Forest.listeningForm_arises false) (by decide) rfl ["address", "city"] (.str "Lund")
    (fun l c => l ++ [c]) ([] : List Call)
  exact ⟨_, hpath, rfl⟩

end LiveTree
