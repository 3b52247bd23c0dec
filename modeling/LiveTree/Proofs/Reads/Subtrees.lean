import LiveTree.Proofs.Reads.Browsing
import LiveTree.Proofs.Reads.Orders

/-! Going through a subtree. A visit of parents before children asks for the wrappers one after
another; those that it gathers are met again at their paths afterwards. The paths are those of the
nodes, in order: there is one for each that leads anywhere. -/

namespace LiveTree

variable {σ : Type}

/-! ### Gathering -/

/-- Whether wrappers with paths have been gathered from a wrapper down: each stands where its path,
after some path to start from, leads to, and the paths are given ones, in order. -/
structure Forest.Gathers (w : WrapperRef) (start : Path) (paths : List Path) (f g : Forest)
    (l : List (WrapperRef × Path)) : Prop where
  roamed : Roamed w f g
  placed : g.Placed
  store : g.store = f.store
  along : ∀ e ∈ l, ∃ p, e.2 = start ++ p ∧ g.Along w p e.1
  paths : l.map Prod.snd = paths.map (start ++ ·)

namespace Forest.Gathers

variable {f g h : Forest} {w c : WrapperRef} {start : Path} {paths paths' : List Path} {key : String}
  {l l' : List (WrapperRef × Path)}

theorem nil (hf : f.Placed) (w : WrapperRef) (start : Path) : Gathers w start [] f f [] :=
  ⟨.refl f w, hf, rfl, nofun, rfl⟩

theorem here (hf : f.Placed) (w : WrapperRef) (start : Path) :
    Gathers w start [[]] f f [(w, start)] := by
  refine ⟨.refl f w, hf, rfl, fun e he => ?_, by simp⟩
  obtain rfl := List.mem_singleton.mp he
  exact ⟨[], (List.append_nil start).symm, .here w⟩

theorem append (hfg : Gathers w start paths f g l) (hgh : Gathers w start paths' g h l') :
    Gathers w start (paths ++ paths') f h (l ++ l') where
  roamed := hfg.roamed.trans hgh.roamed
  placed := hgh.placed
  store := hgh.store.trans hfg.store
  along e he := by
    rcases List.mem_append.mp he with he | he
    · obtain ⟨p, hp, halong⟩ := hfg.along e he
      exact ⟨p, hp, hgh.roamed.along halong⟩
    · exact hgh.along e he
  paths := by rw [List.map_append, List.map_append, hfg.paths, hgh.paths]

/-- What is gathered below a child. -/
theorem of_child (hgives : Gives w key f c g) (hgh : Gathers c (start ++ [key]) paths g h l) :
    Gathers w start (paths.map (key :: ·)) f h l := by
  have hb := hgh.roamed.of_le (Nat.le_of_lt hgives.after)
  refine ⟨hgives.roamed.trans hb, hgh.placed, hgh.store.trans hgives.store, fun e he => ?_, ?_⟩
  · obtain ⟨p, hp, halong⟩ := hgh.along e he
    exact ⟨key :: p, by rw [hp, List.append_assoc]; rfl, (hb.along hgives.along).append halong⟩
  · rw [hgh.paths, List.map_map]
    exact List.map_congr_left fun p _ => List.append_assoc start [key] p

end Forest.Gathers

namespace TreeM

variable {x : World σ} {w : WrapperRef} {n : ℕ}

/-- The visitor that adds each wrapper to a list. -/
def gatherAll : Visitor σ (List (WrapperRef × Path)) := fun found w path =>
  return .yield (found ++ [(w, path)])

/-- Whether a visitor gathers all that is below a wrapper if each descent from there ends. -/
def Gathering (n : ℕ) (go : Visitor σ (List (WrapperRef × Path))) : Prop :=
  ∀ (x : World σ) c start l, x.forest.Placed → c.index < x.forest.wrappers.size →
    EndsWithin x.forest.store.offspring n (x.forest.wrapper c).node →
    ∃ l' z, go l c start x = .ok (.yield (l ++ l')) z ∧ Forest.Gathers c start
      (x.forest.store.pathsTo n (x.forest.wrapper c).node) x.forest z.forest l'

theorem intoChildren_gathers {go : Visitor σ (List (WrapperRef × Path))} (hgo : Gathering n go)
    (hx : x.forest.Placed) (hw : w.index < x.forest.wrappers.size) (start : Path)
    {entries : List (String × NodeRef)}
    (hentries : ∀ e ∈ entries, (x.forest.nodeAt w).children.get? e.1 = some e.2 ∧
      EndsWithin x.forest.store.offspring n e.2) (l : List (WrapperRef × Path)) :
    ∃ l' z, intoChildren go w start (entries.map Prod.fst) l x = .ok (.yield (l ++ l')) z ∧
      Forest.Gathers w start
        (entries.flatMap fun e => (x.forest.store.pathsTo n e.2).map (e.1 :: ·))
        x.forest z.forest l' := by
  induction entries generalizing x l with
  | nil => exact ⟨[], x, by rw [List.append_nil]; rfl, .nil hx w start⟩
  | cons e rest ih =>
    obtain ⟨key, r⟩ := e
    obtain ⟨⟨hr, hend⟩, hrest⟩ := List.forall_mem_cons.mp hentries
    dsimp only at hr hend
    rcases Forest.child_gives hx hw key with ⟨hnone, -⟩ | ⟨c, g, e, hgives⟩
    · cases hnone.symm.trans hr
    · have hchild : (updateForest (·.child w key) : TreeM σ _) x = .ok (some c) (x.withForest g) :=
        updateForest_eq e
      have hnode : (g.wrapper c).node = r := Option.some.inj (hgives.node.symm.trans hr)
      obtain ⟨l₁, y, hy, hbelow⟩ := hgo (x.withForest g) c (start ++ [key]) l hgives.placed
        hgives.made (by
          show EndsWithin g.store.offspring n (g.wrapper c).node
          rwa [hgives.store, hnode])
      have hpaths : g.store.pathsTo n (g.wrapper c).node = x.forest.store.pathsTo n r := by
        rw [hgives.store, hnode]
      have hfirst : Forest.Gathers w start ((x.forest.store.pathsTo n r).map (key :: ·)) x.forest
          y.forest l₁ := hpaths ▸ .of_child hgives hbelow
      obtain ⟨l₂, z, hz, hgathers⟩ := ih hfirst.placed (hfirst.roamed.made hw)
        (fun e he => by
          rw [hfirst.roamed.nodeAt_eq, hfirst.store]
          exact hrest e he) (l ++ l₁)
      rw [hfirst.store] at hgathers
      refine ⟨l₁ ++ l₂, z, ?_, hfirst.append hgathers⟩
      rw [← List.append_assoc]
      exact (bind_of_ok hchild _).trans ((bind_of_ok hy _).trans hz)

/-- Visiting parents before children gathers all. -/
theorem gathering_preOrderTo (n : ℕ) : Gathering (σ := σ) n (preOrderTo gatherAll n) := by
  induction n with
  | zero => exact fun _ _ _ _ _ _ hn => hn.elim
  | succ n ih =>
    intro x w start l hx hw hn
    have hentries : ∀ e ∈ (x.forest.nodeAt w).children.toList,
        (x.forest.nodeAt w).children.get? e.1 = some e.2 ∧
          EndsWithin x.forest.store.offspring n e.2 :=
      fun e he => ⟨Entries.get?_eq_some_iff.mpr he, hn e.2 (Store.mem_offspring he)⟩
    obtain ⟨l', z, hz, hgathers⟩ := intoChildren_gathers ih hx hw start hentries (l ++ [(w, start)])
    refine ⟨(w, start) :: l', z, ?_, (Forest.Gathers.here hx w start).append hgathers⟩
    rw [List.append_assoc] at hz
    exact hz

/-- All wrappers of a subtree are gathered, each with the path to it. -/
theorem entries_gathers (hx : x.forest.Placed) (hw : w.index < x.forest.wrappers.size)
    (hn : EndsWithin x.forest.store.offspring (x.forest.store.nodes.size + visitMargin)
      (x.forest.wrapper w).node) :
    ∃ l z, entries w x = .ok l z ∧ Forest.Gathers w []
      (x.forest.store.pathsTo (x.forest.store.nodes.size + visitMargin) (x.forest.wrapper w).node)
      x.forest z.forest l := by
  obtain ⟨l, z, hz, hgathers⟩ := gathering_preOrderTo _ x w [] [] hx hw hn
  exact ⟨l, z, bind_of_ok hz _, hgathers⟩

end TreeM

end LiveTree
