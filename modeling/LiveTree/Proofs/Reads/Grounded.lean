import LiveTree.Proofs.Form.Copy
import LiveTree.Proofs.Reads.Echo
import LiveTree.Proofs.Runs.Parallel
import LiveTree.Proofs.Runs.Single

/-! Values without cycles. What has no cycles, types included, goes on without them in every later
store, and evaluation may start from it; so reads can be repeated on any later store. -/

namespace LiveTree

open Store

/-- Whether a value is there and nothing that it refers to, types included, lies below itself. -/
structure Store.Grounded (s : Store) (v : Value) : Prop where
  has : s.Has v
  acyclic : ∀ u, Reaches s.links v u → Acyclic s.parts u

variable {s t s₀ t₀ : Store} {v : Value}

namespace Store.Grounded

theorem links (hs : s.WellFormed) (h : s.Grounded v) : ∀ p ∈ s.links v, s.Grounded p :=
  fun p hp => ⟨hs.has_links v h.has p hp, fun u hu => h.acyclic u (hu.of_below hp)⟩

theorem ends (hs : s.WellFormed) (h : s.Grounded v) : EndsWithin s.parts s.depthBound v :=
  hs.endsWithin h.has (h.acyclic v (.refl v))

theorem scalar (s : Store) (hv : v.cell? = none) : s.Grounded v := by
  have hparts : s.parts v = [] := parts_of_cell?_eq_none s hv
  have hlinks : s.links v = [] := by cases v <;> first | exact hparts | cases hv
  have hhas : s.Has v := by cases v <;> trivial
  refine ⟨hhas, fun u hu => ?_⟩
  have hu : u = v := hu.closed (P := fun u => u = v) rfl fun x _ hx p hp => by
    rw [hx, hlinks] at hp
    cases hp
  subst hu
  refine EndsWithin.acyclic (n := 1) fun p hp => ?_
  rw [hparts] at hp
  cases hp

theorem reached (hs : s.WellFormed) (h : s.Grounded v) {u : Value} (hu : Reaches s.links v u) :
    s.Grounded u := hu.closed h fun _ _ hx => hx.links hs

theorem below (hs : s.WellFormed) (h : s.Grounded v) {u : Value} (hu : Reaches s.parts v u) :
    s.Grounded u := hu.closed h fun _ _ hx p hp => hx.links hs p (parts_subset_links _ hp)

/-- Going down from it ends as before in a later store. -/
theorem endsWithin_held {r : NodeRef} {n : ℕ} (hs : s.WellFormed) (he : s.Extends t)
    (h : s.Grounded (.node r)) (hn : EndsWithin s.held n r) : EndsWithin t.held n r := by
  refine hn.congr fun q hq => ?_
  have hq : s.Grounded (.node q) := hq.closed (P := fun q => s.Grounded (.node q)) h
    fun _ _ hx p hp => links hs hx _ (parts_subset_links _ (mem_parts_of_held hp))
  rw [Store.held, Store.held, he.node hq.has]

theorem extend (hs : s.WellFormed) (he : s.Extends t) (h : s.Grounded v) : t.Grounded v where
  has := he.has h.has
  acyclic u hu := by
    have hu : s.Grounded u := hu.closed (P := s.Grounded) h fun x _ hx p hp =>
      hx.links hs p (by rwa [links_of_agree (he.agree hx.has)] at hp)
    exact (hs.endsWithin_of_extends he hu.has (hu.ends hs)).acyclic

/-- Its form is the same in a later store. -/
theorem nodeForm_eq {ν : Type} {r : NodeRef} (hs : s.WellFormed) (he : s.Extends t)
    (h : s.Grounded (.node r)) : (t.nodeForm r : Except Fault (Data ν)) = s.nodeForm r := by
  have hend := h.ends hs
  obtain ⟨d, hd⟩ := exists_form (ν := ν) hend
  have hlike : Alike s t (.node r) (.node r) := alike_of_agree hs he.outlives hend h.has fun u hu =>
    he.agree (hs.has_reached h.has hu)
  exact (hlike.form_eq_ok he.outlives hend hd).trans (hd.formTo_eq hend).symm

end Store.Grounded

/-! ### Two moments -/

/-- Values without cycles, each going with itself. -/
def Store.Unchanged (s : Store) (v w : Value) : Prop := w = v ∧ s.Grounded v

/-- Two runs can start from values without cycles at two moments. -/
theorem counterparts_of_later (hs : s.WellFormed) (h : s.Later t) : Counterparts s.Unchanged s t where
  scalar hv := ⟨rfl, .scalar s hv⟩
  sort hv := hv.1 ▸ .refl _
  list := by
    rintro a _ ⟨⟨⟩, hv⟩
    rw [show t.list a = s.list a from h.cells.agree hv.has]
    exact List.forall₂_same.mpr fun p hp => ⟨rfl, hv.links hs p hp⟩
  tuple := by
    rintro a _ ⟨⟨⟩, hv⟩
    rw [show t.tuple a = s.tuple a from h.cells.agree hv.has]
    exact List.forall₂_same.mpr fun p hp => ⟨rfl, hv.links hs p hp⟩
  dict := by
    rintro a _ ⟨⟨⟩, hv⟩
    rw [show t.dict a = s.dict a from h.cells.agree hv.has]
    exact .same fun p hp => ⟨rfl, hv.links hs p hp⟩
  node := by
    rintro a _ ⟨⟨⟩, hv⟩
    rw [h.node hv.has]
    exact .same fun p hp => ⟨rfl, hv.links hs p hp⟩
  same ha hb := .inl (by rw [ha.1, hb.1])
  ends hv := hv.2.ends hs
  depth := Nat.succ_le_succ h.cells.outlives.size_le
  has hv := hv.2.has
  has_mate hv := hv.1 ▸ h.has hv.2.has
  places := by
    rintro r _ ⟨⟨⟩, -⟩ hlt
    exact Nat.lt_of_lt_of_le hlt h.places
  order := by
    rintro r _ ⟨⟨⟩, hv⟩
    exact h.order r hv.has

/-- The correspondence of an earlier run and a later one on values without cycles. -/
def Correspondence.shifted (s t : Store) : Correspondence := .parallel s.Unchanged s t

/-- What has no cycles belongs to itself. -/
theorem Store.Grounded.knows {r : NodeRef} (h : s₀.Grounded (.node r)) (t₀ s : Store) :
    (Correspondence.shifted s₀ t₀).Knows s r := .known ⟨rfl, h⟩

theorem Joined.exact (hs : s₀.WellFormed) (h : s₀.Later t₀) {a a' b b' : Value}
    (ha : Joined s₀.Unchanged s₀ t₀ s a a') (hb : Joined s₀.Unchanged s₀ t₀ s b b') :
    a'.sameCell b' = a.sameCell b :=
  (ha.same_or (counterparts_of_later hs h) hb).elim id fun ⟨ha, hb⟩ => by rw [ha.1, hb.1]

/-- What starts from values without cycles can be read again on a later store. -/
theorem shifted_fit (hs₀ : s₀.WellFormed) (h₀ : s₀.Later t₀) :
    (Correspondence.shifted s₀ t₀).Fit where
  toLawful := parallel_lawful (counterparts_of_later hs₀ h₀)
  wellFormed h := h.wellFormed (counterparts_of_later hs₀ h₀) hs₀
  nodes_le {s t} h := by
    have hst : s.nodes.size = s₀.nodes.size := congrArg Array.size h.nodes
    exact hst ▸ (h₀.cells.trans h.second).outlives.nodes_le
  has h hr := h.has (counterparts_of_later hs₀ h₀) hr
  node h hr := by
    have hhas := hr.node.2.has
    rw [h.second.node (h₀.has hhas), h₀.node hhas, h.node_eq hhas]
  links h hr p hp := by
    have hr := hr.node.2
    rw [links_of_agree (h.first.agree hr.has)] at hp
    exact .known ⟨rfl, hr.links hs₀ p hp⟩
  ends h hr := endsWithin_nodes_of_parts (h.mates.ends hr)
  alike h hv := h.mates.alike hv
  form h hv := h.mates.form_eq hv
  sameNodes h hr hq := h.mates.sameNodes_eq (fun _ _ _ _ => Joined.exact hs₀ h₀) hr hq

end LiveTree
