import LiveTree.Proofs.Form.Copy
import LiveTree.Proofs.Store.Developing

/-! Setting the values of nodes to copies of their defaults, one node after another. What is copied
may hold nodes whose own values are set, so a default may come to hold something new; but it never
comes to hold anything of the copy that was made of it. As long as a default looks the way it did
when it was copied, it and its copy look the same. -/

namespace LiveTree

namespace Store

variable {s t u : Store} {r q : NodeRef} {v w p : Value} {n : ℕ}

/-! ### Setting a value -/

/-- Sets the value of a node. -/
def withValue (s : Store) (r : NodeRef) (v : Value) : Store :=
  s.modifyNode r fun n => { n with value := v }

theorem has_withValue : (s.withValue r v).Has p ↔ s.Has p := has_setNode r _

theorem node_withValue_self (hr : s.Has (.node r)) :
    (s.withValue r v).node r = { s.node r with value := v } :=
  node_setNode_self s r _ hr

theorem agree_withValue (hp : p ≠ .node r) : s.Agree (s.withValue r v) p := agree_setNode hp

theorem parts_withValue (hp : p ≠ .node r) : (s.withValue r v).parts p = s.parts p :=
  parts_of_agree (agree_withValue hp)

theorem node_withValue_of_ne (h : q ≠ r) : (s.withValue r v).node q = s.node q :=
  node_setNode_of_ne s _ h

theorem akin_withValue (s : Store) (r q : NodeRef) (v : Value) :
    (s.node q).Akin ((s.withValue r v).node q) := by
  by_cases e : q = r
  · subst e
    by_cases hq : s.Has (.node q)
    · rw [node_withValue_self hq]
      exact ⟨rfl, rfl, rfl⟩
    · rw [show (s.withValue q v).node q = s.node q from agree_setNode_of_not_has hq]
      exact .refl _
  · rw [node_withValue_of_ne e]
    exact .refl _

/-- Everything that is in a node of which at most the value has changed is the value or was there
before. -/
theorem mem_parts_of_value (h : t.node r = { s.node r with value := v })
    (hp : p ∈ t.parts (.node r)) : p = v ∨ p ∈ s.parts (.node r) := by
  rw [parts, h] at hp
  rcases Node.mem_parts hp with rfl | rfl | ⟨role, q, hq, rfl⟩
  · exact .inl rfl
  · exact .inr (s.node r).default_mem_parts
  · exact .inr ((s.node r).entry_mem_parts role hq)

theorem WellFormed.withValue (hs : s.WellFormed) (hr : s.Has (.node r)) (hv : s.Has v) :
    (s.withValue r v).WellFormed where
  has_links p hp q hq := by
    rw [has_withValue] at hp ⊢
    by_cases e : p = .node r
    · subst e
      rcases List.mem_cons.mp hq with rfl | hq
      · rw [node_withValue_self hr]
        exact hs.has_type hr
      · rcases mem_parts_of_value (node_withValue_self hr) hq with rfl | hq
        exacts [hv, hs.has_parts hr q hq]
    · rw [links_of_agree (agree_withValue e)] at hq
      exact hs.has_links p hp q hq
  kind_eq q hq := by
    have hakin := akin_withValue s r q v
    rw [hakin.kind, hs.kind_eq q (has_withValue.mp hq), typeOf, typeOf, hakin.type,
      (akin_withValue s r (s.node q).type v).id]
  builtin p hp := by
    obtain ⟨hhas, hid⟩ := hs.builtin p hp
    exact ⟨has_withValue.mpr hhas, (akin_withValue s r p.2 v).id.trans hid⟩

/-! ### One node -/

/-- Whether a store comes from another by setting the value of a node to a copy of its default. -/
def Renewed (s : Store) (r : NodeRef) (t : Store) : Prop :=
  ∃ v m, CopyOf s m (s.node r).default v ∧ s.Extends m ∧ m.WellFormed ∧ t = m.withValue r v

/-- Whether a value is a scalar or a cell that a store does not have, and no tuple. -/
def Fresh (s : Store) (v : Value) : Prop := v.cell? = none ∨ ¬ s.Has v ∧ ∀ q, v ≠ .tuple q

theorem not_fresh_node (hr : s.Has (.node r)) : ¬ s.Fresh (.node r) := by
  rintro (h | h)
  · cases h
  · exact h.1 hr

theorem Fresh.of_has (h : t.Fresh v) (hv : s.Has v → t.Has v) : s.Fresh v :=
  h.imp_right fun h => ⟨fun hhas => h.1 (hv hhas), h.2⟩

/-- A node without cycles is not reached from anything in it. -/
theorem not_reaches_of_mem_parts (hend : EndsWithin s.parts n (.node r))
    (hp : p ∈ s.parts (.node r)) : ¬ Reaches s.parts p (.node r) := fun h =>
  hend.not_cycle (Relation.TransGen.head' hp h)

namespace Renewed

section

variable (h : s.Renewed r t) (hs : s.WellFormed) (hr : s.Has (.node r))

include h

theorem has (hv : s.Has v) : t.Has v := by
  obtain ⟨_, m, -, he, -, rfl⟩ := h
  exact has_withValue.mpr (he.has hv)

theorem agree (hv : s.Has v) (hne : v ≠ .node r) : s.Agree t v := by
  obtain ⟨_, m, -, he, -, rfl⟩ := h
  exact (he.agree hv).trans (agree_withValue hne)

theorem node_of_ne (hq : s.Has (.node q)) (hne : q ≠ r) : t.node q = s.node q :=
  h.agree hq fun e => hne (Value.node.inj e)

theorem parts_of_ne (hv : s.Has v) (hne : v ≠ .node r) : t.parts v = s.parts v :=
  parts_of_agree (h.agree hv hne)

include hr

theorem node_self : ∃ v, t.node r = { s.node r with value := v } := by
  obtain ⟨v, m, -, he, -, rfl⟩ := h
  exact ⟨v, by rw [node_withValue_self (he.has hr), he.node hr]⟩

/-- All other fields of all nodes stay. -/
theorem node (hq : s.Has (.node q)) : ∃ v, t.node q = { s.node q with value := v } := by
  by_cases e : q = r
  · exact e ▸ h.node_self hr
  · exact ⟨(s.node q).value, h.node_of_ne hq e⟩

theorem keepsChildren : s.KeepsChildren t := fun q hq => by
  obtain ⟨v, hv⟩ := h.node hr hq
  exact ⟨h.has hq, by rw [hv]⟩

/-- Everything in the node is the new value or was in it before. -/
theorem mem_parts (hp : p ∈ t.parts (.node r)) : p = (t.node r).value ∨ p ∈ s.parts (.node r) := by
  obtain ⟨v, hv⟩ := h.node_self hr
  rcases mem_parts_of_value hv hp with rfl | hp
  exacts [.inl (by rw [hv]), .inr hp]

theorem outlives : s.Outlives t where
  has _ := h.has
  tuple q hq := h.agree hq nofun
  akin q hq := by
    obtain ⟨v, hv⟩ := h.node hr hq
    rw [hv]
    exact ⟨rfl, rfl, rfl⟩

include hs

theorem wellFormed : t.WellFormed := by
  obtain ⟨v, m, hcopy, he, hm, rfl⟩ := h
  exact hm.withValue (he.has hr) (hcopy.has he (hs.has_parts hr _ (s.node r).default_mem_parts))

omit hr in
/-- What does not lead to the node still leads to the same. -/
theorem reaches (hv : s.Has v) (hapart : ¬ Reaches s.parts v (.node r)) (hu : Reaches t.parts v w) :
    Reaches s.parts v w :=
  hu.closed (.refl v) fun x _ hx y hy => by
    rw [h.parts_of_ne (hs.has_reached hv hx) fun e => hapart (e ▸ hx)] at hy
    exact hx.below hy

/-- What does not lead to the node looks as it did. -/
theorem alike_of_apart (hv : s.Has v) (hend : EndsWithin s.parts n v)
    (hapart : ¬ Reaches s.parts v (.node r)) : Alike s t v v :=
  alike_of_agree hs (h.outlives hr) hend hv fun _ hu =>
    h.agree (hs.has_reached hv hu) fun e => hapart (e ▸ hu)

end

section Acyclic

variable (h : s.Renewed r t) (hs : s.WellFormed) (hr : s.Has (.node r))
  (hend : EndsWithin s.parts n (.node r))

include h hs hr hend

/-- The new value is a copy, as it was made, of the default. -/
theorem copied : ∃ m, CopyOf s m (s.node r).default (t.node r).value ∧ s.Extends m ∧
    s.Retains m t ∧ ∀ w, Reaches m.parts (t.node r).value w → t.parts w = m.parts w := by
  obtain ⟨v, m, hcopy, he, -, rfl⟩ := h
  have hdefault := hs.has_parts hr _ (s.node r).default_mem_parts
  have hapart : ¬ Reaches m.parts v (.node r) := fun hreach => by
    rcases hcopy.shared hs he hdefault hreach hr with hscalar | ⟨q, hq, htuple⟩
    · cases hscalar
    · exact not_reaches_of_mem_parts hend (s.node r).default_mem_parts (hq.trans htuple)
  rw [node_withValue_self (he.has hr)]
  exact ⟨m, hcopy, he, fun p hp => agree_withValue fun e => hp.1 (e ▸ hr),
    fun w hw => parts_withValue fun e => hapart (e ▸ hw)⟩

/-- If the default has no tuples, everything in the new value is new. -/
theorem fresh (htuples : ∀ q, ¬ Reaches s.parts (s.node r).default (.tuple q))
    (hw : Reaches t.parts (t.node r).value w) : s.Fresh w := by
  obtain ⟨m, hcopy, he, -, hsame⟩ := h.copied hs hr hend
  have hdefault := hs.has_parts hr _ (s.node r).default_mem_parts
  have hreach : Reaches m.parts (t.node r).value w :=
    hw.closed (.refl _) fun x _ hx y hy => hx.below (hsame x hx ▸ hy)
  rcases hcopy.reached hs he hdefault hreach with ⟨o, ho, hcopied⟩ | ⟨q, hq, -⟩
  · cases hcopied with
    | scalar hscalar => exact .inl hscalar
    | tuple q => exact absurd ho (htuples q)
    | list hnew => exact .inr ⟨hnew.1, nofun⟩
    | dict hnew => exact .inr ⟨hnew.1, nofun⟩
    | node hnew => exact .inr ⟨hnew.1, nofun⟩
  · exact absurd hq (htuples q)

/-- The new value looks like the default. -/
theorem alike_default : Alike s t (s.node r).default (t.node r).value := by
  obtain ⟨m, hcopy, -, hretains, -⟩ := h.copied hs hr hend
  obtain ⟨n, rfl⟩ := hend.pos
  have hbelow := hend _ (s.node r).default_mem_parts
  have hdefault := hs.has_parts hr _ (s.node r).default_mem_parts
  refine hcopy.alike hs (h.outlives hr) hretains hbelow hdefault fun q hq => ?_
  exact h.alike_of_apart hs hr (hs.has_reached hdefault hq) (hbelow.reaches hq) fun hreach =>
    not_reaches_of_mem_parts hend (s.node r).default_mem_parts (hq.trans hreach)

end Acyclic

section

variable (h : s.Renewed r t) (hs : s.WellFormed) (hr : s.Has (.node r))

include h hs hr

/-- Nothing gets deeper. -/
theorem endsWithin (hv : s.Has v) (hend : EndsWithin s.parts n v) : EndsWithin t.parts n v := by
  induction n generalizing v with
  | zero => exact hend.elim
  | succ n ih =>
    have below : ∀ p ∈ s.parts v, EndsWithin t.parts n p := fun p hp =>
      ih (hs.has_parts hv p hp) (hend p hp)
    by_cases e : v = .node r
    · subst e
      obtain ⟨m, hcopy, he, -, hsame⟩ := h.copied hs hr hend
      have hdefault := (s.node r).default_mem_parts
      have hvalue := hcopy.endsWithin hs he (hs.has_parts hr _ hdefault) (hend _ hdefault)
      intro p hp
      rcases h.mem_parts hr hp with rfl | hp
      exacts [hvalue.congr hsame, below p hp]
    · intro p hp
      rw [h.parts_of_ne hv e] at hp
      exact below p hp

/-- If the node's new value looks like the one that it had, everything looks as it did. -/
theorem alike (hvalue : Alike s t (s.node r).value (t.node r).value) (hv : s.Has v)
    (hend : EndsWithin s.parts n v) : Alike s t v v := by
  induction n generalizing v with
  | zero => exact hend.elim
  | succ n ih =>
    have below : ∀ p ∈ s.parts v, Alike s t p p := fun p hp =>
      ih (hs.has_parts hv p hp) (hend p hp)
    by_cases e : v = .node r
    · subst e
      obtain ⟨v', hnode⟩ := h.node_self hr
      have htype : (t.typeOf r).id = (s.typeOf r).id := by
        rw [typeOf, hnode]
        exact ((h.outlives hr).akin _ (hs.has_type hr)).id
      have hentries : ∀ role, (t.node r).entries role = (s.node r).entries role := fun role => by
        rw [hnode]
        cases role <;> rfl
      refine .node (by rw [hnode]) htype (by rw [hnode]) hvalue ?_ (fun role => by rw [hentries])
        fun role => ?_
      · rw [hnode]
        exact below _ (s.node r).default_mem_parts
      · rw [hentries]
        exact List.forall₂_same.mpr fun q hq => below _ ((s.node r).entry_mem_parts role hq)
    · exact alike_of_parts hs (h.outlives hr) hv (h.agree hv e) below

end

end Renewed

/-! ### Several nodes -/

/-- Whether a store comes from another by renewing some nodes, what is new in the value of each is
in no other, and the rest is as it was. -/
structure Renewing (s : Store) (done : NodeRef → Prop) (t : Store) : Prop where
  wellFormed : t.WellFormed
  has : ∀ v, s.Has v → t.Has v
  agree : ∀ v, s.Has v → (∀ r, done r → v ≠ .node r) → s.Agree t v
  node : ∀ r, s.Has (.node r) → ∃ v, t.node r = { s.node r with value := v }
  endsWithin : ∀ n v, s.Has v → EndsWithin s.parts n v → EndsWithin t.parts n v
  fresh : ∀ r, done r → ∀ v, Reaches t.parts (t.node r).value v → s.Fresh v
  separate : ∀ r q, done r → done q → r ≠ q → ∀ v, Reaches t.parts (t.node r).value v →
    Reaches t.parts (t.node q).value v → v.cell? = none

namespace Renewing

variable {done : NodeRef → Prop}

theorem refl (hs : s.WellFormed) : Renewing s (fun _ => False) s :=
  ⟨hs, fun _ h => h, fun _ _ _ => Agree.refl _, fun r _ => ⟨(s.node r).value, rfl⟩,
    fun _ _ _ h => h, nofun, nofun⟩

variable (h : Renewing s done t)

include h

theorem congr {done' : NodeRef → Prop} (hsame : ∀ r, done' r ↔ done r) : Renewing s done' t := by
  obtain rfl : done' = done := funext fun r => propext (hsame r)
  exact h

theorem default_eq (hr : s.Has (.node r)) : (t.node r).default = (s.node r).default := by
  obtain ⟨v, hv⟩ := h.node r hr
  rw [hv]

theorem mem_parts (hr : s.Has (.node r)) (hp : p ∈ t.parts (.node r)) :
    p = (t.node r).value ∨ p ∈ s.parts (.node r) := by
  obtain ⟨v, hv⟩ := h.node r hr
  rcases mem_parts_of_value hv hp with rfl | hp
  exacts [.inl (by rw [hv]), .inr hp]

/-- What is reached was reached before, or is in the new value of a node that was. -/
theorem reached (hs : s.WellFormed) (hv : s.Has v) (hw : Reaches t.parts v w) :
    s.Has w ∧ Reaches s.parts v w ∨
      ∃ r, done r ∧ Reaches s.parts v (.node r) ∧ Reaches t.parts (t.node r).value w := by
  refine hw.closed (P := fun w => s.Has w ∧ Reaches s.parts v w ∨
    ∃ r, done r ∧ Reaches s.parts v (.node r) ∧ Reaches t.parts (t.node r).value w)
    (.inl ⟨hv, .refl v⟩) ?_
  rintro x - (⟨hx, hreach⟩ | ⟨r, hr, hreach, hvalue⟩) y hy
  · by_cases hrenewed : ∃ r, done r ∧ x = .node r
    · obtain ⟨r, hr, rfl⟩ := hrenewed
      rcases h.mem_parts hx hy with rfl | hy
      · exact .inr ⟨r, hr, hreach, .refl _⟩
      · exact .inl ⟨hs.has_parts hx y hy, hreach.below hy⟩
    · rw [parts_of_agree (h.agree x hx fun r hr e => hrenewed ⟨r, hr, e⟩)] at hy
      exact .inl ⟨hs.has_parts hx y hy, hreach.below hy⟩
  · exact .inr ⟨r, hr, hreach, hvalue.below hy⟩

/-- No new way leads to a node that was there. -/
theorem reaches_node (hs : s.WellFormed) (hv : s.Has v) (hr : s.Has (.node r))
    (hreach : Reaches t.parts v (.node r)) : Reaches s.parts v (.node r) := by
  rcases h.reached hs hv hreach with ⟨-, hreach⟩ | ⟨q, hq, -, hvalue⟩
  · exact hreach
  · exact absurd (h.fresh q hq _ hvalue) (not_fresh_node hr)

/-- Nor to a tuple. -/
theorem reaches_tuple (hs : s.WellFormed) (hv : s.Has v) {q : TupleRef}
    (hreach : Reaches t.parts v (.tuple q)) : Reaches s.parts v (.tuple q) := by
  rcases h.reached hs hv hreach with ⟨-, hreach⟩ | ⟨r, hr, -, hvalue⟩
  · exact hreach
  · rcases h.fresh r hr _ hvalue with hscalar | hnew
    · cases hscalar
    · exact absurd rfl (hnew.2 q)

/-- The new value of a node and its default have scalars only in common. -/
theorem apart (hs : s.WellFormed) (hr : s.Has (.node r)) (hdone : done r)
    (hend : EndsWithin s.parts n (.node r)) (hvalue : Reaches t.parts (t.node r).value w)
    (hdefault : Reaches t.parts (t.node r).default w) : w.cell? = none := by
  rw [h.default_eq hr] at hdefault
  have hmem := (s.node r).default_mem_parts
  rcases h.reached hs (hs.has_parts hr _ hmem) hdefault with ⟨hw, -⟩ | ⟨q, hq, hreach, hother⟩
  · exact (h.fresh r hdone w hvalue).resolve_right fun hnew => hnew.1 hw
  · refine h.separate r q hdone hq (fun e => ?_) w hvalue hother
    exact not_reaches_of_mem_parts hend hmem (e ▸ hreach)

section

variable {u : Store} (hu : t.Renewed r u) (hs : s.WellFormed) (hr : s.Has (.node r))

include hu hs hr

omit hs in
/-- The value of a renewed node stays apart from the nodes that were there. -/
theorem reaches_value (hq : s.Has (.node q)) (hdone : done q) (hne : q ≠ r)
    (hw : Reaches u.parts (u.node q).value w) : Reaches t.parts (t.node q).value w := by
  rw [hu.node_of_ne (h.has _ hq) hne] at hw
  refine hu.reaches h.wellFormed (h.wellFormed.has_parts (h.has _ hq) _ (t.node q).value_mem_parts)
    (fun hreach => ?_) hw
  exact not_fresh_node hr (h.fresh q hdone _ hreach)

/-- Renewing one more node. -/
theorem step (hdone : ∀ q, done q → s.Has (.node q)) (hend : EndsWithin s.parts n (.node r))
    (htuples : ∀ q, ¬ Reaches s.parts (s.node r).default (.tuple q)) :
    Renewing s (fun q => q = r ∨ done q) u := by
  have ht := h.wellFormed
  have hrt := h.has _ hr
  have hendt := h.endsWithin n _ hr hend
  have hdefault := hs.has_parts hr _ (s.node r).default_mem_parts
  have hfresh : ∀ v, Reaches u.parts (u.node r).value v → t.Fresh v := fun v =>
    hu.fresh ht hrt hendt fun q hq => htuples q (h.reaches_tuple hs hdefault (h.default_eq hr ▸ hq))
  have hold : ∀ q, done q → q ≠ r → ∀ v, Reaches u.parts (u.node q).value v →
      Reaches t.parts (t.node q).value v := fun q hq hne v =>
    h.reaches_value hu hr (hdone q hq) hq hne
  have hapart : ∀ q, done q → q ≠ r → ∀ v, Reaches u.parts (u.node r).value v →
      Reaches u.parts (u.node q).value v → v.cell? = none := fun q hq hne v hv hvq =>
    (hfresh v hv).resolve_right fun hnew => hnew.1 <| ht.has_reached
      (ht.has_parts (h.has _ (hdone q hq)) _ (t.node q).value_mem_parts) (hold q hq hne v hvq)
  refine ⟨hu.wellFormed ht hrt, fun v hv => hu.has (h.has v hv), fun v hv hne => ?_, fun q hq => ?_,
    fun n v hv hend => hu.endsWithin ht hrt (h.has v hv) (h.endsWithin n v hv hend), ?_, ?_⟩
  · exact (h.agree v hv fun q hq => hne q (.inr hq)).trans (hu.agree (h.has v hv) (hne r (.inl rfl)))
  · obtain ⟨v, hv⟩ := h.node q hq
    obtain ⟨v', hv'⟩ := hu.node hrt (h.has _ hq)
    exact ⟨v', by rw [hv', hv]⟩
  · intro q hq v hv
    by_cases e : q = r
    · subst e
      exact (hfresh v hv).of_has (h.has v)
    · have hq := hq.resolve_left e
      exact h.fresh q hq v (hold q hq e v hv)
  · intro a b ha hb hne v hva hvb
    by_cases ea : a = r
    · subst ea
      have hne := hne.symm
      exact hapart b (hb.resolve_left hne) hne v hva hvb
    by_cases eb : b = r
    · subst eb
      exact hapart a (ha.resolve_left ea) ea v hvb hva
    have ha := ha.resolve_left ea
    have hb := hb.resolve_left eb
    exact h.separate a b ha hb hne v (hold a ha ea v hva) (hold b hb eb v hvb)

end

end Renewing

/-- Whether the value of each of some nodes looks like its default. -/
def Matching (t : Store) (done : NodeRef → Prop) : Prop :=
  ∀ r, done r → Alike t t (t.node r).default (t.node r).value

section

variable {done : NodeRef → Prop} (h : Renewing s done t) (hu : t.Renewed r u) (hs : s.WellFormed)
  (hr : s.Has (.node r)) (hend : EndsWithin s.parts n (.node r)) (hmatch : t.Matching done)

include h hu hs hr hend

omit hs in
include hmatch in
/-- Renewing a node again changes the looks of nothing. -/
theorem Renewing.alike_again (hdone : done r) (hv : s.Has v) {k : ℕ}
    (hendv : EndsWithin s.parts k v) : Alike t u v v := by
  have hrt := h.has _ hr
  have hendt := h.endsWithin n _ hr hend
  obtain ⟨n, rfl⟩ := hendt.pos
  have hvalue : Alike t u (t.node r).value (u.node r).value :=
    Alike.of_common (hendt _ (t.node r).default_mem_parts) (hmatch r hdone)
      (hu.alike_default h.wellFormed hrt hendt)
  exact hu.alike h.wellFormed hrt hvalue (h.has v hv) (h.endsWithin k v hv hendv)

/-- The values still look like the defaults when one more is set, as long as it is set again or none
of the defaults leads to its node. -/
theorem Matching.step (hends : ∀ q, done q → s.Has (.node q) ∧ EndsWithin s.parts n (.node q))
    (hlater : done r ∨ ∀ q, done q → ¬ Reaches s.parts (s.node q).default (.node r))
    (hmatch : t.Matching done) : u.Matching fun q => q = r ∨ done q := by
  have ht := h.wellFormed
  have hrt := h.has _ hr
  have hendt := h.endsWithin n _ hr hend
  -- what looked the same as itself and as a value keeps doing so
  have hcarry : ∀ {d v}, (∃ n, EndsWithin t.parts n d) → (∃ n, EndsWithin t.parts n v) →
      Alike t t d v → Alike t u d d → Alike t u v v → Alike u u d v :=
    fun ⟨_, hd⟩ ⟨_, hv⟩ hdv hdd hvv => .of_common hv (.of_common hd hdv hdd) hvv
  intro q hq
  by_cases e : q = r
  · subst e
    obtain ⟨k, hk⟩ := hendt.pos
    subst hk
    have hmem := (t.node q).default_mem_parts
    have hdefault : (u.node q).default = (t.node q).default := by
      obtain ⟨v, hv⟩ := hu.node_self hrt
      rw [hv]
    rw [hdefault]
    refine .of_common (hendt _ hmem) ?_ (hu.alike_default ht hrt hendt)
    exact hu.alike_of_apart ht hrt (ht.has_parts hrt _ hmem) (hendt _ hmem)
      (not_reaches_of_mem_parts hendt hmem)
  have hdone := hq.resolve_left e
  obtain ⟨hqs, hendq⟩ := hends q hdone
  have hqt := h.has _ hqs
  have hendq := h.endsWithin n _ hqs hendq
  obtain ⟨n, rfl⟩ := hendq.pos
  have hmemd := (t.node q).default_mem_parts
  have hmemv := (t.node q).value_mem_parts
  rw [hu.node_of_ne hqt e]
  refine hcarry ⟨_, hendq _ hmemd⟩ ⟨_, hendq _ hmemv⟩ (hmatch q hdone) ?_ ?_
  · rcases hlater with hagain | hlater
    · have hds := hs.has_parts hqs _ (s.node q).default_mem_parts
      rw [h.default_eq hqs]
      exact h.alike_again hu hr hend hmatch hagain hds
        ((hends q hdone).2 _ (s.node q).default_mem_parts)
    · refine hu.alike_of_apart ht hrt (ht.has_parts hqt _ hmemd) (hendq _ hmemd) fun hreach => ?_
      rw [h.default_eq hqs] at hreach
      exact hlater q hdone
        (h.reaches_node hs (hs.has_parts hqs _ (s.node q).default_mem_parts) hr hreach)
  · exact hu.alike_of_apart ht hrt (ht.has_parts hqt _ hmemv) (hendq _ hmemv) fun hreach =>
      not_fresh_node hr (h.fresh q hdone _ hreach)

end

/-! ### One after another -/

/-- Whether a store comes from another by renewing some nodes in turn. -/
inductive Renewals : Store → List NodeRef → Store → Prop
  | nil (s : Store) : Renewals s [] s
  | cons {s t u : Store} {r : NodeRef} {rs : List NodeRef} (h : s.Renewed r t)
      (hrest : Renewals t rs u) : Renewals s (r :: rs) u

/-- Whether the default of each of some nodes leads to no other one of them than those that come
before. -/
def InOrder (s : Store) (rs : List NodeRef) : Prop :=
  ∀ before r after, rs = before ++ r :: after →
    ∀ q ∈ rs, Reaches s.parts (s.node r).default (.node q) → q ∈ before

namespace Renewals

theorem append {rs rs' : List NodeRef} (h : Renewals s rs t) (h' : Renewals t rs' u) :
    Renewals s (rs ++ rs') u := by
  induction h with
  | nil => exact h'
  | cons hfirst _ ih => exact .cons hfirst (ih h')

variable {rs done rest : List NodeRef}

/-- What renewing does to some nodes, of which a few have been renewed before. -/
theorem renewing (hs : s.WellFormed)
    (hends : ∀ r ∈ rs, s.Has (.node r) ∧ EndsWithin s.parts n (.node r))
    (htuples : ∀ r ∈ rs, ∀ q, ¬ Reaches s.parts (s.node r).default (.tuple q))
    (hrs : rs = done ++ rest) (h : Renewing s (· ∈ done) t) (hrest : Renewals t rest u) :
    Renewing s (· ∈ rs) u ∧
      (s.InOrder rs → t.Matching (· ∈ done) → u.Matching (· ∈ rs)) := by
  induction hrest generalizing done with
  | nil =>
    rw [List.append_nil] at hrs
    subst hrs
    exact ⟨h, fun _ hmatch => hmatch⟩
  | @cons t t' u r rest hr _ ih =>
    have hmem : r ∈ rs := by simp [hrs]
    have hdone : ∀ q ∈ done, q ∈ rs := fun q hq => by simp [hrs, hq]
    have hsame : ∀ q, q ∈ done ++ [r] ↔ q = r ∨ q ∈ done := fun q => by simp [or_comm]
    have hstep := h.step hr hs (hends r hmem).1 (fun q hq => (hends q (hdone q hq)).1)
      (hends r hmem).2 (htuples r hmem)
    obtain ⟨hrenewing, hmatching⟩ := ih (by simp [hrs]) (hstep.congr hsame)
    refine ⟨hrenewing, fun horder hmatch => hmatching horder fun q hq => ?_⟩
    refine Matching.step h hr hs (hends r hmem).1 (hends r hmem).2 (fun q hq => hends q (hdone q hq))
      ?_ hmatch q ((hsame q).mp hq)
    -- a default that led to a node to come would be out of order
    by_cases hagain : r ∈ done
    · exact .inl hagain
    refine .inr fun q hq hreach => hagain ?_
    obtain ⟨before, after, rfl⟩ := List.append_of_mem hq
    exact List.mem_append_left _ (horder before q (after ++ r :: rest) (by simp [hrs]) r hmem hreach)

/-- Renewing nodes once more changes the looks of nothing. -/
theorem alike_again (hs : s.WellFormed)
    (hends : ∀ r ∈ rs, s.Has (.node r) ∧ EndsWithin s.parts n (.node r))
    (htuples : ∀ r ∈ rs, ∀ q, ¬ Reaches s.parts (s.node r).default (.tuple q))
    (h : Renewing s (· ∈ rs) t) (hmatch : t.Matching (· ∈ rs)) (hrest : Renewals t rest u)
    (hsub : ∀ r ∈ rest, r ∈ rs) :
    t.Outlives u ∧ ∀ v k, s.Has v → EndsWithin s.parts k v → Alike t u v v := by
  induction hrest with
  | nil t => exact ⟨Extends.refl.outlives, fun v k hv hend => .refl (h.endsWithin k v hv hend)⟩
  | @cons t t' u r rest hr _ ih =>
    obtain ⟨hmem, hsub⟩ := List.forall_mem_cons.mp hsub
    obtain ⟨hrs, hend⟩ := hends r hmem
    have hsame : ∀ q, q ∈ rs ↔ q = r ∨ q ∈ rs := fun q =>
      ⟨.inr, fun hq => hq.elim (fun e => e ▸ hmem) id⟩
    have hstep := (h.step hr hs hrs (fun q hq => (hends q hq).1) hend (htuples r hmem)).congr hsame
    obtain ⟨houtlives, hlike⟩ := ih hstep (fun q hq => Matching.step h hr hs hrs hend hends
      (.inl hmem) hmatch q ((hsame q).mp hq)) hsub
    refine ⟨(hr.outlives (h.has _ hrs)).trans houtlives, fun v k hv hend' => ?_⟩
    exact .trans (h.endsWithin k v hv hend') (hstep.endsWithin k v hv hend')
      (h.alike_again hr hrs hend hmatch hmem hv hend') (hlike v k hv hend')

end Renewals

end Store

end LiveTree
