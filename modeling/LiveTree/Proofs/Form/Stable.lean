import LiveTree.Proofs.Form.Settled

/-! Loading and saving again. The form of a node is data of the interchange format itself, and what
is loaded of it is settled again. So from the first time on that data is loaded, nothing
changes any more. -/

namespace LiveTree

open Store

variable {ν : Type} {s t : Store} {v : Value}

/-! ### Forms are of the interchange format -/

theorem Data.optional_sublist (name : String) (d : Data ν) :
    ((Data.optional name d).map Prod.fst).Sublist [name] := by
  cases d <;> simp [optional]

theorem Data.optionalMap_sublist (role : Role) (es : List (String × Data ν)) :
    ((Data.optionalMap role es).map Prod.fst).Sublist [role.name] := by
  rw [optionalMap]
  split <;> simp

section Fields

variable {id typeId : String} {value default : Data ν} {maps : Role → List (String × Data ν)}

/-- No two fields of a serialized node have the same name. -/
theorem nodup_nodeFields : ((nodeFields id typeId value default maps).map Prod.fst).Nodup := by
  have hroles : ((Role.all.flatMap fun role => Data.optionalMap role (maps role)).map
      Prod.fst).Sublist (Role.all.map Role.name) := by
    simp only [Role.all, List.flatMap_cons, List.flatMap_nil, List.map_append, List.map_cons]
    exact (Data.optionalMap_sublist _ _).append <| (Data.optionalMap_sublist _ _).append <|
      (Data.optionalMap_sublist _ _).append (List.Sublist.refl _)
  have hfields : ((nodeFields id typeId value default maps).map Prod.fst).Sublist
      (["id", "type"] ++ ["value"] ++ ["defaultValue"] ++ Role.all.map Role.name) := by
    simp only [nodeFields, List.map_append]
    exact (((List.Sublist.refl _).append (Data.optional_sublist _ _)).append
      (Data.optional_sublist _ _)).append hroles
  exact hfields.nodup (by decide)

theorem Data.Interchange.nodeFields (hvalue : value.Interchange) (hdefault : default.Interchange)
    (hmaps : ∀ role, (Data.dict (maps role)).Interchange) :
    (Data.dict (LiveTree.nodeFields id typeId value default maps)).Interchange := by
  have hoptional : ∀ {name : String} {d : Data ν}, d.Interchange →
      ∀ e ∈ Data.optional name d, e.2.Interchange := fun hd e he => by
    cases hd <;> simp only [optional, List.not_mem_nil, List.mem_singleton] at he <;> subst he
    · exact .bool _
    · exact .int _
    · exact .float ‹_›
    · exact .str _
    · exact .list ‹_›
    · exact .dict ‹_› ‹_›
  have htype : (Data.dict [("id", (.str typeId : Data ν))]).Interchange :=
    .dict (List.nodup_singleton _) (by simpa using .str typeId)
  refine .dict nodup_nodeFields fun e he => ?_
  simp only [LiveTree.nodeFields, List.mem_append, List.mem_cons, List.not_mem_nil, or_false,
    List.mem_flatMap] at he
  rcases he with (((rfl | rfl) | he) | he) | ⟨role, -, he⟩
  · exact .str id
  · exact htype
  · exact hoptional hvalue e he
  · exact hoptional hdefault e he
  · rw [optionalMap] at he
    split at he
    · cases he
    · obtain rfl := List.mem_singleton.mp he
      exact hmaps role

end Fields

/-- The form of a value in which no number is not a number is data of the interchange format. -/
theorem FormOf.interchange {n : ℕ} (hend : EndsWithin s.parts n v)
    (hnan : ∀ u, Reaches s.parts v u → ¬ u.IsNaN) {d : Data ν} (h : FormOf s v d) :
    d.Interchange := by
  induction n generalizing v d with
  | zero => exact hend.elim
  | succ n ih =>
    have below : ∀ p ∈ s.parts v, ∀ {d : Data ν}, FormOf s p d → d.Interchange := fun p hp =>
      ih (hend p hp) fun u hu => hnan u (hu.of_below hp)
    cases h with
    | none => exact .null
    | bool b => exact .bool b
    | int i => exact .int i
    | str t => exact .str t
    | float x => exact .float fun hx => hnan _ (.refl _) ⟨x, rfl, hx⟩
    | sequence hxs h =>
      refine .list fun d hd => ?_
      obtain ⟨p, hp, hform⟩ := exists_partner h.flip d hd
      exact below p (parts_of_sequence hxs ▸ hp) hform
    | @dict r es hkeys h =>
      refine .dict (hkeys ▸ (s.dict r).nodup) fun e he => ?_
      obtain ⟨p, hp, hform⟩ := exists_partner h.flip e.2 (List.mem_map_of_mem he)
      exact below p hp hform
    | @node r value default maps hvalue hdefault hkeys h =>
      refine .nodeFields (below _ (s.node r).value_mem_parts hvalue)
        (below _ (s.node r).default_mem_parts hdefault) fun role => ?_
      refine .dict (hkeys role ▸ ((s.node r).entries role).nodup) fun e he => ?_
      obtain ⟨q, hq, hform⟩ := exists_partner (h role).flip e.2 (List.mem_map_of_mem he)
      exact below _ ((s.node r).entry_mem_parts role hq) hform

/-- Whatever is accepted as a node, saving the node and loading it again, then or in any later
store, with whatever types known, gives a node that is structurally equal, place by place of the same
kinds, and serializes to the same form. -/
theorem deserialize_stabilizes (hs : s.WellFormed) {types : TypeTable} (htypes : types.Sound s)
    {p : Data NodeRef} (hp : p.Interchange) {r : NodeRef} (hr : deserialize p types s = .ok r t) :
    t.WellFormed ∧ ∃ d, t.nodeForm r = .ok d ∧
      ∀ (u : Store) (types' : TypeTable), t.Extends u → u.WellFormed → types'.Sound u →
        ∃ r' u', deserialize d types' u = .ok r' u' ∧ u.Extends u' ∧ u'.WellFormed ∧
          u'.sameNodes r r' = .ok true ∧ Alike u' u' (.node r) (.node r') ∧
          (u'.nodeForm r' : Except Fault (Data NodeRef)) = .ok d := by
  obtain ⟨-, ht, hsettled⟩ := deserialize_settles hs htypes hp hr
  have hnode := hsettled t .refl
  have hend := ht.endsWithin hnode.has hnode.acyclic
  obtain ⟨d, hd, hform⟩ := ht.form_exists (ν := NodeRef) hnode.has hnode.acyclic
  refine ⟨ht, d, hform, fun u types' htu hu htypes' => ?_⟩
  have hnode' := hsettled u htu
  have hend' := hu.endsWithin hnode'.has hnode'.acyclic
  obtain ⟨d', hd', -⟩ := hu.form_exists (ν := NodeRef) hnode'.has hnode'.acyclic
  -- the form has not changed since
  obtain rfl : d' = d := by
    have halike := (Alike.refl hend).of_extends ht htu hnode.has hend
    have heq := halike.formTo_eq (ν := NodeRef) (max t.depthBound u.depthBound)
    rw [hd.formTo_eq (hend.mono (Nat.le_max_left _ _)),
      hd'.formTo_eq (hend'.mono (Nat.le_max_right _ _))] at heq
    exact (Except.ok.inj heq).symm
  have hnan : ∀ x, Reaches u.parts (.node r) x → ¬ x.IsNaN := fun x hx => by
    cases hnode'.reached hx
    assumption
  obtain ⟨r', u', hrun, hext, hsame, halike, hform'⟩ :=
    deserialize_form hu (hnode'.recoverable hu) hnan hd' htypes'
  have hu' := (deserialize_settles hu htypes' (hd'.interchange hend' hnan) hrun).2.1
  exact ⟨r', u', hrun, hext, hu', hsame, halike, hform'⟩

/-- A node with a field of no meaning, an empty map, a default under its other name, and a value in
which one dictionary stands for a node and another only almost does. -/
def Data.cluttered : Data NodeRef :=
  .dict [("id", .str "r"), ("type", .dict [("id", .str "Port"), ("note", .null)]),
    ("value", .list [.dict [("id", .str "x"), ("type", .dict [("id", .str "T")]), ("value", .null)],
      .dict [("id", .str "y"), ("type", .str "T")]]),
    ("default_value", .bool true), ("metadata", .dict []), ("extra", .int 1)]

theorem Data.cluttered_interchange : cluttered.Interchange := by
  have hnode : (Data.dict [("id", .str "x"), ("type", .dict [("id", (.str "T" : Data NodeRef))]),
      ("value", .null)]).Interchange := by
    refine .dict (by decide) ?_
    simpa using ⟨.str "x", .dict (by decide) (by simpa using .str "T"), .null⟩
  have halmost : (Data.dict [("id", (.str "y" : Data NodeRef)), ("type", .str "T")]).Interchange :=
    .dict (by decide) (by simpa using ⟨.str "y", .str "T"⟩)
  have htype : (Data.dict [("id", (.str "Port" : Data NodeRef)), ("note", .null)]).Interchange :=
    .dict (by decide) (by simpa using ⟨.str "Port", .null⟩)
  refine .dict (by decide) ?_
  simpa using ⟨.str "r", htype, .list (by simpa using ⟨hnode, halmost⟩), .bool true,
    .dict (by decide) (by simp), .int 1⟩

theorem cluttered_stabilizes : ∃ r t d, deserialize .cluttered (.withTypes initial []) initial =
      .ok r t ∧ t.nodeForm r = .ok d ∧
    ∃ r' u, deserialize d (.withTypes t []) t = .ok r' u ∧ u.sameNodes r r' = .ok true ∧
      Alike u u (.node r) (.node r') ∧ (u.nodeForm r' : Except Fault (Data NodeRef)) = .ok d := by
  have hrun : ∃ r t, deserialize .cluttered (.withTypes initial []) initial = .ok r t :=
    ⟨_, _, rfl⟩
  obtain ⟨r, t, hrun⟩ := hrun
  obtain ⟨ht, d, hd, hpass⟩ := deserialize_stabilizes initial_wellFormed
    (.withTypes initial_wellFormed (by simp)) Data.cluttered_interchange hrun
  obtain ⟨r', u, hrun', -, -, hsame, halike, hform⟩ :=
    hpass t (.withTypes t []) .refl ht (.withTypes ht (by simp))
  exact ⟨r, t, d, hrun, hd, r', u, hrun', hsame, halike, hform⟩

end LiveTree
