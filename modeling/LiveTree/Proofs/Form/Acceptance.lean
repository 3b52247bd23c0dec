import LiveTree.Form.Decode
import LiveTree.Proofs.Descent
import LiveTree.Proofs.Form.Schema
import LiveTree.Proofs.Keeping

/-! What is accepted as a serialized node. The maps are checked against the schema when the data is
read; what stands for a node inside a value is checked when the value is rebuilt. Between them they
accept exactly the data that has the shape of a node all the way down. -/

namespace LiveTree

variable {α β ν : Type}

/-- What stands directly inside a value, given the dictionaries whose entries count. -/
def Data.inner (through : Data ν → Bool) : Data ν → List (Data ν)
  | .list items => items
  | .dict es => if through (.dict es) then es.map Prod.snd else []
  | _ => []

/-- The least predicate such that data satisfies it that has a text as `id` and a dictionary with a
text as `id` as `type`, if its maps, where they are there, are dictionaries of data that satisfies it
and all that stands for a node inside its value and its default satisfies it. Inside values, it goes
through lists and through those dictionaries whose entries count. -/
inductive Data.NodeShaped (through : Data ν → Bool) : Data ν → Prop
  | mk {es : List (String × Data ν)} (hids : (Data.dict es).standsForNode = true)
      (hmaps : ∀ (role : Role) m, (Data.dict es).get? role.name = some m →
        ∃ entries, m = .dict entries)
      (hentries : ∀ (role : Role) entries, (Data.dict es).get? role.name = some (.dict entries) →
        ∀ e ∈ entries, NodeShaped through e.2)
      (hvalue : ∀ d, Reaches (Data.inner through) (Payload.anyField "value" (.dict es)) d →
        d.standsForNode = true → NodeShaped through d)
      (hdefault : ∀ d, Reaches (Data.inner through) (Payload.defaultField (.dict es)) d →
        d.standsForNode = true → NodeShaped through d) : NodeShaped through (.dict es)

namespace Data

/-- Whether data does not stand for a node. Only such dictionaries are gone through when a value is
rebuilt; of one that stands for a node, the fields are read. -/
def plainDict (d : Data ν) : Bool := !d.standsForNode

/-- Whether all that stands for a node at or inside a value is shaped like one. -/
def ShapedWithin (through : Data ν → Bool) (v : Data ν) : Prop :=
  ∀ d, Reaches (inner through) v d → d.standsForNode = true → d.NodeShaped through

theorem nodeShaped_iff {through : Data ν → Bool} {d : Data ν} :
    d.NodeShaped through ↔ d.HasShape (ShapedWithin through) := by
  constructor
  · intro h
    induction h with
    | mk hids hmaps _ hvalue hdefault ih => exact .mk hids hmaps ih hvalue hdefault
  · intro h
    induction h with
    | mk hids hmaps _ hvalue hdefault ih => exact .mk hids hmaps ih hvalue hdefault

theorem shapedWithin_iff {through : Data ν → Bool} {v : Data ν} :
    v.ShapedWithin through ↔ (v.standsForNode = true → v.NodeShaped through) ∧
      ∀ d ∈ v.inner through, d.ShapedWithin through := Reaches.forall_iff

end Data

/-! ### Succeeding and failing -/

/-- Whether an operation succeeds, whatever the store and the types, if a condition holds, and is
refused with a list of issues if not. -/
def Accepts (m : RebuildM α) (p : Prop) : Prop :=
  ∀ (table : TypeTable) (s : Store), (p ∧ ∃ a t, m table s = .ok a t) ∨
    (¬ p ∧ ∃ issues t, m table s = .error (.invalid issues) t)

namespace Accepts

variable {p q : Prop}

theorem congr {m : RebuildM α} (h : Accepts m p) (hpq : p ↔ q) : Accepts m q :=
  propext hpq ▸ h

theorem pure (a : α) : Accepts (Pure.pure a) True := fun table s => .inl ⟨trivial, (a, table), s, rfl⟩

theorem bind {m : RebuildM α} {k : α → RebuildM β} (hm : Accepts m p) (hk : ∀ a, Accepts (k a) q) :
    Accepts (m >>= k) (p ∧ q) := by
  intro table s
  rcases hm table s with ⟨hp, ⟨a, table'⟩, t, hma⟩ | ⟨hp, issues, t, hma⟩
  · rcases hk a table' t with ⟨hq, b, u, hkb⟩ | ⟨hq, issues, u, hkb⟩
    · exact .inl ⟨⟨hp, hq⟩, b, u, (bind_of_ok hma _).trans hkb⟩
    · exact .inr ⟨fun h => hq h.2, issues, u, (bind_of_ok hma _).trans hkb⟩
  · exact .inr ⟨fun h => hp h.1, issues, t, bind_of_error hma _⟩

/-- What is done with a result does not fail. -/
theorem followed {m : RebuildM α} {k : α → RebuildM β} (hm : Accepts m p)
    (hk : ∀ a, Accepts (k a) True) : Accepts (m >>= k) p :=
  (hm.bind hk).congr (iff_of_eq (and_true p))

theorem mapM {f : α → RebuildM β} {P : α → Prop} {l : List α} (h : ∀ a ∈ l, Accepts (f a) (P a)) :
    Accepts (l.mapM f) (∀ a ∈ l, P a) := by
  induction l with
  | nil => exact (pure []).congr (by simp)
  | cons a rest ih =>
    obtain ⟨hfirst, hrest⟩ := List.forall_mem_cons.mp h
    rw [List.mapM_cons, List.forall_mem_cons]
    exact hfirst.bind fun _ => (ih hrest).followed fun _ => pure _

theorem update (f : Store → α × Store) : Accepts (StoreM.update f : RebuildM α) True :=
  fun table s => .inl ⟨trivial, ((f s).1, table), (f s).2, rfl⟩

theorem typeNode (id : String) : Accepts (RebuildM.typeNode id) True := by
  intro table s
  refine .inl ⟨trivial, ?_⟩
  rw [RebuildM.typeNode, RebuildM.get_bind]
  cases table.get? id with
  | some r => exact ⟨_, _, rfl⟩
  | none => exact ⟨_, _, rfl⟩

end Accepts

/-! ### Nodes -/

section Nodes

variable {value : Data NodeRef → RebuildM Value} {V : Data NodeRef → Prop}

theorem accepts_rebuildEntries {ps : List (String × Payload NodeRef)}
    (h : ∀ q ∈ ps, Accepts (q.2.rebuild value) (q.2.Holds V)) :
    Accepts (Payload.rebuildEntries value ps) (∀ q ∈ ps, q.2.Holds V) := by
  induction ps with
  | nil => exact (Accepts.pure []).congr (by simp)
  | cons q rest ih =>
    obtain ⟨k, p⟩ := q
    obtain ⟨hfirst, hrest⟩ := List.forall_mem_cons.mp h
    rw [Payload.rebuildEntries, List.forall_mem_cons]
    exact hfirst.bind fun _ => (ih hrest).followed fun _ => .pure _

/-- A node is rebuilt from its parts just if the values in it can be rebuilt. -/
theorem accepts_rebuild {p : Payload NodeRef}
    (h : p.Holds fun e => Accepts (value e) (V e)) : Accepts (p.rebuild value) (p.Holds V) := by
  induction h with
  | mk hvalue hdefault _ _ _ hmetadata hconstraints hchildren =>
    rw [Payload.rebuild]
    refine Accepts.congr (.bind (.typeNode _) fun _ => .bind hvalue fun _ => .bind hdefault fun _ =>
      .bind (accepts_rebuildEntries hmetadata) fun _ =>
        .bind (accepts_rebuildEntries hconstraints) fun _ =>
          .followed (accepts_rebuildEntries hchildren) fun _ => .update _) ⟨?_, ?_⟩
    · rintro ⟨-, hv, hd, hme, hco, hch⟩
      exact .mk hv hd hme hco hch
    · rintro ⟨hv, hd, hme, hco, hch⟩
      exact ⟨trivial, hv, hd, hme, hco, hch⟩

/-- Data is rebuilt as a node just if it has the shape of one in which the values can be rebuilt. -/
theorem accepts_node {d : Data NodeRef}
    (h : ∀ e : Data NodeRef, e.depth < d.depth → Accepts (value e) (V e)) :
    Accepts (do (← Payload.orInvalid d).rebuild value) (d.HasShape V) := by
  rw [Payload.orInvalid]
  cases hd : Payload.ofData d with
  | error issues =>
    refine fun table s => .inr ⟨fun hshape => ?_, issues, s, rfl⟩
    obtain ⟨p, hp, -⟩ := (Payload.exists_readTo_iff (Nat.lt_succ_self _)).mpr hshape
    cases hd.symm.trans hp
  | ok p =>
    have hpos : 0 < d.depth := by
      cases d with
      | dict es => exact Nat.succ_pos _
      | _ => cases hd
    have hbelow : p.Holds fun e => e.depth < d.depth := by
      refine Payload.holds_within hd hpos (fun es hes e he => ?_) fun k e he => ?_
      · exact Nat.lt_trans (Data.depth_lt_dict he) hes
      · cases d with
        | dict es => exact Data.depth_lt_dict (Entries.mem_of_find_eq_some he)
        | _ => cases he
    exact (accepts_rebuild (hbelow.mono h)).congr (Payload.holds_iff hd)

end Nodes

/-! ### Values -/

/-- A value that is kept as it is, is always accepted. -/
theorem accepts_keepTo {n : ℕ} {d : Data NodeRef} (hn : d.depth < n) :
    Accepts (Data.rebuildTo.keepTo n d) True := by
  induction n generalizing d with
  | zero => omega
  | succ n ih =>
    cases d with
    | list items =>
      have hitems := Accepts.mapM (P := fun _ => True) (l := items) fun d hd =>
        ih (Nat.lt_of_lt_of_le (Data.depth_lt_list hd) (Nat.le_of_lt_succ hn))
      exact (hitems.followed fun vs => .update _).congr (by simp)
    | tuple items =>
      have hitems := Accepts.mapM (P := fun _ => True) (l := items) fun d hd =>
        ih (Nat.lt_of_lt_of_le (Data.depth_lt_list hd) (Nat.le_of_lt_succ hn))
      exact (hitems.followed fun vs => .update _).congr (by simp)
    | dict es =>
      have hentries := Accepts.mapM (P := fun _ => True) (l := es) fun e he =>
        (ih (Nat.lt_of_lt_of_le (Data.depth_lt_dict he) (Nat.le_of_lt_succ hn))).followed
          fun v => .pure (e.1, v)
      exact (hentries.followed fun vs => .update _).congr (by simp)
    | _ => exact .pure _

/-- A value is rebuilt just if all that stands for a node in it is shaped like one. -/
theorem accepts_rebuildTo {n : ℕ} {d : Data NodeRef} (hn : d.depth < n) :
    Accepts (d.rebuildTo n) (d.ShapedWithin Data.plainDict) := by
  induction n generalizing d with
  | zero => omega
  | succ n ih =>
    have hn := Nat.le_of_lt_succ hn
    cases d with
    | list items =>
      have hitems := Accepts.mapM (l := items) fun d hd =>
        ih (Nat.lt_of_lt_of_le (Data.depth_lt_list hd) hn)
      refine (hitems.followed fun vs => .update _).congr (Iff.symm ?_)
      exact Data.shapedWithin_iff.trans (and_iff_right nofun)
    | tuple items =>
      have hitems := Accepts.mapM (P := fun _ => True) (l := items) fun d hd =>
        accepts_keepTo (Nat.lt_of_lt_of_le (Data.depth_lt_list hd) hn)
      refine (hitems.followed fun vs => .update _).congr ?_
      exact (iff_of_true (fun _ _ => trivial) (Data.shapedWithin_iff.mpr ⟨nofun, nofun⟩))
    | dict es =>
      rw [Data.shapedWithin_iff, Data.rebuildTo]
      split
      · rename_i hstands
        have hnode := accepts_node (d := .dict es) fun e he => ih (Nat.lt_of_lt_of_le he hn)
        have hvalue := hnode.followed fun r => .pure (Value.node r)
        rw [bind_assoc, ← Data.nodeShaped_iff] at hvalue
        exact hvalue.congr (by simp [Data.inner, Data.plainDict, hstands])
      · rename_i hplain
        have hentries := Accepts.mapM (l := es) fun e he =>
          (ih (Nat.lt_of_lt_of_le (Data.depth_lt_dict he) hn)).followed fun v => .pure (e.1, v)
        rw [Data.inner, if_pos (by simp [Data.plainDict, hplain]), List.forall_mem_map]
        refine (hentries.followed fun vs => .update _).congr (Iff.symm ?_)
        exact and_iff_right fun h => absurd h hplain
    | _ =>
      rw [Data.rebuildTo]
      exact (Accepts.pure _).congr
        (iff_of_true trivial (Data.shapedWithin_iff.mpr ⟨nofun, nofun⟩))

/-! ### Accepting a serialized node -/

theorem accepts_rebuildNode (d : Data NodeRef) :
    Accepts d.rebuildNode (d.NodeShaped Data.plainDict) :=
  (accepts_node fun _ he => accepts_rebuildTo (Nat.lt_succ_of_lt he)).congr
    Data.nodeShaped_iff.symm

/-- Whatever the store and the types that are known, data is rebuilt as a node just if it is shaped
like one, and is otherwise refused with a list of issues. -/
theorem deserialize_iff_nodeShaped (d : Data NodeRef) (types : TypeTable) (s : Store) :
    ((∃ r t, deserialize d types s = .ok r t) ↔ d.NodeShaped Data.plainDict) ∧
      (¬ d.NodeShaped Data.plainDict →
        ∃ issues t, deserialize d types s = .error (.invalid issues) t) := by
  rcases accepts_rebuildNode d types s with ⟨hd, ⟨r, table⟩, t, hrun⟩ | ⟨hd, issues, t, hrun⟩
  · exact ⟨iff_of_true ⟨r, t, bind_of_ok hrun _⟩ hd, fun h => absurd hd h⟩
  · have herror : deserialize d types s = .error (.invalid issues) t := bind_of_error hrun _
    refine ⟨iff_of_false (fun ⟨r, u, hok⟩ => ?_) hd, fun _ => ⟨issues, t, herror⟩⟩
    cases herror.symm.trans hok

/-- Data that stands for a node but has no map as metadata. -/
def Data.malformed : Data ν :=
  .dict [("id", .str "y"), ("type", .dict [("id", .str "T")]), ("metadata", .int 5)]

/-- A node with a value that stands for a node and has the malformed data in a field of its own. -/
def Data.hidden : Data ν :=
  .dict [("id", .str "r"), ("type", .dict [("id", .str "Property")]), ("value",
    .dict [("id", .str "x"), ("type", .dict [("id", .str "T")]), ("extra", malformed)])]

theorem Data.malformed_not_nodeShaped (through : Data ν → Bool) :
    ¬ (malformed : Data ν).NodeShaped through := by
  rintro ⟨-, hmaps, -⟩
  obtain ⟨entries, hentries⟩ := hmaps .metadata (.int 5) rfl
  cases hentries

/-- What stands for a node within a field that is not read is never looked at. -/
theorem hidden_is_accepted : (∃ r t, deserialize .hidden .builtin .initial = .ok r t) ∧
    ¬ (Data.hidden : Data NodeRef).NodeShaped fun _ => true := by
  refine ⟨⟨_, _, rfl⟩, fun h => ?_⟩
  cases h with
  | mk _ _ _ hvalue _ =>
    refine Data.malformed_not_nodeShaped _ (hvalue .malformed ?_ rfl)
    exact (Reaches.refl _).below (List.mem_of_getElem? (i := 2) rfl)

end LiveTree
