import LiveTree.Proofs.Reads.SeatSnapshots
import LiveTree.Proofs.Reads.Everywhere

/-! Snapshots from snapshots. What the snapshot of a wrapper holds under the keys of a path looks
like the snapshot of the wrapper at that path, and for a node without children like its value. The
one exception is a node that holds nothing: a snapshot has no value for it, but its own snapshot is
an empty dictionary. -/

namespace LiveTree

/-! ### Nested dictionaries -/

/-- Whether a node holds neither a value nor children, and is no expression. -/
def Node.isBlank (n : Node) : Bool := !n.kind.isExpression && n.value.isNone && n.children.isEmpty

/-- Whether keys lead from one node down to another, and all nodes that hold the next one are no
expressions. -/
inductive Store.LeadsPlainly (s : Store) : NodeRef → Path → NodeRef → Prop
  | here (r : NodeRef) : LeadsPlainly s r [] r
  | child {r c q : NodeRef} {key : String} {rest : Path}
      (hplain : (s.node r).kind.isExpression = false)
      (hchild : (s.node r).children.get? key = some c) (h : LeadsPlainly s c rest q) :
      LeadsPlainly s r (key :: rest) q

/-- What nested dictionaries hold under the keys of a path. -/
def Store.under (s : Store) (v : Value) : Path → Option Value
  | [] => some v
  | key :: rest =>
    match v with
    | .dict d =>
      match (s.dict d).get? key with
      | none => none
      | some e => s.under e rest
    | _ => none

theorem Store.under_of_extends {s t : Store} (h : s.Extends t) {v e : Value} {path : Path}
    (he : s.under v path = some e) : t.under v path = some e := by
  induction path generalizing v with
  | nil => exact he
  | cons key rest ih =>
    cases v with
    | dict d =>
      rw [under] at he ⊢
      by_cases hd : s.Has (.dict d)
      · rw [show t.dict d = s.dict d from h.agree hd]
        cases hkey : (s.dict d).get? key with
        | none =>
          rw [hkey] at he
          cases he
        | some e' =>
          rw [hkey] at he
          exact ih he
      · rw [s.dict_of_not_has hd] at he
        cases he
    | _ => cases he

theorem Store.under_cons (s : Store) (v : Value) (key : String) (rest : Path) :
    s.under v (key :: rest) = (s.under v [key]).bind fun e => s.under e rest := by
  cases v with
  | dict d =>
    rw [under, under]
    cases (s.dict d).get? key <;> rfl
  | _ => rfl

theorem Store.LeadsPlainly.of_nodes {s t : Store} (h : t.nodes = s.nodes) {r q : NodeRef}
    {path : Path} (hleads : s.LeadsPlainly r path q) : t.LeadsPlainly r path q := by
  induction hleads with
  | here r => exact .here r
  | child hplain hchild _ ih =>
    rw [← node_eq_of_nodes h] at hplain hchild
    exact .child hplain hchild ih

/-! ### What a snapshot on the store holds -/

namespace Seat

variable [Host] {s t : Store} {p : Seat} {own : Path → Option Registry} {n : ℕ} {key : String}
  {r : NodeRef} {v : Value}
  {go : Seat → (Path → Option Registry) → EvalM Value}

theorem childSnapshots_cons_eq_done {d d' : Entries Value} {l : List (String × NodeRef)}
    (h : p.childSnapshots go own d ((key, r) :: l) s = .done d' t) :
    ∃ e u, p.childSnapshot go own key r (s.node r) s = .done e u ∧
      p.childSnapshots go own (d.insert key e) l u = .done d' t :=
  EvalM.bind_eq_done (s := s) h

theorem childSnapshots_get?_of_not_mem {d d' : Entries Value} {l : List (String × NodeRef)}
    (hkey : key ∉ l.map Prod.fst) (h : p.childSnapshots go own d l s = .done d' t) :
    d'.get? key = d.get? key := by
  induction l generalizing d s with
  | nil =>
    cases h
    rfl
  | cons e rest ih =>
    obtain ⟨hne, hrest⟩ := not_or.mp (mt List.mem_cons.mpr hkey)
    obtain ⟨v, u, -, h⟩ := childSnapshots_cons_eq_done h
    rw [ih hrest h, Entries.get?_insert_of_ne _ _ hne]

/-- What is held for one child among others was read at some moment of the run. -/
theorem childSnapshots_get? (hgo : ∀ q own', q.Standard → OwnStandard own' → (go q own').Calm)
    (hp : p.Standard) (hown : OwnStandard own) {d d' : Entries Value}
    {l : List (String × NodeRef)} (hnodup : (l.map Prod.fst).Nodup) (hmem : (key, r) ∈ l)
    (h : p.childSnapshots go own d l s = .done d' t) :
    ∃ e s₁ t₁, d'.get? key = some e ∧ s.Later s₁ ∧ s₁.nodes = s.nodes ∧ t₁.Later t ∧
      p.childSnapshot go own key r (s.node r) s₁ = .done e t₁ := by
  induction l generalizing d s with
  | nil => cases hmem
  | cons q rest ih =>
    obtain ⟨hnotin, hnodup⟩ := List.nodup_cons.mp hnodup
    obtain ⟨e, u, hfirst, hrest⟩ := childSnapshots_cons_eq_done h
    rcases List.mem_cons.mp hmem with rfl | hmem
    · refine ⟨e, s, u, ?_, .refl s, rfl, ?_, hfirst⟩
      · rw [childSnapshots_get?_of_not_mem hnotin hrest, Entries.get?_insert_self]
      · exact ((Standard.childSnapshots hgo hp hown _ _).done hrest).1
    · obtain ⟨hu, hnu⟩ := (hp.childSnapshot hgo hown _ _ _).done hfirst
      obtain ⟨e, s₁, t₁, he, hs, hn, ht, hread⟩ := ih hnodup hmem hrest
      rw [Store.node_eq_of_nodes hnu] at hread
      exact ⟨e, s₁, t₁, he, hu.trans hs, hn.trans hnu, ht, hread⟩

theorem under_newDict (hgo : ∀ q own', q.Standard → OwnStandard own' → (go q own').Calm)
    (hp : p.Standard) (hown : OwnStandard own) {d : Entries Value}
    {l : List (String × NodeRef)} (hnodup : (l.map Prod.fst).Nodup) (hmem : (key, r) ∈ l)
    (h : (p.childSnapshots go own d l >>= fun d => EvalM.update (·.newDict d)) s = .done v t) :
    ∃ e s₁ t₁, t.under v [key] = some e ∧ s.Later s₁ ∧ s₁.nodes = s.nodes ∧ t₁.Later t ∧
      p.childSnapshot go own key r (s.node r) s₁ = .done e t₁ := by
  obtain ⟨d', u, hrun, hnew⟩ := EvalM.bind_eq_done h
  obtain ⟨e, s₁, t₁, he, hs, hn, ht, hread⟩ := childSnapshots_get? hgo hp hown hnodup hmem hrun
  cases hnew
  refine ⟨e, s₁, t₁, ?_, hs, hn, ht.trans (u.later_allocDict d'), hread⟩
  have hdict : (u.newDict d').2.dict (u.allocDict d').1 = d' := Store.dict_allocDict d'
  show (match ((u.newDict d').2.dict (u.allocDict d').1).get? key with
    | none => none
    | some e => some e) = some e
  rw [hdict, he]

/-- The snapshot of a node with children that is no expression is a dictionary of what was read for
them at some moments of the run. -/
theorem snapshotTo_under (hp : p.Standard) (hown : OwnStandard own)
    (hplain : (s.node p.node).kind.isExpression = false)
    (hr : (s.node p.node).children.get? key = some r)
    (h : snapshotTo (n + 1) p own s = .done v t) :
    ∃ e s₁ t₁, t.under v [key] = some e ∧ s.Later s₁ ∧ s₁.nodes = s.nodes ∧ t₁.Later t ∧
      p.childSnapshot (snapshotTo n) own key r (s.node r) s₁ = .done e t₁ := by
  have hmem : (key, r) ∈ (s.node p.node).children.toList := Entries.get?_eq_some_iff.mp hr
  have hnonempty : (s.node p.node).children.isEmpty = false := Entries.isEmpty_of_get? hr
  have hgo : ∀ q own', q.Standard → OwnStandard own' → (snapshotTo n q own').Calm :=
    fun q own' hq hown' => Standard.snapshotTo n hq hown'
  rw [snapshotTo, EvalM.read_bind, id, if_neg (by rw [hplain]; exact Bool.false_ne_true)] at h
  split at h
  · exact under_newDict hgo hp hown (s.node p.node).children.nodup hmem h
  · obtain ⟨w, u, hvalue, hrest⟩ := EvalM.bind_eq_done h
    obtain ⟨hu, hnu⟩ := hp.value.done hvalue
    have hsame : ∀ q, u.node q = s.node q := Store.node_eq_of_nodes hnu
    rw [EvalM.read_bind, id, hsame, if_neg (by rw [hnonempty]; exact Bool.false_ne_true)] at hrest
    obtain ⟨e, s₁, t₁, he, hs, hn, ht, hread⟩ :=
      under_newDict hgo hp hown (s.node p.node).children.nodup hmem hrest
    exact ⟨e, s₁, t₁, he, hu.trans hs, hn.trans hnu, ht, hsame r ▸ hread⟩

/-- The snapshot of a node without children is its value, unless it holds nothing. -/
theorem snapshotTo_of_leaf (hp : p.Standard) (hleaf : (s.node p.node).children.isEmpty = true)
    (hblank : (s.node p.node).isBlank = false) :
    snapshotTo (n + 1) p own s = p.value s := by
  rw [snapshotTo, EvalM.read_bind, id]
  split
  · rfl
  split
  · simp_all [Node.isBlank]
  · refine hp.value.bind_eq fun v t hvalue => ?_
    have hsame := Store.node_eq_of_nodes (hp.value.done hvalue).2 p.node
    rw [EvalM.read_bind, id, hsame, if_pos hleaf]
    rfl

/-- The snapshot of a node that holds nothing is an empty dictionary. -/
theorem snapshotTo_of_blank (hblank : (s.node p.node).isBlank = true) :
    snapshotTo (n + 1) p own s = .done (s.newDict ∅).1 (s.newDict ∅).2 := by
  simp only [Node.isBlank, Bool.and_eq_true, Bool.not_eq_true', Entries.isEmpty,
    List.isEmpty_iff] at hblank
  obtain ⟨⟨hplain, hnone⟩, hempty⟩ := hblank
  rw [snapshotTo, EvalM.read_bind, id, if_neg (by rw [hplain]; exact Bool.false_ne_true),
    if_pos hnone, hempty]
  rfl

/-- What a snapshot at a seat holds at a path: what reading the seat there has come to at some
moment of the run. -/
structure Holds (n : ℕ) (p : Seat) (own : Path → Option Registry) (s t : Store) (v : Value)
    (path : Path) (q : Seat) (m : ℕ) (e : Value) (s₁ t₁ : Store) : Prop where
  along : Seat.along s path p own = some q
  depth_le : m ≤ n
  ends : EndsWithin s.held m q.node
  under : t.under v path = some e
  later : s.Later s₁
  nodes : s₁.nodes = s.nodes
  before : t₁.Later t
  value : (s.node q.node).children.isEmpty = true → q.value s₁ = .done e t₁
  snapshot : (s.node q.node).isBlank = false →
    snapshotTo m q (fun k => own (path ++ k)) s₁ = .done e t₁

theorem snapshotTo_holds_child (hp : p.Standard) (hown : OwnStandard own)
    (hn : EndsWithin s.held (n + 1) p.node)
    (hplain : (s.node p.node).kind.isExpression = false)
    (hr : (s.node p.node).children.get? key = some r)
    (h : snapshotTo (n + 1) p own s = .done v t) :
    ∃ e s₁ t₁, Holds (n + 1) p own s t v [key] (p.child r (own [key])) n e s₁ t₁ := by
  obtain ⟨e, s₁, t₁, hunder, hs, hnodes, ht, hread⟩ := snapshotTo_under hp hown hplain hr h
  have hend : EndsWithin s.held n r :=
    hn r (Store.mem_held.mpr ⟨.children, Entries.mem_values_of_get? hr⟩)
  obtain ⟨n, rfl⟩ := hend.pos
  have hchild := hp.child (hown [key]) r
  have hsame : s₁.node r = s.node r := Store.node_eq_of_nodes hnodes r
  have hleaf : (s.node r).children.isEmpty = true → (s.node r).isBlank = false →
      snapshotTo (n + 1) (p.child r (own [key])) (fun k => own (key :: k)) s₁ =
        (p.child r (own [key])).value s₁ := fun hempty hblank =>
    snapshotTo_of_leaf hchild (by rw [← hempty, ← hsame]; rfl) (by rw [← hblank, ← hsame]; rfl)
  refine ⟨e, s₁, t₁, ?_, Nat.le_succ _, hend, hunder, hs, hnodes, ht, ?_, ?_⟩
  · rw [Seat.along, hr]
    rfl
  all_goals rw [childSnapshot] at hread
  · intro hempty
    split at hread
    · rename_i hdeep
      have hblank : (s.node r).isBlank = false := by
        have hempty' : (s.node r).children.isEmpty = true := hempty
        simp_all [Node.isBlank]
      rw [← hleaf hempty hblank]
      exact hread
    · exact hread
  · intro hblank
    split at hread
    · exact hread
    · rename_i hshallow
      have hempty : (s.node r).children.isEmpty = true := by simp_all
      rw [← hread]
      exact hleaf hempty hblank

/-- A snapshot holds at a path what there is to be read at the seat there. -/
theorem snapshotTo_holds {path : Path} (hp : p.Standard) (hown : OwnStandard own)
    (hn : EndsWithin s.held n p.node) (hleads : s.LeadsPlainly p.node path r) (hne : path ≠ [])
    (h : snapshotTo n p own s = .done v t) :
    ∃ q m e s₁ t₁, q.node = r ∧ Holds n p own s t v path q m e s₁ t₁ := by
  induction path generalizing n p own s v t with
  | nil => cases hne rfl
  | cons key rest ih =>
    cases hleads with
    | @child _ c _ _ _ hplain hchild hrest =>
      obtain ⟨n, rfl⟩ := hn.pos
      obtain ⟨e, s₁, t₁, hfirst⟩ := snapshotTo_holds_child hp hown hn hplain hchild h
      cases rest with
      | nil =>
        cases hrest
        exact ⟨_, n, e, s₁, t₁, rfl, hfirst⟩
      | cons key' rest =>
        have hblank : (s.node c).isBlank = false := by
          cases hrest with
          | child _ hnext => rw [Node.isBlank, Entries.isEmpty_of_get? hnext, Bool.and_false]
        have hends : EndsWithin s₁.held n c := by
          rw [Store.held_eq_of_nodes hfirst.nodes]
          exact hfirst.ends
        obtain ⟨q, m, e', s₂, t₂, hq, hlast⟩ := ih (hp.child (hown [key]) c)
          (fun k => hown (key :: k)) hends (hrest.of_nodes hfirst.nodes) nofun
          (hfirst.snapshot hblank)
        refine ⟨q, m, e', s₂, t₂, hq, ?_, Nat.le_succ_of_le hlast.depth_le, ?_, ?_,
          hfirst.later.trans hlast.later, hlast.nodes.trans hfirst.nodes,
          hlast.before.trans hfirst.before, ?_, ?_⟩
        · rw [Seat.along, hchild]
          exact (along_eq_of_nodes hfirst.nodes _ _ _).symm.trans hlast.along
        · rw [← Store.held_eq_of_nodes hfirst.nodes]
          exact hlast.ends
        · rw [Store.under_cons, hfirst.under]
          exact Store.under_of_extends hfirst.before.cells hlast.under
        · rw [← Store.node_eq_of_nodes hfirst.nodes]
          exact hlast.value
        · rw [← Store.node_eq_of_nodes hfirst.nodes]
          exact hlast.snapshot

end Seat

/-! ### Snapshots of wrappers -/

section Wrappers

variable {σ : Type} {x y z : World σ} {w : WrapperRef} {path : Path} {q : Seat} {e : Value}

/-- Whether a value of one world looks like what an operation gives in another. -/
def World.LooksLike (z : World σ) (e : Value) (m : TreeM σ (Option Value)) (y : World σ) : Prop :=
  ∃ a u, m y = .ok (some a) u ∧ Alike z.forest.store u.forest.store e a

variable (hx : x.Sound) (hw : x.Stands w)

include hx hw

/-- What a computation has come to at the seat down a path looks like what an operation gives that
does the same on the wrapper there. -/
theorem looksLike_of_done {op : WrapperRef → TreeM σ Value} {m m₁ m₂ : EvalM Value}
    {s₁ t₁ : Store} (hb : Forest.Browsed w x.forest y.forest)
    (hq : Seat.along x.forest.store path (x.forest.seat w) (x.forest.own w) = some q)
    (hm₁ : ∀ (C : Correspondence), C.Fit → q.Known C x.forest.store →
      C.Tracks x.forest.store C.values m m₁)
    (hm₂ : ∀ (C : Correspondence), C.Fit → q.Known C x.forest.store →
      C.Tracks x.forest.store C.values m m₂)
    (hop : ∀ c (y : World σ), Forest.Roamed w x.forest y.forest →
      y.Seated c q (fun r => x.forest.own w (path ++ r)) → TreeM.Renders c (op c) m₂ y)
    (hs : x.forest.store.Later s₁) (h : m₁ s₁ = .done e t₁) (ht : t₁.Later z.forest.store) :
    z.LooksLike e (TreeM.onPath op w path) y := by
  have hgrounded : q.Grounded x.forest.store :=
    (hw.seat_grounded hx).along hx.wellFormed (hx.own_standard w) hq
  have hknown : ∀ u, q.Known (.shifted x.forest.store u) x.forest.store := fun u =>
    hgrounded.toKnown u
  have hfit := fun u (h : x.forest.store.Later u) => shifted_fit hx.wellFormed h
  rw [← Seat.along_eq_of_nodes hb.nodes] at hq
  obtain ⟨c, y', hb', -, -, hc, hat⟩ := ((hw.seated hx).roamed hb.roamed).onPath hq
  have hlater := hb.later.trans hb'.later
  obtain ⟨a, t₂, hrun, halike⟩ := EvalM.done_alike hx.wellFormed hs hlater
    (hm₁ _ (hfit _ hs) (hknown _)) (hm₂ _ (hfit _ hlater) (hknown _)) h ht.cells
  obtain ⟨u, hu, rfl⟩ := (hop c y' (hb.roamed.trans hb') hc).of_done hrun
  exact ⟨a, u, (hat op a u).mpr hu, halike⟩

variable [Host]

theorem snapshot_eq_getValue (hleaf : (x.forest.nodeAt w).children.isEmpty = true)
    (hblank : (x.forest.nodeAt w).isBlank = false) :
    TreeM.snapshot w x = TreeM.getValue w [] x := by
  have hvalue : TreeM.getValue w [] x = TreeM.eval (x.forest.seat w).value x :=
    TreeM.Means.getValue hw.live x.forest.store
  obtain ⟨n, hn⟩ : ∃ n, x.forest.store.nodes.size + TreeM.visitMargin = n + 1 := ⟨_, rfl⟩
  rw [TreeM.snapshot, bind_of_ok (TreeM.checkAlive_of_live hw.live)]
  show TreeM.snapshotTo (x.forest.store.nodes.size + TreeM.visitMargin) w x = _
  rw [hn, TreeM.snapshotTo, TreeM.forest_bind]
  split
  · rfl
  split
  · simp_all [Node.isBlank]
  · rcases (hw.seat_grounded hx).standard.value.eval_cases x with
      ⟨v, t, -, heval, -, hnodes⟩ | ⟨f, t, -, heval⟩
    · have hnode : (x.withStore t).forest.nodeAt w = x.forest.nodeAt w :=
        Store.node_eq_of_nodes hnodes _
      have hkeys : ((x.withStore t).forest.nodeAt w).children.keys.isEmpty = true := by
        rw [hnode, ← hleaf]
        exact List.isEmpty_map
      rw [bind_of_ok (hvalue.trans heval), hvalue, heval]
      show (if ((x.withStore t).forest.nodeAt w).children.keys.isEmpty then pure v
        else _ : TreeM σ Value) (x.withStore t) = _
      rw [if_pos hkeys]
      rfl
    · rw [bind_of_error (hvalue.trans heval), hvalue, heval]

/-- A snapshot is made of snapshots. What it holds under the keys of a path on which no expression is
left looks like the snapshot of the wrapper there, and for a node without children like its value,
whenever these are read. And the snapshot of a node without children is its value. The exception is
a node that holds nothing: its own snapshot is an empty dictionary. -/
theorem snapshot_composes :
    (∀ v z, TreeM.snapshot w x = .ok v z → Forest.Browsed w x.forest z.forest ∧
      ∀ path r, path ≠ [] → x.forest.store.LeadsPlainly (x.forest.wrapper w).node path r →
        ∃ e, z.forest.store.under v path = some e ∧
          ∀ y : World σ, Forest.Browsed w x.forest y.forest →
            ((x.forest.store.node r).isBlank = false →
              z.LooksLike e (TreeM.onPath TreeM.snapshot w path) y) ∧
            ((x.forest.store.node r).children.isEmpty = true →
              z.LooksLike e (TreeM.onPath (TreeM.getValue · []) w path) y)) ∧
    ((x.forest.nodeAt w).children.isEmpty = true → (x.forest.nodeAt w).isBlank = false →
      TreeM.snapshot w x = TreeM.getValue w [] x) ∧
    ((x.forest.nodeAt w).isBlank = true →
      ∃ d z, TreeM.snapshot w x = .ok (.dict d) z ∧ z.forest.store.dict d = ∅) := by
  have hseated := hw.seated hx
  refine ⟨fun v z hrun => ?_, snapshot_eq_getValue hx hw, fun hblank => ?_⟩
  · obtain ⟨hdone, hb⟩ := (TreeM.Renders.snapshot hseated).of_ok hrun
    refine ⟨hb.browsed hx.arises, fun path r hne hleads => ?_⟩
    have hend := (hw.endsWithin hx.wellFormed).mono
      (Nat.add_le_add_left (by decide : 1 ≤ TreeM.visitMargin) _)
    obtain ⟨q, m, e, s₁, t₁, rfl, hholds⟩ :=
      Seat.snapshotTo_holds hseated.standard hseated.ownStandard hend hleads hne hdone
    have hgrounded : q.Grounded x.forest.store :=
      (hw.seat_grounded hx).along hx.wellFormed (hx.own_standard w) hholds.along
    have hends : ∀ s, x.forest.store.Later s → EndsWithin s.held m q.node := fun s hs =>
      hgrounded.node.endsWithin_held hx.wellFormed hs.cells hholds.ends
    have hown : Seat.OwnStandard fun k => x.forest.own w (path ++ k) := fun k =>
      hx.own_standard w (path ++ k)
    refine ⟨e, hholds.under, fun y hy => ⟨fun hblank => ?_, fun hleaf => ?_⟩⟩
    · refine looksLike_of_done hx hw hy hholds.along
        (fun C hC hq => hq.snapshotTo hC.toStocked hown hends (Nat.le_refl m) (Nat.le_refl m))
        (fun C hC hq => hq.snapshotTo hC.toStocked hown hends (Nat.le_refl m) hholds.depth_le)
        (fun c u hu hc => ?_) hholds.later (hholds.snapshot hblank) hholds.before
      rw [← hu.nodes]
      exact TreeM.Renders.snapshot hc
    · exact looksLike_of_done hx hw hy hholds.along (fun C hC hq => hq.value hC.toLawful)
        (fun C hC hq => hq.value hC.toLawful) (fun c u hu hc => TreeM.Renders.getValue hc) hholds.later
        (hholds.value hleaf) hholds.before
  · obtain ⟨z, hz, hstore⟩ := (TreeM.Renders.snapshot hseated).of_done
      (Seat.snapshotTo_of_blank hblank)
    exact ⟨_, z, hz, by rw [hstore]; exact Store.dict_allocDict ∅⟩

end Wrappers

theorem invoice_composes : ∃ v z, @TreeM.snapshot Unit Host.none ⟨0⟩ (invoiceWorld ⟨13⟩) = .ok v z ∧
    z.forest.store.under v ["amount"] = some (.int 0) ∧
    z.LooksLike (.int 0) (TreeM.onPath (@TreeM.snapshot Unit Host.none) ⟨0⟩ ["amount"]) z := by
  let host := Host.none
  let x := invoiceWorld ⟨13⟩
  obtain ⟨v, z, hrun, hunder⟩ : ∃ v z, TreeM.snapshot ⟨0⟩ x = .ok v z ∧
      z.forest.store.under v ["amount"] = some (.int 0) := ⟨_, _, rfl, rfl⟩
  have hleads : x.forest.store.LeadsPlainly ⟨13⟩ ["amount"] ⟨12⟩ := .child rfl rfl (.here ⟨12⟩)
  obtain ⟨hall, -⟩ := snapshot_composes (invoiceWorld_sound ⟨13⟩)
    (invoiceWorld_stands (r := ⟨13⟩) (by decide))
  obtain ⟨hb, hpaths⟩ := hall v z hrun
  obtain ⟨e, he, hlooks⟩ := hpaths ["amount"] ⟨12⟩ nofun hleads
  obtain rfl := Option.some.inj (hunder.symm.trans he)
  exact ⟨v, z, hrun, hunder, (hlooks z hb).1 rfl⟩

end LiveTree
