import LiveTree.Build.Rule
import LiveTree.Form.Clone
import LiveTree.Form.Decode
import LiveTree.Proofs.Store.Developing

/-! Making nodes. Whatever makes nodes develops a store in order, whether it succeeds or fails, and
gives a node that is there: the constructor on a type that is there, the factories, copying, and
rebuilding with types that are there. Along the way it is kept account of nodes that are there. -/

namespace LiveTree

open Store

variable {α β : Type} {s t : Store} {known known' : List NodeRef}

@[simp] theorem Entries.values_empty : (∅ : Entries α).values = [] := rfl

/-- Whether a store is in order and some nodes are there. -/
structure Store.Knows (s : Store) (known : List NodeRef) : Prop where
  orderly : s.Orderly
  has : ∀ r ∈ known, s.Has (.node r)

namespace Store.Knows

theorem mono (h : s.Knows known) (hsub : known' ⊆ known) : s.Knows known' :=
  ⟨h.orderly, fun r hr => h.has r (hsub hr)⟩

theorem append (h : s.Knows known) (h' : s.Knows known') : s.Knows (known ++ known') :=
  ⟨h.orderly, List.forall_mem_append.mpr ⟨h.has, h'.has⟩⟩

theorem develop (h : s.Knows known) (hst : s.Develops t) : t.Knows known :=
  ⟨hst.orderly h.orderly, fun r hr => hst.has (h.has r hr)⟩

end Store.Knows

/-- Whether an operation develops each store in order in which some nodes are there, and finds nodes
that are there by then. -/
def Developing (known : List NodeRef) (m : StoreM α) (found : α → List NodeRef) : Prop :=
  ∀ s : Store, s.Knows known → Moves Store.Develops m s ∧ ∀ a t, m s = .ok a t → t.Knows (found a)

namespace Developing

variable {N : α → List NodeRef} {N' : β → List NodeRef} {m : StoreM α}

theorem mono (h : Developing known m N) (hsub : known ⊆ known') : Developing known' m N :=
  fun s hs => h s (hs.mono hsub)

theorem pure {a : α} (h : N a ⊆ known) : Developing known (Pure.pure a) N := fun _ hs =>
  ⟨.pure a, by rintro _ _ ⟨⟩; exact hs.mono h⟩

theorem throw (e : Fault) : Developing known (MonadExcept.throw e : StoreM α) N := fun _ _ =>
  ⟨.throw e, nofun⟩

/-- What is known stays so, and what has been found is known from then on. -/
theorem bind {k : α → StoreM β} (hm : Developing known m N)
    (hk : ∀ a, Developing (N a ++ known) (k a) N') : Developing known (m >>= k) N' := by
  intro s hs
  obtain ⟨hmoves, hresult⟩ := hm s hs
  have hnext : ∀ a t, m s = .ok a t → t.Knows (N a ++ known) := fun a t hmt =>
    (hresult a t hmt).append (hs.develop (hmoves.ok hmt))
  refine ⟨hmoves.bind fun a t hmt _ => (hk a t (hnext a t hmt)).1, fun b u hu => ?_⟩
  cases hmt : m s with
  | ok a t => exact (hk a t (hnext a t hmt)).2 b u ((bind_of_ok hmt k).symm.trans hu)
  | error e t => cases (bind_of_error hmt k).symm.trans hu

theorem map {f : α → β} (hm : Developing known m N) (hf : ∀ a, N' (f a) ⊆ N a) :
    Developing known (f <$> m) N' := by
  rw [map_eq_pure_bind]
  exact hm.bind fun a => pure (List.Subset.trans (hf a) (List.subset_append_left _ _))

/-- A look at a store in order finds more nodes that are there. -/
theorem look {k : Store → StoreM α} (more : Store → List NodeRef)
    (hmore : ∀ s, s.Knows known → ∀ r ∈ more s, s.Has (.node r))
    (hk : ∀ s, Developing (more s ++ known) (k s) N) : Developing known (get >>= k) N :=
  fun s hs => hk s s (Knows.append ⟨hs.orderly, hmore s hs⟩ hs)

theorem look_at {k : Store → StoreM α} (hk : ∀ s, Developing known (k s) N) :
    Developing known (get >>= k) N := look (fun _ => []) (fun _ _ => nofun) hk

theorem mapM {f : β → StoreM α} {l : List β} (h : ∀ b ∈ l, Developing known (f b) N) :
    Developing known (l.mapM f) fun as => as.flatMap N := by
  induction l generalizing known with
  | nil => exact pure (List.nil_subset _)
  | cons b rest ih =>
    obtain ⟨hfirst, hrest⟩ := List.forall_mem_cons.mp h
    rw [List.mapM_cons]
    refine hfirst.bind fun a => ?_
    have hrest := ih fun c hc => (hrest c hc).mono (List.subset_append_right (N a) known)
    exact hrest.bind fun as => pure (by simp)

/-- Cells other than nodes may change in any way. -/
theorem update {f : Store → α × Store} (h : ∀ s, (f s).2.nodes = s.nodes)
    (hfound : ∀ s, N (f s).1 ⊆ known) : Developing known (StoreM.update f) N := fun s hs =>
  have hs' : s.Develops (f s).2 := .of_nodes (h s)
  ⟨.modifyGet hs', by rintro _ _ ⟨⟩; exact (hs.develop hs').mono (hfound s)⟩

theorem check (f : Store → Except Fault α) : Developing known (StoreM.check f) fun _ => [] := by
  refine look_at fun s => ?_
  cases f s with
  | ok a => exact pure (List.nil_subset _)
  | error e => exact throw e

/-! ### Factories -/

/-- The constructor makes a node of a type that is there, with entries that are there. -/
theorem node {type : NodeRef} (htype : type ∈ known) (id : String) (c : Content)
    (hentries : c.metadata.values ++ c.constraints.values ++ c.children.values ⊆ known) :
    Developing known (Make.node id type c) fun r => [r] := by
  intro s hs
  have hmade : s.Develops (s.makeNode id type c.value c.default c.metadata c.constraints
      c.children).2 := .made .refl id (hs.has type htype) c.value c.default
    fun q hq => hs.has q (hentries hq)
  refine ⟨.modifyGet hmade, ?_⟩
  rintro _ _ ⟨⟩
  refine ⟨hmade.orderly hs.orderly, List.forall_mem_singleton.mpr ?_⟩
  simp [Has]

/-- A node of a built-in type. -/
theorem ofBuiltin {type : NodeRef} (htype : initial.Has (.node type)) (id : String) (c : Content)
    (hentries : c.metadata.values ++ c.constraints.values ++ c.children.values ⊆ known) :
    Developing known (Make.node id type c) fun r => [r] := fun s hs =>
  have h : Developing (type :: known) (Make.node id type c) fun r => [r] :=
    node List.mem_cons_self id c (List.Subset.trans hentries (List.subset_cons_self _ _))
  h s ⟨hs.orderly, List.forall_mem_cons.mpr ⟨hs.orderly.has_builtin htype, hs.has⟩⟩

theorem type (id : String) : Developing known (Make.type id) fun r => [r] :=
  ofBuiltin (by decide) id {} (List.nil_subset _)

theorem property (id : String) (c : Content)
    (hentries : c.metadata.values ++ c.constraints.values ++ c.children.values ⊆ known) :
    Developing known (Make.property id c) fun r => [r] := ofBuiltin (by decide) id c hentries

theorem lit (v : Value) : Developing known (Make.lit v) fun r => [r] :=
  ofBuiltin (by decide) _ _ (List.nil_subset _)

theorem op (name : String) {args : List NodeRef} (hargs : args ⊆ known) :
    Developing known (Make.op name args) fun r => [r] := by
  refine ofBuiltin (by decide) _ _ fun r hr => hargs ?_
  exact Make.mem_of_mem_numbered (List.mem_append.mp hr |>.resolve_left nofun)

theorem path (segments : List Value) : Developing known (Make.path segments) fun r => [r] := by
  have hmake : Developing known (do
      let l ← StoreM.update (·.allocList segments)
      Make.node "ref" Builtin.ref { value := .list l }) fun r => [r] :=
    (update (N := fun _ => []) (fun _ => rfl) fun _ => List.nil_subset _).bind fun _ =>
      ofBuiltin (by decide) _ _ (List.nil_subset _)
  rw [Make.path]
  split
  · exact (throw (N := fun _ => []) _).bind fun _ => hmake
  · exact hmake

theorem ref (dotted : String) : Developing known (Make.ref dotted) fun r => [r] := path _

theorem constraint (name : String) (rule : Value) (message : Option String) :
    Developing known (Make.constraint name rule message) fun r => [r] := by
  have hnode : ∀ {known : List NodeRef} (metadata : Entries NodeRef), metadata.values ⊆ known →
      Developing known (Make.node name Builtin.constraint { value := rule, metadata := metadata })
        fun r => [r] := fun metadata hmetadata =>
    ofBuiltin (by decide) name _ (by simpa using hmetadata)
  cases message with
  | none => exact hnode ∅ (List.nil_subset _)
  | some text =>
    have hmessage : Developing known (Make.property "message" { value := .str text }) fun r => [r] :=
      property _ _ (List.nil_subset _)
    exact hmessage.bind fun r => hnode _ fun q hq =>
      List.mem_append_left _ (Entries.mem_values_ofList hq)

theorem wordsOr {usual : StoreM String} (h : Developing known usual fun _ => [])
    (message : Option String) : Developing known (Make.wordsOr message usual) fun _ => [] := by
  cases message with
  | none => exact h
  | some text =>
    rw [Make.wordsOr]
    split
    exacts [h, pure (List.nil_subset _)]

theorem boundText (v : Value) : Developing known (Make.boundText v) fun _ => [] := check _

theorem required (message : Option String) :
    Developing known (Make.required message) fun r => [r] :=
  (ref _).bind fun _ => (op _ (by simp)).bind fun _ => (ref _).bind fun _ =>
    (op _ (by simp)).bind fun _ => (op _ (by simp)).bind fun _ => (op _ (by simp)).bind fun _ =>
      (wordsOr (pure (List.nil_subset _)) message).bind fun _ => constraint _ _ _

theorem lengthRule (name comparison : String) (bound : Value) (message : Option String)
    (usual : String → String) :
    Developing known (Make.lengthRule name comparison bound message usual) fun r => [r] :=
  (ref _).bind fun _ => (op _ (by simp)).bind fun _ => (lit bound).bind fun _ =>
    (op _ (by simp)).bind fun _ =>
      (wordsOr ((boundText bound).map fun _ => List.nil_subset _) message).bind fun _ =>
        constraint _ _ _

theorem valueRule (name comparison : String) (bound : Value) (message : Option String)
    (usual : String → String) :
    Developing known (Make.valueRule name comparison bound message usual) fun r => [r] :=
  (ref _).bind fun _ => (lit bound).bind fun _ => (op _ (by simp)).bind fun _ =>
    (wordsOr ((boundText bound).map fun _ => List.nil_subset _) message).bind fun _ =>
      constraint _ _ _

theorem inRange (low high : Value) (message : Option String) :
    Developing known (Make.inRange low high message) fun r => [r] :=
  (ref _).bind fun _ => (lit low).bind fun _ => (op _ (by simp)).bind fun _ =>
    (ref _).bind fun _ => (lit high).bind fun _ => (op _ (by simp)).bind fun _ =>
      (op _ (by simp)).bind fun _ =>
        (wordsOr ((boundText low).bind fun _ => (boundText high).bind fun _ =>
          pure (List.nil_subset _)) message).bind fun _ => constraint _ _ _

/-! ### Copies -/

/-- A copy of a node has the type of the node, which is still there when the copy is made. -/
theorem copyTo (n : ℕ) (v : Value) :
    Developing known (LiveTree.copyTo n v) fun w => w.asNode?.toList := by
  induction n generalizing v known with
  | zero => exact throw _
  | succ n ih =>
    cases v with
    | list r =>
      exact look_at fun s => (mapM fun _ _ => ih _).bind fun _ =>
        update (fun _ => rfl) fun _ => List.nil_subset _
    | dict r =>
      have hentry : ∀ p : String × Value, Developing known (do return (p.1, ← LiveTree.copyTo n p.2))
          fun _ => [] := fun p => (ih p.2).bind fun _ => pure (List.nil_subset _)
      exact look_at fun s => (mapM fun p _ => hentry p).bind fun _ =>
        update (fun _ => rfl) fun _ => List.nil_subset _
    | node r =>
      have hentries : ∀ {known : List NodeRef} (m : Entries NodeRef), m.values ⊆ known →
          Developing known (do
            let copies ← m.toList.mapM fun p => do
              return (p.1, (← LiveTree.copyTo n (.node p.2)).asNode?.getD p.2)
            return Entries.ofList copies) Entries.values := by
        intro known m hm
        have hone : ∀ p ∈ m.toList, Developing known (do
            return (p.1, (← LiveTree.copyTo n (.node p.2)).asNode?.getD p.2))
              fun p : String × NodeRef => [p.2] := by
          refine fun p hp => (ih (.node p.2)).bind fun w => pure ?_
          have hp : p.2 ∈ known := hm (List.mem_map_of_mem hp)
          cases w.asNode? <;> simp [hp]
        refine (mapM hone).bind fun copies => pure fun q hq => List.mem_append_left _ ?_
        obtain ⟨p, hp, rfl⟩ := List.mem_map.mp (Entries.mem_values_ofList hq)
        exact List.mem_flatMap.mpr ⟨p, hp, List.mem_singleton.mpr rfl⟩
      refine look (fun s => (s.node r).type :: ((s.node r).entries .metadata).values ++
        ((s.node r).entries .constraints).values ++ ((s.node r).entries .children).values)
        (fun s hs => ?_) fun s => ?_
      · simp only [List.cons_append, List.forall_mem_cons, List.forall_mem_append]
        exact ⟨hs.orderly.has_type r, ⟨hs.orderly.entries r _, hs.orderly.entries r _⟩,
          hs.orderly.entries r _⟩
      · refine (ih _).bind fun value => (ih _).bind fun default => ?_
        refine (hentries _ fun q hq => by simp [hq]).bind fun metadata => ?_
        refine (hentries _ fun q hq => by simp [hq]).bind fun constraints => ?_
        refine (hentries _ fun q hq => by simp [hq]).bind fun children => ?_
        refine (node (by simp) _ _ fun q hq => ?_).bind fun _ => pure (by simp [Value.asNode?])
        simp only [List.mem_append] at hq ⊢
        tauto
    | _ => exact pure (List.nil_subset _)

theorem copyValue (v : Value) :
    Developing known (LiveTree.copyValue v) fun w => w.asNode?.toList := look_at fun _ => copyTo _ v

theorem copyNode {r : NodeRef} (hr : r ∈ known) :
    Developing known (LiveTree.copyNode r) fun q => [q] :=
  (copyValue _).bind fun w => pure (by cases w.asNode? <;> simp [hr])

end Developing

/-! ### Rebuilding -/

/-- Whether rebuilding, with a table of types that are there, develops each store in order in which
some nodes are there, and leaves such a table and finds nodes that are there by then. -/
def Raising (known : List NodeRef) (m : RebuildM α) (N : α → List NodeRef) : Prop :=
  ∀ table : TypeTable, Developing (table.values ++ known) (m table) fun p => p.2.values ++ N p.1

namespace Raising

variable {N : α → List NodeRef} {N' : β → List NodeRef} {m : RebuildM α}

theorem pure {a : α} (h : N a ⊆ known) : Raising known (Pure.pure a) N := fun _ =>
  .pure (List.append_subset_of_subset_of_subset (List.subset_append_left _ _)
    (List.Subset.trans h (List.subset_append_right _ _)))

theorem throw (e : Fault) : Raising known (MonadExcept.throw e : RebuildM α) N := fun _ => .throw e

/-- What develops the store whatever the table. -/
theorem of_developing {m : StoreM α} (h : Developing known m N) : Raising known (m : RebuildM α) N :=
  fun _ => (h.mono (List.subset_append_right _ _)).bind fun _ => .pure (by simp)

theorem bind {k : α → RebuildM β} (hm : Raising known m N)
    (hk : ∀ a, Raising (N a ++ known) (k a) N') : Raising known (m >>= k) N' := fun table =>
  (hm table).bind fun p => (hk p.1 p.2).mono fun q hq => by
    simp only [List.mem_append] at hq ⊢
    tauto

theorem mono (h : Raising known m N) (hsub : known ⊆ known') : Raising known' m N := fun table =>
  (h table).mono (List.append_subset_of_subset_of_subset (List.subset_append_left _ _)
    (List.Subset.trans hsub (List.subset_append_right _ _)))

theorem mapM {f : β → RebuildM α} {l : List β} (h : ∀ b ∈ l, Raising known (f b) N) :
    Raising known (l.mapM f) fun as => as.flatMap N := by
  induction l generalizing known with
  | nil => exact pure (List.nil_subset _)
  | cons b rest ih =>
    obtain ⟨hfirst, hrest⟩ := List.forall_mem_cons.mp h
    rw [List.mapM_cons]
    refine hfirst.bind fun a => ?_
    have hrest := ih fun c hc => (hrest c hc).mono (List.subset_append_right (N a) known)
    exact hrest.bind fun as => pure (by simp)

/-- A type that is not known yet is made and known from then on. -/
theorem typeNode (id : String) : Raising known (RebuildM.typeNode id) fun r => [r] := by
  intro table
  rw [RebuildM.typeNode, RebuildM.get_bind]
  cases hid : table.get? id with
  | some r => exact Developing.pure (by simp [Entries.mem_values_of_get? hid])
  | none =>
    have hmade : Developing (table.values ++ known) (do
        let r ← Make.type id
        Pure.pure (r, table.insert id r)) fun p => p.2.values ++ [p.1] := by
      refine (Developing.type id).bind fun r => Developing.pure fun q hq => ?_
      rcases List.mem_append.mp hq with hq | hq
      · rcases Entries.mem_values_insert hq with rfl | hq
        exacts [List.mem_cons_self, by simp [hq]]
      · simp [List.mem_singleton.mp hq]
    exact hmade

theorem node {type : NodeRef} (htype : type ∈ known) (id : String) (c : Content)
    (hentries : c.metadata.values ++ c.constraints.values ++ c.children.values ⊆ known) :
    Raising known (Make.node id type c : RebuildM NodeRef) fun r => [r] :=
  of_developing (.node htype id c hentries)

/-! ### Rebuilding nodes -/

section Nodes

variable {value : Data NodeRef → RebuildM Value}

mutual

/-- The type of a node that is rebuilt is found first, and still there when the node is made. -/
theorem rebuild (hvalue : ∀ known d, Raising known (value d) fun _ => []) :
    ∀ (p : Payload NodeRef) (known : List NodeRef), Raising known (p.rebuild value) fun r => [r]
  | .mk id typeId v d metadata constraints children, known => by
    rw [Payload.rebuild]
    refine (typeNode typeId).bind fun type => ?_
    refine (hvalue _ v).bind fun v => (hvalue _ d).bind fun d => ?_
    refine (rebuildEntries hvalue metadata _).bind fun metadata => ?_
    refine (rebuildEntries hvalue constraints _).bind fun constraints => ?_
    refine (rebuildEntries hvalue children _).bind fun children => ?_
    refine node (by simp) id _ fun q hq => ?_
    simp only [List.mem_append] at hq ⊢
    rcases hq with (hq | hq) | hq <;> simp only [Entries.mem_values_ofList hq, true_or, or_true]

theorem rebuildEntries (hvalue : ∀ known d, Raising known (value d) fun _ => []) :
    ∀ (l : List (String × Payload NodeRef)) (known : List NodeRef),
      Raising known (Payload.rebuildEntries value l) fun entries => entries.map Prod.snd
  | [], _ => pure (List.nil_subset _)
  | (k, p) :: rest, known => by
    rw [Payload.rebuildEntries]
    exact (rebuild hvalue p _).bind fun _ => (rebuildEntries hvalue rest _).bind fun _ =>
      pure (by simp)

end

end Nodes

theorem orInvalid (d : Data NodeRef) : Raising known (Payload.orInvalid d) fun _ => [] := by
  rw [Payload.orInvalid]
  cases Payload.ofData d with
  | ok p => exact pure (List.nil_subset _)
  | error issues => exact throw _

/-- Cells other than nodes may change in any way. -/
theorem update {f : Store → α × Store} (h : ∀ s, (f s).2.nodes = s.nodes) :
    Raising known (StoreM.update f : RebuildM α) fun _ => [] :=
  of_developing (.update h fun _ => List.nil_subset _)

theorem named {f : Data NodeRef → RebuildM Value} {p : String × Data NodeRef}
    (h : Raising known (f p.2) fun _ => []) :
    Raising known (do return (p.1, ← f p.2)) fun _ => [] := h.bind fun _ => pure (List.nil_subset _)

theorem keepTo (n : ℕ) (d : Data NodeRef) :
    Raising known (Data.rebuildTo.keepTo n d) fun _ => [] := by
  induction n generalizing d known with
  | zero => exact throw _
  | succ n ih =>
    cases d with
    | list | tuple => exact (mapM fun d _ => ih d).bind fun _ => update fun _ => rfl
    | dict => exact (mapM fun e _ => named (ih e.2)).bind fun _ => update fun _ => rfl
    | _ => exact pure (List.nil_subset _)

theorem rebuildTo (n : ℕ) (d : Data NodeRef) : Raising known (d.rebuildTo n) fun _ => [] := by
  induction n generalizing d known with
  | zero => exact throw _
  | succ n ih =>
    cases d with
    | list => exact (mapM fun d _ => ih d).bind fun _ => update fun _ => rfl
    | tuple => exact (mapM fun d _ => keepTo n d).bind fun _ => update fun _ => rfl
    | dict =>
      rw [Data.rebuildTo]
      split
      · exact (orInvalid _).bind fun p => (rebuild (fun _ d => ih d) p _).bind fun _ =>
          pure (List.nil_subset _)
      · exact (mapM fun e _ => named (ih e.2)).bind fun _ => update fun _ => rfl
    | _ => exact pure (List.nil_subset _)

theorem rebuildNode (d : Data NodeRef) : Raising known d.rebuildNode fun r => [r] :=
  (orInvalid d).bind fun p => rebuild (fun _ d => rebuildTo _ d) p _

end Raising

/-- Rebuilding with types that are there develops the store, accepted or not. -/
theorem Developing.deserialize (d : Data NodeRef) {types : TypeTable} (htypes : types.values ⊆ known) :
    Developing known (LiveTree.deserialize d types) fun r => [r] := by
  have hrebuild : Raising known d.rebuildNode fun r => [r] := .rebuildNode d
  have hsub : types.values ++ known ⊆ known :=
    List.append_subset_of_subset_of_subset htypes (List.Subset.refl _)
  exact ((hrebuild types).mono hsub).bind fun _ => .pure (by simp)

/-- The ways to make a node in a store, from nodes that are there: the constructor on a type, or on
what is no node at all, the factories, rebuilding with a table of types, and copying. -/
inductive Constructs (s : Store) : StoreM NodeRef → Prop
  | typed (id : String) {type : Value} (htype : s.Has type) {c : Content}
    (hentries : ∀ r ∈ c.metadata.values ++ c.constraints.values ++ c.children.values,
      s.Has (.node r)) : Constructs s (Make.typed id type c)
  | type (id : String) : Constructs s (Make.type id)
  | property (id : String) {c : Content}
    (hentries : ∀ r ∈ c.metadata.values ++ c.constraints.values ++ c.children.values,
      s.Has (.node r)) : Constructs s (Make.property id c)
  | lit (v : Value) : Constructs s (Make.lit v)
  | path (segments : List Value) : Constructs s (Make.path segments)
  | ref (dotted : String) : Constructs s (Make.ref dotted)
  | op (name : String) {args : List NodeRef} (hargs : ∀ r ∈ args, s.Has (.node r)) :
    Constructs s (Make.op name args)
  | constraint (name : String) (rule : Value) (message : Option String) :
    Constructs s (Make.constraint name rule message)
  | required (message : Option String) : Constructs s (Make.required message)
  | minLength (bound : Value) (message : Option String) : Constructs s (Make.minLength bound message)
  | maxLength (bound : Value) (message : Option String) : Constructs s (Make.maxLength bound message)
  | minValue (bound : Value) (message : Option String) : Constructs s (Make.minValue bound message)
  | maxValue (bound : Value) (message : Option String) : Constructs s (Make.maxValue bound message)
  | inRange (low high : Value) (message : Option String) :
    Constructs s (Make.inRange low high message)
  | deserialize (d : Data NodeRef) {types : TypeTable}
    (htypes : ∀ r ∈ types.values, s.Has (.node r)) : Constructs s (deserialize d types)
  | copyNode {r : NodeRef} (hr : s.Has (.node r)) : Constructs s (copyNode r)

/-- Making a node in any way develops the store, and the node is there by then. -/
theorem Constructs.develops {m : StoreM NodeRef} (h : Constructs s m) (hs : s.Orderly) :
    Moves Store.Develops m s ∧ ∀ r t, m s = .ok r t → t.Has (.node r) := by
  have hof : ∀ {m : StoreM NodeRef} {known : List NodeRef}, Developing known m (fun r => [r]) →
      (∀ r ∈ known, s.Has (.node r)) →
        Moves Store.Develops m s ∧ ∀ r t, m s = .ok r t → t.Has (.node r) := by
    intro m known hm hknown
    obtain ⟨hmoves, hfound⟩ := hm s ⟨hs, hknown⟩
    exact ⟨hmoves, fun r t hrun => (hfound r t hrun).has r (List.mem_singleton.mpr rfl)⟩
  have hnone : ∀ r ∈ ([] : List NodeRef), s.Has (.node r) := fun _ => nofun
  cases h with
  | @typed id type htype c hentries =>
    cases type with
    | node r =>
      exact hof (.node List.mem_cons_self id c (List.subset_cons_self r _))
        (List.forall_mem_cons.mpr ⟨htype, hentries⟩)
    | _ => exact hof (.throw _) hnone
  | type id => exact hof (.type id) hnone
  | property id hentries => exact hof (.property id _ (List.Subset.refl _)) hentries
  | lit v => exact hof (.lit v) hnone
  | path segments => exact hof (.path segments) hnone
  | ref dotted => exact hof (.ref dotted) hnone
  | op name hargs => exact hof (.op name (List.Subset.refl _)) hargs
  | constraint name rule message => exact hof (.constraint name rule message) hnone
  | required message => exact hof (.required message) hnone
  | minLength | maxLength => exact hof (.lengthRule _ _ _ _ _) hnone
  | minValue | maxValue => exact hof (.valueRule _ _ _ _ _) hnone
  | inRange low high message => exact hof (.inRange low high message) hnone
  | deserialize d htypes => exact hof (.deserialize d (List.Subset.refl _)) htypes
  | copyNode hr => exact hof (.copyNode (List.mem_singleton.mpr rfl)) (List.forall_mem_singleton.mpr hr)

end LiveTree
