import LiveTree.Proofs.Reads.Browsing

/-! Snapshots at seats. A snapshot asks for wrappers as it goes down, but what it comes to is fixed by
the seat of the upper wrapper and the registries that wrappers below have of their own: it can be
worked out on the store alone. So it comes to the same whenever it is done. -/

namespace LiveTree

variable {σ α β : Type} {s : Store} {p : Seat} {own : Path → Option Registry}

/-! ### Snapshots on the store -/

namespace Seat

variable [Host]

/-- What a snapshot at a seat holds for a child, which a node is read for. -/
def childSnapshot (go : Seat → (Path → Option Registry) → EvalM Value) (p : Seat)
    (own : Path → Option Registry) (key : String) (r : NodeRef) (n : Node) : EvalM Value :=
  if !n.children.isEmpty || n.kind.isExpression then
    go (p.child r (own [key])) fun q => own (key :: q)
  else (p.child r (own [key])).value

/-- What a snapshot at a seat holds for some children, one after another. -/
def childSnapshots (go : Seat → (Path → Option Registry) → EvalM Value) (p : Seat)
    (own : Path → Option Registry) (d : Entries Value) :
    List (String × NodeRef) → EvalM (Entries Value)
  | [] => return d
  | (key, r) :: rest => do
    let n := (← EvalM.read id).node r
    let v ← p.childSnapshot go own key r n
    childSnapshots go p own (d.insert key v) rest

/-- The snapshot at a seat, to a given depth, when registries of their own are known for the
wrappers below. -/
def snapshotTo : ℕ → Seat → (Path → Option Registry) → EvalM Value
  | 0, _, _ => EvalM.fail .endless
  | n + 1, p, own => do
    let node := (← EvalM.read id).node p.node
    if node.kind.isExpression then p.value
    else if node.value.isNone then do
      let d ← p.childSnapshots (snapshotTo n) own ∅ node.children.toList
      EvalM.update (·.newDict d)
    else do
      let v ← p.value
      let children := ((← EvalM.read id).node p.node).children
      if children.isEmpty then return v
      else do
        let d ← p.childSnapshots (snapshotTo n) own (.ofList [(ownValueKey, v)]) children.toList
        EvalM.update (·.newDict d)

end Seat

/-! ### From snapshots of wrappers to snapshots on the store -/

/-- Whether an operation in a world has come out like a computation on its store, and has done
nothing to the wrappers but browse. -/
inductive TreeM.Rendered (w : WrapperRef) (x : World σ) :
    EStateM.Result Fault (World σ) α → Outcome α → Prop
  | ok {a : α} {y : World σ} (hb : Forest.Roamed w x.forest y.forest) :
    Rendered w x (.ok a y) (.done a y.forest.store)
  | error {e : Fault} {y : World σ} {rest : Aftermath} : Rendered w x (.error e y) (.failed e rest)

/-- Whether an operation does to the store what a computation does, and to the wrappers nothing but
browse. -/
def TreeM.Renders (w : WrapperRef) (m : TreeM σ α) (e : EvalM α) (x : World σ) : Prop :=
  TreeM.Rendered w x (m x) (e x.forest.store)

namespace TreeM.Renders

variable {x y : World σ} {w c : WrapperRef} {m : TreeM σ α} {e : EvalM α} {key : String}

theorem pure (a : α) : Renders w (Pure.pure a) (Pure.pure a) x := .ok (.refl x.forest w)

theorem throw (f : Fault) : Renders w (MonadExcept.throw f : TreeM σ α) (EvalM.fail f) x := .error

theorem bind {k : α → TreeM σ β} {k' : α → EvalM β} (hm : Renders w m e x)
    (hk : ∀ a y, Forest.Roamed w x.forest y.forest → Renders w (k a) (k' a) y) :
    Renders w (m >>= k) (e >>= k') x := by
  show Rendered w x ((m >>= k) x) ((e x.forest.store).bind k')
  have hfirst : Rendered w x (m x) (e x.forest.store) := hm
  cases hrun : m x with
  | error f y =>
    rw [hrun] at hfirst
    rw [bind_of_error hrun]
    generalize e x.forest.store = o at hfirst
    cases hfirst
    exact .error
  | ok a y =>
    rw [hrun] at hfirst
    rw [bind_of_ok hrun]
    generalize e x.forest.store = o at hfirst
    cases hfirst with
    | ok hb =>
      have hsecond : Rendered w y (k a y) (k' a y.forest.store) := hk a y hb
      show Rendered w x (k a y) (k' a y.forest.store)
      generalize k a y = r at hsecond ⊢
      generalize k' a y.forest.store = o at hsecond
      cases hsecond with
      | ok hb' => exact .ok (hb.trans hb')
      | error => exact .error

/-- Looking at the forest is looking at the store. -/
theorem look {k : Forest → TreeM σ β} {k' : Store → EvalM β}
    (h : Renders w (k x.forest) (k' x.forest.store) x) :
    Renders w (TreeM.forest >>= k) (EvalM.read id >>= k') x := h

theorem childKeys {k : List String → TreeM σ β} {k' : Store → EvalM β}
    (h : Renders w (k (x.forest.nodeAt w).children.keys) (k' x.forest.store) x) :
    Renders w (TreeM.childKeys w >>= k) (EvalM.read id >>= k') x := h

/-- What is done below a wrapper has been done below those made before. -/
theorem of_le (h : Renders c m e x) (hle : w.index ≤ c.index) : Renders w m e x := by
  show Rendered w x (m x) (e x.forest.store)
  have h : Rendered c x (m x) (e x.forest.store) := h
  generalize m x = r at h ⊢
  generalize e x.forest.store = o at h
  cases h with
  | ok hb => exact .ok (hb.of_le hle)
  | error => exact .error

/-- A calm read is no more than browsing. -/
theorem of_means (hm : Means x m e) (he : e.Calm) :
    Renders w m e x := by
  show Rendered w x (m x) (e x.forest.store)
  rw [show m x = TreeM.eval e x from hm x.forest.store]
  rcases he.eval_cases x with ⟨a, t, hrun, heval, hs, hn⟩ | ⟨f, t, hrun, heval⟩ <;> rw [hrun, heval]
  · exact .ok (y := x.withStore t) (.of_store x.forest w hs hn)
  · exact .error

theorem newDict (d : Entries Value) :
    Renders w (TreeM.newDict d) (EvalM.update (·.newDict d)) x :=
  .ok (y := x.withStore (x.forest.store.newDict d).2)
    (.of_store x.forest w (Store.later_allocDict d) rfl)

/-- Asking for a child that is there goes on at a wrapper for it. -/
theorem child {k : Option WrapperRef → TreeM σ β} {e : EvalM β} {r : NodeRef}
    (hx : x.forest.Placed) (hw : w.index < x.forest.wrappers.size)
    (hr : (x.forest.nodeAt w).children.get? key = some r)
    (hk : ∀ c y, Forest.Gives w key x.forest c y.forest → Renders w (k (some c)) e y) :
    Renders w (TreeM.updateForest (·.child w key) >>= k) e x := by
  rcases Forest.child_gives hx hw key with ⟨hnone, -⟩ | ⟨c, g, hchild, hgives⟩
  · cases hnone.symm.trans hr
  · show Rendered w x ((TreeM.updateForest (·.child w key) >>= k) x) (e x.forest.store)
    rw [bind_of_ok (TreeM.updateForest_eq hchild)]
    have hrest : Rendered w (x.withForest g) (k (some c) (x.withForest g)) (e g.store) :=
      hk c (x.withForest g) hgives
    rw [← hgives.store]
    generalize k (some c) (x.withForest g) = r at hrest ⊢
    generalize e g.store = o at hrest
    cases hrest with
    | ok hb => exact .ok (hgives.roamed.trans hb)
    | error => exact .error

variable [Host]

theorem getValue (h : x.Seated w p own) : Renders w (TreeM.getValue w []) p.value x := by
  have hmeans := Means.getValue h.live
  rw [h.seat] at hmeans
  exact of_means hmeans h.standard.value

theorem snapshotChildren {go : WrapperRef → TreeM σ Value}
    {go' : Seat → (Path → Option Registry) → EvalM Value}
    (hgo : ∀ (y : World σ) c q own', y.Seated c q own' → Renders c (go c) (go' q own') y)
    (h : x.Seated w p own) {l : List (String × NodeRef)}
    (hl : ∀ e ∈ l, (x.forest.nodeAt w).children.get? e.1 = some e.2) (d : Entries Value) :
    Renders w (TreeM.snapshotChildren go w d (l.map Prod.fst)) (p.childSnapshots go' own d l) x := by
  induction l generalizing x d with
  | nil => exact pure d
  | cons e rest ih =>
    obtain ⟨key, r⟩ := e
    obtain ⟨hr, hrest⟩ := List.forall_mem_cons.mp hl
    refine child h.arises.placed h.made hr fun c y hgives => ?_
    have hc := h.given hgives hr
    have hy := h.roamed hgives.roamed
    have hle : w.index ≤ c.index := Nat.le_of_lt hgives.after
    have hloop : ∀ v (z : World σ), Forest.Roamed w y.forest z.forest →
        Renders w (TreeM.snapshotChildren go w (d.insert key v) (rest.map Prod.fst))
          (p.childSnapshots go' own (d.insert key v) rest) z := fun v z hb => by
      refine ih (hy.roamed hb) (fun e he => ?_) _
      rw [hb.nodeAt_eq, hgives.roamed.nodeAt_eq]
      exact hrest e he
    refine look ?_
    dsimp only
    rw [hc.nodeAt_eq, Seat.childSnapshot, show (p.child r (own [key])).node = r from rfl]
    split
    · exact (of_le (hgo y c _ _ hc) hle).bind hloop
    · exact (of_le (getValue hc) hle).bind hloop

theorem snapshotTo (n : ℕ) (h : x.Seated w p own) :
    Renders w (TreeM.snapshotTo n w) (Seat.snapshotTo n p own) x := by
  induction n generalizing x w p own with
  | zero => exact throw _
  | succ n ih =>
    have hchildren : ∀ (y : World σ) (d : Entries Value), Forest.Roamed w x.forest y.forest →
        Renders w
          (TreeM.snapshotChildren (TreeM.snapshotTo n) w d (y.forest.nodeAt w).children.keys >>=
            TreeM.newDict)
          (p.childSnapshots (Seat.snapshotTo n) own d
              (y.forest.store.node p.node).children.toList >>= fun d => EvalM.update (·.newDict d))
          y := by
      intro y d hb
      have hy := h.roamed hb
      rw [← hy.nodeAt_eq]
      refine (snapshotChildren (fun y c q own' hc => ih hc) hy
        (fun e he => Entries.get?_eq_some_iff.mpr he) d).bind fun d z hb' => ?_
      exact newDict d
    refine look ?_
    dsimp only
    rw [h.nodeAt_eq]
    split
    · exact getValue h
    split
    · exact hchildren x ∅ (.refl x.forest w)
    · refine (getValue h).bind fun v y hb => ?_
      have hkeys : (y.forest.nodeAt w).children.keys.isEmpty =
          (y.forest.store.node p.node).children.isEmpty := by
        rw [(h.roamed hb).nodeAt_eq]
        exact List.isEmpty_map
      refine childKeys ?_
      rw [hkeys]
      split
      · exact pure v
      · exact hchildren y (.ofList [(ownValueKey, v)]) hb

theorem snapshot (h : x.Seated w p own) :
    Renders w (TreeM.snapshot w)
      (Seat.snapshotTo (x.forest.store.nodes.size + TreeM.visitMargin) p own) x := by
  show Rendered w x (TreeM.snapshot w x) _
  rw [TreeM.snapshot, bind_of_ok (TreeM.checkAlive_of_live h.live)]
  exact snapshotTo _ h

omit [Host] in
theorem of_ok {a : α} (h : Renders w m e x) (hrun : m x = .ok a y) :
    e x.forest.store = .done a y.forest.store ∧ Forest.Roamed w x.forest y.forest := by
  have h : Rendered w x (m x) (e x.forest.store) := h
  rw [hrun] at h
  generalize e x.forest.store = o at h ⊢
  cases h with
  | ok hb => exact ⟨rfl, hb⟩

omit [Host] in
theorem of_done {a : α} {t : Store} (h : Renders w m e x) (hrun : e x.forest.store = .done a t) :
    ∃ y, m x = .ok a y ∧ y.forest.store = t := by
  have h : Rendered w x (m x) (e x.forest.store) := h
  rw [hrun] at h
  generalize m x = r at h ⊢
  cases h with
  | ok => exact ⟨_, rfl, rfl⟩

end TreeM.Renders

/-! ### Snapshots are calm -/

namespace Seat.Standard

variable [Host]

theorem childSnapshot {go : Seat → (Path → Option Registry) → EvalM Value}
    (hgo : ∀ q own', q.Standard → Seat.OwnStandard own' → (go q own').Calm) (hp : p.Standard)
    (hown : Seat.OwnStandard own) (key : String) (r : NodeRef) (n : Node) :
    (p.childSnapshot go own key r n).Calm := by
  have hchild := hp.child (hown [key]) r
  rw [Seat.childSnapshot]
  split
  · exact hgo _ _ hchild (fun q => hown (key :: q))
  · exact hchild.value

theorem childSnapshots {go : Seat → (Path → Option Registry) → EvalM Value}
    (hgo : ∀ q own', q.Standard → Seat.OwnStandard own' → (go q own').Calm) (hp : p.Standard)
    (hown : Seat.OwnStandard own) (d : Entries Value) (l : List (String × NodeRef)) :
    (p.childSnapshots go own d l).Calm := by
  induction l generalizing d with
  | nil => exact .pure d
  | cons e rest ih =>
    exact .bind (.read _) fun _ => (childSnapshot hgo hp hown e.1 e.2 _).bind fun _ => ih _

theorem snapshotTo (n : ℕ) (hp : p.Standard) (hown : Seat.OwnStandard own) :
    (Seat.snapshotTo n p own).Calm := by
  induction n generalizing p own with
  | zero => exact .fail _
  | succ n ih =>
    have hchildren : ∀ d l, (p.childSnapshots (Seat.snapshotTo n) own d l >>=
        fun d => EvalM.update (·.newDict d)).Calm := fun d l =>
      (childSnapshots (fun q own' hq hown' => ih hq hown') hp hown d l).bind fun d =>
        .update fun s => ⟨s.later_allocDict d, rfl⟩
    refine .bind (.read _) fun s => ?_
    dsimp only
    split
    · exact hp.value
    split
    · exact hchildren _ _
    · refine hp.value.bind fun v => .bind (.read _) fun s' => ?_
      split
      · exact .pure v
      · exact hchildren _ _

end Seat.Standard

/-! ### Snapshots on corresponding stores -/

namespace Seat.Paired

variable {C : Correspondence} {k n n' : ℕ} {p' : Seat}

/-- The seats of children that belong together go together. -/
theorem child (hp : p.Paired C s p') {r r' : NodeRef} (hr : C.Paired s r r')
    (hown : Seat.OwnStandard own) (key : String) :
    (p.child r (own [key])).Paired C s (p'.child r' (own [key])) where
  node := hr
  root := hp.root
  known := .cons ⟨hr, .some hp.node⟩ hp.known
  registry := by
    rw [Seat.child, Seat.child, hp.registry]
  standard := hp.standard.child (hown [key]) r

variable [Host] (hC : C.Stocked)

include hC

theorem childSnapshots {go go' : Seat → (Path → Option Registry) → EvalM Value}
    (hgo : ∀ s q q' own', q.Paired C s q' → Seat.OwnStandard own' →
      (∀ s', s.Later s' → EndsWithin s'.held k q.node) →
      C.Tracks s C.values (go q own') (go' q' own'))
    (hp : p.Paired C s p') (hown : Seat.OwnStandard own) {l l' : List (String × NodeRef)}
    (hl : List.Forall₂ (fun e e' => e'.1 = e.1 ∧ C.Paired s e.2 e'.2) l l')
    (hends : ∀ e ∈ l, ∀ s', s.Later s' → EndsWithin s'.held k e.2)
    {d d' : Entries Value} (hd : C.Maps s d d') :
    C.Tracks s C.Maps (p.childSnapshots go own d l) (p'.childSnapshots go' own d' l') := by
  induction l generalizing s d d' l' with
  | nil =>
    cases hl
    exact .pure fun _ hs => hd.later hC.toLawful hs
  | cons e rest ih =>
    cases hl with
    | @cons _ e' _ rest' he hrest =>
      obtain ⟨_, r⟩ := e
      obtain ⟨key, r'⟩ := e'
      obtain ⟨rfl, hr⟩ := he
      obtain ⟨hend, hends⟩ := List.forall_mem_cons.mp hends
      refine .look fun s' t hs ht => ?_
      have hp := hp.later hC.toLawful hs
      have hr := hr.later hC.toLawful hs
      have hnode := hC.nodes ht hr
      have hchild := hp.child hr hown key
      have hsnapshot : C.Tracks s' C.values (p.childSnapshot go own key r (s'.node r))
          (p'.childSnapshot go' own key r' (t.node r')) := by
        have hempty : (t.node r').children.isEmpty = (s'.node r).children.isEmpty :=
          (hnode.entries .children).isEmpty_eq
        rw [Seat.childSnapshot, Seat.childSnapshot, hempty, hnode.kind]
        split
        · exact hgo s' _ _ _ hchild (fun q => hown (key :: q)) fun s'' hs' => hend s'' (hs.trans hs')
        · exact hchild.value hC.toLawful
      refine hsnapshot.bind fun s'' v v' hs' hv => ?_
      refine ih (hp.later hC.toLawful hs') (hrest.imp fun _ _ he => ?_) (fun e he u hu => ?_)
        ((hd.later hC.toLawful (hs.trans hs')).insert key hv)
      · exact ⟨he.1, he.2.later hC.toLawful (hs.trans hs')⟩
      · exact hends e he u ((hs.trans hs').trans hu)

/-- Snapshots at seats that go together come to corresponding values on corresponding stores, to
whatever depths that the descent does not exceed. -/
theorem snapshotTo (hp : p.Paired C s p') (hown : Seat.OwnStandard own)
    (hk : ∀ s', s.Later s' → EndsWithin s'.held k p.node) (hn : k ≤ n) (hn' : k ≤ n') :
    C.Tracks s C.values (Seat.snapshotTo n p own) (Seat.snapshotTo n' p' own) := by
  induction k generalizing s p p' own n n' with
  | zero => exact (hk s (.refl s)).elim
  | succ k ih =>
    obtain ⟨n, rfl⟩ : ∃ m, n = m + 1 := ⟨n - 1, by omega⟩
    obtain ⟨n', rfl⟩ : ∃ m, n' = m + 1 := ⟨n' - 1, by omega⟩
    have hchildren : ∀ s' t, s.Later s' → C.stores s' t → ∀ d d', C.Maps s' d d' →
        C.Tracks s' C.values
          (p.childSnapshots (Seat.snapshotTo n) own d (s'.node p.node).children.toList >>=
            fun d => EvalM.update (·.newDict d))
          (p'.childSnapshots (Seat.snapshotTo n') own d' (t.node p'.node).children.toList >>=
            fun d => EvalM.update (·.newDict d)) := by
      intro s' t hs ht d d' hd
      have hp := hp.later hC.toLawful hs
      refine (childSnapshots hC (k := k) ?_ hp hown
        ((hC.nodes ht hp.node).entries .children).pairs (fun e he u hu => ?_) hd).bind
        fun u d d' hu hd => ?_
      · exact fun u q q' own' hq hown' hend =>
          ih hq hown' hend (Nat.le_of_succ_le_succ hn) (Nat.le_of_succ_le_succ hn')
      · refine hk u (hs.trans hu) _ (Store.mem_held.mpr ⟨.children, ?_⟩)
        rw [hu.node (hC.has ht hp.node)]
        exact List.mem_map_of_mem he
      · exact .update fun v t hv ht =>
          ⟨v.later_allocDict d, hC.newDict ht (hd.later hC.toLawful hv)⟩
    refine .look fun s' t hs ht => ?_
    have hp' := hp.later hC.toLawful hs
    have hnode := hC.nodes ht hp'.node
    dsimp only [id]
    rw [hnode.kind, (hC.sort hnode.value).isNone_eq]
    split
    · exact hp'.value hC.toLawful
    split
    · exact hchildren s' t hs ht ∅ ∅ .empty
    · refine (hp'.value hC.toLawful).bind fun s'' v v' hs' hv => ?_
      refine .look fun u t' hu ht' => ?_
      have hp'' := (hp'.later hC.toLawful hs').later hC.toLawful hu
      have hv := hC.later hv hu
      have hempty : (t'.node p'.node).children.isEmpty = (u.node p.node).children.isEmpty :=
        ((hC.nodes ht' hp''.node).entries .children).isEmpty_eq
      rw [hempty]
      split
      · exact .pure fun z hz => hC.later hv hz
      · exact hchildren u t' ((hs.trans hs').trans hu) ht' _ _ (.ofList (.cons ⟨rfl, hv⟩ .nil))

end Seat.Paired

end LiveTree
