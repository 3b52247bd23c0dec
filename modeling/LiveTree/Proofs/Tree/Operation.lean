import LiveTree.Proofs.Tree.Guarded
import LiveTree.Tree.Show

/-! What a program can do to trees: any number of operations one after another, batches,
transactions and caught failures nested in one another, decisions that depend on how things stand,
and listeners that do the same when they are told of changes. -/

namespace LiveTree

/-- An operation of a program that keeps a `σ` for itself. -/
inductive Operation (σ : Type) where
  | setValue (w : WrapperRef) (v : Value) (path : Path) (silent : Bool)
  | reset (w : WrapperRef) (silent : Bool)
  | resetDeep (w : WrapperRef) (silent : Bool)
  | setEntry (role : Role) (w : WrapperRef) (key : String) (r : NodeRef) (silent : Bool)
  | removeEntry (role : Role) (w : WrapperRef) (key : String) (silent : Bool)
  | addChild (w : WrapperRef) (key : String) (r : NodeRef)
  | removeChild (w : WrapperRef) (key : String)
  | descend (w : WrapperRef) (path : Path)
  | wrap (r : NodeRef) (registry : Option Registry)
  | destroy (w : WrapperRef)
  | clone (w : WrapperRef)
  | subscribe (w : WrapperRef) (listener : Nat) (filter : Option PathFilter)
  | unsubscribe (w : WrapperRef) (number : Nat)
  | emitChange (w : WrapperRef) (path : Path)
  /-- Makes a node. -/
  | makeNode (id : String) (type : NodeRef) (content : Content)
  /-- Makes a list. -/
  | makeList (l : List Value)
  /-- Makes a tuple. -/
  | makeTuple (l : List Value)
  /-- Makes a dictionary. -/
  | makeDict (d : Entries Value)
  /-- Changes a list in place. -/
  | writeList (r : ListRef) (l : List Value)
  /-- Changes a dictionary in place. -/
  | writeDict (r : DictRef) (d : Entries Value)
  /-- Changes what the program keeps for itself. -/
  | note (g : σ → σ)
  /-- Fails. -/
  | abort (e : Fault)
  /-- Goes on as things stand. -/
  | look (k : World σ → List (Operation σ))
  /-- Goes on with something else at a failure. -/
  | attempt (body : List (Operation σ)) (handler : Fault → List (Operation σ))
  | batch (w : WrapperRef) (body : List (Operation σ))
  | transaction (w : WrapperRef) (body : List (Operation σ))

namespace Operation

variable {σ : Type}

section

variable (notify : Notify σ)

mutual

/-- Carries out an operation. -/
def perform : Operation σ → TreeM σ Unit
  | setValue w v path silent => TreeM.setValue notify w v path silent
  | reset w silent => TreeM.reset notify w silent
  | resetDeep w silent => TreeM.resetDeep notify w silent
  | setEntry role w key r silent => TreeM.setEntry notify role w key r silent
  | removeEntry role w key silent => do discard <| TreeM.removeEntry notify role w key silent
  | addChild w key r => do discard <| TreeM.addChild w key r
  | removeChild w key => do discard <| TreeM.removeChild w key
  | descend w path => do discard <| TreeM.descend w path
  | wrap r registry => do discard <| TreeM.wrap r registry
  | destroy w => TreeM.modifyForest (·.destroy w)
  | clone w => do discard <| TreeM.clone w
  | subscribe w listener filter => do discard <| TreeM.subscribe w listener filter
  | unsubscribe w number => TreeM.unsubscribe w number
  | emitChange w path => TreeM.emitChange notify w path
  | makeNode id type content => do discard <| TreeM.build (Make.node id type content)
  | makeList l => do discard <| TreeM.build (.update (·.newList l))
  | makeTuple l => do discard <| TreeM.build (.update (·.newTuple l))
  | makeDict d => do discard <| TreeM.build (.update (·.newDict d))
  | writeList r l => TreeM.modifyForest (·.modifyStore (·.setList r l))
  | writeDict r d => TreeM.modifyForest (·.modifyStore (·.setDict r d))
  | note g => modify fun x => { x with user := g x.user }
  | abort e => throw e
  | look k => do performAll (k (← get))
  | attempt body handler => tryCatch (performAll body) fun e => performAll (handler e)
  | batch w body => TreeM.batch notify w (performAll body)
  | transaction w body => TreeM.transaction w (performAll body)

/-- Carries out operations one after another. -/
def performAll : List (Operation σ) → TreeM σ Unit
  | [] => return
  | op :: rest => do
    perform op
    performAll rest

end

end

/-! ### Operations beside sealed cells -/

/-- The values that an operation is handed. -/
def operands : Operation σ → List Value
  | setValue _ v _ _ => [v]
  | setEntry _ _ _ r _ => [.node r]
  | addChild _ _ r => [.node r]
  | wrap r _ => [.node r]
  | makeNode _ type c => .node type :: c.value :: c.default ::
      (c.metadata.values ++ c.constraints.values ++ c.children.values).map Value.node
  | makeList l => l
  | makeTuple l => l
  | makeDict d => d.values
  | writeList r l => .list r :: l
  | writeDict r d => .dict r :: d.values
  | _ => []

variable (s s₁ : Store)

mutual

/-- Whether an operation is handed no cell that came between two stores, as long as things stand
in a store that is later still. -/
def Spares : Operation σ → Prop
  | look k => ∀ x, s₁.Outlives x.forest.store → SparesAll (k x)
  | attempt body handler => SparesAll body ∧ ∀ e, SparesAll (handler e)
  | batch _ body => SparesAll body
  | transaction _ body => SparesAll body
  | op => ∀ v ∈ op.operands, ¬ s.Between s₁ v

/-- Whether operations are handed no cell that came between two stores. -/
def SparesAll : List (Operation σ) → Prop
  | [] => True
  | op :: rest => Spares op ∧ SparesAll rest

end

/-- What a program does when its listeners are told of changes, as things stand, with so many
notifications still possible inside one another. -/
def reacting (react : World σ → Nat → List String → List (Operation σ)) : Nat → Notify σ
  | 0, _, _ => throw .endless
  | n + 1, listener, paths => do performAll (reacting react n) (react (← get) listener paths)

/-- The wrappers whose nodes an operation goes to. -/
def wrappers : Operation σ → List WrapperRef
  | setValue w _ _ _ => [w]
  | reset w _ => [w]
  | resetDeep w _ => [w]
  | setEntry _ w _ _ _ => [w]
  | removeEntry _ w _ _ => [w]
  | addChild w _ _ => [w]
  | removeChild w _ => [w]
  | descend w _ => [w]
  | clone w => [w]
  | transaction w _ => [w]
  | _ => []

/-- The values that an operation puts somewhere or writes to. The type of a new node is no part of
the node. -/
def handed : Operation σ → List Value
  | makeNode _ _ c => c.value :: c.default ::
      (c.metadata.values ++ c.constraints.values ++ c.children.values).map Value.node
  | op => op.operands

variable (P : Value → Prop)

mutual

/-- Whether an operation goes through wrappers of some sort only and is handed no cell of some sort,
as long as these cells are sealed and the wrappers stand clear of them. What it does as things stand
may go through all wrappers that stand clear then. -/
def Avoids : (WrapperRef → Prop) → Operation σ → Prop
  | W, look k => ∀ x, Clear P s₁ W x.forest → AvoidsAll (x.forest.StandsClear P) (k x)
  | W, attempt body handler => AvoidsAll W body ∧ ∀ e, AvoidsAll W (handler e)
  | W, batch _ body => AvoidsAll W body
  | W, transaction w body => W w ∧ AvoidsAll W body
  | W, op => (∀ w ∈ op.wrappers, W w) ∧ ∀ v ∈ op.handed, ¬ P v

/-- Whether operations go through wrappers of some sort only and are handed no cell of some sort. -/
def AvoidsAll : (WrapperRef → Prop) → List (Operation σ) → Prop
  | _, [] => True
  | W, op :: rest => Avoids W op ∧ AvoidsAll W rest

end

variable {s s₁ P} {W : WrapperRef → Prop} {notify : Notify σ}

mutual

/-- An operation that avoids sealed cells leaves all of them sealed. -/
theorem perform_clear : ∀ {W : WrapperRef → Prop}, Heeds P s₁ W notify →
    ∀ op : Operation σ, op.Avoids s₁ P W → Leaves P s₁ W (op.perform notify)
  | _, hnotify, setValue w v path silent, h =>
    .setValue hnotify (h.1 w List.mem_cons_self) (h.2 v List.mem_cons_self) path silent
  | _, hnotify, reset w silent, h => .reset hnotify (h.1 w List.mem_cons_self) silent
  | _, hnotify, resetDeep w silent, h => .resetDeep hnotify (h.1 w List.mem_cons_self) silent
  | _, hnotify, setEntry role w key r silent, h =>
    .setEntry hnotify role (h.1 w List.mem_cons_self) key (h.2 _ List.mem_cons_self) silent
  | _, hnotify, removeEntry role w key silent, h =>
    .bind (.removeEntry hnotify role (h.1 w List.mem_cons_self) key silent) fun _ _ => .pure trivial
  | _, _, addChild w key r, h =>
    .bind (.addChild (h.1 w List.mem_cons_self) key (h.2 _ List.mem_cons_self)) fun _ _ =>
      .pure trivial
  | _, _, removeChild w key, h =>
    .bind (.removeChild (h.1 w List.mem_cons_self) key) fun _ _ => .pure trivial
  | _, _, descend w path, h =>
    .bind (.descend (h.1 w List.mem_cons_self) path) fun _ _ => .pure trivial
  | _, _, wrap r registry, h =>
    .bind (.updateForest fun _ hf => hf.allocWrapper (h.2 _ List.mem_cons_self)) fun _ _ =>
      .pure trivial
  | _, _, destroy w, _ => .modifyForest fun _ hf => hf.destroy w
  | _, _, clone w, h => .bind (.clone (h.1 w List.mem_cons_self)) fun _ _ => .pure trivial
  | _, _, subscribe w listener filter, _ =>
    .bind (.subscribe w listener filter) fun _ _ => .pure trivial
  | _, _, unsubscribe w number, _ => .modifyForest fun _ hf => hf.modifyWrapper rfl
  | _, hnotify, emitChange w path, _ => .emitChange hnotify w path
  | _, _, makeNode id type c, h => by
    have hparts := h.2
    simp only [handed, List.forall_mem_cons, List.forall_mem_map] at hparts
    obtain ⟨hvalue, hdefault, hmaps⟩ := hparts
    exact .bind (.build (keeps_node hvalue hdefault hmaps)) fun _ _ => .pure trivial
  | _, _, makeList l, h => .bind (.build (keeps_newList h.2)) fun _ _ => .pure trivial
  | _, _, makeTuple l, h => .bind (.build (keeps_newTuple h.2)) fun _ _ => .pure trivial
  | _, _, makeDict d, h => .bind (.build (keeps_newDict h.2)) fun _ _ => .pure trivial
  | _, _, writeList r l, h => by
    obtain ⟨hr, hl⟩ := List.forall_mem_cons.mp h.2
    rw [perform]
    refine .modifyForest fun f hf => ?_
    exact ⟨hf.store.setList hr hl, hf.wrapper⟩
  | _, _, writeDict r d, h => by
    obtain ⟨hr, hd⟩ := List.forall_mem_cons.mp h.2
    rw [perform]
    refine .modifyForest fun f hf => ?_
    exact ⟨hf.store.setDict hr hd, hf.wrapper⟩
  | _, _, note g, _ => .modifyGet fun _ hx => ⟨hx, trivial⟩
  | _, _, abort e, _ => .throw e
  | _, hnotify, look k, h =>
    .bind_get fun x hx => performAll_clear (hnotify.wider hx.wrapper) (k x) (h x hx)
  | _, hnotify, attempt body handler, h =>
    .tryCatch (performAll_clear hnotify body h.1) fun e => performAll_clear hnotify _ (h.2 e)
  | _, hnotify, batch w body, h => .batch hnotify w (performAll_clear hnotify body h)
  | _, hnotify, transaction w body, h => .transaction h.1 (performAll_clear hnotify body h.2)

theorem performAll_clear : ∀ {W : WrapperRef → Prop}, Heeds P s₁ W notify →
    ∀ ops : List (Operation σ), AvoidsAll s₁ P W ops → Leaves P s₁ W (performAll notify ops)
  | _, _, [], _ => .pure trivial
  | _, hnotify, op :: rest, h =>
    .bind (perform_clear hnotify op h.1) fun _ _ => performAll_clear hnotify rest h.2

end

/-- Listeners that avoid sealed cells leave all of them sealed. -/
theorem reacting_clear {react : World σ → Nat → List String → List (Operation σ)}
    (h : ∀ x listener paths, Clear P s₁ W x.forest →
      AvoidsAll s₁ P (x.forest.StandsClear P) (react x listener paths)) (limit : ℕ) :
    Heeds P s₁ W (reacting react limit) := by
  induction limit with
  | zero => exact fun _ _ _ _ => .throw _
  | succ n ih =>
    intro W' hW listener paths
    refine .bind_get fun x hx => ?_
    have hwider : ∀ w, W w → x.forest.StandsClear P w := fun w hw => hx.wrapper w (hW w hw)
    exact performAll_clear (ih.wider hwider) _ (h x listener paths (hx.mono hW))

/-! ### Operations that are handed no cell from between two stores -/

theorem mem_operands_of_mem_handed {op : Operation σ} {v : Value} (h : v ∈ op.handed) :
    v ∈ op.operands := by
  cases op <;> first | exact h | exact List.mem_cons_of_mem _ h

mutual

theorem Spares.avoids {W : WrapperRef → Prop} (hW : ∀ w, W w) (op : Operation σ)
    (h : op.Spares s s₁) : op.Avoids s₁ (s.Between s₁) W := by
  cases op with
  | look k =>
    exact fun x hx => SparesAll.avoids (fun w => hx.wrapper w (hW w)) _ (h x hx.store.outlives)
  | attempt body handler =>
    exact ⟨SparesAll.avoids hW body h.1, fun e => SparesAll.avoids hW _ (h.2 e)⟩
  | batch _ body => exact SparesAll.avoids hW body h
  | transaction w body => exact ⟨hW w, SparesAll.avoids hW body h⟩
  | _ => exact ⟨fun w _ => hW w, fun v hv => h v (mem_operands_of_mem_handed hv)⟩

theorem SparesAll.avoids {W : WrapperRef → Prop} (hW : ∀ w, W w) (ops : List (Operation σ))
    (h : SparesAll s s₁ ops) : AvoidsAll s₁ (s.Between s₁) W ops := by
  cases ops with
  | nil => trivial
  | cons op rest => exact ⟨Spares.avoids hW op h.1, SparesAll.avoids hW rest h.2⟩

end

/-- Listeners that are handed no sealed cell leave all of them sealed. -/
theorem reacting_leaves {react : World σ → Nat → List String → List (Operation σ)}
    (h : ∀ x listener paths, s₁.Outlives x.forest.store → SparesAll s s₁ (react x listener paths))
    (limit : ℕ) : Heeds (s.Between s₁) s₁ (fun _ => True) (reacting react limit) :=
  reacting_clear (fun x listener paths hx =>
    SparesAll.avoids (fun w => hx.wrapper w trivial) _ (h x listener paths hx.store.outlives)) limit

/-- Operations that are handed no sealed cell leave all of them sealed. -/
theorem performAll_leaves (hnotify : Heeds (s.Between s₁) s₁ (fun _ => True) notify)
    (ops : List (Operation σ)) (h : SparesAll s s₁ ops) :
    Keeps (fun x : World σ => Guarded s s₁ x.forest) (performAll notify ops) fun _ => True := by
  simp only [guarded_iff]
  exact performAll_clear hnotify ops (SparesAll.avoids (fun _ => trivial) ops h)

end Operation

end LiveTree
