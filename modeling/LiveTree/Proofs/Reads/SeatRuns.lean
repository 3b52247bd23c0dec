import LiveTree.Proofs.Reads.Grounded
import LiveTree.Proofs.Reads.Seats
import LiveTree.Proofs.Runs.Calm

/-! Reads at a seat whenever they are done. With standard operators a read at a seat is calm. And on
two stores that correspond it comes to values that correspond, to the same findings or to the same
fault, as long as what the seat goes by is known to both. -/

namespace LiveTree

variable {α β γ δ : Type} {p : Seat} {s : Store}

/-- Whether a seat has standard operators only. -/
def Seat.Standard (p : Seat) : Prop := ∀ g, p.registry = some g → g.IsStandard

/-! ### Calm reads -/

namespace Seat.Standard

theorem inContext (hp : p.Standard) {k : Context → EvalM α}
    (hk : ∀ g, g.IsStandard → (k (p.contextWith g)).Calm) : (p.context >>= k).Calm := by
  rw [Seat.context]
  cases hg : p.registry with
  | none => exact fun s => .failed
  | some g => exact hk g (hp g hg)

variable [Host] (hp : p.Standard)

omit hp in
theorem valueOf {c : Context} (hc : c.registry.IsStandard) (r : NodeRef) : (c.valueOf r).Calm := by
  refine .bind (.read _) fun s => ?_
  split
  · exact evaluate_calm hc r
  · cases (s.node r).value with
    | node v => exact evaluate_calm hc v
    | _ => exact .pure _

include hp

theorem value : p.value.Calm := hp.inContext fun _ hg => valueOf hg _

theorem evaluated (r : NodeRef) {k : Value → EvalM α} (hk : ∀ v, (k v).Calm) :
    (do
      let c ← p.context
      let v ← evaluate c r
      k v).Calm :=
  hp.inContext fun g hg => .bind (evaluate_calm (c := p.contextWith g) hg r) hk

theorem constraint (key : String) : (p.constraint key).Calm := by
  refine .bind (.read _) fun s => ?_
  cases (s.node p.node).constraints.get? key with
  | none => exact .pure _
  | some r =>
    dsimp only
    cases (s.node r).value with
    | none => exact .pure _
    | node rule => exact hp.evaluated rule fun v => .read _
    | _ => exact .read _

theorem message (key : String) (rule : NodeRef) : (p.message key rule).Calm := by
  refine .bind (.read _) fun s => ?_
  cases (s.node rule).metadata.get? "message" with
  | none => exact .pure _
  | some r =>
    dsimp only
    cases (s.node r).value with
    | none => exact .pure _
    | node expr => exact hp.evaluated expr fun v => .check _
    | _ => exact .check _

theorem checkAll (failures : Failures) (l : List (String × NodeRef)) :
    (p.checkAll failures l).Calm := by
  induction l generalizing failures with
  | nil => exact .pure _
  | cons q rest ih =>
    refine (hp.constraint q.1).bind fun holds => ?_
    cases holds with
    | true => exact ih _
    | false => exact (hp.message q.1 q.2).bind fun text => ih _

theorem failures : p.failures.Calm := .bind (.read _) fun _ => hp.checkAll _ _

end Seat.Standard

/-- What a calm computation comes to in a world it comes to on the store. -/
theorem EvalM.Calm.eval_cases {σ : Type} {m : EvalM α} (hm : m.Calm) (x : World σ) :
    (∃ a t, m x.forest.store = .done a t ∧ TreeM.eval m x = .ok a (x.withStore t) ∧
      x.forest.store.Later t ∧ t.nodes = x.forest.store.nodes) ∨
      ∃ e t, m x.forest.store = .failed e (.ended t) ∧
        TreeM.eval m x = .error e (x.withStore t) := by
  have hcalm := hm x.forest.store
  cases hrun : m x.forest.store with
  | done a t => exact .inl ⟨a, t, rfl, TreeM.eval_done hrun, hm.done hrun⟩
  | failed e rest =>
    rw [hrun] at hcalm
    cases hcalm
    exact .inr ⟨e, _, rfl, TreeM.eval_failed hrun⟩
  | paused t resume =>
    rw [hrun] at hcalm
    cases hcalm

theorem EvalM.Calm.done_of_eval {σ : Type} {m : EvalM α} (hm : m.Calm) {x z : World σ} {a : α}
    (h : TreeM.eval m x = .ok a z) :
    ∃ t, m x.forest.store = .done a t ∧ z = x.withStore t ∧ x.forest.store.Later t ∧
      t.nodes = x.forest.store.nodes := by
  rcases hm.eval_cases x with ⟨b, t, hrun, heval, hs, hn⟩ | ⟨e, t, -, heval⟩
  · cases heval.symm.trans h
    exact ⟨t, hrun, rfl, hs, hn⟩
  · cases heval.symm.trans h

/-! ### Reads on corresponding stores -/

/-- Looking at the store comes to the same if what follows does on all corresponding stores. -/
theorem Correspondence.Tracks.look {C : Correspondence} {S : Store → γ → δ → Prop}
    {k : Store → EvalM γ} {k' : Store → EvalM δ}
    (h : ∀ s' t, s.Later s' → C.stores s' t → C.Tracks s' S (k s') (k' t)) :
    C.Tracks s S (EvalM.read id >>= k) (EvalM.read id >>= k') :=
  fun s' t hs ht => h s' t hs ht s' t (.refl s') ht

/-- Whether two seats go by nodes that belong together and by the same operators, only standard
ones. -/
structure Seat.Paired (C : Correspondence) (s : Store) (p p' : Seat) : Prop where
  node : C.Paired s p.node p'.node
  root : C.Paired s p.root p'.root
  known : List.Forall₂ (fun e e' => C.Paired s e.1 e'.1 ∧ C.Found s e.2 e'.2) p.known p'.known
  registry : p'.registry = p.registry
  standard : p.Standard

/-- Whether all nodes that a seat goes by belong to themselves, and its operators are standard. -/
abbrev Seat.Known (C : Correspondence) (s : Store) (p : Seat) : Prop := p.Paired C s p

namespace Seat.Paired

variable {C : Correspondence} {p p' : Seat}

theorem later (hC : C.Lawful) {s' : Store} (hp : p.Paired C s p') (hs : s.Later s') :
    p.Paired C s' p' where
  node := hp.node.later hC hs
  root := hp.root.later hC hs
  known := hp.known.imp fun _ _ he => ⟨he.1.later hC hs, Correspondence.Found.later hC he.2 hs⟩
  registry := hp.registry
  standard := hp.standard

theorem inContext (hp : p.Paired C s p') {S : Store → γ → δ → Prop}
    {k : Context → EvalM γ} {k' : Context → EvalM δ}
    (hk : ∀ g, C.Contexts s (p.contextWith g) (p'.contextWith g) →
      C.Tracks s S (k (p.contextWith g)) (k' (p'.contextWith g))) :
    C.Tracks s S (p.context >>= k) (p'.context >>= k') := by
  rw [Seat.context, Seat.context, hp.registry]
  cases hg : p.registry with
  | none =>
    have htame : Fault.noRegistry.Tame := by
      intro id hid
      cases hid
    exact .fail htame
  | some g =>
    exact hk g ⟨hp.node, hp.root, rfl, .some ⟨hp.known, .some hp.root⟩, .none, hp.standard g hg⟩

variable [Host] (hC : C.Lawful)

include hC

theorem valueOf {c c' : Context} (hc : C.Contexts s c c') (hdepth : c'.depth = c.depth)
    {r r' : NodeRef} (hr : C.Paired s r r') : C.Tracks s C.values (c.valueOf r) (c'.valueOf r') := by
  refine .look fun s' t hs ht => ?_
  have hr := hr.later hC hs
  have hc := hc.later hC hs
  have hnode := hC.nodes ht hr
  have hvalue := hnode.value
  have hsort := hC.sort hvalue
  rw [hnode.kind]
  split
  · exact evaluate_tracks hC hc hdepth hr
  · generalize (s'.node r).value = v at hvalue hsort
    generalize (t.node r').value = v' at hvalue hsort
    cases hsort with
    | node q q' => exact evaluate_tracks hC hc hdepth hvalue
    | @scalar v hv =>
      cases v with
      | node => cases hv
      | _ => exact .pure fun s'' hs => hC.later hvalue hs
    | _ => exact .pure fun s'' hs => hC.later hvalue hs

variable (hp : p.Paired C s p')

include hp

theorem value : C.Tracks s C.values p.value p'.value :=
  hp.inContext fun _ hc => valueOf hC hc rfl hp.node

theorem evaluated {r r' : NodeRef} (hr : C.Paired s r r') {k : Value → EvalM γ}
    {k' : Value → EvalM δ} {S : Store → γ → δ → Prop}
    (hk : ∀ s' v v', s.Later s' → C.values s' v v' → C.Tracks s' S (k v) (k' v')) :
    C.Tracks s S (do
        let c ← p.context
        let v ← evaluate c r
        k v)
      (do
        let c ← p'.context
        let v ← evaluate c r'
        k' v) :=
  hp.inContext fun _ hc => (evaluate_tracks hC hc rfl hr).bind hk

omit [Host] hp in
theorem isTrue {v v' : Value} (hv : C.values s v v') :
    C.Tracks s (fun _ b b' => b' = b) (EvalM.read (·.truthy v)) (EvalM.read (·.truthy v')) :=
  .read fun _ _ hs ht => hC.truthy_eq ht (hC.later hv hs)

omit [Host] hp in
theorem text {v v' : Value} (hv : C.values s v v') :
    C.Tracks s (fun _ b b' => b' = b) (EvalM.check (·.valueText v))
      (EvalM.check (·.valueText v')) :=
  .check fun s' _ hs ht => .of_eq (hC.valueText_eq ht (hC.later hv hs)) (s'.tame_valueText v)
    fun _ _ => rfl

/-- An attribute with a value comes to what is made of it, once it has been evaluated if it is a
node; without one, or without a value, both come to the same. -/
theorem entry {t : Store} (ht : C.stores s t) {o o' : Option NodeRef} (absent : α)
    {k k' : Value → EvalM α}
    (hk : ∀ {s' v v'}, C.values s' v v' → C.Tracks s' (fun _ b b' => b' = b) (k v) (k' v')) :
    Option.Rel (C.Paired s) o o' → C.Tracks s (fun _ b b' => b' = b)
      (match o with
      | none => return absent
      | some r =>
        match (s.node r).value with
        | .none => return absent
        | .node expr => do
          let c ← p.context
          let v ← evaluate c expr
          k v
        | v => k v)
      (match o' with
      | none => return absent
      | some r =>
        match (t.node r).value with
        | .none => return absent
        | .node expr => do
          let c ← p'.context
          let v ← evaluate c expr
          k' v
        | v => k' v) := by
  intro ho
  cases ho with
  | none => exact .pure fun _ _ => rfl
  | @some r r' hr =>
    have hvalue := (hC.nodes ht hr).value
    have hsort := hC.sort hvalue
    dsimp only
    generalize (s.node r).value = v at hvalue hsort
    generalize (t.node r').value = v' at hvalue hsort
    cases hsort with
    | node expr expr' => exact hp.evaluated hC hvalue fun _ _ _ _ hv => hk hv
    | @scalar v hv =>
      cases v with
      | none => exact .pure fun _ _ => rfl
      | node => cases hv
      | _ => exact hk hvalue
    | _ => exact hk hvalue

theorem constraint (key : String) :
    C.Tracks s (fun _ b b' => b' = b) (p.constraint key) (p'.constraint key) := by
  refine .look fun s' t hs ht => ?_
  have hp := hp.later hC hs
  exact hp.entry hC ht true (fun hv => isTrue hC hv)
    (((hC.nodes ht hp.node).entries .constraints).get? key)

theorem message (key : String) {rule rule' : NodeRef} (hrule : C.Paired s rule rule') :
    C.Tracks s (fun _ b b' => b' = b) (p.message key rule) (p'.message key rule') := by
  refine .look fun s' t hs ht => ?_
  exact (hp.later hC hs).entry hC ht _ (fun hv => text hC hv)
    (((hC.nodes ht (hrule.later hC hs)).entries .metadata).get? "message")

theorem checkAll (failures : Failures) {l l' : List (String × NodeRef)}
    (hl : List.Forall₂ (fun q q' => q'.1 = q.1 ∧ C.Paired s q.2 q'.2) l l') :
    C.Tracks s (fun _ m m' => m' = m) (p.checkAll failures l) (p'.checkAll failures l') := by
  induction l generalizing failures s l' with
  | nil =>
    cases hl
    exact .pure fun _ _ => rfl
  | cons q rest ih =>
    cases hl with
    | @cons _ q' _ rest' hq hrest =>
      obtain ⟨_, rule⟩ := q
      obtain ⟨key, rule'⟩ := q'
      obtain ⟨rfl, hrule⟩ := hq
      have hlater : ∀ {s'}, s.Later s' → List.Forall₂
          (fun q q' => q'.1 = q.1 ∧ C.Paired s' q.2 q'.2) rest rest' := fun hs =>
        hrest.imp fun _ _ hq => ⟨hq.1, hq.2.later hC hs⟩
      refine (hp.constraint hC key).bind ?_
      rintro s' _ holds hs rfl
      cases holds with
      | true => exact ih (hp.later hC hs) _ (hlater hs)
      | false =>
        refine ((hp.later hC hs).message hC key (hrule.later hC hs)).bind ?_
        rintro s'' _ text hs' rfl
        exact ih (hp.later hC (hs.trans hs')) _ (hlater (hs.trans hs'))

/-- What is found at seats that go together is the same on corresponding stores. -/
theorem failures : C.Tracks s (fun _ m m' => m' = m) p.failures p'.failures := by
  refine .look fun s' t hs ht => ?_
  have hp := hp.later hC hs
  exact hp.checkAll hC ∅ ((hC.nodes ht hp.node).entries .constraints).pairs

end Seat.Paired

/-! ### Reads at two moments -/

theorem Forest.parent_mem_ancestors {f : Forest} {w a u : WrapperRef} (ho : f.Ordered)
    (ha : a ∈ w :: f.ancestors w) (hu : (f.wrapper a).parent = some u) : u ∈ f.ancestors w := by
  induction hn : w.index using Nat.strong_induction_on generalizing w with
  | h n ih =>
    cases hp : (f.wrapper w).parent with
    | none =>
      rw [f.ancestors_eq_nil hp, List.mem_singleton] at ha
      rw [ha, hp] at hu
      cases hu
    | some q =>
      rw [f.ancestors_eq_cons ho hp] at ha ⊢
      rcases List.mem_cons.mp ha with rfl | ha
      · rw [hp] at hu
        cases hu
        exact List.mem_cons_self
      · exact List.mem_cons_of_mem q (ih q.index (hn ▸ ho.parent_lt w q hp) ha rfl)

/-- Whether nothing that a seat goes by has cycles, and its operators are standard. -/
structure Seat.Grounded (s : Store) (p : Seat) : Prop where
  node : s.Grounded (.node p.node)
  root : s.Grounded (.node p.root)
  known : ∀ e ∈ p.known, s.Grounded (.node e.1) ∧ ∀ q, e.2 = some q → s.Grounded (.node q)
  standard : p.Standard

/-- What has no cycles is known at any two moments. -/
theorem Seat.Grounded.toKnown (hp : p.Grounded s) (t : Store) :
    p.Known (.shifted s t) s where
  node := hp.node.knows t s
  root := hp.root.knows t s
  known := List.forall₂_same.mpr fun e he =>
    ⟨(hp.known e he).1.knows t s, .same fun q hq => ((hp.known e he).2 q hq).knows t s⟩
  registry := rfl
  standard := hp.standard

theorem Forest.seat_grounded {f : Forest} {w : WrapperRef} (ho : f.Ordered)
    (hg : ∀ a ∈ w :: f.ancestors w, s.Grounded (.node (f.wrapper a).node))
    (hp : (f.seat w).Standard) : (f.seat w).Grounded s where
  node := hg w List.mem_cons_self
  root := hg _ (f.root_mem w)
  known e he := by
    obtain ⟨a, ha, rfl⟩ := List.mem_map.mp he
    refine ⟨hg a ha, fun q hq => ?_⟩
    obtain ⟨u, hu, rfl⟩ := Option.map_eq_some_iff.mp hq
    exact hg u (List.mem_cons_of_mem w (f.parent_mem_ancestors ho ha hu))
  standard := hp

/-- What comes to the same on corresponding stores comes to the same at any two moments. -/
theorem EvalM.done_later {m : EvalM α} {t s' t' : Store} {a : α} (hs : s.WellFormed)
    (hm : ∀ u, s.Later u → (Correspondence.shifted s u).Tracks s
      (fun _ a b => b = a) m m) (ht : s.Later t) (h : m t = .done a t') (hs' : s.Later s') :
    ∃ u, m s' = .done a u := by
  have hfirst : ∃ u, m s = .done a u := by
    have hstep := hm t ht s t (.refl s) (.start (counterparts_of_later hs ht))
    rw [h] at hstep
    generalize m s = o at hstep ⊢
    cases hstep with
    | done _ _ hab => exact ⟨_, by rw [hab]⟩
  obtain ⟨u, hu⟩ := hfirst
  have hstep := hm s' hs' s s' (.refl s) (.start (counterparts_of_later hs hs'))
  rw [hu] at hstep
  generalize m s' = o at hstep ⊢
  cases hstep with
  | done _ _ hab => exact ⟨_, by rw [hab]⟩

/-- Runs that follow a run from one store come to values that look the same, whenever they are done;
and the value of the one is looked at after it. -/
theorem EvalM.done_alike {m m₁ m₂ : EvalM Value} {s₁ s₂ t₁ z : Store} {a : Value}
    (hs : s.WellFormed) (h₁ : s.Later s₁) (h₂ : s.Later s₂)
    (hm₁ : (Correspondence.shifted s s₁).Tracks s
      (Correspondence.shifted s s₁).values m m₁)
    (hm₂ : (Correspondence.shifted s s₂).Tracks s
      (Correspondence.shifted s s₂).values m m₂)
    (h : m₁ s₁ = .done a t₁) (hz : t₁.Extends z) :
    ∃ b t₂, m₂ s₂ = .done b t₂ ∧ Alike z t₂ a b := by
  have hR₁ := counterparts_of_later hs h₁
  have hR₂ := counterparts_of_later hs h₂
  have hstep₁ := hm₁ s s₁ (.refl s) (.start hR₁)
  have hstep₂ := hm₂ s s₂ (.refl s) (.start hR₂)
  rw [h] at hstep₁
  generalize m s = o at hstep₁ hstep₂
  cases hstep₁ with
  | @done c _ t _ _ ht₁ hca =>
    generalize m₂ s₂ = o₂ at hstep₂ ⊢
    cases hstep₂ with
    | @done _ b _ t₂ _ ht₂ hcb =>
      have hfirst : Alike t z c a := (ht₁.mates_later hR₁ hz).alike hca
      have hsecond : Alike t t₂ c b := ht₂.mates.alike hcb
      exact ⟨b, t₂, rfl, .of_common (ht₁.mates.ends hca) hfirst hsecond⟩

end LiveTree
