import LiveTree.Proofs.Tree.Handing
import LiveTree.Proofs.Tree.Rollback

/-! Bringing kept wrappers back in line with the nodes. A pass goes down from a wrapper, forgets the
kept wrappers that do not stand on the node that is there now, and destroys them with all that they
hold. Afterwards all that is kept at and below the wrapper stands where it should. -/

namespace LiveTree

namespace Forest

variable {f g h : Forest} {v w c d : WrapperRef} {key : String}

/-! ### What is held by what is destroyed -/

/-- Destroying is thorough: with a wrapper it destroys everything that the wrapper holds. -/
theorem Holds.detached (hd : f.Holds c d) (hfg : Thorough f g)
    (hc : g.wrapper c = (f.wrapper c).detached) : g.wrapper d = (f.wrapper d).detached := by
  induction hd with
  | refl => exact hc
  | @tail u d _ hkept ih =>
    obtain ⟨k, hkept⟩ := hkept
    rcases hfg u with e | hall
    · rw [e.symm.trans ih] at hkept
      cases hkept
    · exact hall d (Entries.mem_values_of_get? hkept)

/-- What a wrapper holds goes on to be held by it when it is forgotten by the wrapper above. -/
theorem Holds.forget_of_kept (hd : f.Holds c d) (hk : f.Kept)
    (hc : (f.wrapper v).cache.get? key = some c) : (f.forget v key).Holds c d := by
  induction hd with
  | refl => exact .refl
  | @tail u d hu hkept ih =>
    obtain ⟨k, hkept⟩ := hkept
    refine ih.step (get?_forget.mpr ⟨fun e => ?_, hkept⟩)
    have hbelow := Holds.index_le hu hk
    have habove := hk.after v key c hc
    rw [e] at hbelow
    omega

/-- What is held goes on to be held when a wrapper is forgotten, unless that one holds it. -/
theorem Holds.forget (hd : f.Holds w d) (hc : (f.wrapper v).cache.get? key = some c) :
    (f.forget v key).Holds w d ∨ f.Holds c d := by
  induction hd with
  | refl => exact .inl .refl
  | @tail u d _ hkept ih =>
    obtain ⟨k, hkept⟩ := hkept
    rcases ih with ih | ih
    · by_cases hplace : u = v → k ≠ key
      · exact .inl (ih.step (get?_forget.mpr ⟨hplace, hkept⟩))
      · simp only [Classical.not_imp, ne_eq, not_not] at hplace
        obtain ⟨rfl, rfl⟩ := hplace
        obtain rfl := Option.some.inj (hc.symm.trans hkept)
        exact .inr .refl
    · exact .inr (ih.step hkept)

/-! ### Forests that shed wrappers -/

/-- Whether a forest comes from another by forgetting wrappers, of which each is destroyed with all
that it held. -/
structure Sheds (f g : Forest) : Prop where
  store : g.store = f.store
  size : g.wrappers.size = f.wrappers.size
  node : ∀ v, (g.wrapper v).node = (f.wrapper v).node
  cache : ∀ v k c, (g.wrapper v).cache.get? k = some c → (f.wrapper v).cache.get? k = some c
  destroyed : ∀ v, (f.wrapper v).destroyed = true → (g.wrapper v).destroyed = true
  gone : ∀ v k c, (f.wrapper v).cache.get? k = some c → (g.wrapper v).cache.get? k ≠ some c →
    ∀ d, f.Holds c d → (g.wrapper d).destroyed = true

namespace Sheds

theorem refl (f : Forest) : Sheds f f where
  store := rfl
  size := rfl
  node _ := rfl
  cache _ _ _ hc := hc
  destroyed _ hv := hv
  gone _ _ _ hc hn := (hn hc).elim

/-- What is held either goes on to be held, or something on the way to it has been forgotten. -/
theorem holds_or (hfg : Sheds f g) (hd : f.Holds c d) :
    g.Holds c d ∨ (g.wrapper d).destroyed = true := by
  have hway : g.Holds c d ∨ ∃ v k b, (f.wrapper v).cache.get? k = some b ∧
      (g.wrapper v).cache.get? k ≠ some b ∧ f.Holds b d := by
    induction hd with
    | refl => exact .inl .refl
    | @tail u d _ hkept ih =>
      obtain ⟨k, hkept⟩ := hkept
      rcases ih with ih | ⟨v, k', b, hb, hlost, hbu⟩
      · by_cases hg : (g.wrapper u).cache.get? k = some d
        · exact .inl (ih.step hg)
        · exact .inr ⟨u, k, d, hkept, hg, .refl⟩
      · exact .inr ⟨v, k', b, hb, hlost, hbu.step hkept⟩
  exact hway.imp_right fun ⟨v, k, b, hb, hlost, hbd⟩ => hfg.gone v k b hb hlost d hbd

theorem trans (hfg : Sheds f g) (hgh : Sheds g h) : Sheds f h where
  store := hgh.store.trans hfg.store
  size := hgh.size.trans hfg.size
  node v := (hgh.node v).trans (hfg.node v)
  cache v k c hc := hfg.cache v k c (hgh.cache v k c hc)
  destroyed v hv := hgh.destroyed v (hfg.destroyed v hv)
  gone v k c hc hlost d hd := by
    by_cases hg : (g.wrapper v).cache.get? k = some c
    · rcases hfg.holds_or hd with hd | hd
      · exact hgh.gone v k c hg hlost d hd
      · exact hgh.destroyed d hd
    · exact hgh.destroyed d (hfg.gone v k c hc hg d hd)

theorem nodeAt (hfg : Sheds f g) (v : WrapperRef) : g.nodeAt v = f.nodeAt v := by
  rw [Forest.nodeAt, Forest.nodeAt, hfg.store, hfg.node]

theorem holds (hfg : Sheds f g) (hd : g.Holds c d) : f.Holds c d :=
  Relation.ReflTransGen.mono (fun v _ ⟨k, hk⟩ => ⟨k, hfg.cache v k _ hk⟩) _ _ hd

theorem dropCached (hk : f.Kept) (v : WrapperRef) (key : String) :
    Sheds f (f.dropCached v key) := by
  cases hd : (f.wrapper v).cache.get? key with
  | none =>
    rw [dropCached_of_none hd]
    exact .refl f
  | some d =>
    have hloses := f.dropCached_loses v key
    rw [dropCached_eq hd] at hloses ⊢
    have hfade := (f.forget v key).fades_destroy d
    have hmade : d.index < (f.forget v key).wrappers.size := by
      rw [forget, size_modifyWrapper]
      exact hk.cached_lt v d (Entries.mem_values_of_get? hd)
    obtain ⟨hself, hthorough⟩ := thorough_destroy (hk.forget v key) hmade
    have hbelow : ∀ e, f.Holds d e → (((f.forget v key).destroy d).wrapper e).destroyed = true :=
      fun e he => by
        rw [(he.forget_of_kept hk hd).detached hthorough hself]
        rfl
    refine ⟨hfade.store, hfade.size.trans (size_modifyWrapper _ _ _), fun u => ?_, fun u => (hloses u).2, fun u hu => ?_,
      fun u k c hc hlost e he => ?_⟩
    · rw [← (f.unmoved_forget v key u).node]
      rcases hfade.detached_or u with e | e <;> rw [e]
      rfl
    · rw [← (f.unmoved_forget v key u).destroyed] at hu
      rcases hfade.detached_or u with e | e <;> rw [e]
      · exact hu
      · rfl
    · by_cases hplace : u = v → k ≠ key
      · -- the wrapper that kept this one has been destroyed, and has taken it along
        rcases hthorough u with e' | hall
        · rw [e'] at hlost
          exact (hlost (get?_forget.mpr ⟨hplace, hc⟩)).elim
        · have hc' := hall c (Entries.mem_values_of_get? (get?_forget.mpr ⟨hplace, hc⟩))
          rcases he.forget hd with he | he
          · rw [he.detached hthorough hc']
            rfl
          · exact hbelow e he
      · simp only [Classical.not_imp, ne_eq, not_not] at hplace
        obtain ⟨rfl, rfl⟩ := hplace
        obtain rfl := Option.some.inj (hd.symm.trans hc)
        exact hbelow e he

end Sheds

/-! ### The pass -/

/-- What a pass does about one kept wrapper. -/
def syncOne (n : ℕ) (w : WrapperRef) (f : Forest) (p : String × WrapperRef) : Forest :=
  if (f.nodeAt w).children.get? p.1 = some (f.wrapper p.2).node then syncCacheTo n p.2 f
  else f.dropCached w p.1

theorem syncCacheTo_succ (n : ℕ) (w : WrapperRef) (f : Forest) :
    syncCacheTo (n + 1) w f = (f.wrapper w).cache.toList.foldl (syncOne n w) f := rfl

/-- What holds at first and survives forgetting a kept wrapper that does not stand on the node that is
there holds after the pass. -/
theorem syncCacheTo_induction {P : Forest → Prop} (n : ℕ) (w : WrapperRef) (hk : f.Kept) (hf : P f)
    (hdrop : ∀ g v key, g.Kept → P g → (∀ c, (g.wrapper v).cache.get? key = some c →
      (g.nodeAt v).children.get? key ≠ some (g.wrapper c).node) → P (g.dropCached v key)) :
    P (syncCacheTo n w f) := by
  induction n generalizing P f w with
  | zero => exact hf
  | succ n ih =>
    rw [syncCacheTo_succ]
    -- what is kept along the way has been kept from the start, so the list is not out of date
    have hone : ∀ p ∈ (f.wrapper w).cache.toList, ∀ g, P g ∧ g.Kept ∧ Sheds f g →
        P (syncOne n w g p) ∧ (syncOne n w g p).Kept ∧ Sheds f (syncOne n w g p) := by
      intro p hp g hg
      have hdrop' : ∀ g v key, g.Kept → P g ∧ g.Kept ∧ Sheds f g → (∀ c,
          (g.wrapper v).cache.get? key = some c →
          (g.nodeAt v).children.get? key ≠ some (g.wrapper c).node) →
          P (g.dropCached v key) ∧ (g.dropCached v key).Kept ∧ Sheds f (g.dropCached v key) :=
        fun g v key hgk hg hstale => ⟨hdrop g v key hgk hg.1 hstale, hgk.dropCached v key,
          hg.2.2.trans (.dropCached hgk v key)⟩
      rw [syncOne]
      split
      · exact ih p.2 hg.2.1 hg hdrop'
      · rename_i hstale
        refine hdrop' g w p.1 hg.2.1 hg fun c hc => ?_
        have hkept := hg.2.2.cache w p.1 c hc
        rwa [← Option.some.inj ((Entries.get?_eq_some_iff.mpr hp).symm.trans hkept)]
    exact (List.foldlRecOn _ (syncOne n w) ⟨hf, hk, .refl f⟩ fun g hg p hp => hone p hp g hg).1

theorem Kept.syncCacheTo (hk : f.Kept) (n : ℕ) (w : WrapperRef) :
    (Forest.syncCacheTo n w f).Kept ∧ Sheds f (Forest.syncCacheTo n w f) :=
  syncCacheTo_closed (P := fun g => g.Kept ∧ Sheds f g)
    (fun _ v key hg => ⟨hg.1.dropCached v key, hg.2.trans (.dropCached hg.1 v key)⟩) n w ⟨hk, .refl f⟩

/-- Whether what a wrapper keeps stands on the nodes that its own node has under the keys. -/
def Fresh (f : Forest) (v : WrapperRef) : Prop := ∀ k c, (f.wrapper v).cache.get? k = some c →
  (f.nodeAt v).children.get? k = some (f.wrapper c).node

theorem Fresh.shed (hv : f.Fresh v) (hfg : Sheds f g) : g.Fresh v := fun k c hc => by
  rw [hfg.nodeAt, hfg.node]
  exact hv k c (hfg.cache v k c hc)

/-- Whether a wrapper that is kept stands where it should, with all that it holds. -/
def SettledAt (f : Forest) (w : WrapperRef) (p : String × WrapperRef) : Prop :=
  (f.wrapper w).cache.get? p.1 = some p.2 →
    (f.nodeAt w).children.get? p.1 = some (f.wrapper p.2).node ∧ ∀ v, f.Holds p.2 v → f.Fresh v

theorem SettledAt.shed {p : String × WrapperRef} (hp : f.SettledAt w p) (hfg : Sheds f g) :
    g.SettledAt w p := by
  intro hc
  obtain ⟨hnode, hfresh⟩ := hp (hfg.cache w p.1 p.2 hc)
  rw [hfg.nodeAt, hfg.node]
  exact ⟨hnode, fun v hv => (hfresh v (hfg.holds hv)).shed hfg⟩

section Settling

-- one level further down the pass does what it should
variable {n : ℕ} (hbelow : ∀ {f : Forest} {c : WrapperRef}, f.Kept → f.wrappers.size ≤ n + c.index →
  ∀ v, (syncCacheTo n c f).Holds c v → (syncCacheTo n c f).Fresh v)

include hbelow

theorem syncOne_settles {p : String × WrapperRef} (hk : f.Kept)
    (hn : f.wrappers.size ≤ n + p.2.index) : (syncOne n w f p).Kept ∧ Sheds f (syncOne n w f p) ∧
      (syncOne n w f p).SettledAt w p := by
  rw [syncOne]
  split
  · rename_i hnode
    obtain ⟨hk', hshed⟩ := hk.syncCacheTo n p.2
    refine ⟨hk', hshed, fun _ => ⟨?_, hbelow hk hn⟩⟩
    rw [hshed.nodeAt, hshed.node]
    exact hnode
  · refine ⟨hk.dropCached w p.1, .dropCached hk w p.1, fun hc => ?_⟩
    rw [get?_dropCached_self] at hc
    cases hc

theorem foldl_syncOne_settles {l : List (String × WrapperRef)} (hk : f.Kept)
    (hl : ∀ p ∈ l, f.wrappers.size ≤ n + p.2.index) : Sheds f (l.foldl (syncOne n w) f) ∧
      ∀ p ∈ l, (l.foldl (syncOne n w) f).SettledAt w p := by
  induction l generalizing f with
  | nil => exact ⟨.refl f, nofun⟩
  | cons p rest ih =>
    obtain ⟨hp, hrest⟩ := List.forall_mem_cons.mp hl
    obtain ⟨hk', hshed, hsettled⟩ := syncOne_settles (w := w) hbelow hk hp
    obtain ⟨hshed', hsettled'⟩ := ih hk' (by rwa [hshed.size])
    exact ⟨hshed.trans hshed', List.forall_mem_cons.mpr ⟨hsettled.shed hshed', hsettled'⟩⟩

end Settling

/-- After the pass, all that is held stands where it should. -/
theorem fresh_syncCacheTo {n : ℕ} (hk : f.Kept) (hn : f.wrappers.size ≤ n + w.index) :
    ∀ v, (syncCacheTo n w f).Holds w v → (syncCacheTo n w f).Fresh v := by
  induction n generalizing f w with
  | zero =>
    have hnone : ∀ k c, (f.wrapper w).cache.get? k ≠ some c := fun k c hc => by
      rw [wrapper_of_size_le (by omega)] at hc
      cases hc
    intro v hv k c hc
    rcases hv.cases_head with rfl | ⟨u, ⟨k', hu⟩, -⟩
    exacts [(hnone k c hc).elim, (hnone k' u hu).elim]
  | succ n ih =>
    rw [syncCacheTo_succ]
    have hdepth : ∀ p ∈ (f.wrapper w).cache.toList, f.wrappers.size ≤ n + p.2.index := by
      intro p hp
      have hafter := hk.after w p.1 p.2 (Entries.get?_eq_some_iff.mpr hp)
      omega
    obtain ⟨hshed, hsettled⟩ := foldl_syncOne_settles (w := w) ih hk hdepth
    have hkept : ∀ k c, (((f.wrapper w).cache.toList.foldl (syncOne n w) f).wrapper w).cache.get? k
        = some c → _ := fun k c hc =>
      hsettled (k, c) (Entries.get?_eq_some_iff.mp (hshed.cache w k c hc)) hc
    intro v hv
    rcases hv.cases_head with rfl | ⟨c, ⟨k, hc⟩, hcv⟩
    · exact fun k c hc => (hkept k c hc).1
    · exact (hkept k c hc).2 v hcv

/-- Bringing kept wrappers back in line sheds wrappers, and all that is held afterwards stands where
it should. -/
theorem Kept.syncCache (hk : f.Kept) (w : WrapperRef) : Sheds f (f.syncCache w) ∧
    ∀ v, (f.syncCache w).Holds w v → (f.syncCache w).Fresh v :=
  ⟨(hk.syncCacheTo _ w).2, fresh_syncCacheTo hk (Nat.le_add_right _ _)⟩

end Forest

end LiveTree
