import LiveTree.Text.Path
import LiveTree.Tree.Forest

/-! Subscriptions and notifications. A change is announced to the subscribers of the wrapper it is
made on and then, with the key put in front, to those of each ancestor in turn, as long as each
node still stands under its key. While a wrapper holds notifications back, what reaches it is
collected, and announced once at the end. -/

namespace LiveTree

namespace PathFilter

/-- Whether a path is another or below it. -/
def covers (path below : String) : Bool :=
  below == path || (path.toList ++ ['.']).isPrefixOf below.toList

/-- Whether a changed path passes a filter. -/
def admits : PathFilter → String → Bool
  | within path, changed => path.isEmpty || covers path changed
  | withinAny paths, changed => paths.any (covers · changed)
  | satisfying test, changed => test changed

end PathFilter

namespace Subscriber

/-- The paths that a subscriber is told. -/
def admitted (x : Subscriber) (paths : List String) : List String :=
  match x.filter with
  | none => paths
  | some filter => paths.filter filter.admits

end Subscriber

/-- What a program does when a listener is told of changed paths. -/
abbrev Notify (σ : Type) : Type := Nat → List String → TreeM σ Unit

namespace TreeM

variable {σ α : Type} (notify : Notify σ)

/-- Subscribes a listener; the subscription has a new number. -/
def subscribe (w : WrapperRef) (listener : Nat) (filter : Option PathFilter) : TreeM σ Nat := do
  checkAlive w
  updateForest fun f =>
    let number := (f.wrapper w).issued + 1
    (number, f.modifyWrapper w fun x =>
      { x with issued := number, subscribers := x.subscribers ++ [⟨number, listener, filter⟩] })

/-- Subscribes a listener to the changes at or below a path. -/
def watch (w : WrapperRef) (listener : Nat) (path : Path) : TreeM σ Nat :=
  subscribe w listener (some (.within (Text.undotted path)))

/-- Ends a subscription. -/
def unsubscribe (w : WrapperRef) (number : Nat) : TreeM σ Unit :=
  modifyForest (·.modifyWrapper w fun x =>
    { x with subscribers := x.subscribers.filter (·.number ≠ number) })

/-- Ends all subscriptions of a wrapper. -/
def unsubscribeAll (w : WrapperRef) : TreeM σ Unit :=
  modifyForest (·.modifyWrapper w fun x => { x with subscribers := [] })

/-- Whether a subscription has not ended. -/
def isActive (w : WrapperRef) (number : Nat) : TreeM σ Bool := do
  return ((← forest).wrapper w).subscribers.any (·.number = number)

/-- Tells the subscribers of one round, in order, those for whom a path passes. -/
def tell (paths : List String) : List Subscriber → TreeM σ Unit
  | [] => return
  | x :: rest => do
    let admitted := x.admitted paths
    unless admitted.isEmpty do notify x.listener admitted
    tell paths rest

/-- Announces changes at a wrapper and at so many of its ancestors. -/
def emitTo : Nat → WrapperRef → List Path → TreeM σ Unit
  | 0, _, _ => return
  | n + 1, w, paths => do
    let x := (← forest).wrapper w
    match x.batched with
    | some held =>
      modifyForest (·.modifyWrapper w fun x => { x with batched := some (held ++ paths) })
    | none => do
      tell notify (paths.map Text.undotted) x.subscribers
      let f ← forest
      match (f.wrapper w).parent, f.keyInParent w with
      | some p, some key => emitTo n p (paths.map (key :: ·))
      | _, _ => return

/-- Announces changes at a wrapper and upwards. -/
def emit (w : WrapperRef) (paths : List Path) : TreeM σ Unit := emitTo notify (w.index + 1) w paths

/-- Announces a change unless it is to be kept silent. -/
def emitUnless (silent : Bool) (w : WrapperRef) (path : Path) : TreeM σ Unit :=
  unless silent do emit notify w [path]

/-- Announces a change at a path below a wrapper. -/
def emitChange (w : WrapperRef) (path : Path) : TreeM σ Unit := do
  checkAlive w
  emit notify w [path]

/-- Sets what a wrapper holds back. -/
def setBatched (w : WrapperRef) (held : Option (List Path)) : TreeM σ Unit :=
  modifyForest (·.modifyWrapper w fun x => { x with batched := held })

/-- Runs a body with notifications held back, and announces each changed path once at the end. A
body inside another on the same wrapper joins it. Nothing is announced if the body fails. -/
def batch (w : WrapperRef) (body : TreeM σ α) : TreeM σ α := do
  checkAlive w
  if ((← forest).wrapper w).batched.isSome then body
  else do
    setBatched w (some [])
    let result ← tryCatch body fun e => do
      setBatched w none
      throw e
    let held := (((← forest).wrapper w).batched.getD []).eraseDups
    setBatched w none
    unless held.isEmpty do emit notify w held
    return result

end TreeM

end LiveTree
