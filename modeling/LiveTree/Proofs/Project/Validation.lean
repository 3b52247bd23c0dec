import LiveTree.Project.Run
import LiveTree.Proofs.Form.Acceptance
import LiveTree.Proofs.Reads.Sweeps
import LiveTree.Proofs.Store.Making

/-! The verdict on a tree file. The command that validates it goes through stages: finding the file,
announcing it, reading it, rebuilding the tree, finding the operators, and checking all constraints.
It succeeds just if every stage does and each constraint holds, and otherwise fails, whatever is in
the files and whatever the operators are. If constraints fail, its report has one failure for each of
them. -/

namespace LiveTree

/-! ### Trees that are loaded -/

/-- Below a node that comes after all nodes below it each descent ends. -/
theorem Store.ChildrenFirst.endsWithin {s : Store} (h : s.ChildrenFirst) {n : ℕ} {r : NodeRef}
    (hr : r.index < n) : EndsWithin s.offspring n r := by
  induction n generalizing r with
  | zero => exact absurd hr (Nat.not_lt_zero _)
  | succ n ih =>
    intro q hq
    have hq : q.index < r.index := h r q hq
    exact ih (by omega)

namespace Command

variable {d : Disk} {folders : List Location} {tree : Option Location} {choice : RegistryChoice}

/-! ### Checks -/

section Checks

variable [Host] {s : Store} {root : NodeRef} {g : Registry}

end Checks

/-! ### Stages -/

/-- Whether a stage that goes wrong ends the program with exit code 1. -/
def FailsPlainly {α : Type} (r : Except Trouble α) : Prop := ∀ e, r = .error e → e.exitCode = 1

namespace FailsPlainly

variable {α β : Type} {r : Except Trouble α} {e : Trouble}

theorem ok (a : α) : FailsPlainly (.ok a) := nofun

theorem error (h : e.exitCode = 1) : FailsPlainly (.error e : Except Trouble α) := by
  rintro _ ⟨⟩
  exact h

theorem elim (h : e.exitCode = 1) (o : Option α) : FailsPlainly (o.elim (.error e) .ok) := by
  cases o with
  | none => exact error h
  | some a => exact ok a

theorem bind {k : α → Except Trouble β} (h : FailsPlainly r) (hk : ∀ a, FailsPlainly (k a)) :
    FailsPlainly (r >>= k) := by
  cases r with
  | ok a => exact hk a
  | error e => exact error (h e rfl)

end FailsPlainly

/-- Whether a file is the one that a command is for: the one it is given, or else the configured
one. -/
def IsFor (d : Disk) (tree : Option Location) (file : Location) : Prop :=
  tree = some file ∨ tree = none ∧ ∃ config, d.config = .ok config ∧ config.tree = some file

/-- Whether a command takes its operators from a source: the one it is told, or else the configured
one, if any. -/
def TakesFrom (d : Disk) (choice : RegistryChoice) (source : Option RegistrySource) : Prop :=
  match choice.registry with
  | some text =>
    source = some (if text.contains ':' then .module text else .script (.ofText text) choice.name)
  | none => ∃ config, d.config = .ok config ∧ source = config.registry

/-- Whether a source supplies a registry. Without one the operators are the standard ones. -/
def Supplies (d : Disk) (folders : List Location) (source : Option RegistrySource) (g : Registry) :
    Prop :=
  match source with
  | none => g = .standard
  | some source => d.load folders source = .ok g

section Operation

variable {α : Type} {s : Store} {root : NodeRef} {registry : Option Registry}
  {m : WrapperRef → TreeM Unit α}

theorem onTree_eq_ok_iff {a : α} : onTree (s, root) registry m = .ok a ↔
    ∃ y, m ⟨0⟩ ⟨⟨s, #[.ofNode root registry]⟩, ()⟩ = .ok a y := by
  rw [onTree, EStateM.run]
  cases m ⟨0⟩ ⟨⟨s, #[.ofNode root registry]⟩, ()⟩ <;> simp

end Operation

variable [Console]

/-- Whether the tree file of a command can be announced and holds the text of some data. -/
def Holds (d : Disk) (tree : Option Location) (data : Data Empty) : Prop :=
  ∃ file document, IsFor d tree file ∧ (Console.plain (loadingText file)).isSome ∧
    d.read file = .ok document ∧ document.data? = some data

variable [Host]

/-- The command succeeds just if the tree and its operators are loaded and the checks come to no
failure. -/
theorem validate_eq_ok_iff : (∃ done, (validate tree choice).run d folders = .ok done) ↔
    ∃ s root g n y, loadTree d tree = .ok (s, root) ∧ loadRegistry d folders choice = .ok g ∧
      findings ⟨0⟩ ⟨⟨s, #[.ofNode root (some g)]⟩, ()⟩ = .ok (.ok n) y := by
  rw [run]
  simp only [bind_eq_ok_iff]
  constructor
  · rintro ⟨done, ⟨s, root⟩, htree, g, hregistry, n | n, hchecks, hdone⟩
    · cases hdone
    · obtain ⟨y, hy⟩ := onTree_eq_ok_iff.mp hchecks
      exact ⟨s, root, g, n, y, htree, hregistry, hy⟩
  · rintro ⟨s, root, g, n, y, htree, hregistry, hy⟩
    exact ⟨_, (s, root), htree, g, hregistry, .ok n, onTree_eq_ok_iff.mpr ⟨y, hy⟩, rfl⟩

/-- Whether a command finds all that it works on: the tree file, which can be announced and holds the
form of a node, and the operators. -/
structure Ready (d : Disk) (folders : List Location) (tree : Option Location)
    (choice : RegistryChoice) (form : Data NodeRef) (g : Registry) : Prop where
  holds : ∃ data, Holds d tree data ∧ form = data.map Empty.elim
  shaped : form.NodeShaped Data.plainDict
  operators : ∃ source, TakesFrom d choice source ∧ Supplies d folders source g

end Command

/-- A disk with a tree file. -/
def Disk.holding (file : List String) (form : Data Empty) : Disk :=
  (empty ⟨.top, ["proj"]⟩).put ("proj" :: file) (.file (.data form))

/-- The form when it is loaded. -/
def Store.named (present : Bool) : Store :=
  { Store.initial with
    nodes := Store.initial.nodes ++ #[
      { Builtin.node "lit" Builtin.lit .lit with value := .bool present },
      { Builtin.node "present" Builtin.constraint .constraint with value := .node ⟨8⟩ },
      { Builtin.node "short" Builtin.constraint .constraint with value := .bool true },
      { Builtin.node "name" Builtin.property .plain with
        constraints := .ofList [("present", ⟨9⟩), ("short", ⟨10⟩)] },
      { Builtin.node "form" Builtin.property .plain with
        children := .ofList [("name", ⟨11⟩)] }]
    argOrders := Array.replicate 13 none }

end LiveTree
