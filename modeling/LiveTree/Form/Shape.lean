import LiveTree.Data
import LiveTree.Fault
import LiveTree.Value

/-! The shape of a serialized node. Reading data as a node either gives its parts or lists every
place where it does not have the shape, field by field and entry by entry. -/

namespace LiveTree

/-- The parts of a serialized node. -/
inductive Payload (ν : Type) where
  | mk (id typeId : String) (value default : Data ν)
    (metadata constraints children : List (String × Payload ν))
  deriving Inhabited

namespace Payload

variable {ν : Type}

/-- A part or the issues with it. -/
abbrev Checked (α : Type) : Type := Except (List Issue) α

/-- An issue with a field. -/
def issue {α : Type} (field : String) (defect : Defect) : Checked α := .error [⟨[field], defect⟩]

/-- Puts the issues of a part under its name. -/
def under {α : Type} (name : String) : Checked α → Checked α
  | .ok a => .ok a
  | .error issues => .error (issues.map fun i => { i with path := name :: i.path })

/-- Two parts, or the issues of both. -/
def both {α β γ : Type} (f : α → β → γ) : Checked α → Checked β → Checked γ
  | .ok a, .ok b => .ok (f a b)
  | .error i, .error j => .error (i ++ j)
  | .error i, .ok _ => .error i
  | .ok _, .error j => .error j

/-- A field that has to be a text. -/
def textField (field : String) (d : Data ν) : Checked String :=
  match d.get? field with
  | none => issue field .missing
  | some (.str t) => .ok t
  | some _ => issue field .notText

/-- The id of the type. -/
def typeField (d : Data ν) : Checked String :=
  match d.get? "type" with
  | none => issue "type" .missing
  | some (.dict entries) => under "type" (textField "id" (.dict entries))
  | some _ => issue "type" .notRecord

/-- A field that may hold anything. -/
def anyField (field : String) (d : Data ν) : Data ν := (d.get? field).getD .null

/-- The default, which may stand under either of two names. -/
def defaultField (d : Data ν) : Data ν :=
  match d.get? "defaultValue" with
  | some v => v
  | none => anyField "default_value" d

/-- The nodes of a map, each under its key. -/
def entriesField (read : Data ν → Checked (Payload ν)) :
    List (String × Data ν) → Checked (List (String × Payload ν))
  | [] => .ok []
  | (k, d) :: rest =>
    both (fun p ps => (k, p) :: ps) (under k (read d)) (entriesField read rest)

/-- A field that has to be a map of nodes, if it is there. -/
def mapField (read : Data ν → Checked (Payload ν)) (role : Role) (d : Data ν) :
    Checked (List (String × Payload ν)) :=
  match d.get? role.name with
  | none => .ok []
  | some (.dict entries) => under role.name (entriesField read entries)
  | some _ => issue role.name .notMap

/-- Reads data as a node, to a given depth of maps within maps. -/
def readTo : Nat → Data ν → Checked (Payload ν)
  | 0, _ => .error [⟨[], .notRecord⟩]
  | n + 1, d =>
    match d with
    | .dict _ =>
      let ids := both Prod.mk (textField "id" d) (typeField d)
      let maps := both Prod.mk (mapField (readTo n) .metadata d)
        (both Prod.mk (mapField (readTo n) .constraints d) (mapField (readTo n) .children d))
      both (fun i m => .mk i.1 i.2 (anyField "value" d) (defaultField d) m.1 m.2.1 m.2.2) ids maps
    | _ => .error [⟨[], .notRecord⟩]

/-- Reads data as a node. -/
def ofData (d : Data ν) : Checked (Payload ν) := readTo (d.depth + 1) d

end Payload

/-- Whether data inside a value stands for a node: it has a text as `id` and a dictionary with a
text as `id` as `type`. -/
def Data.standsForNode {ν : Type} (d : Data ν) : Bool :=
  match d.get? "id", (d.get? "type").bind (Data.get? "id") with
  | some (.str _), some (.str _) => true
  | _, _ => false

end LiveTree
