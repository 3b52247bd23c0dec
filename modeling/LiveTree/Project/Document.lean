import LiveTree.Data
import LiveTree.Eval.Context
import LiveTree.Form.Reading
import LiveTree.Project.Settings

/-! What a file holds, and what can be read from it: data, settings, or the attributes of a
module that supplies operators. -/

namespace LiveTree

/-- What a name in a module stands for. -/
inductive Attribute where
  | registry (g : Registry)
  /-- A function without arguments that gives a registry. -/
  | maker (g : Registry)
  /-- A function without arguments that gives something else, of the named class. -/
  | otherMaker (className : String)
  | other
  deriving Inhabited

/-- The contents of a file. -/
inductive Document where
  | text (s : String)
  /-- The interchange text of some data. -/
  | data (d : Data Empty)
  /-- The text of some settings. -/
  | settings (d : Data Empty)
  /-- A module with its attributes. -/
  | module (attributes : Entries Attribute)
  deriving Inhabited

namespace Document

/-- The data of which a file holds the interchange text. -/
def data? : Document → Option (Data Empty)
  | text s => Data.ofInterchange? s
  | data d => some d
  | _ => none

/-- The settings that a file holds. -/
def settings? : Document → Option (Data Empty)
  | text s => Data.ofSettings? s
  | settings d => some d
  | _ => none

/-- The attributes of a file as a module. An empty file is a module without any. -/
def attributes? : Document → Option (Entries Attribute)
  | text "" => some ∅
  | module attributes => some attributes
  | _ => none

end Document

end LiveTree
