import LiveTree.Entries

/-! Plain data: what a value looks like without the identities of its lists and dictionaries.
Nodes inside it are leaves of a type `ν` that depends on the use. -/

namespace LiveTree

/-- Plain data with leaves `ν`. -/
inductive Data (ν : Type) where
  | null
  | bool (b : Bool)
  | int (i : Int)
  | float (x : Float)
  | str (s : String)
  | list (items : List (Data ν))
  | tuple (items : List (Data ν))
  | dict (entries : List (String × Data ν))
  | leaf (n : ν)
  deriving Inhabited

namespace Data

variable {ν : Type}

mutual

/-- How deeply data is nested. -/
def depth : Data ν → Nat
  | list items => depthAll items + 1
  | tuple items => depthAll items + 1
  | dict entries => depthEntries entries + 1
  | _ => 0

/-- The greatest depth in a list. -/
def depthAll : List (Data ν) → Nat
  | [] => 0
  | d :: rest => max d.depth (depthAll rest)

/-- The greatest depth among entries. -/
def depthEntries : List (String × Data ν) → Nat
  | [] => 0
  | (_, d) :: rest => max d.depth (depthEntries rest)

end

mutual

/-- Data with other leaves. -/
def map {μ : Type} (f : ν → μ) : Data ν → Data μ
  | null => null
  | bool b => bool b
  | int i => int i
  | float x => float x
  | str s => str s
  | list items => list (mapAll f items)
  | tuple items => tuple (mapAll f items)
  | dict entries => dict (mapEntries f entries)
  | leaf n => leaf (f n)

/-- A list of data with other leaves. -/
def mapAll {μ : Type} (f : ν → μ) : List (Data ν) → List (Data μ)
  | [] => []
  | d :: rest => d.map f :: mapAll f rest

/-- Entries with other leaves. -/
def mapEntries {μ : Type} (f : ν → μ) : List (String × Data ν) → List (String × Data μ)
  | [] => []
  | (k, d) :: rest => (k, d.map f) :: mapEntries f rest

end

/-- The value that an entry of a dictionary has. -/
def get? (k : String) : Data ν → Option (Data ν)
  | dict entries => Entries.find k entries
  | _ => none

/-- The text that data is. -/
def asText? : Data ν → Option String
  | str s => some s
  | _ => none

end Data

end LiveTree
