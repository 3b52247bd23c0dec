import LiveTree.Build.Make
import LiveTree.Value.Text

/-! Ready-made constraints on a node's own value, written with the standard operators. Each has
words for when it fails, which the caller can replace. -/

namespace LiveTree.Make

/-- A reference to the value of the node that a constraint stands on. -/
def ownValue : StoreM NodeRef := ref "self.value"

/-- The caller's words, unless there are none. -/
def wordsOr (message : Option String) (usual : StoreM String) : StoreM String :=
  match message with
  | some text => if text.isEmpty then usual else pure text
  | none => usual

/-- The text of a bound inside a message. -/
def boundText (v : Value) : StoreM String := .check (·.valueText v)

/-- The value is there and its text is not blank. -/
def required (message : Option String) : StoreM NodeRef := do
  let present ← op "is_not_null" [← ownValue]
  let inked ← op "is_not_blank" [← op "to_string" [← ownValue]]
  let rule ← op "and" [present, inked]
  constraint "required" (.node rule) (some (← wordsOr message (pure "This field is required")))

/-- The length of the value compared with a bound. -/
def lengthRule (name comparison : String) (bound : Value) (message : Option String)
    (usual : String → String) : StoreM NodeRef := do
  let rule ← op comparison [← op "strlen" [← ownValue], ← lit bound]
  constraint name (.node rule) (some (← wordsOr message (usual <$> boundText bound)))

/-- The value compared with a bound. -/
def valueRule (name comparison : String) (bound : Value) (message : Option String)
    (usual : String → String) : StoreM NodeRef := do
  let rule ← op comparison [← ownValue, ← lit bound]
  constraint name (.node rule) (some (← wordsOr message (usual <$> boundText bound)))

/-- The value has at least so many characters. -/
def minLength (bound : Value) (message : Option String) : StoreM NodeRef :=
  lengthRule "min_length" "gte" bound message fun n => "Minimum " ++ n ++ " characters required"

/-- The value has at most so many characters. -/
def maxLength (bound : Value) (message : Option String) : StoreM NodeRef :=
  lengthRule "max_length" "lte" bound message fun n => "Maximum " ++ n ++ " characters allowed"

/-- The value is at least the bound. -/
def minValue (bound : Value) (message : Option String) : StoreM NodeRef :=
  valueRule "min_value" "gte" bound message fun n => "Minimum value is " ++ n

/-- The value is at most the bound. -/
def maxValue (bound : Value) (message : Option String) : StoreM NodeRef :=
  valueRule "max_value" "lte" bound message fun n => "Maximum value is " ++ n

/-- The value lies between two bounds, both included. -/
def inRange (low high : Value) (message : Option String) : StoreM NodeRef := do
  let above ← op "gte" [← ownValue, ← lit low]
  let below ← op "lte" [← ownValue, ← lit high]
  let rule ← op "and" [above, below]
  let words ← wordsOr message do
    return "Must be between " ++ (← boundText low) ++ " and " ++ (← boundText high)
  constraint "in_range" (.node rule) (some words)

end LiveTree.Make
