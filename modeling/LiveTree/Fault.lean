import LiveTree.Text.Quoted

/-! The ways in which an operation fails, by cause, and the words for those that have words. -/

namespace LiveTree

/-- What is wrong with one place of a serialized node. -/
inductive Defect where
  | missing
  | notText
  | notRecord
  | notMap
  deriving DecidableEq, Inhabited, Repr

/-- A defect and the path to it, of field names and map keys. -/
structure Issue where
  path : List String
  defect : Defect
  deriving DecidableEq, Inhabited, Repr

/-- Why an operation failed. -/
inductive Fault where
  /-- An operator expression names an operator that the registry does not hold. -/
  | unknownOperator (name : String)
  /-- Evaluation nests deeper than it may. -/
  | tooDeep
  /-- A child of an operator expression is not a numbered argument. -/
  | badArgumentKey (key : String)
  /-- An evaluated read has no registry to use. -/
  | noRegistry
  /-- The wrapper has been destroyed. -/
  | destroyed (id : String)
  /-- A reference has no segments. -/
  | emptyPath
  /-- A node was to be made with a type that is not a node. -/
  | notAType (id className : String)
  /-- A serialized node does not have the shape of one. -/
  | invalid (issues : List Issue)
  /-- The operation is not defined for these operands. -/
  | unsupportedOperands
  /-- There is no argument or element at a position. -/
  | absentElement
  /-- Digits that are not the decimal digits of a number of acceptable length. -/
  | unreadableNumber
  /-- An integer is too large for a floating-point number, for a count or for a length. -/
  | tooLarge
  /-- A sequence is too long to be held. -/
  | outOfMemory
  /-- A dictionary has no such entry. -/
  | absentEntry
  /-- A value has no such field. -/
  | absentField
  /-- A descent came back to where it started. -/
  | endless
  /-- The caller's own code gave up. -/
  | aborted (message : String)
  /-- The name of a wrapper stands for none. -/
  | noHandle
  deriving DecidableEq, Inhabited, Repr

namespace Fault

/-- The words of a fault, for the faults that have words of their own. -/
def message? : Fault → Option String
  | unknownOperator name => some ("Unknown operator: " ++ name)
  | tooDeep => some "Maximum evaluation depth exceeded - possible circular reference"
  | badArgumentKey key => some ("Invalid operator argument key: " ++ Text.quote key)
  | noRegistry => some "No registry set. Call set_registry() first."
  | destroyed id => some ("TreeNode '" ++ id ++ "' has been destroyed")
  | emptyPath => some "Reference path must not be empty"
  | notAType id className => some ("Node '" ++ id ++ "' needs a type node, got: " ++ className)
  | aborted message => some message
  | _ => none

/-- Whether a fault is one that the command line reports in its words. -/
def isReported : Fault → Bool
  | unknownOperator _ | tooDeep | badArgumentKey _ | noRegistry | destroyed _ => true
  | _ => false

end Fault

end LiveTree
