import DarqEval.Primitives

namespace DarqEval

/-!
# The `Decision` trait

A typed business decision: its three data types with their validation, and how `serde`
renders the two of them that a snapshot stores.
-/

/-- Errors arising from input or output validation. -/
inductive ValidationError where
  | invalidInput (reason : String) (field : Option String)
  | constraintViolation (reason : String) (constraintId : Option String)
  | missingField (field : String)
deriving DecidableEq

/-- The `Display` text of a validation error. -/
def ValidationError.toString : ValidationError → String
  | .invalidInput reason _ => "invalid input: " ++ reason
  | .constraintViolation reason _ => "constraint violation: " ++ reason
  | .missingField field => "missing field: " ++ field

/-- `Decision`: a typed business decision with validated inputs and constrained outputs.
    The last two fields are the `Serialize` implementations of its data, `none` where
    serialization fails. -/
structure Decision where
  kind : String
  Input : Type
  Output : Type
  Constraints : Type
  validateInput : Input → Except ValidationError Unit
  validateOutput : Output → Constraints → Except ValidationError Unit
  inputToValue : Input → Option Value
  constraintsToValue : Constraints → Option Value

end DarqEval
