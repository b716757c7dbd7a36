/-!
# Errors

The ways in which a migration operation can end without a result. Main definitions: `Error.message`,
the one place where the wording is kept, and `Error.isCancellation`, the class of errors that say
"stop" and not "broken".
-/

namespace Cutover

/-- Why an operation gave no result. -/
inductive Error where
  /-- No routing policy has this name. -/
  | unknownPolicy (name : String)
  /-- The operation makes no sense for the thing it was asked of. -/
  | unsupported (what : String)
  | notFound
  | cancelled
  | deadlineExceeded
  | store (text : String)
  | broker (text : String)
  | serialization (text : String)
  | config (text : String)
  | job (text : String)
  deriving DecidableEq, Repr, Inhabited

namespace Error

def message : Error → String
  | unknownPolicy name => "Unknown routing policy: " ++ name
  | unsupported what => "Unsupported operation: " ++ what
  | notFound => "Record not found"
  | cancelled => "Operation cancelled"
  | deadlineExceeded => "Deadline exceeded"
  | store text => "Store error: " ++ text
  | broker text => "Broker error: " ++ text
  | serialization text => "Serialization error: " ++ text
  | config text => "Configuration error: " ++ text
  | job text => "Job error: " ++ text

/-- Whether an error says that the work should stop, and not that something broke. -/
def isCancellation : Error → Bool
  | cancelled | deadlineExceeded => true
  | _ => false

theorem isCancellation_iff {e : Error} :
    e.isCancellation = true ↔ e = cancelled ∨ e = deadlineExceeded := by
  cases e <;> simp [isCancellation]

end Error

end Cutover
