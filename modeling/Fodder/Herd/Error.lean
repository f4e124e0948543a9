import Fodder.Flash.Error

/-!
# Failures of herd operations
-/
namespace Fodder

inductive HerdError
  /-- No room for another cow. -/
  | full
  | notFound
  | invalid (reason : String)
  /-- The form of a cow could not be read. -/
  | malformed
  /-- Another cow wears this collar. -/
  | duplicateCollar (tag : UInt16)
  | storage (error : StorageError)
  deriving DecidableEq, Repr

def HerdError.message : HerdError → String
  | full => "herd table full"
  | notFound => "cow not found"
  | invalid reason => "invalid record: " ++ reason
  | malformed => "malformed cow json"
  | duplicateCollar tag => "collar tag " ++ toString tag.toNat ++ " already assigned"
  | storage error => "storage: " ++ error.message

end Fodder
