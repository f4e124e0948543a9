/-!
# Failures of the storage
-/
namespace Fodder

inductive StorageError
  /-- Nothing is stored under the key. -/
  | notFound
  /-- More than a blob, or than the room to read it into, can hold. -/
  | full
  | ioError
  /-- The blob is not one that the present layout could have produced. -/
  | corrupted
  deriving DecidableEq, Repr

def StorageError.message : StorageError → String
  | notFound => "key not found"
  | full => "storage full"
  | ioError => "I/O error"
  | corrupted => "blob corrupted"

end Fodder
