import PhpIndex.Disk.Basic
import PhpIndex.Record.Error
import PhpIndex.Store.Snapshot

/-!
# Store errors

Why the store could not be read or written.
-/
namespace PhpIndex

inductive StoreError where
  | format (e : FormatError)
  | snapshot (path : String) (fault : SnapshotFault)
  | file (fault : FileFault)
  deriving DecidableEq

namespace StoreError

def message : StoreError → String
  | .format e => e.message
  | .snapshot path (.version found) =>
    "Snapshot '" ++ path ++ "' has unsupported format version " ++ toString found.toNat
  | .snapshot path fault => "Snapshot '" ++ path ++ "' is corrupted: " ++ fault.reason
  | .file fault => "I/O error: " ++ fault.message

end StoreError
end PhpIndex
