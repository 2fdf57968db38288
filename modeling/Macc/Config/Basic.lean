import Macc.Machine.Region

/-!
# Run configurations

A `Config` says where a run starts, what its limits are and which regions of memory to print at the
end.
-/

namespace Macc

/-- How to run a machine. -/
structure Config where
  start : Nat := 0
  limits : Limits := {}
  dump : List Region := []
  deriving DecidableEq, Repr

end Macc
