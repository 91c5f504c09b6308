/-!
# Image statuses

`kolla/image/utils.py`: the status of an image and the statuses that
count as an error.
-/

namespace Kolla.Build

/-- `Status`. -/
inductive Status
  | connectionError
  | pushError
  | error
  | parentError
  | built
  | building
  | unmatched
  | matched
  | unprocessed
  | skipped
  | unbuildable
  deriving DecidableEq, Repr

/-- `STATUS_ERRORS`. -/
def statusErrors : List Status :=
  [.connectionError, .pushError, .error, .parentError]

end Kolla.Build
