/-!
# Return codes

The codes of `kern_return_t` that the modelled routines return.
-/

namespace MachVirtuTerm

/-- `kern_return_t`. -/
inductive KernReturn
  | success
  | invalidAddress
  | protectionFailure
  | noSpace
  | invalidArgument
  | failure
  | resourceShortage
  | memoryError
  | nameExists
  | aborted
  | invalidName
  | invalidTask
  | invalidRight
  | invalidValue
  | urefsOverflow
  | invalidCapability
  | rightExists
  | invalidObject
  deriving DecidableEq

end MachVirtuTerm
