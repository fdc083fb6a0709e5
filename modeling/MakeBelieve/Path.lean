namespace MakeBelieve

/-- One component of a path. -/
abbrev Name := List Char

/-- A relative path, as `std::filesystem::path` compares it: component by component. -/
abbrev Path := List Name

instance : LawfulBEq Name := inferInstance

instance : LawfulBEq Path := inferInstance

/-- The error codes the program tells apart; `success` is `std::error_code()`. -/
inductive ErrorCode
  | success
  | operationCanceled
  | resourceDeadlockWouldOccur
  | noSuchFileOrDirectory
  | other (value : Nat)
  deriving DecidableEq, Repr

/-- `canceled()` of the coordinator. -/
def canceled : ErrorCode := .operationCanceled

/-- `dependency_cycle()` of the coordinator. -/
def dependencyCycle : ErrorCode := .resourceDeadlockWouldOccur

end MakeBelieve
