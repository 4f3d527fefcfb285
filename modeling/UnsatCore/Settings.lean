/-! What a run of the checker can be told. -/
namespace UnsatCore

structure Settings where
  /-- Visit the clauses of the core before the others. -/
  coreFirst : Bool := true
  /-- Reject a deletion that matches no clause. -/
  strictDeletions : Bool := true
  /-- Apply no deletion at all. -/
  ignoreDeletions : Bool := false
deriving DecidableEq

end UnsatCore
