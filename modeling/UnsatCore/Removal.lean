/-! Removal from an array in which order does not matter: the last element fills the hole. -/
namespace UnsatCore

/-- All elements but the one at `i`, with the last one in its place. -/
def swapRemove {α : Type} (xs : Array α) (i : Nat) : Array α :=
  (xs.swapIfInBounds i (xs.size - 1)).pop

end UnsatCore
