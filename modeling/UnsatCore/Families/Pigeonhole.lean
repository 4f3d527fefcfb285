import UnsatCore.Clause
import UnsatCore.Fault

/-! The pigeonhole formulas: each pigeon sits in a hole, and no two pigeons share one. Variables are
words, so a formula that needs a larger one does not exist. -/
namespace UnsatCore.Pigeonhole

/-- The word of a number, if it is one. -/
def word (x : Int) : Except Fault Int32 :=
  if Int32.minValue.toInt ≤ x ∧ x ≤ Int32.maxValue.toInt then .ok (Int32.ofInt x)
  else .error .overflow

/-- The literal that says that a pigeon sits in a hole. -/
def sits (holes : Int32) (pigeon hole : Nat) : Except Fault Literal := do
  let row ← word (pigeon * holes.toInt)
  let place ← word (row.toInt + hole)
  return ⟨← word (place.toInt + 1)⟩

/-- The pigeon sits somewhere. -/
def somewhere (holes : Int32) (pigeon : Nat) : Except Fault Clause :=
  (List.range holes.toInt.toNat).mapM (sits holes pigeon)

/-- Two pigeons do not sit in the same hole. -/
def apart (holes : Int32) (hole : Nat) (pair : Nat × Nat) : Except Fault Clause := do
  let first ← sits holes pair.1 hole
  let second ← sits holes pair.2 hole
  return [-first, -second]

/-- The pairs of members of a list, the earlier one first, in order. -/
def pairs : List Nat → List (Nat × Nat)
  | [] => []
  | p :: rest => rest.map (fun q => (p, q)) ++ pairs rest

/-- A negative number of pigeons or holes counts as none. The order of the clauses about one hole is
up to `combinations`. -/
def formulaBy (combinations : List Nat → List (Nat × Nat)) (pigeons holes : Int32) :
    Except Fault Formula := do
  let count := pigeons.toInt.toNat
  let somewheres ← (List.range count).mapM (somewhere holes)
  let aparts ← (List.range holes.toInt.toNat).mapM fun hole =>
    (combinations (List.range count)).mapM (apart holes hole)
  return somewheres ++ aparts.flatten

def formula (pigeons holes : Int32) : Except Fault Formula := formulaBy pairs pigeons holes

end UnsatCore.Pigeonhole
