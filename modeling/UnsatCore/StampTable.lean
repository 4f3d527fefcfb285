import UnsatCore.Clause
import UnsatCore.SlotMap

/-! A set of literals that is emptied in one step, whatever is in it. Each literal has an entry, and
is in the set if that is the current stamp. -/
namespace UnsatCore

structure StampTable where
  entries : SlotMap Literal Nat
  stamp : Nat

namespace StampTable

/-- Not a set yet: what it holds counts from the first new stamp on. -/
def blank (slots : Nat) : StampTable := ⟨.replicate slots 0, 0⟩

/-- Empties the set. Stamps are 64-bit words. -/
def renew (t : StampTable) : Except Fault StampTable :=
  if t.stamp + 1 < UInt64.size then .ok { t with stamp := t.stamp + 1 } else .error .overflow

def contains (t : StampTable) (l : Literal) : Except Fault Bool := do
  return (← Fault.require .outOfBounds (t.entries.get? l)) == t.stamp

def insert (t : StampTable) (l : Literal) : Except Fault StampTable := do
  return { t with entries := ← Fault.require .outOfBounds (t.entries.set? l t.stamp) }

/-- Whether all literals of a clause are in the set, up to the first that is not. -/
def containsAll (t : StampTable) : Clause → Except Fault Bool
  | [] => return true
  | l :: rest => do
    if ← t.contains l then t.containsAll rest else return false

end StampTable

end UnsatCore
