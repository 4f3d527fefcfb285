/-! Variables and signed literals. The sign of a literal is its polarity; variables start at 1. -/
namespace UnsatCore

structure Var where
  index : Nat
deriving DecidableEq

/-- A literal is a machine word, since clauses are stored as words with 0 for their end. -/
structure Literal where
  val : Int32
deriving DecidableEq

namespace Literal

def isZero (l : Literal) : Bool := l.val == 0

def isPositive (l : Literal) : Bool := decide (0 < l.val.toInt)

def var (l : Literal) : Var := ⟨l.val.toInt.natAbs⟩

/-- The opposite literal, in the arithmetic of words: the least word is its own opposite. -/
protected def neg (l : Literal) : Literal := ⟨-l.val⟩

instance : Neg Literal := ⟨Literal.neg⟩

/-- The opposite literal, where there is one: the least word has none. -/
def opposite? (l : Literal) : Option Literal :=
  if l.val = Int32.minValue then none else some (-l)

instance : Ord Literal := ⟨fun a b => compare a.val.toInt b.val.toInt⟩

instance : ToString Literal := ⟨fun l => toString l.val.toInt⟩

end Literal

instance : ToString Var := ⟨fun v => toString v.index⟩

end UnsatCore
