import UnsatCore.Arena
import UnsatCore.Removal
import Std.Data.TreeMap

/-! Finds a stored clause by its set of literals. Clauses of one digest share a bucket, in which
the clause itself is looked for, so that a clash of digests costs time only. -/
namespace UnsatCore

namespace Clause

/-- The sum, the product and the exclusive or of the literals of a clause, as 64-bit words. -/
def folds (c : Clause) : UInt64 × UInt64 × UInt64 :=
  c.foldl
    (fun acc l =>
      let x := l.val.toInt64.toUInt64
      (acc.1 + x, acc.2.1 * x, acc.2.2 ^^^ x))
    (0, 1, 0)

/-- A word that does not depend on the order of the literals. -/
def digest (c : Clause) : UInt64 :=
  let f := c.folds
  1023 * f.1 + (f.2.1 ^^^ (31 * f.2.2))

end Clause

structure ClauseIndex where
  buckets : Std.TreeMap UInt64 (Array Handle)

namespace ClauseIndex

def empty : ClauseIndex := ⟨∅⟩

def bucket (t : ClauseIndex) (c : Clause) : Array Handle := t.buckets.getD c.digest #[]

def modify (t : ClauseIndex) (c : Clause) (f : Array Handle → Array Handle) : ClauseIndex :=
  ⟨t.buckets.alter c.digest fun b => some (f (b.getD #[]))⟩

def insert (t : ClauseIndex) (c : Clause) (h : Handle) : ClauseIndex :=
  t.modify c (·.push h)

/-- Whether a stored clause has exactly the literals of `c`, which has no repetitions. -/
def holds (a : Arena) (c : Clause) (h : Handle) : Bool :=
  a.length h == c.length && (a.literals h).all c.contains

/-- The position in its bucket of the first clause with the literals of `c`. -/
def find? (t : ClauseIndex) (a : Arena) (c : Clause) : Option Nat :=
  (t.bucket c).findIdx? (holds a c)

/-- The first clause with the literals of `c`, with its position. -/
def lookup? (t : ClauseIndex) (a : Arena) (c : Clause) : Option (Nat × Handle) :=
  match t.find? a c with
  | none => none
  | some i => (t.bucket c)[i]?.map fun h => (i, h)

/-- Takes out the clause at a position of the bucket of `c`. -/
def removeAt (t : ClauseIndex) (c : Clause) (i : Nat) : ClauseIndex :=
  t.modify c (swapRemove · i)

end ClauseIndex

end UnsatCore
