import UnsatCore.Literal
import UnsatCore.Listing

/-! Clauses and formulas as they are given: order and repetitions of literals are kept. -/
namespace UnsatCore

/-- A disjunction of literals. -/
abbrev Clause := List Literal

/-- A conjunction of clauses. -/
abbrev Formula := List Clause

namespace Clause

/-- The largest variable of a clause, 0 if it has none. -/
def maxVar (c : Clause) : Nat :=
  c.foldr (fun l v => max l.var.index v) 0

def hasZero (c : Clause) : Bool := c.any Literal.isZero

/-- The literals that are neither in `seen` nor repetitions, in order. -/
def distinctFrom (seen : Clause) : Clause → Clause
  | [] => []
  | l :: rest =>
    if seen.contains l then distinctFrom seen rest else l :: distinctFrom (l :: seen) rest

/-- The occurrences that `distinctFrom` leaves out, in order. -/
def repeatedFrom (seen : Clause) : Clause → Clause
  | [] => []
  | l :: rest =>
    if seen.contains l then l :: repeatedFrom seen rest else repeatedFrom (l :: seen) rest

/-- First occurrences only. -/
def distinct (c : Clause) : Clause := distinctFrom [] c

/-- All occurrences but the first ones. -/
def repeated (c : Clause) : Clause := repeatedFrom [] c

def render (c : Clause) : String := Listing.flat (c.map toString)

def renderTall (c : Clause) : String := Listing.tall (c.map toString)

end Clause

/-- The largest variable of a formula, 0 if it has none. -/
def Formula.maxVar (f : Formula) : Nat :=
  f.foldr (fun c v => max c.maxVar v) 0

end UnsatCore
