import UnsatCore.Clause

/-! A derivation that refutes every unsatisfiable formula over few variables: all clauses over the
first `n` variables, then all over one variable less, and so on down to the empty clause. Each
clause follows from its two extensions by the next variable. -/
namespace UnsatCore.Signings

/-- The positive literal of a variable. -/
def literal (v : Nat) : Literal := ⟨Int32.ofNat v⟩

/-- The two literals of each variable from 1 to `k`. -/
def signs (k : Nat) : List (List Literal) :=
  (List.range' 1 k).map fun v => [literal v, -literal v]

/-- All lists with one literal from each list, in the order in which the choice from the last list
changes fastest. -/
def choices : List (List Literal) → List Clause
  | [] => [[]]
  | ls :: rest => ls.flatMap fun l => (choices rest).map (l :: ·)

/-- All clauses with one literal of each variable from 1 to `k`. -/
def clauses (k : Nat) : List Clause := choices (signs k)

section Exhaustive

variable (product : List (List Literal) → List Clause)

/-- The clauses over the first `n` variables, then those over fewer. The order of clauses over the
same variables is up to `product`. -/
def downFrom : (n : Nat) → List Clause
  | 0 => [[]]
  | n + 1 => product (signs (n + 1)) ++ downFrom n

/-- The number of variables is read with a sign, and a negative one counts as none. -/
def exhaustiveBy (count : UInt32) : List Clause := downFrom product count.toInt32.toInt.toNat

end Exhaustive

def exhaustive (count : UInt32) : List Clause := exhaustiveBy choices count

end UnsatCore.Signings
