/-! Numbers kept along a run. By `run_counters_fit` words of 64 bits hold them. -/
namespace UnsatCore

structure Counters where
  lemmas : Nat := 0
  deletions : Nat := 0
  ignoredDeletions : Nat := 0
  satisfiedLemmas : Nat := 0
  checkedLemmas : Nat := 0
  skippedLemmas : Nat := 0
  resolutions : Nat := 0
  propagations : Nat := 0
  coreSize : Nat := 0
deriving DecidableEq

namespace Counters

def render (n : Counters) : String :=
  s!"lemmas={n.lemmas} (checked={n.checkedLemmas}, skipped={n.skippedLemmas}, " ++
    s!"satisfied={n.satisfiedLemmas}), deletions={n.deletions} " ++
    s!"(ignored={n.ignoredDeletions}), resolutions={n.resolutions}, " ++
    s!"propagations={n.propagations}, core={n.coreSize}"

def countLemma (n : Counters) : Counters := { n with lemmas := n.lemmas + 1 }

def countDeletion (n : Counters) : Counters := { n with deletions := n.deletions + 1 }

def countIgnored (n : Counters) : Counters :=
  { n with ignoredDeletions := n.ignoredDeletions + 1 }

def countSatisfied (n : Counters) : Counters :=
  { n with satisfiedLemmas := n.satisfiedLemmas + 1 }

def countChecked (n : Counters) : Counters := { n with checkedLemmas := n.checkedLemmas + 1 }

def countSkipped (n : Counters) : Counters := { n with skippedLemmas := n.skippedLemmas + 1 }

def countResolution (n : Counters) : Counters := { n with resolutions := n.resolutions + 1 }

def countPropagation (n : Counters) : Counters :=
  { n with propagations := n.propagations + 1 }

end Counters

end UnsatCore
