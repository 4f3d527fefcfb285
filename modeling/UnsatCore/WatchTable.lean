import UnsatCore.SlotMap
import UnsatCore.Fault
import UnsatCore.Removal

/-! For each literal, the clauses that are to be visited when it becomes false. -/
namespace UnsatCore

/-- A clause on a watch list, with a copy of its core mark. -/
structure Watcher where
  clause : Handle
  core : Bool
deriving DecidableEq

structure WatchTable where
  lists : SlotMap Literal (Array Watcher)

namespace WatchTable

def blank (slots : Nat) : WatchTable := ⟨.replicate slots #[]⟩

/-- The bytes of a list in the table: where it is, how long it is and how long it can get. -/
def listWidth : Nat := 24

/-- A blank table, if there can be one of that size. -/
def allocate (slots : Nat) : Except Fault WatchTable :=
  match SlotMap.allocate listWidth slots #[] with
  | .ok lists => .ok ⟨lists⟩
  | .error e => .error e

def list (t : WatchTable) (l : Literal) : Except Fault (Array Watcher) :=
  Fault.require .outOfBounds (t.lists.get? l)

def length (t : WatchTable) (l : Literal) : Except Fault Nat :=
  match t.list l with
  | .ok ws => .ok ws.size
  | .error e => .error e

def watcher (t : WatchTable) (l : Literal) (i : Nat) : Except Fault Watcher :=
  match t.list l with
  | .ok ws => Fault.require .outOfBounds ws[i]?
  | .error e => .error e

/-- The position of the first watcher of a clause. -/
def find (t : WatchTable) (l : Literal) (c : Handle) : Except Fault Nat :=
  match t.list l with
  | .ok ws => Fault.require (.noWatcher c l) (ws.findIdx? fun w => w.clause == c)
  | .error e => .error e

def modify (t : WatchTable) (l : Literal) (f : Array Watcher → Array Watcher) :
    Except Fault WatchTable :=
  match t.lists.modify? l f with
  | some lists => .ok ⟨lists⟩
  | none => .error .outOfBounds

def insert (t : WatchTable) (l : Literal) (w : Watcher) : Except Fault WatchTable :=
  t.modify l (·.push w)

/-- Takes out the watcher at a position. The last one of the list fills the hole. -/
def removeAt (t : WatchTable) (l : Literal) (i : Nat) : Except Fault WatchTable :=
  match t.watcher l i with
  | .ok _ => t.modify l (swapRemove · i)
  | .error e => .error e

def remove (t : WatchTable) (l : Literal) (c : Handle) : Except Fault WatchTable :=
  match t.find l c with
  | .ok i => t.modify l (swapRemove · i)
  | .error e => .error e

/-- Tells the watcher of a clause that the clause is in the core. -/
def mark (t : WatchTable) (l : Literal) (c : Handle) : Except Fault WatchTable :=
  match t.find l c with
  | .ok i => t.modify l (·.modify i fun w => { w with core := true })
  | .error e => .error e

end WatchTable

end UnsatCore
