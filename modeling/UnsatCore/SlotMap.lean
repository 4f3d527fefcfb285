import UnsatCore.Literal
import UnsatCore.Listing
import UnsatCore.Capacity

/-! Dense tables. A key owns one slot of an array, so a table has as many entries as slots and a
key whose slot is beyond the end has no entry. -/
namespace UnsatCore

class Slotted (κ : Type) where
  slot : κ → Nat

instance : Slotted Var := ⟨Var.index⟩

/-- Both polarities of a variable are neighbours: v has slot 2v and its opposite has 2v + 1. -/
instance : Slotted Literal :=
  ⟨fun l => 2 * l.var.index + if l.isPositive then 0 else 1⟩

structure SlotMap (κ α : Type) where
  slots : Array α

namespace SlotMap

variable {κ α : Type} [Slotted κ]

def replicate (size : Nat) (a : α) : SlotMap κ α := ⟨Array.replicate size a⟩

/-- A table of entries of `width` bytes, if there can be one of that size. -/
def allocate (width size : Nat) (a : α) : Except Fault (SlotMap κ α) :=
  match Capacity.check width size with
  | .ok () => .ok (.replicate size a)
  | .error e => .error e

def size (m : SlotMap κ α) : Nat := m.slots.size

def isEmpty (m : SlotMap κ α) : Bool := m.slots.isEmpty

def contains (m : SlotMap κ α) (k : κ) : Bool := decide (Slotted.slot k < m.slots.size)

def get? (m : SlotMap κ α) (k : κ) : Option α := m.slots[Slotted.slot k]?

def modify? (m : SlotMap κ α) (k : κ) (f : α → α) : Option (SlotMap κ α) :=
  if Slotted.slot k < m.slots.size then some ⟨m.slots.modify (Slotted.slot k) f⟩ else none

def set? (m : SlotMap κ α) (k : κ) (a : α) : Option (SlotMap κ α) :=
  if h : Slotted.slot k < m.slots.size then some ⟨m.slots.set (Slotted.slot k) a h⟩ else none

def render (text : α → String) (m : SlotMap κ α) : String :=
  Listing.flat (m.slots.toList.map text)

end SlotMap

end UnsatCore
