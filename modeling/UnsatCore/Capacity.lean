import UnsatCore.Fault

/-! How large a table can be made: all its entries together have to be addressable. -/
namespace UnsatCore.Capacity

/-- The number of bytes that one table can take: offsets into it are signed 64-bit words. -/
def limit : Nat := 9223372036854775807

/-- The bytes of a literal or header. -/
def wordWidth : Nat := 4

/-- Refuses a table of `count` entries of `width` bytes each if it is over the limit. -/
def check (width count : Nat) : Except Fault Unit :=
  if width * count ≤ limit then .ok () else .error .tooLarge

end UnsatCore.Capacity
