/-! Bracketed lists of printed items: on one line, or with one indented item a line. -/
namespace UnsatCore.Listing

def flat (items : List String) : String :=
  "[" ++ ", ".intercalate items ++ "]"

/-- The empty list has no inner lines, so it stays on one. -/
def tall : List String → String
  | [] => "[]"
  | items => "[\n" ++ String.join (items.map fun item => "    " ++ item ++ ",\n") ++ "]"

end UnsatCore.Listing
