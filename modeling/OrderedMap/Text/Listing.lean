/-!
The layout of a listing of entries, on one line or in a block of lines. In a block every entry
stands on lines of its own, indented by four blanks and closed by a comma.
-/
namespace OrderedMap
namespace Listing

/-- The entries on one line. -/
def inline (entries : List (String × String)) : String :=
  "\x7b" ++ ", ".intercalate (entries.map fun (k, v) => k ++ ": " ++ v) ++ "\x7d"

/-- A block that goes on where another one ends, after a text between them. -/
def join (between : String) : List String → List String → List String
  | [], ys => ys
  | [x], [] => [x ++ between]
  | [x], y :: ys => (x ++ between ++ y) :: ys
  | x :: xs, ys => x :: join between xs ys

/-- The lines of an item within a block. -/
def item (lines : List String) : List String :=
  (join "," lines []).map ("    " ++ ·)

/-- A block between two brackets. -/
def bracketed (opening closing : String) (items : List (List String)) : List String :=
  opening :: items.flatMap item ++ [closing]

/-- The entries as a block of lines. -/
def block (entries : List (List String × List String)) : String :=
  if entries.isEmpty then
    "\x7b\x7d"
  else
    "\n".intercalate (bracketed "\x7b" "\x7d" (entries.map fun (k, v) => join ": " k v))

end Listing
end OrderedMap
