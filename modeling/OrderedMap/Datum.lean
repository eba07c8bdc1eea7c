import OrderedMap.Node
import OrderedMap.Text.Listing
import OrderedMap.Text.Quoted

/-!
Data of three kinds that serve as tags and as values: integers, texts and pairs of integers. Their
natural order puts all integers before all texts and all texts before all pairs. Other comparisons
are known by name; some of them are no total order.
-/
namespace OrderedMap

inductive Datum
  | int (n : Int)
  | text (s : String)
  | pair (a b : Int)
  deriving DecidableEq, Repr, Inhabited

namespace Datum

/-- Texts are ordered by code points, a text before its extensions; pairs are ordered by their
first numbers, then by their second ones. -/
protected def compare : Datum → Datum → Ordering
  | int a, int b => Ord.compare a b
  | int _, _ => .lt
  | text _, int _ => .gt
  | text s, text t => Ord.compare s t
  | text _, pair _ _ => .lt
  | pair a b, pair c d => (Ord.compare a c).then (Ord.compare b d)
  | pair _ _, _ => .gt

instance : Ord Datum := ⟨Datum.compare⟩

/-- A datum takes three machine words, of whichever kind it is. -/
instance : EntrySize Datum Datum := ⟨48⟩

/-- A number for every datum: of a text its length, of a pair the first number. -/
def num : Datum → Int
  | int n => n
  | text s => s.length
  | pair a _ => a

/-- A text for every datum, in which capital letters of the Latin alphabet are lowered. -/
def folded : Datum → String
  | int n => toString n
  | text s => s.map Char.toLower
  | pair a b => toString a ++ "," ++ toString b

/-- The comparisons known by name. -/
inductive Comparison
  | natural
  | reverse
  | byNum
  | byAbsoluteNum
  | byLastDigit
  | byFolded
  | always (order : Ordering)
  /-- Less when not greater. -/
  | atMostIsLess
  /-- Greater when not less. -/
  | atLeastIsGreater
  /-- By the difference of the numbers modulo three: one wins, two loses. -/
  | cyclic
  deriving DecidableEq, Repr

def Comparison.compare : Comparison → Datum → Datum → Ordering
  | natural, a, b => Ord.compare a b
  | reverse, a, b => Ord.compare b a
  | byNum, a, b => Ord.compare a.num b.num
  | byAbsoluteNum, a, b => Ord.compare a.num.natAbs b.num.natAbs
  | byLastDigit, a, b => Ord.compare (a.num.emod 10) (b.num.emod 10)
  | byFolded, a, b => Ord.compare a.folded b.folded
  | always order, _, _ => order
  | atMostIsLess, a, b => if (Ord.compare a b).isLE then .lt else .gt
  | atLeastIsGreater, a, b => if (Ord.compare a b).isGE then .gt else .lt
  | cyclic, a, b =>
    match (a.num - b.num).emod 3 with
    | 0 => .eq
    | 1 => .gt
    | _ => .lt

/-- A datum on one line. -/
def inline : Datum → String
  | int n => toString n
  | text s => quote s
  | pair a b => "(" ++ toString a ++ ", " ++ toString b ++ ")"

/-- A datum as a block of lines. -/
def lines : Datum → List String
  | int n => [toString n]
  | text s => [quote s]
  | pair a b => Listing.bracketed "(" ")" [[toString a], [toString b]]

/-- A list of entries on one line. -/
def inlineListing (es : List (Entry Datum Datum)) : String :=
  Listing.inline (es.map fun e => (e.tag.inline, e.value.inline))

/-- A list of entries as a block of lines. -/
def blockListing (es : List (Entry Datum Datum)) : String :=
  Listing.block (es.map fun e => (e.tag.lines, e.value.lines))

end Datum
end OrderedMap
