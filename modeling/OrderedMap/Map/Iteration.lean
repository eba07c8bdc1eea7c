import OrderedMap.Map.Reply
import OrderedMap.Map.Workspace

/-!
Iteration from both ends. A lazy iterator steps along the links of a map that stays, under a counter
of what is left; a harvest holds the entries taken out of a map that is gone. Both answer the same
questions.
-/
namespace OrderedMap

/-- What an iterator shows of an entry. -/
inductive View
  | entries
  | keys
  | values
  deriving DecidableEq, Repr

/-- What is asked of an iterator. -/
inductive Pull
  /-- The next entry from one end. -/
  | next (side : Side)
  | length
  | bounds
  /-- Everything that is left, from one end. -/
  | rest (side : Side)
  /-- What a copy still yields. -/
  | copy
  deriving DecidableEq, Repr

variable {κ ν : Type}

def View.reply (v : View) (e : Option (Entry κ ν)) : Reply κ ν :=
  match v with
  | .entries => .entry e
  | .keys => .tag (e.map (·.tag))
  | .values => .value (e.map (·.value))

/-- A list of entries, as seen through a view. -/
def View.replies (v : View) (es : List (Entry κ ν)) : Reply κ ν :=
  .many (es.map fun e => v.reply (some e))

/-- A lazy iterator: the next node at either end, and how many entries are left. -/
structure LazyIter where
  front : Option NodeId
  back : Option NodeId
  remaining : Nat
  deriving DecidableEq, Repr

namespace LazyIter

/-- An iterator over a whole map. -/
def ofMap (m : Map κ ν) : Except Fault LazyIter :=
  return ⟨← m.arena.outermost .left, ← m.arena.outermost .right, m.count⟩

def atEnd (side : Side) (it : LazyIter) : Option NodeId :=
  match side with
  | .left => it.front
  | .right => it.back

def setEnd (side : Side) (n : Option NodeId) (it : LazyIter) : LazyIter :=
  match side with
  | .left => { it with front := n }
  | .right => { it with back := n }

/-- Pull an entry from one end. -/
def pull (side : Side) (a : Arena κ ν) (it : LazyIter) :
    Except Fault (Option (Entry κ ν) × LazyIter) := do
  match it.remaining, it.atEnd side with
  | k + 1, some n =>
    let next ← a.neighbour side.opposite n
    let e ← a.entry n
    return (some e, { it.setEnd side next with remaining := k })
  | _, _ => return (none, it)

def pullAll (side : Side) (a : Arena κ ν) :
    Nat → LazyIter → Except Fault (List (Entry κ ν) × LazyIter)
  | 0, it => return ([], it)
  | fuel + 1, it => do
    match ← it.pull side a with
    | (none, it) => return ([], it)
    | (some e, it) =>
      let (es, it) ← pullAll side a fuel it
      return (e :: es, it)

/-- Pull from one end until nothing comes. Every entry pulled counts one off. -/
def rest (side : Side) (a : Arena κ ν) (it : LazyIter) :
    Except Fault (List (Entry κ ν) × LazyIter) :=
  pullAll side a it.remaining it

def answer (v : View) (a : Arena κ ν) (it : LazyIter) : Pull → Except Fault (Reply κ ν × LazyIter)
  | .next side => do
    let (e, it) ← it.pull side a
    return (v.reply e, it)
  | .length => return (.number it.remaining, it)
  | .bounds => return (.bounds it.remaining it.remaining, it)
  | .rest side => do
    let (es, it) ← it.rest side a
    return (v.replies es, it)
  | .copy => do
    let (es, _) ← it.rest .left a
    return (v.replies es, it)

def answers (v : View) (a : Arena κ ν) : List Pull → LazyIter → Except Fault (List (Reply κ ν))
  | [], _ => return []
  | p :: rest, it => do
    let (r, it) ← it.answer v a p
    return r :: (← answers v a rest it)

end LazyIter

/-- The entries of a map in order, as an iterator yields them. -/
def Map.entries (m : Map κ ν) : Except Fault (List (Entry κ ν)) := do
  return (← (← LazyIter.ofMap m).rest .left m.arena).1

/-- The answers of an iterator over a map. -/
def Map.iterate (v : View) (pulls : List Pull) (m : Map κ ν) : Except Fault (Reply κ ν) := do
  return .many (← LazyIter.answers v m.arena pulls (← LazyIter.ofMap m))

/-- The entries of a harvest that are left, in order. -/
structure Harvest (κ ν : Type) where
  entries : List (Entry κ ν)
  deriving DecidableEq, Repr

namespace Harvest

def pull (side : Side) (it : Harvest κ ν) : Option (Entry κ ν) × Harvest κ ν :=
  match side with
  | .left => (it.entries.head?, ⟨it.entries.tail⟩)
  | .right => (it.entries.getLast?, ⟨it.entries.dropLast⟩)

/-- All entries that are left, in the order in which they come from one end. -/
def rest (side : Side) (it : Harvest κ ν) : List (Entry κ ν) :=
  match side with
  | .left => it.entries
  | .right => it.entries.reverse

def answer (it : Harvest κ ν) : Pull → Reply κ ν × Harvest κ ν
  | .next side => (.entry (it.pull side).1, (it.pull side).2)
  | .length => (.number it.entries.length, it)
  | .bounds => (.bounds it.entries.length it.entries.length, it)
  | .rest side => (View.entries.replies (it.rest side), ⟨[]⟩)
  | .copy => (View.entries.replies it.entries, it)

def answers : List Pull → Harvest κ ν → List (Reply κ ν)
  | [], _ => []
  | p :: rest, it => (it.answer p).1 :: answers rest (it.answer p).2

end Harvest
end OrderedMap
