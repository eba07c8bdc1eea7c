import OrderedMap.Arena.Edit

/-!
Edits that move nodes about in the tree. A rotation keeps the in-order sequence. An exchange lets
two nodes trade places; it goes through a placeholder, so that it also serves for neighbours.
-/
namespace OrderedMap
namespace Arena

variable {κ ν : Type}

/-- Turn a node down towards `side`: its child on the other side takes its place. -/
def rotate (side : Side) (n : NodeId) : EditM κ ν Unit := do
  match ← detach side.opposite n with
  | none => throw (.noPivot side n)
  | some pivot =>
    let inner ← detach side pivot
    redirect n (some pivot)
    if let some i := inner then
      attach side.opposite n i
    attach side pivot n

/-- Hang what is below one side of a node below another node. -/
def handOver (side : Side) (source target : NodeId) : EditM κ ν Unit := do
  if let some c ← detach side source then
    attach side target c

/-- Put a node without links where `old` is and leave `old` without links. -/
def transplant (old new : NodeId) : EditM κ ν Unit := do
  unless ← inspect (·.isUnlinked new) do
    throw (.replacesByLinked new)
  handOver .left old new
  handOver .right old new
  redirect old (some new)

/-- Let two nodes trade places. The placeholder takes a stamp. -/
def exchange (n m : NodeId) (stamp : Nat) : EditM κ ν Unit := do
  let placeholder ← allocate none .black stamp
  transplant n placeholder
  transplant m n
  transplant placeholder m
  let _ ← vacate placeholder

/-- Let two nodes trade colours. -/
def exchangeColors (n m : NodeId) : EditM κ ν Unit := do
  let c ← inspect (·.color n)
  let d ← inspect (·.color m)
  alter n (·.withColor d)
  alter m (·.withColor c)

end Arena
end OrderedMap
