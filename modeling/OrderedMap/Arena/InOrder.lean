import OrderedMap.Arena.Edit

/-!
Stepping through the tree in the order of its tags, by links alone. A step towards a side goes to
the nearest node of the subtree there, or else up to the first ancestor reached from its other
side. The harvest takes all entries out on such a walk.
-/
namespace OrderedMap
namespace Arena

variable {κ ν : Type}

def extremeFrom (side : Side) (a : Arena κ ν) : Nat → NodeId → Except Fault NodeId
  | 0, _ => throw .endless
  | fuel + 1, n => do
    match ← a.child side n with
    | none => pure n
    | some c => extremeFrom side a fuel c

/-- The node at the end of the links on one side. -/
def extreme (side : Side) (a : Arena κ ν) (n : NodeId) : Except Fault NodeId :=
  extremeFrom side a a.reach n

/-- The outermost node of the tree on one side. -/
def outermost (side : Side) (a : Arena κ ν) : Except Fault (Option NodeId) := do
  match a.root with
  | none => pure none
  | some r => return some (← a.extreme side r)

def climbFrom (side : Side) (a : Arena κ ν) : Nat → NodeId → Except Fault (Option NodeId)
  | 0, _ => throw .endless
  | fuel + 1, n => do
    match ← a.parent n with
    | none => pure none
    | some p =>
      if (← a.child side.opposite p) = some n then
        pure (some p)
      else
        climbFrom side a fuel p

/-- The next node towards one side: on the right the successor, on the left the predecessor. -/
def neighbour (side : Side) (a : Arena κ ν) (n : NodeId) : Except Fault (Option NodeId) := do
  match ← a.child side n with
  | some c => return some (← a.extreme side.opposite c)
  | none => climbFrom side a a.reach n

/-- The nodes passed by a walk from `start` on. -/
def follow (next : NodeId → Except Fault (Option NodeId)) :
    Nat → Option NodeId → Except Fault (List NodeId)
  | _, none => pure []
  | 0, some _ => throw .endless
  | fuel + 1, some n => do return n :: (← follow next fuel (← next n))

/-- All nodes, beginning with the outermost one opposite to `side` and stepping towards `side`. -/
def walk (side : Side) (a : Arena κ ν) : Except Fault (List NodeId) := do
  follow (a.neighbour side) a.reach (← a.outermost side.opposite)

def harvestFrom : Nat → Option NodeId → EditM κ ν (List (Entry κ ν))
  | _, none => pure []
  | 0, some _ => throw .endless
  | fuel + 1, some n => do
    let next ← inspect (·.neighbour .right n)
    let e ← hollow n
    return e.toList ++ (← harvestFrom fuel next)

/-- Whether room can be had for a number of entries: fewer than 2 ^ 63 bytes can be addressed. An
arena with as many slots has room for what they hold. -/
def hasRoom [EntrySize κ ν] (a : Arena κ ν) (n : Nat) : Bool :=
  n ≤ a.slots.size || n * EntrySize.bytes κ ν ≤ 0x7fffffffffffffff

/-- Take every entry out in order, then drop all slots. Room is made beforehand for the number of
entries that is expected. -/
def harvest [EntrySize κ ν] (expected : Nat) : EditM κ ν (List (Entry κ ν)) := do
  let a ← get
  if !a.hasRoom expected then
    throw .noRoom
  let entries ← harvestFrom a.reach (← inspect (·.outermost .left))
  wipe
  return entries

end Arena
end OrderedMap
