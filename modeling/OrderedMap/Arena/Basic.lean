import OrderedMap.Fault

/-!
The arena of nodes. Slots are numbered from zero and hold a node or are vacant; vacant slots wait
on a stack and are used again, the last one freed first. Reading names its fault when a slot does
not hold what is asked for: a number beyond the slots is told before a vacant slot.
-/
namespace OrderedMap

structure Arena (κ ν : Type) where
  slots : Array (Option (Node κ ν))
  /-- Vacant slots, the next one to be used first. -/
  free : List Nat
  root : Option NodeId
  deriving DecidableEq, Repr

namespace Arena

variable {κ ν : Type}

def empty : Arena κ ν := ⟨#[], [], none⟩

instance : EmptyCollection (Arena κ ν) := ⟨empty⟩
instance : Inhabited (Arena κ ν) := ⟨empty⟩

/-- The occupant of a slot, if there is one. -/
def get? (a : Arena κ ν) (n : NodeId) : Option (Node κ ν) := a.slots[n.index]?.join

/-- Put a node into an existing slot. -/
def put (a : Arena κ ν) (n : NodeId) (x : Option (Node κ ν)) : Arena κ ν :=
  { a with slots := a.slots.setIfInBounds n.index x }

def node (a : Arena κ ν) (n : NodeId) : Except Fault (Node κ ν) :=
  match a.slots[n.index]? with
  | none => .error (.outOfRange a.slots.size n.index)
  | some none => .error (.dangling n)
  | some (some x) => .ok x

def entry (a : Arena κ ν) (n : NodeId) : Except Fault (Entry κ ν) := do
  match (← a.node n).entry with
  | some e => pure e
  | none => throw (.noEntry n)

def tag (a : Arena κ ν) (n : NodeId) : Except Fault κ := return (← a.entry n).tag

def parent (a : Arena κ ν) (n : NodeId) : Except Fault (Option NodeId) := return (← a.node n).parent

def child (side : Side) (a : Arena κ ν) (n : NodeId) : Except Fault (Option NodeId) :=
  return (← a.node n).child side

def color (a : Arena κ ν) (n : NodeId) : Except Fault Color := return (← a.node n).color

def isUnlinked (a : Arena κ ν) (n : NodeId) : Except Fault Bool := return (← a.node n).isUnlinked

/-- The side of its parent on which a node hangs; a node without parent hangs on none. -/
def hangingSide (a : Arena κ ν) (n : NodeId) : Except Fault (Option Side) := do
  match ← a.parent n with
  | none => pure none
  | some p => pure (some (if (← a.child .left p) = some n then .left else .right))

/-- A missing node is not red. -/
def isRed (a : Arena κ ν) : Option NodeId → Except Fault Bool
  | none => pure false
  | some n => return (← a.color n) = .red

/-- A walk along links whose next node hangs on the present one alone either ends within so many
steps or goes round in a circle. -/
def reach (a : Arena κ ν) : Nat := a.slots.size + 1

/-- A loop that also changes the arena may pass every node once after every change. It changes a
node no more than three times: two child links and the entry can be taken from it. -/
def rounds (a : Arena κ ν) : Nat := (a.slots.size + 1) * (3 * a.slots.size + 2)

protected def toString (a : Arena κ ν) : String :=
  "Tree \x7b root: " ++ NodeId.linkText a.root ++ ", slots: " ++ toString a.slots.size ++
    ", free: " ++ toString a.free.length ++ " \x7d"

instance : ToString (Arena κ ν) := ⟨Arena.toString⟩

theorem get?_eq_some_iff {a : Arena κ ν} {n : NodeId} {x : Node κ ν} :
    a.get? n = some x ↔ a.node n = .ok x := by
  unfold get? node
  cases h : a.slots[n.index]? with
  | none => simp
  | some o => cases o <;> simp

theorem node_eq_ok_iff {a : Arena κ ν} {n : NodeId} {x : Node κ ν} :
    a.node n = .ok x ↔ a.slots[n.index]? = some (some x) := by
  unfold node
  cases h : a.slots[n.index]? with
  | none => simp
  | some o => cases o <;> simp

@[simp] theorem size_put (a : Arena κ ν) (n : NodeId) (x : Option (Node κ ν)) :
    (a.put n x).slots.size = a.slots.size := by simp [put]

theorem get?_put_self {a : Arena κ ν} {n : NodeId} (x : Option (Node κ ν))
    (h : n.index < a.slots.size) : (a.put n x).get? n = x := by
  simp [put, get?, h]

theorem get?_put_of_ne {a : Arena κ ν} {n m : NodeId} (x : Option (Node κ ν)) (h : m ≠ n) :
    (a.put n x).get? m = a.get? m := by
  have hi : n.index ≠ m.index := fun e => h (by cases n; cases m; simp_all)
  simp [put, get?, Array.getElem?_setIfInBounds_ne hi]

end Arena
end OrderedMap
