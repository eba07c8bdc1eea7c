import OrderedMap.Map.Placement
import OrderedMap.Map.Extraction

/-!
The operations on one map: storing, looking up, erasing and taking out. What the map itself
disposes of is released to its hooks; what is handed back to the caller is not.
-/
namespace OrderedMap
namespace Map

variable {κ ν : Type}

/-- Store a value under a tag. True if the entry is new; otherwise the former tag and value are
released. -/
def insert (t : κ) (v : ν) : MapM κ ν Bool := do
  let (_, new) ← place t v
  if new then
    setCount ((← survey fun m => pure m.count) + 1)
  return new

/-- Store entries one after the other. -/
def insertMany : List (κ × ν) → MapM κ ν Unit
  | [] => pure ()
  | (t, v) :: rest => do
    let _ ← insert t v
    insertMany rest

def entryOf? (t : κ) : MapM κ ν (Option (Entry κ ν)) := do
  match ← locate t with
  | none => pure none
  | some n => return some (← look (·.entry n))

def get? (t : κ) : MapM κ ν (Option ν) := do
  return (← entryOf? t).map (·.value)

def contains (t : κ) : MapM κ ν Bool := do
  return (← locate t).isSome

/-- Write over the value in a node and hand back the old one; nothing is released. -/
def overwriteAt (n : NodeId) (v : ν) : MapM κ ν ν := do
  let old ← edit (Arena.replaceEntry n fun e => ⟨e.tag, v⟩)
  return old.value

/-- Write over the value of a tag, if it is present, and hand back the old one. -/
def overwrite? (t : κ) (v : ν) : MapM κ ν (Option ν) := do
  match ← locate t with
  | none => pure none
  | some n => return some (← overwriteAt n v)

/-- The entry with the least tag on the left, with the greatest on the right. -/
def outermost? (side : Side) : MapM κ ν (Option (Entry κ ν)) := do
  match ← look (·.outermost side) with
  | none => pure none
  | some n => return some (← look (·.entry n))

/-- Take out a node and count one entry less. -/
def takeOut (n : NodeId) : MapM κ ν (Entry κ ν) := do
  let e ← extract n
  match ← survey fun m => pure m.count with
  | 0 => throw .countUnderflow
  | k + 1 => setCount k
  return e

/-- Erase a node and release its entry. -/
def dispose (n : NodeId) : MapM κ ν Unit := do
  release (← takeOut n)

/-- Erase the entry at a position. -/
def erasePosition (p : Position) : MapM κ ν (Except PositionError Unit) := do
  match (← survey pure).nodeAt p with
  | .error e => return .error e
  | .ok n =>
    dispose n
    return .ok ()

/-- Erase the entry at a position and tell whether it was still there. A position of another map is
a misuse. -/
def eraseOwnPosition (p : Position) : MapM κ ν Bool := do
  match ← erasePosition p with
  | .ok _ => return true
  | .error .stale => return false
  | .error .foreign => throw .erasesForeign

/-- Erase a tag and tell whether it was present. -/
def erase (t : κ) : MapM κ ν Bool := do
  match ← locate t with
  | none => return false
  | some n =>
    dispose n
    return true

/-- Hand the entry of a tag over to the caller. -/
def remove? (t : κ) : MapM κ ν (Option (Entry κ ν)) := do
  match ← locate t with
  | none => pure none
  | some n => return some (← takeOut n)

/-- Hand the value of a tag over to the caller. The stored tag is released. -/
def removeValue? (t : κ) : MapM κ ν (Option ν) := do
  match ← remove? t with
  | none => pure none
  | some e =>
    releaseTag e.tag
    return some e.value

/-- Release every entry, children before parents. -/
def clear : MapM κ ν Unit := do
  let m ← survey pure
  if m.arena.root.isSome then
    let released ← strip
    record (.cleared m.id released)
    setCount 0

/-- Clear a map that is about to go. -/
def discard : MapM κ ν Unit := do
  let m ← survey pure
  if m.count > 0 then
    record (.dropping m.id m.count)
  clear

/-- Take all entries out in order, for a map that is about to go. As many are expected as are
counted. Nothing is released. -/
def consume [EntrySize κ ν] : MapM κ ν (List (Entry κ ν)) := do
  let count ← survey fun m => pure m.count
  let entries ← edit (Arena.harvest count)
  setCount 0
  return entries

end Map
end OrderedMap
