import OrderedMap.Map.Access
import OrderedMap.Map.Reply

/-!
Cursors. A cursor rests on an entry or, past either end, on nothing; from nothing it does not move.
A walk is a list of steps of a reading cursor; a revision is a list of steps of one that may also
write and erase.
-/
namespace OrderedMap

structure Cursor where
  rest : Option NodeId
  deriving DecidableEq, Repr

/-- Where a cursor starts. -/
inductive Start (κ : Type)
  | front
  | back
  | find (tag : κ)
  | position (p : Position)

/-- A step of a reading cursor. -/
inductive Step
  /-- On the right to the successor, on the left to the predecessor. -/
  | move (side : Side)
  | available
  | tag
  | value
  | entry
  | position
  /-- A copy of the cursor takes its own steps. -/
  | fork (steps : List Step)

/-- A step of a writing cursor. -/
inductive Revision (ν : Type)
  | look (step : Step)
  /-- Store a value and release the old one. -/
  | set (value : ν)
  /-- Write over the value; nothing is released. -/
  | write (value : ν)
  | erase
  /-- A reading cursor at the same spot takes steps. -/
  | view (steps : List Step)

variable {κ ν : Type}

namespace Cursor

/-- Move to the neighbour and tell whether there is one. -/
def move (c : Cursor) (side : Side) (m : Map κ ν) : Except Fault (Bool × Cursor) := do
  match c.rest with
  | none => pure (false, c)
  | some n =>
    let next ← m.arena.neighbour side n
    return (next.isSome, ⟨next⟩)

def entry? (c : Cursor) (m : Map κ ν) : Except Fault (Option (Entry κ ν)) := do
  match c.rest with
  | none => pure none
  | some n => return some (← m.arena.entry n)

def position? (c : Cursor) (m : Map κ ν) : Except Fault (Option Position) := do
  match c.rest with
  | none => pure none
  | some n => return some (← m.positionAt n)

end Cursor

mutual

/-- The answer to one step, and the cursor after it. -/
def Step.perform (m : Map κ ν) : Step → Cursor → Except Fault (Reply κ ν × Cursor)
  | .move side, c => do
    let (moved, c) ← c.move side m
    return (.flag moved, c)
  | .available, c => return (.flag c.rest.isSome, c)
  | .tag, c => return (.tag ((← c.entry? m).map (·.tag)), c)
  | .value, c => return (.value ((← c.entry? m).map (·.value)), c)
  | .entry, c => return (.entry (← c.entry? m), c)
  | .position, c => return (.position (← c.position? m), c)
  | .fork steps, c => return (.many (← Step.walk m steps c), c)

/-- The answers to a list of steps. -/
def Step.walk (m : Map κ ν) : List Step → Cursor → Except Fault (List (Reply κ ν))
  | [], _ => pure []
  | s :: rest, c => do
    let (r, c) ← s.perform m c
    return r :: (← Step.walk m rest c)

end

namespace Map

/-- The position of a tag, if it is present. -/
def find? (t : κ) : MapM κ ν (Option Position) := do
  let c : Cursor := ⟨← locate t⟩
  survey c.position?

/-- A cursor at a start, unless that is a position that does not resolve. -/
def cursor : Start κ → MapM κ ν (Except PositionError Cursor)
  | .front => return .ok ⟨← look (·.outermost .left)⟩
  | .back => return .ok ⟨← look (·.outermost .right)⟩
  | .find t => return .ok ⟨← locate t⟩
  | .position p => return ((← survey pure).nodeAt p).map (⟨some ·⟩)

/-- The answer of a reading cursor that takes steps from a start. -/
def walk (start : Start κ) (steps : List Step) : MapM κ ν (Reply κ ν) := do
  match ← cursor start with
  | .error e => return .refused e
  | .ok c => return .many (← survey (Step.walk · steps c))

/-- Store a value where a cursor rests and release the old one. -/
def assign (c : Cursor) (v : ν) : MapM κ ν Unit := do
  match c.rest with
  | none => throw .setsUnavailable
  | some n => releaseValue (← overwriteAt n v)

/-- Write over the value where a cursor rests and hand back the old one; nothing is released. -/
def overwriteUnder? (c : Cursor) (v : ν) : MapM κ ν (Option ν) := do
  match c.rest with
  | none => pure none
  | some n => return some (← overwriteAt n v)

/-- Erase the entry under a cursor, which moves on to the successor. -/
def eraseUnder (c : Cursor) : MapM κ ν (Bool × Cursor) := do
  match c.rest with
  | none => return (false, c)
  | some n =>
    let next ← look (·.neighbour .right n)
    dispose n
    return (true, ⟨next⟩)

end Map

/-- The answer to one step of a writing cursor, and the cursor after it. A value that cannot be
stored is answered with the fault, and the cursor goes on. -/
def Revision.perform : Revision ν → Cursor → MapM κ ν (Reply κ ν × Cursor)
  | .look step, c => Map.survey (step.perform · c)
  | .set v, c => do
    match ← Map.attempt (Map.assign c v) with
    | .ok _ => return (.done, c)
    | .error f => return (.faulted f, c)
  | .write v, c => return (.value (← Map.overwriteUnder? c v), c)
  | .erase, c => do
    let (erased, c) ← Map.eraseUnder c
    return (.flag erased, c)
  | .view steps, c => return (.many (← Map.survey (Step.walk · steps c)), c)

def Revision.walk : List (Revision ν) → Cursor → MapM κ ν (List (Reply κ ν))
  | [], _ => pure []
  | s :: rest, c => do
    let (r, c) ← s.perform c
    return r :: (← Revision.walk rest c)

/-- The answer of a writing cursor that takes steps from a start. -/
def Map.revise (start : Start κ) (steps : List (Revision ν)) : MapM κ ν (Reply κ ν) := do
  match ← cursor start with
  | .error e => return .refused e
  | .ok c => return .many (← Revision.walk steps c)

end OrderedMap
