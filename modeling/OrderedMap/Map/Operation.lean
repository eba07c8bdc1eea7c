import OrderedMap.Map.Cursor
import OrderedMap.Map.Iteration

/-!
The operations on one map as data, so that a run is a list of them.
-/
namespace OrderedMap

/-- An operation on one map. -/
inductive Map.Op (κ ν : Type)
  | size
  | isEmpty
  | insert (tag : κ) (value : ν)
  | insertMany (entries : List (κ × ν))
  | get (tag : κ)
  | getEntry (tag : κ)
  | contains (tag : κ)
  /-- Write over the value of a tag; nothing is released. -/
  | overwrite (tag : κ) (value : ν)
  /-- The entry with the least or with the greatest tag. -/
  | outermost (side : Side)
  /-- The position of a tag. -/
  | position (tag : κ)
  | erase (tag : κ)
  /-- Hand over the value of a tag; the stored tag is released. -/
  | removeValue (tag : κ)
  /-- Hand over the entry of a tag. -/
  | remove (tag : κ)
  /-- A position of another map is a misuse here. -/
  | eraseOwnPosition (position : Position)
  | erasePosition (position : Position)
  | clear
  | audit
  | iterate (view : View) (pulls : List Pull)
  | walk (start : Start κ) (steps : List Step)
  | revise (start : Start κ) (steps : List (Revision ν))

variable {κ ν : Type}

def Map.Op.perform : Map.Op κ ν → MapM κ ν (Reply κ ν)
  | .size => return .number (← Map.survey fun m => pure m.count)
  | .isEmpty => return .flag (← Map.survey fun m => pure m.isEmpty)
  | .insert t v => return .flag (← Map.insert t v)
  | .insertMany entries => do
    Map.insertMany entries
    return .done
  | .get t => return .value (← Map.get? t)
  | .getEntry t => return .entry (← Map.entryOf? t)
  | .contains t => return .flag (← Map.contains t)
  | .overwrite t v => return .value (← Map.overwrite? t v)
  | .outermost side => return .entry (← Map.outermost? side)
  | .position t => return .position (← Map.find? t)
  | .erase t => return .flag (← Map.erase t)
  | .removeValue t => return .value (← Map.removeValue? t)
  | .remove t => return .entry (← Map.remove? t)
  | .eraseOwnPosition p => return .flag (← Map.eraseOwnPosition p)
  | .erasePosition p => do
    match ← Map.erasePosition p with
    | .ok _ => return .done
    | .error e => return .refused e
  | .clear => do
    Map.clear
    return .done
  | .audit => return .audited (← Map.audit)
  | .iterate v pulls => Map.survey (Map.iterate v pulls)
  | .walk start steps => Map.walk start steps
  | .revise start steps => Map.revise start steps

end OrderedMap
