import OrderedMap.Map.Audit

/-!
The answers an operation can give.
-/
namespace OrderedMap

inductive Reply (κ ν : Type)
  | done
  | flag (b : Bool)
  | number (n : Nat)
  | tag (t : Option κ)
  | value (v : Option ν)
  | entry (e : Option (Entry κ ν))
  | position (p : Option Position)
  /-- Lower and upper bound on what is left. -/
  | bounds (low high : Nat)
  | refused (e : PositionError)
  | audited (r : Except Violation Nat)
  | faulted (f : Fault)
  | many (replies : List (Reply κ ν))
  /-- There is no map of the number asked for. -/
  | noMap

end OrderedMap
