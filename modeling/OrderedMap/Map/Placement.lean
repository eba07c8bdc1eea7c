import OrderedMap.Map.Descent

/-!
Putting an entry into the tree. A new node is hung as a red leaf; then a red node with a red parent
is moved upwards by recolouring, until the parent is black or a rotation settles it.
-/
namespace OrderedMap
namespace Map

variable {κ ν : Type}

/-- The uncle of `n` is black: straighten a zig-zag at the parent, then rotate the grandparent. -/
def settleByRotation (n parent grand : NodeId) (side : Side) : MapM κ ν Unit := do
  let inner := decide ((← look (·.child side.opposite parent)) = some n)
  if inner then
    record (.innerRotation parent)
    rotate side parent
  record (.outerRotation grand)
  rotate side.opposite grand
  paint (if inner then n else parent) .black
  paint grand .red

def settleFrom : Nat → NodeId → MapM κ ν Unit
  | 0, _ => throw .endless
  | fuel + 1, n => do
    match ← look (·.parent n) with
    | none => paint n .black
    | some parent =>
      if (← look (·.color parent)) = .red then
        let grand ← look (·.parent parent)
        let side ← look (·.hangingSide parent)
        match grand, side with
        | some grand, some side =>
          match ← look (·.child side.opposite grand) with
          | some uncle =>
            if (← look (·.color uncle)) = .red then
              record (.recolored grand)
              paint parent .black
              paint uncle .black
              paint grand .red
              settleFrom fuel grand
            else
              settleByRotation n parent grand side
          | none => settleByRotation n parent grand side
        | _, _ => paint parent .black

/-- Restore the colour rules above a red node whose parent may be red. -/
def settle (n : NodeId) : MapM κ ν Unit := do
  let a ← look pure
  settleFrom a.rounds n

/-- Store a value under a tag: in the entry with an equal tag, whose former tag and value are
released, or else in a new node. Returns the node and whether it is new. -/
def place (t : κ) (v : ν) : MapM κ ν (NodeId × Bool) := do
  match ← nearest t with
  | none =>
    let n ← allocate (some ⟨t, v⟩) .red
    edit (Arena.setRoot (some n))
    settle n
    return (n, true)
  | some (found, order) =>
    match Side.ofOrdering? order with
    | none =>
      let old ← edit (Arena.replaceEntry found fun _ => ⟨t, v⟩)
      releaseTag old.tag
      releaseValue old.value
      return (found, false)
    | some side =>
      let n ← allocate (some ⟨t, v⟩) .red
      edit (Arena.attach side found n)
      settle n
      return (n, true)

end Map
end OrderedMap
