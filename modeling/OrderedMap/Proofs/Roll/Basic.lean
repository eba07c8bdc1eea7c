import OrderedMap.Map.Operation
import OrderedMap.Proofs.Map.Items

/-!
Rolls. A roll is what a map amounts to seen from outside: its identity, its policy, and its items
in order, with no tree. Looking up, stepping and iterating are reading of a list; erasing and
writing are edits of it.
-/
namespace OrderedMap

structure Roll (κ ν : Type) where
  id : MapId
  policy : Policy κ
  items : List (Item κ ν)

namespace Item

variable {κ ν : Type}

/-- The item at a node. -/
def at? (n : NodeId) (xs : List (Item κ ν)) : Option (Item κ ν) := xs.find? (·.node = n)

/-- The node right after a given one. -/
def follower (n : NodeId) : List (Item κ ν) → Option NodeId
  | [] => none
  | x :: rest => if x.node = n then rest.head?.map (·.node) else follower n rest

/-- Of the items before and after a given one, the one next to it on a side. -/
def beside (s : Side) (ys zs : List (Item κ ν)) : Option (Item κ ν) :=
  match s with
  | .left => ys.getLast?
  | .right => zs.head?

variable {xs ys zs : List (Item κ ν)} {x : Item κ ν}

theorem at?_of_mem (h : (xs.map (·.node)).Nodup) (hx : x ∈ xs) : at? x.node xs = some x := by
  unfold at?
  cases hf : xs.find? (·.node = x.node) with
  | none => simpa using List.find?_eq_none.mp hf x hx
  | some y =>
    have hy : y.node = x.node := by simpa using List.find?_some hf
    rw [List.inj_on_of_nodup_map h (List.mem_of_find?_eq_some hf) hx hy]

theorem follower_split (h : ((ys ++ x :: zs).map (·.node)).Nodup) :
    follower x.node (ys ++ x :: zs) = zs.head?.map (·.node) := by
  induction ys with
  | nil => simp [follower]
  | cons y ys ih =>
    simp only [List.cons_append, List.map_cons, List.nodup_cons] at h
    have hne : y.node ≠ x.node := fun e => h.1 (by simp [e])
    rw [List.cons_append, follower, if_neg hne, ih h.2]

end Item

namespace Roll

variable {κ ν : Type} (r : Roll κ ν)

def order : κ → κ → Ordering := r.policy.comparator.compare

def entries : List (Entry κ ν) := r.items.map (·.entry)

def nodes : List NodeId := r.items.map (·.node)

/-- The item with an equal tag. -/
def find? (s : κ) : Option (Item κ ν) := r.items.find? fun x => r.order s x.entry.tag = .eq

def position (x : Item κ ν) : Position := ⟨r.id, x.node, x.stamp⟩

/-- The item a position stands for. -/
def resolve (p : Position) : Except PositionError (Item κ ν) :=
  if p.map ≠ r.id then
    .error .foreign
  else
    match r.items.find? fun x => x.node = p.node ∧ x.stamp = p.stamp with
    | some x => .ok x
    | none => .error .stale

/-- The node next to a given one, towards a side. -/
def next (side : Side) (n : NodeId) : Option NodeId :=
  match side with
  | .left => Item.follower n r.items.reverse
  | .right => Item.follower n r.items

def outermost (side : Side) : Option (Item κ ν) :=
  match side with
  | .left => r.items.head?
  | .right => r.items.getLast?

/-- The item at a node, if there is a node. -/
def at? (n : Option NodeId) : Option (Item κ ν) := n.bind (Item.at? · r.items)

/-- Change the entry at a node, if there is a node. -/
def rewrite (n : Option NodeId) (f : Entry κ ν → Entry κ ν) : Roll κ ν :=
  match n with
  | none => r
  | some n => { r with items := Item.rewriteAt n f r.items }

/-- Leave out the item at a node, if there is a node. -/
def erase (n : Option NodeId) : Roll κ ν :=
  match n with
  | none => r
  | some n => { r with items := Item.without n r.items }

def empty : Roll κ ν := { r with items := [] }

/-- Add an item at the place of its tag. -/
def add (x : Item κ ν) : Roll κ ν :=
  { r with items := r.items.takeWhile (fun y => r.order x.entry.tag y.entry.tag = .gt) ++
      x :: r.items.dropWhile (fun y => r.order x.entry.tag y.entry.tag = .gt) }

/-- A cursor at a start, where `seek` is how a tag is looked up. -/
def cursor (seek : κ → Option NodeId) : Start κ → Except PositionError Cursor
  | .front => .ok ⟨(r.outermost .left).map (·.node)⟩
  | .back => .ok ⟨(r.outermost .right).map (·.node)⟩
  | .find t => .ok ⟨seek t⟩
  | .position p => (r.resolve p).map fun x => ⟨some x.node⟩

mutual

/-- The answer to one step of a reading cursor, and the cursor after it. -/
def step : Step → Cursor → Reply κ ν × Cursor
  | .move side, c =>
    match c.rest with
    | none => (.flag false, c)
    | some n => (.flag (r.next side n).isSome, ⟨r.next side n⟩)
  | .available, c => (.flag c.rest.isSome, c)
  | .tag, c => (.tag ((r.at? c.rest).map (·.entry.tag)), c)
  | .value, c => (.value ((r.at? c.rest).map (·.entry.value)), c)
  | .entry, c => (.entry ((r.at? c.rest).map (·.entry)), c)
  | .position, c => (.position ((r.at? c.rest).map r.position), c)
  | .fork steps, c => (.many (walk steps c), c)

def walk : List Step → Cursor → List (Reply κ ν)
  | [], _ => []
  | s :: rest, c => (step s c).1 :: walk rest (step s c).2

end

/-- The neighbours of an item are those before and after it. -/
theorem next_split {r : Roll κ ν} (h : r.nodes.Nodup) {ys zs : List (Item κ ν)} {x : Item κ ν}
    (hx : r.items = ys ++ x :: zs) (s : Side) :
    r.next s x.node = (Item.beside s ys zs).map (·.node) := by
  rw [nodes, hx] at h
  cases s with
  | left =>
    have reversed : r.items.reverse = zs.reverse ++ x :: ys.reverse := by simp [hx]
    have distinct : ((zs.reverse ++ x :: ys.reverse).map (·.node)).Nodup := by
      rw [← reversed, hx, List.map_reverse, List.nodup_reverse]
      exact h
    rw [next, reversed, Item.follower_split distinct, List.head?_reverse]
    rfl
  | right =>
    rw [next, hx, Item.follower_split h]
    rfl

end Roll

namespace View

variable {κ ν : Type}

/-- What comes through each view: the entry itself, its tag or its value. Where there is no entry,
nothing comes. -/
def shown : View → Option (Entry κ ν) → Reply κ ν
  | entries, some e => .entry (some e)
  | keys, some e => .tag (some e.tag)
  | values, some e => .value (some e.value)
  | entries, none => .entry none
  | keys, none => .tag none
  | values, none => .value none

/-- What comes through a view, one entry after the other. -/
def shownAll (v : View) (es : List (Entry κ ν)) : Reply κ ν := .many (es.map fun e => v.shown (some e))

theorem reply_eq (v : View) (e : Option (Entry κ ν)) : v.reply e = v.shown e := by
  cases v <;> cases e <;> rfl

theorem replies_eq (v : View) (es : List (Entry κ ν)) : v.replies es = v.shownAll es := by
  rw [replies, shownAll]
  exact congrArg Reply.many (List.map_congr_left fun e _ => v.reply_eq (some e))

/-- The answer to one pull from a list of entries, and the entries left after it. -/
def pull (v : View) (es : List (Entry κ ν)) : Pull → Reply κ ν × List (Entry κ ν)
  | .next .left => (v.shown es.head?, es.tail)
  | .next .right => (v.shown es.getLast?, es.dropLast)
  | .length => (.number es.length, es)
  | .bounds => (.bounds es.length es.length, es)
  | .rest .left => (v.shownAll es, [])
  | .rest .right => (v.shownAll es.reverse, [])
  | .copy => (v.shownAll es, es)

def pulls (v : View) : List Pull → List (Entry κ ν) → List (Reply κ ν)
  | [], _ => []
  | p :: rest, es => (v.pull es p).1 :: v.pulls rest (v.pull es p).2

/-- What holds of all that comes through a view, and of counts, holds of every answer to pulls. -/
theorem forall_mem_pulls {P : Reply κ ν → Prop} {v : View} (shown : ∀ e, P (v.shown e))
    (shownAll : ∀ es, P (v.shownAll es)) (number : ∀ n, P (.number n))
    (bounds : ∀ lower upper, P (.bounds lower upper)) (pulls : List Pull)
    (es : List (Entry κ ν)) : ∀ a ∈ v.pulls pulls es, P a := by
  induction pulls generalizing es with
  | nil => exact fun _ h => absurd h List.not_mem_nil
  | cons p rest ih =>
    refine List.forall_mem_cons.mpr ⟨?_, ih _⟩
    cases p with
    | next side => cases side <;> exact shown _
    | length => exact number _
    | bounds => exact bounds _ _
    | rest side => cases side <;> exact shownAll _
    | copy => exact shownAll _

end View

namespace Roll

variable {κ ν : Type}

/-- The answer to one step of a writing cursor, the cursor after it, and the roll then. -/
def amend (r : Roll κ ν) : Revision ν → Cursor → Reply κ ν × Cursor × Roll κ ν
  | .look s, c => ((r.step s c).1, (r.step s c).2, r)
  | .set v, c =>
    (if c.rest.isSome then .done else .faulted .setsUnavailable, c,
      r.rewrite c.rest fun e => ⟨e.tag, v⟩)
  | .write v, c =>
    (.value ((r.at? c.rest).map (·.entry.value)), c, r.rewrite c.rest fun e => ⟨e.tag, v⟩)
  | .erase, c => (.flag c.rest.isSome, ⟨c.rest.bind (r.next .right)⟩, r.erase c.rest)
  | .view steps, c => (.many (r.walk steps c), c, r)

def revise (r : Roll κ ν) : List (Revision ν) → Cursor → List (Reply κ ν) × Roll κ ν
  | [], _ => ([], r)
  | s :: rest, c =>
    let (a, c, r) := r.amend s c
    let (as, r) := revise r rest c
    (a :: as, r)

/-- The result of an operation, where `seek` is how a tag is looked up, and the roll after it. Of
the operations that store new entries and of the self check nothing is said here. -/
def perform? (seek : κ → Option NodeId) (r : Roll κ ν) :
    Map.Op κ ν → Option (Except Fault (Reply κ ν) × Roll κ ν)
  | .size => some (.ok (.number r.items.length), r)
  | .isEmpty => some (.ok (.flag r.items.isEmpty), r)
  | .get t => some (.ok (.value ((r.at? (seek t)).map (·.entry.value))), r)
  | .getEntry t => some (.ok (.entry ((r.at? (seek t)).map (·.entry))), r)
  | .contains t => some (.ok (.flag (seek t).isSome), r)
  | .overwrite t v => some (.ok (.value ((r.at? (seek t)).map (·.entry.value))),
      r.rewrite (seek t) fun e => ⟨e.tag, v⟩)
  | .outermost side => some (.ok (.entry ((r.outermost side).map (·.entry))), r)
  | .position t => some (.ok (.position ((r.at? (seek t)).map r.position)), r)
  | .erase t => some (.ok (.flag (seek t).isSome), r.erase (seek t))
  | .removeValue t =>
    some (.ok (.value ((r.at? (seek t)).map (·.entry.value))), r.erase (seek t))
  | .remove t => some (.ok (.entry ((r.at? (seek t)).map (·.entry))), r.erase (seek t))
  | .eraseOwnPosition p => some <| match r.resolve p with
    | .ok x => (.ok (.flag true), r.erase (some x.node))
    | .error .foreign => (.error .erasesForeign, r)
    | .error .stale => (.ok (.flag false), r)
  | .erasePosition p => some <| match r.resolve p with
    | .ok x => (.ok .done, r.erase (some x.node))
    | .error e => (.ok (.refused e), r)
  | .clear => some (.ok .done, r.empty)
  | .iterate v pulls => some (.ok (.many (v.pulls pulls r.entries)), r)
  | .walk start steps => some <| match r.cursor seek start with
    | .ok c => (.ok (.many (r.walk steps c)), r)
    | .error e => (.ok (.refused e), r)
  | .revise start steps => some <| match r.cursor seek start with
    | .ok c => (.ok (.many (r.revise steps c).1), (r.revise steps c).2)
    | .error e => (.ok (.refused e), r)
  | .insert _ _ | .insertMany _ | .audit => none

end Roll
end OrderedMap
