import OrderedMap.Proofs.Map.Guise
import OrderedMap.Proofs.Roll.Basic

/-!
Rolls in an upright guise: cursors go the same ways and iterators answer the same, but for the slots
and stamps in the answers.
-/
namespace OrderedMap

variable {κ ν : Type} (g : Guise)

def Cursor.recast (c : Cursor) : Cursor := ⟨c.rest.map g.node⟩

namespace Item

theorem node_recast_eq_iff {n : NodeId} {x : Item κ ν} :
    (x.recast g).node = g.node n ↔ x.node = n := g.node.injective.eq_iff

theorem at?_recast (n : NodeId) (xs : List (Item κ ν)) :
    at? (g.node n) (xs.map (recast g)) = (at? n xs).map (recast g) := by
  unfold at?
  rw [List.find?_map]
  simp only [Function.comp_def, node_recast_eq_iff]

theorem follower_recast (n : NodeId) (xs : List (Item κ ν)) :
    follower (g.node n) (xs.map (recast g)) = (follower n xs).map g.node := by
  induction xs with
  | nil => rfl
  | cons x xs ih =>
    rw [List.map_cons, follower, follower, ih]
    simp only [node_recast_eq_iff]
    split
    · cases xs <;> rfl
    · rfl

end Item

/-- An iterator answers with nothing that a guise changes. -/
theorem View.recast_pulls (v : View) (pulls : List Pull) (es : List (Entry κ ν)) :
    (v.pulls pulls es).map (Reply.recast g) = v.pulls pulls es := by
  have single (e : Option (Entry κ ν)) : (v.shown e).recast g = v.shown e := by
    cases v <;> cases e <;> rfl
  have several (es : List (Entry κ ν)) : (v.shownAll es).recast g = v.shownAll es := by
    rw [View.shownAll, Reply.recast, Reply.recastAll_eq_map, List.map_map]
    exact congrArg _ (List.map_congr_left fun e _ => single (some e))
  induction pulls generalizing es with
  | nil => rfl
  | cons p rest ih =>
    rw [View.pulls, List.map_cons, ih]
    refine congrArg (· :: _) ?_
    cases p with
    | next side => cases side <;> exact single _
    | length => rfl
    | bounds => rfl
    | rest side => cases side <;> exact several _
    | copy => exact several _

namespace Roll

variable (r : Roll κ ν)

/-- The roll of a map in an upright guise. -/
def recast : Roll κ ν := ⟨g.map r.id, r.policy, r.items.map (Item.recast g)⟩

theorem entries_recast : (r.recast g).entries = r.entries := by
  rw [entries, entries, recast, List.map_map]
  rfl

theorem at?_recast (n : Option NodeId) :
    (r.recast g).at? (n.map g.node) = (r.at? n).map (Item.recast g) := by
  cases n with
  | none => rfl
  | some n => exact Item.at?_recast g n r.items

theorem next_recast (s : Side) (n : NodeId) :
    (r.recast g).next s (g.node n) = (r.next s n).map g.node := by
  cases s with
  | left =>
    rw [next, recast, ← List.map_reverse]
    exact Item.follower_recast g n r.items.reverse
  | right => exact Item.follower_recast g n r.items

theorem outermost_recast (s : Side) :
    (r.recast g).outermost s = (r.outermost s).map (Item.recast g) := by
  cases s with
  | left => exact List.head?_map
  | right => exact List.getLast?_map

theorem nodes_recast : (r.recast g).nodes = r.nodes.map g.node := by
  rw [nodes, nodes, recast, List.map_map, List.map_map]
  rfl

mutual

theorem step_recast (s : Step) (c : Cursor) : (r.recast g).step s (c.recast g) =
    ((r.step s c).1.recast g, (r.step s c).2.recast g) := by
  cases s with
  | move side =>
    rw [step, step]
    obtain ⟨n⟩ := c
    cases n with
    | none => rfl
    | some n => simp [Cursor.recast, next_recast, Reply.recast]
  | available => simp [step, Cursor.recast, Reply.recast]
  | tag =>
    simp only [step, Cursor.recast, at?_recast, Option.map_map, Reply.recast]
    rfl
  | value =>
    simp only [step, Cursor.recast, at?_recast, Option.map_map, Reply.recast]
    rfl
  | entry =>
    simp only [step, Cursor.recast, at?_recast, Option.map_map, Reply.recast]
    rfl
  | position =>
    simp only [step, Cursor.recast, at?_recast, Option.map_map, Reply.recast]
    rfl
  | fork steps =>
    rw [step, step, walk_recast steps c, Reply.recast, Reply.recastAll_eq_map]

theorem walk_recast (steps : List Step) (c : Cursor) :
    (r.recast g).walk steps (c.recast g) = (r.walk steps c).map (Reply.recast g) := by
  cases steps with
  | nil =>
    rw [walk, walk]
    rfl
  | cons s rest =>
    rw [walk, walk, step_recast s c, walk_recast rest, List.map_cons]

end

end Roll

theorem Cursor.rests_recast {r : Roll κ ν} {c : Cursor} (h : c.Rests r) :
    (c.recast g).Rests (r.recast g) := by
  intro n hn
  obtain ⟨m, hm, rfl⟩ := Option.map_eq_some_iff.mp hn
  rw [Roll.nodes_recast]
  exact List.mem_map_of_mem (h m hm)

end OrderedMap
