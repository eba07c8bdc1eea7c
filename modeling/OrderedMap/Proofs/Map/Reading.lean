import OrderedMap.Proofs.Map.Actions
import OrderedMap.Proofs.Roll.Basic

/-!
What is read from a map by links is what its roll says: positions resolve to items, cursors step
from item to item, and an iterator pulls from both ends of the list of entries.
-/
namespace OrderedMap

/-- The map is, seen from outside, the given roll. -/
structure Map.Shows {κ ν : Type} (m : Map κ ν) (r : Roll κ ν) : Prop where
  id : m.id = r.id
  policy : m.policy = r.policy
  lists : m.Lists r.items

/-- The cursor rests on an item of the roll or on nothing. -/
def Cursor.Rests {κ ν : Type} (c : Cursor) (r : Roll κ ν) : Prop := ∀ n ∈ c.rest, n ∈ r.nodes

namespace Roll

variable {κ ν : Type} {r : Roll κ ν} {n m : NodeId} {c : Cursor} {x : Item κ ν}

theorem policy_erase (n : Option NodeId) : (r.erase n).policy = r.policy := by cases n <;> rfl

theorem mem_nodes : n ∈ r.nodes ↔ ∃ x ∈ r.items, x.node = n := List.mem_map

theorem mem_nodes_of_outermost {s : Side} (h : r.outermost s = some x) : x.node ∈ r.nodes := by
  cases s with
  | left => exact List.mem_map_of_mem (List.mem_of_mem_head? h)
  | right => exact List.mem_map_of_mem (List.mem_of_getLast? h)

theorem mem_items_of_resolve {p : Position} (h : r.resolve p = .ok x) :
    x ∈ r.items ∧ p.map = r.id ∧ x.node = p.node ∧ x.stamp = p.stamp := by
  unfold resolve at h
  split at h
  · cases h
  · rename_i hp
    split at h
    · rename_i hf
      cases h
      have hx := List.find?_some hf
      simp only [Bool.decide_and, Bool.and_eq_true, decide_eq_true_eq] at hx
      exact ⟨List.mem_of_find?_eq_some hf, not_not.mp hp, hx⟩
    · cases h

end Roll

theorem Item.mem_of_follower {κ ν : Type} {xs : List (Item κ ν)} {n m : NodeId}
    (h : follower n xs = some m) : m ∈ xs.map (·.node) := by
  induction xs with
  | nil => cases h
  | cons x xs ih =>
    rw [follower] at h
    split at h
    · obtain ⟨y, hy, rfl⟩ := Option.map_eq_some_iff.mp h
      exact List.mem_cons_of_mem _ (List.mem_map_of_mem (List.mem_of_mem_head? hy))
    · exact List.mem_cons_of_mem _ (ih h)

theorem Roll.mem_nodes_of_next {κ ν : Type} {r : Roll κ ν} {s : Side} {n m : NodeId}
    (h : r.next s n = some m) : m ∈ r.nodes := by
  cases s with
  | left => simpa [Roll.nodes] using Item.mem_of_follower h
  | right => exact Item.mem_of_follower h

namespace Map

variable {κ ν : Type} {m : Map κ ν} {r : Roll κ ν} {n : NodeId} {x : Item κ ν} {c : Cursor}

/-- The item at a node, read from its slot. -/
def itemAt? (m : Map κ ν) (n : NodeId) : Option (Item κ ν) :=
  (m.arena.get? n).bind fun y => y.entry.map fun e => ⟨n, y.stamp, e⟩

/-- All items in order, read off the links. -/
def items (m : Map κ ν) : List (Item κ ν) :=
  ((m.arena.walk .right).toOption.getD []).filterMap m.itemAt?

theorem Holds.items_eq {t : Tree κ ν} {xs : List (Item κ ν)} (h : m.Holds t xs) :
    m.items = xs := by
  have there (x) (hx : x ∈ xs) : m.itemAt? x.node = some x := by
    obtain ⟨y, hy, hs, he⟩ := h.get? hx
    rw [itemAt?, hy, Option.bind_some, he, hs]
    rfl
  rw [items, Arena.walk_eq h.bears, Tree.toward, ← Tree.ids, h.presents.ids]
  change (xs.map (·.node)).filterMap m.itemAt? = xs
  rw [List.filterMap_map]
  exact (List.filterMap_congr there).trans List.filterMap_some

namespace Shows

theorem items_eq (h : m.Shows r) : m.items = r.items := by
  obtain ⟨t, h⟩ := h.lists
  exact h.items_eq

theorem nodup (h : m.Shows r) : r.nodes.Nodup := by
  obtain ⟨t, h⟩ := h.lists
  exact h.nodup

theorem count (h : m.Shows r) : m.count = r.items.length := by
  obtain ⟨t, h⟩ := h.lists
  exact h.count

theorem compare (h : m.Shows r) : m.compare = r.order := by
  rw [Map.compare, h.policy]
  rfl

theorem at?_of_mem (h : m.Shows r) (hx : x ∈ r.items) : r.at? (some x.node) = some x :=
  Item.at?_of_mem h.nodup hx

theorem entry (h : m.Shows r) (hx : x ∈ r.items) : m.arena.entry x.node = .ok x.entry := by
  obtain ⟨t, h⟩ := h.lists
  exact h.entry hx

/-- What is in the slot of a node is what the roll says of it. -/
theorem bind_entryAt? (h : m.Shows r) (n : Option NodeId) :
    n.bind m.entryAt? = (r.at? n).map (·.entry) := by
  obtain ⟨t, hl⟩ := h.lists
  cases n with
  | none => rfl
  | some n =>
    rw [Option.bind_some]
    cases hx : m.arena.get? n with
    | some y =>
      obtain ⟨x, hmem, rfl, -, -⟩ := hl.exists_item hx
      rw [hl.entryAt? hmem, h.at?_of_mem hmem]
      rfl
    | none =>
      have away : r.at? (some n) = none := by
        refine List.find?_eq_none.mpr fun x hmem e => ?_
        obtain ⟨y, hy, -⟩ := hl.get? hmem
        rw [of_decide_eq_true e, hx] at hy
        cases hy
      rw [Map.entryAt?, hx, away]
      rfl

theorem outermost (h : m.Shows r) (s : Side) :
    m.arena.outermost s = .ok ((r.outermost s).map (·.node)) := by
  obtain ⟨t, h⟩ := h.lists
  cases s with
  | left => exact h.first
  | right => exact h.last

theorem neighbour (h : m.Shows r) (s : Side) (hn : n ∈ r.nodes) :
    m.arena.neighbour s n = .ok (r.next s n) := by
  obtain ⟨x, hx, rfl⟩ := Roll.mem_nodes.mp hn
  obtain ⟨ys, zs, hxs⟩ := List.append_of_mem hx
  rw [Roll.next_split h.nodup hxs]
  obtain ⟨t, hl⟩ := h.lists
  cases s with
  | left => exact hl.predecessor hxs
  | right => exact hl.successor hxs

theorem nodeAt (h : m.Shows r) (p : Position) : m.nodeAt p = (r.resolve p).map (·.node) := by
  obtain ⟨t, hl⟩ := h.lists
  cases hr : r.resolve p with
  | ok x =>
    obtain ⟨hx, hp, hn, hs⟩ := Roll.mem_items_of_resolve hr
    exact hl.nodeAt_eq_ok_iff.mpr ⟨hp.trans h.id.symm, hn, x, hx, hn, hs⟩
  | error e =>
    have notOk (n) : m.nodeAt p ≠ .ok n := fun hn => by
      obtain ⟨hp, -, x, hx, hxp⟩ := hl.nodeAt_eq_ok_iff.mp hn
      rw [Roll.resolve, if_neg (not_not.mpr (hp.trans h.id))] at hr
      split at hr
      · cases hr
      · rename_i hf
        have := List.find?_eq_none.mp hf x hx
        simp [hxp] at this
    have foreign_iff : m.nodeAt p = .error .foreign ↔ r.resolve p = .error .foreign := by
      unfold Map.nodeAt Roll.resolve
      rw [h.id]
      by_cases hp : p.map = r.id
      · simp only [hp, ne_eq, not_true, if_false]
        constructor <;> intro he <;> split at he <;> try split at he
        all_goals cases he
      · simp [hp]
    cases hn : m.nodeAt p with
    | ok n => exact absurd hn (notOk n)
    | error e' =>
      rw [hn, hr] at foreign_iff
      cases e <;> cases e' <;> simp_all [Except.map]

theorem entry? (h : m.Shows r) (hc : c.Rests r) :
    c.entry? m = .ok ((r.at? c.rest).map (·.entry)) := by
  unfold Cursor.entry?
  cases hn : c.rest with
  | none => rfl
  | some n =>
    obtain ⟨x, hx, rfl⟩ := Roll.mem_nodes.mp (hc n hn)
    simp only [h.entry hx, h.at?_of_mem hx]
    rfl

theorem position? (h : m.Shows r) (hc : c.Rests r) :
    c.position? m = .ok ((r.at? c.rest).map r.position) := by
  unfold Cursor.position?
  cases hn : c.rest with
  | none => rfl
  | some n =>
    obtain ⟨x, hx, rfl⟩ := Roll.mem_nodes.mp (hc n hn)
    obtain ⟨t, hl⟩ := h.lists
    simp only [hl.positionAt hx, h.at?_of_mem hx, h.id]
    rfl

theorem move (h : m.Shows r) (hc : c.Rests r) (s : Side) :
    c.move s m = .ok ((c.rest.bind (r.next s)).isSome, ⟨c.rest.bind (r.next s)⟩) := by
  obtain ⟨n⟩ := c
  unfold Cursor.move
  cases n with
  | none => rfl
  | some n =>
    simp only [h.neighbour s (hc n rfl)]
    rfl

end Shows
end Map

theorem Roll.rests_next {κ ν : Type} (r : Roll κ ν) (n : Option NodeId) (s : Side) :
    Cursor.Rests ⟨n.bind (r.next s)⟩ r := by
  intro m hm
  obtain ⟨n, rfl, hn⟩ := Option.bind_eq_some_iff.mp hm
  exact Roll.mem_nodes_of_next hn

namespace Step

variable {κ ν : Type} {m : Map κ ν} {r : Roll κ ν}

theorem rests {c : Cursor} (s : Step) (hc : c.Rests r) : (r.step s c).2.Rests r := by
  cases s <;> try exact hc
  case move s =>
    rw [Roll.step]
    split
    · exact hc
    · exact Roll.rests_next r (some _) s

mutual

/-- A reading cursor answers from the roll. -/
theorem perform_eq (h : m.Shows r) {c : Cursor} (hc : c.Rests r) (s : Step) :
    s.perform m c = .ok (r.step s c) := by
  cases s with
  | move s =>
    rw [perform, h.move hc, Roll.step]
    cases c with
    | mk n => cases n <;> rfl
  | available => rfl
  | tag =>
    rw [perform, h.entry? hc, Roll.step]
    simp only [bind, Except.bind, Option.map_map]
    rfl
  | value =>
    rw [perform, h.entry? hc, Roll.step]
    simp only [bind, Except.bind, Option.map_map]
    rfl
  | entry =>
    rw [perform, h.entry? hc, Roll.step]
    rfl
  | position =>
    rw [perform, h.position? hc, Roll.step]
    rfl
  | fork steps =>
    rw [perform, walk_eq h hc steps, Roll.step]
    rfl

theorem walk_eq (h : m.Shows r) {c : Cursor} (hc : c.Rests r) (steps : List Step) :
    walk m steps c = .ok (r.walk steps c) := by
  cases steps with
  | nil => rw [walk, Roll.walk]; rfl
  | cons s rest =>
    rw [walk, perform_eq h hc s, Roll.walk]
    simp only [bind, Except.bind]
    rw [walk_eq h (rests s hc) rest]
    rfl

end

end Step
end OrderedMap
