import OrderedMap.Proofs.Map.Placing
import OrderedMap.Proofs.Map.Removal

/-!
What a map amounts to: a list of items, each an entry with the node that holds it. The tree that
bears them is red-black, and the tracked count is their number. Whatever an operation looks at by
links can be read off the list.
-/
namespace OrderedMap

/-- An entry of a map, with the slot and the stamp of its node. -/
structure Item (κ ν : Type) where
  node : NodeId
  stamp : Nat
  entry : Entry κ ν
  deriving DecidableEq, Repr

namespace Item

variable {κ ν : Type}

def cell (x : Item κ ν) : Cell κ ν := ⟨x.node, x.stamp, some x.entry⟩

/-- Change the entries of a node. -/
def rewriteAt (n : NodeId) (f : Entry κ ν → Entry κ ν) (xs : List (Item κ ν)) :
    List (Item κ ν) :=
  xs.map fun x => if x.node = n then { x with entry := f x.entry } else x

/-- Leave out the items of a node. -/
def without (n : NodeId) (xs : List (Item κ ν)) : List (Item κ ν) := xs.filter (·.node ≠ n)

variable {xs ys zs : List (Item κ ν)} {x : Item κ ν}

theorem length_rewriteAt (n : NodeId) (f : Entry κ ν → Entry κ ν) (xs : List (Item κ ν)) :
    (rewriteAt n f xs).length = xs.length := List.length_map ..

theorem rewriteAt_split (f : Entry κ ν → Entry κ ν)
    (h : ((ys ++ x :: zs).map (·.node)).Nodup) :
    rewriteAt x.node f (ys ++ x :: zs) = ys ++ { x with entry := f x.entry } :: zs := by
  have away {us : List (Item κ ν)} (hu : x.node ∉ us.map (·.node)) :
      us.map (fun y => if y.node = x.node then { y with entry := f y.entry } else y) = us := by
    refine (List.map_congr_left fun y hy => ?_).trans (List.map_id us)
    have hne : y.node ≠ x.node := fun e => hu (e ▸ List.mem_map_of_mem hy)
    rw [if_neg hne]
    rfl
  simp only [List.map_append, List.map_cons, List.nodup_append, List.nodup_cons, List.mem_cons]
    at h
  rw [rewriteAt, List.map_append, List.map_cons, away (by grind), away (by grind), if_pos rfl]

theorem without_split (h : ((ys ++ x :: zs).map (·.node)).Nodup) :
    without x.node (ys ++ x :: zs) = ys ++ zs := by
  have away {us : List (Item κ ν)} (hu : x.node ∉ us.map (·.node)) :
      us.filter (·.node ≠ x.node) = us := by
    refine List.filter_eq_self.mpr fun y hy => ?_
    exact decide_eq_true fun e => hu (e ▸ List.mem_map_of_mem hy)
  simp only [List.map_append, List.map_cons, List.nodup_append, List.nodup_cons, List.mem_cons]
    at h
  rw [without, List.filter_append, List.filter_cons_of_neg (by simp), away (by grind),
    away (by grind)]

end Item

namespace Map

variable {κ ν : Type} {m : Map κ ν} {t : Tree κ ν} {xs ys zs : List (Item κ ν)} {x : Item κ ν}

/-- A tree of the given items hangs from the root. -/
structure Presents (m : Map κ ν) (t : Tree κ ν) (xs : List (Item κ ν)) : Prop where
  stands : m.arena.Stands t
  cells : t.cells = xs.map Item.cell

namespace Presents

theorem filled (h : m.Presents t xs) : t.Filled := by
  intro c hc
  rw [h.cells] at hc
  obtain ⟨x, -, rfl⟩ := List.mem_map.mp hc
  rfl

theorem ids (h : m.Presents t xs) : t.ids = xs.map (·.node) := by
  rw [Tree.ids, h.cells, List.map_map]
  rfl

theorem get? (h : m.Presents t xs) (hx : x ∈ xs) :
    ∃ y, m.arena.get? x.node = some y ∧ y.stamp = x.stamp ∧ y.entry = some x.entry :=
  h.stands.links.get?_of_mem (c := x.cell) (by rw [h.cells]; exact List.mem_map_of_mem hx)

theorem tag (h : m.Presents t xs) (hx : x ∈ xs) : m.arena.tag x.node = .ok x.entry.tag := by
  obtain ⟨y, hy, -, he⟩ := h.get? hx
  exact Arena.tag_of_get? hy he

theorem successor (h : m.Presents t xs) (hx : xs = ys ++ x :: zs)
    (hnd : ((ys ++ [x]).map (·.node)).Nodup) :
    m.arena.neighbour .right x.node = .ok (zs.head?.map (·.node)) := by
  have ht : t.toward .right = ys.map Item.cell ++ x.cell :: zs.map Item.cell := by
    rw [Tree.toward, h.cells, hx, List.map_append, List.map_cons]
  have hcells : ((ys.map Item.cell ++ [x.cell]).map (·.id)).Nodup := by
    simpa [Item.cell, Function.comp_def] using hnd
  rw [show x.node = x.cell.id from rfl, h.stands.links.neighbour_eq ht hcells, List.head?_map,
    Option.map_map]
  rfl

theorem length_le (h : m.Presents t xs) (hx : xs = ys ++ zs) (hnd : (ys.map (·.node)).Nodup) :
    ys.length ≤ m.arena.slots.size := by
  have there : ∀ n ∈ ys.map (·.node), (m.arena.get? n).isSome := by
    intro n hn
    refine h.stands.links.occupied n ?_
    rw [h.ids, hx, List.map_append]
    exact List.mem_append_left _ hn
  simpa using Arena.length_le_size hnd there

end Presents

/-- The arena bears a red-black tree of the given items, and they are counted. -/
structure Holds (m : Map κ ν) (t : Tree κ ν) (xs : List (Item κ ν)) : Prop where
  bears : m.arena.Bears t
  redBlack : ∃ h, t.RedBlack h
  cells : t.cells = xs.map Item.cell
  count : m.count = xs.length

/-- The entry of a node, if there is one. -/
def entryAt? (m : Map κ ν) (n : NodeId) : Option (Entry κ ν) := (m.arena.get? n).bind (·.entry)

/-- All entries, children before parents. -/
def upwardEntries (m : Map κ ν) : List (Entry κ ν) :=
  (m.arena.postOrder.toOption.getD []).filterMap m.entryAt?

/-- What the hooks receive when the entry of a node is disposed of, if there is one. -/
def releasesAt (m : Map κ ν) (n : Option NodeId) : List (Released κ ν) :=
  (n.bind m.entryAt?).toList.flatMap m.policy.releases

/-- What the hooks receive when only the tag at a node is disposed of. -/
def tagReleasesAt (m : Map κ ν) (n : Option NodeId) : List (Released κ ν) :=
  (n.bind m.entryAt?).toList.flatMap fun e => m.policy.tagReleases e.tag

/-- What the hooks receive when only the value at a node is disposed of. -/
def valueReleasesAt (m : Map κ ν) (n : Option NodeId) : List (Released κ ν) :=
  (n.bind m.entryAt?).toList.flatMap fun e => m.policy.valueReleases e.value

/-- The map holds the given items in order. -/
def Lists (m : Map κ ν) (xs : List (Item κ ν)) : Prop := ∃ t, m.Holds t xs

namespace Holds

theorem presents (h : m.Holds t xs) : m.Presents t xs := ⟨h.bears.stands, h.cells⟩

theorem nodup (h : m.Holds t xs) : (xs.map (·.node)).Nodup := h.presents.ids ▸ h.bears.nodup

theorem filled (h : m.Holds t xs) : t.Filled := h.presents.filled

theorem get? (h : m.Holds t xs) (hx : x ∈ xs) :
    ∃ y, m.arena.get? x.node = some y ∧ y.stamp = x.stamp ∧ y.entry = some x.entry :=
  h.presents.get? hx

theorem entryAt? (h : m.Holds t xs) (hx : x ∈ xs) : m.entryAt? x.node = some x.entry := by
  obtain ⟨y, hy, -, he⟩ := h.get? hx
  rw [Map.entryAt?, hy]
  exact he

theorem releasesAt (h : m.Holds t xs) (hx : x ∈ xs) :
    m.releasesAt (some x.node) = m.policy.releases x.entry := by
  rw [Map.releasesAt, Option.bind_some, h.entryAt? hx]
  simp

theorem upwardEntries_eq (h : m.Holds t xs) :
    m.upwardEntries = t.post.filterMap (·.entry) := by
  unfold upwardEntries
  rw [Arena.postOrder_eq h.bears.stands h.bears.nodup]
  change (t.post.map (·.id)).filterMap m.entryAt? = _
  rw [List.filterMap_map]
  refine List.filterMap_congr fun c hc => ?_
  obtain ⟨y, hy, -, he⟩ := h.bears.hangs.get?_of_mem (t.post_perm.subset hc)
  rw [Function.comp_apply, Map.entryAt?, hy]
  exact he

/-- From the leaves up every entry is met once. -/
theorem upwardEntries_perm (h : m.Holds t xs) : m.upwardEntries.Perm (xs.map (·.entry)) := by
  have cells : t.cells.filterMap (·.entry) = xs.map (·.entry) := by
    rw [h.cells, List.filterMap_map, ← List.filterMap_eq_map]
    rfl
  rw [h.upwardEntries_eq, ← cells]
  exact t.post_perm.filterMap _

/-- An allocation takes the arena to one slot more than there are entries, if to a new one at
all. -/
theorem nextSize_le (h : m.Holds t xs) :
    m.arena.nextSize ≤ max m.arena.slots.size (m.count + 1) := by
  have hsize := h.bears.forest.size_slots
  have hids : t.ids.length = m.count := by rw [Tree.ids, h.cells, h.count]; simp
  rw [List.flatMap_singleton, hids] at hsize
  unfold Arena.nextSize
  split
  · rename_i hfree
    rw [hfree, List.length_nil] at hsize
    omega
  · omega

/-- Every occupied slot is that of an item. -/
theorem exists_item (h : m.Holds t xs) {n : NodeId} {y : Node κ ν}
    (hy : m.arena.get? n = some y) :
    ∃ x ∈ xs, x.node = n ∧ x.stamp = y.stamp ∧ y.entry = some x.entry := by
  have hn := h.bears.forest.occupied n (by rw [hy]; rfl)
  simp only [List.flatMap_cons, List.flatMap_nil, List.append_nil, Tree.ids, h.cells,
    List.map_map] at hn
  obtain ⟨x, hx, rfl⟩ := List.mem_map.mp hn
  obtain ⟨z, hz, hs, he⟩ := h.get? hx
  rw [show m.arena.get? x.node = some y from hy] at hz
  cases hz
  exact ⟨x, hx, rfl, hs.symm, he⟩

theorem entry (h : m.Holds t xs) (hx : x ∈ xs) : m.arena.entry x.node = .ok x.entry := by
  obtain ⟨y, hy, -, he⟩ := h.get? hx
  exact Arena.entry_of_get? hy he

theorem positionAt (h : m.Holds t xs) (hx : x ∈ xs) :
    m.positionAt x.node = .ok ⟨m.id, x.node, x.stamp⟩ := by
  obtain ⟨y, hy, hs, -⟩ := h.get? hx
  unfold Map.positionAt
  rw [Arena.node_of_get? hy, ← hs]
  rfl

theorem successor (h : m.Holds t xs) (hx : xs = ys ++ x :: zs) :
    m.arena.neighbour .right x.node = .ok (zs.head?.map (·.node)) := by
  have hnd := h.nodup
  rw [hx, List.append_cons, List.map_append] at hnd
  exact h.presents.successor hx (List.nodup_append.mp hnd).1

theorem predecessor (h : m.Holds t xs) (hx : xs = ys ++ x :: zs) :
    m.arena.neighbour .left x.node = .ok (ys.getLast?.map (·.node)) := by
  have ht : t.toward .left =
      (zs.map Item.cell).reverse ++ x.cell :: (ys.map Item.cell).reverse := by
    rw [Tree.toward, h.cells, hx]
    simp
  rw [show x.node = x.cell.id from rfl, Arena.neighbour_eq h.bears ht, List.head?_reverse,
    List.getLast?_map, Option.map_map]
  rfl

theorem first (h : m.Holds t xs) : m.arena.outermost .left = .ok (xs.head?.map (·.node)) := by
  rw [Arena.outermost_eq h.bears.stands, Tree.toward, List.getLast?_reverse, h.cells,
    List.head?_map, Option.map_map]
  rfl

theorem last (h : m.Holds t xs) : m.arena.outermost .right = .ok (xs.getLast?.map (·.node)) := by
  rw [Arena.outermost_eq h.bears.stands, Tree.toward, h.cells, List.getLast?_map, Option.map_map]
  rfl

/-- A position of the map resolves to the item with its slot and stamp. -/
theorem nodeAt_eq_ok_iff (h : m.Holds t xs) {p : Position} {n : NodeId} :
    m.nodeAt p = .ok n ↔ p.map = m.id ∧ n = p.node ∧ ∃ x ∈ xs, x.node = p.node ∧
      x.stamp = p.stamp := by
  unfold nodeAt
  by_cases hp : p.map = m.id
  · cases hy : m.arena.get? p.node with
    | none =>
      have none (x) (hx : x ∈ xs) : x.node ≠ p.node := fun e => by
        obtain ⟨y, hy', -⟩ := h.get? hx
        rw [e, hy] at hy'
        cases hy'
      simp only [hp, ne_eq, not_true, if_false, reduceCtorEq, true_and, false_iff]
      rintro ⟨-, x, hx, e, -⟩
      exact none x hx e
    | some y =>
      obtain ⟨x, hx, hn, hs, he⟩ := h.exists_item hy
      have unique (x') (hx' : x' ∈ xs) (e : x'.node = p.node) : x' = x :=
        List.inj_on_of_nodup_map h.nodup hx' hx (e.trans hn.symm)
      simp only [hp, ne_eq, not_true, if_false, true_and, he, Option.isSome_some, and_true]
      constructor
      · intro hr
        split at hr
        · rename_i hst
          exact ⟨(Except.ok.inj hr).symm, x, hx, hn, hs.trans hst⟩
        · cases hr
      · rintro ⟨rfl, x', hx', e, hst⟩
        rw [unique x' hx' e, hs] at hst
        rw [if_pos hst]
  · simp [hp]

end Holds
end Map
end OrderedMap
