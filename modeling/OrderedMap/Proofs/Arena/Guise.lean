import OrderedMap.Proofs.Arena.PostWalk
import OrderedMap.Proofs.Tree.Guise

/-!
Guises of an arena. An arena that bears a tree and one that bears it in a guise have corresponding
nodes in corresponding slots, and if no slot has another number and the vacant ones are the same,
the whole of one arena can be told from the other.
-/
namespace OrderedMap

variable {κ ν : Type} (g : Guise)

def Node.recast (x : Node κ ν) : Node κ ν where
  parent := x.parent.map g.node
  left := (x.child (g.side .left)).map g.node
  right := (x.child (g.side .right)).map g.node
  color := x.color
  stamp := g.stamp x.stamp
  entry := x.entry

theorem Node.recast_node (c : Cell κ ν) (p : Option NodeId) (k : Color) (s : Side)
    (near far : Option NodeId) : (c.node p k s near far).recast g =
      (c.recast g).node (p.map g.node) k (g.side s) (near.map g.node) (far.map g.node) := by
  unfold Guise.side Node.recast
  cases s <;> cases hg : g.mirrored <;> simp [Guise.side, hg] <;> rfl

/-- Every slot of an arena, with the nodes and all that they name in the guise. -/
def Arena.recast (a : Arena κ ν) : Arena κ ν :=
  ⟨a.slots.map (Option.map (Node.recast g)), a.free, a.root.map g.node⟩

namespace Tree

theorem recast_leaf (k : Color) (c : Cell κ ν) :
    (Arena.leaf k c).recast g = Arena.leaf k (c.recast g) := by
  rw [Arena.leaf, recast]
  cases g.side .left <;> rfl

/-- Children come before parents in the same order, unless left and right are exchanged. -/
theorem post_recast {g : Guise} (hg : g.mirrored = false) (t : Tree κ ν) :
    (t.recast g).post = t.post.map (Cell.recast g) := by
  induction t with
  | nil => rfl
  | node l k c r ihl ihr =>
    rw [recast_node hg]
    simp [post, ihl, ihr]

end Tree

namespace Arena

variable {a a' : Arena κ ν} {t : Tree κ ν} {g}

/-- Corresponding slots hold corresponding nodes, and the roots correspond. -/
structure Wears (g : Guise) (a a' : Arena κ ν) : Prop where
  slot : ∀ n, a'.get? (g.node n) = (a.get? n).map (Node.recast g)
  root : a'.root = a.root.map g.node

theorem Hangs.slot_recast {p : Option NodeId} (h : a.Hangs p t)
    (h' : a'.Hangs (p.map g.node) (t.recast g)) {n : NodeId} (hn : n ∈ t.ids) :
    a'.get? (g.node n) = (a.get? n).map (Node.recast g) := by
  induction t generalizing p with
  | nil => simp at hn
  | node l k c r ihl ihr =>
    obtain ⟨hc, hl, hr⟩ := h
    obtain ⟨hc', hl', hr'⟩ := hangs_join.mp h'
    rw [Tree.ids_node, List.mem_append, List.mem_cons] at hn
    rcases hn with hn | rfl | hn
    · exact ihl hl hl' hn
    · rw [hc, Option.map_some, Node.recast_node, ← Tree.root?_recast, ← Tree.root?_recast]
      exact hc'
    · exact ihr hr hr' hn

theorem Forest.slot_recast {ts : List (Tree κ ν)} (h : a.Forest ts)
    (h' : a'.Forest (ts.map (Tree.recast g))) (n : NodeId) :
    a'.get? (g.node n) = (a.get? n).map (Node.recast g) := by
  by_cases hn : n ∈ ts.flatMap Tree.ids
  · obtain ⟨t, ht, hn⟩ := List.mem_flatMap.mp hn
    exact (h.hangs t ht).slot_recast (h'.hangs _ (List.mem_map_of_mem ht)) hn
  · have hn' : g.node n ∉ (ts.map (Tree.recast g)).flatMap Tree.ids := by
      rw [(Tree.ids_recast_all_perm g ts).mem_iff]
      exact fun hm => hn ((List.mem_map_of_injective g.node.injective).mp hm)
    rw [h.get?_of_notMem hn, h'.get?_of_notMem hn']
    rfl

theorem Bears.wears {ts : List (Tree κ ν)} (h : a.Bears t ts)
    (h' : a'.Bears (t.recast g) (ts.map (Tree.recast g))) : Wears g a a' :=
  ⟨Forest.slot_recast h.forest h'.forest,
    by rw [h'.root, h.root, Tree.root?_recast]⟩

/-- Slots that are not in the tree have to be looked at themselves. -/
theorem Plants.wears (h : a.Plants t) (h' : a'.Plants (t.recast g))
    (others : ∀ n, n ∉ t.ids → a'.get? (g.node n) = (a.get? n).map (Node.recast g)) :
    Wears g a a' := by
  refine ⟨fun n => ?_, by rw [h'.root, h.root, Tree.root?_recast]⟩
  by_cases hn : n ∈ t.ids
  · exact h.hangs.slot_recast h'.hangs hn
  · exact others n hn

theorem get?_recast (n : NodeId) : (a.recast g).get? n = (a.get? n).map (Node.recast g) := by
  unfold get? recast
  simp only [Array.getElem?_map]
  cases a.slots[n.index]? <;> rfl

/-- With the slots in place one arena is the other one in the guise, as a whole. -/
theorem Wears.eq_recast (h : Wears g a a') (hn : g.node = .refl _)
    (hs : a'.slots.size = a.slots.size) (hf : a'.free = a.free) : a' = a.recast g := by
  refine ext_get? (fun n => ?_) (hs.trans (by simp [recast])) hf h.root
  rw [get?_recast, ← h.slot n, hn, Equiv.refl_apply]

/-! A guise in which no slot has another number may be put on any arena. -/

section Level

variable (hg : g.node = .refl _)
include hg

theorem Hangs.recast {p : Option NodeId} (h : a.Hangs p t) :
    (a.recast g).Hangs p (t.recast g) := by
  induction t generalizing p with
  | nil => trivial
  | node l k c r ihl ihr =>
    obtain ⟨hc, hl, hr⟩ := h
    have same (n : Option NodeId) : n.map g.node = n := by simp [hg]
    have hid : (c.recast g).id = c.id := by simp [Cell.recast, hg]
    refine hangs_join.mpr ⟨?_, ?_, ?_⟩
    · rw [hid, get?_recast, hc, Option.map_some, Node.recast_node, same, same, same,
        Tree.root?_recast, Tree.root?_recast, same, same]
    · rw [hid]
      exact ihl hl
    · rw [hid]
      exact ihr hr

theorem Forest.recast {ts : List (Tree κ ν)} (h : a.Forest ts) :
    (a.recast g).Forest (ts.map (Tree.recast g)) := by
  have ids := Tree.ids_recast_all_perm g ts
  rw [hg, Equiv.coe_refl, List.map_id] at ids
  refine ⟨fun u hu => ?_, ids.nodup_iff.mpr h.distinct, fun n hn => ids.mem_iff.mpr ?_,
    h.free_nodup, fun i => ?_⟩
  · obtain ⟨t, ht, rfl⟩ := List.mem_map.mp hu
    exact (h.hangs t ht).recast hg
  · rw [get?_recast, Option.isSome_map] at hn
    exact h.occupied n hn
  · rw [get?_recast, Option.map_eq_none_iff, Arena.recast, Array.size_map]
    exact h.mem_free i

theorem ids_recast_perm (t : Tree κ ν) : (t.recast g).ids.Perm t.ids := by
  have ids := Tree.ids_recast_perm g t
  rwa [hg, Equiv.coe_refl, List.map_id] at ids

theorem Plants.recast (h : a.Plants t) : (a.recast g).Plants (t.recast g) := by
  have links := h.hangs.recast hg
  have distinct := (ids_recast_perm hg t).nodup_iff.mpr h.nodup
  exact ⟨⟨by simpa using links, by simpa using distinct⟩,
    by rw [Arena.recast, h.root, Tree.root?_recast]⟩

theorem Bears.recast {ts : List (Tree κ ν)} (h : a.Bears t ts) :
    (a.recast g).Bears (t.recast g) (ts.map (Tree.recast g)) :=
  ⟨Forest.recast hg h.forest,
    by rw [Arena.recast, h.root, Tree.root?_recast]⟩

end Level
end Arena
end OrderedMap
