import OrderedMap.Proofs.Map.Storing

/-!
Well-formed maps. The nodes reached from the root are those of a finite tree, each reached once,
with parent links that fit, entries everywhere, the colour and height rules, and as many nodes as
are counted. Such is every map that shows a roll.
-/
namespace OrderedMap
namespace Arena

variable {κ ν : Type} {a : Arena κ ν} {t : Tree κ ν} {p : Option NodeId} {n m : NodeId}

/-- The nodes to which links lead from the root. -/
inductive Reached (a : Arena κ ν) : NodeId → Prop
  | root {n : NodeId} (h : a.root = some n) : Reached a n
  | child {n m : NodeId} {x : Node κ ν} (s : Side) (above : Reached a n) (node : a.get? n = some x)
      (link : x.child s = some m) : Reached a m

namespace Hangs

theorem reached (h : a.Hangs p t) (hr : ∀ n ∈ t.root?, a.Reached n) : ∀ n ∈ t.ids, a.Reached n := by
  induction t generalizing p with
  | nil => exact nofun
  | node l k c r ihl ihr =>
    obtain ⟨hc, hl, hh⟩ := h
    have here : a.Reached c.id := hr c.id rfl
    intro n hn
    rw [Tree.ids_node, List.mem_append, List.mem_cons] at hn
    rcases hn with hn | rfl | hn
    · exact ihl hl (fun m hm => .child .left here hc hm) n hn
    · exact here
    · exact ihr hh (fun m hm => .child .right here hc hm) n hn

theorem child_mem (h : a.Hangs p t) {x : Node κ ν} {s : Side} (hn : n ∈ t.ids)
    (hx : a.get? n = some x) (hm : x.child s = some m) : m ∈ t.ids := by
  induction t generalizing p with
  | nil => cases hn
  | node l k c r ihl ihr =>
    obtain ⟨hc, hl, hr⟩ := h
    rw [Tree.ids_node, List.mem_append, List.mem_cons] at hn ⊢
    rcases hn with hn | rfl | hn
    · exact .inl (ihl hl hn)
    · rw [hc] at hx
      cases hx
      cases s with
      | left => exact .inl (Tree.root?_mem_ids hm)
      | right => exact .inr (.inr (Tree.root?_mem_ids hm))
    · exact .inr (.inr (ihr hr hn))

theorem reached_iff (h : a.Hangs none t) (hr : a.root = t.root?) : a.Reached n ↔ n ∈ t.ids := by
  constructor
  · intro hn
    induction hn with
    | root hroot => exact Tree.root?_mem_ids (hr ▸ hroot)
    | child s _ hx hm ih => exact h.child_mem ih hx hm
  · exact h.reached (fun m hm => .root (hr.trans hm)) n

end Hangs
end Arena

namespace Map

variable {κ ν : Type} {m : Map κ ν} {r : Roll κ ν}

/-- A map is well formed around a tree. -/
structure Bears (m : Map κ ν) (t : Tree κ ν) : Prop where
  root : m.arena.root = t.root?
  /-- Every node of the tree is in its slot, linked to its children there and to its parent, and
  the root to none. -/
  links : m.arena.Hangs none t
  reached : ∀ n, m.arena.Reached n ↔ n ∈ t.ids
  /-- No node is reached twice. -/
  distinct : t.ids.Nodup
  filled : t.Filled
  redBlack : ∃ h, t.RedBlack h
  count : m.count = t.cells.length

def WellFormed (m : Map κ ν) : Prop := ∃ t, m.Bears t

theorem Shows.wellFormed (h : m.Shows r) : m.WellFormed := by
  obtain ⟨t, h⟩ := h.lists
  have links : m.arena.Hangs none t := h.bears.hangs
  exact ⟨t, h.bears.root, links, fun _ => links.reached_iff h.bears.root, h.bears.nodup, h.filled,
    h.redBlack, by rw [h.count, h.cells, List.length_map]⟩

/-- The self check finds nothing but items out of order, and not even that where the comparator is
a total preorder. -/
theorem yields_audit_sorted {w : Workspace κ ν} (h : w.map.Shows r) (hs : r.Sorted) :
    Yields audit w fun a w' => Reads w w' ∧
      ((∃ height, a = .ok height) ∨ ∃ n, a = .error (.outOfOrder n)) ∧
        (Std.TransCmp w.map.compare → ∃ height, a = .ok height) := by
  apply (yields_audit h.lists).mono
  rintro a w' ⟨hread, ha⟩
  refine ⟨hread, ?_⟩
  cases hd : firstDisorder w.map.compare r.items with
  | none =>
    rw [hd] at ha
    exact ⟨.inl ha, fun _ => ha⟩
  | some x =>
    rw [hd] at ha
    refine ⟨.inr ⟨x.node, ha⟩, fun ho => ?_⟩
    rw [h.compare] at ho hd
    rw [Item.firstDisorder_eq_none (hs ho)] at hd
    cases hd

end Map
end OrderedMap
