import OrderedMap.Proofs.Store.Rebalancing

/-!
What a removal leaves of an arena. However the removed node trades places with its predecessor and
however the tree is rotated afterwards, all other nodes stay where they are stored, with their
stamps and entries, and stay in their order.
-/
namespace OrderedMap

variable {κ ν : Type}

namespace Arena

variable {a a' : Arena κ ν} {t t' : Tree κ ν} {ts : List (Tree κ ν)}

/-- A node as it is stored: its slot, its stamp and its entry. -/
def cell (a : Arena κ ν) (n : NodeId) : Except Fault (Cell κ ν) := do
  let x ← a.node n
  return ⟨n, x.stamp, x.entry⟩

/-- The nodes of the tree in order, each as it is stored. -/
def roster (a : Arena κ ν) : Except Fault (List (Cell κ ν)) := do (← a.walk .right).mapM a.cell

theorem Hangs.cell_eq {p : Option NodeId} (h : a.Hangs p t) {c : Cell κ ν} (hc : c ∈ t.cells) :
    a.cell c.id = .ok c := by
  obtain ⟨x, hx, hstamp, hentry⟩ := h.get?_of_mem hc
  rw [cell, node_of_get? hx]
  simp only [bind, Except.bind, hstamp, hentry]
  rfl

theorem Stands.roster_eq (h : a.Stands t) (hnd : t.ids.Nodup) : a.roster = .ok t.cells := by
  have read : ∀ cs : List (Cell κ ν), (∀ c ∈ cs, c ∈ t.cells) →
      (cs.map (·.id)).mapM a.cell = .ok cs := by
    intro cs hcs
    induction cs with
    | nil => rfl
    | cons c cs ih =>
      have rest := ih fun d hd => hcs d (List.mem_cons_of_mem c hd)
      rw [List.map_cons, List.mapM_cons, rest, h.links.cell_eq (hcs c (List.mem_cons_self ..))]
      rfl
  unfold roster
  rw [h.walk_eq hnd]
  exact read t.cells fun c hc => hc

theorem Forest.isSome_iff (h : a.Forest ts) {n : NodeId} :
    (a.get? n).isSome ↔ n ∈ ts.flatMap Tree.ids := ⟨h.occupied n, h.get?_of_mem⟩

/-- The node of the cell was taken out of the arena, and no other one: its slot alone has become
vacant, and the other nodes of the tree come in the same order, each as it was. -/
structure Excised (a a' : Arena κ ν) (c : Cell κ ν) : Prop where
  roster : ∃ cs ds, a.roster = .ok (cs ++ c :: ds) ∧ a'.roster = .ok (cs ++ ds)
  occupied : ∀ n, (a'.get? n).isSome ↔ (a.get? n).isSome ∧ n ≠ c.id

theorem Bears.excised {cs ds : List (Cell κ ν)} {c : Cell κ ν} (h : a.Bears t ts)
    (h' : a'.Bears t' ts) (ht : t.cells = cs ++ c :: ds) (ht' : t'.cells = cs ++ ds) :
    a.Excised a' c where
  roster := ⟨cs, ds, ht ▸ h.stands.roster_eq h.nodup, ht' ▸ h'.stands.roster_eq h'.nodup⟩
  occupied n := by
    have hnd := h.forest.distinct
    rw [h.forest.isSome_iff, h'.forest.isSome_iff]
    simp only [List.flatMap_cons, Tree.ids, ht, ht', List.map_append, List.map_cons,
      List.nodup_append, List.nodup_cons, List.mem_append, List.mem_cons] at hnd ⊢
    grind

end Arena

namespace Map

variable {w : Workspace κ ν} {t : Tree κ ν} {ts : List (Tree κ ν)} {H : Nat} {c : Cell κ ν}
  {e : Entry κ ν}

/-- Of any red-black tree in an arena, whatever the comparator and whatever other trees are there,
any node can be taken out. Its own entry is handed back, its slot alone becomes vacant, and all
other nodes stay in order, each in its slot and with its stamp and entry. -/
theorem extract_excised (h : w.map.arena.Bears t ts) (hr : t.RedBlack H) (hc : c ∈ t.cells)
    (he : c.entry = some e) : ∃ w', extract c.id w = .ok e w' ∧
      w.map.arena.Excised w'.map.arena c ∧
      ∃ t' H', w'.map.arena.Bears t' ts ∧ t'.RedBlack H' := by
  obtain ⟨cs, ds, ht⟩ := List.append_of_mem hc
  obtain ⟨r, w', hw, rfl, x, extracted, hx⟩ := yields_extract h hr ht he
  obtain ⟨H', hr'⟩ := extracted.redBlack
  exact ⟨w', hw, h.excised extracted.bears ht hx, x.tree, H', extracted.bears, hr'⟩

/-- The root, of tag 4, trades places with its predecessor, two levels below it. -/
theorem extract_excised_row : ∃ m, (Store.after Store.row ∅).map? 0 = some m ∧
    ∃ w', extract ⟨3⟩ ⟨m, 14, ∅⟩ = .ok ⟨4, 0⟩ w' ∧
      m.arena.Excised w'.map.arena ⟨⟨3⟩, 3, some ⟨4, 0⟩⟩ := by
  have there : ((Store.after Store.row ∅).map? 0).isSome := by decide +kernel
  have listed : ((Store.after Store.row ∅).map? 0).bind (·.items[3]?) =
      some ⟨⟨3⟩, 3, ⟨4, 0⟩⟩ := by
    decide +kernel
  obtain ⟨m, hm⟩ := Option.isSome_iff_exists.mp there
  rw [hm] at listed
  obtain ⟨xs, t, ht⟩ := (Store.sound_after Store.row).lists m hm
  obtain ⟨H, hr⟩ := ht.redBlack
  have hx : (⟨⟨3⟩, 3, ⟨4, 0⟩⟩ : Item Nat Nat) ∈ xs :=
    ht.items_eq ▸ List.mem_of_getElem? listed
  have hc : (⟨⟨3⟩, 3, some ⟨4, 0⟩⟩ : Cell Nat Nat) ∈ t.cells :=
    ht.cells ▸ List.mem_map_of_mem (f := Item.cell) hx
  obtain ⟨w', hw, excised, -⟩ := extract_excised (w := ⟨m, 14, ∅⟩) ht.bears hr hc rfl
  exact ⟨m, hm, w', hw, excised⟩

end Map
end OrderedMap
