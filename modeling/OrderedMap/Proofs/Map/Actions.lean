import OrderedMap.Map.Access
import OrderedMap.Proofs.Map.Items

/-!
What the actions on a map do to its list of items, whatever its comparator. A lookup finds an item
with an equal tag, or else a gap between a lesser and a greater one. Erasing takes one item out,
writing changes one entry in place, and placing adds one item at the gap.
-/
namespace OrderedMap
namespace Map

variable {κ ν : Type} {m : Map κ ν} {w w' w'' : Workspace κ ν} {t : Tree κ ν}
  {xs ys zs : List (Item κ ν)} {x : Item κ ν} {s : κ} {v : ν} {n : NodeId}

/-- How two tags compare in the order of the map. -/
def compare (m : Map κ ν) : κ → κ → Ordering := m.policy.comparator.compare

/-- The node that a lookup of a tag finds. -/
def found? (m : Map κ ν) (s : κ) : Option NodeId :=
  match locate s ⟨m, 0, ∅⟩ with
  | .ok r _ => r
  | .error _ _ => none

/-- A tag is greater than the item right before a gap and less than the one right after it. -/
def Gap (order : κ → κ → Ordering) (s : κ) (ys zs : List (Item κ ν)) : Prop :=
  (∀ y ∈ ys.getLast?, order s y.entry.tag = .gt) ∧ ∀ z ∈ zs.head?, order s z.entry.tag = .lt

theorem found?_of_stands (h : m.arena.Stands t) (hfill : t.Filled) :
    m.found? s = (t.seek (m.order s) []).2.root? := by
  obtain ⟨r, w, he, rfl, -⟩ := yields_locate (w := ⟨m, 0, ∅⟩) (s := s) h hfill
  rw [found?, he]

namespace Holds

theorem found?_eq (h : m.Holds t xs) : m.found? s = (t.seek (m.order s) []).2.root? :=
  found?_of_stands h.bears.stands h.filled

theorem order_cell (m : Map κ ν) (s : κ) (x : Item κ ν) :
    m.order s x.cell = m.compare s x.entry.tag := Cell.compared_of_entry rfl

/-- Where a lookup ends at a node, its item has an equal tag. -/
theorem of_found (h : m.Holds t xs) (hf : m.found? s = some n) : ∃ ys x zs, xs = ys ++ x :: zs ∧
    x.node = n ∧ m.compare s x.entry.tag = .eq ∧
    ∃ q l k r, t.seek (m.order s) [] = (q, .node l k x.cell r) ∧
      ys.map Item.cell = (q.beyond .left).reverse ++ l.cells ∧
      zs.map Item.cell = r.cells ++ q.beyond .right := by
  rw [h.found?_eq] at hf
  rcases hs : t.seek (m.order s) [] with ⟨q, u⟩
  rw [hs] at hf
  cases u with
  | nil => cases hf
  | node l k c r =>
    cases hf
    have hcells := h.cells
    rw [Tree.eq_plug_of_seek hs, Path.cells_plug] at hcells
    simp only [Tree.cells, List.append_assoc, List.cons_append] at hcells
    rw [← List.append_assoc] at hcells
    obtain ⟨ys, rest, rfl, hy, hr⟩ := List.map_eq_append_iff.mp hcells.symm
    obtain ⟨x, zs, rfl, rfl, hz⟩ := List.map_eq_cons_iff.mp hr
    refine ⟨ys, x, zs, rfl, rfl, ?_, q, l, k, r, rfl, hy, hz⟩
    rw [← order_cell]
    exact Tree.order_of_seek hs

/-- Where a lookup ends at a missing node, the tag belongs there. -/
theorem of_not_found (h : m.Holds t xs) (hf : m.found? s = none) : ∃ ys zs, xs = ys ++ zs ∧
    Gap m.compare s ys zs ∧ ∃ q, t.seek (m.order s) [] = (q, .nil) ∧
      ys.map Item.cell = (q.beyond .left).reverse ∧ zs.map Item.cell = q.beyond .right := by
  rw [h.found?_eq] at hf
  rcases hs : t.seek (m.order s) [] with ⟨q, u⟩
  rw [hs] at hf
  obtain rfl := Tree.root?_eq_none_iff.mp hf
  have hcells := h.cells
  rw [Tree.eq_plug_of_seek hs, Path.cells_plug, Tree.cells_nil, List.append_nil] at hcells
  obtain ⟨ys, zs, rfl, hy, hz⟩ := List.map_eq_append_iff.mp hcells.symm
  refine ⟨ys, zs, rfl, ⟨fun y hl => ?_, fun z hh => ?_⟩, q, rfl, hy, hz⟩
  · have hc : (q.beyond .left).head? = some y.cell := by
      rw [← List.getLast?_reverse, ← hy, List.getLast?_map, Option.mem_def.mp hl]
      rfl
    have ho := Path.order_beyond hs hc
    rw [order_cell] at ho
    cases hy : m.compare s y.entry.tag <;> simp [hy, Side.ofOrdering?, Side.opposite] at ho ⊢
  · have hc : (q.beyond .right).head? = some z.cell := by
      rw [← hz, List.head?_map, Option.mem_def.mp hh]
      rfl
    have ho := Path.order_beyond hs hc
    rw [order_cell] at ho
    cases hy : m.compare s z.entry.tag <;> simp [hy, Side.ofOrdering?, Side.opposite] at ho ⊢

end Holds

/-- An action leaves the map with the given items, and the hooks receive what is given. -/
structure Becomes (w w' : Workspace κ ν) (xs : List (Item κ ν)) (rs : List (Released κ ν) := []) :
    Prop where
  id : w'.map.id = w.map.id
  policy : w'.map.policy = w.map.policy
  clock : w.clock ≤ w'.clock
  size : w'.map.arena.slots.size ≤ max w.map.arena.slots.size (w.map.count + 1)
  released : w'.journal.released.toList = w.journal.released.toList ++ rs
  lists : w'.map.Lists xs

theorem Becomes.refl (h : w.map.Lists xs) : Becomes w w xs :=
  ⟨rfl, rfl, Nat.le_refl _, Nat.le_max_left .., (List.append_nil _).symm, h⟩

theorem yields_locate_items (h : w.map.Lists xs) : Yields (locate s) w fun r w' =>
    r = w.map.found? s ∧ Reads w w' := by
  obtain ⟨t, h⟩ := h
  apply (yields_locate h.bears.stands h.filled).mono
  rintro - - ⟨rfl, rfl⟩
  exact ⟨h.found?_eq.symm, rfl, rfl, released_afterSearch⟩

/-- An insertion under a tag that is found writes over the entry there. -/
theorem yields_insert_found (h : w.map.Lists xs) (hf : w.map.found? s = some n) :
    Yields (insert s v) w fun r w' => r = false ∧
      Becomes w w' (Item.rewriteAt n (fun _ => ⟨s, v⟩) xs) (w.map.releasesAt (some n)) := by
  obtain ⟨t, h⟩ := h
  obtain ⟨ys, x, zs, rfl, rfl, -, q, l, k, r, hq, hy, hz⟩ := h.of_found hf
  unfold insert
  rw [yields_bind]
  apply (yields_place_found (v := v) h.bears h.filled hq rfl).mono
  rintro - w' ⟨rfl, hw, hb, hk⟩
  refine yields_pure.mpr ⟨rfl, by rw [hw]; rfl, by rw [hw]; rfl, by rw [hw]; exact Nat.le_refl _,
    hk.size ▸ Nat.le_max_left .., ?_, _, hb, ?_, ?_, ?_⟩
  · rw [hw, Workspace.journal_withJournal, Journal.released_release, released_afterSearch,
      h.releasesAt (by simp)]
  · obtain ⟨H, hr⟩ := h.redBlack
    rw [Tree.eq_plug_of_seek hq] at hr
    exact ⟨H, Path.redBlack_plug_cell hr _⟩
  · rw [Item.rewriteAt_split _ h.nodup, Path.cells_plug, List.map_append, List.map_cons, hy, hz]
    simp [Tree.cells, Item.cell]
  · rw [Item.rewriteAt_split _ h.nodup, hw]
    simpa using h.count

/-- An insertion under a tag that is not found adds an item at the gap, with the stamp drawn for
it. -/
theorem yields_insert_new (h : w.map.Lists xs) (hf : w.map.found? s = none) :
    Yields (insert s v) w fun r w' => r = true ∧ ∃ ys zs, xs = ys ++ zs ∧
      Gap w.map.compare s ys zs ∧ w'.clock = w.clock + 1 ∧
      Becomes w w' (ys ++ ⟨w.map.arena.nextId, w.clock, ⟨s, v⟩⟩ :: zs) := by
  obtain ⟨t, h⟩ := h
  obtain ⟨ys, zs, rfl, gap, q, hq, hy, hz⟩ := h.of_not_found hf
  unfold insert
  rw [yields_bind]
  apply (yields_place_new (v := v) h.bears h.filled hq).mono
  rintro - w₁ ⟨rfl, hw, hb, hsize, -⟩
  have hcount : w₁.map.count = (ys ++ zs).length := by
    rw [hw]
    exact h.count
  simp only [if_true]
  rw [yields_bind, yields_survey_pure, yields_bind, yields_setCount]
  have hclock : w₁.clock = w.clock + 1 := by rw [hw]; rfl
  have hreleased : w₁.journal.released = w.journal.released := by
    rw [hw]
    exact released_afterSearch
  refine yields_pure.mpr ⟨rfl, ys, zs, rfl, gap, hclock,
    by simp only [Workspace.id_withCount]; rw [hw]; rfl,
    by simp only [Workspace.policy_withCount]; rw [hw]; rfl,
    by simp only [Workspace.clock_withCount]; omega, hsize ▸ h.nextSize_le, ?_, _, hb,
    ?_, ?_, ?_⟩
  · rw [Workspace.journal_withCount, hreleased, List.append_nil]
  · obtain ⟨H, hr⟩ := h.redBlack
    rw [Tree.eq_plug_of_seek hq] at hr
    obtain ⟨j, hp, hbal, -⟩ := Path.redBlack_plug.mp hr
    cases hbal
    obtain ⟨_, -, hr', -⟩ := Path.settle_climb hp (t := Arena.leaf .red _)
      (.red .nil .nil rfl rfl) rfl
    exact ⟨_, hr'⟩
  · rw [Path.cells_settle, Path.cells_plug, List.map_append, List.map_cons, hy, hz]
    simp [Arena.leaf, Tree.cells, Item.cell]
  · simp only [Workspace.count_withCount, hcount, List.length_append, List.length_cons]
    omega

theorem yields_overwriteAt (h : w.map.Lists xs) (hx : x ∈ xs) :
    Yields (overwriteAt x.node v) w fun r w' => r = x.entry.value ∧ w'.clock = w.clock ∧
      Becomes w w' (Item.rewriteAt x.node (fun e => ⟨e.tag, v⟩) xs) := by
  obtain ⟨t, h⟩ := h
  obtain ⟨ys, zs, rfl⟩ := List.append_of_mem hx
  have ht : t.toward .right = ys.map Item.cell ++ x.cell :: zs.map Item.cell := by
    rw [Tree.toward, h.cells, List.map_append, List.map_cons]
  obtain ⟨p, k, near, far, rfl, hy, hz⟩ := Path.exists_split .right ht
  unfold overwriteAt
  rw [yields_bind, yields_edit]
  apply (Arena.yields_replaceEntry (fun e => ⟨e.tag, v⟩) h.bears rfl).mono
  rintro - a' ⟨rfl, hb, hk⟩
  obtain ⟨H, hr⟩ := h.redBlack
  refine yields_pure.mpr ⟨rfl, rfl, rfl, rfl, Nat.le_refl _, hk.size ▸ Nat.le_max_left ..,
    (List.append_nil _).symm, _, hb,
    ⟨H, Path.redBlack_plug_cell hr _⟩, ?_, ?_⟩
  · rw [Item.rewriteAt_split _ h.nodup, Path.cells_plug, List.map_append, List.map_cons, hy, hz]
    simp [Tree.cells, Item.cell, Tree.toward, Side.opposite]
  · rw [Item.rewriteAt_split _ h.nodup]
    simpa using h.count

theorem yields_takeOut (h : w.map.Lists xs) (hx : x ∈ xs) :
    Yields (takeOut x.node) w fun r w' => r = x.entry ∧
      Becomes w w' (Item.without x.node xs) := by
  obtain ⟨t, h⟩ := h
  obtain ⟨ys, zs, rfl⟩ := List.append_of_mem hx
  obtain ⟨H, hr⟩ := h.redBlack
  have ht : t.cells = ys.map Item.cell ++ x.cell :: zs.map Item.cell := by
    rw [h.cells, List.map_append, List.map_cons]
  unfold takeOut
  rw [yields_bind]
  apply (yields_extract h.bears hr ht rfl).mono
  rintro r w₁ ⟨rfl, y, hw, hcells⟩
  have hcount : w₁.map.count = (ys ++ zs).length + 1 := by
    rw [hw.eq]
    exact h.count.trans (by simp; omega)
  rw [yields_bind, yields_survey_pure, hcount]
  simp only
  rw [yields_bind, yields_setCount]
  refine yields_pure.mpr ⟨rfl, ?_, ?_, hw.clock, Nat.le_trans hw.size h.nextSize_le, ?_, y.tree,
    hw.bears, hw.redBlack, ?_, ?_⟩
  · rw [hw.eq]
    rfl
  · rw [hw.eq]
    rfl
  · rw [Workspace.journal_withCount, hw.eq, List.append_nil]
    rfl
  · rw [Item.without_split h.nodup, hcells, List.map_append]
  · rw [Item.without_split h.nodup]
    rfl

theorem yields_dispose (h : w.map.Lists xs) (hx : x ∈ xs) :
    Yields (dispose x.node) w fun _ w' =>
      Becomes w w' (Item.without x.node xs) (w.map.releasesAt (some x.node)) := by
  have hrel : w.map.releasesAt (some x.node) = w.map.policy.releases x.entry := by
    obtain ⟨t, h⟩ := h
    exact h.releasesAt hx
  unfold dispose
  rw [yields_bind]
  apply (yields_takeOut h hx).mono
  rintro - w' ⟨rfl, hb⟩
  refine yields_release.mpr ⟨hb.id, hb.policy, hb.clock, hb.size, ?_, hb.lists⟩
  rw [Workspace.journal_withJournal, Journal.released_release, hb.released, hb.policy, hrel,
    List.append_nil]

/-- A map without slots lists nothing. -/
theorem lists_nil (ha : m.arena = ∅) (hc : m.count = 0) : m.Lists [] :=
  ⟨.nil, ha ▸ Arena.bears_empty, ⟨1, rfl, .nil⟩, rfl, hc⟩

theorem lists_fresh (id : MapId) (policy : Policy κ) : (fresh (ν := ν) id policy).Lists [] :=
  lists_nil rfl rfl

/-- A clearing gives the slots back unless there is no tree. -/
theorem yields_clear (h : w.map.Lists xs) : Yields clear w fun _ w' => w'.clock = w.clock ∧
    Becomes w w' [] (w.map.upwardEntries.flatMap w.map.policy.releases) ∧
      (w.map.arena.root.isSome → w'.map.arena = ∅) := by
  obtain ⟨t, h⟩ := h
  rw [h.upwardEntries_eq]
  unfold clear
  rw [yields_bind, yields_of_eq (x := survey pure) (s := w) rfl, h.bears.root]
  cases hn : t.root? with
  | none =>
    obtain rfl := Tree.root?_eq_none_iff.mp hn
    obtain rfl : xs = [] := by simpa using h.cells
    exact yields_pure.mpr ⟨rfl, .refl ⟨_, h⟩, nofun⟩
  | some n =>
    simp only [Option.isSome_some, if_true]
    have strip_eq : strip w = .ok (Teardown.entries t.post).size ((w.withArena ∅).withJournal
        (w.journal.releaseAll w.map.policy (Teardown.entries t.post))) := by
      unfold strip
      simp only [Arena.teardown_eq h.bears.stands h.bears.nodup]
      rfl
    rw [yields_bind, yields_of_eq strip_eq, yields_bind, yields_record]
    exact yields_setCount.mpr ⟨rfl, ⟨rfl, rfl, Nat.le_refl _, Nat.zero_le _,
      Journal.released_releaseAll .., lists_nil rfl rfl⟩, fun _ => rfl⟩

theorem yields_discard (h : w.map.Lists xs) : Yields discard w fun _ w' => w'.clock = w.clock ∧
    Becomes w w' [] (w.map.upwardEntries.flatMap w.map.policy.releases) := by
  unfold discard
  rw [yields_bind, yields_of_eq (x := survey pure) (s := w) rfl]
  split
  · rw [yields_bind, yields_record]
    have h₁ : (w.withJournal (w.journal.record (.dropping w.map.id w.map.count))).map.Lists xs := h
    apply (yields_clear h₁).mono
    rintro - w' ⟨hc, hb, -⟩
    exact ⟨hc, hb.id, hb.policy, hb.clock, hb.size, hb.released, hb.lists⟩
  · exact (yields_clear h).mono fun _ _ ⟨hc, hb, _⟩ => ⟨hc, hb⟩

/-- A harvest hands over the entries in order, and but for the arena and the count all stays as it
was. -/
theorem yields_consume_eq [EntrySize κ ν] (h : w.map.Holds t xs) : Yields consume w fun es w' =>
    es = xs.map (·.entry) ∧ w' = (w.withArena ∅).withCount 0 := by
  have hcount : w.map.count ≤ w.map.arena.slots.size := by
    have := h.bears.length_lt_reach
    rw [h.cells, List.length_map, ← h.count] at this
    unfold Arena.reach at this
    omega
  unfold consume
  rw [yields_bind, yields_survey_pure, yields_bind, yields_edit]
  apply (Arena.yields_harvest h.bears hcount).mono
  rintro - a' ⟨rfl, rfl⟩
  rw [yields_bind, yields_setCount]
  refine yields_pure.mpr ⟨?_, rfl⟩
  rw [h.cells]
  simp [List.filterMap_map, Function.comp_def, Item.cell]

theorem yields_consume [EntrySize κ ν] (h : w.map.Lists xs) : Yields consume w fun es w' =>
    es = xs.map (·.entry) ∧ w'.clock = w.clock ∧ Becomes w w' [] := by
  obtain ⟨t, h⟩ := h
  apply (yields_consume_eq h).mono
  rintro - - ⟨rfl, rfl⟩
  exact ⟨rfl, rfl, rfl, rfl, Nat.le_refl _, Nat.zero_le _, (List.append_nil _).symm,
    lists_nil rfl rfl⟩

end Map
end OrderedMap
