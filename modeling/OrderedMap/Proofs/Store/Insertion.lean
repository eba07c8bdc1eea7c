import OrderedMap.Proofs.Map.Exact
import OrderedMap.Proofs.Map.Landing
import OrderedMap.Proofs.Store.Excision
import OrderedMap.Proofs.Store.Searching

/-!
What an insertion does to the nodes of a map. The comparator need not be an order, so that where a
new node comes to stand is told by the descent alone: right beside the node at which the descent
lands. No repair moves it from there, or any other node. An entry that is written over changes
nothing but itself.
-/
namespace OrderedMap

variable {κ ν : Type}

/-- What lies right beyond the end of a path is its last cell. -/
theorem Path.beyond_opposite (f : Frame κ ν) (up : Path κ ν) :
    Path.beyond f.side.opposite (f :: up) =
      f.cell :: (f.other.toward f.side.opposite ++ up.beyond f.side.opposite) :=
  if_neg (Side.opposite_ne f.side).symm

/-- Writing over an entry changes one slot. -/
theorem Arena.yields_replaceEntry_put {a : Arena κ ν} {n : NodeId} {x : Node κ ν} {e : Entry κ ν}
    {f : Entry κ ν → Entry κ ν} (hx : a.get? n = some x) (he : x.entry = some e) :
    Yields (replaceEntry n f) a fun old a' =>
      old = e ∧ a' = a.put n (some (x.withEntry (some (f e)))) := by
  unfold replaceEntry
  rw [yields_bind, yields_inspect (entry_of_get? hx he), yields_bind, yields_alter hx]
  exact yields_pure.mpr ⟨rfl, rfl⟩

namespace Map

variable {w w₁ : Workspace κ ν} {t : Tree κ ν} {q : Path κ ν} {xs : List (Item κ ν)} {tag : κ}
  {v : ν}

/-- The entry was put into one new node: its slot was vacant and is the only one that has become
occupied, its stamp is the one that was drawn, and it is counted. Nothing was released. -/
structure Adds (w w₁ : Workspace κ ν) (e : Entry κ ν) (c : Cell κ ν) : Prop where
  entry : c.entry = some e
  stamp : c.stamp = w.clock
  vacant : w.map.arena.get? c.id = none
  occupied : ∀ n, (w₁.map.arena.get? n).isSome ↔ (w.map.arena.get? n).isSome ∨ n = c.id
  clock : w₁.clock = w.clock + 1
  count : w₁.map.count = w.map.count + 1
  released : w₁.journal.released = w.journal.released

/-- The entry was written over that of one node, which was released. Apart from it the map is as it
was; no stamp was drawn, and neither a record nor a rotation was noted. -/
structure Overwrites (w w₁ : Workspace κ ν) (e : Entry κ ν) (n : NodeId) : Prop where
  map : ∃ x old, w.map.arena.get? n = some x ∧ x.entry = some old ∧
    w₁.map = { w.map with arena := w.map.arena.put n (some (x.withEntry (some e))) } ∧
    w₁.journal.released.toList = w.journal.released.toList ++ w.map.policy.releases old
  clock : w₁.clock = w.clock
  records : w₁.journal.records = w.journal.records
  rotations : w₁.journal.rotations = w.journal.rotations

/-- Where an entry is put if the descent lands at a node or nowhere, and whether its node is new. In
a tree without nodes it becomes the root; else its place among the nodes is right before or right
after the one at which the descent lands. -/
inductive Places (w w₁ : Workspace κ ν) (e : Entry κ ν) : Option (NodeId × Ordering) → Bool → Prop
  | root {c : Cell κ ν} (adds : Adds w w₁ e c) (before : w.map.arena.roster = .ok [])
      (after : w₁.map.arena.roster = .ok [c]) (top : w₁.map.arena.root = some c.id)
      (black : w₁.map.arena.color c.id = .ok .black) : Places w w₁ e none true
  | before {c d : Cell κ ν} {cs ds : List (Cell κ ν)} (adds : Adds w w₁ e c)
      (free : w.map.arena.child .left d.id = .ok none)
      (before : w.map.arena.roster = .ok (cs ++ d :: ds))
      (after : w₁.map.arena.roster = .ok (cs ++ c :: d :: ds)) :
      Places w w₁ e (some (d.id, .lt)) true
  | after {c d : Cell κ ν} {cs ds : List (Cell κ ν)} (adds : Adds w w₁ e c)
      (free : w.map.arena.child .right d.id = .ok none)
      (before : w.map.arena.roster = .ok (cs ++ d :: ds))
      (after : w₁.map.arena.roster = .ok (cs ++ d :: c :: ds)) :
      Places w w₁ e (some (d.id, .gt)) true
  | equal {n : NodeId} (overwrites : Overwrites w w₁ e n) : Places w w₁ e (some (n, .eq)) false

/-- A new node stands where the search ended, with everything before it and after it in place. -/
theorem yields_insert_adds (h : w.map.Holds t xs)
    (hq : t.seek (w.map.order tag) [] = (q, .nil)) :
    Yields (insert tag v) w fun new w₁ => new = true ∧ ∃ c, Adds w w₁ ⟨tag, v⟩ c ∧
      w.map.arena.roster = .ok ((q.beyond .left).reverse ++ q.beyond .right) ∧
      w₁.map.arena.roster = .ok ((q.beyond .left).reverse ++ c :: q.beyond .right) ∧
      w₁.map.arena.Bears (q.settle (Arena.leaf .red c)).tree := by
  have hplug := Tree.eq_plug_of_seek hq
  have gap : t.cells = (q.beyond .left).reverse ++ q.beyond .right := by
    rw [hplug, Path.cells_plug, Tree.cells_nil, List.append_nil]
  have filled (c : Cell κ ν) : (q.settle (Arena.leaf .red c)).tree.cells =
      (q.beyond .left).reverse ++ c :: q.beyond .right := by
    rw [Path.cells_settle, Path.cells_plug]
    exact List.append_assoc ..
  apply (yields_insert_hung (v := v) h.bears h.filled hq).mono
  rintro - w₁ ⟨rfl, hung⟩
  refine ⟨rfl, _, ⟨rfl, rfl, h.bears.forest.queues.get?_nextId, fun n => ?_, ?_, ?_, ?_⟩,
    gap ▸ h.bears.stands.roster_eq h.bears.nodup,
    filled _ ▸ hung.bears.stands.roster_eq hung.bears.nodup, hung.bears⟩
  · rw [h.bears.forest.isSome_iff, hung.bears.forest.isSome_iff]
    simp only [List.flatMap_cons, List.flatMap_nil, List.append_nil, Tree.ids, gap, filled,
      List.map_append, List.map_cons, List.mem_append, List.mem_cons]
    tauto
  · rw [hung.eq]
    rfl
  · rw [hung.eq]
    rfl
  · rw [hung.eq]
    exact Journal.released_callAll ..

/-- Where the descent lands at an equal tag, only the entry there is changed. -/
theorem yields_insert_overwrites {l r : Tree κ ν} {k : Color} {c : Cell κ ν}
    (h : w.map.arena.Stands t) (hfill : t.Filled)
    (hq : t.seek (w.map.order tag) [] = (q, .node l k c r)) :
    Yields (insert tag v) w fun new w₁ => new = false ∧ Overwrites w w₁ ⟨tag, v⟩ c.id := by
  have ho := Tree.order_of_seek hq
  have hc := Tree.mem_cells_of_seek hq
  obtain ⟨x, hx, -, hentry⟩ := h.links.get?_of_mem hc
  obtain ⟨e, he⟩ := Option.isSome_iff_exists.mp (hfill c hc)
  have entry_eq := hentry.trans he
  unfold insert place
  rw [yields_bind, yields_bind]
  apply (yields_nearest h hfill).mono
  rintro - - ⟨rfl, rfl⟩
  rw [hq]
  simp only [landing, ho, Side.ofOrdering?]
  rw [yields_bind, yields_edit]
  apply (Arena.yields_replaceEntry_put (f := fun _ => ⟨tag, v⟩) hx entry_eq).mono
  rintro old - ⟨old_eq, rfl⟩
  rw [old_eq, yields_bind, yields_releaseTag, yields_bind, yields_releaseValue]
  refine yields_pure.mpr (yields_pure.mpr ⟨rfl, ⟨_, _, hx, entry_eq, rfl, ?_⟩, rfl, ?_, ?_⟩)
  · exact (Journal.released_release ..).trans (congrArg
      (fun rs => rs.toList ++ w.map.policy.releases e) released_afterSearch)
  · exact (Journal.records_release ..).trans (Journal.records_callAll ..)
  · exact (Journal.rotations_release ..).trans (Journal.rotations_callAll ..)

theorem Holds.yields_insert_places (h : w.map.Holds t xs) (tag : κ) (v : ν) :
    Yields (insert tag v) w fun new w₁ =>
      Places w w₁ ⟨tag, v⟩ (landing (w.map.order tag) (t.seek (w.map.order tag) [])) new := by
  obtain ⟨rfl, hq⟩ | ⟨q, l, k, c, r, -, hq, ho⟩ | ⟨f, up, -, hq, ho⟩ :=
    t.seek_cases (w.map.order tag)
  · apply (yields_insert_adds h hq).mono
    rintro - w₁ ⟨rfl, c, adds, before, after, bears⟩
    rw [hq]
    exact .root adds before after bears.root (bears.color (p := []) rfl)
  · apply (yields_insert_overwrites h.bears.stands h.filled hq).mono
    rintro - w₁ ⟨rfl, overwrites⟩
    rw [hq, landing, ho]
    exact .equal overwrites
  · have free (side) (hs : Side.ofOrdering? (w.map.order tag f.cell) = some side) :=
      h.bears.stands.vacant (congrArg (landing _) hq) hs
    apply (yields_insert_adds h hq).mono
    rintro - w₁ ⟨rfl, c, adds, before, after, -⟩
    -- the gap is at the end of the path, whose last cell lies right beyond it on one side
    have beside := Path.beyond_opposite f up
    rw [hq, landing]
    cases hc : w.map.order tag f.cell with
    | eq =>
      rw [hc] at ho
      cases ho
    | lt =>
      have side : f.side = .left := Option.some.inj (ho.symm.trans (by rw [hc]; rfl))
      rw [side, Side.opposite] at beside
      rw [beside] at before after
      exact .before adds (free .left (by rw [hc]; rfl)) before after
    | gt =>
      have side : f.side = .right := Option.some.inj (ho.symm.trans (by rw [hc]; rfl))
      rw [side, Side.opposite] at beside
      rw [beside, List.reverse_cons, List.append_assoc] at before after
      exact .after adds (free .right (by rw [hc]; rfl)) before after

end Map

namespace Store

variable [EntrySize κ ν]

/-- Whatever the comparator, an insertion into any map that any run leaves puts the entry where the
descent lands, and all other nodes stay as they are and where they are among each other. -/
theorem insertion_after (ops : List (Op κ ν)) {k : Nat} {m : Map κ ν}
    (hm : (after ops ∅).map? k = some m) (tag : κ) (v : ν) (clock : Nat) (j : Journal κ ν) :
    ∃ near w₀ new w, Map.nearest tag ⟨m, clock, j⟩ = .ok near w₀ ∧
      Map.insert tag v ⟨m, clock, j⟩ = .ok new w ∧
      Map.Places ⟨m, clock, j⟩ w ⟨tag, v⟩ near new := by
  obtain ⟨xs, t, ht⟩ := (sound_after ops).lists m hm
  obtain ⟨near, w₀, descended, rfl, -⟩ :=
    Map.yields_nearest (w := ⟨m, clock, j⟩) (s := tag) ht.bears.stands ht.filled
  obtain ⟨new, w, inserted, places⟩ :=
    ht.yields_insert_places (w := ⟨m, clock, j⟩) tag v
  exact ⟨_, w₀, new, w, descended, inserted, places⟩

/-- Every tag is less than all others. The parent of the new node is rotated into the place of its
own parent, and still the new node comes right before it. -/
theorem insertion_after_entered : ∃ m w,
    (after (entered (.ofComparison fun _ _ => .lt) 4) ∅).map? 0 = some m ∧
    Map.insert 5 0 ⟨m, 4, ∅⟩ = .ok true w ∧
    Map.Places ⟨m, 4, ∅⟩ w ⟨5, 0⟩ (some (⟨3⟩, .lt)) true := by
  have there : ((after (entered (.ofComparison fun _ _ => .lt) 4) ∅).map? 0).isSome := by
    decide +kernel
  have landed : ((after (entered (.ofComparison fun _ _ => .lt) 4) ∅).map? 0).map (fun m =>
      (match Map.nearest 5 ⟨m, 4, ∅⟩ with
      | .ok near _ => near
      | .error _ _ => none,
      match Map.insert 5 0 ⟨m, 4, ∅⟩ with
      | .ok new _ => new
      | .error _ _ => false)) = some (some (⟨3⟩, .lt), true) := by decide +kernel
  obtain ⟨m, hm⟩ := Option.isSome_iff_exists.mp there
  obtain ⟨near, w₀, new, w, descended, inserted, places⟩ := insertion_after _ hm 5 0 4 ∅
  rw [hm, Option.map_some, descended, inserted] at landed
  obtain ⟨rfl, rfl⟩ := Prod.mk.inj (Option.some.inj landed)
  exact ⟨m, w, hm, inserted, places⟩

end Store
end OrderedMap
