import OrderedMap.Proofs.Map.Exact
import OrderedMap.Proofs.Map.Guise
import OrderedMap.Proofs.Map.Room

/-!
Two maps side by side, one of them like the other one in a guise. Whatever is done to both, they
stay alike and answer alike, and the journals correspond record by record. A node that is new has to
be in the guise beforehand, with its slot and its stamp.
-/
namespace OrderedMap
namespace Map

variable {κ ν : Type} {g : Guise} {t t₁ : Tree κ ν} {xs ys : List (Item κ ν)} {x : Item κ ν}
  {w w' w₁ w₁' : Workspace κ ν} {tag : κ} {v : ν}

/-- A node has a child on one side at most. -/
def Slim (m : Map κ ν) (n : NodeId) : Prop :=
  ∀ y, m.arena.get? n = some y → y.left = none ∨ y.right = none

theorem slim_iff {p : Path κ ν} {l r : Tree κ ν} {k : Color} {c : Cell κ ν}
    (h : w.map.arena.Bears (p.plug (.node l k c r))) :
    w.map.Slim c.id ↔ l = .nil ∨ r = .nil := by
  have hc : w.map.arena.get? c.id = _ := h.forest.get?_join (s := .left)
  simp [Slim, hc, Cell.node]

/-- The second map bears the tree of the first one in the guise, and was worked on alike. -/
structure Twins (g : Guise) (t : Tree κ ν) (xs : List (Item κ ν)) (w w' : Workspace κ ν) :
    Prop where
  holds : w.map.Holds t xs
  bears : w'.map.arena.Bears (t.recast g)
  id : w'.map.id = g.map w.map.id
  policy : w'.map.policy = g.policy w.map.policy
  count : w'.map.count = w.map.count
  journal : w'.journal = w.journal.recast g
  /-- The clock of a mirror image shows the same. -/
  clock : g.mirrored = true → w'.clock = w.clock
  level : g.level = true → g.node = .refl _ ∧
    w'.map.arena.slots.size = w.map.arena.slots.size ∧ w'.map.arena.free = w.map.arena.free

namespace Twins

theorem bears_left (h : Twins g t xs w w') : w.map.arena.Bears t := h.holds.bears

/-- The second map holds the items in the guise. -/
theorem holds_right (h : Twins g t xs w w') : w'.map.Holds (t.recast g) (g.items xs) := by
  obtain ⟨H, hr⟩ := h.holds.redBlack
  refine ⟨h.bears, ⟨H, Tree.redBlack_recast g hr⟩, Tree.cells_recast_items g h.holds.cells, ?_⟩
  rw [h.count, h.holds.count, Guise.items]
  split <;> simp

theorem order (h : Twins g t xs w w') (tag : κ) (c : Cell κ ν) :
    w'.map.order tag (c.recast g) = g.ordering (w.map.order tag c) := order_recast g h.policy tag c

theorem seek (h : Twins g t xs w w') (tag : κ) :
    (t.recast g).seek (w'.map.order tag) [] =
      (Path.recast g (t.seek (w.map.order tag) []).1, (t.seek (w.map.order tag) []).2.recast g) :=
  Tree.seek_recast (h.order tag) [] t

theorem seek_of_eq {q : Path κ ν} {u : Tree κ ν} (h : Twins g t xs w w')
    (hq : t.seek (w.map.order tag) [] = (q, u)) :
    (t.recast g).seek (w'.map.order tag) [] = (Path.recast g q, u.recast g) := by
  rw [h.seek, hq]

theorem found?_eq (h : Twins g t xs w w') (tag : κ) :
    w'.map.found? tag = (w.map.found? tag).map g.node := by
  rw [h.holds_right.found?_eq, h.holds.found?_eq, h.seek, Tree.root?_recast]

theorem mem_of_found (h : Twins g t xs w w') {n : NodeId} (hn : w.map.found? tag = some n) :
    ∃ x ∈ xs, x.node = n := by
  obtain ⟨ys, x, zs, rfl, hx, -⟩ := h.holds.of_found hn
  exact ⟨x, by simp, hx⟩

/-- Both journals go on alike. -/
theorem withJournal (h : Twins g t xs w w') (j : Journal κ ν) :
    Twins g t xs (w.withJournal j) (w'.withJournal (j.recast g)) :=
  ⟨h.holds, h.bears, h.id, h.policy, h.count, rfl, h.clock, h.level⟩

theorem journal_afterSearch (h : Twins g t xs w w') (tag : κ) :
    (afterSearch w' tag (t.recast g)).journal = (afterSearch w tag t).journal.recast g := by
  simp only [afterSearch, Workspace.journal_withJournal]
  rw [Journal.recast_callAll, Tree.visited_recast (h.order tag), h.journal, h.policy]

/-- What was done to the first map was done to the second one, in the guise. -/
theorem of_wrought {n c c' size size' : Nat} {j j' : Journal κ ν} {free free' : List Nat}
    {t' : Tree κ ν} (h : Twins g t xs w w') (hw : Wrought w w₁ t₁ n c j free size)
    (hw' : Wrought w' w₁' t' n c' j' free' size')
    (hlists : w₁.map.Lists ys) (ht : t' = t₁.recast g) (hj : j' = j.recast g)
    (hclock : g.mirrored = true → w'.clock = w.clock → c' = c)
    (hlevel : g.node = .refl _ → w'.map.arena.slots.size = w.map.arena.slots.size →
      w'.map.arena.free = w.map.arena.free → size' = size ∧ free' = free) :
    Twins g t₁ ys w₁ w₁' := by
  subst ht hj
  refine ⟨.of_bears hlists hw.bears, hw'.bears, ?_, ?_, ?_, ?_, fun hm => ?_, fun hv => ?_⟩
  · rw [hw'.eq, hw.eq]
    exact h.id
  · rw [hw'.eq, hw.eq]
    exact h.policy
  · rw [hw'.eq, hw.eq]
    rfl
  · rw [hw'.eq, hw.eq]
    rfl
  · rw [hw'.eq, hw.eq]
    exact hclock hm (h.clock hm)
  · obtain ⟨hn, hs, hf⟩ := h.level hv
    rw [hw'.size, hw.size, hw'.free, hw.free]
    exact ⟨hn, hlevel hn hs hf⟩

end Twins

section Both

variable (h : Twins g t xs w w')
include h

/-- A tag is found in the corresponding node, by corresponding comparisons. -/
theorem both_locate (tag : κ) : Both (locate tag) (locate tag) w w' fun n n' w₁ w₁' =>
    (n = w.map.found? tag ∧ n' = n.map g.node) ∧ w₁.map = w.map ∧ w₁'.map = w'.map ∧
      Twins g t xs w₁ w₁' := by
  refine .intro (yields_locate h.bears_left.stands h.holds.filled)
    (yields_locate h.bears.stands h.holds_right.filled) ?_
  rintro - - - - ⟨rfl, rfl⟩ ⟨rfl, rfl⟩
  refine ⟨⟨h.holds.found?_eq.symm, ?_⟩, rfl, rfl, ?_⟩
  · rw [h.seek, Tree.root?_recast]
  · have := h.withJournal (afterSearch w tag t).journal
    rwa [← h.journal_afterSearch] at this

/-- A tag that is not found goes to a new node, which has to have the slot and the stamp that the
guise gives it. -/
theorem both_insert_hung {q : Path κ ν} (hq : t.seek (w.map.order tag) [] = (q, .nil))
    (hnode : g.node w.map.arena.nextId = w'.map.arena.nextId) (hstamp : g.stamp w.clock = w'.clock)
    (v : ν) : Both (insert tag v) (insert tag v) w w' fun new new' w₁ w₁' =>
      (new = true ∧ new' = true ∧ w₁.clock = w.clock + 1 ∧ w₁'.clock = w'.clock + 1) ∧
        ∃ t₁ ys, Twins g t₁ ys w₁ w₁' := by
  have hlists := (yields_insert_grows ⟨t, h.holds⟩ tag v).mono fun _ _ hg => hg.lists
  refine .intro ((yields_insert_hung (v := v) h.bears_left h.holds.filled hq).and hlists)
    (yields_insert_hung (v := v) h.bears h.holds_right.filled (h.seek_of_eq hq)) ?_
  rintro - - w₁ w₁' ⟨⟨rfl, hw⟩, ys, hl⟩ ⟨rfl, hw'⟩
  refine ⟨⟨rfl, rfl, by rw [hw.eq]; rfl, by rw [hw'.eq]; rfl⟩, ?_⟩
  have hleaf : Arena.leaf .red ⟨w'.map.arena.nextId, w'.clock, some ⟨tag, v⟩⟩ =
      (Arena.leaf .red ⟨w.map.arena.nextId, w.clock, some ⟨tag, v⟩⟩).recast g := by
    rw [Tree.recast_leaf, Cell.recast, hnode, hstamp]
  rw [hleaf, Path.settle_recast, h.count, h.journal_afterSearch, ← Journal.recast_onto] at hw'
  refine ⟨_, ys, h.of_wrought hw hw' hl rfl rfl (fun _ hc => by rw [hc]) ?_⟩
  exact fun _ hs hf => ⟨by rw [Arena.nextSize, Arena.nextSize, hs, hf], by rw [hf]⟩

/-- A tag that is found is written over. -/
theorem both_insert_over {q : Path κ ν} {l r : Tree κ ν} {k : Color} {c : Cell κ ν}
    (hq : t.seek (w.map.order tag) [] = (q, .node l k c r)) (v : ν) :
    Both (insert tag v) (insert tag v) w w' fun new new' w₁ w₁' =>
      (new = false ∧ new' = false) ∧ ∃ t₁ ys, Twins g t₁ ys w₁ w₁' := by
  have hlists := (yields_insert_grows ⟨t, h.holds⟩ tag v).mono fun _ _ hg => hg.lists
  obtain ⟨e, he⟩ := Option.isSome_iff_exists.mp
    (h.holds.filled c (Tree.mem_cells_of_seek hq))
  refine .intro ((yields_insert_over (s := .left) (v := v) h.bears_left h.holds.filled hq he).and
    hlists) (yields_insert_over (v := v) h.bears h.holds_right.filled (h.seek_of_eq hq) he) ?_
  rintro - - w₁ w₁' ⟨⟨rfl, hw⟩, ys, hl⟩ ⟨rfl, hw'⟩
  rw [h.count, h.journal_afterSearch, h.policy, ← Journal.recast_release] at hw'
  refine ⟨⟨rfl, rfl⟩, _, ys, h.of_wrought hw hw' hl ?_ rfl (fun _ hc => hc)
    fun _ hs hf => ⟨hs, hf⟩⟩
  rw [Path.plug_recast, Tree.recast_join]
  rfl

/-- A tag is stored alike if the guise foresees the next node. -/
theorem both_insert (hnode : g.node w.map.arena.nextId = w'.map.arena.nextId)
    (hstamp : g.stamp w.clock = w'.clock) (tag : κ) (v : ν) :
    Both (insert tag v) (insert tag v) w w' fun new new' w₁ w₁' => new' = new ∧
      ∃ t₁ ys, Twins g t₁ ys w₁ w₁' := by
  rcases hq : t.seek (w.map.order tag) [] with ⟨q, u⟩
  cases u with
  | nil =>
    refine (both_insert_hung h hq hnode hstamp v).mono ?_
    rintro - - w₁ w₁' ⟨⟨rfl, rfl, -⟩, hw⟩
    exact ⟨rfl, hw⟩
  | node l k c r =>
    refine (both_insert_over h hq v).mono ?_
    rintro - - w₁ w₁' ⟨⟨rfl, rfl⟩, hw⟩
    exact ⟨rfl, hw⟩

theorem both_overwriteAt (hx : x ∈ xs) (v : ν) :
    Both (overwriteAt x.node v) (overwriteAt (g.node x.node) v) w w' fun old old' w₁ w₁' =>
      (old = x.entry.value ∧ old' = old) ∧
        ∃ t₁, Twins g t₁ (Item.rewriteAt x.node (fun e => ⟨e.tag, v⟩) xs) w₁ w₁' := by
  obtain ⟨p, l, k, r, rfl⟩ := h.holds.exists_plug hx
  have hb' := h.bears
  rw [Path.plug_recast] at hb'
  refine .intro ((yields_overwriteAt_plug (s := .left) (v := v) h.bears_left rfl).and
    (yields_overwriteAt ⟨_, h.holds⟩ hx)) (yields_overwriteAt_plug (v := v) hb' rfl) ?_
  rintro - - w₁ w₁' ⟨⟨rfl, hw⟩, -, -, hl⟩ ⟨rfl, hw'⟩
  rw [h.count, h.journal] at hw'
  refine ⟨⟨rfl, rfl⟩, _, h.of_wrought hw hw' hl.lists ?_ rfl (fun _ hc => hc)
    fun _ hs hf => ⟨hs, hf⟩⟩
  rw [Path.plug_recast, Tree.recast_join]
  rfl

end Both

section TakeOut

variable {p q : Path κ ν} {l r u : Tree κ ν} {k k' : Color} {d : Cell κ ν} {n : Nat}

theorem both_takeOut_narrow (h : Twins g (p.plug (.node l k x.cell r)) xs w w') (hx : x ∈ xs)
    (hlr : l = .nil ∨ r = .nil) (hn : w.map.count = n + 1) :
    Both (takeOut x.node) (takeOut (g.node x.node)) w w' fun e e' w₁ w₁' =>
      (e = x.entry ∧ e' = e) ∧ ∃ t₁, Twins g t₁ (Item.without x.node xs) w₁ w₁' := by
  have hb' := h.bears
  rw [Path.plug_recast, Tree.recast] at hb'
  have hlr' : l.recast g = .nil ∨ r.recast g = .nil := by simpa using hlr
  have left := yields_takeOut_narrow (s := .left) (e := x.entry) h.bears_left hlr rfl hn
  have right := yields_takeOut_narrow (e := x.entry) hb' hlr' rfl (h.count.trans hn)
  refine .intro (left.and (yields_takeOut ⟨_, h.holds⟩ hx)) right ?_
  rintro - - w₁ w₁' ⟨⟨rfl, hw⟩, -, hl⟩ ⟨rfl, hw'⟩
  rw [h.journal, ← Tree.onlyChild_recast, Path.unhook_recast, ← Journal.recast_onto] at hw'
  refine ⟨⟨rfl, rfl⟩, _, h.of_wrought hw hw' hl.lists rfl rfl (fun _ hc => hc) ?_⟩
  intro hg hs hf
  rw [Cell.recast, hs, hf, hg]
  exact ⟨rfl, rfl⟩

theorem both_takeOut_wide (up : g.mirrored = false)
    (h : Twins g (p.plug (.node (q.plug (.node u k' d .nil)) k x.cell r)) xs w w') (hx : x ∈ xs)
    (hcells : (q.plug (.node u k' d .nil)).cells = (q.plug u).cells ++ [d]) (hr : r ≠ .nil)
    (hn : w.map.count = n + 1) :
    Both (takeOut x.node) (takeOut (g.node x.node)) w w' fun e e' w₁ w₁' =>
      (e = x.entry ∧ e' = e) ∧ ∃ t₁, Twins g t₁ (Item.without x.node xs) w₁ w₁' := by
  have hb' := h.bears
  rw [Path.plug_recast, Tree.recast_node up, Path.plug_recast, Tree.recast_node up] at hb'
  have hcells' : ((Path.recast g q).plug (.node (u.recast g) k' (d.recast g) .nil)).cells =
      ((Path.recast g q).plug (u.recast g)).cells ++ [d.recast g] := by
    have hd := congrArg (List.map (Cell.recast g)) hcells
    rw [List.map_append, ← Tree.cells_recast_of_upright up, ← Tree.cells_recast_of_upright up,
      Path.plug_recast, Path.plug_recast, Tree.recast_node up] at hd
    exact hd
  have hr' : r.recast g ≠ .nil := by simpa using hr
  have hpath : Path.recast g q ++ ⟨.left, k, d.recast g, r.recast g⟩ :: Path.recast g p =
      Path.recast g (q ++ ⟨.left, k, d, r⟩ :: p) := by
    simp [Frame.recast, Guise.side_of_upright up]
  have left := yields_takeOut_wide (e := x.entry) h.bears_left hcells hr rfl hn
  have right := yields_takeOut_wide (e := x.entry) hb' hcells' hr' rfl (h.count.trans hn)
  refine .intro (left.and (yields_takeOut ⟨_, h.holds⟩ hx)) right ?_
  rintro - - w₁ w₁' ⟨⟨rfl, hw⟩, -, hl⟩ ⟨rfl, hw'⟩
  rw [hpath, h.journal, Path.unhook_recast, ← Journal.recast_onto] at hw'
  refine ⟨⟨rfl, rfl⟩, _, h.of_wrought hw hw' hl.lists rfl rfl (fun _ hc => by rw [hc]) ?_⟩
  intro hg hs hf
  simp only [Cell.recast, Arena.nextId, Arena.nextSize, hs, hf, hg]
  exact ⟨trivial, rfl⟩

/-- In a mirror image it is only a node with one child at most that is taken out alike. -/
theorem both_takeOut (h : Twins g t xs w w') (hx : x ∈ xs)
    (hslim : g.mirrored = true → w.map.Slim x.node) :
    Both (takeOut x.node) (takeOut (g.node x.node)) w w' fun e e' w₁ w₁' =>
      (e = x.entry ∧ e' = e) ∧ ∃ t₁, Twins g t₁ (Item.without x.node xs) w₁ w₁' := by
  obtain ⟨p, l, k, r, rfl⟩ := h.holds.exists_plug hx
  obtain ⟨n, hn⟩ : ∃ n, w.map.count = n + 1 := by
    rw [h.holds.count]
    exact Nat.exists_eq_succ_of_ne_zero (List.length_pos_of_mem hx).ne'
  by_cases hlr : l = .nil ∨ r = .nil
  · exact both_takeOut_narrow h hx hlr hn
  · have up : g.mirrored = false := by
      by_contra hm
      exact hlr ((slim_iff (c := x.cell) h.bears_left).mp (hslim (by simpa using hm)))
    obtain ⟨hl, hr⟩ := not_or.mp hlr
    obtain ⟨q, k', d, u, rfl, hcells⟩ := Path.exists_last hl
    exact both_takeOut_wide up h hx hcells hr hn

end TakeOut

section Upright

variable (h : Twins g t xs w w') (up : g.mirrored = false)
include h up

theorem both_clear : Both clear clear w w' fun _ _ w₁ w₁' => Twins g .nil [] w₁ w₁' := by
  by_cases ht : t = .nil
  · obtain rfl := ht
    obtain rfl : xs = [] := by simpa using h.holds.cells
    refine .intro (yields_clear_rootless h.bears_left) (yields_clear_rootless h.bears) ?_
    intro _ _ w₁ w₁' hw hw'
    rw [hw, hw']
    exact h
  · refine .intro ((yields_clear_tree h.bears_left ht).and (yields_clear ⟨t, h.holds⟩))
      (yields_clear_tree h.bears (by simpa using ht)) ?_
    rintro - - w₁ w₁' ⟨hw, -, hl, -⟩ hw'
    have hjournal : afterClear w' (t.recast g) = (afterClear w t).recast g := by
      unfold afterClear
      rw [entries_post_recast up, h.journal, h.policy, h.id, Journal.recast_record,
        Journal.recast_releaseAll]
      rfl
    exact h.of_wrought hw hw' hl.lists rfl hjournal (fun _ hc => hc) fun _ _ _ => ⟨rfl, rfl⟩

theorem both_discard : Both discard discard w w' fun _ _ w₁ w₁' => Twins g .nil [] w₁ w₁' := by
  unfold discard
  rw [both_bind_of_eq (x := survey pure) (y := survey pure) rfl rfl, h.count]
  split
  · rw [both_bind_of_eq (x := record _) (y := record _) rfl rfl]
    have h₁ := h.withJournal (w.journal.record (.dropping w.map.id w.map.count))
    rw [Journal.recast_record, ← h.journal, Record.recast, ← h.id] at h₁
    exact both_clear h₁ up
  · exact both_clear h up

theorem both_consume [EntrySize κ ν] : Both consume consume w w' fun es es' w₁ w₁' =>
    es' = es ∧ Twins g .nil [] w₁ w₁' := by
  refine .intro ((yields_consume_silent h.holds).and (yields_consume ⟨t, h.holds⟩))
    (yields_consume_silent h.holds_right) ?_
  rintro - - w₁ w₁' ⟨⟨rfl, hw⟩, -, -, hl⟩ ⟨rfl, hw'⟩
  refine ⟨?_, h.of_wrought hw hw' hl.lists rfl h.journal (fun _ hc => hc)
    fun _ _ _ => ⟨rfl, rfl⟩⟩
  rw [Guise.items_of_upright up, List.map_map]
  rfl

/-- The self check finds the same fault in the corresponding node. -/
theorem both_audit : Both audit audit w w' fun a a' w₁ w₁' =>
    a' = a.mapError (Violation.recast g) ∧ Twins g t xs w₁ w₁' := by
  by_cases ht : t = .nil
  · obtain rfl := ht
    refine (yields_audit_rootless h.bears_left.root).mpr
      ((yields_audit_rootless h.bears.root).mpr ⟨?_, h⟩)
    rw [h.count]
    split <;> rfl
  · obtain ⟨H, hr⟩ := h.holds.redBlack
    have distinct {m : Map κ ν} {u : Tree κ ν} {zs : List (Item κ ν)} (hm : m.Holds u zs) :
        ∀ us vs, zs = us ++ vs → Rises m.compare us → (us.map (·.node)).Nodup := by
      rintro us vs rfl -
      exact (List.nodup_append.mp (List.map_append ▸ hm.nodup)).1
    refine .intro (yields_audit_presents h.holds.presents ht hr (distinct h.holds))
      (yields_audit_presents h.holds_right.presents (by simpa using ht)
        (Tree.redBlack_recast g hr) (distinct h.holds_right)) ?_
    rintro - - - - ⟨rfl, rfl⟩ ⟨rfl, rfl⟩
    rw [Guise.items_of_upright up]
    refine ⟨verdict_recast up h.policy h.count H xs, ?_⟩
    have h₁ := h.withJournal (callAdjacent w.map.policy.comparator xs w.journal)
    rw [callAdjacent_recast up, ← h.journal] at h₁
    have hp := h.policy
    rw [Guise.policy_of_upright _ up] at hp
    rw [afterWalk, afterWalk, hp]
    exact h₁

end Upright
end Map
end OrderedMap
