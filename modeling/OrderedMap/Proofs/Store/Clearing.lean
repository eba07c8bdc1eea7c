import OrderedMap.Proofs.Map.Exact
import OrderedMap.Proofs.Store.WellFormed

/-!
Children before parents, in two ways: a walk steps along links that stay, and a teardown takes them
apart as it goes down and climbs. Both come to the same nodes in the same order. So a map that is
cleared or discarded lets go of every entry once, in the order of the walk.
-/
namespace OrderedMap

variable {κ ν : Type}

namespace Arena

variable {a : Arena κ ν} {t : Tree κ ν} {ns : List NodeId}

/-- The walk over a tree from its start, step by step, passes the given nodes and ends: each node
once, and after all nodes of its left subtree and then of its right subtree. -/
structure WalksUp (a : Arena κ ν) (t : Tree κ ν) (ns : List NodeId) : Prop where
  start : a.postOrderStart = .ok ns.head?
  next : ∀ us n vs, ns = us ++ n :: vs → a.postOrderNext n = .ok vs.head?
  ends : a.postOrder = .ok ns
  once : ns.Nodup
  all : ∀ n, n ∈ ns ↔ a.Reached n
  subtrees : ∀ p l k c r, t = Path.plug p (.node l k c r) → ∃ us ls rs vs,
    ns = us ++ ls ++ rs ++ c.id :: vs ∧ ls.Perm l.ids ∧ rs.Perm r.ids

theorem walksUp (h : a.Stands t) (hnd : t.ids.Nodup) : a.WalksUp t (t.post.map (·.id)) where
  start := by rw [postOrderStart_eq h, List.head?_map]
  next _ _ _ e := postOrderNext_split h hnd e
  ends := postOrder_eq h hnd
  once := (t.post_perm.map Cell.id).nodup_iff.mpr hnd
  all n := by
    rw [h.links.reached_iff h.root]
    exact (t.post_perm.map Cell.id).mem_iff
  subtrees p l k c r ht := by
    refine ⟨p.postBefore.map (·.id), l.post.map (·.id), r.post.map (·.id), p.postAfter.map (·.id),
      ?_, l.post_perm.map _, r.post_perm.map _⟩
    rw [ht, Path.post_plug, Tree.post]
    simp

/-- The entries of nodes of a tree can be read, one after the other. -/
theorem mapM_entry_eq {q : Option NodeId} {cs : List (Cell κ ν)} (h : a.Hangs q t)
    (hfill : t.Filled) (sub : ∀ c ∈ cs, c ∈ t.cells) :
    (cs.map (·.id)).mapM a.entry = .ok (cs.filterMap (·.entry)) := by
  induction cs with
  | nil => rfl
  | cons c cs ih =>
    have hc := sub c (List.mem_cons_self ..)
    obtain ⟨e, he⟩ := Option.isSome_iff_exists.mp (hfill c hc)
    obtain ⟨x, hx, -, hxe⟩ := h.get?_of_mem hc
    have rest := ih fun d hd => sub d (List.mem_cons_of_mem _ hd)
    rw [List.map_cons, List.mapM_cons, entry_of_get? hx (hxe.trans he), rest,
      List.filterMap_cons_some he]
    rfl

end Arena

namespace Map

variable {w : Workspace κ ν} {t : Tree κ ν} {xs : List (Item κ ν)}

theorem Holds.eq_nil_iff (h : w.map.Holds t xs) : t = .nil ↔ w.map.count = 0 := by
  rw [h.count, List.length_eq_zero_iff, ← Tree.cells_eq_nil_iff, h.cells, List.map_eq_nil_iff]

/-- A clearing records how many entries it has let go of, if there were any. -/
theorem yields_clear_records (h : w.map.Holds t xs) : Yields clear w fun _ w₁ =>
    w₁.journal.records = w.journal.records ++
      if w.map.count = 0 then #[] else #[.cleared w.map.id w.map.count] := by
  by_cases hne : t = .nil
  · rw [if_pos (h.eq_nil_iff.mp hne)]
    obtain rfl := hne
    apply (yields_clear_rootless h.bears).mono
    rintro - w₁ rfl
    exact Array.append_empty.symm
  · rw [if_neg (mt h.eq_nil_iff.mpr hne)]
    have size_eq : (Teardown.entries t.post).size = w.map.count := by
      have listed := h.upwardEntries_perm.length_eq
      rw [h.upwardEntries_eq, List.length_map, ← h.count] at listed
      rw [Teardown.entries, List.size_toArray, listed]
    apply (yields_clear_tree h.bears hne).mono
    intro _ w₁ hw
    rw [hw.eq, Workspace.journal_withJournal, afterClear, size_eq, Teardown.entries, Journal.record,
      Journal.records_releaseAll, Array.push_eq_append]

theorem yields_discard_records (h : w.map.Holds t xs) : Yields discard w fun _ w₁ =>
    w₁.journal.records = w.journal.records ++
      if w.map.count = 0 then #[] else
        #[.dropping w.map.id w.map.count, .cleared w.map.id w.map.count] := by
  unfold discard
  rw [yields_bind, yields_of_eq (x := survey pure) (s := w) rfl]
  by_cases hc : w.map.count = 0
  · rw [if_neg (by omega), if_pos hc]
    have cleared := yields_clear_records h
    rwa [if_pos hc] at cleared
  · rw [if_pos (by omega), yields_bind, yields_record, if_neg hc]
    have h₁ : (w.withJournal (w.journal.record (.dropping w.map.id w.map.count))).map.Holds t xs :=
      h
    apply (yields_clear_records h₁).mono
    intro _ w₁ hr
    rw [hr, Workspace.map_withJournal, if_neg hc, Workspace.journal_withJournal, Journal.record,
      Array.push_eq_append, Array.append_assoc]
    rfl

/-- The entries that a teardown hands out are those of the walk, in its order. -/
theorem strip_eq (h : w.map.arena.Stands t) (hnd : t.ids.Nodup) :
    strip w = .ok (t.post.filterMap (·.entry)).length ((w.withArena ∅).withJournal
      (w.journal.releaseAll w.map.policy (Teardown.entries t.post))) := by
  unfold strip
  simp only [Arena.teardown_eq h hnd]
  rfl

end Map

namespace Store

variable [EntrySize κ ν]

/-- For every tree in an arena, whatever its shape and colours and whatever the arena holds besides:
the walk from the leaves up ends after it has passed every node once, children before parents; a
teardown hands out the entries of the same walk in the same order, tells how many they are, and
leaves nothing in the arena. So clearing or discarding any map that any run leaves releases every
entry once, children before parents and the tag before the value, and records the number of entries
that the map had; a cleared map keeps its policy. -/
theorem clearing_upward :
    (∀ (w : Workspace κ ν) (t : Tree κ ν), w.map.arena.Stands t → t.ids.Nodup → t.Filled →
      ∃ ns es, w.map.arena.WalksUp t ns ∧ ns.mapM w.map.arena.entry = .ok es ∧
        w.map.arena.teardown = .ok () ⟨∅, es.toArray⟩ ∧
        Map.strip w = .ok es.length ((w.withArena ∅).withJournal
          (w.journal.releaseAll w.map.policy es.toArray))) ∧
    ∀ (ops : List (Op κ ν)) (k : Nat) (m : Map κ ν), (after ops ∅).map? k = some m →
      ∃ t ns es, m.arena.Stands t ∧ m.arena.WalksUp t ns ∧ ns.mapM m.arena.entry = .ok es ∧
        es.Perm (m.items.map (·.entry)) ∧
        (∃ j s m', (after ops ∅).step (.on k .clear) = (⟨.ok .done, j⟩, s) ∧
          j.released.toList = es.flatMap m.policy.releases ∧
          j.records = (if m.count = 0 then #[] else #[.cleared m.id m.count]) ∧
          s.map? k = some m' ∧ m'.id = m.id ∧ m'.items = [] ∧ m'.count = 0 ∧
          m'.policy = m.policy) ∧
        ∃ j s, (after ops ∅).step (.discard k) = (⟨.ok .done, j⟩, s) ∧
          j.released.toList = es.flatMap m.policy.releases ∧
          j.records = (if m.count = 0 then #[] else
            #[.dropping m.id m.count, .cleared m.id m.count]) ∧
          s.map? k = none := by
  refine ⟨fun w t h hnd hfill => ⟨_, _, Arena.walksUp h hnd,
    Arena.mapM_entry_eq h.links hfill fun _ hc => t.post_perm.mem_iff.mp hc,
    Arena.teardown_eq h hnd, Map.strip_eq h hnd⟩, fun ops k m hm => ?_⟩
  obtain ⟨xs, t, h⟩ := (sound_after ops).lists m hm
  have stands := h.bears.stands
  have walk := Arena.walksUp stands h.bears.nodup
  have upward : ∀ c ∈ t.post, c ∈ t.cells := fun _ hc => t.post_perm.mem_iff.mp hc
  have entries := Arena.mapM_entry_eq stands.links h.filled upward
  have perm : (t.post.filterMap (·.entry)).Perm (m.items.map (·.entry)) := by
    rw [← h.upwardEntries_eq, h.items_eq]
    exact h.upwardEntries_perm
  refine ⟨t, _, _, stands, walk, entries, perm, ?_, ?_⟩
  · have cleared := (Map.yields_clear (w := ⟨m, (after ops ∅).clock, ∅⟩) ⟨t, h⟩).and
      (Map.yields_clear_records h)
    obtain ⟨⟨⟩, w, he, ⟨-, hb, -⟩, records⟩ := cleared
    have performed : (Map.Op.clear : Map.Op κ ν).perform ⟨m, (after ops ∅).clock, ∅⟩ =
        .ok .done w := bind_of_eq he
    refine ⟨w.journal, _, w.map, step_on_ok hm performed, ?_, ?_, ?_, hb.id, ?_, ?_, hb.policy⟩
    · rw [← h.upwardEntries_eq]
      exact hb.released
    · exact records.trans Array.empty_append
    · rw [map?_setIfInBounds _ (lt_size_of_map? hm), if_pos rfl]
    · obtain ⟨u, hu⟩ := hb.lists
      exact hu.items_eq
    · obtain ⟨u, hu⟩ := hb.lists
      exact hu.count
  · have discarded := (Map.yields_discard (w := ⟨m, (after ops ∅).clock, ∅⟩) ⟨t, h⟩).and
      (Map.yields_discard_records h)
    obtain ⟨⟨⟩, w, he, ⟨-, hb⟩, records⟩ := discarded
    refine ⟨w.journal, _, step_discard_ok hm he, ?_, ?_, ?_⟩
    · rw [← h.upwardEntries_eq]
      exact hb.released
    · exact records.trans Array.empty_append
    · rw [map?_setIfInBounds _ (lt_size_of_map? hm), if_pos rfl]

/-- A red root with one red child. Beside them there is a vacant slot that does not wait on the
stack, and a node that is its own parent. -/
def wreck : Workspace Nat Nat :=
  ⟨⟨⟨0⟩, ⟨#[some ⟨none, none, some ⟨2⟩, .red, 0, some ⟨7, 70⟩⟩, none,
    some ⟨some ⟨0⟩, none, none, .red, 1, some ⟨3, 30⟩⟩,
    some ⟨some ⟨3⟩, none, none, .black, 2, none⟩], [], some ⟨0⟩⟩, 9, .natural⟩, 3, ∅⟩

/-- A map with a hook and three entries. -/
def trio : List (Op Nat Nat) :=
  [.create (Policy.natural.withValueHook "v") [(1, 10), (2, 20), (3, 30)]]

/-- The root of a tree is handed out last, whatever else is in the arena and however the tags are
ordered. -/
theorem clearing_upward_wreck :
    (∃ es, wreck.map.arena.WalksUp
        (.node .nil .red ⟨⟨0⟩, 0, some ⟨7, 70⟩⟩ (.node .nil .red ⟨⟨2⟩, 1, some ⟨3, 30⟩⟩ .nil))
        [⟨2⟩, ⟨0⟩] ∧ wreck.map.arena.teardown = .ok () ⟨∅, es⟩ ∧ es = #[⟨3, 30⟩, ⟨7, 70⟩]) ∧
    ∃ m, (after trio ∅).map? 0 = some m ∧ ∃ j s, (after trio ∅).step (.discard 0) =
      (⟨.ok .done, j⟩, s) ∧ j.released.toList = [.value "v" 10, .value "v" 30, .value "v" 20] ∧
      j.records = #[.dropping ⟨0⟩ 3, .cleared ⟨0⟩ 3] ∧ s.map? 0 = none := by
  have there : ((after trio ∅).map? 0).isSome := by decide +kernel
  have told : ((after trio ∅).map? 0).map (fun m => (m.id, m.count)) = some (⟨0⟩, 3) := by
    decide +kernel
  have dropped : ((after trio ∅).step (.discard 0)).1.journal.released.toList =
      [.value "v" 10, .value "v" 30, .value "v" 20] := by decide +kernel
  obtain ⟨m, hm⟩ := Option.isSome_iff_exists.mp there
  rw [hm] at told
  obtain ⟨hid, hcount⟩ := Prod.mk.inj (Option.some.inj told)
  refine ⟨?_, m, hm, ?_⟩
  · obtain ⟨ns, es, walk, read, torn, -⟩ := clearing_upward.1 wreck
      (.node .nil .red ⟨⟨0⟩, 0, some ⟨7, 70⟩⟩ (.node .nil .red ⟨⟨2⟩, 1, some ⟨3, 30⟩⟩ .nil))
      ⟨⟨rfl, trivial, rfl, trivial, trivial⟩, rfl⟩ (by decide) (by unfold Tree.Filled; decide)
    have order : wreck.map.arena.postOrder = .ok [⟨2⟩, ⟨0⟩] := rfl
    obtain rfl := Except.ok.inj (walk.ends.symm.trans order)
    obtain rfl : [(⟨3, 30⟩ : Entry Nat Nat), ⟨7, 70⟩] = es := Except.ok.inj read
    exact ⟨_, walk, torn, rfl⟩
  · obtain ⟨-, -, es, -, -, -, -, -, j, s, step, released, records, gone⟩ :=
      clearing_upward.2 trio 0 m hm
    rw [step] at dropped
    rw [hid, hcount] at records
    exact ⟨j, s, step, dropped, records, gone⟩

end Store
end OrderedMap
