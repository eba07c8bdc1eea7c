import OrderedMap.Proofs.Map.Auditing

/-!
Exactly what actions on a map leave behind: not only the items in order, but the tree, the vacant
slots, the clock and all of the journal.
-/
namespace OrderedMap
namespace Map

variable {κ ν : Type} {w w₁ : Workspace κ ν} {p q : Path κ ν} {l r t u : Tree κ ν} {k : Color}
  {c : Cell κ ν} {e : Entry κ ν} {s : Side} {tag : κ} {v : ν} {xs : List (Item κ ν)} {n : Nat}

/-- The setting after an edit, in every part. Only the nodes themselves are told by a tree. -/
structure Wrought (w w₁ : Workspace κ ν) (t : Tree κ ν) (count clock : Nat) (journal : Journal κ ν)
    (free : List Nat) (size : Nat) : Prop where
  eq : w₁ = (((w.withArena w₁.map.arena).withCount count).withClock clock).withJournal journal
  bears : w₁.map.arena.Bears t
  free : w₁.map.arena.free = free
  size : w₁.map.arena.slots.size = size

/-- A tree that an arena bears is the only one. -/
theorem Holds.of_bears (h : w.map.Lists xs) (hb : w.map.arena.Bears t) : w.map.Holds t xs := by
  obtain ⟨u, hu⟩ := h
  obtain rfl := hu.bears.hangs.unique hb.hangs (hu.bears.root.symm.trans hb.root)
  exact hu

/-- An item in place, with the tree around it. -/
theorem Holds.exists_plug {m : Map κ ν} {x : Item κ ν} (h : m.Holds t xs) (hx : x ∈ xs) :
    ∃ p l k r, t = Path.plug p (.node l k x.cell r) := by
  obtain ⟨ys, zs, rfl⟩ := List.append_of_mem hx
  have ht : t.toward .right = ys.map Item.cell ++ x.cell :: zs.map Item.cell := by
    rw [Tree.toward, h.cells, List.map_append, List.map_cons]
  obtain ⟨p, k, near, far, rfl, -⟩ := Path.exists_split .right ht
  exact ⟨p, far, k, near, rfl⟩

/-- A tag that is not found becomes a leaf where the search ended. -/
theorem yields_insert_hung (h : w.map.arena.Bears t) (hfill : t.Filled)
    (hq : t.seek (w.map.order tag) [] = (q, .nil)) : Yields (insert tag v) w fun new w₁ =>
      new = true ∧
        Wrought w w₁
          (q.settle (Arena.leaf .red ⟨w.map.arena.nextId, w.clock, some ⟨tag, v⟩⟩)).tree
          (w.map.count + 1) (w.clock + 1)
          ((q.settle (Arena.leaf .red ⟨w.map.arena.nextId, w.clock, some ⟨tag, v⟩⟩)).onto
            (afterSearch w tag t).journal)
          w.map.arena.free.tail w.map.arena.nextSize := by
  unfold insert
  rw [yields_bind]
  apply (yields_place_new (v := v) h hfill hq).mono
  rintro - w₁ ⟨rfl, he, hb, hs, hf⟩
  have hcount : w₁.map.count = w.map.count := by
    rw [he]
    rfl
  simp only [if_true]
  rw [yields_bind, yields_survey_pure, yields_bind, yields_setCount, hcount]
  refine yields_pure.mpr ⟨rfl, ?_, hb, hf, hs⟩
  rw [he]
  rfl

/-- A tag that is found is written over together with its value. -/
theorem yields_insert_over (h : w.map.arena.Bears t) (hfill : t.Filled)
    (hq : t.seek (w.map.order tag) [] = (q, .join s l k c r)) (he : c.entry = some e) :
    Yields (insert tag v) w fun new w₁ => new = false ∧
      Wrought w w₁ (q.plug (.join s l k { c with entry := some ⟨tag, v⟩ } r)) w.map.count w.clock
        ((afterSearch w tag t).journal.release w.map.policy e) w.map.arena.free
        w.map.arena.slots.size := by
  have upright {l r : Tree κ ν} (hq : t.seek (w.map.order tag) [] = (q, .node l k c r)) :
      Yields (insert tag v) w fun new w₁ => new = false ∧
        Wrought w w₁ (q.plug (.node l k { c with entry := some ⟨tag, v⟩ } r)) w.map.count w.clock
          ((afterSearch w tag t).journal.release w.map.policy e) w.map.arena.free
          w.map.arena.slots.size := by
    unfold insert
    rw [yields_bind]
    apply (yields_place_found (v := v) h hfill hq he).mono
    rintro - w₁ ⟨rfl, e₁, hb, hk⟩
    exact yields_pure.mpr ⟨rfl, e₁, hb, hk.free, hk.size⟩
  cases s with
  | left => exact upright hq
  | right => exact upright hq

theorem yields_overwriteAt_plug (h : w.map.arena.Bears (p.plug (.join s l k c r)))
    (he : c.entry = some e) : Yields (overwriteAt c.id v) w fun old w₁ => old = e.value ∧
      Wrought w w₁ (p.plug (.join s l k { c with entry := some ⟨e.tag, v⟩ } r)) w.map.count w.clock
        w.journal w.map.arena.free w.map.arena.slots.size := by
  have upright {l r : Tree κ ν} (h : w.map.arena.Bears (p.plug (.node l k c r))) :
      Yields (overwriteAt c.id v) w fun old w₁ => old = e.value ∧
        Wrought w w₁ (p.plug (.node l k { c with entry := some ⟨e.tag, v⟩ } r)) w.map.count w.clock
          w.journal w.map.arena.free w.map.arena.slots.size := by
    unfold overwriteAt
    rw [yields_bind, yields_edit]
    apply (Arena.yields_replaceEntry (fun e => ⟨e.tag, v⟩) h he).mono
    rintro old a ⟨ho, hb, hk⟩
    exact yields_pure.mpr ⟨congrArg _ ho, rfl, hb, hk.free, hk.size⟩
  cases s with
  | left => exact upright h
  | right => exact upright h

/-- What `takeOut` does once the node has been taken out. -/
theorem yields_takeOut_of_extract {post : Entry κ ν → Workspace κ ν → Prop}
    {id : NodeId} (h : Yields (extract id) w fun e w₁ => w₁.map.count = n + 1 ∧
      post e (w₁.withCount n)) : Yields (takeOut id) w post := by
  unfold takeOut
  rw [yields_bind]
  apply h.mono
  rintro e w₁ ⟨hc, hp⟩
  rw [yields_bind, yields_survey_pure, hc]
  simp only
  rw [yields_bind, yields_setCount]
  exact yields_pure.mpr hp

/-- A node with at most one child is taken out, whichever side the child is on. -/
theorem yields_takeOut_narrow (h : w.map.arena.Bears (p.plug (.join s l k c r)))
    (hlr : l = .nil ∨ r = .nil) (he : c.entry = some e) (hn : w.map.count = n + 1) :
    Yields (takeOut c.id) w fun e' w₁ => e' = e ∧
      Wrought w w₁ (p.unhook k (onlyChild l r)).tree n w.clock
        ((p.unhook k (onlyChild l r)).onto w.journal) (c.id.index :: w.map.arena.free)
        w.map.arena.slots.size := by
  refine yields_takeOut_of_extract (n := n) ((yields_extract_of_narrow h hlr he).mono ?_)
  rintro - w₁ ⟨rfl, e₁, hb, hs, hf⟩
  refine ⟨?_, rfl, ?_, hb, hf, hs⟩
  · rw [e₁]
    exact hn
  · rw [e₁]
    rfl

/-- A node with two children is taken out from the place of its predecessor. -/
theorem yields_takeOut_wide {k' : Color} {d : Cell κ ν}
    (h : w.map.arena.Bears (p.plug (.node (q.plug (.node u k' d .nil)) k c r)))
    (hcells : (q.plug (.node u k' d .nil)).cells = (q.plug u).cells ++ [d]) (hr : r ≠ .nil)
    (he : c.entry = some e) (hn : w.map.count = n + 1) :
    Yields (takeOut c.id) w fun e' w₁ => e' = e ∧
      Wrought w w₁ (Path.unhook (q ++ ⟨.left, k, d, r⟩ :: p) k' u).tree n (w.clock + 1)
        ((Path.unhook (q ++ ⟨.left, k, d, r⟩ :: p) k' u).onto w.journal)
        (c.id.index :: w.map.arena.nextId.index :: w.map.arena.free.tail)
        w.map.arena.nextSize := by
  refine yields_takeOut_of_extract (n := n) ((yields_extract_of_wide h hcells hr he).mono ?_)
  rintro - w₁ ⟨rfl, e₁, hb, hs, hf⟩
  refine ⟨?_, rfl, ?_, hb, hf, hs⟩
  · rw [e₁]
    exact hn
  · rw [e₁]
    rfl

/-- What a clearing leaves to be observed. -/
def afterClear (w : Workspace κ ν) (t : Tree κ ν) : Journal κ ν :=
  (w.journal.releaseAll w.map.policy (Teardown.entries t.post)).record
    (.cleared w.map.id (Teardown.entries t.post).size)

theorem yields_clear_tree (h : w.map.arena.Bears t) (ht : t ≠ .nil) :
    Yields clear w fun _ w₁ => Wrought w w₁ .nil 0 w.clock (afterClear w t) [] 0 := by
  obtain ⟨n, hn⟩ := Option.ne_none_iff_exists'.mp (mt Tree.root?_eq_none_iff.mp ht)
  have strip_eq : strip w = .ok (Teardown.entries t.post).size ((w.withArena ∅).withJournal
      (w.journal.releaseAll w.map.policy (Teardown.entries t.post))) := by
    unfold strip
    simp only [Arena.teardown_eq h.stands h.nodup]
    rfl
  unfold clear
  rw [yields_bind, yields_of_eq (x := survey pure) (s := w) rfl, h.root, hn]
  simp only [Option.isSome_some, if_true]
  rw [yields_bind, yields_of_eq strip_eq, yields_bind, yields_record]
  exact yields_setCount.mpr ⟨rfl, Arena.bears_empty, rfl, rfl⟩

theorem yields_clear_rootless (h : w.map.arena.Bears (.nil : Tree κ ν)) :
    Yields clear w fun _ w₁ => w₁ = w := by
  unfold clear
  rw [yields_bind, yields_of_eq (x := survey pure) (s := w) rfl, h.root]
  exact yields_pure.mpr rfl

/-- A harvest leaves nothing to be observed. -/
theorem yields_consume_silent [EntrySize κ ν] (h : w.map.Holds t xs) : Yields consume w fun es w₁ =>
    es = xs.map (·.entry) ∧ Wrought w w₁ .nil 0 w.clock w.journal [] 0 := by
  apply (yields_consume_eq h).mono
  rintro - - ⟨rfl, rfl⟩
  exact ⟨rfl, rfl, Arena.bears_empty, rfl, rfl⟩

end Map
end OrderedMap
