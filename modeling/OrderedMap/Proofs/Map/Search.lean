import OrderedMap.Map.Descent
import OrderedMap.Proofs.Disposals
import OrderedMap.Proofs.Map.Setting
import OrderedMap.Proofs.Tree.Seek

/-!
The two searches of a map as searches of the tree that stands in its arena. Both leave the map as it
is and note the same comparisons.
-/
namespace OrderedMap

namespace Cell

variable {κ ν : Type}

/-- How the tag of a cell compares, for a cell with an entry. -/
def compared (order : κ → Ordering) (c : Cell κ ν) : Ordering :=
  (c.entry.map fun e => order e.tag).getD .eq

theorem compared_of_entry {order : κ → Ordering} {c : Cell κ ν} {e : Entry κ ν}
    (h : c.entry = some e) : c.compared order = order e.tag := by simp [compared, h]

end Cell

/-- Every cell of a tree holds an entry. -/
def Tree.Filled {κ ν : Type} (t : Tree κ ν) : Prop := ∀ c ∈ t.cells, c.entry.isSome

theorem Tree.filled_node {κ ν : Type} {l r : Tree κ ν} {k : Color} {c : Cell κ ν} :
    (Tree.node l k c r).Filled ↔ l.Filled ∧ c.entry.isSome ∧ r.Filled := by
  simp only [Filled, cells, List.mem_append, List.mem_cons, or_imp, forall_and, forall_eq]

/-- A tag was compared with those of cells, one after the other. -/
def Journal.callAll {κ ν : Type} (comparator : Comparator κ) (t : κ) (cs : List (Cell κ ν))
    (j : Journal κ ν) : Journal κ ν :=
  (cs.filterMap (·.entry)).foldl (fun j e => j.call comparator t e.tag) j

theorem Journal.callAll_cons {κ ν : Type} {comparator : Comparator κ} {t : κ} {c : Cell κ ν}
    {e : Entry κ ν} (cs : List (Cell κ ν)) (j : Journal κ ν) (h : c.entry = some e) :
    j.callAll comparator t (c :: cs) = (j.call comparator t e.tag).callAll comparator t cs := by
  simp [callAll, h]

namespace Journal

variable {κ ν : Type} (comparator : Comparator κ) (t : κ) (cs : List (Cell κ ν)) (j : Journal κ ν)

/-- Of a search only the comparisons are noted. -/
theorem exists_callAll : ∃ calls, j.callAll comparator t cs = { j with calls := calls } := by
  unfold callAll
  induction cs.filterMap (·.entry) generalizing j with
  | nil => exact ⟨j.calls, rfl⟩
  | cons e es ih => exact ih (j.call comparator t e.tag)

theorem released_callAll : (j.callAll comparator t cs).released = j.released := by
  obtain ⟨calls, h⟩ := j.exists_callAll comparator t cs
  rw [h]

theorem records_callAll : (j.callAll comparator t cs).records = j.records := by
  obtain ⟨calls, h⟩ := j.exists_callAll comparator t cs
  rw [h]

theorem rotations_callAll : (j.callAll comparator t cs).rotations = j.rotations := by
  obtain ⟨calls, h⟩ := j.exists_callAll comparator t cs
  rw [h]

end Journal

namespace Map

variable {κ ν : Type} {w : Workspace κ ν} {p : Path κ ν} {t : Tree κ ν} {s : κ}

/-- How the tags of cells compare with a given one in the order of the map. -/
def order (m : Map κ ν) (s : κ) (c : Cell κ ν) : Ordering :=
  c.compared (m.policy.comparator.compare s)

/-- The setting after a tag was looked for in a tree. -/
def afterSearch (w : Workspace κ ν) (s : κ) (t : Tree κ ν) : Workspace κ ν :=
  w.withJournal (w.journal.callAll w.map.policy.comparator s (t.visited (w.map.order s)))

@[simp] theorem map_afterSearch : (afterSearch w s t).map = w.map := rfl

@[simp] theorem clock_afterSearch : (afterSearch w s t).clock = w.clock := rfl

theorem released_afterSearch : (afterSearch w s t).journal.released = w.journal.released :=
  Journal.released_callAll ..

theorem yields_compareAt {l r : Tree κ ν} {k : Color} {c : Cell κ ν} {e : Entry κ ν}
    {post : Ordering → Workspace κ ν → Prop} (h : w.map.arena.Hangs none (p.plug (.node l k c r)))
    (he : c.entry = some e) : Yields (compareAt s c.id) w post ↔ post (w.map.order s c)
      (w.withJournal (w.journal.call w.map.policy.comparator s e.tag)) := by
  have hc : w.map.arena.get? c.id = _ := h.get?_join (s := .left)
  unfold compareAt
  rw [yields_bind, yields_look (Arena.tag_of_get? hc ((Cell.entry_node ..).trans he)),
    yields_compareTags, order, Cell.compared_of_entry he]

theorem yields_locateFrom {fuel : Nat} (h : w.map.arena.Hangs none (p.plug t)) (hfill : t.Filled)
    (hf : w.map.arena.slots.size < fuel + p.length) :
    Yields (locateFrom s fuel t.root?) w fun r w' =>
      r = (t.seek (w.map.order s) p).2.root? ∧ w' = afterSearch w s t := by
  induction t generalizing w p fuel with
  | nil => cases fuel <;> exact yields_pure.mpr ⟨rfl, rfl⟩
  | node l k c r ihl ihr =>
    obtain ⟨hl, hc, hr⟩ := Tree.filled_node.mp hfill
    obtain ⟨e, he⟩ := Option.isSome_iff_exists.mp hc
    have hlt := h.path_lt (n := c.id) rfl
    obtain ⟨fuel, rfl⟩ : ∃ f, fuel = f + 1 := ⟨fuel - 1, by omega⟩
    have hfuel (f : Frame κ ν) : w.map.arena.slots.size < fuel + (f :: p).length := by
      rw [List.length_cons]
      omega
    rw [Tree.root?_node, locateFrom, yields_bind, yields_compareAt h he]
    cases ho : w.map.order s c with
    | eq =>
      refine yields_pure.mpr ⟨by simp [Tree.seek, ho], ?_⟩
      simp [afterSearch, Tree.visited, ho, Journal.callAll, he]
    | lt =>
      simp only
      rw [yields_bind, yields_look (h.child rfl .left)]
      refine (ihl (w := w.withJournal (w.journal.call w.map.policy.comparator s e.tag))
        (p := ⟨.left, k, c, r⟩ :: p) h hl (hfuel _)).mono ?_
      rintro - - ⟨rfl, rfl⟩
      refine ⟨by simp [Tree.seek, ho], ?_⟩
      simp [afterSearch, Tree.visited, ho, Journal.callAll_cons _ _ he]
    | gt =>
      simp only
      rw [yields_bind, yields_look (h.child rfl .right)]
      refine (ihr (w := w.withJournal (w.journal.call w.map.policy.comparator s e.tag))
        (p := ⟨.right, k, c, l⟩ :: p) h hr (hfuel _)).mono ?_
      rintro - - ⟨rfl, rfl⟩
      refine ⟨by simp [Tree.seek, ho], ?_⟩
      simp [afterSearch, Tree.visited, ho, Journal.callAll_cons _ _ he]

theorem yields_locate (h : w.map.arena.Stands t) (hfill : t.Filled) :
    Yields (locate s) w fun r w' =>
      r = (t.seek (w.map.order s) []).2.root? ∧ w' = afterSearch w s t := by
  unfold locate
  rw [yields_bind, yields_look_pure, h.root]
  exact yields_locateFrom (p := []) h.links hfill (w.map.arena.size_lt_reach_add _)

/-- What a descent for placement answers, read off from where the search ends. -/
def landing (order : Cell κ ν → Ordering) : Path κ ν × Tree κ ν → Option (NodeId × Ordering)
  | (_, .node _ _ c _) => some (c.id, order c)
  | (f :: _, .nil) => some (f.cell.id, order f.cell)
  | ([], .nil) => none

theorem yields_nearestFrom {fuel : Nat} {n : NodeId} (h : w.map.arena.Hangs none (p.plug t))
    (hn : t.root? = some n) (hfill : t.Filled) (hf : w.map.arena.slots.size < fuel + p.length) :
    Yields (nearestFrom s fuel n) w fun r w' =>
      some r = landing (w.map.order s) (t.seek (w.map.order s) p) ∧ w' = afterSearch w s t := by
  induction fuel generalizing w p t n with
  | zero =>
    have := h.path_lt hn
    omega
  | succ fuel ih =>
    cases t with
    | nil => cases hn
    | node l k c r =>
    cases hn
    obtain ⟨hl, hc, hr⟩ := Tree.filled_node.mp hfill
    obtain ⟨e, he⟩ := Option.isSome_iff_exists.mp hc
    have hfuel (f : Frame κ ν) : w.map.arena.slots.size < fuel + (f :: p).length := by
      rw [List.length_cons]
      omega
    rw [nearestFrom, yields_bind, yields_compareAt h he]
    cases ho : w.map.order s c with
    | eq =>
      refine yields_pure.mpr ⟨by simp [Tree.seek, ho, landing], ?_⟩
      simp [afterSearch, Tree.visited, ho, Journal.callAll, he]
    | lt =>
      simp only [Side.ofOrdering?]
      rw [yields_bind, yields_look (h.child rfl .left)]
      simp only [Tree.child]
      cases hlr : l.root? with
      | none =>
        obtain rfl := Tree.root?_eq_none_iff.mp hlr
        refine yields_pure.mpr ⟨by simp [Tree.seek, ho, landing], ?_⟩
        simp [afterSearch, Tree.visited, ho, Journal.callAll, he]
      | some m =>
        simp only
        apply (ih (w := w.withJournal (w.journal.call w.map.policy.comparator s e.tag))
          (p := ⟨.left, k, c, r⟩ :: p) h hlr hl (hfuel _)).mono
        rintro d - ⟨hd, rfl⟩
        refine ⟨by simpa [Tree.seek, ho] using hd, ?_⟩
        simp [afterSearch, Tree.visited, ho, Journal.callAll_cons _ _ he]
    | gt =>
      simp only [Side.ofOrdering?]
      rw [yields_bind, yields_look (h.child rfl .right)]
      simp only [Tree.child]
      cases hrr : r.root? with
      | none =>
        obtain rfl := Tree.root?_eq_none_iff.mp hrr
        refine yields_pure.mpr ⟨by simp [Tree.seek, ho, landing], ?_⟩
        simp [afterSearch, Tree.visited, ho, Journal.callAll, he]
      | some m =>
        simp only
        apply (ih (w := w.withJournal (w.journal.call w.map.policy.comparator s e.tag))
          (p := ⟨.right, k, c, l⟩ :: p) h hrr hr (hfuel _)).mono
        rintro d - ⟨hd, rfl⟩
        refine ⟨by simpa [Tree.seek, ho] using hd, ?_⟩
        simp [afterSearch, Tree.visited, ho, Journal.callAll_cons _ _ he]

theorem yields_nearest (h : w.map.arena.Stands t) (hfill : t.Filled) :
    Yields (nearest s) w fun r w' =>
      r = landing (w.map.order s) (t.seek (w.map.order s) []) ∧ w' = afterSearch w s t := by
  unfold nearest
  rw [yields_bind, yields_look_pure, h.root]
  cases hn : t.root? with
  | none =>
    obtain rfl := Tree.root?_eq_none_iff.mp hn
    exact yields_pure.mpr ⟨rfl, rfl⟩
  | some n =>
    simp only
    rw [yields_bind]
    apply (yields_nearestFrom (p := []) h.links hn hfill (w.map.arena.size_lt_reach_add _)).mono
    rintro r - ⟨hr, rfl⟩
    exact yields_pure.mpr ⟨hr, rfl⟩

end Map
end OrderedMap
