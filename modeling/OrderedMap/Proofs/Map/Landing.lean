import OrderedMap.Proofs.Map.Search

/-!
Where the searches of a map end, and which way they go. A lookup and a descent for placement pass the
same nodes, each a child of the one before it, and the last one is that at which a placement lands.
There the lookup is successful, or else the side of the node is vacant on which the tag belongs.
-/
namespace OrderedMap

variable {κ ν : Type}

/-- Comparisons that were made are noted behind the earlier ones. -/
def Journal.addCalls (j : Journal κ ν) (calls : List (Call κ)) : Journal κ ν :=
  { j with calls := j.calls ++ calls.toArray }

/-- The tags of the cells that have entries. -/
def Cell.tags (cs : List (Cell κ ν)) : List κ := (cs.filterMap (·.entry)).map (·.tag)

theorem Cell.tags_cons {c : Cell κ ν} {e : Entry κ ν} (cs : List (Cell κ ν))
    (h : c.entry = some e) : tags (c :: cs) = e.tag :: tags cs := by
  rw [tags, List.filterMap_cons_some h]
  rfl

/-- The comparisons of a tag with others, one after the other. -/
def Comparator.callsWith (comparator : Comparator κ) (t : κ) (ts : List κ) : List (Call κ) :=
  ts.map fun s => ⟨comparator.isCustom, t, s⟩

theorem Journal.callAll_eq (comparator : Comparator κ) (t : κ) (cs : List (Cell κ ν))
    (j : Journal κ ν) :
    j.callAll comparator t cs = j.addCalls (comparator.callsWith t (Cell.tags cs)) := by
  unfold callAll Cell.tags Comparator.callsWith
  induction cs.filterMap (·.entry) generalizing j with
  | nil => simp [addCalls]
  | cons e es ih =>
    rw [List.foldl_cons, ih]
    simp [addCalls, call]

namespace Tree

variable {order : Cell κ ν → Ordering}

/-- A search of a tree ends in one of three ways: the tree is empty, the last cell that it visits
compares equal, or a child of the last cell is missing on the side on which it would go on. -/
theorem seek_cases (order : Cell κ ν → Ordering) (t : Tree κ ν) :
    (t = nil ∧ seek order [] t = ([], nil)) ∨
    (∃ q l k c r, t = q.plug (node l k c r) ∧ seek order [] t = (q, node l k c r) ∧
      order c = .eq) ∨
    ∃ f up, t = Path.plug (f :: up) nil ∧ seek order [] t = (f :: up, nil) ∧
      Side.ofOrdering? (order f.cell) = some f.side := by
  rcases hq : seek order [] t with ⟨q, u⟩
  have hplug := eq_plug_of_seek hq
  match q, u with
  | [], nil => exact .inl ⟨hplug, rfl⟩
  | q, node l k c r => exact .inr (.inl ⟨q, l, k, c, r, hplug, rfl, order_of_seek hq⟩)
  | f :: up, nil =>
    refine .inr (.inr ⟨f, up, hplug, rfl, ?_⟩)
    exact (side_of_seek hq (List.mem_cons_self ..)).resolve_left List.not_mem_nil

theorem visited_subset (order : Cell κ ν → Ordering) (t : Tree κ ν) :
    t.visited order ⊆ t.cells := by
  induction t with
  | nil => exact List.Subset.refl _
  | node l k c r ihl ihr =>
    intro d hd
    simp only [visited, cells, List.mem_cons, List.mem_append] at hd ⊢
    cases ho : order c <;> simp only [ho, List.not_mem_nil, or_false] at hd
    · exact hd.elim (fun e => .inr (.inl e)) fun hm => .inl (ihl hm)
    · exact .inr (.inl hd)
    · exact hd.elim (fun e => .inr (.inl e)) fun hm => .inr (.inr (ihr hm))

/-- A placement lands at the last cell that the search visits. -/
theorem landing_seek (order : Cell κ ν → Ordering) (p : Path κ ν) (t : Tree κ ν) :
    Map.landing order (t.seek order p) =
      ((t.visited order).getLast?.map fun c => (c.id, order c)).or (Map.landing order (p, nil)) := by
  induction t generalizing p with
  | nil => rfl
  | node l k c r ihl ihr =>
    cases ho : order c with
    | eq => simp [seek, visited, ho, Map.landing]
    | lt =>
      simp only [seek, visited, ho, ihl, List.getLast?_cons]
      cases (l.visited order).getLast? <;> rfl
    | gt =>
      simp only [seek, visited, ho, ihr, List.getLast?_cons]
      cases (r.visited order).getLast? <;> rfl

end Tree

namespace Arena

variable {a : Arena κ ν} {t : Tree κ ν}

/-- A node lands where it can be hung: a child is missing on the side on which the tag belongs. -/
theorem Stands.vacant (h : a.Stands t) {order : Cell κ ν → Ordering} {n : NodeId} {o : Ordering}
    {side : Side} (hl : Map.landing order (t.seek order []) = some (n, o))
    (hs : Side.ofOrdering? o = some side) : a.child side n = .ok none := by
  obtain ⟨-, hq⟩ | ⟨q, l, k, c, r, -, hq, ho⟩ | ⟨f, up, rfl, hq, ho⟩ := t.seek_cases order
  · rw [hq] at hl
    cases hl
  · rw [hq] at hl
    cases hl
    rw [ho] at hs
    cases hs
  · rw [hq] at hl
    cases hl
    obtain rfl : f.side = side := Option.some.inj (ho.symm.trans hs)
    have here : a.get? f.cell.id = _ := h.links.get?_join (p := up) (t := .nil)
    rw [child_of_get? _ here, Cell.child_node]
    rfl

/-- Only in an empty tree a search lands nowhere. -/
theorem Stands.landing_eq_none_iff (h : a.Stands t) {order : Cell κ ν → Ordering} :
    Map.landing order (t.seek order []) = none ↔ a.root = none := by
  rw [h.root, Tree.root?_eq_none_iff]
  obtain ⟨rfl, hq⟩ | ⟨q, l, k, c, r, rfl, hq, -⟩ | ⟨f, up, rfl, hq, -⟩ := t.seek_cases order
  · exact iff_of_true rfl rfl
  · rw [hq]
    refine iff_of_false (Option.some_ne_none _) fun e => ?_
    have := Path.cells_plug_perm q (.node l k c r)
    simp [e, Tree.cells] at this
  · rw [hq]
    refine iff_of_false (Option.some_ne_none _) fun e => ?_
    have := Path.cells_plug_perm (f :: up) .nil
    simp [e, Tree.cells, Path.cells] at this

/-- The tags of cells of the tree are read off the nodes. -/
theorem Stands.tags_eq (h : a.Stands t) (hfill : t.Filled) {cs : List (Cell κ ν)}
    (hcs : cs ⊆ t.cells) : (cs.map (·.id)).mapM a.tag = .ok (Cell.tags cs) := by
  induction cs with
  | nil => rfl
  | cons c cs ih =>
    have hc := hcs (List.mem_cons_self ..)
    obtain ⟨x, hx, -, hentry⟩ := h.links.get?_of_mem hc
    obtain ⟨e, he⟩ := Option.isSome_iff_exists.mp (hfill c hc)
    have rest := ih fun d hd => hcs (List.mem_cons_of_mem c hd)
    rw [List.map_cons, List.mapM_cons, tag_of_get? hx (hentry.trans he), rest,
      Cell.tags_cons cs he]
    rfl

end Arena

/-- A lookup finds a node exactly if a placement lands at it with an equal tag. -/
theorem Tree.root?_seek_iff {order : Cell κ ν → Ordering} (t : Tree κ ν) (n : NodeId) :
    (t.seek order []).2.root? = some n ↔
      Map.landing order (t.seek order []) = some (n, .eq) := by
  obtain ⟨-, hq⟩ | ⟨q, l, k, c, r, -, hq, ho⟩ | ⟨f, up, -, hq, ho⟩ := t.seek_cases order
  · rw [hq]
    exact iff_of_false (Option.some_ne_none _).symm (Option.some_ne_none _).symm
  · rw [hq]
    simp [Map.landing, ho]
  · rw [hq]
    refine iff_of_false (Option.some_ne_none _).symm fun e => ?_
    obtain ⟨-, he⟩ := Prod.mk.inj (Option.some.inj e)
    rw [he] at ho
    cases ho

end OrderedMap
