import OrderedMap.Proofs.Arena.Slots

/-!
An arena that bears one tree, or in which one tree is planted among whatever else is there. The links
of every node can be read off the tree and the path to the node, and a change of colour or entry in
place is the same change in the tree.
-/
namespace OrderedMap
namespace Arena

variable {κ ν : Type} {a a' : Arena κ ν} {p : Path κ ν} {t u : Tree κ ν} {n : NodeId}
  {ts : List (Tree κ ν)}

/-- The tree hangs from the root, and it has no slot twice. Trees that are set aside share none with
it. Of all other slots nothing is said. -/
structure Plants (a : Arena κ ν) (t : Tree κ ν) (ts : List (Tree κ ν) := []) : Prop where
  grove : a.Grove (t :: ts)
  root : a.root = t.root?

/-- The tree hangs from the root. It occupies all slots that are not vacant, but for those of trees
that are set aside during an edit. -/
structure Bears (a : Arena κ ν) (t : Tree κ ν) (ts : List (Tree κ ν) := []) : Prop where
  forest : a.Forest (t :: ts)
  root : a.root = t.root?

theorem Forest.get?_join {s : Side} {k : Color} {c : Cell κ ν} {ts : List (Tree κ ν)}
    (h : a.Forest (p.plug (.join s t k c u) :: ts)) :
    a.get? c.id = some (c.node p.above? k s t.root? u.root?) := h.head_hangs.get?_join

theorem ids_rewritten_perm (p : Path κ ν) (s : Side) (t u : Tree κ ν) (k j : Color) {c d : Cell κ ν}
    (ts : List (Tree κ ν)) (hd : d.id = c.id) :
    ((p.plug (.join s t j d u) :: ts).flatMap Tree.ids).Perm
      ((p.plug (.join s t k c u) :: ts).flatMap Tree.ids) := by
  refine List.perm_iff_count.mpr fun m => ?_
  simp only [List.flatMap_cons, List.count_append, Path.count_ids_plug, Tree.count_ids_join, hd]

/-- A node may be given another colour and another entry in place. -/
theorem Grove.yields_rewrite {s : Side} {k j : Color} {c d : Cell κ ν} {ts : List (Tree κ ν)}
    {f : Node κ ν → Node κ ν} (h : a.Grove (p.plug (.join s t k c u) :: ts)) (hd : d.id = c.id)
    (hf : f (c.node p.above? k s t.root? u.root?) = d.node p.above? j s t.root? u.root?) :
    Yields (alter c.id f) a fun _ a' => a'.Grove (p.plug (.join s t j d u) :: ts) ∧
      Keeps a a' ∧ a'.root = a.root ∧ AgreeOff a a' [c.id] := by
  obtain ⟨he, hj⟩ := hangs_plug.mp h.head_hangs
  obtain ⟨hc, ht, hu⟩ := hangs_join.mp hj
  have hnd := h.nodup_join
  simp only [List.nodup_append, List.nodup_cons, List.mem_append, List.mem_cons] at hnd
  rw [yields_alter hc, hf]
  have hk := Keeps.put (d.node p.above? j s t.root? u.root?) hc
  have off := (AgreeOff.refl a).put c.id (some (d.node p.above? j s t.root? u.root?))
  refine ⟨⟨?_, (ids_rewritten_perm _ _ _ _ k j _ hd).nodup_iff.mpr h.distinct⟩, hk, rfl, off⟩
  simp only [List.mem_cons, forall_eq_or_imp]
  refine ⟨hangs_plug.mpr ⟨off.encloses ?_ (by grind), hangs_join.mpr ⟨?_, ?_, ?_⟩⟩, ?_⟩
  · simpa [hd] using he
  · rw [hd]
    exact get?_put_self _ (lt_size_of_get? hc)
  · rw [hd]
    exact off.hangs ht (by grind)
  · rw [hd]
    exact off.hangs hu (by grind)
  · exact off.hangs_all h.tail_hangs (by grind)

theorem yields_rewrite {s : Side} {k j : Color} {c d : Cell κ ν} {ts : List (Tree κ ν)}
    {f : Node κ ν → Node κ ν} (h : a.Forest (p.plug (.join s t k c u) :: ts)) (hd : d.id = c.id)
    (hf : f (c.node p.above? k s t.root? u.root?) = d.node p.above? j s t.root? u.root?) :
    Yields (alter c.id f) a fun _ a' =>
      a'.Forest (p.plug (.join s t j d u) :: ts) ∧ Keeps a a' ∧ a'.root = a.root := by
  apply (h.grove.yields_rewrite hd hf).mono
  rintro - a' ⟨hg, hk, hroot, -⟩
  exact ⟨h.rebuild hk hg.hangs (ids_rewritten_perm _ _ _ _ k j _ hd), hk, hroot⟩

/-- Of the two links of a parent exactly one names the node. -/
theorem Grove.child_above {f : Frame κ ν} {up : Path κ ν} {ts : List (Tree κ ν)}
    (h : a.Grove (Path.plug (f :: up) t :: ts)) (hn : t.root? = some n) (s : Side) :
    ∃ r, a.child s f.cell.id = .ok r ∧ (r = some n ↔ f.side = s) :=
  h.head_hangs.child_above hn (Path.other_root?_ne h.head_nodup hn) s

theorem bears_empty : (∅ : Arena κ ν).Bears .nil := by
  have vacant (n : NodeId) : (∅ : Arena κ ν).get? n = none := rfl
  refine ⟨⟨by simp, by simp, fun n hn => ?_, List.nodup_nil, fun i => ?_⟩, rfl⟩
  · rw [vacant] at hn
    cases hn
  · simp [EmptyCollection.emptyCollection, Arena.empty]

namespace Plants

theorem hangs (h : a.Plants t ts) : a.Hangs none t := h.grove.head_hangs

theorem nodup (h : a.Plants t ts) : t.ids.Nodup := h.grove.head_nodup

theorem get? (h : a.Plants (p.plug t) ts) (hn : t.root? = some n) :
    ∃ x, a.get? n = some x ∧ x.parent = p.above? ∧ x.color = t.color ∧
      ∀ s, x.child s = (t.child s).root? := h.hangs.get? hn

theorem parent (h : a.Plants (p.plug t) ts) (hn : t.root? = some n) : a.parent n = .ok p.above? :=
  h.hangs.parent hn

theorem color (h : a.Plants (p.plug t) ts) (hn : t.root? = some n) : a.color n = .ok t.color :=
  h.hangs.color hn

theorem child (h : a.Plants (p.plug t) ts) (hn : t.root? = some n) (s : Side) :
    a.child s n = .ok (t.child s).root? := h.hangs.child hn s

theorem isRed (h : a.Plants (p.plug t) ts) :
    a.isRed t.root? = .ok (decide (t.color = .red)) := by
  cases hn : t.root? with
  | none =>
    obtain rfl := Tree.root?_eq_none_iff.mp hn
    rfl
  | some n =>
    obtain ⟨x, hx, -, hc, -⟩ := h.get? hn
    rw [isRed_of_get? hx, hc]

theorem child_above {f : Frame κ ν} {up : Path κ ν} (h : a.Plants (Path.plug (f :: up) t) ts)
    (hn : t.root? = some n) (s : Side) :
    ∃ r, a.child s f.cell.id = .ok r ∧ (r = some n ↔ f.side = s) := h.grove.child_above hn s

theorem hangingSide (h : a.Plants (p.plug t) ts) (hn : t.root? = some n) :
    a.hangingSide n = .ok (p.head?.map (·.side)) := by
  obtain ⟨x, hx, hp, -, -⟩ := h.get? hn
  cases p with
  | nil => exact hangingSide_of_root hx hp
  | cons f up =>
    obtain ⟨r, hr, hs⟩ := h.child_above hn .left
    obtain ⟨y, hy, -⟩ := Plants.get? (p := up) h (Tree.root?_join ..)
    rw [hangingSide_of_child hx hp hy]
    obtain rfl : y.left = r := by
      rw [child_of_get? .left hy] at hr
      exact Except.ok.inj hr
    cases hside : f.side <;> simp [hs, hside]

end Plants

namespace Bears

theorem plants (h : a.Bears t ts) : a.Plants t ts := ⟨h.forest.grove, h.root⟩

/-- After an edit of nodes that are there the arena bears the tree that is planted, if it has the same
cells. -/
theorem rebuild (h : a.Bears t ts) (hu : a'.Plants u ts) (hk : Keeps a a')
    (hc : u.cells = t.cells) : a'.Bears u ts := by
  refine ⟨h.forest.rebuild hk hu.grove.hangs (.append_right _ (.of_eq ?_)), hu.root⟩
  rw [Tree.ids, Tree.ids, hc]

/-- The same is true after an edit of slots, if it leaves those of other trees as they are. -/
theorem replant (h : a.Bears t ts) (hu : a'.Plants u ts) (hq : a'.Queues)
    (off : AgreeOff a a' t.ids) (hids : t.ids ⊆ u.ids) : a'.Bears u ts := by
  refine ⟨⟨hu.grove.hangs, hu.grove.distinct, fun n hn => ?_, hq.nodup, hq.mem_iff⟩, hu.root⟩
  by_cases hm : n ∈ t.ids
  · exact List.mem_append_left _ (hids hm)
  · rw [off n hm] at hn
    exact List.mem_append_right _ ((List.mem_append.mp (h.forest.occupied n hn)).resolve_left hm)

theorem hangs (h : a.Bears t ts) : a.Hangs none t := h.forest.head_hangs

theorem nodup (h : a.Bears t ts) : t.ids.Nodup := h.forest.head_nodup

theorem parent (h : a.Bears (p.plug t) ts) (hn : t.root? = some n) : a.parent n = .ok p.above? :=
  h.hangs.parent hn

theorem color (h : a.Bears (p.plug t) ts) (hn : t.root? = some n) : a.color n = .ok t.color :=
  h.hangs.color hn

theorem child (h : a.Bears (p.plug t) ts) (hn : t.root? = some n) (s : Side) :
    a.child s n = .ok (t.child s).root? := h.hangs.child hn s

theorem isRed (h : a.Bears (p.plug t) ts) : a.isRed t.root? = .ok (decide (t.color = .red)) :=
  h.plants.isRed

theorem hangingSide (h : a.Bears (p.plug t) ts) (hn : t.root? = some n) :
    a.hangingSide n = .ok (p.head?.map (·.side)) := h.plants.hangingSide hn

theorem length_lt_reach (h : a.Bears t ts) : t.cells.length < a.reach := by
  have := h.forest.size_slots
  simp only [List.flatMap_cons, List.length_append, Tree.ids, List.length_map] at this
  unfold reach
  omega

end Bears

theorem Plants.yields_paint (h : a.Plants (p.plug t) ts) (hn : t.root? = some n) (k : Color) :
    Yields (alter n (·.withColor k)) a fun _ a' =>
      a'.Plants (p.plug (t.paint k)) ts ∧ Keeps a a' ∧ AgreeOff a a' [n] := by
  cases t with
  | nil => cases hn
  | node l k' c r =>
    cases hn
    have hw := h.grove.yields_rewrite (j := k) (s := .left) (p := p) (f := (·.withColor k)) rfl
      (Cell.withColor_node ..)
    apply hw.mono
    rintro - a' ⟨hg, hk, hr, off⟩
    exact ⟨⟨hg, by rw [hr, h.root]; exact Path.root?_plug_congr p rfl⟩, hk, off⟩

theorem Grove.yields_hollow {l r : Tree κ ν} {k : Color} {c : Cell κ ν} {ts : List (Tree κ ν)}
    (h : a.Grove (p.plug (.node l k c r) :: ts)) : Yields (hollow c.id) a fun e a' =>
      e = c.entry ∧ a'.Grove (p.plug (.node l k { c with entry := none } r) :: ts) ∧
        Keeps a a' ∧ a'.root = a.root := by
  have hc : a.get? c.id = _ := h.head_hangs.get?_join (s := .left)
  unfold hollow
  rw [yields_bind, yields_inspect (node_of_get? hc), Cell.entry_node, yields_bind]
  have hw := h.yields_rewrite (d := { c with entry := none }) (j := k) (s := .left) (p := p)
    (f := (·.withEntry none)) rfl (Cell.withEntry_node ..)
  refine hw.mono ?_
  rintro - a' ⟨hf, hk, hr, -⟩
  exact yields_pure.mpr ⟨rfl, hf, hk, hr⟩

theorem yields_hollow {l r : Tree κ ν} {k : Color} {c : Cell κ ν} {ts : List (Tree κ ν)}
    (h : a.Forest (p.plug (.node l k c r) :: ts)) : Yields (hollow c.id) a fun e a' =>
      e = c.entry ∧ a'.Forest (p.plug (.node l k { c with entry := none } r) :: ts) ∧
        Keeps a a' ∧ a'.root = a.root := by
  apply h.grove.yields_hollow.mono
  rintro e a' ⟨he, hg, hk, hroot⟩
  have ids_perm := ids_rewritten_perm p .left l r k k (c := c) (d := { c with entry := none }) ts rfl
  exact ⟨he, h.rebuild hk hg.hangs ids_perm, hk, hroot⟩

theorem yields_replaceEntry {l r : Tree κ ν} {k : Color} {c : Cell κ ν} {e : Entry κ ν}
    (f : Entry κ ν → Entry κ ν) (h : a.Bears (p.plug (.node l k c r)) ts) (he : c.entry = some e) :
    Yields (replaceEntry c.id f) a fun old a' => old = e ∧
      a'.Bears (p.plug (.node l k { c with entry := some (f e) } r)) ts ∧ Keeps a a' := by
  have hc : a.get? c.id = _ := h.forest.get?_join (s := .left)
  unfold replaceEntry
  rw [yields_bind, yields_inspect (entry_of_get? hc ((Cell.entry_node ..).trans he)), yields_bind]
  have hw := yields_rewrite (d := { c with entry := some (f e) }) (j := k) (s := .left) (p := p)
    (f := (·.withEntry (some (f e)))) h.forest rfl (Cell.withEntry_node ..)
  refine hw.mono ?_
  rintro - a' ⟨hf, hk, hr⟩
  exact yields_pure.mpr ⟨rfl, ⟨hf, by rw [hr, h.root]; exact Path.root?_plug_congr p rfl⟩, hk⟩

end Arena
end OrderedMap
