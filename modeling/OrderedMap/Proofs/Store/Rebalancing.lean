import OrderedMap.Proofs.Map.Exact
import OrderedMap.Proofs.Store.WellFormed

/-!
How a removal rebalances a map. The links of the map before the removal tell at which place a node
is missed and which nodes are above it; from there the records follow the course of the shortage,
and the black height of the map becomes lower exactly if it moves past the root.
-/
namespace OrderedMap

variable {κ ν : Type}

namespace Arena

variable {a : Arena κ ν} {p q : Path κ ν} {l r u : Tree κ ν} {k k' : Color} {c d : Cell κ ν}

/-- To take out a node its own place is unhooked, or that of its predecessor if it has two children,
which then has traded places with it. The nodes above that place are given, the nearest first. -/
inductive Vacates (a : Arena κ ν) (n : NodeId) : NodeId → List NodeId → Prop
  | own {side : Side} {up : List NodeId} (missing : a.child side n = .ok none)
      (way : a.Ascends (n :: up)) : Vacates a n n up
  | lent {l r d : NodeId} {below above : List NodeId} (left : a.child .left n = .ok (some l))
      (right : a.child .right n = .ok (some r)) (before : a.neighbour .left n = .ok (some d))
      (way : a.Ascends (d :: (below ++ n :: above))) : Vacates a n d (below ++ d :: above)

/-- The node is red or has a red child. -/
def Spares (a : Arena κ ν) (n : NodeId) : Prop :=
  a.color n = .ok .red ∨ ∃ s m, a.child s n = .ok (some m) ∧ a.color m = .ok .red

theorem spares_iff (h : a.Hangs none (p.plug (.node l k c r))) :
    a.Spares c.id ↔ k = .red ∨ l.color = .red ∨ r.color = .red := by
  have own : a.color c.id = .ok k := h.color rfl
  have children (s : Side) : (∃ m, a.child s c.id = .ok (some m) ∧ a.color m = .ok .red) ↔
      ((Tree.node l k c r).child s).color = .red := by
    obtain ⟨f, hf⟩ : ∃ f : Frame κ ν, p.plug (.node l k c r) =
        Path.plug (f :: p) ((Tree.node l k c r).child s) := by
      cases s with
      | left => exact ⟨⟨.left, k, c, r⟩, rfl⟩
      | right => exact ⟨⟨.right, k, c, l⟩, rfl⟩
    have below := h
    rw [hf] at below
    rw [h.child rfl s]
    constructor
    · rintro ⟨m, hm, hred⟩
      rw [below.color (Except.ok.inj hm)] at hred
      exact Except.ok.inj hred
    · intro hred
      have hne : (Tree.node l k c r).child s ≠ .nil := fun e => by
        rw [e] at hred
        cases hred
      obtain ⟨m, hm⟩ := Option.ne_none_iff_exists'.mp (mt Tree.root?_eq_none_iff.mp hne)
      exact ⟨m, by rw [hm], by rw [below.color hm, hred]⟩
  rw [Spares, own]
  constructor
  · rintro (hk | ⟨s, hs⟩)
    · exact .inl (Except.ok.inj hk)
    · cases s with
      | left => exact .inr (.inl ((children .left).mp hs))
      | right => exact .inr (.inr ((children .right).mp hs))
  · rintro (rfl | hl | hr)
    · exact .inl rfl
    · exact .inr ⟨.left, (children .left).mpr hl⟩
    · exact .inr ⟨.right, (children .right).mpr hr⟩

theorem vacates_narrow (h : a.Hangs none (p.plug (.node l k c r))) (hlr : l = .nil ∨ r = .nil) :
    a.Vacates c.id c.id (p.map (·.cell.id)) := by
  have way : a.Ascends (c.id :: p.map (·.cell.id)) := h.ascends rfl
  rcases hlr with rfl | rfl
  · have missing : a.child .left c.id = .ok none := h.child rfl .left
    exact .own missing way
  · have missing : a.child .right c.id = .ok none := h.child rfl .right
    exact .own missing way

theorem vacates_wide (h : a.Bears (p.plug (.node (q.plug (.node u k' d .nil)) k c r)))
    (hcells : (q.plug (.node u k' d .nil)).cells = (q.plug u).cells ++ [d]) (hr : r ≠ .nil) :
    a.Vacates c.id d.id ((q ++ ⟨.left, k, d, r⟩ :: p).map (·.cell.id)) := by
  obtain ⟨m, hm⟩ : ∃ m, (q.plug (.node u k' d .nil)).root? = some m := by
    refine Option.ne_none_iff_exists'.mp fun e => ?_
    rw [Tree.root?_eq_none_iff.mp e] at hcells
    simp at hcells
  obtain ⟨n, hn⟩ := Option.ne_none_iff_exists'.mp (mt Tree.root?_eq_none_iff.mp hr)
  have left := h.hangs.child rfl .left
  have right := h.hangs.child rfl .right
  simp only [Tree.child, hm, hn] at left right
  have before : a.neighbour .left c.id = .ok (some d.id) := by
    have ht := Path.toward_plug .left p (.node (q.plug (.node u k' d .nil)) k c r)
    simp only [Tree.toward, Tree.cells, hcells, List.reverse_append, List.reverse_cons,
      List.append_assoc, List.nil_append, List.cons_append] at ht
    rw [← List.append_assoc] at ht
    rw [neighbour_eq (s := .left) h ht]
    rfl
  have way : a.Ascends (d.id :: (q ++ ⟨.left, k, c, r⟩ :: p).map (·.cell.id)) := by
    have deep : p.plug (.node (q.plug (.node u k' d .nil)) k c r) =
        Path.plug (q ++ ⟨.left, k, c, r⟩ :: p) (.node u k' d .nil) := by
      rw [Path.plug_append]
      rfl
    exact Hangs.ascends (deep ▸ h.hangs) rfl
  rw [List.map_append] at way ⊢
  exact .lent left right before way

end Arena

namespace Map

variable {m : Map κ ν} {w w₁ : Workspace κ ν} {t : Tree κ ν} {xs ys : List (Item κ ν)}
  {x : Item κ ν} {H : Nat}

/-- The black height of the root is the given one. The self check computes it, and reports it unless
items are out of order. -/
structure Measures (m : Map κ ν) (h : Nat) : Prop where
  root : ∃ n, m.arena.root = some n ∧ (m.arena.auditShape n).run = .ok (.ok h)
  audit : ∀ clock j, ∃ w, Map.audit ⟨m, clock, j⟩ = .ok (m.verdict h m.items) w

theorem Holds.measures (h : m.Holds t xs) (hr : t.RedBlack H) (hn : 0 < m.count) :
    m.Measures H := by
  have hne : t ≠ .nil := by
    rintro rfl
    have none_left := h.cells
    rw [Tree.cells_nil, eq_comm, List.map_eq_nil_iff] at none_left
    rw [h.count, none_left] at hn
    cases hn
  obtain ⟨n, hroot⟩ := Option.ne_none_iff_exists'.mp (mt Tree.root?_eq_none_iff.mp hne)
  have fresh : ∀ us vs, xs = us ++ vs → Rises m.compare us → (us.map (·.node)).Nodup := by
    intro us vs hx _
    have hnd := h.nodup
    rw [hx, List.map_append] at hnd
    exact (List.nodup_append.mp hnd).1
  refine ⟨⟨n, h.bears.root.trans hroot, Arena.auditShape_eq h.bears.stands hroot h.filled hr⟩,
    fun clock j => ?_⟩
  obtain ⟨v, w, he, rfl, -⟩ := yields_audit_presents (w := ⟨m, clock, j⟩) h.presents hne hr fresh
  rw [h.items_eq]
  exact ⟨w, he⟩

/-- What a removal lets be observed is one word of records. Nothing is recorded where nothing is
short; otherwise the records follow the course of the shortage through the given nodes. Every
rotation is recorded, and there are three at most. -/
structure Rebalances (w w₁ : Workspace κ ν) (spared : Prop) (up : List NodeId)
    (word : List Record) (past : Bool) : Prop where
  records : w₁.journal.records = w.journal.records ++ word.toArray
  rotations : w₁.journal.rotations = w.journal.rotations + Record.turns word
  atMost : Record.turns word ≤ 3
  silent : spared → word = [] ∧ past = false
  course : ¬spared → Repair.Course up word past

/-- The place of a node with one subtree at most is unhooked. -/
theorem Wrought.rebalances {p : Path κ ν} {s : Side} {k : Color} {c : Cell κ ν} {u : Tree κ ν}
    {n clock size : Nat} {free : List Nat}
    (hw : Wrought w w₁ (p.unhook k u).tree n clock ((p.unhook k u).onto w.journal) free size)
    (hr : (p.plug (.join s u k c .nil)).RedBlack H) (hl : w₁.map.Lists ys) {spared : Prop}
    (hs : spared ↔ k = .red ∨ u.color = .red) :
    ∃ word past, Rebalances w w₁ spared (p.map (·.cell.id)) word past ∧
      (0 < w₁.map.count → ∃ h', w₁.map.Measures h' ∧ h' + past.toNat = H) := by
  obtain ⟨past, H', hr', hH, silent, course⟩ := Path.unhook_course hr
  have journal_eq : w₁.journal = (p.unhook k u).onto w.journal := congrArg (·.journal) hw.eq
  refine ⟨(p.unhook k u).records, past, ⟨?_, ?_, ?_, fun h => silent (hs.mp h),
    fun h => course (mt hs.mpr h)⟩, fun hn => ⟨H', ?_, hH⟩⟩
  · rw [journal_eq]
    rfl
  · rw [journal_eq, ← Path.rotations_unhook]
    rfl
  · by_cases h : k = .red ∨ u.color = .red
    · rw [(silent h).1]
      exact Nat.zero_le 3
    · exact (course h).turns_le
  · exact (Holds.of_bears hl hw.bears).measures hr' hn

theorem yields_takeOut_rebalances (h : w.map.Holds t xs) (hr : t.RedBlack H) (hx : x ∈ xs) :
    Yields (takeOut x.node) w fun e w₁ => e = x.entry ∧ ∃ spot up word past,
      w.map.arena.Vacates x.node spot up ∧
      Rebalances w w₁ (w.map.arena.Spares spot) up word past ∧
      (0 < w₁.map.count → ∃ h', w₁.map.Measures h' ∧ h' + past.toNat = H) := by
  obtain ⟨p, l, k, r, rfl⟩ := h.exists_plug hx
  obtain ⟨n, hn⟩ : ∃ n, w.map.count = n + 1 := by
    rw [h.count]
    exact Nat.exists_eq_succ_of_ne_zero (List.length_pos_of_mem hx).ne'
  by_cases hlr : l = .nil ∨ r = .nil
  · have hnode := (node_eq_join_onlySide (k := k) (c := x.cell) hlr).1
    have taken := yields_takeOut_narrow (s := .left) (e := x.entry) h.bears hlr rfl hn
    refine (taken.and (yields_takeOut ⟨_, h⟩ hx)).mono ?_
    intro e w₁ both
    obtain ⟨⟨he, hw⟩, -, hl⟩ := both
    have spared : w.map.arena.Spares x.node ↔ k = .red ∨ (onlyChild l r).color = .red := by
      have children : l.color = .red ∨ r.color = .red ↔ (onlyChild l r).color = .red := by
        rcases hlr with rfl | rfl
        · simp [onlyChild]
        · cases l <;> simp [onlyChild]
      exact (Arena.spares_iff (c := x.cell) h.bears.hangs).trans (or_congr_right children)
    rw [hnode] at hr
    obtain ⟨word, past, hreb, hheight⟩ := hw.rebalances hr hl.lists spared
    exact ⟨he, x.node, _, word, past, Arena.vacates_narrow h.bears.hangs hlr, hreb, hheight⟩
  · obtain ⟨hl', hrr⟩ := not_or.mp hlr
    obtain ⟨q, k', d, u, rfl, hcells⟩ := Path.exists_last hl'
    have taken := yields_takeOut_wide (e := x.entry) h.bears hcells hrr rfl hn
    refine (taken.and (yields_takeOut ⟨_, h⟩ hx)).mono ?_
    intro e w₁ both
    obtain ⟨⟨he, hw⟩, -, hl⟩ := both
    have deep : p.plug (.node (q.plug (.node u k' d .nil)) k x.cell r) =
        Path.plug (q ++ ⟨.left, k, x.cell, r⟩ :: p) (.node u k' d .nil) := by
      rw [Path.plug_append]
      rfl
    have spared : w.map.arena.Spares d.id ↔ k' = .red ∨ u.color = .red := by
      rw [Arena.spares_iff (deep ▸ h.bears.hangs)]
      simp
    obtain ⟨word, past, hreb, hheight⟩ :=
      hw.rebalances (s := .left) (Path.exchanged_redBlack hr) hl.lists spared
    exact ⟨he, d.id, _, word, past, Arena.vacates_wide h.bears hcells hrr, hreb, hheight⟩

end Map

namespace Store

variable [EntrySize κ ν]

/-- Whatever the comparator, every removal of an entry of any map that any run leaves rotates three
times at most, and all that it records is the course of the shortage. From the place unhooked the
shortage moves up from parent to parent. It ends with a red parent that absorbs it, or with a last
rotation; only then a sibling may have been red, and a near nephew may have been brought up. Or it
moves past the root, and only then the black height of a map that is not empty becomes lower, by
one. If a red node or a red child is unhooked, nothing is recorded and nothing is rotated. -/
theorem rebalancing_after (ops : List (Op κ ν)) {k : Nat} {m : Map κ ν}
    (hm : (after ops ∅).map? k = some m) {x : Item κ ν} (hx : x ∈ m.items) (clock : Nat)
    (j : Journal κ ν) : ∃ w spot up word past,
    Map.takeOut x.node ⟨m, clock, j⟩ = .ok x.entry w ∧ m.arena.Vacates x.node spot up ∧
    Map.Rebalances ⟨m, clock, j⟩ w (m.arena.Spares spot) up word past ∧
    ∃ h, m.Measures h ∧ (0 < w.map.count → ∃ h', w.map.Measures h' ∧ h' + past.toNat = h) := by
  obtain ⟨xs, t, ht⟩ := (sound_after ops).lists m hm
  rw [ht.items_eq] at hx
  obtain ⟨h, hr⟩ := ht.redBlack
  have some_left : 0 < m.count := ht.count ▸ List.length_pos_of_mem hx
  obtain ⟨e, w, he, rfl, spot, up, word, past, vacates, rebalances, height⟩ :=
    Map.yields_takeOut_rebalances (w := ⟨m, clock, j⟩) ht hr hx
  exact ⟨w, spot, up, word, past, he, vacates, rebalances, h, ht.measures hr some_left, height⟩

/-- A map with fourteen entries, stored in order. -/
def row : List (Op Nat Nat) := [.create .natural ((List.range 14).map fun i => (i + 1, 0))]

/-- The node of tag 4 has two children. Its predecessor, a black leaf in the place of which the
shortage begins, is among the ancestors from then on; the shortage ends below it. -/
theorem rebalancing_after_row : ∃ m, (after row ∅).map? 0 = some m ∧
    ∃ w spot up past, Map.takeOut ⟨3⟩ ⟨m, 14, ∅⟩ = .ok ⟨4, 0⟩ w ∧ m.arena.Vacates ⟨3⟩ spot up ∧
      Map.Rebalances ⟨m, 14, ∅⟩ w (m.arena.Spares spot) up
        [.movedUp ⟨2⟩, .redSibling ⟨7⟩, .absorbed ⟨2⟩] past := by
  have there : ((after row ∅).map? 0).isSome := by decide +kernel
  have listed : ((after row ∅).map? 0).bind (·.items[3]?) = some ⟨⟨3⟩, 3, ⟨4, 0⟩⟩ := by
    decide +kernel
  have recorded : ((after row ∅).map? 0).map (fun m => match Map.takeOut ⟨3⟩ ⟨m, 14, ∅⟩ with
      | .ok _ w => w.journal.records
      | .error _ _ => #[]) = some #[.movedUp ⟨2⟩, .redSibling ⟨7⟩, .absorbed ⟨2⟩] := by
    decide +kernel
  obtain ⟨m, hm⟩ := Option.isSome_iff_exists.mp there
  rw [hm] at listed recorded
  have hx : (⟨⟨3⟩, 3, ⟨4, 0⟩⟩ : Item Nat Nat) ∈ m.items := List.mem_of_getElem? listed
  obtain ⟨w, spot, up, word, past, he, vacates, rebalances, -⟩ := rebalancing_after row hm hx 14 ∅
  have taken : Map.takeOut ⟨3⟩ ⟨m, 14, ∅⟩ = .ok ⟨4, 0⟩ w := he
  have records := Option.some.inj recorded
  simp only [taken] at records
  have hword : #[] ++ word.toArray = #[.movedUp ⟨2⟩, .redSibling ⟨7⟩, .absorbed ⟨2⟩] :=
    rebalances.records.symm.trans records
  obtain rfl : word = [.movedUp ⟨2⟩, .redSibling ⟨7⟩, .absorbed ⟨2⟩] := by simpa using hword
  exact ⟨m, hm, w, spot, up, past, taken, vacates, rebalances⟩

end Store
end OrderedMap
