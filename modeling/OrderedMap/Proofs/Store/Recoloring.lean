import OrderedMap.Proofs.Arena.Ways
import OrderedMap.Proofs.Store.Rebalancing

/-!
How an insertion rebalances a map. The links of the map before the insertion tell which nodes are
above the place of a new one; the records tell how the redness climbs through them, and the black
height of the map grows exactly if it reaches the root.
-/
namespace OrderedMap

variable {κ ν : Type}

namespace Map

variable {m : Map κ ν} {w w₁ : Workspace κ ν} {t : Tree κ ν} {q : Path κ ν} {u : Tree κ ν}
  {xs ys : List (Item κ ν)} {tag : κ} {v : ν} {up : List NodeId} {n : Option NodeId} {H : Nat}
  {word : List Record}

/-- A search for the tag, which goes down as the comparator tells, passes the given nodes, the last
of them first, and arrives at the given link. -/
def Descends (m : Map κ ν) (tag : κ) : List NodeId → Option NodeId → Prop
  | [], n => m.arena.root = n
  | p :: up, n => (∃ e s, m.arena.entry p = .ok e ∧
      Side.ofOrdering? (m.compare tag e.tag) = some s ∧ m.arena.child s p = .ok n) ∧
      m.Descends tag up (some p)

theorem Descends.root (h : m.Descends tag up n) : up.getLast?.or n = m.arena.root := by
  induction up generalizing n with
  | nil => exact h.symm
  | cons p up ih =>
    have top := ih h.2
    cases hup : up.getLast? <;> simpa [List.getLast?_cons, hup] using top

theorem descends_of_plug (h : m.arena.Stands (q.plug u)) (hfill : (q.plug u).Filled)
    (hs : ∀ f ∈ q, Side.ofOrdering? (m.order tag f.cell) = some f.side) :
    m.Descends tag (q.map (·.cell.id)) u.root? := by
  induction q generalizing u with
  | nil => exact h.root
  | cons f up ih =>
    have here : m.arena.get? f.cell.id = _ := h.links.get?_join (p := up)
    obtain ⟨e, he⟩ : ∃ e, f.cell.entry = some e := by
      refine Option.isSome_iff_exists.mp (hfill f.cell ?_)
      refine (Path.cells_plug_perm (f :: up) u).mem_iff.mpr ?_
      simp [Path.cells]
    refine ⟨⟨e, f.side, Arena.entry_of_get? here ((Cell.entry_node ..).trans he), ?_, ?_⟩, ?_⟩
    · rw [← hs f (List.mem_cons_self ..), order, Cell.compared_of_entry he]
      rfl
    · rw [Arena.child_of_get? _ here, Cell.child_node]
    · have above := ih (u := .join f.side u f.color f.cell f.other) h hfill
        fun g hg => hs g (List.mem_cons_of_mem f hg)
      rwa [Tree.root?_join] at above

/-- What an insertion lets be observed is one word of records, and every rotation is recorded. A
value written over lets nothing be observed. For a new node the records tell how the redness climbs
through the nodes above it, past as many black ones at least as are recoloured. The black height of
a map that was not empty becomes higher by one if the root is recoloured last, and else stays. -/
structure Mends (w w₁ : Workspace κ ν) (tag : κ) (new : Bool) (word : List Record) : Prop where
  records : w₁.journal.records = w.journal.records ++ word.toArray
  rotations : w₁.journal.rotations = w.journal.rotations + Record.turns word
  atMost : Record.turns word ≤ 2
  silent : new = false → word = []
  climb : new = true → ∃ up atRoot, w.map.Descends tag up none ∧ w.map.arena.Ascends up ∧
    Repair.Climb up word atRoot ∧ Record.recolorings word ≤ w.map.arena.blacksAmong up
  height : 0 < w.map.count → ∃ r h h', w.map.arena.root = some r ∧ w.map.Measures h ∧
    w₁.map.Measures h' ∧ (word.getLast? = some (.recolored r) ∧ h' = h + 1 ∨
      word.getLast? ≠ some (.recolored r) ∧ h' = h)

theorem yields_insert_mends_new (h : w.map.Holds t xs) (hr : t.RedBlack H)
    (hq : t.seek (w.map.order tag) [] = (q, .nil)) :
    Yields (insert tag v) w fun new w₁ => new = true ∧ ∃ word, Mends w w₁ tag new word := by
  have hplug := Tree.eq_plug_of_seek hq
  obtain ⟨j, fits, hb, -⟩ := Path.redBlack_plug.mp (hplug ▸ hr)
  cases hb
  have missing : w.map.found? tag = none := by rw [h.found?_eq, hq]; rfl
  refine ((yields_insert_hung h.bears h.filled hq).and
    (yields_insert_new ⟨t, h⟩ missing)).mono ?_
  rintro - w₁ ⟨⟨rfl, hung⟩, -, ys, zs, -, -, -, becomes⟩
  obtain ⟨atRoot, climb, redBlack, recolorings, rotations⟩ := Path.settle_climb fits
    (t := Arena.leaf .red ⟨w.map.arena.nextId, w.clock, some ⟨tag, v⟩⟩) (.red .nil .nil rfl rfl) rfl
  have journal_eq := congrArg (·.journal) hung.eq
  have links : w.map.arena.Encloses q none := (Arena.hangs_plug.mp (hplug ▸ h.bears.hangs)).1
  have way := links.ascends
  have descends : w.map.Descends tag (q.map (·.cell.id)) none :=
    descends_of_plug (u := .nil) (hplug ▸ h.bears.stands) (hplug ▸ h.filled) fun f hf =>
      (Tree.side_of_seek hq hf).resolve_left (List.not_mem_nil)
  refine ⟨rfl, _, ⟨?_, ?_, climb.turns_le, nofun, fun _ => ⟨_, atRoot, descends, way, climb, ?_⟩,
    fun some_left => ?_⟩⟩
  · rw [journal_eq]
    exact congrArg (· ++ _) (Journal.records_callAll ..)
  · rw [journal_eq, ← rotations]
    exact congrArg (· + _) (Journal.rotations_callAll ..)
  · rwa [links.blacksAmong_eq]
  · have before := h.measures hr some_left
    have after := (Holds.of_bears becomes.lists hung.bears).measures redBlack (by
      rw [hung.eq]
      exact Nat.succ_pos _)
    obtain ⟨r, hroot, -⟩ := before.root
    have top : (q.map (·.cell.id)).getLast? = some r := by
      rw [← hroot, ← descends.root, Option.or_none]
    refine ⟨r, H, _, hroot, before, after, ?_⟩
    rw [ne_eq, climb.last_iff way.nodup top]
    cases atRoot
    · exact .inr ⟨nofun, rfl⟩
    · exact .inl ⟨rfl, rfl⟩

theorem yields_insert_mends_found {l r : Tree κ ν} {k : Color} {c : Cell κ ν}
    (h : w.map.Holds t xs) (hr : t.RedBlack H)
    (hq : t.seek (w.map.order tag) [] = (q, .node l k c r)) :
    Yields (insert tag v) w fun new w₁ => new = false ∧ Mends w w₁ tag new [] := by
  have hplug := Tree.eq_plug_of_seek hq
  obtain ⟨e, he⟩ := Option.isSome_iff_exists.mp (h.filled c (Tree.mem_cells_of_seek hq))
  have found : w.map.found? tag = some c.id := by rw [h.found?_eq, hq]; rfl
  refine ((yields_insert_over (s := .left) (v := v) h.bears h.filled hq he).and
    (yields_insert_found ⟨t, h⟩ found)).mono ?_
  rintro - w₁ ⟨⟨rfl, written⟩, -, becomes⟩
  have journal_eq := congrArg (·.journal) written.eq
  have silent (n : NodeId) : ([] : List Record).getLast? ≠ some (.recolored n) := by simp
  refine ⟨rfl, ⟨?_, ?_, Nat.zero_le 2, fun _ => rfl, fun new => ?_, fun some_left => ?_⟩⟩
  · rw [journal_eq]
    exact ((Journal.records_release ..).trans (Journal.records_callAll ..)).trans
      Array.append_empty.symm
  · rw [journal_eq]
    exact (Journal.rotations_release ..).trans (Journal.rotations_callAll ..)
  · cases new
  · have before := h.measures hr some_left
    have after := (Holds.of_bears becomes.lists written.bears).measures
      (Path.redBlack_plug_cell (hplug ▸ hr) _) (by
        rw [written.eq]
        exact some_left)
    obtain ⟨n, hroot, -⟩ := before.root
    exact ⟨n, H, H, hroot, before, after, .inr ⟨silent n, rfl⟩⟩

end Map

namespace Store

variable [EntrySize κ ν]

/-- Whatever the comparator, an insertion into any map that any run leaves rotates twice at most. If
the tag is there already, nothing is recorded and nothing is rotated. Otherwise the records tell how
the redness climbs: from grandparent to grandparent, each two levels above the one before, and then
there may be one rotation of the next grandparent, before which its child may be rotated. Exactly if
the last node recoloured is the root, the black height of a map that was not empty grows, by one. -/
theorem recoloring_after (ops : List (Op κ ν)) {k : Nat} {m : Map κ ν}
    (hm : (after ops ∅).map? k = some m) (tag : κ) (v : ν) (clock : Nat) (j : Journal κ ν) :
    ∃ w word, Map.insert tag v ⟨m, clock, j⟩ = .ok (m.found? tag).isNone w ∧
      Map.Mends ⟨m, clock, j⟩ w tag (m.found? tag).isNone word := by
  obtain ⟨xs, t, ht⟩ := (sound_after ops).lists m hm
  obtain ⟨H, hr⟩ := ht.redBlack
  have found := ht.found?_eq (s := tag)
  rcases hq : t.seek (m.order tag) [] with ⟨q, u⟩
  rw [hq] at found
  rw [found]
  cases u with
  | nil =>
    obtain ⟨new, w, he, rfl, word, mends⟩ :=
      Map.yields_insert_mends_new (w := ⟨m, clock, j⟩) (v := v) ht hr hq
    exact ⟨w, word, he, mends⟩
  | node l k c r =>
    obtain ⟨new, w, he, rfl, mends⟩ :=
      Map.yields_insert_mends_found (w := ⟨m, clock, j⟩) (v := v) ht hr hq
    exact ⟨w, [], he, mends⟩

/-- A map in which the node of tag 4 is red, and so are the children of the node of tag 8. -/
def thicket : List (Op Nat Nat) :=
  [.create .natural ([12, 4, 14, 2, 8, 6, 10].map fun i => (i, 0))]

/-- Below the node of tag 10 a new node makes the redness move up to the node of tag 8. This one has
a red parent on the other side and no red uncle, so both rotations follow. -/
theorem recoloring_after_thicket : ∃ m, (after thicket ∅).map? 0 = some m ∧
    ∃ w, Map.insert 9 0 ⟨m, 7, ∅⟩ = .ok true w ∧ Map.Mends ⟨m, 7, ∅⟩ w 9 true
      [.recolored ⟨4⟩, .innerRotation ⟨1⟩, .outerRotation ⟨0⟩] := by
  have there : ((after thicket ∅).map? 0).isSome := by decide +kernel
  have missing : ((after thicket ∅).map? 0).bind (·.found? 9) = none := by decide +kernel
  have recorded : ((after thicket ∅).map? 0).map (fun m => match Map.insert 9 0 ⟨m, 7, ∅⟩ with
      | .ok _ w => w.journal.records
      | .error _ _ => #[]) =
      some #[.recolored ⟨4⟩, .innerRotation ⟨1⟩, .outerRotation ⟨0⟩] := by
    decide +kernel
  obtain ⟨m, hm⟩ := Option.isSome_iff_exists.mp there
  rw [hm] at missing recorded
  obtain ⟨w, word, he, mends⟩ := recoloring_after thicket hm 9 0 7 ∅
  have new : (m.found? 9).isNone = true := Option.isNone_iff_eq_none.mpr missing
  rw [new] at he mends
  have records := Option.some.inj recorded
  simp only [he] at records
  have hword : #[] ++ word.toArray = #[.recolored ⟨4⟩, .innerRotation ⟨1⟩, .outerRotation ⟨0⟩] :=
    mends.records.symm.trans records
  obtain rfl : word = [.recolored ⟨4⟩, .innerRotation ⟨1⟩, .outerRotation ⟨0⟩] := by
    simpa using hword
  exact ⟨m, hm, w, he, mends⟩

end Store
end OrderedMap
