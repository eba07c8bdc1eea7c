import OrderedMap.Proofs.Map.Search
import OrderedMap.Proofs.Map.Settling

/-!
Putting an entry into the tree. Where the search ends at a node, the entry there is written over;
where it ends at a missing node, a red leaf is hung there and the colours above it are repaired.
-/
namespace OrderedMap
namespace Map

variable {κ ν : Type} {w : Workspace κ ν} {t : Tree κ ν} {q : Path κ ν} {s : κ} {v : ν}

/-- A leaf was hung at the end of a path and the tree repaired above it; one stamp was drawn. -/
structure Hung (w w' : Workspace κ ν) (q : Path κ ν) (c : Cell κ ν) : Prop where
  eq : w' = ((w.withArena w'.map.arena).withClock (w.clock + 1)).withJournal
    ((q.settle (Arena.leaf .red c)).onto w.journal)
  bears : w'.map.arena.Bears (q.settle (Arena.leaf .red c)).tree
  size : w'.map.arena.slots.size = w.map.arena.nextSize
  free : w'.map.arena.free = w.map.arena.free.tail

theorem yields_hangRoot (h : w.map.arena.Bears (.nil : Tree κ ν)) (e : Entry κ ν) :
    Yields (do
      let n ← allocate (some e) .red
      edit (Arena.setRoot (some n))
      settle n
      return (n, true)) w fun r w' => r = (w.map.arena.nextId, true) ∧
        Hung w w' [] ⟨w.map.arena.nextId, w.clock, some e⟩ := by
  unfold allocate
  rw [yields_bind, yields_bind, yields_drawStamp, yields_edit]
  apply (Arena.yields_allocate h.forest _ _ _).mono
  rintro - a₁ ⟨rfl, h₁, -, f₁, s₁⟩
  rw [yields_bind, yields_edit, Arena.yields_setRoot, yields_bind]
  have h₂ := (Arena.Forest.nil_cons.mp (h₁.perm (.swap ..))).with_root (some w.map.arena.nextId)
  have b₂ : ((((w.withClock (w.clock + 1)).withArena a₁).withArena
      { a₁ with root := some w.map.arena.nextId })).map.arena.Bears
      (Path.plug [] (Arena.leaf .red ⟨w.map.arena.nextId, w.clock, some e⟩)) := ⟨h₂, rfl⟩
  apply (yields_settle b₂.plants rfl).mono
  intro _ w₃ r₃
  exact yields_pure.mpr
    ⟨rfl, r₃.eq, r₃.bears b₂, r₃.keeps.size.trans s₁, r₃.keeps.free.trans f₁⟩

theorem yields_hangBelow (f : Frame κ ν) (up : Path κ ν)
    (h : w.map.arena.Bears (Path.plug (f :: up) .nil)) (e : Entry κ ν) :
    Yields (do
      let n ← allocate (some e) .red
      edit (Arena.attach f.side f.cell.id n)
      settle n
      return (n, true)) w fun r w' => r = (w.map.arena.nextId, true) ∧
        Hung w w' (f :: up) ⟨w.map.arena.nextId, w.clock, some e⟩ := by
  unfold allocate
  rw [yields_bind, yields_bind, yields_drawStamp, yields_edit]
  apply (Arena.yields_allocate h.forest _ _ _).mono
  rintro - a₁ ⟨rfl, h₁, r₁, f₁, s₁⟩
  rw [yields_bind, yields_edit]
  apply (Arena.yields_attach (h₁.perm (.swap ..)) rfl).mono
  rintro - a₂ ⟨h₂, k₂, r₂⟩
  rw [yields_bind]
  have b₂ : ((((w.withClock (w.clock + 1)).withArena a₁).withArena a₂)).map.arena.Bears
      (Path.plug (f :: up) (Arena.leaf .red ⟨w.map.arena.nextId, w.clock, some e⟩)) := by
    refine ⟨h₂, ?_⟩
    change a₂.root = _
    rw [r₂]
    rw [r₁]
    exact h.root.trans (Path.root?_plug_congr up (by simp))
  apply (yields_settle b₂.plants rfl).mono
  intro _ w₃ r₃
  exact yields_pure.mpr ⟨rfl, r₃.eq, r₃.bears b₂, (r₃.keeps.size.trans k₂.size).trans s₁,
    (r₃.keeps.free.trans k₂.free).trans f₁⟩

/-- A tag that is not found is placed in a new node, where the search ended. -/
theorem yields_place_new (h : w.map.arena.Bears t) (hfill : t.Filled)
    (hq : t.seek (w.map.order s) [] = (q, .nil)) : Yields (place s v) w fun r w' =>
      r = (w.map.arena.nextId, true) ∧
        Hung (afterSearch w s t) w' q ⟨w.map.arena.nextId, w.clock, some ⟨s, v⟩⟩ := by
  have hplug := Tree.eq_plug_of_seek hq
  unfold place
  rw [yields_bind]
  apply (yields_nearest h.stands hfill).mono
  rintro r - ⟨rfl, rfl⟩
  rw [hq]
  cases q with
  | nil =>
    obtain rfl : t = .nil := hplug
    exact yields_hangRoot (w := afterSearch w s .nil) h ⟨s, v⟩
  | cons f up =>
    have ho : Side.ofOrdering? (w.map.order s f.cell) = some f.side :=
      (Tree.side_of_seek hq (List.mem_cons_self ..)).resolve_left (by simp)
    simp only [landing, ho]
    exact yields_hangBelow (w := afterSearch w s t) f up (by rwa [← hplug]) ⟨s, v⟩

/-- The entry with an equal tag is written over, and the former one is released. -/
theorem yields_place_found {l r : Tree κ ν} {k : Color} {c : Cell κ ν} {e : Entry κ ν}
    (h : w.map.arena.Bears t) (hfill : t.Filled)
    (hq : t.seek (w.map.order s) [] = (q, .node l k c r)) (he : c.entry = some e) :
    Yields (place s v) w fun x w' => x = (c.id, false) ∧
      w' = (w.withArena w'.map.arena).withJournal
        ((afterSearch w s t).journal.release w.map.policy e) ∧
      w'.map.arena.Bears (q.plug (.node l k { c with entry := some ⟨s, v⟩ } r)) ∧
      Arena.Keeps w.map.arena w'.map.arena := by
  have hplug := Tree.eq_plug_of_seek hq
  have ho := Tree.order_of_seek hq
  unfold place
  rw [yields_bind]
  apply (yields_nearest h.stands hfill).mono
  rintro r - ⟨rfl, rfl⟩
  rw [hq]
  simp only [landing, ho, Side.ofOrdering?]
  rw [yields_bind, yields_edit]
  apply (Arena.yields_replaceEntry (p := q) (fun _ => ⟨s, v⟩) (by rwa [← hplug]) he).mono
  rintro - a' ⟨rfl, b', k'⟩
  rw [yields_bind, yields_releaseTag, yields_bind, yields_releaseValue]
  exact yields_pure.mpr ⟨rfl, rfl, b', k'⟩

end Map
end OrderedMap
