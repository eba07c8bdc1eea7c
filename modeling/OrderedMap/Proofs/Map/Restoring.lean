import OrderedMap.Proofs.Arena.Pivot
import OrderedMap.Proofs.Map.Refilling
import OrderedMap.Proofs.Map.Settling
import OrderedMap.Proofs.Tree.Fitting
import OrderedMap.Store

/-!
The two repairs, on every tree that hangs together and keeps the rules but for the place where the
repair is called: a red node that may be the root or hang from a red one, or a side that lacks one
black node. What surrounds the place, and what is below it, is left open, and so are all slots that
are not in the tree.
-/
namespace OrderedMap
namespace Map

variable {κ ν : Type} {w w' : Workspace κ ν} {t t' : Tree κ ν} {n : NodeId} {s : Side} {H : Nat}
  {rs : List Record}

/-- A repair has put another tree in the place of one. It has the same nodes in the same order, with
the same stamps and entries; the same slots are occupied and the same are vacant. Nothing else has
changed, whatever the other slots hold, but for the journal, which goes on with the records and counts
the rotations they tell of. -/
structure Restores (w w' : Workspace κ ν) (t t' : Tree κ ν) (rs : List Record) : Prop where
  eq : w' = (w.withArena w'.map.arena).withJournal ⟨w.journal.records ++ rs.toArray,
    w.journal.calls, w.journal.released, w.journal.rotations + Record.turns rs⟩
  stands : w'.map.arena.Stands t'
  cells : t'.cells = t.cells
  keeps : Arena.Keeps w.map.arena w'.map.arena
  others : Arena.AgreeOff w.map.arena w'.map.arena t.ids

theorem Repaired.restores {x : Repair κ ν} (h : Repaired w w' x) (ht : w.map.arena.Plants t)
    (hr : x.rotations = Record.turns x.records) : Restores w w' t x.tree x.records := by
  obtain ⟨cells, others⟩ := h.of_plants ht
  refine ⟨?_, h.plants.stands, cells, h.keeps, others⟩
  rw [← hr]
  exact h.eq

/-- From any node of which one side lacks a black node, while all rules hold if that is made up for,
the repair of a short side succeeds and restores all rules. The height is as intended, or it is less
by one: exactly if the shortage has moved up through all nodes above and past the root. -/
theorem refill_restores (h : w.map.arena.Stands t) (hnd : t.ids.Nodup) (hn : n ∈ t.ids)
    (hs : t.Short n s H) : ∃ w' t' H' up rs past, refill n s w = .ok () w' ∧
      Restores w w' t t' rs ∧ t'.RedBlack H' ∧ H' + past.toNat = H ∧
      w.map.arena.Ascends (n :: up) ∧ Repair.Course (n :: up) rs past ∧
      (past = true ↔ rs = up.map .movedUp) := by
  obtain ⟨p, u, k, c, v, rfl, rfl⟩ := Path.exists_plug_join s hn
  let f : Frame κ ν := ⟨s, k, c, v⟩
  obtain ⟨black, j, balanced, fits⟩ := Tree.Short.fits (f := f) hs hnd
  obtain ⟨past, H', redBlack, height, course⟩ := Path.refill_course fits balanced black
  have planted : w.map.arena.Plants (Path.plug (f :: p) u) := h.plants hnd
  obtain ⟨⟨⟩, w', there, repaired⟩ := yields_refill planted
  have way := h.links.ascends (Tree.root?_join s u k c v)
  exact ⟨w', _, H', _, _, past, there,
    repaired.restores planted (Path.rotations_refill ..), redBlack, height, way,
    course, course.past_iff⟩

/-- The left side of the node of tag 1 lacks a black node. The shortage moves up to the root, below
which a red nephew makes up for it. -/
def stinted : Tree Nat Nat :=
  .node
    (.node .nil .black ⟨⟨1⟩, 1, some ⟨1, 10⟩⟩ (.node .nil .black ⟨⟨2⟩, 2, some ⟨2, 20⟩⟩ .nil))
    .black ⟨⟨0⟩, 0, some ⟨3, 30⟩⟩
    (.node (.node .nil .black ⟨⟨4⟩, 4, some ⟨4, 40⟩⟩ .nil) .black ⟨⟨3⟩, 3, some ⟨5, 50⟩⟩
      (.node (.node .nil .black ⟨⟨6⟩, 6, some ⟨6, 60⟩⟩ .nil) .red ⟨⟨5⟩, 5, some ⟨7, 70⟩⟩
        (.node .nil .black ⟨⟨7⟩, 7, some ⟨8, 80⟩⟩ .nil)))

def stintedArena : Arena Nat Nat :=
  ⟨#[some ⟨none, some ⟨1⟩, some ⟨3⟩, .black, 0, some ⟨3, 30⟩⟩,
    some ⟨some ⟨0⟩, none, some ⟨2⟩, .black, 1, some ⟨1, 10⟩⟩,
    some ⟨some ⟨1⟩, none, none, .black, 2, some ⟨2, 20⟩⟩,
    some ⟨some ⟨0⟩, some ⟨4⟩, some ⟨5⟩, .black, 3, some ⟨5, 50⟩⟩,
    some ⟨some ⟨3⟩, none, none, .black, 4, some ⟨4, 40⟩⟩,
    some ⟨some ⟨3⟩, some ⟨6⟩, some ⟨7⟩, .red, 5, some ⟨7, 70⟩⟩,
    some ⟨some ⟨5⟩, none, none, .black, 6, some ⟨6, 60⟩⟩,
    some ⟨some ⟨5⟩, none, none, .black, 7, some ⟨8, 80⟩⟩], [], some ⟨0⟩⟩

theorem refill_restores_stinted : ∃ w' t',
    refill ⟨1⟩ .left ⟨⟨⟨0⟩, stintedArena, 8, .natural⟩, 8, ∅⟩ = .ok () w' ∧
      Restores ⟨⟨⟨0⟩, stintedArena, 8, .natural⟩, 8, ∅⟩ w' stinted t'
        [.movedUp ⟨0⟩, .terminalRotation ⟨0⟩] ∧ t'.RedBlack 4 := by
  let w : Workspace Nat Nat := ⟨⟨⟨0⟩, stintedArena, 8, .natural⟩, 8, ∅⟩
  have stands : w.map.arena.Stands stinted := ⟨by simp [Arena.Hangs, stinted]; decide, rfl⟩
  have recorded : (Store.actOn w.map w.clock (refill ⟨1⟩ .left)).1.journal.records =
      #[.movedUp ⟨0⟩, .terminalRotation ⟨0⟩] := by decide +kernel
  obtain ⟨w', t', H', up, rs, past, there, restores, redBlack, height, -, -, climbed⟩ :=
    refill_restores stands (by decide) (n := ⟨1⟩) (s := .left) (H := 4) (by decide) (by decide)
  rw [Store.actOn, there] at recorded
  have journal := congrArg (·.journal.records) restores.eq
  have word : #[] ++ rs.toArray = #[.movedUp ⟨0⟩, .terminalRotation ⟨0⟩] :=
    journal.symm.trans recorded
  obtain rfl : rs = [.movedUp ⟨0⟩, .terminalRotation ⟨0⟩] := by simpa using word
  cases past with
  | false =>
    obtain rfl : H' = 4 := height
    exact ⟨w', t', there, restores, redBlack⟩
  | true =>
    have last : Record.terminalRotation ⟨0⟩ ∈ up.map .movedUp := by
      rw [← climbed.mp rfl]
      simp
    simp at last

/-- Above any red node, which may be the root or hang from a red node, the repair after an insertion
succeeds and restores all rules if all others hold. The height stays, or it grows by one: exactly if
the node is the root or the redness has moved up to the root at last, which is then painted black. -/
theorem settle_restores (h : w.map.arena.Stands t) (hnd : t.ids.Nodup) (hn : n ∈ t.ids)
    (hred : w.map.arena.color n = .ok .red) (hb : t.RedBut (some n)) (hl : t.Level H) :
    ∃ w' t' up rs r atRoot, settle n w = .ok () w' ∧ Restores w w' t t' rs ∧
      t'.RedBlack (H + atRoot.toNat) ∧ w.map.arena.Ascends (n :: up) ∧
      Repair.Climb up rs atRoot ∧ t.root? = some r ∧
      (atRoot = true ↔ r = n ∨ rs.getLast? = some (.recolored r)) := by
  obtain ⟨p, l, k, c, r, rfl, rfl⟩ := Path.exists_plug_join .left hn
  have hroot := Tree.root?_join .left l k c r
  rw [h.links.color hroot] at hred
  obtain ⟨j, balanced, fits⟩ := hb.fits hnd hroot hl
  obtain ⟨atRoot, climb, redBlack, -, rotations⟩ :=
    Path.settle_climb fits balanced (Except.ok.inj hred)
  have planted := h.plants hnd
  obtain ⟨⟨⟩, w', there, repaired⟩ := yields_settle planted hroot
  have way := h.links.ascends hroot
  obtain ⟨top, htop⟩ : ∃ top, (c.id :: p.map (·.cell.id)).getLast? = some top :=
    ⟨_, List.getLast?_cons⟩
  have root : (p.plug (.join .left l k c r)).root? = some top := by
    rw [← htop, Path.root?_plug, hroot, List.getLast?_cons, List.getLast?_map]
    cases p.getLast? <;> rfl
  exact ⟨w', _, _, _, top, atRoot, there, repaired.restores planted rotations,
    redBlack, way, climb, root, climb.atRoot_iff way.nodup htop⟩

/-- A red node hangs from a red one, with the uncle red too. The redness moves up to the root. -/
def flushed : Tree Nat Nat :=
  .node
    (.node (.node .nil .red ⟨⟨2⟩, 2, some ⟨1, 10⟩⟩ .nil) .red ⟨⟨1⟩, 1, some ⟨2, 20⟩⟩ .nil)
    .black ⟨⟨0⟩, 0, some ⟨3, 30⟩⟩ (.node .nil .red ⟨⟨3⟩, 3, some ⟨4, 40⟩⟩ .nil)

def flushedArena : Arena Nat Nat :=
  ⟨#[some ⟨none, some ⟨1⟩, some ⟨3⟩, .black, 0, some ⟨3, 30⟩⟩,
    some ⟨some ⟨0⟩, some ⟨2⟩, none, .red, 1, some ⟨2, 20⟩⟩,
    some ⟨some ⟨1⟩, none, none, .red, 2, some ⟨1, 10⟩⟩,
    some ⟨some ⟨0⟩, none, none, .red, 3, some ⟨4, 40⟩⟩], [], some ⟨0⟩⟩

theorem settle_restores_flushed : ∃ w' t',
    settle ⟨2⟩ ⟨⟨⟨0⟩, flushedArena, 4, .natural⟩, 4, ∅⟩ = .ok () w' ∧
      Restores ⟨⟨⟨0⟩, flushedArena, 4, .natural⟩, 4, ∅⟩ w' flushed t' [.recolored ⟨0⟩] ∧
      t'.RedBlack 3 := by
  let w : Workspace Nat Nat := ⟨⟨⟨0⟩, flushedArena, 4, .natural⟩, 4, ∅⟩
  have stands : w.map.arena.Stands flushed := ⟨by simp [Arena.Hangs, flushed]; decide, rfl⟩
  have recorded : (Store.actOn w.map w.clock (settle ⟨2⟩)).1.journal.records =
      #[.recolored ⟨0⟩] := by decide +kernel
  obtain ⟨w', t', up, rs, r, atRoot, there, restores, redBlack, -, -, root, reached⟩ :=
    settle_restores stands (by decide) (n := ⟨2⟩) (H := 2) (by decide) rfl (by decide) (by decide)
  rw [Store.actOn, there] at recorded
  have journal := congrArg (·.journal.records) restores.eq
  have word : #[] ++ rs.toArray = #[.recolored ⟨0⟩] := journal.symm.trans recorded
  obtain rfl : rs = [.recolored ⟨0⟩] := by simpa using word
  obtain rfl : ⟨0⟩ = r := Option.some.inj root
  obtain rfl : atRoot = true := reached.mpr (.inr rfl)
  exact ⟨w', t', there, restores, redBlack⟩

end Map
end OrderedMap
