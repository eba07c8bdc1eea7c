import OrderedMap.Map.Workspace
import OrderedMap.Proofs.Arena.Ascent
import OrderedMap.Proofs.Arena.Emptying
import OrderedMap.Proofs.Arena.Turn
import OrderedMap.Proofs.Tree.Settle

/-!
Actions in their setting. Each primitive touches one part of the setting and leaves the rest as it
is. A repair changes the tree and goes on with the journal; repairs compose.
-/
namespace OrderedMap

namespace Workspace

variable {κ ν : Type}

def withArena (a : Arena κ ν) (w : Workspace κ ν) : Workspace κ ν :=
  { w with map := { w.map with arena := a } }

def withCount (n : Nat) (w : Workspace κ ν) : Workspace κ ν :=
  { w with map := { w.map with count := n } }

def withClock (n : Nat) (w : Workspace κ ν) : Workspace κ ν := { w with clock := n }

def withJournal (j : Journal κ ν) (w : Workspace κ ν) : Workspace κ ν := { w with journal := j }

section Parts

variable (w : Workspace κ ν) (a b : Arena κ ν) (i j : Journal κ ν) (n m : Nat)

@[simp] theorem arena_withArena : (w.withArena a).map.arena = a := rfl
@[simp] theorem id_withArena : (w.withArena a).map.id = w.map.id := rfl
@[simp] theorem count_withArena : (w.withArena a).map.count = w.map.count := rfl
@[simp] theorem policy_withArena : (w.withArena a).map.policy = w.map.policy := rfl
@[simp] theorem clock_withArena : (w.withArena a).clock = w.clock := rfl
@[simp] theorem journal_withArena : (w.withArena a).journal = w.journal := rfl
@[simp] theorem withArena_withArena : (w.withArena a).withArena b = w.withArena b := rfl
@[simp] theorem withArena_self : w.withArena w.map.arena = w := rfl

@[simp] theorem arena_withCount : (w.withCount n).map.arena = w.map.arena := rfl
@[simp] theorem id_withCount : (w.withCount n).map.id = w.map.id := rfl
@[simp] theorem count_withCount : (w.withCount n).map.count = n := rfl
@[simp] theorem policy_withCount : (w.withCount n).map.policy = w.map.policy := rfl
@[simp] theorem clock_withCount : (w.withCount n).clock = w.clock := rfl
@[simp] theorem journal_withCount : (w.withCount n).journal = w.journal := rfl

@[simp] theorem map_withClock : (w.withClock n).map = w.map := rfl
@[simp] theorem clock_withClock : (w.withClock n).clock = n := rfl
@[simp] theorem journal_withClock : (w.withClock n).journal = w.journal := rfl

@[simp] theorem map_withJournal : (w.withJournal j).map = w.map := rfl
@[simp] theorem clock_withJournal : (w.withJournal j).clock = w.clock := rfl
@[simp] theorem journal_withJournal : (w.withJournal j).journal = j := rfl
@[simp] theorem withJournal_withJournal : (w.withJournal i).withJournal j = w.withJournal j := rfl
@[simp] theorem withJournal_self : w.withJournal w.journal = w := rfl

@[simp] theorem withJournal_withArena :
    (w.withJournal j).withArena a = (w.withArena a).withJournal j := rfl

end Parts
end Workspace

namespace Map

variable {κ ν α : Type} {w : Workspace κ ν}

theorem yields_survey {q : Map κ ν → Except Fault α} {x : α} {post : α → Workspace κ ν → Prop}
    (h : q w.map = .ok x) : Yields (survey q) w post ↔ post x w :=
  yields_of_eq (by simp only [survey, h])

theorem yields_survey_pure (f : Map κ ν → α) {post : α → Workspace κ ν → Prop} :
    Yields (survey fun m => pure (f m)) w post ↔ post (f w.map) w := yields_of_eq rfl

theorem yields_look_pure {post : Arena κ ν → Workspace κ ν → Prop} :
    Yields (look pure) w post ↔ post w.map.arena w := yields_of_eq rfl

theorem yields_look {q : Arena κ ν → Except Fault α} {x : α} {post : α → Workspace κ ν → Prop}
    (h : q w.map.arena = .ok x) : Yields (look q) w post ↔ post x w := yields_survey h

theorem look_bind {β : Type} (q : Arena κ ν → Except Fault α) (k : α → MapM κ ν β) :
    (look q >>= k) w = match q w.map.arena with
      | .ok x => k x w
      | .error e => .error e w := by
  simp only [Bind.bind, EStateM.bind, look, survey]
  cases q w.map.arena <;> rfl

theorem look_bind_eq_ok {β : Type} {q : Arena κ ν → Except Fault α} {k : α → MapM κ ν β} {y : β}
    {w' : Workspace κ ν} :
    (look q >>= k) w = .ok y w' ↔ ∃ x, q w.map.arena = .ok x ∧ k x w = .ok y w' := by
  rw [look_bind]
  cases q w.map.arena <;> simp

theorem yields_edit {e : EditM κ ν α} {post : α → Workspace κ ν → Prop} :
    Yields (edit e) w post ↔ Yields e w.map.arena fun x a => post x (w.withArena a) :=
  yields_lift (f := (w.withArena ·)) (by
    rw [edit]
    cases e w.map.arena <;> rfl)

theorem yields_note {f : Journal κ ν → Journal κ ν} {post : Unit → Workspace κ ν → Prop} :
    Yields (note f) w post ↔ post () (w.withJournal (f w.journal)) := yields_of_eq rfl

theorem yields_record {r : Record} {post : Unit → Workspace κ ν → Prop} :
    Yields (record r) w post ↔ post () (w.withJournal (w.journal.record r)) := yields_note

theorem yields_setCount {n : Nat} {post : Unit → Workspace κ ν → Prop} :
    Yields (setCount n) w post ↔ post () (w.withCount n) := yields_of_eq rfl

theorem yields_drawStamp {post : Nat → Workspace κ ν → Prop} :
    Yields drawStamp w post ↔ post w.clock (w.withClock (w.clock + 1)) := yields_of_eq rfl

/-- An exchange of two nodes draws the stamp of the placeholder. -/
theorem yields_exchange {n m : NodeId} {post : Unit → Workspace κ ν → Prop} :
    Yields (exchange n m) w post ↔ Yields (Arena.exchange n m w.clock) w.map.arena fun x a =>
      post x ((w.withArena a).withClock (w.clock + 1)) := by
  unfold exchange
  rw [yields_bind, yields_drawStamp, yields_edit]
  exact .rfl

theorem yields_compareTags {s t : κ} {post : Ordering → Workspace κ ν → Prop} :
    Yields (compareTags s t) w post ↔ post (w.map.policy.comparator.compare s t)
      (w.withJournal (w.journal.call w.map.policy.comparator s t)) := yields_of_eq rfl

theorem yields_releaseTag {t : κ} {post : Unit → Workspace κ ν → Prop} :
    Yields (releaseTag t) w post ↔
      post () (w.withJournal (w.journal.releaseTag w.map.policy t)) := yields_of_eq rfl

theorem yields_releaseValue {v : ν} {post : Unit → Workspace κ ν → Prop} :
    Yields (releaseValue v) w post ↔
      post () (w.withJournal (w.journal.releaseValue w.map.policy v)) := yields_of_eq rfl

theorem yields_release {e : Entry κ ν} {post : Unit → Workspace κ ν → Prop} :
    Yields (release e) w post ↔
      post () (w.withJournal (w.journal.release w.map.policy e)) := yields_of_eq rfl

end Map

/-- An action has only read: it has made comparisons at most. -/
structure Map.Reads {κ ν : Type} (w w' : Workspace κ ν) : Prop where
  map : w'.map = w.map
  clock : w'.clock = w.clock
  released : w'.journal.released = w.journal.released

/-- A journal goes on with what a repair lets be observed. -/
def Repair.onto {κ ν : Type} (x : Repair κ ν) (j : Journal κ ν) : Journal κ ν :=
  ⟨j.records ++ x.records.toArray, j.calls, j.released, j.rotations + x.rotations⟩

namespace Map

variable {κ ν : Type} {w w' w'' : Workspace κ ν}

/-- A repair was carried out: its tree is planted in the arena, in the place of one with the same
cells. The same slots are occupied as before, and nothing has changed but the nodes of the tree and
the journal. -/
structure Repaired (w w' : Workspace κ ν) (x : Repair κ ν) (ts : List (Tree κ ν) := []) : Prop where
  eq : w' = (w.withArena w'.map.arena).withJournal (x.onto w.journal)
  plants : w'.map.arena.Plants x.tree ts
  keeps : Arena.Keeps w.map.arena w'.map.arena
  former : ∃ t, w.map.arena.Plants t ts ∧ x.tree.cells = t.cells ∧
    Arena.AgreeOff w.map.arena w'.map.arena t.ids

namespace Repaired

variable {x : Repair κ ν} {ts : List (Tree κ ν)}

theorem refl {t : Tree κ ν} (h : w.map.arena.Plants t ts) : Repaired w w ⟨t, [], 0⟩ ts :=
  ⟨by simp [Repair.onto]; rfl, h, .refl _, t, h, rfl, (Arena.AgreeOff.refl _).mono (by simp)⟩

/-- What is known of the tree before a repair. -/
theorem of_plants {t : Tree κ ν} {us : List (Tree κ ν)} (h : Repaired w w' x ts)
    (ht : w.map.arena.Plants t us) :
    x.tree.cells = t.cells ∧ Arena.AgreeOff w.map.arena w'.map.arena t.ids := by
  obtain ⟨u, hu, rest⟩ := h.former
  rwa [ht.unique hu] at rest

theorem trans {t : Tree κ ν} {rs : List Record} {k : Nat} (h : Repaired w w' ⟨t, rs, k⟩ ts)
    (h' : Repaired w' w'' x ts) : Repaired w w'' ⟨x.tree, rs ++ x.records, k + x.rotations⟩ ts := by
  obtain ⟨u, hu, cells, off⟩ := h.former
  obtain ⟨cells', off'⟩ := h'.of_plants h.plants
  have ids : t.ids = u.ids := congrArg (List.map Cell.id) cells
  refine ⟨?_, h'.plants, h.keeps.trans h'.keeps, u, hu, cells'.trans cells, off.trans (ids ▸ off')⟩
  have e := h.eq
  have e' := h'.eq
  generalize w'.map.arena = a at e
  generalize w''.map.arena = b at e'
  subst e
  subst e'
  simp [Repair.onto, Nat.add_assoc, Array.append_assoc]

/-- An arena with nothing else in it has nothing else in it after a repair of its tree. -/
theorem bears {t : Tree κ ν} (h : Repaired w w' x ts) (hb : w.map.arena.Bears t ts) :
    w'.map.arena.Bears x.tree ts :=
  hb.rebuild h.plants h.keeps (h.of_plants hb.plants).1

end Repaired

variable {p : Path κ ν} {t : Tree κ ν} {ts : List (Tree κ ν)} {n : NodeId} {s : Side}

theorem yields_record_repaired (h : w.map.arena.Plants t ts) (r : Record) :
    Yields (record r) w fun _ w' => Repaired w w' ⟨t, [r], 0⟩ ts :=
  yields_record.mpr ⟨by simp [Repair.onto, Journal.record], h, .refl _, t, h, rfl,
    (Arena.AgreeOff.refl _).mono (by simp)⟩

theorem yields_paint (h : w.map.arena.Plants (p.plug t) ts) (hn : t.root? = some n) (k : Color) :
    Yields (paint n k) w fun _ w' => Repaired w w' ⟨p.plug (t.paint k), [], 0⟩ ts := by
  refine yields_edit.mpr ((h.yields_paint hn k).mono fun _ a ⟨hb, hk, off⟩ => ?_)
  have painted : n ∈ (p.plug t).ids :=
    (p.ids_plug_perm t).mem_iff.mpr (List.mem_append_right _ (Tree.root?_mem_ids hn))
  exact ⟨by simp [Repair.onto]; rfl, hb, hk, _, h, Path.cells_plug_congr p (Tree.cells_paint ..),
    off.mono (by simpa using painted)⟩

theorem yields_rotate {u v : Tree κ ν} {k k' : Color} {c d : Cell κ ν}
    (h : w.map.arena.Plants (p.plug (.join s t k c (.join s u k' d v))) ts) :
    Yields (rotate s c.id) w fun _ w' =>
      Repaired w w' ⟨p.plug (.join s (.join s t k c u) k' d v), [], 1⟩ ts := by
  unfold rotate
  rw [yields_bind, yields_edit]
  apply h.yields_rotate.mono
  rintro - a ⟨hb, hk, off⟩
  refine yields_note.mpr ⟨by simp [Repair.onto, Journal.countRotation], hb, hk, _, h, ?_,
    off.mono (Arena.turned_subset_ids ..)⟩
  rw [← Tree.rotate_join]
  exact Path.cells_plug_congr p (Tree.cells_rotate ..)

end Map
end OrderedMap
