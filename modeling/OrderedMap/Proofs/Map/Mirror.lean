import OrderedMap.Proofs.Map.Tandem

/-!
Mirror images. With left and right exchanged at every node and the comparator reversed, insertions
do the same as before, mirrored; so do removals of nodes that have one child at most, and so does
the repair of a short side on the opposite side. A node with two children is another matter: it is
always its predecessor that it trades places with.
-/
namespace OrderedMap

variable {κ ν : Type}

namespace Node

def mirror (x : Node κ ν) : Node κ ν := { x with left := x.right, right := x.left }

end Node

namespace Arena

/-- The same slots with left and right exchanged at every node. -/
def mirror (a : Arena κ ν) : Arena κ ν := { a with slots := a.slots.map (Option.map Node.mirror) }

@[simp] theorem nextId_mirror (a : Arena κ ν) : a.mirror.nextId = a.nextId := by
  simp [mirror, nextId]

end Arena

namespace Map

def mirror (m : Map κ ν) : Map κ ν :=
  { m with arena := m.arena.mirror, policy := m.policy.reversed }

theorem mirror_fresh (id : MapId) (policy : Policy κ) :
    (fresh id policy : Map κ ν).mirror = fresh id policy.reversed :=
  congrArg (fun slots => (⟨id, ⟨slots, [], none⟩, 0, policy.reversed⟩ : Map κ ν)) Array.map_empty

end Map

namespace Workspace

def mirror (w : Workspace κ ν) : Workspace κ ν := { w with map := w.map.mirror }

theorem eq_mirror {w w' : Workspace κ ν} (arena : w'.map.arena = w.map.arena.mirror)
    (id : w'.map.id = w.map.id) (count : w'.map.count = w.map.count)
    (policy : w'.map.policy = w.map.policy.reversed) (clock : w'.clock = w.clock)
    (journal : w'.journal = w.journal) : w' = w.mirror := by
  obtain ⟨⟨_, _, _, _⟩, _, _⟩ := w'
  cases arena
  cases id
  cases count
  cases policy
  cases clock
  cases journal
  rfl

end Workspace

/-- The guise of a mirror image, in which every node stays in its slot. -/
def Guise.mirror : Guise := ⟨true, true, .refl _, id, id⟩

theorem Guise.items_mirror (xs : List (Item κ ν)) : Guise.mirror.items xs = xs.reverse :=
  congrArg List.reverse (List.map_id xs)

theorem Node.recast_mirror (x : Node κ ν) : x.recast .mirror = x.mirror := by
  simp [Node.recast, Node.mirror, Guise.mirror, Guise.side, Node.child, Side.opposite]

@[simp] theorem Arena.recast_mirror (a : Arena κ ν) : a.recast .mirror = a.mirror := by
  have node : Node.recast (κ := κ) (ν := ν) .mirror = Node.mirror := funext Node.recast_mirror
  rw [Arena.recast, node]
  simp [Arena.mirror, Guise.mirror]

@[simp] theorem Journal.recast_mirror (j : Journal κ ν) : j.recast .mirror = j := by
  have record : Record.recast .mirror = id := by
    funext r
    cases r <;> rfl
  simp [Journal.recast, record]

namespace Map

variable {t : Tree κ ν} {xs : List (Item κ ν)} {w w' : Workspace κ ν}

/-- Of what the guise leaves open nothing is left: the second map is the mirror image. -/
theorem Twins.eq_mirror (h : Twins .mirror t xs w w') : w' = w.mirror := by
  obtain ⟨-, hsize, hfree⟩ := h.level rfl
  have arena := (h.bears_left.wears h.bears).eq_recast rfl hsize hfree
  rw [Arena.recast_mirror] at arena
  exact Workspace.eq_mirror arena h.id h.count h.policy (h.clock rfl)
    (h.journal.trans (Journal.recast_mirror _))

theorem Holds.twins_mirror (h : w.map.Holds t xs) : Twins .mirror t xs w w.mirror where
  holds := h
  bears := by
    have := h.bears.recast (g := .mirror) rfl
    rwa [Arena.recast_mirror] at this
  id := rfl
  policy := rfl
  count := rfl
  journal := (Journal.recast_mirror _).symm
  clock _ := rfl
  level _ := ⟨rfl, Array.size_map, rfl⟩

theorem alike_fresh_mirror (id : MapId) (policy : Policy κ) (clock : Nat) :
    Alike .mirror (⟨fresh id policy, clock, ∅⟩ : Workspace κ ν)
      ⟨fresh id policy.reversed, clock, ∅⟩ := by
  obtain ⟨t, ht⟩ := lists_fresh (κ := κ) (ν := ν) id policy
  rw [← mirror_fresh]
  exact (ht.twins_mirror (w := ⟨_, clock, ∅⟩)).alike

/-- Iteration over a mirror image yields the same entries the other way round. -/
theorem Lists.entries_mirror {m : Map κ ν} (h : m.Lists xs) :
    ∃ es, m.entries = .ok es ∧ m.mirror.entries = .ok es.reverse := by
  obtain ⟨t, h⟩ := h
  have twins := Holds.twins_mirror (w := ⟨m, 0, ∅⟩) h
  refine ⟨xs.map (·.entry), h.entries_eq, ?_⟩
  have reversed := twins.holds_right.entries_eq
  rwa [Guise.items_mirror, List.map_reverse] at reversed

instance (m : Map κ ν) (n : NodeId) : Decidable (m.Slim n) :=
  match h : m.arena.get? n with
  | none => isTrue fun y hy => by
      rw [h] at hy
      cases hy
  | some y => decidable_of_iff (y.left = none ∨ y.right = none) (by simp [Slim, h])

/-- Operations that are the same in a mirror image: insertions, and removals of nodes that have
one child at most. -/
def Op.Mirrors (m : Map κ ν) : Op κ ν → Prop
  | .insert _ _ | .insertMany _ => True
  | .erase tag | .removeValue tag | .remove tag => ∀ n ∈ m.found? tag, m.Slim n
  | _ => False

instance (m : Map κ ν) (op : Op κ ν) : Decidable (op.Mirrors m) := by
  cases op <;> unfold Op.Mirrors <;> infer_instance

theorem both_insert_mirror (h : Alike .mirror w w') (tag : κ) (v : ν) :
    Both (insert tag v) (insert tag v) w w' fun new new' w₁ w₁' =>
      new' = new ∧ Alike .mirror w₁ w₁' := by
  obtain ⟨t, xs, h⟩ := h
  obtain rfl := h.eq_mirror
  exact both_insert h (Arena.nextId_mirror _).symm rfl tag v

theorem both_insertMany_mirror (h : Alike .mirror w w') (es : List (κ × ν)) :
    Both (insertMany es) (insertMany es) w w' fun _ _ w₁ w₁' => Alike .mirror w₁ w₁' := by
  induction es generalizing w w' with
  | nil => exact both_pure.mpr h
  | cons e rest ih =>
    rw [insertMany]
    refine (both_insert_mirror h e.1 e.2).bind ?_
    rintro - - w₁ w₁' ⟨-, h₁⟩
    exact ih h₁

/-- An operation on a map and its mirror image gives the same result on both, lets the same be
observed, and leaves them mirror images of each other. -/
theorem both_perform_mirror (h : ∃ xs, w.map.Lists xs) {op : Op κ ν} (hop : op.Mirrors w.map) :
    Both op.perform op.perform w w.mirror fun a a' w₁ w₁' => a' = a ∧ w₁' = w₁.mirror := by
  obtain ⟨xs, t, h⟩ := h
  have h := h.twins_mirror
  have alike : Both op.perform op.perform w w.mirror fun a a' w₁ w₁' =>
      a' = a ∧ Alike .mirror w₁ w₁' := by
    cases op with
    | insert tag v =>
      refine (both_insert_mirror h.alike tag v).bind ?_
      rintro - new w₁ w₁' ⟨rfl, h₁⟩
      exact both_pure.mpr ⟨rfl, h₁⟩
    | insertMany es =>
      refine (both_insertMany_mirror h.alike es).bind ?_
      intro _ _ w₁ w₁' h₁
      exact both_pure.mpr ⟨rfl, h₁⟩
    | erase tag =>
      refine (both_erase h fun _ => hop).bind ?_
      rintro - gone w₁ w₁' ⟨rfl, h₁⟩
      exact both_pure.mpr ⟨rfl, h₁⟩
    | removeValue tag =>
      refine (both_removeValue? h fun _ => hop).bind ?_
      rintro - v w₁ w₁' ⟨rfl, h₁⟩
      exact both_pure.mpr ⟨rfl, h₁⟩
    | remove tag =>
      refine (both_remove? h fun _ => hop).bind ?_
      rintro - e w₁ w₁' ⟨rfl, h₁⟩
      exact both_pure.mpr ⟨rfl, h₁⟩
    | _ => exact hop.elim
  exact alike.mono fun _ _ _ _ ⟨e, _, _, h₁⟩ => ⟨e, h₁.eq_mirror⟩

theorem Repaired.eq_mirror {x : Repair κ ν} (h : Repaired w w' x) {w₁ : Workspace κ ν}
    (h₁ : Repaired w.mirror w₁ (x.recast .mirror)) : w₁ = w'.mirror := by
  obtain ⟨u, hu, cells, off⟩ := h.former
  have ids : x.tree.ids = u.ids := congrArg (List.map Cell.id) cells
  have hu' := hu.recast (g := .mirror) rfl
  rw [Arena.recast_mirror] at hu'
  obtain ⟨-, off'⟩ := h₁.of_plants hu'
  -- what is not in the tree is as it was on both sides
  have others (n : NodeId) (hn : n ∉ x.tree.ids) :
      w₁.map.arena.get? n = (w'.map.arena.get? n).map (Node.recast .mirror) := by
    rw [ids] at hn
    rw [off' n (mt (Arena.ids_recast_perm rfl u).mem_iff.mp hn), off n hn, ← Arena.get?_recast,
      Arena.recast_mirror]
    rfl
  have arena := (h.plants.wears h₁.plants others).eq_recast rfl
    (h₁.keeps.size.trans ((Array.size_map ..).trans h.keeps.size.symm))
    (h₁.keeps.free.trans h.keeps.free.symm)
  have journal := Journal.recast_onto .mirror w.journal x
  rw [Journal.recast_mirror, Journal.recast_mirror] at journal
  rw [h₁.eq, h.eq, arena, Arena.recast_mirror]
  exact congrArg (fun j => ((w.withArena w'.map.arena).withJournal j).mirror) journal.symm

/-- The repair of a short side is mirrored by that of the opposite side, whatever the tree. -/
theorem both_refill_mirror {n : NodeId} (h : w.map.arena.Plants t) (hn : n ∈ t.ids) (s : Side) :
    Both (refill n s.opposite) (refill n s) w w.mirror fun _ _ w₁ w₁' => w₁' = w₁.mirror := by
  obtain ⟨p, near, k, c, far, rfl, rfl⟩ := Path.exists_plug_join s.opposite hn
  let f : Frame κ ν := ⟨s.opposite, k, c, far⟩
  have hs : (f.recast .mirror).side = s := s.opposite_opposite
  have h' := h.recast (g := .mirror) rfl
  rw [Arena.recast_mirror, Path.plug_recast, Tree.recast_join] at h'
  have left := yields_refill (f := f) h
  have right := yields_refill (w := w.mirror) (f := f.recast .mirror) h'
  rw [hs, ← Path.recast_cons, Path.refill_recast] at right
  exact .intro left right fun _ _ _ _ r r' => r.eq_mirror r'

end Map
end OrderedMap
