import OrderedMap.Proofs.Map.Mirror
import OrderedMap.Proofs.Store.WellFormed

/-!
Runs under reversed comparators. As long as a run only inserts, and removes by tag what has one
child at most, its maps under the reversed comparators are mirror images at every moment.
-/
namespace OrderedMap
namespace Store

variable {κ ν : Type} {s : Store κ ν} {k : Nat} {m : Map κ ν}

/-- The mirror images of all maps. -/
def mirror (s : Store κ ν) : Store κ ν := { s with maps := s.maps.map (Option.map Map.mirror) }

@[simp] theorem size_mirror (s : Store κ ν) : s.mirror.maps.size = s.maps.size := Array.size_map

theorem map?_mirror (s : Store κ ν) (k : Nat) : s.mirror.map? k = (s.map? k).map Map.mirror := by
  unfold map? mirror
  rw [Array.getElem?_map]
  cases s.maps[k]? <;> rfl

theorem mirror_set (clock : Nat) :
    mirror ⟨s.maps.setIfInBounds k (some m), clock⟩ =
      ⟨s.mirror.maps.setIfInBounds k (some m.mirror), clock⟩ := by simp [mirror]

theorem mirror_push (clock : Nat) : mirror ⟨s.maps.push (some m), clock⟩ =
    ⟨s.mirror.maps.push (some m.mirror), clock⟩ := by simp [mirror]

/-- The same operation, but a new map compares the other way round. -/
def Op.mirror : Op κ ν → Op κ ν
  | .create policy entries => .create policy.reversed entries
  | op => op

/-- Operations that are the same on mirror images: maps are created, and single maps worked on. -/
def Op.Mirrors (s : Store κ ν) : Op κ ν → Prop
  | .create _ _ => True
  | .on k op => ∀ m ∈ s.map? k, op.Mirrors m
  | _ => False

instance (s : Store κ ν) (op : Op κ ν) : Decidable (op.Mirrors s) := by
  cases op <;> unfold Op.Mirrors <;> infer_instance

variable [EntrySize κ ν]

/-- Every operation of a run is the same on mirror images when its turn comes. -/
def Mirrors : List (Op κ ν) → Store κ ν → Prop
  | [], _ => True
  | op :: ops, s => op.Mirrors s ∧ Mirrors ops (s.step op).2

instance decidableMirrors : (ops : List (Op κ ν)) → (s : Store κ ν) → Decidable (Mirrors ops s)
  | [], _ => isTrue trivial
  | op :: ops, s => @instDecidableAnd _ _ inferInstance (decidableMirrors ops (s.step op).2)

theorem step_mirror (h : s.Sound) {op : Op κ ν} (hop : op.Mirrors s) :
    s.mirror.step op.mirror = ((s.step op).1, (s.step op).2.mirror) := by
  cases op with
  | create policy entries =>
    have fresh := Map.alike_fresh_mirror (ν := ν) ⟨s.maps.size⟩ policy s.clock
    obtain ⟨_, w, he, _, _, he', _, _, twins⟩ := Map.both_insertMany_mirror fresh entries
    obtain rfl := twins.eq_mirror
    rw [← size_mirror s] at he'
    change s.mirror.step (.create policy.reversed entries) = _
    rw [step_create_ok he, step_create_ok he', size_mirror, mirror_push]
    rfl
  | on k op =>
    have there := map?_mirror s k
    change s.mirror.step (.on k op) = _
    cases hm : s.map? k with
    | none =>
      rw [hm] at there
      rw [step_on_none hm, step_on_none there]
    | some m =>
      rw [hm] at there
      obtain ⟨a, w, he, _, _, he', rfl, rfl⟩ :=
        Map.both_perform_mirror (w := ⟨m, s.clock, ∅⟩) (h.lists m hm) (hop m hm)
      rw [step_on_ok hm he, step_on_ok there he', mirror_set]
      rfl
  | transfer j k => exact hop.elim
  | discard k => exact hop.elim
  | consume k pulls => exact hop.elim

theorem run_mirror_of_sound (h : s.Sound) {ops : List (Op κ ν)} (hops : Mirrors ops s) :
    run (ops.map Op.mirror) s.mirror = ((run ops s).1, (after ops s).mirror) := by
  induction ops generalizing s with
  | nil => rfl
  | cons op ops ih =>
    rw [List.map_cons, run, step_mirror h hops.1]
    simp only [ih (h.step op) hops.2]
    rfl

/-- A run that inserts, and removes by tag what has one child at most, does the same on the mirror
images of its maps, whose comparators are reversed: the results are the same, and so is all that is
let be observed, call by call and record by record; the maps that it leaves are mirror images of
each other, slot by slot, with the entries in reverse order. So it is from any maps that an earlier
run left, or from none. The repair of a short side does in the mirror image of any tree that hangs
together what the repair of the opposite side does in the tree, whatever else the arena holds. -/
theorem run_mirror (ops₀ ops : List (Op κ ν)) (hops : Mirrors ops (after ops₀ ∅)) :
    run (ops.map Op.mirror) (after ops₀ ∅).mirror =
      ((run ops (after ops₀ ∅)).1, (after ops (after ops₀ ∅)).mirror) ∧
    (∀ k m, (after ops (after ops₀ ∅)).map? k = some m →
      ∃ es, m.entries = .ok es ∧ m.mirror.entries = .ok es.reverse) ∧
    ∀ (w : Workspace κ ν) (t : Tree κ ν) (n : NodeId) (side : Side),
      w.map.arena.Stands t → t.ids.Nodup → n ∈ t.ids →
        ∃ w₁, Map.refill n side.opposite w = .ok () w₁ ∧
          Map.refill n side w.mirror = .ok () w₁.mirror := by
  refine ⟨run_mirror_of_sound (sound_after ops₀) hops, fun k m hm => ?_,
    fun w t n side h hnd hn => ?_⟩
  · rw [← after_append] at hm
    obtain ⟨xs, hl⟩ := (sound_after (ops₀ ++ ops)).lists m hm
    exact hl.entries_mirror
  · obtain ⟨_, w₁, he, _, _, he', rfl⟩ := Map.both_refill_mirror (h.plants hnd) hn side
    exact ⟨w₁, he, he'⟩

/-- A map with hooks and six entries. -/
def lopsided : List (Op Nat Nat) :=
  [.create ((Policy.ofComparison compare).withTagHook "t")
    [(5, 50), (2, 20), (8, 80), (1, 10), (3, 30), (4, 40)]]

/-- Insertions and removals that rotate. -/
def bustle : List (Op Nat Nat) :=
  [.on 0 (.insert 9 90), .on 0 (.insert 10 100), .on 0 (.erase 1), .on 0 (.removeValue 2),
    .on 0 (.remove 4), .on 0 (.erase 3)]

theorem run_mirror_bustle : ∃ m, (after bustle (after lopsided ∅)).map? 0 = some m ∧
    run (bustle.map Op.mirror) (after lopsided ∅).mirror =
      ((run bustle (after lopsided ∅)).1, (after bustle (after lopsided ∅)).mirror) ∧
    m.mirror.entries = .ok [⟨10, 100⟩, ⟨9, 90⟩, ⟨8, 80⟩, ⟨5, 50⟩] ∧
    ∃ w₁, Map.refill ⟨6⟩ .right ⟨m, 8, ∅⟩ = .ok () w₁ ∧
      Map.refill ⟨6⟩ .left ⟨m.mirror, 8, ∅⟩ = .ok () w₁.mirror := by
  obtain ⟨runs, iterates, refills⟩ := run_mirror lopsided bustle (by decide +kernel)
  have there : ((after bustle (after lopsided ∅)).map? 0).isSome := by decide +kernel
  have facts : ((after bustle (after lopsided ∅)).map? 0).map
      (fun m => (m.entries.toOption, m.arena.root)) =
      some (some [⟨5, 50⟩, ⟨8, 80⟩, ⟨9, 90⟩, ⟨10, 100⟩], some ⟨6⟩) := by decide +kernel
  obtain ⟨m, hm⟩ := Option.isSome_iff_exists.mp there
  obtain ⟨es, he, hr⟩ := iterates 0 m hm
  rw [hm] at facts
  obtain ⟨entries, root⟩ := Prod.mk.inj (Option.some.inj facts)
  rw [he] at entries
  cases entries
  have later := hm
  rw [← after_append] at later
  obtain ⟨xs, t, ht⟩ := (sound_after (lopsided ++ bustle)).lists m later
  refine ⟨m, hm, runs, hr, refills ⟨m, 8, ∅⟩ t ⟨6⟩ .left ht.bears.stands ht.bears.nodup
    (Tree.root?_mem_ids ?_)⟩
  rw [← ht.bears.root, root]

end Store
end OrderedMap
