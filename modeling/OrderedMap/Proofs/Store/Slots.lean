import OrderedMap.Proofs.Map.Room
import OrderedMap.Proofs.Store.Tracking

/-!
The slots of arenas in the course of a run. Every occupied slot holds a node of the tree, every
vacant one waits on the stack once, and there is at most one slot more than the arena had entries at
some time since it was created or cleared, in whatever maps it has been.
-/
namespace OrderedMap

variable {κ ν : Type}

namespace Map

/-- The slots of a map are accounted for: each holds a node that is reached from the root, with an
entry, or it is vacant and waits on the stack once. -/
structure Accounted (m : Map κ ν) : Prop where
  occupied : ∀ n, (m.arena.get? n).isSome ↔ m.arena.Reached n
  filled : ∀ n x, m.arena.get? n = some x → x.entry.isSome
  free_nodup : m.arena.free.Nodup
  mem_free : ∀ i, i ∈ m.arena.free ↔ i < m.arena.slots.size ∧ m.arena.get? ⟨i⟩ = none
  size : m.arena.slots.size = m.count + m.arena.free.length
  /-- An allocation takes a vacant slot and touches no other one. -/
  allocate : ∀ e k stamp, ∃ n a, Arena.allocate e k stamp m.arena = .ok n a ∧
    m.arena.get? n = none ∧ ∀ i, i ≠ n → a.get? i = m.arena.get? i

theorem Shows.accounted {m : Map κ ν} {r : Roll κ ν} (h : m.Shows r) : m.Accounted := by
  obtain ⟨t, h⟩ := h.lists
  have forest := h.bears.forest
  have links : m.arena.Hangs none t := h.bears.hangs
  have ids_iff (n : NodeId) : (m.arena.get? n).isSome ↔ n ∈ t.ids := by
    constructor
    · intro hn
      simpa using forest.occupied n hn
    · intro hn
      exact forest.get?_of_mem (by simpa using hn)
  refine ⟨fun n => ?_, fun n x hx => ?_, forest.free_nodup, forest.mem_free, ?_,
    fun e k stamp => ?_⟩
  · rw [ids_iff, links.reached_iff h.bears.root]
  · obtain ⟨y, -, -, -, he⟩ := h.exists_item hx
    rw [he]
    rfl
  · have hids : t.ids.length = m.count := by rw [Tree.ids, h.cells, h.count]; simp
    rw [forest.size_slots, List.flatMap_singleton, hids]
  · obtain ⟨a, ha, -, off, -⟩ :=
      Arena.allocate_eq e k stamp fun i hi => ((forest.mem_free i).mp hi).1
    exact ⟨_, a, ha, forest.queues.get?_nextId, fun i hi => off i (by simpa using hi)⟩

end Map

namespace Store

variable {s : Store κ ν} {p : Nat → Nat} {k : Nat} {m : Map κ ν}

/-- The peak that an operation leaves to the arena in a map, before the entries there are counted
again: a new arena and one that is cleared start anew, and an arena that moves takes its peak
along. -/
def Op.carried (op : Op κ ν) (s : Store κ ν) (p : Nat → Nat) (k : Nat) : Nat :=
  match op with
  | .create _ _ => if k = s.maps.size then 0 else p k
  | .on j .clear => if j = k ∧ (s.map? k).any (·.arena.root.isSome) then 0 else p k
  | .transfer j i =>
    if s.canMove j i then
      if k = j then p i else if k = i then p j else p k
    else
      p k
  | .on _ _ | .discard _ | .consume _ _ => p k

theorem carried_on {op : Map.Op κ ν} (hop : op ≠ .clear) (j : Nat) :
    Op.carried (.on j op) s p k = p k := by
  cases op <;> first | rfl | exact absurd rfl hop

variable [EntrySize κ ν]

/-- The most entries that the arenas in the maps have had, after an operation. -/
def Op.peaks (op : Op κ ν) (s : Store κ ν) (p : Nat → Nat) (k : Nat) : Nat :=
  max (op.carried s p k) (((s.step op).2.map? k).elim 0 (·.count))

/-- The most entries that the arenas in the maps have had, after a run. -/
def peaks : List (Op κ ν) → Store κ ν → (Nat → Nat) → Nat → Nat
  | [], _, p => p
  | op :: rest, s, p => peaks rest (s.step op).2 (op.peaks s p)

/-- Every arena has at most one slot more than its peak. -/
def Roomy (s : Store κ ν) (p : Nat → Nat) : Prop := ∀ k m, s.map? k = some m → m.Within (p k)

theorem within_peaks {op : Op κ ν} (hm : (s.step op).2.map? k = some m)
    (h : m.Within (max (op.carried s p k) m.count)) : m.Within (op.peaks s p k) := by
  rw [Op.peaks, hm]
  exact h

theorem roomy_create (hs : s.Roomy p) (policy : Policy κ) (entries : List (κ × ν)) :
    (s.step (.create policy entries)).2.Roomy (Op.peaks (.create policy entries) s p) := by
  have fresh : (Map.fresh ⟨s.maps.size⟩ policy : Map κ ν).Within 0 :=
    ⟨Nat.le_refl _, Nat.zero_le _⟩
  obtain ⟨res, w, hw, he⟩ := step_create (s := s) ((Map.yields_insertMany_grows
    (w := ⟨.fresh ⟨s.maps.size⟩ policy, s.clock, ∅⟩) (Map.lists_fresh _ _) entries).ends
      (q := fun _ w' => w'.map.Within (max 0 w'.map.count)) fun _ _ h => h.within 0 fresh)
  intro k m hm
  refine within_peaks hm ?_
  rw [he, map?_push] at hm
  split at hm
  · rename_i hk
    cases hm
    rw [Op.carried, if_pos hk]
    exact hw
  · rename_i hk
    rw [Op.carried, if_neg hk]
    exact (hs k m hm).mono (Nat.le_max_left ..)

theorem roomy_on (hs : s.Roomy p) (hsound : s.Sound) (j : Nat) (op : Map.Op κ ν) :
    (s.step (.on j op)).2.Roomy (Op.peaks (.on j op) s p) := by
  cases hj : s.map? j with
  | none =>
    intro k m hm
    refine within_peaks hm ?_
    rw [step_on_none hj] at hm
    have hle : Op.carried (.on j op) s p k = p k := by
      by_cases hop : op = .clear
      · subst hop
        refine if_neg fun hk => ?_
        rw [← hk.1, hj] at hk
        simp at hk
      · exact carried_on hop j
    rw [hle]
    exact (hs k m hm).mono (Nat.le_max_left ..)
  | some x =>
    obtain ⟨r, hr, -⟩ := hsound j x hj
    have within : Ends op.perform ⟨x, s.clock, ∅⟩ fun _ w' =>
        w'.map.Within (max (Op.carried (.on j op) s p j) w'.map.count) := by
      by_cases hop : op = .clear ∧ x.arena.root.isSome
      · obtain ⟨rfl, hroot⟩ := hop
        apply (Map.ends_clear_within (w := ⟨x, s.clock, ∅⟩) hr.lists hroot).mono
        exact fun _ _ h => h.mono (Nat.zero_le _)
      · have hle : Op.carried (.on j op) s p j = p j := by
          by_cases hclear : op = .clear
          · subst hclear
            exact if_neg fun hk => hop ⟨rfl, by simpa [hj] using hk.2⟩
          · exact carried_on hclear j
        rw [hle]
        exact Map.ends_perform_within (w := ⟨x, s.clock, ∅⟩) hr.lists op (hs j x hj)
    obtain ⟨res, w, hw, he⟩ := step_on hj within
    intro k m hm
    refine within_peaks hm ?_
    rw [he, map?_setIfInBounds _ (lt_size_of_map? hj)] at hm
    split at hm
    · rename_i hk
      cases hm
      subst hk
      exact hw
    · rename_i hk
      have hle : Op.carried (.on j op) s p k = p k := by
        by_cases hop : op = .clear
        · subst hop
          exact if_neg fun h => hk h.1.symm
        · exact carried_on hop j
      rw [hle]
      exact (hs k m hm).mono (Nat.le_max_left ..)

theorem roomy_transfer (hs : s.Roomy p) (j i : Nat) :
    (s.step (.transfer j i)).2.Roomy (Op.peaks (.transfer j i) s p) := by
  intro k m hm
  refine within_peaks hm ?_
  by_cases hmove : ∃ x y, s.Moves j i x y
  · obtain ⟨x, y, hxy⟩ := hmove
    have hx := hs j x hxy.target
    have hy := hs i y hxy.source
    rw [Op.carried, if_pos (canMove_iff.mpr ⟨x, y, hxy⟩)]
    rw [step_transfer hxy, map?_moved hxy] at hm
    split at hm
    · cases hm
      rw [if_pos ‹k = j›]
      exact Map.Within.mono ⟨hy.count, hy.size⟩ (Nat.le_max_left ..)
    split at hm
    · cases hm
      rw [if_neg ‹¬ k = j›, if_pos ‹k = i›]
      exact Map.Within.mono ⟨Nat.zero_le _, hx.size⟩ (Nat.le_max_left ..)
    · rw [if_neg ‹¬ k = j›, if_neg ‹¬ k = i›]
      exact (hs k m hm).mono (Nat.le_max_left ..)
  · have hmove' : ¬ s.canMove j i := fun h => hmove (canMove_iff.mp h)
    rw [Op.carried, if_neg hmove']
    rw [step_transfer_refused fun x y hxy => hmove ⟨x, y, hxy⟩] at hm
    exact (hs k m hm).mono (Nat.le_max_left ..)

/-- One operation leaves every arena within its peak. -/
theorem Roomy.step (hs : s.Roomy p) (hsound : s.Sound) (op : Op κ ν) :
    (s.step op).2.Roomy (op.peaks s p) := by
  have shrunk (hle : ∀ k, op.carried s p k = p k)
      (hm : ∀ k m, (s.step op).2.map? k = some m → s.map? k = some m) :
      (s.step op).2.Roomy (op.peaks s p) := by
    intro k m hk
    refine within_peaks hk ?_
    rw [hle]
    exact (hs k m (hm k m hk)).mono (Nat.le_max_left ..)
  cases op with
  | create policy entries => exact roomy_create hs policy entries
  | on j op => exact roomy_on hs hsound j op
  | transfer j i => exact roomy_transfer hs j i
  | discard j =>
    refine shrunk (fun _ => rfl) fun k m hk => ?_
    rw [step_taking rfl hsound.lists] at hk
    exact (map?_eq_some_of_setMap_none hk).2
  | consume j pulls =>
    refine shrunk (fun _ => rfl) fun k m hk => ?_
    rw [step_taking rfl hsound.lists] at hk
    exact (map?_eq_some_of_setMap_none hk).2

theorem Roomy.after (ops : List (Op κ ν)) (hs : s.Roomy p) (hsound : s.Sound) :
    (after ops s).Roomy (peaks ops s p) := by
  induction ops generalizing s p with
  | nil => exact hs
  | cons op ops ih => exact ih (hs.step hsound op) (hsound.step op)

/-- After every run, whatever the comparators, the slots of every map are accounted for, and there
is at most one more than the arena has ever had entries since it was created or cleared. -/
theorem slots_accounted_after (ops : List (Op κ ν)) {k : Nat} {m : Map κ ν}
    (hm : (after ops ∅).map? k = some m) :
    m.Accounted ∧ m.arena.slots.size ≤ peaks ops ∅ (fun _ => 0) k + 1 := by
  obtain ⟨r, hr, -⟩ := sound_after ops k m hm
  have roomy : (∅ : Store κ ν).Roomy fun _ => 0 := by
    intro k m hk
    rw [map?_empty] at hk
    cases hk
  exact ⟨hr.accounted, (roomy.after ops sound_empty k m hm).size⟩

/-- A run in which a map of five entries loses one that lies between two others, which takes a slot
for a placeholder, moves, and loses two more. -/
def churn : List (Op Nat Nat) :=
  [.create .natural [(1, 1), (2, 2), (3, 3), (4, 4), (5, 5)], .on 0 (.erase 2),
    .create .natural [], .transfer 1 0, .on 1 (.erase 4), .on 1 (.erase 1)]

theorem slots_accounted_after_churn : ∃ m, (after churn ∅).map? 1 = some m ∧ m.count = 2 ∧
    m.arena.slots.size = 6 ∧ peaks churn ∅ (fun _ => 0) 1 = 5 ∧
    m.Accounted ∧ m.arena.slots.size ≤ peaks churn ∅ (fun _ => 0) 1 + 1 := by
  have there : ((after churn ∅).map? 1).map (fun m => (m.count, m.arena.slots.size)) =
      some (2, 6) := by decide +kernel
  obtain ⟨m, hm, hsize⟩ := Option.map_eq_some_iff.mp there
  obtain ⟨hcount, hslots⟩ := Prod.mk.inj hsize
  exact ⟨m, hm, hcount, hslots, by decide +kernel, slots_accounted_after churn hm⟩

end Store
end OrderedMap
