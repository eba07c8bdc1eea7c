import OrderedMap.Proofs.Yields
import OrderedMap.Proofs.Map.Setting
import OrderedMap.Store

/-!
What an operation does to the maps of a store: one map changes, a map is added or goes, or two maps
trade what they hold; all other maps stay as they are. Whatever every operation keeps, every run
keeps.
-/
namespace OrderedMap
namespace Store

variable {κ ν α : Type} {s : Store κ ν} {k j : Nat} {m : Map κ ν} {clock : Nat}
  {action : MapM κ ν α} {post : Except Fault α → Workspace κ ν → Prop}

theorem lt_size_of_map? (h : s.map? k = some m) : k < s.maps.size := by
  by_contra hk
  rw [map?, Array.getElem?_eq_none (Nat.le_of_not_lt hk)] at h
  cases h

theorem map?_setIfInBounds (x : Option (Map κ ν)) (h : k < s.maps.size) (j clock : Nat) :
    map? ⟨s.maps.setIfInBounds k x, clock⟩ j = if j = k then x else s.map? j := by
  unfold map?
  rw [Array.getElem?_setIfInBounds]
  by_cases hj : k = j
  · subst hj
    simp [h]
  · rw [if_neg hj, if_neg (Ne.symm hj)]

theorem setMap_self {x : Option (Map κ ν)} (hx : s.map? k = x) : s.setMap k x = s := by
  have : s.maps.setIfInBounds k x = s.maps := by
    refine Array.ext_getElem? fun i => ?_
    rw [Array.getElem?_setIfInBounds, ← hx, map?]
    split
    · rename_i hi
      subst hi
      split
      · rename_i hk
        rw [Array.getElem?_eq_getElem hk, Option.join_some]
      · rename_i hk
        rw [Array.getElem?_eq_none (Nat.le_of_not_lt hk)]
    · rfl
  rw [setMap, this]

theorem map?_setMap_none (s : Store κ ν) (k j : Nat) :
    (s.setMap k none).map? j = if j = k then none else s.map? j := by
  unfold map? setMap
  rw [Array.getElem?_setIfInBounds]
  by_cases hj : k = j
  · subst hj
    rw [if_pos rfl, if_pos rfl]
    split <;> rfl
  · rw [if_neg hj, if_neg (Ne.symm hj)]

theorem map?_eq_some_of_setMap_none (h : (s.setMap k none).map? j = some m) :
    j ≠ k ∧ s.map? j = some m := by
  rw [map?_setMap_none] at h
  split at h
  · cases h
  · exact ⟨‹_›, h⟩

theorem map?_push (x : Map κ ν) (j clock : Nat) :
    map? ⟨s.maps.push (some x), clock⟩ j = if j = s.maps.size then some x else s.map? j := by
  unfold map?
  rw [Array.getElem?_push]
  split <;> rfl

@[simp] theorem map?_empty (k : Nat) : (∅ : Store κ ν).map? k = none := rfl

/-- An action on a map outside the store ends as it does in a fresh journal. -/
theorem actOn_eq (h : Ends action ⟨m, clock, ∅⟩ post) : ∃ res w, post res w ∧
    actOn m clock action = (⟨res, w.journal⟩, w.map, w.clock) := by
  unfold Ends at h
  unfold actOn
  split at h
  · rename_i hx
    exact ⟨_, _, h, by rw [hx]⟩
  · rename_i hx
    exact ⟨_, _, h, by rw [hx]⟩

theorem act?_eq (hm : s.map? k = some m) (h : Ends action ⟨m, s.clock, ∅⟩ post) :
    ∃ res w, post res w ∧ s.act? k action =
      some (⟨res, w.journal⟩, ⟨s.maps.setIfInBounds k (some w.map), w.clock⟩) := by
  obtain ⟨res, w, hp, hw⟩ := actOn_eq h
  refine ⟨res, w, hp, ?_⟩
  unfold act?
  rw [hm]
  simp only [hw]

theorem act?_eq_none (hm : s.map? k = none) : s.act? k action = none := by
  unfold act?
  rw [hm]

theorem retire?_eq (hm : s.map? k = some m) (h : Ends action ⟨m, s.clock, ∅⟩ post) :
    ∃ res w, post res w ∧ s.retire? k action =
      some (⟨res, w.journal⟩, ⟨s.maps.setIfInBounds k none, w.clock⟩) := by
  obtain ⟨res, w, hp, hw⟩ := act?_eq hm h
  refine ⟨res, w, hp, ?_⟩
  rw [retire?, hw]
  simp [setMap]

section Moves

/-- One map moves into another one, which is empty. -/
structure Moves (s : Store κ ν) (j k : Nat) (x y : Map κ ν) : Prop where
  target : s.map? j = some x
  source : s.map? k = some y
  ne : j ≠ k
  empty : x.isEmpty = true

/-- The store after a move. -/
def moved (s : Store κ ν) (j k : Nat) (x y : Map κ ν) : Store κ ν :=
  (s.setMap j (some ⟨x.id, y.arena, y.count, y.policy⟩)).setMap k
    (some ⟨y.id, x.arena, 0, x.policy⟩)

variable {x y : Map κ ν}

theorem map?_moved (h : s.Moves j k x y) (i : Nat) : (s.moved j k x y).map? i =
    if i = j then some ⟨x.id, y.arena, y.count, y.policy⟩
    else if i = k then some ⟨y.id, x.arena, 0, x.policy⟩ else s.map? i := by
  have hj := lt_size_of_map? h.target
  have hk : k < (s.setMap j (some ⟨x.id, y.arena, y.count, y.policy⟩)).maps.size := by
    simpa [setMap] using lt_size_of_map? h.source
  unfold moved
  rw [setMap, map?_setIfInBounds _ hk, setMap, map?_setIfInBounds _ hj]
  have hne := h.ne
  split <;> split <;> first | rfl | omega

end Moves

section Step

variable {x y : Map κ ν} [EntrySize κ ν]

theorem step_on_none (hm : s.map? k = none) (op : Map.Op κ ν) :
    s.step (.on k op) = (⟨.ok .noMap, ∅⟩, s) := by
  rw [step, act?_eq_none hm]
  rfl

theorem step_on {op : Map.Op κ ν} {post : Except Fault (Reply κ ν) → Workspace κ ν → Prop}
    (hm : s.map? k = some m) (h : Ends op.perform ⟨m, s.clock, ∅⟩ post) :
    ∃ res w, post res w ∧ s.step (.on k op) =
      (⟨res, w.journal⟩, ⟨s.maps.setIfInBounds k (some w.map), w.clock⟩) := by
  obtain ⟨res, w, hp, ha⟩ := act?_eq hm h
  refine ⟨res, w, hp, ?_⟩
  rw [step, ha]
  cases res <;> rfl

theorem step_on_ok {op : Map.Op κ ν} {a : Reply κ ν} {w : Workspace κ ν} (hm : s.map? k = some m)
    (h : op.perform ⟨m, s.clock, ∅⟩ = .ok a w) :
    s.step (.on k op) = (⟨.ok a, w.journal⟩, ⟨s.maps.setIfInBounds k (some w.map), w.clock⟩) := by
  simp only [step, act?, hm, actOn, h]
  rfl

theorem step_create {policy : Policy κ} {entries : List (κ × ν)}
    {post : Except Fault Unit → Workspace κ ν → Prop}
    (h : Ends (Map.insertMany entries) ⟨.fresh ⟨s.maps.size⟩ policy, s.clock, ∅⟩ post) :
    ∃ res w, post res w ∧ s.step (.create policy entries) =
      (⟨res.map fun _ => .number s.maps.size, w.journal⟩, ⟨s.maps.push (some w.map), w.clock⟩) := by
  obtain ⟨res, w, hp, ha⟩ := actOn_eq h
  refine ⟨res, w, hp, ?_⟩
  simp only [step, create, ha]

theorem step_create_ok {policy : Policy κ} {entries : List (κ × ν)} {u : Unit} {w : Workspace κ ν}
    (h : Map.insertMany entries ⟨.fresh ⟨s.maps.size⟩ policy, s.clock, ∅⟩ = .ok u w) :
    s.step (.create policy entries) =
      (⟨.ok (.number s.maps.size), w.journal⟩, ⟨s.maps.push (some w.map), w.clock⟩) := by
  simp only [step, create, actOn, h]
  rfl

theorem step_discard_none (hm : s.map? k = none) : s.step (.discard k) = (⟨.ok .noMap, ∅⟩, s) := by
  rw [step, retire?, act?_eq_none hm]
  rfl

theorem step_discard {post : Except Fault Unit → Workspace κ ν → Prop} (hm : s.map? k = some m)
    (h : Ends Map.discard ⟨m, s.clock, ∅⟩ post) : ∃ res w, post res w ∧ s.step (.discard k) =
      (⟨res.map fun _ => .done, w.journal⟩, ⟨s.maps.setIfInBounds k none, w.clock⟩) := by
  obtain ⟨res, w, hp, ha⟩ := retire?_eq hm h
  refine ⟨res, w, hp, ?_⟩
  rw [step, ha]
  rfl

theorem step_discard_ok {u : Unit} {w : Workspace κ ν} (hm : s.map? k = some m)
    (h : Map.discard ⟨m, s.clock, ∅⟩ = .ok u w) : s.step (.discard k) =
      (⟨.ok .done, w.journal⟩, ⟨s.maps.setIfInBounds k none, w.clock⟩) := by
  simp only [step, retire?, act?, hm, actOn, h, setMap, Option.map_some,
    Array.setIfInBounds_setIfInBounds]
  rfl

theorem step_consume_none (hm : s.map? k = none) (pulls : List Pull) :
    s.step (.consume k pulls) = (⟨.ok .noMap, ∅⟩, s) := by
  rw [step, retire?, act?_eq_none hm]
  rfl

theorem step_consume_ok {es : List (Entry κ ν)} {w : Workspace κ ν} (hm : s.map? k = some m)
    (h : Map.consume ⟨m, s.clock, ∅⟩ = .ok es w) (pulls : List Pull) : s.step (.consume k pulls) =
      (⟨.ok (.many (Harvest.answers pulls ⟨es⟩)), w.journal⟩,
        ⟨s.maps.setIfInBounds k none, w.clock⟩) := by
  simp only [step, retire?, act?, hm, actOn, h, setMap, Option.map_some,
    Array.setIfInBounds_setIfInBounds]
  rfl

theorem step_transfer (h : s.Moves j k x y) : s.step (.transfer j k) =
    (⟨.ok .done, (∅ : Journal κ ν).record (.moved y.count y.id x.id)⟩, s.moved j k x y) := by
  simp only [step, transfer?, h.target, h.source, if_neg h.ne, Map.takeOver, h.empty, if_true]
  rfl

/-- A transfer into a map that holds entries is a misuse; between missing maps, or from a map into
itself, there is none. -/
theorem step_transfer_refused (h : ∀ x y, ¬ s.Moves j k x y) : s.step (.transfer j k) =
    (⟨if j ≠ k ∧ (s.map? j).isSome ∧ (s.map? k).isSome then .error .movesIntoNonEmpty
      else .ok .noMap, ∅⟩, s) := by
  simp only [step, transfer?]
  cases hx : s.map? j with
  | none => simp [conclude]
  | some x =>
    cases hy : s.map? k with
    | none => simp [conclude]
    | some y =>
      by_cases hne : j = k
      · simp [hne, conclude]
      · have he : x.isEmpty = false := by
          by_contra he
          exact h x y ⟨hx, hy, hne, by simpa using he⟩
        simp [hne, Map.takeOver, he, conclude]
        rfl

end Step

section Run

variable [EntrySize κ ν]

theorem after_cons (op : Op κ ν) (ops : List (Op κ ν)) (s : Store κ ν) :
    after (op :: ops) s = after ops (s.step op).2 := rfl

theorem after_append (ops ops' : List (Op κ ν)) (s : Store κ ν) :
    after (ops ++ ops') s = after ops' (after ops s) := by
  induction ops generalizing s with
  | nil => rfl
  | cons op ops ih => rw [List.cons_append, after_cons, ih, after_cons]

/-- Whatever every operation keeps, every run keeps. -/
theorem after_keeps {kept : Store κ ν → Prop} (hs : ∀ s op, kept s → kept (s.step op).2)
    (ops : List (Op κ ν)) {s : Store κ ν} (h : kept s) : kept (after ops s) := by
  induction ops generalizing s with
  | nil => exact h
  | cons op ops ih => exact ih (hs s op h)

end Run
end Store
end OrderedMap
