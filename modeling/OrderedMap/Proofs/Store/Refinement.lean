import OrderedMap.Proofs.Map.Ordered
import OrderedMap.Proofs.Store.WellFormed

/-!
Refinement by sorted lists. As long as all comparators are total preorders, every run of operations
on a store has the results of a run on a shelf of sorted rolls, and leaves maps that show these.
-/
namespace OrderedMap

/-- A map shows a roll, and the roll is sorted. -/
structure Map.Sorts {κ ν : Type} (m : Map κ ν) (r : Roll κ ν) : Prop where
  shows : m.Shows r
  preordered : r.Preordered

namespace Store

variable {κ ν : Type} {s : Store κ ν} {σ : Shelf κ ν} {j k : Nat} {m x y : Map κ ν}
  {r u : Roll κ ν}

/-- New maps get a total preorder as their comparator. -/
def Op.Preordered : Op κ ν → Prop
  | .create policy _ => Std.TransCmp policy.comparator.compare
  | _ => True

/-- The maps of a store show the rolls of a shelf, which are sorted. -/
structure Reflects (s : Store κ ν) (σ : Shelf κ ν) : Prop where
  clock : s.clock = σ.clock
  size : s.maps.size = σ.rolls.length
  sorts : ∀ k, Option.Rel Map.Sorts (s.map? k) (σ.roll? k)

theorem reflects_empty : (∅ : Store κ ν).Reflects ⟨[], 0⟩ :=
  ⟨rfl, rfl, fun _ => .none⟩

namespace Reflects

theorem roll?_eq_some (h : s.Reflects σ) (hm : s.map? k = some m) :
    ∃ r, σ.roll? k = some r ∧ m.Sorts r := by
  have hk := h.sorts k
  rw [hm] at hk
  generalize hr : σ.roll? k = a at hk
  cases hk with
  | some hs => exact ⟨_, rfl, hs⟩

theorem roll?_eq_none (h : s.Reflects σ) (hm : s.map? k = none) : σ.roll? k = none := by
  have hk := h.sorts k
  rw [hm] at hk
  generalize σ.roll? k = a at hk ⊢
  cases hk
  rfl

theorem put {x : Option (Map κ ν)} {a : Option (Roll κ ν)} (h : s.Reflects σ) (clock : Nat)
    (hk : k < s.maps.size) (hx : Option.Rel Map.Sorts x a) :
    Reflects ⟨s.maps.setIfInBounds k x, clock⟩ (σ.put k a clock) := by
  refine ⟨rfl, by simpa [Shelf.put] using h.size, fun i => ?_⟩
  rw [map?_setIfInBounds _ hk, Shelf.roll?_put _ _ (h.size ▸ hk)]
  split
  · exact hx
  · exact h.sorts i

theorem push (h : s.Reflects σ) (clock : Nat) (hm : m.Sorts r) :
    Reflects ⟨s.maps.push (some m), clock⟩ ⟨σ.rolls ++ [some r], clock⟩ := by
  refine ⟨rfl, by simpa using h.size, fun i => ?_⟩
  rw [map?_push, Shelf.roll?_append, h.size]
  split
  · exact .some hm
  · exact h.sorts i

/-- A move of a map is a move of its whole list. -/
theorem move (h : s.Reflects σ) (hm : s.Moves j k x y) (hx : x.Sorts r) (hy : y.Sorts u) :
    (s.moved j k x y).Reflects ((σ.put j (some ⟨r.id, u.policy, u.items⟩) σ.clock).put k
      (some ⟨u.id, r.policy, []⟩) σ.clock) := by
  have taken : Map.Sorts ⟨x.id, y.arena, y.count, y.policy⟩ ⟨r.id, u.policy, u.items⟩ :=
    ⟨hx.shows.taken hy.shows, hy.preordered.order, hy.preordered.increasing⟩
  have given : Map.Sorts ⟨y.id, x.arena, 0, x.policy⟩ ⟨u.id, r.policy, []⟩ :=
    ⟨hx.shows.given hy.shows hm.empty, Roll.preordered_nil hx.preordered.order⟩
  have first := h.put σ.clock (lt_size_of_map? hm.target) (.some taken)
  have second := first.put (k := k) σ.clock
    (by simpa using lt_size_of_map? hm.source) (.some given)
  rw [moved, setMap, setMap, h.clock]
  exact second

/-- A transfer that moves nothing is refused on the shelf as well. -/
theorem refuses (h : s.Reflects σ) (hm : ∀ x y, ¬ s.Moves j k x y) : σ.Steps (.transfer j k)
    (if j ≠ k ∧ (s.map? j).isSome ∧ (s.map? k).isSome then .error .movesIntoNonEmpty
      else .ok .noMap) σ := by
  split
  · rename_i there
    obtain ⟨ne, hj, hk⟩ := there
    obtain ⟨x, hx⟩ := Option.isSome_iff_exists.mp hj
    obtain ⟨y, hy⟩ := Option.isSome_iff_exists.mp hk
    obtain ⟨r, hr, hs⟩ := h.roll?_eq_some hx
    obtain ⟨u, hu, -⟩ := h.roll?_eq_some hy
    refine .transferFull hr hu ne fun he => hm x y ⟨hx, hy, ne, ?_⟩
    rw [Map.isEmpty, hs.shows.count, he]
    rfl
  · rename_i there
    refine .transferMissing ?_
    by_contra hne
    obtain ⟨ne, hj, hk⟩ := not_or.mp hne |>.imp_right not_or.mp
    refine there ⟨ne, ?_, ?_⟩
    · exact Option.isSome_iff_ne_none.mpr fun hx => hj (h.roll?_eq_none hx)
    · exact Option.isSome_iff_ne_none.mpr fun hy => hk (h.roll?_eq_none hy)

variable [EntrySize κ ν]

/-- An operation on a store is matched by one on the shelf it reflects. -/
theorem step (h : s.Reflects σ) {op : Op κ ν} (ho : op.Preordered) :
    ∃ σ', σ.Steps op (s.step op).1.result σ' ∧ (s.step op).2.Reflects σ' := by
  cases op with
  | create policy entries =>
    have hy := Map.yields_insertMany_inserts (w := ⟨.fresh ⟨s.maps.size⟩ policy, s.clock, ∅⟩)
      (Map.shows_fresh _ _) (Roll.preordered_nil ho) entries
    obtain ⟨res, w, ⟨rfl, r, hi, hr, hl⟩, he⟩ := step_create (hy.ends (q := fun res w' =>
      res = .ok () ∧ ∃ r' : Roll κ ν, Roll.InsertsAll entries ⟨⟨s.maps.size⟩, policy, []⟩ s.clock
        r' w'.clock ∧ r'.Preordered ∧ Map.Leaves _ w' r') fun _ _ hp => ⟨rfl, hp⟩)
    rw [he]
    rw [h.size, h.clock] at hi
    refine ⟨_, ?_, h.push _ ⟨hl.shows, hr⟩⟩
    rw [h.size]
    exact .create hi
  | on k op =>
    cases hm : s.map? k with
    | none =>
      rw [step_on_none hm]
      exact ⟨σ, .onMissing (h.roll?_eq_none hm), h⟩
    | some m =>
      obtain ⟨r, hr, hs⟩ := h.roll?_eq_some hm
      obtain ⟨res, w, ⟨r', hp, hr', hl⟩, he⟩ :=
        step_on hm (Map.ends_perform_list (w := ⟨m, s.clock, ∅⟩) hs.shows hs.preordered op)
      rw [he]
      rw [h.clock] at hp
      exact ⟨_, .on hr hp, h.put _ (lt_size_of_map? hm) (.some ⟨hl.shows, hr'⟩)⟩
  | transfer j k =>
    by_cases hm : ∃ x y, s.Moves j k x y
    · obtain ⟨x, y, hm⟩ := hm
      obtain ⟨r, hr, hx⟩ := h.roll?_eq_some hm.target
      obtain ⟨u, hu, hy⟩ := h.roll?_eq_some hm.source
      rw [step_transfer hm]
      exact ⟨_, .transfer hr hu hm.ne (hx.shows.items_eq_nil hm.empty), h.move hm hx hy⟩
    · rw [step_transfer_refused fun x y hxy => hm ⟨x, y, hxy⟩]
      exact ⟨σ, h.refuses fun x y hxy => hm ⟨x, y, hxy⟩, h⟩
  | discard k =>
    cases hm : s.map? k with
    | none =>
      rw [step_discard_none hm]
      exact ⟨σ, .discardMissing (h.roll?_eq_none hm), h⟩
    | some m =>
      obtain ⟨r, hr, hs⟩ := h.roll?_eq_some hm
      obtain ⟨j, -, he⟩ := step_discard_lists hm hs.shows.lists
      rw [he]
      exact ⟨_, .discard hr, h.clock ▸ h.put _ (lt_size_of_map? hm) .none⟩
  | consume k pulls =>
    cases hm : s.map? k with
    | none =>
      rw [step_consume_none hm]
      exact ⟨σ, .consumeMissing (h.roll?_eq_none hm), h⟩
    | some m =>
      obtain ⟨r, hr, hs⟩ := h.roll?_eq_some hm
      obtain ⟨j, -, he⟩ := step_consume_lists hm hs.shows.lists pulls
      rw [he, Harvest.answers_eq]
      exact ⟨_, .consume hr, h.clock ▸ h.put _ (lt_size_of_map? hm) .none⟩

theorem run (h : s.Reflects σ) {ops : List (Op κ ν)} (ho : ∀ op ∈ ops, op.Preordered) :
    ∃ σ', Shelf.Runs ops σ ((run ops s).1.map (·.result)) σ' ∧ (Store.run ops s).2.Reflects σ' := by
  induction ops generalizing s σ with
  | nil => exact ⟨σ, .nil, h⟩
  | cons op rest ih =>
    obtain ⟨σ₁, hstep, h₁⟩ := h.step (ho op (List.mem_cons_self ..))
    obtain ⟨σ', hrun, h'⟩ := ih h₁ fun op hop => ho op (List.mem_cons_of_mem _ hop)
    exact ⟨σ', .cons hstep hrun, h'⟩

end Reflects

variable [EntrySize κ ν]

/-- Every run of operations, where new maps get a total preorder as their comparator, has the
results of a run on sorted lists of entries, and leaves the maps showing these lists. -/
theorem run_refines_shelf (ops : List (Op κ ν)) (h : ∀ op ∈ ops, op.Preordered) :
    ∃ σ, Shelf.Runs ops ⟨[], 0⟩ ((run ops ∅).1.map (·.result)) σ ∧ (run ops ∅).2.Reflects σ :=
  reflects_empty.run h

/-- A run on maps in which tags are equal that agree but for the last digit. -/
def coarse : List (Op Nat String) :=
  [.create (.ofComparison (compareOn (· / 10))) [(12, "a"), (35, "b")], .create .natural [],
    .on 0 (.insert 17 "c"), .on 0 (.get 11), .on 0 (.erase 50), .transfer 1 0, .on 1 (.remove 19)]

theorem run_refines_shelf_coarse : (∀ op ∈ coarse, op.Preordered) ∧
    ∃ σ, Shelf.Runs coarse ⟨[], 0⟩ ((run coarse ∅).1.map (·.result)) σ ∧
      (run coarse ∅).2.Reflects σ := by
  have h : ∀ op ∈ coarse, op.Preordered := by
    simp only [coarse, List.forall_mem_cons, Op.Preordered, true_and]
    refine ⟨?_, ?_, nofun⟩
    · exact inferInstanceAs (Std.TransCmp (compareOn fun n : Nat => n / 10))
    · exact inferInstanceAs (Std.TransCmp fun a b : Nat => compare a b)
  exact ⟨h, run_refines_shelf coarse h⟩

end Store
end OrderedMap
