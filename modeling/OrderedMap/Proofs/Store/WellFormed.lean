import OrderedMap.Proofs.Map.WellFormed
import OrderedMap.Proofs.Store.Steps

/-!
Every run of operations, with any comparators, leaves every map well formed. The self check of such
a map can find its items out of order at most, and nothing at all where the comparator is a total
preorder.
-/
namespace OrderedMap
namespace Map

variable {κ ν : Type} {x y : Map κ ν} {r u : Roll κ ν}

theorem shows_fresh (id : MapId) (policy : Policy κ) :
    (fresh id policy : Map κ ν).Shows ⟨id, policy, []⟩ := ⟨rfl, rfl, lists_fresh id policy⟩

theorem Shows.items_eq_nil (h : x.Shows r) (he : x.isEmpty = true) : r.items = [] := by
  rw [isEmpty, beq_iff_eq, h.count] at he
  exact List.length_eq_zero_iff.mp he

/-- What a map shows that has taken over another one. -/
theorem Shows.taken (hx : x.Shows r) (hy : y.Shows u) :
    (⟨x.id, y.arena, y.count, y.policy⟩ : Map κ ν).Shows ⟨r.id, u.policy, u.items⟩ := by
  obtain ⟨t, hb, hr, hc, hn⟩ := hy.lists
  exact ⟨hx.id, hy.policy, t, hb, hr, hc, hn⟩

/-- What a map shows that an empty one has taken over. -/
theorem Shows.given (hx : x.Shows r) (hy : y.Shows u) (he : x.isEmpty = true) :
    (⟨y.id, x.arena, 0, x.policy⟩ : Map κ ν).Shows ⟨u.id, r.policy, []⟩ := by
  obtain ⟨t, hb, hr, hc, hn⟩ := hx.lists
  rw [hx.items_eq_nil he] at hc
  exact ⟨hy.id, hx.policy, t, hb, hr, hc, rfl⟩

end Map

theorem Roll.sorted_nil {κ ν : Type} (id : MapId) (policy : Policy κ) :
    (⟨id, policy, []⟩ : Roll κ ν).Sorted := fun _ => .nil

namespace Store

variable {κ ν : Type} {s : Store κ ν} {k : Nat} {m : Map κ ν}

/-- Every map has its number as its identity and shows a sorted roll. -/
def Sound (s : Store κ ν) : Prop :=
  ∀ k m, s.map? k = some m → ∃ r, m.Shows r ∧ r.id = ⟨k⟩ ∧ r.Sorted

theorem sound_empty : (∅ : Store κ ν).Sound := by
  intro k m hm
  rw [map?_empty] at hm
  cases hm

theorem Sound.set {r : Roll κ ν} {clock : Nat} (h : s.Sound) (hk : k < s.maps.size)
    (hm : m.Shows r) (hid : r.id = ⟨k⟩) (hs : r.Sorted) :
    Sound ⟨s.maps.setIfInBounds k (some m), clock⟩ := by
  intro j x hx
  rw [map?_setIfInBounds _ hk] at hx
  split at hx
  · cases hx
    subst_vars
    exact ⟨r, hm, hid, hs⟩
  · exact h j x hx

theorem Sound.drop (h : s.Sound) (k : Nat) : (s.setMap k none).Sound :=
  fun j x hx => h j x (map?_eq_some_of_setMap_none hx).2

theorem Sound.push {r : Roll κ ν} {clock : Nat} (h : s.Sound) (hm : m.Shows r)
    (hid : r.id = ⟨s.maps.size⟩) (hs : r.Sorted) : Sound ⟨s.maps.push (some m), clock⟩ := by
  intro j x hx
  rw [map?_push] at hx
  split at hx
  · cases hx
    subst_vars
    exact ⟨r, hm, hid, hs⟩
  · exact h j x hx

theorem Sound.move {j : Nat} {x y : Map κ ν} (h : s.Sound) (hm : s.Moves j k x y) :
    (s.moved j k x y).Sound := by
  intro i z hz
  obtain ⟨r, hr, hri, -⟩ := h j x hm.target
  obtain ⟨u, hu, hui, hus⟩ := h k y hm.source
  rw [map?_moved hm] at hz
  split at hz
  · cases hz
    subst_vars
    exact ⟨_, hr.taken hu, hri, hus⟩
  split at hz
  · cases hz
    subst_vars
    exact ⟨_, hr.given hu hm.empty, hui, Roll.sorted_nil _ _⟩
  · exact h i z hz

theorem Sound.lists (h : s.Sound) (m : Map κ ν) (hm : s.map? k = some m) : ∃ xs, m.Lists xs := by
  obtain ⟨r, hr, -⟩ := h k m hm
  exact ⟨_, hr.lists⟩

variable [EntrySize κ ν]

section Taking

variable {xs : List (Item κ ν)}

theorem step_discard_lists (hm : s.map? k = some m) (h : m.Lists xs) : ∃ j : Journal κ ν,
    j.released.toList = m.upwardEntries.flatMap m.policy.releases ∧
      s.step (.discard k) = (⟨.ok .done, j⟩, s.setMap k none) := by
  have ends := (Map.yields_discard (w := ⟨m, s.clock, ∅⟩) h).ends (q := fun res w =>
    res = .ok () ∧ w.clock = s.clock ∧
      w.journal.released.toList = m.upwardEntries.flatMap m.policy.releases)
    fun _ _ hp => ⟨rfl, hp.1, hp.2.released⟩
  obtain ⟨res, w, ⟨rfl, hc, hj⟩, he⟩ := step_discard hm ends
  rw [hc] at he
  exact ⟨w.journal, hj, he⟩

theorem retire?_consume_lists (hm : s.map? k = some m) (h : m.Lists xs) : ∃ j : Journal κ ν,
    j.released.toList = [] ∧
      s.retire? k Map.consume = some (⟨.ok (xs.map (·.entry)), j⟩, s.setMap k none) := by
  have ends := (Map.yields_consume (w := ⟨m, s.clock, ∅⟩) h).ends (q := fun res w =>
    res = .ok (xs.map (·.entry)) ∧ w.clock = s.clock ∧ w.journal.released.toList = [])
    fun _ _ hp => ⟨congrArg _ hp.1, hp.2.1, hp.2.2.released⟩
  obtain ⟨res, w, ⟨rfl, hc, hj⟩, he⟩ := retire?_eq hm ends
  rw [hc] at he
  exact ⟨w.journal, hj, he⟩

theorem step_consume_lists (hm : s.map? k = some m) (h : m.Lists xs) (pulls : List Pull) :
    ∃ j : Journal κ ν, j.released.toList = [] ∧ s.step (.consume k pulls) =
      (⟨.ok (.many (Harvest.answers pulls ⟨xs.map (·.entry)⟩)), j⟩, s.setMap k none) := by
  obtain ⟨j, hj, he⟩ := retire?_consume_lists hm h
  refine ⟨j, hj, ?_⟩
  rw [step, he]
  rfl

/-- The map that an operation takes away, if it is there. -/
def Op.taking? : Op κ ν → Option Nat
  | .discard k | .consume k _ => some k
  | .create _ _ | .on _ _ | .transfer _ _ => none

/-- An operation that takes a map away leaves all others as they are. -/
theorem step_taking {op : Op κ ν} (hop : op.taking? = some k)
    (lists : ∀ m, s.map? k = some m → ∃ xs, m.Lists xs) : (s.step op).2 = s.setMap k none := by
  cases hm : s.map? k with
  | none =>
    rw [setMap_self hm]
    cases op <;> cases hop
    · rw [step_discard_none hm]
    · rw [step_consume_none hm]
  | some m =>
    obtain ⟨xs, hx⟩ := lists m hm
    cases op <;> cases hop
    · obtain ⟨j, -, he⟩ := step_discard_lists hm hx
      rw [he]
    · rename_i pulls
      obtain ⟨j, -, he⟩ := step_consume_lists hm hx pulls
      rw [he]

end Taking

/-- One operation keeps the store sound. -/
theorem Sound.step (h : s.Sound) (op : Op κ ν) : (s.step op).2.Sound := by
  cases op with
  | create policy entries =>
    have hy := Map.yields_insertMany_sorted (w := ⟨.fresh ⟨s.maps.size⟩ policy, s.clock, ∅⟩)
      (Map.shows_fresh _ _) (Roll.sorted_nil _ _) entries
    obtain ⟨res, w, ⟨r, hid, hs, hl⟩, he⟩ := step_create (hy.ends (q := fun _ w' => ∃ r' : Roll κ ν,
      r'.id = ⟨s.maps.size⟩ ∧ r'.Sorted ∧ Map.Leaves _ w' r') fun _ _ hp => hp)
    rw [he]
    exact h.push hl.shows hid hs
  | on k op =>
    cases hm : s.map? k with
    | none =>
      rw [step_on_none hm]
      exact h
    | some m =>
      obtain ⟨r, hr, hid, hs⟩ := h k m hm
      obtain ⟨res, w, ⟨r', hid', hs', hl⟩, he⟩ :=
        step_on hm (Map.ends_perform_sorted (w := ⟨m, s.clock, ∅⟩) hr hs op)
      rw [he]
      exact h.set (lt_size_of_map? hm) hl.shows (hid'.trans hid) hs'
  | transfer j k =>
    by_cases hm : ∃ x y, s.Moves j k x y
    · obtain ⟨x, y, hm⟩ := hm
      rw [step_transfer hm]
      exact h.move hm
    · rw [step_transfer_refused fun x y hxy => hm ⟨x, y, hxy⟩]
      exact h
  | discard k =>
    rw [step_taking rfl h.lists]
    exact h.drop k
  | consume k pulls =>
    rw [step_taking rfl h.lists]
    exact h.drop k

theorem sound_after (ops : List (Op κ ν)) : (after ops ∅ : Store κ ν).Sound :=
  after_keeps (fun _ op h => h.step op) ops sound_empty

/-- After every run, whatever the comparators, every map is well formed, and the self check can
only find its items out of order, which it does not where the comparator is a total preorder. -/
theorem wellFormed_after (ops : List (Op κ ν)) {k : Nat} {m : Map κ ν}
    (hm : (after ops ∅).map? k = some m) : m.WellFormed ∧
      ∃ a, ((after ops ∅).step (.on k .audit)).1.result = .ok (.audited a) ∧
        ((∃ height, a = .ok height) ∨ ∃ n, a = .error (.outOfOrder n)) ∧
        (Std.TransCmp m.policy.comparator.compare → ∃ height, a = .ok height) := by
  obtain ⟨r, hr, -, hs⟩ := sound_after ops k m hm
  refine ⟨hr.wellFormed, ?_⟩
  have audited : Ends Map.Op.audit.perform ⟨m, (after ops ∅).clock, ∅⟩ fun res _ =>
      ∃ a, res = .ok (.audited a) ∧ ((∃ height, a = .ok height) ∨ ∃ n, a = .error (.outOfOrder n)) ∧
        (Std.TransCmp m.policy.comparator.compare → ∃ height, a = .ok height) := by
    refine Yields.ends_with ((Map.yields_audit_sorted hr hs).mono ?_)
    intro a w' ha
    exact ⟨a, rfl, ha.2⟩
  obtain ⟨res, w, ⟨a, rfl, ha⟩, he⟩ := step_on hm audited
  exact ⟨a, by rw [he], ha⟩

/-- A run in which the first map holds every tag less than every other one, loses an entry, and
moves into the second map. -/
def disorderly : List (Op Nat Nat) :=
  [.create (.ofComparison fun _ _ => .lt) [(1, 1), (2, 2), (3, 3), (4, 4)], .create .natural [],
    .on 0 (.revise .front [.look (.move .right), .erase]), .transfer 1 0]

theorem wellFormed_after_disorderly : ∃ m, (after disorderly ∅).map? 1 = some m ∧ m.WellFormed ∧
    ∃ a, ((after disorderly ∅).step (.on 1 .audit)).1.result = .ok (.audited a) ∧
      ((∃ height, a = .ok height) ∨ ∃ n, a = .error (.outOfOrder n)) ∧
      (Std.TransCmp m.policy.comparator.compare → ∃ height, a = .ok height) := by
  have there : ((after disorderly ∅).map? 1).isSome := by decide +kernel
  obtain ⟨m, hm⟩ := Option.isSome_iff_exists.mp there
  exact ⟨m, hm, wellFormed_after disorderly hm⟩

end Store
end OrderedMap
