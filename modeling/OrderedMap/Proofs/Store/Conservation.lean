import OrderedMap.Proofs.Map.Stock
import OrderedMap.Proofs.Store.WellFormed
import OrderedMap.Proofs.Store.Tracking

/-!
Tags and values are conserved. In a run over maps that have both hooks, whatever the caller has
given is stored in one map, has been received by a hook, has been handed back, or was replaced by
the caller. What the hooks receive, and in which order, is told for every operation.
-/
namespace OrderedMap
namespace Store

variable {κ ν : Type} {s : Store κ ν} {k : Nat} {m : Map κ ν}

/-- The tags and values in the slots of all maps. -/
def stored (s : Store κ ν) : Goods κ ν := (s.maps.toList.map fun m => m.elim 0 Map.stored).sum

section Stored

/-- One map and all other ones. -/
theorem exists_rest (hm : s.map? k = some m) : ∃ rest, s.stored = m.stored + rest ∧
    ∀ x clock, stored ⟨s.maps.setIfInBounds k x, clock⟩ = x.elim 0 Map.stored + rest := by
  have hk : k < s.maps.toList.length := lt_size_of_map? hm
  let others := s.maps.toList.take k ++ s.maps.toList.drop (k + 1)
  have replaced (x : Option (Map κ ν)) (clock : Nat) :
      stored ⟨s.maps.setIfInBounds k x, clock⟩ =
        x.elim 0 Map.stored + (others.map fun m => m.elim 0 Map.stored).sum := by
    rw [stored, Array.toList_setIfInBounds, List.set_eq_take_append_cons_drop, if_pos hk]
    simp only [others, List.map_append, List.map_cons, List.sum_append, List.sum_cons]
    abel
  refine ⟨_, ?_, replaced⟩
  have same := replaced (some m) s.clock
  rwa [show ⟨s.maps.setIfInBounds k (some m), s.clock⟩ = s from setMap_self hm] at same

theorem stored_push (m : Map κ ν) (clock : Nat) :
    stored ⟨s.maps.push (some m), clock⟩ = s.stored + m.stored := by
  simp [stored]

theorem stored_moved {j k : Nat} {x y : Map κ ν} (h : s.Moves j k x y) :
    (s.moved j k x y).stored = s.stored := by
  let target : Map κ ν := ⟨x.id, y.arena, y.count, y.policy⟩
  have source : (s.setMap j (some target)).map? k = some y := by
    rw [setMap, map?_setIfInBounds _ (lt_size_of_map? h.target), if_neg h.ne.symm, h.source]
  obtain ⟨rest, before, after⟩ := exists_rest h.target
  obtain ⟨rest', before', after'⟩ := exists_rest source
  -- The entries of `y` are in the target meanwhile, and counted twice.
  have between : y.stored + rest = y.stored + rest' :=
    (after (some target) s.clock).symm.trans before'
  rw [before, add_left_cancel between]
  exact after' _ _

end Stored

variable [EntrySize κ ν]

/-- What the caller gives with an operation. -/
def Op.given (op : Op κ ν) (s : Store κ ν) : Goods κ ν :=
  match op with
  | .create _ entries => (entries.map fun e => Goods.entry ⟨e.1, e.2⟩).sum
  | .on _ f => f.given (s.step op).1.result
  | .transfer _ _ | .discard _ | .consume _ _ => 0

/-- What the caller gets back from an operation for good. The entries of a map that is consumed are
all the caller's, whether they are pulled or not. -/
def Op.returned (op : Op κ ν) (s : Store κ ν) : Goods κ ν :=
  match op with
  | .on _ f => f.returned (s.step op).1.result
  | .consume k _ =>
    match s.retire? k Map.consume with
    | some (⟨.ok entries, _⟩, _) => (entries.map Goods.entry).sum
    | _ => 0
  | .create _ _ | .transfer _ _ | .discard _ => 0

/-- What the caller replaces with an operation. -/
def Op.replaced (op : Op κ ν) (s : Store κ ν) : Goods κ ν :=
  match op with
  | .on _ f => f.replaced (s.step op).1.result
  | .create _ _ | .transfer _ _ | .discard _ | .consume _ _ => 0

/-- What the hooks receive from an operation. -/
def Op.released (op : Op κ ν) (s : Store κ ν) : Goods κ ν :=
  Released.total (s.step op).1.journal.released.toList

/-- What changes hands in a run, of one kind. -/
def total (f : Op κ ν → Store κ ν → Goods κ ν) : List (Op κ ν) → Store κ ν → Goods κ ν
  | [], _ => 0
  | op :: rest, s => f op s + total f rest (s.step op).2

/-- What the hooks receive from an operation, in order. -/
def Op.releases (op : Op κ ν) (s : Store κ ν) : List (Released κ ν) :=
  match op with
  | .create policy entries =>
    Map.insertManyReleases entries ⟨.fresh ⟨s.maps.size⟩ policy, s.clock, ∅⟩
  | .on k f => (s.map? k).elim [] fun m => f.releases ⟨m, s.clock, ∅⟩
  | .discard k => (s.map? k).elim [] fun m => m.upwardEntries.flatMap m.policy.releases
  | .transfer _ _ | .consume _ _ => []

/-- The policy of a map after an operation: with the entries of a map its policy moves too. -/
def Op.policy? (op : Op κ ν) (s : Store κ ν) (k : Nat) : Option (Policy κ) :=
  match op with
  | .create policy _ => if k = s.maps.size then some policy else (s.map? k).map (·.policy)
  | .transfer target source =>
    if s.canMove target source ∧ k = target then
      (s.map? source).map (·.policy)
    else if s.canMove target source ∧ k = source then
      (s.map? target).map (·.policy)
    else
      (s.map? k).map (·.policy)
  | .on _ _ | .discard _ | .consume _ _ => (s.map? k).map (·.policy)

/-- Every map has both hooks. -/
def Hooked (s : Store κ ν) : Prop := ∀ k m, s.map? k = some m → m.policy.Hooked

/-- An operation releases what is told, keeps the policies or moves them, and balances. -/
structure Op.Conserves (op : Op κ ν) (s : Store κ ν) : Prop where
  releases : (s.step op).1.journal.released.toList = op.releases s
  policy : ∀ k m, (s.step op).2.map? k = some m → op.policy? s k = some m.policy
  balance : s.Hooked → (∀ policy entries, op = .create policy entries → policy.Hooked) →
    op.given s + s.stored =
      (s.step op).2.stored + op.released s + (op.returned s + op.replaced s)

/-- An operation that does nothing conserves everything. -/
theorem Op.conserves_of_still {op : Op κ ν} {out : Except Fault (Reply κ ν)}
    (he : s.step op = (⟨out, ∅⟩, s)) (releases : op.releases s = [])
    (policy : ∀ k, op.policy? s k = (s.map? k).map (·.policy)) (given : op.given s = 0)
    (returned : op.returned s = 0) (replaced : op.replaced s = 0) : op.Conserves s := by
  refine ⟨?_, fun k m hm => ?_, fun _ _ => ?_⟩
  · rw [he, releases]
    rfl
  · rw [he] at hm
    rw [policy, hm, Option.map_some]
  · have released : op.released s = 0 := by
      rw [Op.released, he]
      rfl
    rw [he, given, released, returned, replaced, add_zero, add_zero, zero_add, add_zero]

theorem conserves_create (policy : Policy κ) (entries : List (κ × ν)) :
    Op.Conserves (.create policy entries) s := by
  have hy := Map.yields_insertMany_conserves (w := ⟨.fresh ⟨s.maps.size⟩ policy, s.clock, ∅⟩)
    (Map.shows_fresh _ _) entries
  obtain ⟨res, w, ⟨r', hc⟩, he⟩ := step_create (hy.ends (q := fun _ w => ∃ r',
    Map.Conserves ⟨.fresh ⟨s.maps.size⟩ policy, s.clock, ∅⟩ w _ r' _ _ 0) fun _ _ hc => hc)
  have released : w.journal.released.toList =
      Map.insertManyReleases entries ⟨.fresh ⟨s.maps.size⟩ policy, s.clock, ∅⟩ := by
    rw [hc.disposes.released]
    rfl
  refine ⟨?_, ?_, fun _ hh => ?_⟩
  · rw [he]
    exact released
  · intro j x hx
    rw [he, map?_push] at hx
    rw [Op.policy?]
    split at hx
    · cases hx
      rw [if_pos ‹_›, hc.disposes.shows.policy, hc.policy]
    · rw [if_neg ‹_›, hx, Option.map_some]
  · have balance := hc.balance (hh policy entries rfl)
    rw [← hc.disposes.shows.stored, ← released, show Roll.stock _ = 0 from rfl] at balance
    rw [Op.given, Op.released, he, stored_push]
    calc (entries.map fun e => Goods.entry ⟨e.1, e.2⟩).sum + s.stored
        = ((entries.map fun e => Goods.entry ⟨e.1, e.2⟩).sum + 0) + s.stored := by rw [add_zero]
      _ = w.map.stored + Released.total w.journal.released.toList + 0 + s.stored := by rw [balance]
      _ = s.stored + w.map.stored + Released.total w.journal.released.toList + (0 + 0) := by abel

theorem Sound.conserves_on (h : s.Sound) (k : Nat) (f : Map.Op κ ν) : Op.Conserves (.on k f) s := by
  cases hm : s.map? k with
  | none =>
    refine Op.conserves_of_still (step_on_none hm f) ?_ (fun _ => rfl) ?_ ?_ ?_
    · rw [Op.releases, hm]
      rfl
    · rw [Op.given, step_on_none hm]
      cases f <;> rfl
    · rw [Op.returned, step_on_none hm]
      cases f <;> rfl
    · rw [Op.replaced, step_on_none hm]
      cases f <;> rfl
  | some m =>
    obtain ⟨r, hr, -⟩ := h k m hm
    obtain ⟨res, w, ⟨r', hc⟩, he⟩ :=
      step_on hm (Map.ends_perform_conserves (w := ⟨m, s.clock, ∅⟩) hr f)
    have released : w.journal.released.toList = f.releases ⟨m, s.clock, ∅⟩ := by
      rw [hc.disposes.released]
      rfl
    refine ⟨?_, ?_, fun hh _ => ?_⟩
    · rw [he, Op.releases, hm]
      exact released
    · intro j x hx
      rw [he, map?_setIfInBounds _ (lt_size_of_map? hm)] at hx
      split at hx
      · cases hx
        subst_vars
        rw [Op.policy?, hm, Option.map_some, hc.disposes.shows.policy, hc.policy, hr.policy]
      · rw [Op.policy?, hx, Option.map_some]
    · obtain ⟨rest, before, after⟩ := exists_rest hm
      have balance := hc.balance (hr.policy ▸ hh k m hm)
      rw [← hr.stored, ← hc.disposes.shows.stored, ← released] at balance
      rw [Op.given, Op.released, Op.returned, Op.replaced, he, before, after]
      calc f.given res + (m.stored + rest) = (f.given res + m.stored) + rest := by abel
        _ = _ := by rw [balance]; simp only [Option.elim_some]; abel

theorem conserves_transfer (j k : Nat) : Op.Conserves (.transfer j k) s := by
  by_cases hm : ∃ x y, s.Moves j k x y
  · obtain ⟨x, y, hm⟩ := hm
    have can := canMove_iff.mpr ⟨x, y, hm⟩
    have he := step_transfer hm
    refine ⟨?_, fun i z hz => ?_, fun _ _ => ?_⟩
    · rw [he]
      rfl
    · rw [he, map?_moved hm] at hz
      simp only [Op.policy?, can, true_and]
      split at hz
      · cases hz
        rw [if_pos ‹_›, hm.source, Option.map_some]
      split at hz
      · cases hz
        rw [if_neg ‹_›, if_pos ‹_›, hm.target, Option.map_some]
      · rw [if_neg ‹_›, if_neg ‹_›, hz, Option.map_some]
    · rw [Op.given, Op.released, he, stored_moved hm]
      change 0 + s.stored = s.stored + 0 + (0 + 0)
      abel
  · refine Op.conserves_of_still (step_transfer_refused fun x y hxy => hm ⟨x, y, hxy⟩) rfl
      (fun i => ?_) rfl rfl rfl
    have cannot : ¬ s.canMove j k = true := fun h => hm (canMove_iff.mp h)
    simp [Op.policy?, cannot]

/-- An operation after which a map is gone conserves everything if the hooks or the caller have got
all that was in it. -/
theorem Op.conserves_of_drop {op : Op κ ν} {out : Outcome κ ν (Reply κ ν)} {clock : Nat}
    (hm : s.map? k = some m) (he : s.step op = (out, ⟨s.maps.setIfInBounds k none, clock⟩))
    (releases : out.journal.released.toList = op.releases s)
    (policy : ∀ j, op.policy? s j = (s.map? j).map (·.policy)) (given : op.given s = 0)
    (replaced : op.replaced s = 0)
    (gone : m.policy.Hooked → Released.total (op.releases s) + op.returned s = m.stored) :
    op.Conserves s := by
  refine ⟨?_, fun j x hx => ?_, fun hh _ => ?_⟩
  · rw [he]
    exact releases
  · rw [he, map?_setIfInBounds _ (lt_size_of_map? hm)] at hx
    split at hx
    · cases hx
    · rw [policy, hx, Option.map_some]
  · obtain ⟨rest, before, after⟩ := exists_rest hm
    rw [Op.released, he, given, replaced, before, after, releases, ← gone (hh k m hm)]
    simp only [Option.elim_none]
    abel

theorem Sound.conserves_discard (h : s.Sound) (k : Nat) : Op.Conserves (.discard k) s := by
  cases hm : s.map? k with
  | none =>
    refine Op.conserves_of_still (step_discard_none hm) ?_ (fun _ => rfl) rfl rfl rfl
    rw [Op.releases, hm]
    rfl
  | some m =>
    obtain ⟨r, hr, -⟩ := h k m hm
    obtain ⟨j, hj, he⟩ := step_discard_lists hm hr.lists
    have releases : (Op.discard k).releases s = m.upwardEntries.flatMap m.policy.releases := by
      rw [Op.releases, hm]
      rfl
    refine Op.conserves_of_drop hm he (hj.trans releases.symm) (fun _ => rfl) rfl rfl fun hh => ?_
    rw [releases, hr.total_clearing hh, hr.stored]
    exact add_zero _

theorem Sound.conserves_consume (h : s.Sound) (k : Nat) (pulls : List Pull) :
    Op.Conserves (.consume k pulls) s := by
  cases hm : s.map? k with
  | none =>
    refine Op.conserves_of_still (step_consume_none hm pulls) rfl (fun _ => rfl) rfl ?_ rfl
    rw [Op.returned, retire?, act?_eq_none hm]
    rfl
  | some m =>
    obtain ⟨r, hr, -⟩ := h k m hm
    obtain ⟨j, hj, he⟩ := step_consume_lists hm hr.lists pulls
    have returned : (Op.consume k pulls).returned s = m.stored := by
      obtain ⟨j, -, hret⟩ := retire?_consume_lists hm hr.lists
      rw [Op.returned, hret, hr.stored]
      rfl
    refine Op.conserves_of_drop hm he hj (fun _ => rfl) rfl rfl fun _ => ?_
    rw [returned]
    exact zero_add _

/-- Every operation on a sound store conserves tags and values. -/
theorem Sound.conserves (h : s.Sound) (op : Op κ ν) : op.Conserves s := by
  cases op with
  | create policy entries => exact conserves_create policy entries
  | on k f => exact h.conserves_on k f
  | transfer j k => exact conserves_transfer j k
  | discard k => exact h.conserves_discard k
  | consume k pulls => exact h.conserves_consume k pulls

/-- The hooks stay, with whatever map they are. -/
theorem Hooked.step {op : Op κ ν} (h : s.Hooked) (hc : op.Conserves s)
    (hop : ∀ policy entries, op = .create policy entries → policy.Hooked) :
    (s.step op).2.Hooked := by
  intro k m hm
  have hp := hc.policy k m hm
  have former (j : Nat) (hj : (s.map? j).map (·.policy) = some m.policy) : m.policy.Hooked := by
    obtain ⟨x, hx, e⟩ := Option.map_eq_some_iff.mp hj
    exact e ▸ h j x hx
  cases op with
  | create policy entries =>
    rw [Op.policy?] at hp
    split at hp
    · exact Option.some.inj hp ▸ hop policy entries rfl
    · exact former k hp
  | transfer j i =>
    rw [Op.policy?] at hp
    split at hp
    · exact former i hp
    split at hp
    · exact former j hp
    · exact former k hp
  | on j f => exact former k hp
  | discard j => exact former k hp
  | consume j pulls => exact former k hp

theorem Sound.conserves_run (h : s.Sound) (hh : s.Hooked) (ops : List (Op κ ν))
    (hops : ∀ policy entries, .create policy entries ∈ ops → policy.Hooked) :
    total Op.given ops s + s.stored = (after ops s).stored + total Op.released ops s +
      (total Op.returned ops s + total Op.replaced ops s) := by
  induction ops generalizing s with
  | nil => simp [total, Store.after, run]
  | cons op ops ih =>
    have first := h.conserves op
    have hop : ∀ policy entries, op = .create policy entries → policy.Hooked :=
      fun policy entries e => hops policy entries (e ▸ List.mem_cons_self ..)
    have rest := ih (h.step op) (hh.step first hop) fun policy entries hm =>
      hops policy entries (List.mem_cons_of_mem _ hm)
    have balance := first.balance hh hop
    rw [after_cons]
    simp only [total]
    calc op.given s + total Op.given ops (s.step op).2 + s.stored
        = total Op.given ops (s.step op).2 + (op.given s + s.stored) := by abel
      _ = (total Op.given ops (s.step op).2 + (s.step op).2.stored) + op.released s +
          (op.returned s + op.replaced s) := by rw [balance]; abel
      _ = _ := by rw [rest]; abel

/-- After every run over maps that have both hooks, whatever the comparators, all tags and values
that the caller has given are accounted for, with their multiplicity: they are stored in one of the
maps, a hook has received them, the caller has got them back, or has replaced them. In such a run,
or any other one, the hooks receive from an operation exactly what is told of it, and they are those
of the policy that the map has at the time, which only a move takes to another map. -/
theorem conserved_after (ops : List (Op κ ν))
    (hops : ∀ policy entries, .create policy entries ∈ ops → policy.Hooked) :
    total Op.given ops ∅ = (after ops ∅).stored + total Op.released ops ∅ +
      (total Op.returned ops ∅ + total Op.replaced ops ∅) ∧
    ∀ op : Op κ ν, ((after ops ∅).step op).1.journal.released.toList = op.releases (after ops ∅) ∧
      ∀ k m, ((after ops ∅).step op).2.map? k = some m →
        op.policy? (after ops ∅) k = some m.policy := by
  have run := sound_empty.conserves_run (fun k m hm => by cases hm) ops hops
  refine ⟨?_, fun op => ?_⟩
  · rw [← run]
    exact (add_zero _).symm
  · have conserves := (sound_after ops).conserves op
    exact ⟨conserves.releases, conserves.policy⟩

/-- A run over two maps with hooks of their own, in which entries are written over, handed back,
moved and released. -/
def barter : List (Op Nat Nat) :=
  [.create ((Policy.natural.withTagHook "t0").withValueHook "v0")
      [(1, 10), (2, 20), (1, 11), (3, 30)],
    .create ((Policy.natural.withTagHook "t1").withValueHook "v1") [],
    .on 0 (.removeValue 2), .transfer 1 0, .on 1 (.revise .front [.set 12, .write 13, .erase]),
    .on 1 (.insert 4 40), .consume 1 []]

theorem conserved_after_barter :
    (total Op.released barter ∅ = .entry ⟨1, 10⟩ + .tag 2 + .value 11 + .entry ⟨1, 13⟩ ∧
      total Op.returned barter ∅ = .value 20 + .entry ⟨3, 30⟩ + .entry ⟨4, 40⟩ ∧
      total Op.replaced barter ∅ = .value 12) ∧
    total Op.given barter ∅ = (after barter ∅).stored + total Op.released barter ∅ +
      (total Op.returned barter ∅ + total Op.replaced barter ∅) ∧
    ∀ op : Op Nat Nat,
      ((after barter ∅).step op).1.journal.released.toList = op.releases (after barter ∅) ∧
      ∀ k m, ((after barter ∅).step op).2.map? k = some m →
        op.policy? (after barter ∅) k = some m.policy := by
  refine ⟨by decide +kernel, conserved_after barter fun policy entries h => ?_⟩
  simp only [barter, List.mem_cons, Op.create.injEq, reduceCtorEq, List.not_mem_nil, or_false] at h
  rcases h with ⟨rfl, -⟩ | ⟨rfl, -⟩ <;> exact ⟨rfl, rfl⟩

end Store
end OrderedMap
