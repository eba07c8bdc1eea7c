import OrderedMap.Proofs.Map.Tracking
import OrderedMap.Proofs.Store.WellFormed

/-!
The fate of an entry in a store. No two nodes of the maps of a store bear the same stamp, whatever
the comparators and however arenas have travelled. An operation gives every entry of every map its
fate, and only a move brings a node into another map.
-/
namespace OrderedMap

variable {κ ν : Type}

/-- The map holds the item: in its slot, with its stamp and its entry. -/
def Map.Has (m : Map κ ν) (x : Item κ ν) : Prop :=
  ∃ y, m.arena.get? x.node = some y ∧ y.stamp = x.stamp ∧ y.entry = some x.entry

theorem Map.Shows.has_iff {m : Map κ ν} {r : Roll κ ν} {x : Item κ ν} (h : m.Shows r) :
    m.Has x ↔ x ∈ r.items := by
  obtain ⟨t, hl⟩ := h.lists
  constructor
  · rintro ⟨y, hy, hs, he⟩
    obtain ⟨z, hz, hn, hzs, hze⟩ := hl.exists_item hy
    have : z = x := by
      cases z
      cases x
      simp_all
    exact this ▸ hz
  · exact hl.get?

namespace Store

/-- A move of one map into another would be carried out. -/
def canMove (s : Store κ ν) (j k : Nat) : Bool :=
  j ≠ k && (s.map? j).any (·.isEmpty) && (s.map? k).isSome

/-- What becomes of the entry at a node of a map when an operation is carried out: nothing, if it
is erased, handed over, cleared away or moved out of the map, or if the map goes. -/
def Op.fate (op : Op κ ν) (s : Store κ ν) (k : Nat) (n : NodeId) (e : Entry κ ν) :
    Option (Entry κ ν) :=
  match op with
  | .create _ _ => some e
  | .on j op =>
    if j = k then
      match s.map? k with
      | none => some e
      | some m => op.fate ⟨m, s.clock, ∅⟩ n e
    else
      some e
  | .transfer target source => if source = k ∧ s.canMove target source then none else some e
  | .discard j | .consume j _ => if j = k then none else some e

/-- What becomes of the entry at a node of a map in the course of a run. -/
def fate [EntrySize κ ν] : List (Op κ ν) → Store κ ν → Nat → NodeId → Entry κ ν → Option (Entry κ ν)
  | [], _, _, _, e => some e
  | op :: rest, s, k, n, e => (op.fate s k n e).bind (fate rest (s.step op).2 k n)

/-- The map of a number holds the item. -/
def Has (s : Store κ ν) (k : Nat) (x : Item κ ν) : Prop := ∃ m, s.map? k = some m ∧ m.Has x

/-- Every map has its number as its identity and shows a roll with stamps drawn before, and no two
maps share a stamp. -/
structure Stamped (s : Store κ ν) : Prop where
  shows : ∀ k m, s.map? k = some m → ∃ r, m.Shows r ∧ r.id = ⟨k⟩ ∧ r.Stamped s.clock
  apart : ∀ j k x y, s.Has j x → s.Has k y → x.stamp = y.stamp → j = k

/-- Items are followed through an operation. -/
structure Follows (op : Op κ ν) (s s' : Store κ ν) : Prop where
  clock : s.clock ≤ s'.clock
  kept : ∀ k x, s.Has k x → ∀ e, op.fate s k x.node x.entry = some e →
    s'.Has k { x with entry := e }
  gone : ∀ k x, s.Has k x → op.fate s k x.node x.entry = none → ∀ j y, s'.Has j y →
    y.stamp = x.stamp → op = .transfer j k ∧ j ≠ k ∧ y = x
  origin : ∀ j y, s'.Has j y → s.clock ≤ y.stamp ∨
    (∃ x, s.Has j x ∧ x.node = y.node ∧ x.stamp = y.stamp) ∨
    ∃ k, op = .transfer j k ∧ s.canMove j k ∧ s.Has k y

variable {s : Store κ ν} {j k : Nat} {m : Map κ ν} {x y : Item κ ν} {op : Op κ ν} {clock : Nat}

theorem canMove_iff : s.canMove j k = true ↔ ∃ x y, s.Moves j k x y := by
  constructor
  · intro h
    simp only [canMove, Bool.and_eq_true, decide_eq_true_eq, Option.any_eq_true,
      Option.isSome_iff_exists] at h
    obtain ⟨⟨hne, x, hx, he⟩, y, hy⟩ := h
    exact ⟨x, y, hx, hy, hne, he⟩
  · rintro ⟨x, y, hx, hy, hne, he⟩
    simp [canMove, hx, hy, hne, he]

namespace Stamped

theorem has_iff {r : Roll κ ν} (hm : s.map? k = some m) (hr : m.Shows r) :
    s.Has k x ↔ x ∈ r.items := by
  rw [← hr.has_iff]
  constructor
  · rintro ⟨m', hm', hx⟩
    rw [hm] at hm'
    cases hm'
    exact hx
  · exact fun hx => ⟨m, hm, hx⟩

theorem drawn (h : s.Stamped) (hx : s.Has k x) : x.stamp < s.clock := by
  obtain ⟨m, hm, hx⟩ := hx
  obtain ⟨r, hr, -, hs⟩ := h.shows k m hm
  exact hs.drawn x (hr.has_iff.mp hx)

/-- A stamp tells an item in a store. -/
theorem eq (h : s.Stamped) (hx : s.Has j x) (hy : s.Has k y) (e : x.stamp = y.stamp) :
    j = k ∧ x = y := by
  obtain rfl := h.apart j k x y hx hy e
  obtain ⟨m, hm, hx⟩ := hx
  obtain ⟨r, hr, -, hs⟩ := h.shows j m hm
  exact ⟨rfl, hs.eq (hr.has_iff.mp hx) ((has_iff hm hr).mp hy) e⟩

/-- Maps stay apart when one of them draws new stamps, and every map takes its items along. -/
theorem apart_of_home {s' : Store κ ν} (h : s.Stamped) (k : Nat) (home : Nat → Nat)
    (ho : ∀ j y, s'.Has j y → (s.clock ≤ y.stamp ∧ j = k) ∨
      ∃ i x, s.Has i x ∧ x.stamp = y.stamp ∧ j = home i) (i j : Nat) (x y : Item κ ν)
    (hx : s'.Has i x) (hy : s'.Has j y) (e : x.stamp = y.stamp) : i = j := by
  rcases ho i x hx with ⟨hc, rfl⟩ | ⟨i', x', hx', hxs, rfl⟩ <;>
    rcases ho j y hy with ⟨hc', rfl⟩ | ⟨j', y', hy', hys, rfl⟩
  · rfl
  · have := h.drawn hy'
    omega
  · have := h.drawn hx'
    omega
  · rw [h.apart i' j' x' y' hx' hy' (by omega)]

end Stamped

theorem follows_refl (hf : ∀ k n e, op.fate s k n e = some e) : Follows op s s := by
  refine ⟨Nat.le_refl _, ?_, ?_, fun j y hy => .inr (.inl ⟨y, hy, rfl, rfl⟩)⟩
  · intro k x hx e he
    rw [hf] at he
    cases he
    exact hx
  · intro k x _ he
    rw [hf] at he
    cases he

/-- An operation that changes one map alone keeps the stamps apart, and items are followed through
it if they are in that map. -/
theorem follows_of_change {s' : Store κ ν} (h : s.Stamped) (k : Nat)
    (others : ∀ j, j ≠ k → s'.map? j = s.map? j) (clock : s.clock ≤ s'.clock)
    (here : ∀ m, s'.map? k = some m → ∃ r, m.Shows r ∧ r.id = ⟨k⟩ ∧ r.Stamped s'.clock)
    (away : ∀ j, j ≠ k → ∀ n e, op.fate s j n e = some e)
    (kept : ∀ x, s.Has k x → ∀ e, op.fate s k x.node x.entry = some e →
      s'.Has k { x with entry := e })
    (gone : ∀ x, s.Has k x → op.fate s k x.node x.entry = none → ∀ y, s'.Has k y →
      y.stamp ≠ x.stamp)
    (origin : ∀ y, s'.Has k y → s.clock ≤ y.stamp ∨
      ∃ x, s.Has k x ∧ x.node = y.node ∧ x.stamp = y.stamp) : s'.Stamped ∧ Follows op s s' := by
  have other_has {j : Nat} (hj : j ≠ k) (x : Item κ ν) : s'.Has j x ↔ s.Has j x := by
    unfold Has
    rw [others j hj]
  have from_old (j : Nat) (y : Item κ ν) (hy : s'.Has j y) : (s.clock ≤ y.stamp ∧ j = k) ∨
      ∃ x, s.Has j x ∧ x.node = y.node ∧ x.stamp = y.stamp := by
    by_cases hj : j = k
    · subst hj
      exact (origin y hy).imp_left fun hc => ⟨hc, rfl⟩
    · exact .inr ⟨y, (other_has hj y).mp hy, rfl, rfl⟩
  refine ⟨⟨fun j m hm => ?_, h.apart_of_home k id fun j y hy => ?_⟩, clock, ?_, ?_, ?_⟩
  · by_cases hj : j = k
    · subst hj
      exact here m hm
    · rw [others j hj] at hm
      obtain ⟨r, hr, hid, hs⟩ := h.shows j m hm
      exact ⟨r, hr, hid, hs.thins (.refl r) clock⟩
  · exact (from_old j y hy).imp_right fun ⟨x, hx, _, e⟩ => ⟨j, x, hx, e, rfl⟩
  · intro j x hx e he
    by_cases hj : j = k
    · subst hj
      exact kept x hx e he
    · rw [away j hj] at he
      cases he
      exact (other_has hj x).mpr hx
  · intro j x hx he i y hy e
    by_cases hj : j = k
    · subst hj
      by_cases hi : i = j
      · subst hi
        exact absurd e (gone x hx he y hy)
      · exact absurd (h.apart i j y x ((other_has hi y).mp hy) hx e) hi
    · rw [away j hj] at he
      cases he
  · intro j y hy
    rcases from_old j y hy with ⟨hc, -⟩ | hx
    · exact .inl hc
    · exact .inr (.inl hx)

theorem Stamped.has_moved {x y : Map κ ν} (h : s.Stamped) (hm : s.Moves j k x y) (z : Item κ ν) :
    (s.moved j k x y).Has j z ↔ s.Has k z := by
  obtain ⟨r, hr, -⟩ := h.shows j x hm.target
  obtain ⟨u, hu, -⟩ := h.shows k y hm.source
  have target : (s.moved j k x y).map? j = some ⟨x.id, y.arena, y.count, y.policy⟩ := by
    rw [map?_moved hm, if_pos rfl]
  rw [has_iff target (hr.taken hu), has_iff hm.source hu]

/-- A move brings every item of one map into the other. -/
theorem follows_of_move {x y : Map κ ν} (h : s.Stamped) (hm : s.Moves j k x y) :
    (s.moved j k x y).Stamped ∧ Follows (.transfer j k) s (s.moved j k x y) := by
  obtain ⟨r, hr, hri, -⟩ := h.shows j x hm.target
  obtain ⟨u, hu, hui, hus⟩ := h.shows k y hm.source
  have hne := hm.ne
  have source : (s.moved j k x y).map? k = some ⟨y.id, x.arena, 0, x.policy⟩ := by
    rw [map?_moved hm, if_neg hne.symm, if_pos rfl]
  have has_source (z : Item κ ν) : ¬ (s.moved j k x y).Has k z := by
    rw [Stamped.has_iff source (hr.given hu hm.empty)]
    exact List.not_mem_nil
  have has_other {i : Nat} (hj : i ≠ j) (hk : i ≠ k) (z : Item κ ν) :
      (s.moved j k x y).Has i z ↔ s.Has i z := by
    unfold Has
    rw [map?_moved hm, if_neg hj, if_neg hk]
  have empty_target (z : Item κ ν) : ¬ s.Has j z := by
    rw [Stamped.has_iff hm.target hr, hr.items_eq_nil hm.empty]
    exact List.not_mem_nil
  have from_old (i : Nat) (z : Item κ ν) (hz : (s.moved j k x y).Has i z) :
      (i = j ∧ s.Has k z) ∨ (i ≠ k ∧ s.Has i z) := by
    by_cases hj : i = j
    · subst hj
      exact .inl ⟨rfl, (h.has_moved hm z).mp hz⟩
    · have hk : i ≠ k := fun e => has_source z (e ▸ hz)
      exact .inr ⟨hk, (has_other hj hk z).mp hz⟩
  have fate_eq (i : Nat) (n : NodeId) (e : Entry κ ν) :
      Op.fate (.transfer j k) s i n e = if i = k then none else some e := by
    simp only [Op.fate, canMove_iff.mpr ⟨x, y, hm⟩, and_true, eq_comm]
  refine ⟨⟨fun i z hz => ?_, h.apart_of_home 0 (fun i => if i = k then j else i)
    fun i z hz => ?_⟩, Nat.le_refl _, ?_, ?_, ?_⟩
  · rw [map?_moved hm] at hz
    split at hz
    · cases hz
      subst_vars
      exact ⟨_, hr.taken hu, hri, hus.distinct, hus.drawn⟩
    split at hz
    · cases hz
      subst_vars
      exact ⟨_, hr.given hu hm.empty, hui, .nil, nofun⟩
    · exact h.shows i z hz
  · rcases from_old i z hz with ⟨rfl, ho⟩ | ⟨hk, ho⟩
    · exact .inr ⟨k, z, ho, rfl, (if_pos rfl).symm⟩
    · exact .inr ⟨i, z, ho, rfl, (if_neg hk).symm⟩
  · intro i z hz e he
    rw [fate_eq] at he
    split at he
    · cases he
    · rename_i hk
      cases he
      exact (has_other (fun e => empty_target z (e ▸ hz)) hk z).mpr hz
  · intro i z hz he i' z' hz' e
    rw [fate_eq] at he
    split at he
    · rename_i hk
      subst hk
      rcases from_old i' z' hz' with ⟨rfl, ho⟩ | ⟨hk, ho⟩
      · exact ⟨rfl, hne, (h.eq ho hz e).2⟩
      · exact absurd (h.apart i' i z' z ho hz e) hk
    · cases he
  · intro i z hz
    rcases from_old i z hz with ⟨rfl, ho⟩ | ⟨hk, ho⟩
    · exact .inr (.inr ⟨k, rfl, canMove_iff.mpr ⟨x, y, hm⟩, ho⟩)
    · exact .inr (.inl ⟨z, ho, rfl, rfl⟩)

/-- A map that goes takes its items along. -/
theorem follows_of_drop (h : s.Stamped)
    (hf : ∀ j n e, op.fate s j n e = if j = k then none else some e) :
    (s.setMap k none).Stamped ∧ Follows op s (s.setMap k none) := by
  have nothing (y : Item κ ν) : ¬ (s.setMap k none).Has k y := by
    rintro ⟨m, hm, -⟩
    exact (map?_eq_some_of_setMap_none hm).1 rfl
  refine follows_of_change h k (fun j hj => by rw [map?_setMap_none, if_neg hj]) (Nat.le_refl _)
    ?_ ?_ ?_ ?_ ?_
  · exact fun m hm => absurd rfl (map?_eq_some_of_setMap_none hm).1
  · intro j hj n e
    rw [hf, if_neg hj]
  · intro x _ e he
    rw [hf, if_pos rfl] at he
    cases he
  · exact fun x _ _ y hy => absurd hy (nothing y)
  · exact fun y hy => absurd hy (nothing y)

/-- Nothing happens to a map that is missing. -/
theorem follows_of_missing (h : s.Stamped) (hm : s.map? k = none)
    (hf : ∀ j, j ≠ k → ∀ n e, op.fate s j n e = some e) : s.Stamped ∧ Follows op s s := by
  have nothing (y : Item κ ν) : ¬ s.Has k y := by
    rintro ⟨m, hm', -⟩
    rw [hm] at hm'
    cases hm'
  refine follows_of_change h k (fun _ _ => rfl) (Nat.le_refl _) (fun m hm' => ?_) hf
    (fun x hx => absurd hx (nothing x)) (fun x hx => absurd hx (nothing x))
    fun y hy => absurd hy (nothing y)
  rw [hm] at hm'
  cases hm'

theorem Stamped.lists (h : s.Stamped) (m : Map κ ν) (hm : s.map? k = some m) :
    ∃ xs, m.Lists xs := by
  obtain ⟨r, hr, -⟩ := h.shows k m hm
  exact ⟨_, hr.lists⟩

variable [EntrySize κ ν]

/-- A map that is created gets new stamps alone. -/
theorem Stamped.follows_create (h : s.Stamped) (policy : Policy κ) (entries : List (κ × ν)) :
    (s.step (.create policy entries)).2.Stamped ∧
      Follows (.create policy entries) s (s.step (.create policy entries)).2 := by
  have hy := (Map.yields_insertMany_tracks (w := ⟨.fresh ⟨s.maps.size⟩ policy, s.clock, ∅⟩)
    (Map.shows_fresh _ _) ⟨.nil, nofun⟩ entries).ends (q := fun _ w' => ∃ r' : Roll κ ν,
      Map.Tracks _ _ w' ⟨⟨s.maps.size⟩, policy, []⟩ r') fun _ _ ht => ht
  obtain ⟨res, w, ⟨r', ht⟩, he⟩ := step_create hy
  rw [he]
  have hmap (j : Nat) := map?_push (s := s) w.map j w.clock
  have here : map? ⟨s.maps.push (some w.map), w.clock⟩ s.maps.size = some w.map := by
    rw [hmap, if_pos rfl]
  have before (x : Item κ ν) : ¬ s.Has s.maps.size x := by
    rintro ⟨m, hm, -⟩
    exact Nat.lt_irrefl _ (lt_size_of_map? hm)
  refine follows_of_change h s.maps.size (fun j hj => by rw [hmap, if_neg hj])
    ht.leaves.clock ?_ (fun _ _ _ _ => rfl) ?_ ?_ ?_
  · intro m hm
    rw [here] at hm
    cases hm
    exact ⟨r', ht.leaves.shows, ht.id, ht.stamped⟩
  · exact fun x hx => absurd hx (before x)
  · exact fun x hx => absurd hx (before x)
  · intro y hy
    rcases ht.follows.origin y ((has_iff here ht.leaves.shows).mp hy) with ⟨hc, -⟩ | ⟨x, hx, -⟩
    · exact .inl hc
    · cases hx

/-- Items are followed through an operation on the map in which they are. -/
theorem Stamped.follows_on (h : s.Stamped) (k : Nat) (op : Map.Op κ ν) :
    (s.step (.on k op)).2.Stamped ∧ Follows (.on k op) s (s.step (.on k op)).2 := by
  cases hm : s.map? k with
  | none =>
    rw [step_on_none hm]
    exact follows_of_missing h hm fun j hj n e => if_neg hj.symm
  | some m =>
    obtain ⟨r, hr, hid, hs⟩ := h.shows k m hm
    obtain ⟨res, w, ⟨r', ht⟩, he⟩ :=
      step_on hm (Map.ends_perform_tracks (w := ⟨m, s.clock, ∅⟩) hr hs op)
    rw [he]
    have hmap (j : Nat) := map?_setIfInBounds (some w.map) (lt_size_of_map? hm) j w.clock
    have here : map? ⟨s.maps.setIfInBounds k (some w.map), w.clock⟩ k = some w.map := by
      rw [hmap, if_pos rfl]
    have fate_eq : Op.fate (.on k op) s k = op.fate ⟨m, s.clock, ∅⟩ := by
      funext n e
      simp only [Op.fate, if_true, hm]
    refine follows_of_change h k (fun j hj => by rw [hmap, if_neg hj]) ht.leaves.clock ?_
      (fun j hj n e => ?_) ?_ ?_ ?_
    · intro m' hm'
      rw [here] at hm'
      cases hm'
      exact ⟨r', ht.leaves.shows, ht.id.trans hid, ht.stamped⟩
    · simp only [Op.fate, if_neg hj.symm]
    · intro x hx e hf
      rw [fate_eq] at hf
      exact (has_iff here ht.leaves.shows).mpr (ht.follows.kept x ((has_iff hm hr).mp hx) e hf)
    · intro x hx hf y hy
      rw [fate_eq] at hf
      exact ht.follows.gone x ((has_iff hm hr).mp hx) hf y ((has_iff here ht.leaves.shows).mp hy)
    · intro y hy
      rcases ht.follows.origin y ((has_iff here ht.leaves.shows).mp hy) with ⟨hc, -⟩ | ⟨x, hx, hn⟩
      · exact .inl hc
      · exact .inr ⟨x, (has_iff hm hr).mpr hx, hn⟩

/-- One operation keeps all stamps of the store distinct, and items are followed through it. -/
theorem Stamped.step (h : s.Stamped) (op : Op κ ν) :
    (s.step op).2.Stamped ∧ Follows op s (s.step op).2 := by
  cases op with
  | create policy entries => exact h.follows_create policy entries
  | on k op => exact h.follows_on k op
  | transfer j k =>
    by_cases hm : ∃ x y, s.Moves j k x y
    · obtain ⟨x, y, hm⟩ := hm
      rw [step_transfer hm]
      exact follows_of_move h hm
    · rw [step_transfer_refused fun x y hxy => hm ⟨x, y, hxy⟩]
      refine ⟨h, follows_refl fun i n e => if_neg fun hi => ?_⟩
      exact hm (canMove_iff.mp hi.2)
  | discard k =>
    rw [step_taking rfl h.lists]
    exact follows_of_drop h fun j n e => by simp [Op.fate, eq_comm]
  | consume k pulls =>
    rw [step_taking rfl h.lists]
    exact follows_of_drop h fun j n e => by simp [Op.fate, eq_comm]

end Store
end OrderedMap
