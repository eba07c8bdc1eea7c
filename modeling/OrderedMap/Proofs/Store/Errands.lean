import Mathlib.Data.Set.Monotone
import OrderedMap.Proofs.Map.Newcomers
import OrderedMap.Proofs.Store.Handouts

/-!
Errands to single maps, whose positions are known by the order in which they were handed out, so
that the same errands can be run on maps that hand out other positions. As long as two maps are like
each other in a guise, an errand to both gives like answers, and an errand to any other map changes
nothing between them.
-/
namespace OrderedMap

variable {κ ν : Type}

/-! The positions among the answers. -/

namespace Reply

mutual

def positions : Reply κ ν → List Position
  | position p => p.toList
  | many replies => positionsAll replies
  | _ => []

def positionsAll : List (Reply κ ν) → List Position
  | [] => []
  | a :: as => a.positions ++ positionsAll as

end

mutual

theorem mem_positions {p : Position} (a : Reply κ ν) : p ∈ a.positions ↔ a.Hands p := by
  cases a with
  | position q => rw [positions, hands_position, Option.mem_toList]
  | many replies => rw [positions, hands_many, mem_positionsAll]
  | _ => exact iff_of_false List.not_mem_nil nofun

theorem mem_positionsAll {p : Position} (as : List (Reply κ ν)) :
    p ∈ positionsAll as ↔ ∃ a ∈ as, a.Hands p := by
  cases as with
  | nil => simp [positionsAll]
  | cons a as => rw [positionsAll, List.mem_append, mem_positions a, mem_positionsAll as,
      List.exists_mem_cons_iff]

end

variable {g : Guise}

mutual

theorem positions_recast (a : Reply κ ν) :
    (a.recast g).positions = a.positions.map (Position.recast g) := by
  cases a with
  | position q => cases q <;> rfl
  | many replies => rw [recast, positions, positions, positionsAll_recast]
  | _ => rfl

theorem positionsAll_recast (as : List (Reply κ ν)) :
    positionsAll (recastAll g as) = (positionsAll as).map (Position.recast g) := by
  cases as with
  | nil => rfl
  | cons a as => rw [recastAll, positionsAll, positionsAll, List.map_append, positions_recast a,
      positionsAll_recast as]

end

end Reply

namespace Outcome

/-- The positions handed out. -/
def positions (out : Outcome κ ν (Reply κ ν)) : List Position :=
  match out.result with
  | .ok a => a.positions
  | .error _ => []

def recast (g : Guise) (out : Outcome κ ν (Reply κ ν)) : Outcome κ ν (Reply κ ν) :=
  ⟨out.result.map (Reply.recast g), out.journal.recast g⟩

theorem positions_recast (g : Guise) (out : Outcome κ ν (Reply κ ν)) :
    (out.recast g).positions = out.positions.map (Position.recast g) := by
  obtain ⟨res, j⟩ := out
  cases res with
  | ok a => exact a.positions_recast
  | error f => rfl

end Outcome

/-! Errands. -/

/-- An operation on a map that is named elsewhere. If it acts at a position, then at the one that
the map has handed out under a number, whatever position the operation itself names. -/
inductive Errand (κ ν : Type)
  | on (op : Map.Op κ ν) (number : Nat)
  | discard
  | consume (pulls : List Pull)

/-- The operation of an errand, if the position is known. -/
def Errand.op? (k : Nat) (known : List Position) : Errand κ ν → Option (Store.Op κ ν)
  | .on op number =>
    match op.position? with
    | none => some (.on k op)
    | some _ => known[number]?.map fun p => .on k (op.moveTo p)
  | .discard => some (.discard k)
  | .consume pulls => some (.consume k pulls)

/-- A store, and the positions that every map has handed out so far. -/
structure Desk (κ ν : Type) where
  store : Store κ ν
  known : Nat → List Position

namespace Desk

/-- No positions have been handed out yet. -/
def opened (s : Store κ ν) : Desk κ ν := ⟨s, fun _ => []⟩

variable [EntrySize κ ν]

/-- Run an errand to a map. There is no outcome if it asks for a position not handed out yet. -/
def step (k : Nat) (e : Errand κ ν) (d : Desk κ ν) :
    Option (Outcome κ ν (Reply κ ν)) × Desk κ ν :=
  match e.op? k (d.known k) with
  | none => (none, d)
  | some op =>
    let (out, s) := d.store.step op
    (some out, ⟨s, Function.update d.known k (d.known k ++ out.positions)⟩)

/-- Run errands to several maps one after the other. -/
def run : List (Nat × Errand κ ν) → Desk κ ν →
    List (Nat × Option (Outcome κ ν (Reply κ ν))) × Desk κ ν
  | [], d => ([], d)
  | (k, e) :: rest, d =>
    let (out, d) := d.step k e
    let (outs, d) := run rest d
    ((k, out) :: outs, d)

/-- The desk after errands to one map. -/
def after (k : Nat) (es : List (Errand κ ν)) (d : Desk κ ν) : Desk κ ν :=
  (run (es.map (k, ·)) d).2

end Desk

/-! Two maps and their positions. -/

namespace Map

variable {g : Guise} {S : Set Nat} {w w' : Workspace κ ν} {p p' : Position}

/-- Two maps are alike at any later moment as well, with new journals. -/
theorem Peers.later (h : Peers g S w w') (up : g.mirrored = false) {c c' : Nat}
    (hc : w.clock ≤ c) (hc' : w'.clock ≤ c') : Peers g S ⟨w.map, c, ∅⟩ ⟨w'.map, c', ∅⟩ := by
  obtain ⟨⟨t, xs, ht⟩, orders, stamps⟩ := h
  refine ⟨⟨t, xs, ht.holds, ht.bears, ht.id, ht.policy, ht.count, (Journal.recast_empty g).symm,
    fun hm => ?_, ht.level⟩, orders.later hc hc', stamps⟩
  rw [up] at hm
  cases hm

theorem nodeAt_own {m : Map κ ν} (hp : p.map = m.id) :
    m.nodeAt p = .error .stale ∨ ∃ n, m.nodeAt p = .ok n := by
  unfold nodeAt
  rw [if_neg (not_not.mpr hp)]
  split
  · exact .inl rfl
  · split
    · exact .inr ⟨_, rfl⟩
    · exact .inl rfl

/-- Positions resolve alike if they name the same items. -/
theorem Peers.nodeAt_eq (h : Peers g S w w') (up : g.mirrored = false) (own : p.map = w.map.id)
    (map : p'.map = g.map p.map) (known : p.stamp ∈ S) (stamp : p'.stamp = g.stamp p.stamp)
    (node : ∀ x ∈ w.map.items, x.stamp = p.stamp → (x.node = p.node ↔ g.node x.node = p'.node)) :
    w'.map.nodeAt p' = (w.map.nodeAt p).map g.node ∧ w.map.nodeAt p ≠ .error .foreign := by
  obtain ⟨⟨t, xs, ht⟩, orders, stamps⟩ := h
  rw [ht.holds.items_eq] at stamps node
  have own' : p'.map = w'.map.id := by rw [map, own, ht.id]
  have left_iff (n : NodeId) := ht.holds.nodeAt_eq_ok_iff (p := p) (n := n)
  have right_iff (n : NodeId) := ht.holds_right.nodeAt_eq_ok_iff (p := p') (n := n)
  rw [Guise.items_of_upright up] at right_iff
  rcases nodeAt_own own with he | ⟨n, hn⟩
  · rw [he]
    refine ⟨?_, nofun⟩
    rcases nodeAt_own own' with he' | ⟨n, hn⟩
    · exact he'
    · obtain ⟨-, -, y, hy, hyn, hys⟩ := (right_iff n).mp hn
      obtain ⟨x, hx, rfl⟩ := List.mem_map.mp hy
      have same : x.stamp = p.stamp :=
        orders.mono.injOn (stamps x hx) known (hys.trans stamp)
      have there := (left_iff p.node).mpr ⟨own, rfl, x, hx, (node x hx same).mpr hyn, same⟩
      rw [he] at there
      cases there
  · obtain ⟨-, rfl, x, hx, hxn, hxs⟩ := (left_iff n).mp hn
    rw [hn]
    refine ⟨(right_iff _).mpr ⟨own', ?_, x.recast g, List.mem_map_of_mem hx, ?_, ?_⟩, nofun⟩
    · rw [← hxn]
      exact (node x hx hxs).mp hxn
    · exact (node x hx hxs).mp hxn
    · rw [stamp, ← hxs]
      rfl

/-- An operation hands out positions of the map alone, with stamps that its items had before. -/
theorem ends_perform_hands {op : Op κ ν} {r : Roll κ ν} (h : w.map.Shows r)
    (hr : r.Stamped w.clock) (p : Position) : Ends op.perform w fun res _ =>
      ∀ a, res = .ok a → a.Hands p → p.map = w.map.id ∧ ∃ x ∈ w.map.items, x.stamp = p.stamp := by
  refine (Store.ends_perform_named h hr p).mono ?_
  rintro res w₁ named a rfl hp
  obtain ⟨r₂, -, r₁, before, -, x, hx, rfl⟩ := named a rfl hp
  refine ⟨before.id.trans h.id.symm, ?_⟩
  obtain ⟨y, hy, key⟩ := List.mem_map.mp (before.keys.subset (List.mem_map_of_mem hx))
  exact ⟨y, h.items_eq ▸ hy, congrArg (·.2.1) key⟩

end Map

namespace Store

theorem positions_conclude {α : Type} {s : Store κ ν} {reply : α → Reply κ ν}
    (h : ∀ x, (reply x).positions = []) {o : Option (Outcome κ ν α × Store κ ν)} :
    (conclude s reply o).1.positions = [] := by
  match o with
  | none => rfl
  | some (⟨.ok x, j⟩, t) => exact h x
  | some (⟨.error f, j⟩, t) => rfl

/-- The map on which alone an operation acts. -/
def Op.alone? : Op κ ν → Option Nat
  | .on k _ | .discard k | .consume k _ => some k
  | .create _ _ | .transfer _ _ => none

variable [EntrySize κ ν]

/-- The other maps stay as they are. -/
theorem Stamped.step_elsewhere {s : Store κ ν} (h : s.Stamped) {op : Op κ ν} {k i : Nat}
    (hop : op.alone? = some k) (hi : i ≠ k) : (s.step op).2.map? i = s.map? i := by
  cases op with
  | create policy entries => cases hop
  | transfer j k => cases hop
  | on k op =>
    cases hop
    cases hm : s.map? k with
    | none => rw [step_on_none hm]
    | some m =>
      obtain ⟨r, hr, -, hs⟩ := h.shows k m hm
      obtain ⟨res, w, -, he⟩ :=
        step_on hm (Map.ends_perform_tracks (w := ⟨m, s.clock, ∅⟩) hr hs op)
      rw [he, map?_setIfInBounds _ (lt_size_of_map? hm), if_neg hi]
  | discard k =>
    cases hop
    rw [step_taking rfl h.lists, map?_setMap_none, if_neg hi]
  | consume k pulls =>
    cases hop
    rw [step_taking rfl h.lists, map?_setMap_none, if_neg hi]

end Store

theorem Errand.alone?_of_op? {e : Errand κ ν} {k : Nat} {known : List Position} {op : Store.Op κ ν}
    (h : e.op? k known = some op) : op.alone? = some k := by
  cases e with
  | on op number =>
    rw [op?] at h
    split at h
    · cases h
      rfl
    · obtain ⟨p, -, rfl⟩ := Option.map_eq_some_iff.mp h
      rfl
  | discard =>
    cases h
    rfl
  | consume pulls =>
    cases h
    rfl

/-- Positions that two maps handed out stand for each other: the stamps correspond, and as long as
there is an item with the stamp, the nodes do as well. -/
structure Position.Paired (g : Guise) (S : Set Nat) (k : Nat) (s : Store κ ν) (p p' : Position) :
    Prop where
  own : p.map = ⟨k⟩
  map : p'.map = g.map p.map
  known : p.stamp ∈ S
  stamp : p'.stamp = g.stamp p.stamp
  node : ∀ x, s.Has k x → x.stamp = p.stamp → (x.node = p.node ↔ g.node x.node = p'.node)
  level : g.level = true → p'.node = p.node

/-- Maps of two stores are like each other in a guise, or both are gone. -/
def Store.Facing (g : Guise) (S : Set Nat) (k k' : Nat) (s s' : Store κ ν) : Prop :=
  (s.map? k = none ∧ s'.map? k' = none) ∨ ∃ m m', s.map? k = some m ∧ s'.map? k' = some m' ∧
    Map.Peers g S ⟨m, s.clock, ∅⟩ ⟨m', s'.clock, ∅⟩

namespace Desk

/-- Two maps are like each other in a guise, and so are the positions that they handed out. -/
structure Alike (g : Guise) (S : Set Nat) (k k' : Nat) (d d' : Desk κ ν) : Prop where
  left : d.store.Stamped
  right : d'.store.Stamped
  up : g.mirrored = false
  flat : g.level = true → g.node = .refl _
  orders : g.Orders S d.store.clock d'.store.clock
  maps : Store.Facing g S k k' d.store d'.store
  known : List.Forall₂ (Position.Paired g S k d.store) (d.known k) (d'.known k')

variable {g g₁ : Guise} {S S₁ : Set Nat} {k k' i : Nat} {d d' : Desk κ ν} {e : Errand κ ν}
  {op op' : Store.Op κ ν}

/-- Nothing has happened to a map and to the positions that it handed out. -/
structure Still (k : Nat) (d d₁ : Desk κ ν) : Prop where
  stamped : d₁.store.Stamped
  clock : d.store.clock ≤ d₁.store.clock
  map : d₁.store.map? k = d.store.map? k
  known : d₁.known k = d.known k

theorem Still.refl (h : d.store.Stamped) : Still k d d := ⟨h, Nat.le_refl _, rfl, rfl⟩

namespace Alike

variable {d₁ d₁' : Desk κ ν}

theorem still (h : Alike g S k k' d d') (hd : Still k d d₁) (hd' : Still k' d' d₁') :
    Alike g S k k' d₁ d₁' where
  left := hd.stamped
  right := hd'.stamped
  up := h.up
  flat := h.flat
  orders := h.orders.later hd.clock hd'.clock
  maps := by
    rw [Store.Facing, hd.map, hd'.map]
    exact h.maps.imp_right fun ⟨m, m', hm, hm', hp⟩ =>
      ⟨m, m', hm, hm', hp.later h.up hd.clock hd'.clock⟩
  known := by
    rw [hd.known, hd'.known]
    refine h.known.imp fun p p' hp => ⟨hp.own, hp.map, hp.known, hp.stamp, fun x hx => ?_, hp.level⟩
    rw [Store.Has, hd.map] at hx
    exact hp.node x hx

/-- Under the same number both maps have handed out positions that stand for each other. -/
theorem known_getElem? (h : Alike g S k k' d d') (number : Nat) :
    ((d.known k)[number]? = none ∧ (d'.known k')[number]? = none) ∨ ∃ p p',
      (d.known k)[number]? = some p ∧ (d'.known k')[number]? = some p' ∧
        Position.Paired g S k d.store p p' := by
  have length := h.known.length_eq
  by_cases hlt : number < (d.known k).length
  · exact .inr ⟨_, _, List.getElem?_eq_getElem hlt, List.getElem?_eq_getElem (length ▸ hlt),
      h.known.get hlt (length ▸ hlt)⟩
  · exact .inl ⟨List.getElem?_eq_none (by omega), List.getElem?_eq_none (by omega)⟩

/-- All stamps that two maps know of are among those that correspond. -/
theorem stamps (h : Alike g S k k' d d') :
    {s | (∃ p ∈ d.known k, p.stamp = s) ∨ ∃ x, d.store.Has k x ∧ x.stamp = s} ⊆ S := by
  rintro s (⟨p, hp, rfl⟩ | ⟨x, hx, rfl⟩)
  · obtain ⟨i, hi, rfl⟩ := List.mem_iff_getElem.mp hp
    exact (h.known.get hi (h.known.length_eq ▸ hi)).known
  · rcases h.maps with ⟨hm, -⟩ | ⟨m, m', hm, -, peers⟩
    · obtain ⟨m, hm', -⟩ := hx
      rw [hm] at hm'
      cases hm'
    · obtain ⟨r, hr, -⟩ := h.left.shows k m hm
      rw [Store.Stamped.has_iff hm hr, ← hr.items_eq] at hx
      exact peers.stamps x hx

end Alike

variable [EntrySize κ ν]

/-- An errand to both maps gives like answers and leaves them alike, in a guise that is extended to
what is new. -/
def Matches (g : Guise) (S : Set Nat) (k k' : Nat) (e : Errand κ ν) (d d' : Desk κ ν) : Prop :=
  ∃ g₁ S₁, g.Grows [] S d.store.clock d'.store.clock g₁ S₁ ∧
    (d'.step k' e).1 = (d.step k e).1.map (Outcome.recast g₁) ∧
    Alike g₁ S₁ k k' (d.step k e).2 (d'.step k' e).2

theorem step_of_op? (h : e.op? k (d.known k) = some op) : d.step k e =
    (some (d.store.step op).1, ⟨(d.store.step op).2,
      Function.update d.known k (d.known k ++ (d.store.step op).1.positions)⟩) := by
  rw [step, h]

theorem step_of_unknown (h : e.op? k (d.known k) = none) : d.step k e = (none, d) := by
  rw [step, h]

/-- Whatever the errand, the stamps stay distinct, and the clock goes on. -/
theorem step_stamped (h : d.store.Stamped) (k : Nat) (e : Errand κ ν) :
    (d.step k e).2.store.Stamped ∧ d.store.clock ≤ (d.step k e).2.store.clock := by
  cases ho : e.op? k (d.known k) with
  | none =>
    rw [step_of_unknown ho]
    exact ⟨h, Nat.le_refl _⟩
  | some op =>
    rw [step_of_op? ho]
    obtain ⟨hs, hf⟩ := h.step op
    exact ⟨hs, hf.clock⟩

/-- Nothing happens to a map when an errand goes to another one. -/
theorem step_elsewhere (h : d.store.Stamped) (hi : i ≠ k) (e : Errand κ ν) :
    Still k d (d.step i e).2 := by
  cases ho : e.op? i (d.known i) with
  | none =>
    rw [step_of_unknown ho]
    exact .refl h
  | some op =>
    have there := step_stamped h i e
    rw [step_of_op? ho] at there ⊢
    exact ⟨there.1, there.2, h.step_elsewhere (Errand.alone?_of_op? ho) hi.symm,
      Function.update_of_ne hi.symm ..⟩

namespace Alike

/-- Both maps have carried out an operation, and answered alike. -/
theorem of_step (h : Alike g S k k' d d') (hop : e.op? k (d.known k) = some op)
    (hop' : e.op? k' (d'.known k') = some op')
    (grows : g.Grows [] S d.store.clock d'.store.clock g₁ S₁)
    (node : ∀ x, d.store.Has k x → g₁.node x.node = g.node x.node)
    (out : (d'.store.step op').1 = (d.store.step op).1.recast g₁)
    (orders : g₁.Orders S₁ (d.store.step op).2.clock (d'.store.step op').2.clock)
    (maps : Store.Facing g₁ S₁ k k' (d.store.step op).2 (d'.store.step op').2)
    (hands : ∀ p ∈ (d.store.step op).1.positions, p.map = ⟨k⟩ ∧ p.stamp ∈ S₁) :
    Matches g S k k' e d d' := by
  obtain ⟨hs, hf⟩ := h.left.step op
  have alone := Errand.alone?_of_op? hop
  have flat (hl : g₁.level = true) : g₁.node = .refl _ := by
    rw [grows.level] at hl
    exact grows.flat hl (h.flat hl)
  refine ⟨g₁, S₁, grows, ?_, ?_⟩
  · rw [step_of_op? hop, step_of_op? hop', out]
    rfl
  rw [step_of_op? hop, step_of_op? hop']
  refine ⟨hs, (h.right.step op').1, grows.mirrored.trans h.up, flat, orders, maps, ?_⟩
  simp only [Function.update_self, out, Outcome.positions_recast]
  refine List.rel_append (h.known.imp fun p p' hp => ?_) ?_
  · refine ⟨hp.own, ?_, grows.subset hp.known, ?_, fun x hx hxs => ?_, fun hl => ?_⟩
    · rw [grows.map, hp.map]
    · rw [hp.stamp, grows.stamp hp.known]
    -- a stamp that is known already is that of an item which was there before
    · rcases hf.origin k x hx with hc | ⟨y, hy, hyn, hys⟩ | ⟨j, rfl, -⟩
      · have := h.orders.past _ hp.known
        omega
      · rw [← hyn, node y hy]
        exact hp.node y hy (hys.trans hxs)
      · cases alone
    · rw [grows.level] at hl
      exact hp.level hl
  · refine List.forall₂_map_right_iff.mpr (List.forall₂_same.mpr fun p hp => ?_)
    obtain ⟨own, known⟩ := hands p hp
    refine ⟨own, rfl, known, rfl, fun x _ _ => g₁.node.injective.eq_iff.symm, fun hl => ?_⟩
    rw [Position.recast, flat hl]
    rfl

/-- An operation on both maps, at positions that stand for each other if at any. -/
theorem step_on (h : Alike g S k k' d d') {op : Map.Op κ ν} {p p' : Position}
    (hop : e.op? k (d.known k) = some (.on k (op.moveTo p)))
    (hop' : e.op? k' (d'.known k') = some (.on k' (op.moveTo p')))
    (hp : op.position?.isSome → Position.Paired g S k d.store p p') :
    Matches g S k k' e d d' := by
  rcases h.maps with ⟨hm, hm'⟩ | ⟨m, m', hm, hm', peers⟩
  · have step := Store.step_on_none hm (op.moveTo p)
    have step' := Store.step_on_none hm' (op.moveTo p')
    refine h.of_step hop hop' (.refl ..) (fun _ _ => rfl) ?_ ?_ ?_ ?_
    · rw [step, step', Outcome.recast, Journal.recast_empty]
      rfl
    · rw [step, step']
      exact h.orders
    · rw [step, step']
      exact .inl ⟨hm, hm'⟩
    · rw [step]
      exact nofun
  · obtain ⟨r, hr, hid, hst⟩ := h.left.shows k m hm
    have has_iff (x : Item κ ν) : d.store.Has k x ↔ x ∈ m.items := by
      rw [Store.Stamped.has_iff hm hr, hr.items_eq]
    obtain ⟨a, w, he, _, w', he', g₁, S₁, grows, rfl, peers₁⟩ :=
      Map.both_perform (p := p) (q := p') peers h.up nofun op fun hs => by
        obtain ⟨own, map, known, stamp, node, -⟩ := hp hs
        exact peers.nodeAt_eq h.up (own.trans (hid ▸ hr.id.symm)) map known stamp
          fun x hx => node x ((has_iff x).mpr hx)
    have step := Store.step_on_ok hm he
    have step' := Store.step_on_ok hm' he'
    have grows₀ := (Guise.Grows.refl g [] S _ _).trans grows (List.nil_subset _) le_rfl le_rfl
    refine h.of_step hop hop' grows₀ (fun x hx => ?_) ?_ ?_ ?_ ?_
    · exact grows.node x.node (List.mem_map_of_mem ((has_iff x).mp hx))
    · obtain ⟨t, xs, twins⟩ := peers₁.alike
      rw [step, step', twins.journal]
      rfl
    · rw [step, step']
      exact peers₁.orders
    · rw [step, step']
      refine .inr ⟨w.map, w'.map, ?_, ?_, peers₁.later (grows.mirrored.trans h.up) le_rfl le_rfl⟩
      · rw [Store.map?_setIfInBounds _ (Store.lt_size_of_map? hm), if_pos rfl]
      · rw [Store.map?_setIfInBounds _ (Store.lt_size_of_map? hm'), if_pos rfl]
    · rw [step]
      intro q hq
      have hands : Ends (op.moveTo p).perform ⟨m, d.store.clock, ∅⟩ _ :=
        Map.ends_perform_hands hr hst q
      rw [Ends, he] at hands
      obtain ⟨own, x, hx, hxs⟩ := hands a rfl ((Reply.mem_positions a).mp hq)
      exact ⟨own.trans (hr.id.trans hid), hxs ▸ grows.subset (peers.stamps x hx)⟩

/-- An operation that takes both maps away. -/
theorem step_taking (h : Alike g S k k' d d') (hop : e.op? k (d.known k) = some op)
    (hop' : e.op? k' (d'.known k') = some op') (takes : op.taking? = some k)
    (takes' : op'.taking? = some k') (out : (d'.store.step op').1 = (d.store.step op).1.recast g)
    (quiet : (d.store.step op).1.positions = []) :
    Matches g S k k' e d d' := by
  refine h.of_step hop hop' (.refl ..) (fun _ _ => rfl) out ?_ (.inl ⟨?_, ?_⟩) ?_
  · exact h.orders.later (h.left.step op).2.clock (h.right.step op').2.clock
  · rw [Store.step_taking takes h.left.lists, Store.map?_setMap_none, if_pos rfl]
  · rw [Store.step_taking takes' h.right.lists, Store.map?_setMap_none, if_pos rfl]
  · rw [quiet]
    exact nofun

theorem discard_recast (h : Alike g S k k' d d') : (d'.store.step (.discard k')).1 =
    (d.store.step (.discard k)).1.recast g := by
  rcases h.maps with ⟨hm, hm'⟩ | ⟨m, m', hm, hm', peers⟩
  · rw [Store.step_discard_none hm, Store.step_discard_none hm', Outcome.recast,
      Journal.recast_empty]
    rfl
  · obtain ⟨t, xs, twins⟩ := peers.alike
    obtain ⟨_, w, he, _, w', he', twins₁⟩ := Map.both_discard twins h.up
    rw [Store.step_discard_ok hm he, Store.step_discard_ok hm' he', twins₁.journal]
    rfl

theorem consume_recast (h : Alike g S k k' d d') (pulls : List Pull) :
    (d'.store.step (.consume k' pulls)).1 = (d.store.step (.consume k pulls)).1.recast g := by
  rcases h.maps with ⟨hm, hm'⟩ | ⟨m, m', hm, hm', peers⟩
  · rw [Store.step_consume_none hm, Store.step_consume_none hm', Outcome.recast,
      Journal.recast_empty]
    rfl
  · obtain ⟨t, xs, twins⟩ := peers.alike
    obtain ⟨es, w, he, _, w', he', rfl, twins₁⟩ := Map.both_consume twins h.up
    rw [Store.step_consume_ok hm he, Store.step_consume_ok hm' he', twins₁.journal,
      Harvest.answers_eq]
    simp only [Outcome.recast, Except.map, Reply.recast, Reply.recastAll_eq_map, View.recast_pulls]

/-- Alike maps carry out every errand alike. -/
theorem step (h : Alike g S k k' d d') (e : Errand κ ν) : Matches g S k k' e d d' := by
  cases e with
  | on op number =>
    cases hp : op.position? with
    | none =>
      -- Any position will do, since the operation is not about one.
      have sent (k : Nat) (known : List Position) : (Errand.on op number).op? k known =
          some (.on k (op.moveTo ⟨⟨k⟩, ⟨0⟩, 0⟩)) := by
        rw [Errand.op?, hp, Map.Op.moveTo_of_none hp]
      refine h.step_on (sent k _) (sent k' _) fun about => ?_
      rw [hp] at about
      cases about
    | some p₀ =>
      rcases h.known_getElem? number with ⟨hn, hn'⟩ | ⟨p, p', hn, hn', paired⟩
      · refine ⟨g, S, .refl .., ?_⟩
        rw [step_of_unknown (by rw [Errand.op?, hp, hn']; rfl),
          step_of_unknown (by rw [Errand.op?, hp, hn]; rfl)]
        exact ⟨rfl, h⟩
      · have sent {k : Nat} {known : List Position} {p : Position} (hn : known[number]? = some p) :
            (Errand.on op number).op? k known = some (.on k (op.moveTo p)) := by
          rw [Errand.op?, hp, hn]
          rfl
        exact h.step_on (sent hn) (sent hn') fun _ => paired
  | discard =>
    exact h.step_taking rfl rfl rfl rfl h.discard_recast (Store.positions_conclude fun _ => rfl)
  | consume pulls =>
    refine h.step_taking rfl rfl rfl rfl (h.consume_recast pulls)
      (Store.positions_conclude fun es => ?_)
    rw [Harvest.answers_eq]
    refine List.eq_nil_iff_forall_not_mem.mpr fun p hp => ?_
    obtain ⟨a, ha, hands⟩ := Reply.hands_many.mp ((Reply.mem_positions _).mp hp)
    exact View.not_hands_of_pulls _ pulls _ ha hands

/-- So do any number of errands. -/
theorem after (h : Alike g S k k' d d') (es : List (Errand κ ν)) : ∃ g₁ S₁,
    g.Grows [] S d.store.clock d'.store.clock g₁ S₁ ∧
      Alike g₁ S₁ k k' (d.after k es) (d'.after k' es) := by
  induction es generalizing g S d d' with
  | nil => exact ⟨g, S, .refl .., h⟩
  | cons e es ih =>
    obtain ⟨g₁, S₁, grows₁, -, h₁⟩ := h.step e
    obtain ⟨g₂, S₂, grows₂, h₂⟩ := ih h₁
    exact ⟨g₂, S₂, grows₁.trans grows₂ (List.Subset.refl _) (step_stamped h.left k e).2
      (step_stamped h.right k' e).2, h₂⟩

end Alike
end Desk
end OrderedMap
