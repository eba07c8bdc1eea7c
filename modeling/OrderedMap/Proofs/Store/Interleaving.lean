import OrderedMap.Proofs.Store.Errands

/-!
Errands to several maps, one after the other in any order. All maps draw their stamps from one
clock, so what goes to one map shifts the stamps of all others, and this is all that it does to
them.
-/
namespace OrderedMap

variable {κ ν : Type}

/-- The guise in which nothing but stamps looks otherwise. -/
def Guise.restamping (σ : Nat → Nat) : Guise := ⟨false, true, .refl _, σ, id⟩

theorem Guise.eq_restamping {g : Guise} (up : g.mirrored = false) (level : g.level = true)
    (node : g.node = .refl _) (map : g.map = id) : g = .restamping g.stamp := by
  cases g
  simp_all [restamping]

def Position.restamp (σ : Nat → Nat) (p : Position) : Position := { p with stamp := σ p.stamp }

def Node.restamp (σ : Nat → Nat) (x : Node κ ν) : Node κ ν := { x with stamp := σ x.stamp }

/-- The same slots with other stamps in the nodes. -/
def Map.restamp (σ : Nat → Nat) (m : Map κ ν) : Map κ ν :=
  { m with arena := { m.arena with slots := m.arena.slots.map (Option.map (Node.restamp σ)) } }

/-- The outcome with other stamps in the positions handed out. The journal does not know of
stamps. -/
def Outcome.restamp (σ : Nat → Nat) (out : Outcome κ ν (Reply κ ν)) : Outcome κ ν (Reply κ ν) :=
  { out with result := out.result.map (Reply.recast (.restamping σ)) }

variable {σ τ : Nat → Nat}

theorem Journal.recast_restamping (j : Journal κ ν) : j.recast (.restamping σ) = j := by
  have record : Record.recast (.restamping σ) = id := by
    funext r
    cases r <;> rfl
  simp [recast, record]

theorem Outcome.recast_restamping (out : Outcome κ ν (Reply κ ν)) :
    out.recast (.restamping σ) = out.restamp σ := by
  rw [recast, Journal.recast_restamping, restamp]

theorem Arena.recast_restamping (a : Arena κ ν) : a.recast (.restamping σ) =
    { a with slots := a.slots.map (Option.map (Node.restamp σ)) } := by
  have node : Node.recast (κ := κ) (ν := ν) (.restamping σ) = Node.restamp σ := by
    funext x
    simp [Node.recast, Node.restamp, Guise.restamping, Guise.side, Node.child]
  rw [recast, node]
  simp [Guise.restamping]

namespace Reply

mutual

theorem recast_restamping_congr (a : Reply κ ν) (h : ∀ p ∈ a.positions, σ p.stamp = τ p.stamp) :
    a.recast (.restamping σ) = a.recast (.restamping τ) := by
  cases a with
  | position q =>
    cases q with
    | none => rfl
    | some q =>
      have same : q.restamp σ = q.restamp τ :=
        congrArg (Position.mk q.map q.node) (h q (List.mem_singleton_self q))
      exact congrArg (fun p => position (some p)) same
  | many replies => rw [recast, recast, recastAll_restamping_congr replies h]
  | audited r =>
    cases r with
    | error e => cases e <;> rfl
    | ok n => rfl
  | _ => rfl

theorem recastAll_restamping_congr (as : List (Reply κ ν))
    (h : ∀ p ∈ positionsAll as, σ p.stamp = τ p.stamp) :
    recastAll (.restamping σ) as = recastAll (.restamping τ) as := by
  cases as with
  | nil => rfl
  | cons a as =>
    rw [positionsAll] at h
    rw [recastAll, recastAll, recast_restamping_congr a fun p hp => h p (List.mem_append_left _ hp),
      recastAll_restamping_congr as fun p hp => h p (List.mem_append_right _ hp)]

end

end Reply

theorem Outcome.restamp_congr {out : Outcome κ ν (Reply κ ν)}
    (h : ∀ p ∈ out.positions, σ p.stamp = τ p.stamp) : out.restamp σ = out.restamp τ := by
  obtain ⟨res, j⟩ := out
  cases res with
  | ok a => rw [restamp, restamp, Except.map, Except.map, a.recast_restamping_congr h]
  | error f => rfl

namespace Desk

/-- The outcomes of the errands to one map. -/
def told (k : Nat) (outs : List (Nat × Option (Outcome κ ν (Reply κ ν)))) :
    List (Option (Outcome κ ν (Reply κ ν))) :=
  (outs.filter (·.1 = k)).map (·.2)

variable {g g₁ : Guise} {S S₁ : Set Nat} {k i : Nat} {d d' : Desk κ ν} {e : Errand κ ν}
  {es es' : List (Nat × Errand κ ν)}

/-- The outcomes for a map in two runs are the same but for the stamps, which are known ones. -/
structure Tells (g : Guise) (S : Set Nat) (outs outs' : List (Option (Outcome κ ν (Reply κ ν)))) :
    Prop where
  eq : outs' = outs.map (Option.map (Outcome.restamp g.stamp))
  known : ∀ out, some out ∈ outs → ∀ p ∈ out.positions, p.stamp ∈ S

theorem Tells.cons {out out' : Option (Outcome κ ν (Reply κ ν))}
    {outs outs' : List (Option (Outcome κ ν (Reply κ ν)))} (h : Tells g S outs outs')
    (eq : out' = out.map (Outcome.restamp g.stamp))
    (known : ∀ o, out = some o → ∀ p ∈ o.positions, p.stamp ∈ S) :
    Tells g S (out :: outs) (out' :: outs') := by
  refine ⟨by rw [eq, h.eq, List.map_cons], fun o ho => ?_⟩
  rcases List.mem_cons.mp ho with ho | ho
  · exact known o ho.symm
  · exact h.known o ho

variable [EntrySize κ ν]

theorem run_cons (i : Nat) (e : Errand κ ν) (es : List (Nat × Errand κ ν)) (d : Desk κ ν) :
    run ((i, e) :: es) d = ((i, (d.step i e).1) :: (run es (d.step i e).2).1,
      (run es (d.step i e).2).2) := rfl

theorem told_cons_of_ne (hi : i ≠ k) (es : List (Nat × Errand κ ν)) :
    told k (run ((i, e) :: es) d).1 = told k (run es (d.step i e).2).1 := by
  rw [run_cons, told, List.filter_cons_of_neg (by simpa using hi), told]

theorem told_cons_self (es : List (Nat × Errand κ ν)) :
    told k (run ((k, e) :: es) d).1 = (d.step k e).1 :: told k (run es (d.step k e).2).1 := by
  rw [run_cons, told, List.filter_cons_of_pos (by simp), List.map_cons, told]

/-- What an errand hands out is known from then on. -/
theorem mem_known_of_step {o : Outcome κ ν (Reply κ ν)} {p : Position}
    (h : (d.step k e).1 = some o) (hp : p ∈ o.positions) : p ∈ (d.step k e).2.known k := by
  cases ho : e.op? k (d.known k) with
  | none =>
    rw [step_of_unknown ho] at h
    cases h
  | some op =>
    rw [step_of_op? ho] at h ⊢
    cases h
    simp [hp]

end Desk

/-- Lists that have the same elements of one kind in the same order, and others in between. -/
theorem filter_eq_induction {α : Type} {p : α → Bool} {motive : List α → List α → Prop}
    (nil : motive [] []) (left : ∀ a as bs, p a = false → motive as bs → motive (a :: as) bs)
    (right : ∀ b as bs, p b = false → motive as bs → motive as (b :: bs))
    (both : ∀ a as bs, p a = true → motive as bs → motive (a :: as) (a :: bs))
    (as bs : List α) (h : as.filter p = bs.filter p) : motive as bs := by
  induction as generalizing bs with
  | nil =>
    induction bs with
    | nil => exact nil
    | cons b bs ih =>
      cases hb : p b with
      | false => exact right b [] bs hb (ih (by rwa [List.filter_cons_of_neg (by simp [hb])] at h))
      | true => simp [hb] at h
  | cons a as ih =>
    cases ha : p a with
    | false => exact left a as bs ha (ih bs (by rwa [List.filter_cons_of_neg (by simp [ha])] at h))
    | true =>
      rw [List.filter_cons_of_pos ha] at h
      induction bs with
      | nil => cases h
      | cons b bs ihb =>
        cases hb : p b with
        | false =>
          rw [List.filter_cons_of_neg (by simp [hb])] at h
          exact right b (a :: as) bs hb (ihb h)
        | true =>
          rw [List.filter_cons_of_pos hb] at h
          obtain ⟨rfl, rest⟩ := List.cons.inj h
          exact both a as bs ha (ih bs rest)

/-- A tree whose stamps stay as they are. -/
theorem Tree.recast_restamping_id (t : Tree κ ν) : t.recast (.restamping id) = t := by
  induction t with
  | nil => rfl
  | node l k c r ihl ihr =>
    rw [recast_node rfl, ihl, ihr]
    rfl

namespace Desk

variable {g : Guise} {S : Set Nat} {k : Nat} {d d' : Desk κ ν} {es es' : List (Nat × Errand κ ν)}

/-- Where nothing but stamps may differ, this is how the positions correspond. -/
theorem Alike.known_eq (h : Alike g S k k d d') (level : g.level = true) (map : g.map = id) :
    d'.known k = (d.known k).map (Position.restamp g.stamp) := by
  have same : List.Forall₂ (· = ·) (d'.known k)
      ((d.known k).map (Position.restamp g.stamp)) := by
    refine List.forall₂_map_right_iff.mpr (h.known.flip.imp fun p' p hp => ?_)
    have map_eq := hp.map
    have node_eq := hp.level level
    have stamp_eq := hp.stamp
    rw [map] at map_eq
    cases p'
    cases map_eq
    cases node_eq
    cases stamp_eq
    rfl
  rwa [List.forall₂_eq_eq_eq] at same

/-- And this is how the maps do. -/
theorem Alike.map?_eq (h : Alike g S k k d d') (level : g.level = true) (map : g.map = id) :
    d'.store.map? k = (d.store.map? k).map (Map.restamp g.stamp) := by
  rcases h.maps with ⟨hm, hm'⟩ | ⟨m, m', hm, hm', ⟨t, xs, twins⟩, -⟩
  · rw [hm, hm']
    rfl
  · obtain ⟨node, size, free⟩ := twins.level level
    have arena := (twins.bears_left.wears twins.bears).eq_recast node size free
    have id := twins.id
    have policy := twins.policy
    have count := twins.count
    rw [Guise.policy_of_upright _ h.up] at policy
    rw [map] at id
    rw [Guise.eq_restamping h.up level node map, Arena.recast_restamping] at arena
    rw [hm, hm', Option.map_some, Map.restamp]
    cases m'
    cases arena
    cases id
    cases policy
    cases count
    rfl

/-- A map is like itself, with all stamps drawn so far as they are. -/
theorem alike_self (h : d.store.Stamped)
    (own : ∀ p ∈ d.known k, p.map = ⟨k⟩ ∧ p.stamp < d.store.clock) :
    Alike (.restamping id) {s | s < d.store.clock} k k d d := by
  have orders : (Guise.restamping id).Orders {s | s < d.store.clock} d.store.clock d.store.clock :=
    ⟨fun _ hs => hs, fun _ hs => hs, strictMonoOn_id⟩
  refine ⟨h, h, rfl, fun _ => rfl, orders, ?_, List.forall₂_same.mpr fun p hp => ?_⟩
  · cases hm : d.store.map? k with
    | none => exact .inl ⟨hm, hm⟩
    | some m =>
      obtain ⟨r, hr, -, hs⟩ := h.shows k m hm
      obtain ⟨t, ht⟩ := hr.lists
      refine .inr ⟨m, m, hm, hm, ⟨t, r.items, ht, ?_, rfl, rfl, rfl, ?_, nofun, ?_⟩, orders, ?_⟩
      · rw [Tree.recast_restamping_id]
        exact ht.bears
      · exact (Journal.recast_restamping _).symm
      · exact fun _ => ⟨rfl, rfl, rfl⟩
      · rw [hr.items_eq]
        exact hs.drawn
  · obtain ⟨map, stamp⟩ := own p hp
    exact ⟨map, rfl, stamp, rfl, fun _ _ _ => .rfl, fun _ => rfl⟩

variable [EntrySize κ ν]

/-- A map gets the same out of the errands to it, whatever errands go to other maps meanwhile. -/
theorem Alike.run (h : Alike g S k k d d') (level : g.level = true) (map : g.map = id)
    (same : es.filter (·.1 = k) = es'.filter (·.1 = k)) : ∃ g₁ S₁,
      g.Grows [] S d.store.clock d'.store.clock g₁ S₁ ∧
      Tells g₁ S₁ (told k (run es d).1) (told k (run es' d').1) ∧
      Alike g₁ S₁ k k (run es d).2 (run es' d').2 := by
  refine filter_eq_induction (motive := fun es es' => ∀ g S d d', Alike g S k k d d' →
    g.level = true → g.map = id → ∃ g₁ S₁, g.Grows [] S d.store.clock d'.store.clock g₁ S₁ ∧
      Tells g₁ S₁ (told k (Desk.run es d).1) (told k (Desk.run es' d').1) ∧
      Alike g₁ S₁ k k (Desk.run es d).2 (Desk.run es' d').2)
    ?_ ?_ ?_ ?_ es es' same g S d d' h level map
  · intro g S d d' h _ _
    exact ⟨g, S, .refl .., ⟨rfl, nofun⟩, h⟩
  · rintro ⟨i, e⟩ es es' hi ih g S d d' h level map
    have hi : i ≠ k := by simpa using hi
    have still := step_elsewhere h.left hi e
    obtain ⟨g₁, S₁, grows, tells, h₁⟩ := ih g S _ _ (h.still still (.refl h.right)) level map
    have grows₁ := (Guise.Grows.refl ..).trans grows (List.Subset.refl _) still.clock le_rfl
    refine ⟨g₁, S₁, grows₁, ?_, h₁⟩
    rwa [told_cons_of_ne hi]
  · rintro ⟨i, e⟩ es es' hi ih g S d d' h level map
    have hi : i ≠ k := by simpa using hi
    have still := step_elsewhere h.right hi e
    obtain ⟨g₁, S₁, grows, tells, h₁⟩ := ih g S _ _ (h.still (.refl h.left) still) level map
    have grows₁ := (Guise.Grows.refl ..).trans grows (List.Subset.refl _) le_rfl still.clock
    refine ⟨g₁, S₁, grows₁, ?_, h₁⟩
    rwa [told_cons_of_ne hi]
  · rintro ⟨i, e⟩ es es' hi ih g S d d' h level map
    obtain rfl : i = k := by simpa using hi
    obtain ⟨g₁, S₁, grows₁, out, h₁⟩ := h.step e
    have level₁ := grows₁.level.trans level
    have map₁ := grows₁.map.trans map
    obtain ⟨g₂, S₂, grows₂, tells, h₂⟩ := ih g₁ S₁ _ _ h₁ level₁ map₁
    refine ⟨g₂, S₂, grows₁.trans grows₂ (List.Subset.refl _) (step_stamped h.left i e).2
      (step_stamped h.right i e).2, ?_, h₂⟩
    have known (o) (ho : (d.step i e).1 = some o) (p) (hp : p ∈ o.positions) : p.stamp ∈ S₁ :=
      h₁.stamps (.inl ⟨p, mem_known_of_step ho hp, rfl⟩)
    rw [told_cons_self, told_cons_self]
    refine tells.cons ?_ fun o ho p hp => grows₂.subset (known o ho p hp)
    rw [out]
    refine Option.map_congr fun o ho => ?_
    rw [Guise.eq_restamping h₁.up level₁ (h₁.flat level₁) map₁, Outcome.recast_restamping]
    exact Outcome.restamp_congr fun p hp => (grows₂.stamp (known o ho p hp)).symm

end Desk

namespace Store

variable [EntrySize κ ν]

/-- What a map gets out of the errands to it, and what it is in the end, does not depend on which
errands go to other maps, nor on when they do: under any two interleavings the results are the same,
and so is all that is let be observed, and the map is the same, slot by slot, but for the stamps
drawn meanwhile, which keep their order. Each errand is for one map, and acts at positions of this
map alone, taken at any time. -/
theorem map_undisturbed (ops : List (Op κ ν)) {k : Nat} {known : Nat → List Position}
    (own : ∀ p ∈ known k, p.map = ⟨k⟩ ∧ p.stamp < (after ops ∅).clock)
    {es es' : List (Nat × Errand κ ν)} (same : es.filter (·.1 = k) = es'.filter (·.1 = k)) :
    ∃ σ : Nat → Nat, (∀ s < (after ops ∅).clock, σ s = s) ∧
      StrictMonoOn σ {s | s < (after ops ∅).clock ∨
        (∃ p ∈ (Desk.run es ⟨after ops ∅, known⟩).2.known k, p.stamp = s) ∨
        ∃ x, (Desk.run es ⟨after ops ∅, known⟩).2.store.Has k x ∧ x.stamp = s} ∧
      Desk.told k (Desk.run es' ⟨after ops ∅, known⟩).1 =
        (Desk.told k (Desk.run es ⟨after ops ∅, known⟩).1).map (Option.map (Outcome.restamp σ)) ∧
      (Desk.run es' ⟨after ops ∅, known⟩).2.known k =
        ((Desk.run es ⟨after ops ∅, known⟩).2.known k).map (Position.restamp σ) ∧
      (Desk.run es' ⟨after ops ∅, known⟩).2.store.map? k =
        ((Desk.run es ⟨after ops ∅, known⟩).2.store.map? k).map (Map.restamp σ) := by
  have start := Desk.alike_self (d := ⟨after ops ∅, known⟩) (stamped_empty.after ops) own
  obtain ⟨g, S, grows, tells, h⟩ := start.run rfl rfl same
  refine ⟨g.stamp, fun s hs => grows.stamp hs, StrictMonoOn.mono h.orders.mono ?_, tells.eq,
    h.known_eq grows.level grows.map, h.map?_eq grows.level grows.map⟩
  exact Set.union_subset grows.subset h.stamps

/-- Two maps, of which the first one has lost an entry. -/
def neighbours : List (Op Nat Nat) :=
  [.create (Policy.natural.withTagHook "t") [(1, 10), (2, 20), (3, 30)],
    .create .natural [(7, 70), (8, 80), (9, 90)], .on 0 (.erase 2)]

/-- The position of the least entry of the first map. -/
def neighbourKnown (k : Nat) : List Position := if k = 0 then [⟨⟨0⟩, ⟨0⟩, 0⟩] else []

/-- Errands to the first map: an entry is stored and looked up, and the least one is erased. -/
def visit : List (Errand Nat Nat) :=
  [.on (.insert 4 40) 0, .on (.position 4) 0, .on (.erasePosition ⟨⟨0⟩, ⟨0⟩, 0⟩) 0]

/-- The same errands after all of those to the second map, and in between. -/
def visitLate : List (Nat × Errand Nat Nat) :=
  [(1, .on (.erase 8) 0), (1, .on (.insert 6 60) 0)] ++ visit.map (0, ·)

def visitBetween : List (Nat × Errand Nat Nat) :=
  (visit.take 1).map (0, ·) ++ [(1, .on (.erase 8) 0)] ++ (visit.drop 1).map (0, ·) ++
    [(1, .on (.insert 6 60) 0)]

/-- The erasure in the second map draws a stamp for a while. -/
theorem map_undisturbed_visit : ∃ σ : Nat → Nat, (∀ s < 7, σ s = s) ∧ σ 7 = 9 ∧
    Desk.told 0 (Desk.run visitLate ⟨after neighbours ∅, neighbourKnown⟩).1 =
      (Desk.told 0 (Desk.run visitBetween ⟨after neighbours ∅, neighbourKnown⟩).1).map
        (Option.map (Outcome.restamp σ)) ∧
    (Desk.run visitLate ⟨after neighbours ∅, neighbourKnown⟩).2.store.map? 0 =
      ((Desk.run visitBetween ⟨after neighbours ∅, neighbourKnown⟩).2.store.map? 0).map
        (Map.restamp σ) := by
  have clock : (after neighbours ∅).clock = 7 := by decide +kernel
  have late : (Desk.run visitLate ⟨after neighbours ∅, neighbourKnown⟩).2.known 0 =
      [⟨⟨0⟩, ⟨0⟩, 0⟩, ⟨⟨0⟩, ⟨1⟩, 9⟩] := by decide +kernel
  have between : (Desk.run visitBetween ⟨after neighbours ∅, neighbourKnown⟩).2.known 0 =
      [⟨⟨0⟩, ⟨0⟩, 0⟩, ⟨⟨0⟩, ⟨1⟩, 7⟩] := by decide +kernel
  have own : ∀ p ∈ neighbourKnown 0, p.map = ⟨0⟩ ∧ p.stamp < (after neighbours ∅).clock := by
    rw [clock]
    decide
  have same : visitBetween.filter (·.1 = 0) = visitLate.filter (·.1 = 0) := rfl
  obtain ⟨σ, old, -, told, known, map⟩ := map_undisturbed neighbours own same
  rw [clock] at old
  rw [late, between] at known
  refine ⟨σ, old, ?_, told, map⟩
  have second := congrArg (·[1]?) known
  exact (congrArg Position.stamp (Option.some.inj second)).symm

end Store
end OrderedMap
