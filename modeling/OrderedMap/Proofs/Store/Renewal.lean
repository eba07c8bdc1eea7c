import OrderedMap.Proofs.Store.Errands

/-!
A map that has been emptied is as good as new, whatever it held before, by whatever way its entries
have gone, and in whatever order its vacant slots wait.
-/
namespace OrderedMap

variable {κ ν : Type}

/-- The guise in which one empty map looks like another one. -/
def Guise.renewal (k k' : Nat) : Guise := ⟨false, false, .refl _, id, Equiv.swap ⟨k⟩ ⟨k'⟩⟩

theorem Map.Holds.eq_nil {m : Map κ ν} {t : Tree κ ν} (h : m.Holds t []) : t = .nil := by
  have cells := h.cells
  cases t with
  | nil => rfl
  | node l k c r => simp [Tree.cells] at cells

theorem Map.peers_of_empty {k k' clock clock' : Nat} {m : Map κ ν} {r : Roll κ ν}
    (h : m.Shows r) (hid : r.id = ⟨k'⟩) (h₀ : m.count = 0) :
    Peers (.renewal k k') ∅ ⟨.fresh ⟨k⟩ m.policy, clock, ∅⟩ ⟨m, clock', ∅⟩ := by
  obtain ⟨t, ht⟩ := lists_fresh (κ := κ) (ν := ν) ⟨k⟩ m.policy
  obtain rfl := ht.eq_nil
  obtain ⟨u, hu⟩ := h.lists
  have items : r.items = [] := List.length_eq_zero_iff.mp (hu.count.symm.trans h₀)
  rw [items] at hu
  obtain rfl := hu.eq_nil
  refine ⟨⟨.nil, [], ht, hu.bears, ?_, rfl, h₀, (Journal.recast_empty _).symm, nofun, nofun⟩,
    ⟨nofun, nofun, nofun⟩, ?_⟩
  · exact (h.id.trans hid).trans (Equiv.swap_apply_left _ _).symm
  · rw [ht.items_eq]
    exact nofun

namespace Desk

variable {g : Guise} {S : Set Nat} {k k' : Nat} {d d' : Desk κ ν}

/-- Two maps are the same, and so are the positions that they handed out, but for a one-to-one
renaming of slots, a renaming of stamps that keeps their order, and the identities of the maps. -/
structure SameUpTo (g : Guise) (k k' : Nat) (d d' : Desk κ ν) : Prop where
  upright : g.mirrored = false
  id : g.map ⟨k⟩ = ⟨k'⟩
  stamps : StrictMonoOn g.stamp
    {s | (∃ p ∈ d.known k, p.stamp = s) ∨ ∃ x, d.store.Has k x ∧ x.stamp = s}
  known : List.Forall₂ (fun p p' => p.map = ⟨k⟩ ∧ p'.map = ⟨k'⟩ ∧ p'.stamp = g.stamp p.stamp)
    (d.known k) (d'.known k')
  maps : (d.store.map? k = none ∧ d'.store.map? k' = none) ∨
    ∃ m m', d.store.map? k = some m ∧ d'.store.map? k' = some m' ∧
      m.arena.Wears g m'.arena ∧ m'.count = m.count ∧ m'.policy = m.policy

theorem Alike.sameUpTo (h : Alike g S k k' d d') (hid : g.map ⟨k⟩ = ⟨k'⟩) :
    SameUpTo g k k' d d' := by
  refine ⟨h.up, hid, StrictMonoOn.mono h.orders.mono h.stamps, h.known.imp fun p p' hp => ?_, ?_⟩
  · exact ⟨hp.own, by rw [hp.map, hp.own, hid], hp.stamp⟩
  · refine h.maps.imp_right ?_
    rintro ⟨m, m', hm, hm', ⟨t, xs, twins⟩, -⟩
    refine ⟨m, m', hm, hm', twins.bears_left.wears twins.bears, twins.count, ?_⟩
    exact twins.policy.trans (Guise.policy_of_upright _ h.up)

end Desk

namespace Store

variable [EntrySize κ ν]

/-- After any run, a map that is empty does the same as a new map with the same policy: whatever
errands went to both before, the next one gives the same answers to both, releases the same, makes
the same comparisons and notes the same records, and leaves the same trees, but for the slots and
the stamps in them. -/
theorem emptied_like_fresh (ops ops' : List (Op κ ν)) {k k' : Nat} {m : Map κ ν}
    (hm : (after ops ∅).map? k' = some m) (h₀ : m.count = 0)
    (fresh : (after ops' ∅).map? k = some (.fresh ⟨k⟩ m.policy)) (es : List (Errand κ ν))
    (e : Errand κ ν) : ∃ g : Guise,
      (((Desk.opened (after ops ∅)).after k' es).step k' e).1 =
        (((Desk.opened (after ops' ∅)).after k es).step k e).1.map (Outcome.recast g) ∧
      Desk.SameUpTo g k k' (((Desk.opened (after ops' ∅)).after k es).step k e).2
        (((Desk.opened (after ops ∅)).after k' es).step k' e).2 := by
  obtain ⟨r, hr, hid, -⟩ := sound_after ops k' m hm
  have peers : Map.Peers (.renewal k k') ∅ ⟨.fresh ⟨k⟩ m.policy, (after ops' ∅).clock, ∅⟩
    ⟨m, (after ops ∅).clock, ∅⟩ := Map.peers_of_empty hr hid h₀
  have start : Desk.Alike (.renewal k k') ∅ k k' (.opened (after ops' ∅))
      (.opened (after ops ∅)) :=
    ⟨stamped_empty.after ops', stamped_empty.after ops, rfl, nofun, peers.orders,
      .inr ⟨_, m, fresh, hm, peers⟩, .nil⟩
  obtain ⟨g₁, S₁, grows₁, h₁⟩ := start.after es
  obtain ⟨g₂, S₂, grows₂, out, h₂⟩ := h₁.step e
  refine ⟨g₂, out, h₂.sameUpTo ?_⟩
  rw [grows₂.map, grows₁.map]
  exact Equiv.swap_apply_left _ _

/-- A map that has lost all its entries, one after the other. -/
def worn : List (Op Nat Nat) :=
  [.create ((Policy.natural.withTagHook "t").withValueHook "v")
    [(5, 50), (2, 20), (8, 80), (1, 10), (3, 30)],
    .on 0 (.erase 5), .on 0 (.erase 1), .on 0 (.erase 8), .on 0 (.erase 2), .on 0 (.erase 3)]

/-- The first map of a run, after entries have been stored and one of them looked up. -/
def restarted (ops : List (Op Nat Nat)) : Desk Nat Nat :=
  (Desk.opened (after ops ∅)).after 0
    [.on (.insertMany [(4, 40), (6, 60), (7, 70)]) 0, .on (.position 6) 0]

/-- The entry that was looked up goes. It is the root and has two children. -/
def farewell : Errand Nat Nat := .on (.erasePosition ⟨⟨0⟩, ⟨0⟩, 0⟩) 0

theorem emptied_like_fresh_worn : ∃ m, (after worn ∅).map? 0 = some m ∧
    m.arena.free = [4, 1, 2, 3, 0, 5] ∧ ∃ g : Guise,
      ((restarted worn).step 0 farewell).1 =
        ((restarted [.create m.policy []]).step 0 farewell).1.map (Outcome.recast g) ∧
      Desk.SameUpTo g 0 0 ((restarted [.create m.policy []]).step 0 farewell).2
        ((restarted worn).step 0 farewell).2 := by
  have there : ((after worn ∅).map? 0).isSome := by decide +kernel
  have facts : ((after worn ∅).map? 0).map (fun m => (m.count, m.arena.free)) =
      some (0, [4, 1, 2, 3, 0, 5]) := by decide +kernel
  obtain ⟨m, hm⟩ := Option.isSome_iff_exists.mp there
  rw [hm] at facts
  obtain ⟨count, free⟩ := Prod.mk.inj (Option.some.inj facts)
  exact ⟨m, hm, free, emptied_like_fresh worn [.create m.policy []] hm count rfl _ farewell⟩

end Store
end OrderedMap
