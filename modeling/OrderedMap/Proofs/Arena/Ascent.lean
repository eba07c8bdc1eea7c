import OrderedMap.Proofs.Arena.Bears

/-!
The way up from a node by parent links. A node has one parent, so no node is met twice on the way
to a node without parent, and the way is no longer than the arena is large. This bounds every walk
down a tree that stands in an arena, even if the tree has a node in two places.
-/
namespace OrderedMap
namespace Arena

variable {κ ν : Type} {a : Arena κ ν} {p : Path κ ν} {t : Tree κ ν} {n : NodeId}
  {ns up us vs : List NodeId}

/-- From each of the nodes the step leads to the next one, and from the last one to none. -/
def Follows (step : NodeId → Except Fault (Option NodeId)) : List NodeId → Prop
  | [] => True
  | n :: rest => step n = .ok rest.head? ∧ Follows step rest

namespace Follows

variable {step : NodeId → Except Fault (Option NodeId)}

theorem of_append (h : Follows step (us ++ vs)) : Follows step vs := by
  induction us with
  | nil => exact h
  | cons u us ih => exact ih h.2

theorem of_cells {cs : List (Cell κ ν)} (h : ∀ us c vs, cs = us ++ c :: vs →
    step c.id = .ok (vs.head?.map (·.id))) : Follows step (cs.map (·.id)) := by
  induction cs with
  | nil => trivial
  | cons c cs ih =>
    refine ⟨?_, ih fun us d vs e => h (c :: us) d vs ?_⟩
    · rw [h [] c cs rfl, List.head?_map]
    · rw [e, List.cons_append]

/-- Where the steps lead is fixed by where they begin. -/
theorem unique (hu : Follows step us) (hv : Follows step vs) (hh : us.head? = vs.head?) :
    us = vs := by
  induction us generalizing vs with
  | nil => exact (List.head?_eq_none_iff.mp hh.symm).symm
  | cons u us ih =>
    obtain ⟨vs, rfl⟩ := List.head?_eq_some_iff.mp hh.symm
    have next : us.head? = vs.head? := Except.ok.inj (hu.1.symm.trans hv.1)
    rw [ih hu.2 hv.2 next]

/-- Steps that come to an end do not come to a node twice. -/
theorem nodup (h : Follows step ns) : ns.Nodup := by
  induction ns with
  | nil => exact List.nodup_nil
  | cons n rest ih =>
    refine List.nodup_cons.mpr ⟨fun hn => ?_, ih h.2⟩
    obtain ⟨us, vs, rfl⟩ := List.append_of_mem hn
    -- from `n` on there would be more steps than there are
    have := congrArg List.length (h.unique h.2.of_append rfl)
    simp only [List.length_append, List.length_cons] at this
    omega

end Follows

/-- Each of the nodes is there and has the next one for its parent; the last one has none. -/
def Ascends (a : Arena κ ν) : List NodeId → Prop
  | [] => True
  | n :: up => (∃ x, a.get? n = some x ∧ x.parent = up.head?) ∧ a.Ascends up

/-- The tree hangs from the root. Whatever else the arena has is left open, and a node may be in
two places of the tree. -/
structure Stands (a : Arena κ ν) (t : Tree κ ν) : Prop where
  links : a.Hangs none t
  root : a.root = t.root?

theorem Bears.stands {ts : List (Tree κ ν)} (h : a.Bears t ts) : a.Stands t := ⟨h.hangs, h.root⟩

theorem Plants.stands {ts : List (Tree κ ν)} (h : a.Plants t ts) : a.Stands t := ⟨h.hangs, h.root⟩

theorem Stands.plants (h : a.Stands t) (hnd : t.ids.Nodup) : a.Plants t :=
  ⟨⟨by simpa using h.links, by simpa using hnd⟩, h.root⟩

/-- Nodes that are there are no more than the slots. -/
theorem length_le_size (hnd : ns.Nodup) (there : ∀ n ∈ ns, (a.get? n).isSome) :
    ns.length ≤ a.slots.size := by
  have sub : ns.map NodeId.index ⊆ List.range a.slots.size := by
    intro i hi
    obtain ⟨n, hn, rfl⟩ := List.mem_map.mp hi
    obtain ⟨x, hx⟩ := Option.isSome_iff_exists.mp (there n hn)
    exact List.mem_range.mpr (lt_size_of_get? hx)
  have hindex := hnd.map NodeId.index_injective
  simpa using (List.subperm_of_subset hindex sub).length_le

namespace Ascends

theorem of_append (h : a.Ascends (us ++ vs)) : a.Ascends vs := by
  induction us with
  | nil => exact h
  | cons u us ih => exact ih h.2

theorem follows (h : a.Ascends ns) : Follows a.parent ns := by
  induction ns with
  | nil => trivial
  | cons n up ih =>
    obtain ⟨⟨x, hx, hp⟩, hup⟩ := h
    exact ⟨by rw [parent_of_get? hx, hp], ih hup⟩

theorem nodup (h : a.Ascends ns) : ns.Nodup := h.follows.nodup

theorem length_le (h : a.Ascends ns) : ns.length ≤ a.slots.size := by
  refine length_le_size h.nodup fun n hn => ?_
  obtain ⟨us, vs, rfl⟩ := List.append_of_mem hn
  obtain ⟨⟨x, hx, -⟩, -⟩ := h.of_append
  rw [hx]
  rfl

end Ascends

theorem Encloses.ascends {c : Option NodeId} (h : a.Encloses p c) :
    a.Ascends (p.map (·.cell.id)) := by
  induction p generalizing c with
  | nil => trivial
  | cons f up ih =>
    obtain ⟨hf, -, hu⟩ := h
    refine ⟨⟨_, hf, ?_⟩, ih hu⟩
    cases up <;> simp

namespace Hangs

theorem ascends (h : a.Hangs none (p.plug t)) (hn : t.root? = some n) :
    a.Ascends (n :: p.map (·.cell.id)) := by
  obtain ⟨x, hx, hp, -⟩ := h.get? hn
  refine ⟨⟨x, hx, hp.trans ?_⟩, ?_⟩
  · cases p <;> rfl
  · have he := (hangs_plug.mp h).1
    rw [hn] at he
    exact he.ascends

theorem path_lt (h : a.Hangs none (p.plug t)) (hn : t.root? = some n) :
    p.length < a.slots.size := by
  simpa [Nat.succ_le_iff] using (h.ascends hn).length_le

/-- A loop that goes up along the path comes to an end. -/
theorem path_lt_rounds (h : a.Hangs none (p.plug t)) (hn : t.root? = some n) :
    p.length < a.rounds :=
  calc p.length < a.slots.size := h.path_lt hn
    _ ≤ a.slots.size + 1 := Nat.le_succ _
    _ ≤ a.rounds := Nat.le_mul_of_pos_right _ (Nat.succ_pos _)

/-- Only one tree has a given root. -/
theorem unique {q : Option NodeId} {u : Tree κ ν} (ht : a.Hangs q t) (hu : a.Hangs q u)
    (hr : t.root? = u.root?) : t = u := by
  induction t generalizing q u with
  | nil => exact (Tree.root?_eq_none_iff.mp hr.symm).symm
  | node l k c r ihl ihr =>
    cases u with
    | nil => cases hr
    | node l' k' d r' =>
      obtain ⟨hc, hl, hh⟩ := ht
      obtain ⟨hd, hl', hh'⟩ := hu
      have hid : c.id = d.id := Option.some.inj hr
      rw [hid, hd] at hc
      simp only [Cell.node, Option.some.injEq, Node.mk.injEq, true_and] at hc
      obtain ⟨el, er, rfl, es, ee⟩ := hc
      obtain rfl : c = d := by
        cases c
        cases d
        simp_all
      rw [ihl hl hl' el.symm, ihr hh hh' er.symm]

end Hangs

/-- Only one tree is planted in an arena. -/
theorem Plants.unique {u : Tree κ ν} {ts us : List (Tree κ ν)} (h : a.Plants t ts)
    (hu : a.Plants u us) : u = t :=
  hu.hangs.unique h.hangs (hu.root.symm.trans h.root)

end Arena
end OrderedMap
