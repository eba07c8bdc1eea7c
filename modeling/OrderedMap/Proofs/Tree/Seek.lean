import OrderedMap.Proofs.Tree.Basic

/-!
Descending by comparison. A search ends at the first node that compares equal, or at a missing node.
The comparison need not be a total order, so only what was asked on the way down is known.
-/
namespace OrderedMap
namespace Tree

variable {κ ν : Type}

/-- Where a search ends: the subtree found, and the path to it. -/
def seek (order : Cell κ ν → Ordering) (p : Path κ ν) : Tree κ ν → Path κ ν × Tree κ ν
  | nil => (p, nil)
  | node l k c r =>
    match order c with
    | .eq => (p, node l k c r)
    | .lt => seek order (⟨.left, k, c, r⟩ :: p) l
    | .gt => seek order (⟨.right, k, c, l⟩ :: p) r

/-- The cells that a search compares with, in order. -/
def visited (order : Cell κ ν → Ordering) : Tree κ ν → List (Cell κ ν)
  | nil => []
  | node l _ c r =>
    c :: match order c with
      | .eq => []
      | .lt => visited order l
      | .gt => visited order r

variable {order : Cell κ ν → Ordering}

theorem plug_seek (p : Path κ ν) (t : Tree κ ν) :
    Path.plug (seek order p t).1 (seek order p t).2 = p.plug t := by
  fun_induction seek order p t with
  | case1 => rfl
  | case2 => rfl
  | case3 p l k c r h ih => exact ih
  | case4 p l k c r h ih => exact ih

theorem eq_plug_of_seek {t u : Tree κ ν} {q : Path κ ν} (h : seek order [] t = (q, u)) :
    t = q.plug u := by
  have := @plug_seek κ ν order [] t
  rw [h] at this
  exact this.symm

theorem mem_cells_of_seek {t l r : Tree κ ν} {k : Color} {c : Cell κ ν} {q : Path κ ν}
    (h : seek order [] t = (q, node l k c r)) : c ∈ t.cells := by
  rw [eq_plug_of_seek h, Path.cells_plug]
  simp [cells]

/-- What a search ends at compares equal. -/
theorem order_of_seek {p q : Path κ ν} {t l r : Tree κ ν} {k : Color} {c : Cell κ ν}
    (h : seek order p t = (q, node l k c r)) : order c = .eq := by
  fun_induction seek order p t with
  | case1 => cases h
  | case2 p l' k' c' r' hc => cases h; exact hc
  | case3 p l' k' c' r' hc ih => exact ih h
  | case4 p l' k' c' r' hc ih => exact ih h

/-- Every step of a search was decided by a comparison. -/
theorem side_of_seek {p q : Path κ ν} {t u : Tree κ ν} (h : seek order p t = (q, u))
    {f : Frame κ ν} (hf : f ∈ q) : f ∈ p ∨ Side.ofOrdering? (order f.cell) = some f.side := by
  fun_induction seek order p t with
  | case1 => cases h; exact .inl hf
  | case2 => cases h; exact .inl hf
  | case3 p l k c r hc ih | case4 p l k c r hc ih =>
    rcases ih h with hm | hs
    · rcases List.mem_cons.mp hm with rfl | hm
      · exact .inr (by simp [hc, Side.ofOrdering?])
      · exact .inl hm
    · exact .inr hs

end Tree

namespace Path

variable {κ ν : Type} {order : Cell κ ν → Ordering}

/-- The first cell beyond a path is that of a frame. -/
theorem head?_beyond {s : Side} {p : Path κ ν} {c : Cell κ ν} (h : (p.beyond s).head? = some c) :
    ∃ f ∈ p, f.cell = c ∧ f.side = s.opposite := by
  induction p with
  | nil => cases h
  | cons f up ih =>
    unfold beyond at h
    split at h
    · obtain ⟨g, hg, hc, hs⟩ := ih h
      exact ⟨g, List.mem_cons_of_mem f hg, hc, hs⟩
    · rename_i hs
      cases h
      exact ⟨f, List.mem_cons_self .., rfl, (Side.eq_or_eq_opposite s f.side).resolve_left hs⟩

/-- The gap at which a search ends lies between a lesser and a greater cell. -/
theorem order_beyond {t : Tree κ ν} {q : Path κ ν} (h : t.seek order [] = (q, .nil)) {s : Side}
    {c : Cell κ ν} (hc : (q.beyond s).head? = some c) :
    Side.ofOrdering? (order c) = some s.opposite := by
  obtain ⟨f, hf, rfl, hs⟩ := head?_beyond hc
  rcases Tree.side_of_seek h hf with hm | ho
  · cases hm
  · rw [ho, hs]

end Path
end OrderedMap
