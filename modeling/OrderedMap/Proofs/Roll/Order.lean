import OrderedMap.Proofs.Map.Auditing
import OrderedMap.Proofs.Roll.Basic

/-!
The order of the items of a roll. Under a total preorder their tags increase strictly, a lookup
finds the one item with an equal tag, and the gap for a new item is where its tag belongs. What
does not store new entries only thins a roll out.
-/
namespace OrderedMap
open Map (Gap)

namespace Item

variable {κ ν : Type} {order : κ → κ → Ordering} {xs ys zs : List (Item κ ν)} {x : Item κ ν} {s : κ}

/-- What of an item stays when its value changes. -/
def key (x : Item κ ν) : NodeId × Nat × κ := (x.node, x.stamp, x.entry.tag)

/-- The tags increase strictly. -/
def Increasing (order : κ → κ → Ordering) (xs : List (Item κ ν)) : Prop :=
  xs.Pairwise fun x y => order x.entry.tag y.entry.tag = .lt

theorem increasing_iff_keys : Increasing order xs ↔
    (xs.map key).Pairwise fun j k => order j.2.2 k.2.2 = .lt := by
  rw [List.pairwise_map]
  rfl

theorem firstDisorder_eq_none (h : Increasing order xs) : Map.firstDisorder order xs = none :=
  Map.firstDisorder_eq_none_iff.mpr h.isChain

section Preorder

variable [Std.TransCmp order]

/-- Items of which each is less than the next one increase throughout. -/
theorem increasing_of_rises (h : Map.Rises order xs) : Increasing order xs := by
  let less (x y : Item κ ν) : Prop := order x.entry.tag y.entry.tag = .lt
  have : Trans less less less := ⟨Std.TransCmp.lt_trans⟩
  exact List.isChain_iff_pairwise.mp h

/-- Beside a gap all items before it are less and all items after it are greater. -/
theorem away_of_gap (h : Increasing order (ys ++ zs)) (g : Gap order s ys zs) :
    (∀ y ∈ ys, order s y.entry.tag = .gt) ∧ ∀ z ∈ zs, order s z.entry.tag = .lt := by
  obtain ⟨hy, hz, -⟩ := List.pairwise_append.mp h
  constructor
  · intro y hmem
    obtain ⟨us, u, rfl⟩ := (List.eq_nil_or_concat' ys).resolve_left (List.ne_nil_of_mem hmem)
    have hu : order s u.entry.tag = .gt := g.1 u (by simp)
    rcases List.mem_append.mp hmem with hus | hl
    · have := (List.pairwise_append.mp hy).2.2 y hus u (List.mem_singleton_self _)
      exact Std.TransCmp.gt_trans hu (Std.OrientedCmp.gt_of_lt this)
    · rwa [List.mem_singleton.mp hl]
  · intro z hmem
    obtain ⟨u, us, rfl⟩ := List.exists_cons_of_ne_nil (List.ne_nil_of_mem hmem)
    have hu : order s u.entry.tag = .lt := g.2 u rfl
    rcases List.mem_cons.mp hmem with rfl | hus
    · exact hu
    · exact Std.TransCmp.lt_trans hu ((List.pairwise_cons.mp hz).1 z hus)

theorem increasing_at_gap (h : Increasing order (ys ++ zs)) (g : Gap order x.entry.tag ys zs) :
    Increasing order (ys ++ x :: zs) := by
  obtain ⟨hy, hz⟩ := away_of_gap h g
  obtain ⟨hys, hzs, hyz⟩ := List.pairwise_append.mp h
  refine List.pairwise_append.mpr ⟨hys, List.pairwise_cons.mpr ⟨hz, hzs⟩, ?_⟩
  intro y hmem u hu
  rcases List.mem_cons.mp hu with rfl | hu
  · exact Std.OrientedCmp.lt_of_gt (hy y hmem)
  · exact hyz y hmem u hu

/-- An item may take on an equal tag. -/
theorem increasing_rewrite {e : Entry κ ν} (h : Increasing order (ys ++ x :: zs))
    (he : order e.tag x.entry.tag = .eq) :
    Increasing order (ys ++ { x with entry := e } :: zs) := by
  obtain ⟨hys, hzs, hyz⟩ := List.pairwise_append.mp h
  obtain ⟨hxz, hz⟩ := List.pairwise_cons.mp hzs
  refine List.pairwise_append.mpr ⟨hys, List.pairwise_cons.mpr ⟨?_, hz⟩, ?_⟩
  · exact fun z hmem => Std.TransCmp.lt_of_eq_of_lt he (hxz z hmem)
  · intro y hmem u hu
    rcases List.mem_cons.mp hu with rfl | hu
    · exact Std.TransCmp.lt_of_lt_of_eq (hyz y hmem x (List.mem_cons_self ..))
        (Std.OrientedCmp.eq_symm he)
    · exact hyz y hmem u (List.mem_cons_of_mem _ hu)

theorem find?_of_increasing (h : Increasing order (ys ++ x :: zs))
    (hs : order s x.entry.tag = .eq) :
    (ys ++ x :: zs).find? (fun y => order s y.entry.tag = .eq) = some x := by
  have hy (y) (hmem : y ∈ ys) : order s y.entry.tag ≠ .eq := fun he => by
    have := (List.pairwise_append.mp h).2.2 y hmem x (List.mem_cons_self ..)
    have hlt := Std.TransCmp.lt_of_eq_of_lt he this
    rw [hs] at hlt
    cases hlt
  rw [List.find?_append, List.find?_eq_none.mpr fun y hmem => by simpa using hy y hmem,
    List.find?_cons_of_pos (by simpa using hs)]
  rfl

theorem find?_of_gap (h : Increasing order (ys ++ zs)) (g : Gap order s ys zs) :
    (ys ++ zs).find? (fun y => order s y.entry.tag = .eq) = none := by
  obtain ⟨hy, hz⟩ := away_of_gap h g
  refine List.find?_eq_none.mpr fun y hmem => ?_
  rcases List.mem_append.mp hmem with hmem | hmem
  · simp [hy y hmem]
  · simp [hz y hmem]

/-- The gap is where the tag belongs. -/
theorem split_of_gap (h : Increasing order (ys ++ zs)) (g : Gap order s ys zs) :
    (ys ++ zs).takeWhile (fun y => order s y.entry.tag = .gt) = ys ∧
      (ys ++ zs).dropWhile (fun y => order s y.entry.tag = .gt) = zs := by
  obtain ⟨hy, hz⟩ := away_of_gap h g
  have hy' : ∀ y ∈ ys, decide (order s y.entry.tag = .gt) = true := fun y hmem => by
    simpa using hy y hmem
  rw [List.takeWhile_append_of_pos hy', List.dropWhile_append_of_pos hy']
  cases zs with
  | nil => simp
  | cons z zs =>
    have hz' := hz z (List.mem_cons_self ..)
    rw [List.takeWhile_cons_of_neg (by simp [hz']), List.dropWhile_cons_of_neg (by simp [hz']),
      List.append_nil]
    exact ⟨rfl, rfl⟩

end Preorder
end Item

namespace Roll

variable {κ ν : Type} {r r' r'' : Roll κ ν}

/-- Items have gone or have got other values, at most. -/
structure Thins (r r' : Roll κ ν) : Prop where
  id : r'.id = r.id
  policy : r'.policy = r.policy
  keys : (r'.items.map Item.key).Sublist (r.items.map Item.key)

namespace Thins

theorem refl (r : Roll κ ν) : r.Thins r := ⟨rfl, rfl, .refl _⟩

theorem trans (h : r.Thins r') (h' : r'.Thins r'') : r.Thins r'' :=
  ⟨h'.id.trans h.id, h'.policy.trans h.policy, h'.keys.trans h.keys⟩

theorem rewrite (r : Roll κ ν) (n : Option NodeId) {f : Entry κ ν → Entry κ ν}
    (hf : ∀ e, (f e).tag = e.tag) : r.Thins (r.rewrite n f) := by
  cases n with
  | none => exact .refl r
  | some n =>
    refine ⟨rfl, rfl, ?_⟩
    have : (r.rewrite (some n) f).items.map Item.key = r.items.map Item.key := by
      rw [Roll.rewrite, Item.rewriteAt, List.map_map]
      refine List.map_congr_left fun x _ => ?_
      simp only [Function.comp_apply]
      split
      · simp [Item.key, hf]
      · rfl
    rw [this]

theorem erase (r : Roll κ ν) (n : Option NodeId) : r.Thins (r.erase n) := by
  cases n with
  | none => exact .refl r
  | some n => exact ⟨rfl, rfl, List.filter_sublist.map _⟩

theorem empty (r : Roll κ ν) : r.Thins r.empty := ⟨rfl, rfl, List.nil_sublist _⟩

theorem amend (r : Roll κ ν) (s : Revision ν) (c : Cursor) : r.Thins (r.amend s c).2.2 := by
  cases s with
  | look s => exact .refl r
  | set v => exact .rewrite r c.rest fun _ => rfl
  | write v => exact .rewrite r c.rest fun _ => rfl
  | erase => exact .erase r c.rest
  | view steps => exact .refl r

theorem revise (r : Roll κ ν) (steps : List (Revision ν)) (c : Cursor) :
    r.Thins (r.revise steps c).2 := by
  induction steps generalizing r c with
  | nil => exact .refl r
  | cons s rest ih => exact (amend r s c).trans (ih _ _)

/-- An operation that stores no new entries thins the roll out. -/
theorem perform {seek : κ → Option NodeId} {op : Map.Op κ ν} {out : Except Fault (Reply κ ν)}
    (h : r.perform? seek op = some (out, r')) : r.Thins r' := by
  cases op <;> simp only [perform?, Option.some.injEq, reduceCtorEq] at h
  case overwrite t v =>
    cases h
    exact .rewrite r _ fun _ => rfl
  case erase t =>
    cases h
    exact .erase r _
  case removeValue t =>
    cases h
    exact .erase r _
  case remove t =>
    cases h
    exact .erase r _
  case eraseOwnPosition p =>
    split at h <;> cases h
    · exact .erase r _
    · exact .refl r
    · exact .refl r
  case erasePosition p =>
    split at h <;> cases h
    · exact .erase r _
    · exact .refl r
  case clear =>
    cases h
    exact .empty r
  case walk start steps =>
    split at h <;> cases h <;> exact .refl r
  case revise start steps =>
    split at h <;> cases h
    · exact .revise r steps _
    · exact .refl r
  all_goals
    cases h
    exact .refl r

end Thins

/-- Under a total preorder the tags increase strictly. -/
def Sorted (r : Roll κ ν) : Prop := Std.TransCmp r.order → Item.Increasing r.order r.items

theorem Thins.sorted (h : r.Thins r') (hs : r.Sorted) : r'.Sorted := by
  intro ho
  have he : r'.order = r.order := by rw [order, h.policy]; rfl
  rw [he] at ho ⊢
  exact Item.increasing_iff_keys.mpr ((Item.increasing_iff_keys.mp (hs ho)).sublist h.keys)

end Roll
end OrderedMap
