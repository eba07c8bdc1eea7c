import OrderedMap.Proofs.Map.Operating
import OrderedMap.Proofs.Roll.Order

/-!
Storing entries, in terms of the roll and whatever the comparator. An entry is written over the one
that the lookup of its tag finds, or it becomes a new item at a gap, with a stamp drawn for it.
-/
namespace OrderedMap
namespace Roll

variable {κ ν : Type} {r r' : Roll κ ν} {t : κ} {v : ν} {low high : Nat} {n : Option NodeId}

/-- A roll after an entry was stored. A node is given if the entry was written over there, and new
stamps are from the given bounds. -/
inductive Stores (r : Roll κ ν) (t : κ) (v : ν) (low high : Nat) :
    Option NodeId → Roll κ ν → Prop
  | written {ys zs : List (Item κ ν)} {x : Item κ ν} (split : r.items = ys ++ x :: zs)
      (equal : r.order t x.entry.tag = .eq) :
      Stores r t v low high (some x.node) { r with items := ys ++ { x with entry := ⟨t, v⟩ } :: zs }
  | added {ys zs : List (Item κ ν)} {x : Item κ ν} (split : r.items = ys ++ zs)
      (gap : Map.Gap r.order t ys zs) (entry : x.entry = ⟨t, v⟩) (node : x.node ∉ r.nodes)
      (old : low ≤ x.stamp) (drawn : x.stamp < high) :
      Stores r t v low high none { r with items := ys ++ x :: zs }

theorem Stores.id (h : r.Stores t v low high n r') : r'.id = r.id := by cases h <;> rfl

theorem Stores.sorted (h : r.Stores t v low high n r') (hs : r.Sorted) : r'.Sorted := by
  intro ho
  cases h with
  | written split equal =>
    have hi := hs ho
    rw [split] at hi
    exact Item.increasing_rewrite hi equal
  | added split gap entry =>
    have hi := hs ho
    rw [split] at hi
    exact Item.increasing_at_gap hi (entry ▸ gap)

end Roll

namespace Map

variable {κ ν : Type} {w : Workspace κ ν} {r : Roll κ ν}

theorem yields_insert (h : w.map.Shows r) (t : κ) (v : ν) : Yields (insert t v) w fun new w' =>
    new = (w.map.found? t).isNone ∧
      ∃ r', r.Stores t v w.clock w'.clock (w.map.found? t) r' ∧
        Disposes w w' r' (w.map.releasesAt (w.map.found? t)) := by
  cases hf : w.map.found? t with
  | some n =>
    apply (yields_insert_found (v := v) h.lists hf).mono
    rintro - w' ⟨rfl, hb⟩
    obtain ⟨x, hx, rfl, ho⟩ := h.of_found hf
    obtain ⟨ys, zs, hxs⟩ := List.append_of_mem hx
    have hnd : ((ys ++ x :: zs).map (·.node)).Nodup := hxs ▸ h.nodup
    rw [hxs, Item.rewriteAt_split _ hnd] at hb
    exact ⟨rfl, _, .written hxs ho, hb.disposes h⟩
  | none =>
    apply (yields_insert_new (v := v) h.lists hf).mono
    rintro - w' ⟨rfl, ys, zs, hxs, gap, hc, hb⟩
    have hl := hb.disposes h
    refine ⟨rfl, _, .added hxs (h.compare ▸ gap) rfl ?_ (Nat.le_refl _)
      (hc ▸ Nat.lt_succ_self _), hl⟩
    have hnd := hl.shows.nodup
    simp only [Roll.nodes, List.map_append, List.map_cons, List.nodup_append, List.nodup_cons,
      List.mem_cons] at hnd
    simp only [Roll.nodes, hxs, List.map_append, List.mem_append]
    grind

theorem yields_insertMany_sorted (h : w.map.Shows r) (hs : r.Sorted) (es : List (κ × ν)) :
    Yields (insertMany es) w fun _ w' => ∃ r', r'.id = r.id ∧ r'.Sorted ∧ Leaves w w' r' := by
  induction es generalizing w r with
  | nil => exact yields_pure.mpr ⟨r, rfl, hs, h, Nat.le_refl _⟩
  | cons e rest ih =>
    rw [insertMany, yields_bind]
    apply (yields_insert h e.1 e.2).mono
    rintro - w₁ ⟨-, r₁, hst, hl⟩
    apply (ih hl.shows (hst.sorted hs)).mono
    exact fun _ _ ⟨r₂, hi, hs₂, hl₂⟩ => ⟨r₂, hi.trans hst.id, hs₂, hl.toLeaves.trans hl₂⟩

/-- Every operation leaves the map as a roll, and a sorted one as a sorted one. -/
theorem ends_perform_sorted (h : w.map.Shows r) (hs : r.Sorted) (op : Op κ ν) :
    Ends op.perform w fun _ w' => ∃ r', r'.id = r.id ∧ r'.Sorted ∧ Leaves w w' r' := by
  refine ends_perform_elim h ?_ ?_ ?_ ?_
  · intro out r' w' hp hl
    have ht := Roll.Thins.perform hp
    exact ⟨r', ht.id, ht.sorted hs, hl.toLeaves⟩
  · rintro t v rfl
    apply (yields_insert h t v).mono
    rintro - w' ⟨-, r', hst, hl⟩
    exact ⟨r', hst.id, hst.sorted hs, hl.toLeaves⟩
  · rintro es rfl
    exact yields_insertMany_sorted h hs es
  · rintro rfl
    apply (yields_audit h.lists).mono
    rintro - w' ⟨hread, -⟩
    exact ⟨r, rfl, hs, hread.leaves h⟩

end Map
end OrderedMap
