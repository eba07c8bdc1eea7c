import OrderedMap.Proofs.Map.WellFormed
import OrderedMap.Proofs.Roll.Shelf

/-!
Maps under a total preorder. The lookup of a tag finds the one item with an equal tag, so that every
operation is that of a sorted list.
-/
namespace OrderedMap
namespace Roll

variable {κ ν : Type} {r r' : Roll κ ν} {t : κ} {v : ν} {low high : Nat} {n : Option NodeId}

/-- The comparator is a total preorder, in which the tags increase strictly. -/
structure Preordered (r : Roll κ ν) : Prop where
  order : Std.TransCmp r.order
  increasing : Item.Increasing r.order r.items

theorem preordered_nil {id : MapId} {policy : Policy κ}
    (h : Std.TransCmp policy.comparator.compare) : (⟨id, policy, []⟩ : Roll κ ν).Preordered :=
  ⟨h, .nil⟩

theorem Thins.preordered (h : r.Thins r') (hr : r.Preordered) : r'.Preordered := by
  have he : r'.order = r.order := by rw [Roll.order, h.policy]; rfl
  have ho : Std.TransCmp r'.order := he ▸ hr.order
  exact ⟨ho, h.sorted (fun _ => hr.increasing) ho⟩

namespace Stores

theorem preordered (h : r.Stores t v low high n r') (hr : r.Preordered) : r'.Preordered := by
  have he : r'.order = r.order := by cases h <;> rfl
  have ho : Std.TransCmp r'.order := he ▸ hr.order
  exact ⟨ho, h.sorted (fun _ => hr.increasing) ho⟩

/-- In a sorted roll an entry is stored where its tag belongs. -/
theorem inserts (h : r.Stores t v low high n r') (hr : r.Preordered) (hn : r.nodes.Nodup)
    (hc : low ≤ high) : r.Inserts t v low high n.isNone r' := by
  have ho := hr.order
  have hi := hr.increasing
  cases h with
  | @written ys zs x split equal =>
    rw [split] at hi
    have hf : r.find? t = some x := by
      rw [find?, split]
      exact Item.find?_of_increasing hi equal
    have hnd : ((ys ++ x :: zs).map (·.node)).Nodup := split ▸ hn
    have hw := Item.rewriteAt_split (fun _ => (⟨t, v⟩ : Entry κ ν)) hnd
    have done : r.Inserts t v low high false _ := .written hf hc
    rw [rewrite, split, hw] at done
    exact done
  | @added ys zs x split gap entry node old drawn =>
    rw [split] at hi
    obtain ⟨m, stamp, e⟩ := x
    obtain rfl : e = ⟨t, v⟩ := entry
    have hf : r.find? t = none := by
      rw [find?, split]
      exact Item.find?_of_gap hi gap
    obtain ⟨hy, hz⟩ := Item.split_of_gap hi gap
    have done : r.Inserts t v low high true _ := .added hf node old drawn
    rw [add, split, hy, hz] at done
    exact done

end Stores
end Roll

namespace Map

variable {κ ν : Type} {w : Workspace κ ν} {m : Map κ ν} {r : Roll κ ν}

/-- The tree is searched with the same result as the list. -/
theorem Shows.found?_eq (h : m.Shows r) (hr : r.Preordered) : m.found? = r.finder := by
  funext t
  have ho := hr.order
  have hi := hr.increasing
  obtain ⟨u, hl⟩ := h.lists
  cases hf : m.found? t with
  | some n =>
    obtain ⟨ys, x, zs, hx, rfl, he, -⟩ := hl.of_found hf
    rw [h.compare] at he
    rw [hx] at hi
    rw [Roll.finder, Roll.find?, hx, Item.find?_of_increasing hi he]
    rfl
  | none =>
    obtain ⟨ys, zs, hx, gap, -⟩ := hl.of_not_found hf
    rw [h.compare] at gap
    rw [hx] at hi
    rw [Roll.finder, Roll.find?, hx, Item.find?_of_gap hi gap]
    rfl

/-- Every item is found by its tag. -/
theorem Shows.found?_item (h : m.Shows r) (hr : r.Preordered) {x : Item κ ν} (hx : x ∈ r.items) :
    m.found? x.entry.tag = some x.node := by
  have ho := hr.order
  have hi := hr.increasing
  obtain ⟨ys, zs, split⟩ := List.append_of_mem hx
  rw [split] at hi
  rw [h.found?_eq hr, Roll.finder, Roll.find?, split,
    Item.find?_of_increasing hi Std.ReflCmp.compare_self]
  rfl

theorem yields_insert_sorted (h : w.map.Shows r) (hr : r.Preordered) (t : κ) (v : ν) :
    Yields (insert t v) w fun new w' => ∃ r', r.Inserts t v w.clock w'.clock new r' ∧
      r'.Preordered ∧ Leaves w w' r' := by
  apply (yields_insert h t v).mono
  rintro - w' ⟨rfl, r', hst, hl⟩
  exact ⟨r', hst.inserts hr h.nodup hl.clock, hst.preordered hr, hl.toLeaves⟩

theorem yields_insertMany_inserts (h : w.map.Shows r) (hr : r.Preordered) (es : List (κ × ν)) :
    Yields (insertMany es) w fun _ w' => ∃ r', Roll.InsertsAll es r w.clock r' w'.clock ∧
      r'.Preordered ∧ Leaves w w' r' := by
  induction es generalizing w r with
  | nil => exact yields_pure.mpr ⟨r, .nil, hr, h, Nat.le_refl _⟩
  | cons e rest ih =>
    rw [insertMany, yields_bind]
    apply (yields_insert_sorted h hr e.1 e.2).mono
    rintro new w₁ ⟨r₁, hfirst, hr₁, hl⟩
    apply (ih hl.shows hr₁).mono
    rintro - w' ⟨r₂, hrest, hr₂, hl₂⟩
    exact ⟨r₂, .cons hfirst hrest, hr₂, hl.trans hl₂⟩

/-- Every operation does to a map what it does to a sorted list. -/
theorem ends_perform_list (h : w.map.Shows r) (hr : r.Preordered) (op : Op κ ν) :
    Ends op.perform w fun res w' => ∃ r', r.Performs w.clock op res r' w'.clock ∧
      r'.Preordered ∧ Leaves w w' r' := by
  refine ends_perform_elim h ?_ ?_ ?_ ?_
  · intro out r' w' hp hl
    have ht := Roll.Thins.perform hp
    rw [h.found?_eq hr] at hp
    exact ⟨r', .other hp hl.clock, ht.preordered hr, hl.toLeaves⟩
  · rintro t v rfl
    apply (yields_insert_sorted h hr t v).mono
    intro new w' hw
    obtain ⟨r', hs, hr', hl⟩ := hw
    exact ⟨r', .insert hs, hr', hl⟩
  · rintro es rfl
    apply (yields_insertMany_inserts h hr es).mono
    intro _ w' hw
    obtain ⟨r', hs, hr', hl⟩ := hw
    exact ⟨r', .insertMany hs, hr', hl⟩
  · rintro rfl
    apply (yields_audit_sorted h fun _ => hr.increasing).mono
    intro a w' hw
    obtain ⟨hm, -, ha⟩ := hw
    obtain ⟨height, rfl⟩ := ha (h.compare ▸ hr.order)
    rw [hm.clock]
    exact ⟨r, .audit, hr, hm.leaves h⟩

end Map
end OrderedMap
