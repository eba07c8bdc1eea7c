import OrderedMap.Proofs.Map.Composing
import OrderedMap.Proofs.Map.Storing

/-!
The room a map takes up. A new slot is taken only where none is vacant, so there are never more
slots than there have been entries at some time, but for the one that a placeholder takes. All
operations but insertions are composed of actions that add no entry.
-/
namespace OrderedMap

namespace Map

variable {κ ν α β : Type} {m : Map κ ν} {w w' : Workspace κ ν} {xs : List (Item κ ν)}
  {rs : List (Released κ ν)} {peak high : Nat}

/-- There are no more entries than the peak, and at most one slot more than that. -/
structure Within (m : Map κ ν) (peak : Nat) : Prop where
  count : m.count ≤ peak
  size : m.arena.slots.size ≤ peak + 1

theorem Within.mono (h : m.Within peak) (hp : peak ≤ high) : m.Within high := by
  have hcount := h.count
  have hsize := h.size
  exact ⟨by omega, by omega⟩

theorem Lists.count (h : m.Lists xs) : m.count = xs.length := by
  obtain ⟨t, h⟩ := h
  exact h.count

theorem Becomes.within (h : Becomes w w' xs rs) (hw : w.map.Within peak) :
    w'.map.Within (max peak xs.length) := by
  have hcount := hw.count
  have hsize := hw.size
  have hgrown := h.size
  refine ⟨?_, by omega⟩
  rw [h.lists.count]
  omega

/-- A map has no more entries than before, and no more slots but for a placeholder. -/
structure Spares (m m' : Map κ ν) : Prop where
  lists : ∃ ys, m'.Lists ys
  within : ∀ peak, m.Within peak → m'.Within peak

theorem Spares.refl (h : m.Lists xs) : Spares m m := ⟨⟨xs, h⟩, fun _ hp => hp⟩

/-- An action adds no entry. -/
def Sparing (x : MapM κ ν α) : Prop :=
  ∀ w xs, w.map.Lists xs → Ends x w fun _ w' => Spares w.map w'.map

theorem Becomes.spares {ys : List (Item κ ν)} (h : Becomes w w' ys rs) (hw : w.map.Lists xs)
    (hle : ys.length ≤ xs.length) : Spares w.map w'.map := by
  refine ⟨⟨ys, h.lists⟩, fun peak hp => ?_⟩
  have hcount := hp.count
  rw [hw.count] at hcount
  exact (h.within hp).mono (by omega)

namespace Sparing

/-- Whatever leaves the map as it is adds no entry. -/
theorem of_map_eq {x : MapM κ ν α}
    (h : ∀ w xs, w.map.Lists xs → Ends x w fun _ w' => w'.map = w.map) : Sparing x := by
  intro w xs hw
  apply (h w xs hw).mono
  intro _ w' hm
  rw [hm]
  exact .refl hw

theorem pure (a : α) : Sparing (Pure.pure a : MapM κ ν α) := of_map_eq fun _ _ _ => rfl

theorem throw (f : Fault) : Sparing (throw f : MapM κ ν α) := of_map_eq fun _ _ _ => rfl

theorem bind {x : MapM κ ν α} {f : α → MapM κ ν β} (hx : Sparing x) (hf : ∀ a, Sparing (f a)) :
    Sparing (x >>= f) := by
  intro w xs hw
  refine (hx w xs hw).bind (fun a w₁ h₁ => ?_) (fun _ _ h₁ => h₁)
  obtain ⟨ys, hys⟩ := h₁.lists
  apply (hf a w₁ ys hys).mono
  intro _ w₂ h₂
  exact ⟨h₂.lists, fun peak hp => h₂.within peak (h₁.within peak hp)⟩

theorem attempt {x : MapM κ ν α} (hx : Sparing x) : Sparing (attempt x) := by
  intro w xs hw
  have h := hx w xs hw
  unfold Ends at h ⊢
  unfold Map.attempt
  cases he : x w with
  | ok a w' =>
    rw [he] at h
    exact h
  | error f w' =>
    rw [he] at h
    exact h

theorem survey (q : Map κ ν → Except Fault α) : Sparing (survey q) := by
  refine of_map_eq fun w xs _ => ?_
  unfold Ends Map.survey
  cases q w.map <;> rfl

theorem releaseTag (t : κ) : Sparing (releaseTag t : MapM κ ν Unit) := of_map_eq fun _ _ _ => rfl

theorem releaseValue (v : ν) : Sparing (releaseValue v : MapM κ ν Unit) :=
  of_map_eq fun _ _ _ => rfl

theorem locate (t : κ) : Sparing (locate t : MapM κ ν _) :=
  of_map_eq fun _ _ hw => (yields_locate_items hw).ends fun _ _ h => h.2.map

theorem audit : Sparing (audit : MapM κ ν _) :=
  of_map_eq fun _ _ hw => (yields_audit hw).ends fun _ _ h => h.1.map

/-- A slot is that of an item, or there is nothing in it. -/
theorem of_occupied {n : NodeId} {x : MapM κ ν α}
    (item : ∀ w xs y, w.map.Lists xs → y ∈ xs → y.node = n →
      Ends x w fun _ w' => Spares w.map w'.map)
    (vacant : ∀ w, w.map.arena.get? n = none → Ends x w fun _ w' => w'.map = w.map) :
    Sparing x := by
  intro w xs hw
  cases hn : w.map.arena.get? n with
  | none =>
    apply (vacant w hn).mono
    intro _ w' hm
    rw [hm]
    exact .refl hw
  | some y =>
    obtain ⟨t, h⟩ := hw
    obtain ⟨z, hz, hzn, -⟩ := h.exists_item hn
    exact item w xs z ⟨t, h⟩ hz hzn

theorem overwriteAt (n : NodeId) (v : ν) : Sparing (overwriteAt n v : MapM κ ν ν) := by
  refine of_occupied (n := n) (fun w xs y hw hy hn => ?_) fun w hn => ?_
  · subst hn
    refine (yields_overwriteAt (v := v) hw hy).ends fun _ w' h => h.2.2.spares hw ?_
    exact Nat.le_of_eq (Item.length_rewriteAt ..)
  · obtain ⟨f, hf⟩ := Arena.node_of_vacant hn
    simp [Ends, Map.overwriteAt, edit, Arena.replaceEntry, Arena.inspect, Arena.entry, hf,
      Bind.bind, EStateM.bind, Except.bind]

theorem takeOut (n : NodeId) : Sparing (takeOut n : MapM κ ν (Entry κ ν)) := by
  refine of_occupied (n := n) (fun w xs y hw hy hn => ?_) fun w hn => ?_
  · subst hn
    exact (yields_takeOut hw hy).ends fun _ w' h => h.2.spares hw (List.length_filter_le ..)
  · obtain ⟨f, hf⟩ := Arena.node_of_vacant hn
    simp [Ends, Map.takeOut, extract, lower, Map.look, Map.survey, Arena.child, hf, Bind.bind,
      EStateM.bind, Except.bind]

theorem clear : Sparing (clear : MapM κ ν Unit) := fun _ _ hw =>
  (yields_clear hw).ends fun _ _ h => h.2.1.spares hw (Nat.zero_le _)

theorem composes : Composes (@Sparing κ ν) :=
  ⟨pure, throw, bind, attempt, survey, releaseTag, releaseValue, overwriteAt, takeOut⟩

end Sparing

/-- A map has as many entries as before or more, and room for them. -/
structure Grows (m m' : Map κ ν) : Prop where
  lists : ∃ ys, m'.Lists ys
  count : m.count ≤ m'.count
  within : ∀ peak, m.Within peak → m'.Within (max peak m'.count)

theorem Becomes.grows {ys : List (Item κ ν)} (h : Becomes w w' ys rs) (hw : w.map.Lists xs)
    (hle : xs.length ≤ ys.length) : Grows w.map w'.map := by
  refine ⟨⟨ys, h.lists⟩, ?_, fun peak hp => ?_⟩
  · rwa [hw.count, h.lists.count]
  · rw [h.lists.count]
    exact h.within hp

theorem yields_insert_grows (hw : w.map.Lists xs) (t : κ) (v : ν) :
    Yields (insert t v) w fun _ w' => Grows w.map w'.map := by
  cases hf : w.map.found? t with
  | some n =>
    apply (yields_insert_found (v := v) hw hf).mono
    intro _ w' h
    exact h.2.grows hw (Nat.le_of_eq (Item.length_rewriteAt ..).symm)
  | none =>
    apply (yields_insert_new (v := v) hw hf).mono
    rintro - w' ⟨-, ys, zs, rfl, -, -, h⟩
    refine h.grows hw ?_
    simp only [List.length_append, List.length_cons]
    omega

theorem yields_insertMany_grows (hw : w.map.Lists xs) (es : List (κ × ν)) :
    Yields (insertMany es) w fun _ w' => Grows w.map w'.map := by
  induction es generalizing w xs with
  | nil =>
    exact yields_pure.mpr ⟨⟨xs, hw⟩, Nat.le_refl _, fun _ hp => hp.mono (Nat.le_max_left ..)⟩
  | cons e rest ih =>
    rw [insertMany, yields_bind]
    apply (yields_insert_grows hw e.1 e.2).mono
    intro _ w₁ h₁
    obtain ⟨ys, hys⟩ := h₁.lists
    apply (ih hys).mono
    intro _ w₂ h₂
    have hcount := h₁.count
    have hcount' := h₂.count
    exact ⟨h₂.lists, by omega, fun peak hp => (h₂.within _ (h₁.within peak hp)).mono (by omega)⟩

/-- A clearing of a tree gives all slots back. -/
theorem ends_clear_within (hw : w.map.Lists xs) (hroot : w.map.arena.root.isSome) :
    Ends Op.clear.perform w fun _ w' => w'.map.Within 0 := by
  refine Yields.ends_with (f := fun _ => Reply.done) ((yields_clear hw).mono ?_)
  intro _ w' h
  have harena := h.2.2 hroot
  refine ⟨?_, ?_⟩
  · rw [h.2.1.lists.count]
    exact Nat.le_refl _
  · rw [harena]
    exact Nat.zero_le _

/-- Every operation takes an arena to one slot more at most than there have been entries. -/
theorem ends_perform_within (hw : w.map.Lists xs) (op : Op κ ν) (hp : w.map.Within peak) :
    Ends op.perform w fun _ w' => w'.map.Within (max peak w'.map.count) := by
  have sparing {x : MapM κ ν (Reply κ ν)} (hx : Sparing x) :
      Ends x w fun _ w' => w'.map.Within (max peak w'.map.count) := by
    apply (hx w xs hw).mono
    intro _ w' h
    exact (h.within peak hp).mono (Nat.le_max_left ..)
  cases op with
  | insert t v =>
    refine Yields.ends_with ((yields_insert_grows hw t v).mono ?_)
    exact fun _ _ h => h.within peak hp
  | insertMany es =>
    refine Yields.ends_with (f := fun _ => Reply.done) ((yields_insertMany_grows hw es).mono ?_)
    exact fun _ _ h => h.within peak hp
  | _ => exact sparing (Sparing.composes.perform .locate .clear .audit _ nofun nofun)

end Map
end OrderedMap
