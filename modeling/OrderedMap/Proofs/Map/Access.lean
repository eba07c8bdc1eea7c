import OrderedMap.Proofs.Map.Iterating

/-!
Access by tag and by position, in terms of the roll and whatever the comparator. It is only through
the lookup of a tag that the tree behind the roll has a say.
-/
namespace OrderedMap
namespace Map

variable {κ ν : Type} {w w' w'' : Workspace κ ν} {m : Map κ ν} {r : Roll κ ν} {s : κ} {v : ν}
  {n : NodeId} {c : Cursor}

/-- An action leaves the map as the given roll, and draws stamps at most. -/
structure Leaves (w w' : Workspace κ ν) (r : Roll κ ν) : Prop where
  shows : w'.map.Shows r
  clock : w.clock ≤ w'.clock

/-- An action leaves the map as the given roll, and the hooks receive what is given. -/
structure Disposes (w w' : Workspace κ ν) (r : Roll κ ν) (rs : List (Released κ ν)) : Prop
    extends Leaves w w' r where
  released : w'.journal.released.toList = w.journal.released.toList ++ rs

theorem Reads.leaves (h : Reads w w') (hw : w.map.Shows r) : Leaves w w' r :=
  ⟨h.map ▸ hw, Nat.le_of_eq h.clock.symm⟩

theorem Leaves.trans {r' : Roll κ ν} (h : Leaves w w' r) (h' : Leaves w' w'' r') :
    Leaves w w'' r' := ⟨h'.shows, Nat.le_trans h.clock h'.clock⟩

theorem Becomes.leaves {xs : List (Item κ ν)} {rs : List (Released κ ν)} (h : w.map.Shows r)
    (hb : Becomes w w' xs rs) :
    Leaves w w' { r with items := xs } :=
  ⟨⟨hb.id.trans h.id, hb.policy.trans h.policy, hb.lists⟩, hb.clock⟩

theorem Reads.disposes (h : Reads w w') (hw : w.map.Shows r) : Disposes w w' r [] :=
  ⟨h.leaves hw, by rw [h.released, List.append_nil]⟩

theorem Disposes.refl (h : w.map.Shows r) : Disposes w w r [] := Reads.disposes ⟨rfl, rfl, rfl⟩ h

theorem Disposes.trans {r' : Roll κ ν} {rs rs' : List (Released κ ν)} (h : Disposes w w' r rs)
    (h' : Disposes w' w'' r' rs') : Disposes w w'' r' (rs ++ rs') :=
  ⟨h.toLeaves.trans h'.toLeaves, by rw [h'.released, h.released, List.append_assoc]⟩

theorem Becomes.disposes {xs : List (Item κ ν)} {rs : List (Released κ ν)} (h : w.map.Shows r)
    (hb : Becomes w w' xs rs) : Disposes w w' { r with items := xs } rs :=
  ⟨hb.leaves h, hb.released⟩

theorem Shows.of_found (h : m.Shows r) (hf : m.found? s = some n) :
    ∃ x ∈ r.items, x.node = n ∧ r.order s x.entry.tag = .eq := by
  obtain ⟨t, hl⟩ := h.lists
  obtain ⟨ys, x, zs, hx, hn, ho, -⟩ := hl.of_found hf
  exact ⟨x, by simp [hx], hn, h.compare ▸ ho⟩

theorem Shows.rests_found (h : m.Shows r) (s : κ) : Cursor.Rests ⟨m.found? s⟩ r := by
  intro n hn
  obtain ⟨x, hx, rfl, -⟩ := h.of_found hn
  exact List.mem_map_of_mem hx

section Actions

variable (h : w.map.Shows r)
include h

theorem yields_find_node (s : κ) :
    Yields (locate s) w fun n w' => n = w.map.found? s ∧ Reads w w' :=
  yields_locate_items h.lists

theorem yields_lookup (s : κ) : Yields (entryOf? s) w fun e w' =>
    e = (r.at? (w.map.found? s)).map (·.entry) ∧ Reads w w' := by
  unfold entryOf?
  rw [yields_bind]
  apply (yields_find_node h s).mono
  rintro n w₁ ⟨rfl, hr⟩
  cases hf : w.map.found? s with
  | none => exact yields_pure.mpr ⟨rfl, hr⟩
  | some n =>
    obtain ⟨x, hx, rfl, -⟩ := h.of_found hf
    have he : w₁.map.arena.entry x.node = .ok x.entry := by rw [hr.map, h.entry hx]
    simp only
    rw [yields_bind, yields_look he, h.at?_of_mem hx]
    exact yields_pure.mpr ⟨rfl, hr⟩

theorem yields_overwrite_node (hn : n ∈ r.nodes) : Yields (overwriteAt n v) w fun old w' =>
    (r.at? (some n)).map (·.entry.value) = some old ∧
      Disposes w w' (r.rewrite (some n) fun e => ⟨e.tag, v⟩) [] := by
  obtain ⟨x, hx, rfl⟩ := Roll.mem_nodes.mp hn
  apply (yields_overwriteAt h.lists hx).mono
  rintro - w' ⟨rfl, -, hb⟩
  exact ⟨by rw [h.at?_of_mem hx]; rfl, hb.disposes h⟩

theorem yields_takeOut_node (hn : n ∈ r.nodes) : Yields (takeOut n) w fun e w' =>
    (r.at? (some n)).map (·.entry) = some e ∧ Disposes w w' (r.erase (some n)) [] := by
  obtain ⟨x, hx, rfl⟩ := Roll.mem_nodes.mp hn
  apply (yields_takeOut h.lists hx).mono
  rintro - w' ⟨rfl, hb⟩
  exact ⟨by rw [h.at?_of_mem hx]; rfl, hb.disposes h⟩

theorem yields_dispose_node (hn : n ∈ r.nodes) :
    Yields (dispose n) w fun _ w' =>
      Disposes w w' (r.erase (some n)) (w.map.releasesAt (some n)) := by
  obtain ⟨x, hx, rfl⟩ := Roll.mem_nodes.mp hn
  exact (yields_dispose h.lists hx).mono fun _ _ hb => hb.disposes h

theorem yields_overwrite? (s : κ) (v : ν) : Yields (overwrite? s v) w fun old w' =>
    old = (r.at? (w.map.found? s)).map (·.entry.value) ∧
      Disposes w w' (r.rewrite (w.map.found? s) fun e => ⟨e.tag, v⟩) [] := by
  unfold overwrite?
  rw [yields_bind]
  apply (yields_find_node h s).mono
  rintro n w₁ ⟨rfl, hr⟩
  have hl := hr.disposes h
  cases hf : w.map.found? s with
  | none => exact yields_pure.mpr ⟨rfl, hl⟩
  | some n =>
    simp only
    rw [yields_bind]
    apply (yields_overwrite_node hl.shows (h.rests_found s n hf)).mono
    rintro old w₂ ⟨ho, hl₂⟩
    exact yields_pure.mpr ⟨ho.symm, hl.trans hl₂⟩

theorem yields_erase (s : κ) : Yields (erase s) w fun gone w' =>
    gone = (w.map.found? s).isSome ∧
      Disposes w w' (r.erase (w.map.found? s)) (w.map.releasesAt (w.map.found? s)) := by
  unfold erase
  rw [yields_bind]
  apply (yields_find_node h s).mono
  rintro n w₁ ⟨rfl, hr⟩
  have hl := hr.disposes h
  cases hf : w.map.found? s with
  | none => exact yields_pure.mpr ⟨rfl, hl⟩
  | some n =>
    simp only
    rw [yields_bind]
    apply (yields_dispose_node hl.shows (h.rests_found s n hf)).mono
    intro _ w₂ hl₂
    rw [hr.map] at hl₂
    exact yields_pure.mpr ⟨rfl, hl.trans hl₂⟩

theorem yields_remove? (s : κ) : Yields (remove? s) w fun e w' =>
    e = (r.at? (w.map.found? s)).map (·.entry) ∧
      Disposes w w' (r.erase (w.map.found? s)) [] := by
  unfold remove?
  rw [yields_bind]
  apply (yields_find_node h s).mono
  rintro n w₁ ⟨rfl, hr⟩
  have hl := hr.disposes h
  cases hf : w.map.found? s with
  | none => exact yields_pure.mpr ⟨rfl, hl⟩
  | some n =>
    simp only
    rw [yields_bind]
    apply (yields_takeOut_node hl.shows (h.rests_found s n hf)).mono
    rintro e w₂ ⟨he, hl₂⟩
    exact yields_pure.mpr ⟨he.symm, hl.trans hl₂⟩

theorem yields_removeValue? (s : κ) : Yields (removeValue? s) w fun v w' =>
    v = (r.at? (w.map.found? s)).map (·.entry.value) ∧
      Disposes w w' (r.erase (w.map.found? s)) (w.map.tagReleasesAt (w.map.found? s)) := by
  unfold removeValue?
  rw [yields_bind]
  apply (yields_remove? h s).mono
  rintro e w₁ ⟨he, hl⟩
  have hv : (r.at? (w.map.found? s)).map (·.entry.value) = e.map (·.value) := by
    rw [he, Option.map_map]
    rfl
  have ht : w.map.tagReleasesAt (w.map.found? s) =
      e.toList.flatMap fun e => w.map.policy.tagReleases e.tag := by
    rw [tagReleasesAt, h.bind_entryAt?, he]
  rw [hv, ht]
  cases e with
  | none => exact yields_pure.mpr ⟨rfl, hl⟩
  | some e =>
    simp only
    rw [yields_bind, yields_releaseTag]
    refine yields_pure.mpr ⟨rfl, ⟨hl.shows, hl.clock⟩, ?_⟩
    have hp : w₁.map.policy = w.map.policy :=
      hl.shows.policy.trans ((Roll.policy_erase ..).trans h.policy.symm)
    rw [Workspace.journal_withJournal, Journal.released_releaseTag, hl.released, hp]
    simp

/-- A position that resolves leads to the entry being erased, any other one is refused. -/
theorem yields_erasePosition (p : Position) : Yields (erasePosition p) w fun res w' =>
    res = (r.resolve p).map (fun _ => ()) ∧ Disposes w w' (match r.resolve p with
      | .ok x => r.erase (some x.node)
      | .error _ => r) (w.map.releasesAt (w.map.nodeAt p).toOption) := by
  unfold erasePosition
  rw [yields_bind, yields_of_eq (x := survey pure) (s := w) rfl, h.nodeAt]
  cases hr : r.resolve p with
  | error e => exact yields_pure.mpr ⟨rfl, .refl h⟩
  | ok x =>
    simp only [Except.map]
    rw [yields_bind]
    apply (yields_dispose_node h (List.mem_map_of_mem (Roll.mem_items_of_resolve hr).1)).mono
    exact fun _ _ hl => yields_pure.mpr ⟨rfl, hl⟩

theorem yields_outermost (side : Side) : Yields (outermost? side) w fun e w' =>
    e = (r.outermost side).map (·.entry) ∧ Reads w w' := by
  unfold outermost?
  rw [yields_bind, yields_look (h.outermost side)]
  cases hx : r.outermost side with
  | none => exact yields_pure.mpr ⟨rfl, rfl, rfl, rfl⟩
  | some x =>
    have hmem : x ∈ r.items := by
      cases side with
      | left => exact List.mem_of_mem_head? hx
      | right => exact List.mem_of_getLast? hx
    simp only [Option.map_some]
    rw [yields_bind, yields_look (h.entry hmem)]
    exact yields_pure.mpr ⟨rfl, rfl, rfl, rfl⟩

end Actions
end Map
end OrderedMap
