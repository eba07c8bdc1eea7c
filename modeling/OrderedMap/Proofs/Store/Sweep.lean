import OrderedMap.Proofs.Store.Positions

/-!
Sweeps: a writing cursor goes over a map from its front and decides on every entry whether to keep
it or to erase it. Where it goes on after an erasure was looked up before the tree changed.
-/
namespace OrderedMap

variable {κ ν : Type}

/-- What a sweep does about the entry it has come to. -/
inductive Decision
  | keep
  | erase
  deriving DecidableEq, Repr

namespace Decision

/-- A look at the entry at hand. -/
def visit : List (Revision ν) := [.look .available, .look .entry, .look .position]

/-- The step that takes a sweep to the next entry. -/
def leave : Decision → Revision ν
  | keep => .look (.move .right)
  | erase => .erase

/-- A visit for each decision, and a look at whether there is another entry. -/
def sweep (ds : List Decision) : List (Revision ν) :=
  ds.flatMap (fun d => visit ++ [d.leave]) ++ [.look .available]

def seen (id : MapId) (x : Item κ ν) : List (Reply κ ν) :=
  [.flag true, .entry (some x.entry), .position (some ⟨id, x.node, x.stamp⟩)]

/-- What a sweep over items answers. An erasure succeeds, a move tells whether there is another
item. -/
def told (id : MapId) : List Decision → List (Item κ ν) → List (Reply κ ν)
  | d :: ds, x :: zs => seen id x ++ .flag (d = .erase ∨ zs ≠ []) :: told id ds zs
  | _, zs => [.flag (zs ≠ [])]

/-- The items that a sweep leaves, those included to which it does not come. -/
def kept : List Decision → List (Item κ ν) → List (Item κ ν)
  | keep :: ds, x :: zs => x :: kept ds zs
  | erase :: ds, _ :: zs => kept ds zs
  | _, zs => zs

def erased : List Decision → List (Item κ ν) → List (Item κ ν)
  | keep :: ds, _ :: zs => erased ds zs
  | erase :: ds, x :: zs => x :: erased ds zs
  | _, _ => []

variable (ds : List Decision) (x : Item κ ν) (zs : List (Item κ ν))

theorem sweep_cons (d : Decision) :
    (sweep (d :: ds) : List (Revision ν)) = visit ++ d.leave :: sweep ds := by
  simp [sweep]

theorem kept_cons (d : Decision) :
    kept (d :: ds) (x :: zs) = (if d = keep then [x] else []) ++ kept ds zs := by cases d <;> rfl

theorem erased_cons (d : Decision) :
    erased (d :: ds) (x :: zs) = (if d = erase then [x] else []) ++ erased ds zs := by
  cases d <;> rfl

@[simp] theorem kept_nil : kept [] zs = zs := by cases zs <;> rfl

@[simp] theorem erased_nil : erased [] zs = [] := by cases zs <;> rfl

end Decision

namespace Revision

variable {w : Workspace κ ν} {r : Roll κ ν} {c : Cursor} {ys zs : List (Item κ ν)} {x : Item κ ν}

/-- A look changes nothing. -/
theorem yields_walk_look (h : w.map.Shows r) (hc : c.Rests r) (s : Step) (rest : List (Revision ν))
    {post : List (Reply κ ν) → Workspace κ ν → Prop} : Yields (walk (.look s :: rest) c) w post ↔
      Yields (walk rest (r.step s c).2) w fun as => post ((r.step s c).1 :: as) := by
  rw [walk, yields_bind, perform, Map.yields_survey (Step.perform_eq h hc s)]
  simp only [yields_bind, yields_pure]

theorem yields_visit (h : w.map.Shows r) (hx : x ∈ r.items) (rest : List (Revision ν))
    {post : List (Reply κ ν) → Workspace κ ν → Prop} :
    Yields (walk (Decision.visit ++ rest) ⟨some x.node⟩) w post ↔
      Yields (walk rest ⟨some x.node⟩) w fun as => post (Decision.seen r.id x ++ as) := by
  have rests : Cursor.Rests ⟨some x.node⟩ r := by
    rintro - ⟨⟩
    exact List.mem_map_of_mem hx
  have available : r.step .available ⟨some x.node⟩ = (.flag true, ⟨some x.node⟩) := by
    rw [Roll.step]
    rfl
  have entry : r.step .entry ⟨some x.node⟩ = (.entry (some x.entry), ⟨some x.node⟩) := by
    simp only [Roll.step, h.at?_of_mem hx, Option.map_some]
  have position : r.step .position ⟨some x.node⟩ =
      (.position (some ⟨r.id, x.node, x.stamp⟩), ⟨some x.node⟩) := by
    simp only [Roll.step, h.at?_of_mem hx, Option.map_some, Roll.position]
  rw [Decision.visit, List.cons_append, List.cons_append, List.cons_append, List.nil_append,
    yields_walk_look h rests, available, yields_walk_look h rests, entry,
    yields_walk_look h rests, position]
  rfl

/-- An erasure takes the cursor from one item to the next, whatever becomes of the tree. -/
theorem yields_perform_erase (h : w.map.Shows r) (hx : r.items = ys ++ x :: zs) :
    Yields (perform .erase ⟨some x.node⟩) w fun a w' =>
      a = (.flag true, ⟨zs.head?.map (·.node)⟩) ∧
        Map.Disposes w w' { r with items := ys ++ zs } (r.policy.releases x.entry) := by
  have hmem : x ∈ r.items := by simp [hx]
  have hnd : ((ys ++ x :: zs).map (·.node)).Nodup := hx ▸ h.nodup
  have next_eq : r.next .right x.node = zs.head?.map (·.node) := Roll.next_split h.nodup hx .right
  have erase_eq : r.erase (some x.node) = { r with items := ys ++ zs } := by
    rw [Roll.erase, hx, Item.without_split hnd]
  have releases_eq : w.map.releasesAt (some x.node) = r.policy.releases x.entry := by
    rw [Map.releasesAt, h.bind_entryAt?, h.at?_of_mem hmem, h.policy]
    simp
  have rests : Cursor.Rests ⟨some x.node⟩ r := by
    rintro - ⟨⟩
    exact List.mem_map_of_mem hmem
  apply (yields_perform h rests .erase).mono
  rintro - w' ⟨rfl, hd⟩
  rw [Revision.releases, releases_eq, Roll.amend, erase_eq] at hd
  rw [Roll.amend, Option.bind_some, next_eq]
  exact ⟨rfl, hd⟩

/-- Either decision takes the cursor from one item to the next. -/
theorem yields_perform_leave (d : Decision) (h : w.map.Shows r) (hx : r.items = ys ++ x :: zs) :
    Yields (perform d.leave ⟨some x.node⟩) w fun a w' =>
      a = (.flag (d = .erase ∨ zs ≠ []), ⟨zs.head?.map (·.node)⟩) ∧
        Map.Disposes w w' { r with items := ys ++ (if d = .keep then [x] else []) ++ zs }
          ((if d = .erase then [x] else []).flatMap fun x => r.policy.releases x.entry) := by
  cases d with
  | keep =>
    have next_eq : r.next .right x.node = zs.head?.map (·.node) :=
      Roll.next_split h.nodup hx .right
    have items_eq : ys ++ (if Decision.keep = .keep then [x] else []) ++ zs = r.items := by
      simp [hx]
    have rests : Cursor.Rests ⟨some x.node⟩ r := by
      rintro - ⟨⟩
      exact List.mem_map_of_mem (by simp [hx])
    rw [Decision.leave, perform, Map.yields_survey (Step.perform_eq h rests _), items_eq]
    simp only [Roll.step, next_eq]
    exact ⟨by cases zs <;> simp, .refl h⟩
  | erase =>
    apply (yields_perform_erase h hx).mono
    rintro - w' ⟨rfl, hd⟩
    exact ⟨by simp, by simpa using hd⟩

/-- A sweep visits the items from where the cursor is, one after the other, and it is over when it
has decided on all of them. -/
theorem yields_sweep (ds : List Decision) (h : w.map.Shows r) (hx : r.items = ys ++ zs)
    (hds : ds.length ≤ zs.length) :
    Yields (walk (Decision.sweep ds) ⟨zs.head?.map (·.node)⟩) w fun as w' =>
      as = Decision.told r.id ds zs ∧
        Map.Disposes w w' { r with items := ys ++ Decision.kept ds zs }
        ((Decision.erased ds zs).flatMap fun x => r.policy.releases x.entry) := by
  induction ds generalizing w r ys zs with
  | nil =>
    have rests : Cursor.Rests ⟨zs.head?.map (·.node)⟩ r := by
      rintro n hn
      obtain ⟨x, hx', rfl⟩ := Option.map_eq_some_iff.mp hn
      exact List.mem_map_of_mem (hx ▸ List.mem_append_right _ (List.mem_of_mem_head? hx'))
    rw [Decision.sweep, List.flatMap_nil, List.nil_append, yields_walk_look h rests, walk]
    refine yields_pure.mpr ⟨?_, ?_⟩
    · cases zs <;> simp [Roll.step, Decision.told]
    · rw [Decision.kept_nil, ← hx, Decision.erased_nil]
      exact .refl h
  | cons d ds ih =>
    cases zs with
    | nil => cases hds
    | cons x zs =>
      rw [Decision.sweep_cons, List.head?_cons, Option.map_some,
        yields_visit h (by simp [hx]), walk, yields_bind]
      apply (yields_perform_leave d h hx).mono
      rintro - w₁ ⟨rfl, hd⟩
      rw [yields_bind]
      apply (ih hd.shows rfl (Nat.le_of_succ_le_succ hds)).mono
      rintro - w₂ ⟨rfl, hd₂⟩
      refine yields_pure.mpr ⟨rfl, ?_⟩
      rw [Decision.kept_cons, Decision.erased_cons, ← List.append_assoc, List.flatMap_append]
      exact hd.trans hd₂

end Revision

theorem Map.yields_sweep {w : Workspace κ ν} {r : Roll κ ν} (h : w.map.Shows r)
    {ds : List Decision} (hds : ds.length ≤ r.items.length) :
    Yields (revise .front (Decision.sweep ds)) w fun a w' =>
      a = .many (Decision.told r.id ds r.items) ∧
        Disposes w w' { r with items := Decision.kept ds r.items }
          ((Decision.erased ds r.items).flatMap fun x => r.policy.releases x.entry) := by
  unfold revise
  rw [yields_bind]
  apply (yields_cursor h .front).mono
  rintro - w₁ ⟨rfl, hr, -⟩
  have hd := hr.disposes h
  simp only [Roll.cursor, Roll.outermost]
  rw [yields_bind]
  have all : r.items = [] ++ r.items := rfl
  apply (Revision.yields_sweep ds hd.shows all hds).mono
  rintro - w₂ ⟨rfl, hd₂⟩
  exact yields_pure.mpr ⟨rfl, hd.trans hd₂⟩

namespace Store

variable [EntrySize κ ν]

/-- In every map that any run leaves, whatever its comparator, a writing cursor that erases the
entry on which it rests releases that entry alone, leaves all others in their slots, with their
stamps and in their order, and then rests on the next one, or on nothing behind the last one. So a
sweep from the front comes to every entry exactly once and in order, whatever it decides about them,
and the map ends with exactly those entries that were not erased. -/
theorem sweep_after (ops : List (Op κ ν)) {k : Nat} {m : Map κ ν}
    (hm : (after ops ∅).map? k = some m) :
    (∀ ys x zs, m.items = ys ++ x :: zs → ∀ clock j, ∃ w,
      Revision.erase.perform ⟨some x.node⟩ ⟨m, clock, j⟩ =
        .ok (.flag true, ⟨zs.head?.map (·.node)⟩) w ∧
      w.map.items = ys ++ zs ∧ w.map.count + 1 = m.count ∧
      w.journal.released.toList = j.released.toList ++ m.policy.releases x.entry ∧
      Cursor.entry? ⟨zs.head?.map (·.node)⟩ w.map = .ok (zs.head?.map (·.entry))) ∧
    ∀ ds : List Decision, ds.length ≤ m.items.length → ∃ j s m',
      (after ops ∅).step (.on k (.revise .front (Decision.sweep ds))) =
        (⟨.ok (.many (Decision.told ⟨k⟩ ds m.items)), j⟩, s) ∧
      j.released.toList =
        (Decision.erased ds m.items).flatMap (fun x => m.policy.releases x.entry) ∧
      s.map? k = some m' ∧ m'.items = Decision.kept ds m.items ∧
      m'.count = (Decision.kept ds m.items).length := by
  obtain ⟨r, hr, hid, -⟩ := sound_after ops k m hm
  rw [hr.items_eq, hr.policy]
  refine ⟨fun ys x zs hx clock j => ?_, fun ds hds => ?_⟩
  · obtain ⟨-, w, he, rfl, hd⟩ :=
      Revision.yields_perform_erase (w := ⟨m, clock, j⟩) hr hx
    have rests : Cursor.Rests ⟨zs.head?.map (·.node)⟩
        ({ r with items := ys ++ zs } : Roll κ ν) := by
      rintro n hn
      obtain ⟨y, hy, rfl⟩ := Option.map_eq_some_iff.mp hn
      exact List.mem_map_of_mem (List.mem_append_right _ (List.mem_of_mem_head? hy))
    refine ⟨w, he, hd.shows.items_eq, ?_, hd.released, ?_⟩
    · rw [hd.shows.count, hr.count, hx]
      simp only [List.length_append, List.length_cons]
      omega
    · rw [hd.shows.entry? rests]
      cases zs with
      | nil => rfl
      | cons y zs =>
        have hy := hd.shows.at?_of_mem (x := y) (by simp)
        simp only [List.head?_cons, Option.map_some, hy]
  · have swept := (Map.yields_sweep (w := ⟨m, (after ops ∅).clock, ∅⟩) hr hds).ends
      (q := fun res w => res = .ok (.many (Decision.told r.id ds r.items)) ∧
        Map.Disposes _ w { r with items := Decision.kept ds r.items }
          ((Decision.erased ds r.items).flatMap fun x => r.policy.releases x.entry))
      fun _ _ ⟨ha, hd⟩ => ⟨congrArg _ ha, hd⟩
    obtain ⟨res, w, ⟨rfl, hd⟩, he⟩ :=
      @step_on κ ν (after ops ∅) k m _ (.revise .front (Decision.sweep ds)) _ hm swept
    refine ⟨w.journal, _, w.map, hid ▸ he, hd.released, ?_, hd.shows.items_eq, hd.shows.count⟩
    rw [map?_setIfInBounds _ (lt_size_of_map? hm), if_pos rfl]

/-- A map with hooks and seven entries. -/
def throng : List (Op Nat Nat) :=
  [.create ((Policy.natural.withTagHook "t").withValueHook "v")
    [(5, 50), (2, 20), (8, 80), (1, 10), (3, 30), (7, 70), (9, 90)]]

/-- The entry of tag 2 has two children, and that of tag 5 is the root when its turn comes. -/
theorem sweep_after_throng : ∃ m, (after throng ∅).map? 0 = some m ∧ m.items =
      [⟨⟨3⟩, 3, ⟨1, 10⟩⟩, ⟨⟨1⟩, 1, ⟨2, 20⟩⟩, ⟨⟨4⟩, 4, ⟨3, 30⟩⟩, ⟨⟨0⟩, 0, ⟨5, 50⟩⟩,
        ⟨⟨5⟩, 5, ⟨7, 70⟩⟩, ⟨⟨2⟩, 2, ⟨8, 80⟩⟩, ⟨⟨6⟩, 6, ⟨9, 90⟩⟩] ∧
    (∃ w, Revision.erase.perform ⟨some ⟨1⟩⟩ ⟨m, 7, ∅⟩ = .ok (.flag true, ⟨some ⟨4⟩⟩) w ∧
      w.journal.released.toList = [.tag "t" 2, .value "v" 20] ∧
      Cursor.entry? ⟨some ⟨4⟩⟩ w.map = .ok (some ⟨3, 30⟩)) ∧
    ∃ s m', ((after throng ∅).step (.on 0 (.revise .front
        (Decision.sweep [.keep, .erase, .keep, .erase])))).2 = s ∧ s.map? 0 = some m' ∧
      m'.items = [⟨⟨3⟩, 3, ⟨1, 10⟩⟩, ⟨⟨4⟩, 4, ⟨3, 30⟩⟩, ⟨⟨5⟩, 5, ⟨7, 70⟩⟩, ⟨⟨2⟩, 2, ⟨8, 80⟩⟩,
        ⟨⟨6⟩, 6, ⟨9, 90⟩⟩] := by
  have there : ((after throng ∅).map? 0).isSome := by decide +kernel
  have listed : ((after throng ∅).map? 0).map Map.items = some
      [⟨⟨3⟩, 3, ⟨1, 10⟩⟩, ⟨⟨1⟩, 1, ⟨2, 20⟩⟩, ⟨⟨4⟩, 4, ⟨3, 30⟩⟩, ⟨⟨0⟩, 0, ⟨5, 50⟩⟩,
        ⟨⟨5⟩, 5, ⟨7, 70⟩⟩, ⟨⟨2⟩, 2, ⟨8, 80⟩⟩, ⟨⟨6⟩, 6, ⟨9, 90⟩⟩] := by decide +kernel
  have hooks : ((after throng ∅).map? 0).map (fun m => (m.policy.tagHook, m.policy.valueHook)) =
      some (some "t", some "v") := by decide +kernel
  obtain ⟨m, hm⟩ := Option.isSome_iff_exists.mp there
  rw [hm] at listed hooks
  have items := Option.some.inj listed
  obtain ⟨tagHook, valueHook⟩ := Prod.mk.inj (Option.some.inj hooks)
  obtain ⟨once, sweeps⟩ := sweep_after throng hm
  obtain ⟨w, he, -, -, hr, hc⟩ := once [⟨⟨3⟩, 3, ⟨1, 10⟩⟩] ⟨⟨1⟩, 1, ⟨2, 20⟩⟩ _ items 7 ∅
  rw [Policy.releases, Policy.tagReleases, Policy.valueReleases, tagHook, valueHook] at hr
  obtain ⟨j, s, m', hs, -, hm', hi, -⟩ :=
    sweeps [.keep, .erase, .keep, .erase] (by rw [items]; decide)
  rw [items] at hi
  exact ⟨m, hm, items, ⟨w, he, hr, hc⟩, s, m', congrArg (·.2) hs, hm', hi⟩

end Store
end OrderedMap
