import OrderedMap.Proofs.Map.Storing
import Mathlib.Algebra.BigOperators.Group.List.Basic
import Mathlib.Algebra.Group.Prod
import Mathlib.Algebra.Order.Group.Multiset
import Mathlib.Tactic.Abel

/-!
Where tags and values are. They are counted, with multiplicity, in the slots of a map and in what
the hooks receive, and for an operation as what the caller gives, gets back, or replaces. Every
operation on a map with both hooks balances.
-/
namespace OrderedMap

variable {κ ν : Type}

/-- Tags and values, counted. -/
abbrev Goods (κ ν : Type) := Multiset κ × Multiset ν

namespace Goods

def tag (t : κ) : Goods κ ν := ({t}, 0)

def value (v : ν) : Goods κ ν := (0, {v})

def entry (e : Entry κ ν) : Goods κ ν := tag e.tag + value e.value

end Goods

namespace Released

def goods : Released κ ν → Goods κ ν
  | .tag _ t => .tag t
  | .value _ v => .value v

/-- What the hooks receive in total. -/
def total (rs : List (Released κ ν)) : Goods κ ν := (rs.map goods).sum

@[simp] theorem total_nil : total ([] : List (Released κ ν)) = 0 := rfl

@[simp] theorem total_append (rs rs' : List (Released κ ν)) :
    total (rs ++ rs') = total rs + total rs' := by
  rw [total, List.map_append, List.sum_append]
  rfl

end Released

namespace Policy

variable {p : Policy κ}

/-- Both hooks are set. -/
def Hooked (p : Policy κ) : Prop := p.tagHook.isSome ∧ p.valueHook.isSome

theorem total_tagReleases (h : p.Hooked) (t : κ) :
    Released.total (p.tagReleases t : List (Released κ ν)) = .tag t := by
  obtain ⟨hook, hp⟩ := Option.isSome_iff_exists.mp h.1
  simp [tagReleases, hp, Released.total, Released.goods]

theorem total_valueReleases (h : p.Hooked) (v : ν) :
    Released.total (p.valueReleases v) = .value v := by
  obtain ⟨hook, hp⟩ := Option.isSome_iff_exists.mp h.2
  simp [valueReleases, hp, Released.total, Released.goods]

theorem total_releases (h : p.Hooked) (e : Entry κ ν) :
    Released.total (p.releases e) = .entry e := by
  rw [releases, Released.total_append, total_tagReleases h, total_valueReleases h]
  rfl

theorem total_flatMap_releases (h : p.Hooked) (es : List (Entry κ ν)) :
    Released.total (es.flatMap p.releases) = (es.map Goods.entry).sum := by
  induction es with
  | nil => rfl
  | cons e es ih =>
    rw [List.flatMap_cons, Released.total_append, total_releases h, ih, List.map_cons,
      List.sum_cons]

end Policy

namespace Roll

variable {r r' : Roll κ ν} {n : Option NodeId} {x : Item κ ν}

/-- The tags and values on a roll. -/
def stock (r : Roll κ ν) : Goods κ ν := (r.entries.map Goods.entry).sum

theorem stock_split {ys zs : List (Item κ ν)} (h : r.items = ys ++ x :: zs) :
    r.stock = .entry x.entry + stock { r with items := ys ++ zs } := by
  simp only [stock, entries, h, List.map_append, List.map_cons, List.sum_append, List.sum_cons]
  abel

theorem exists_of_at? (h : r.at? n = some x) :
    ∃ ys zs, r.items = ys ++ x :: zs ∧ n = some x.node := by
  obtain ⟨i, rfl, hf⟩ := Option.bind_eq_some_iff.mp h
  obtain ⟨ys, zs, e⟩ := List.append_of_mem (List.mem_of_find?_eq_some hf)
  have hn : x.node = i := by simpa using List.find?_some hf
  exact ⟨ys, zs, e, congrArg some hn.symm⟩

theorem ne_of_at?_none (h : r.at? n = none) : ∀ y ∈ r.items, n ≠ some y.node := by
  rintro y hy rfl
  simpa using List.find?_eq_none.mp h y hy

/-- Leaving out an item takes its entry out of the stock. -/
theorem stock_erase (h : r.nodes.Nodup) (n : Option NodeId) :
    (r.erase n).stock + (r.at? n).elim 0 (Goods.entry ·.entry) = r.stock := by
  cases hx : r.at? n with
  | none =>
    have away : r.erase n = r := by
      cases n with
      | none => rfl
      | some n =>
        rw [erase, Item.without, List.filter_eq_self.mpr]
        exact fun y hy => decide_eq_true fun e => ne_of_at?_none hx y hy (congrArg some e.symm)
    rw [away]
    exact add_zero _
  | some x =>
    obtain ⟨ys, zs, split, rfl⟩ := exists_of_at? hx
    rw [stock_split split, erase, split, Item.without_split (split ▸ h)]
    exact add_comm ..

/-- Writing over a value takes the old one out of the stock and puts the new one in. -/
theorem stock_rewrite (h : r.nodes.Nodup) (n : Option NodeId) (v : ν) :
    (r.rewrite n fun e => ⟨e.tag, v⟩).stock + (r.at? n).elim 0 (Goods.value ·.entry.value) =
      (r.at? n).elim 0 (fun _ => Goods.value v) + r.stock := by
  cases hx : r.at? n with
  | none =>
    have away : (r.rewrite n fun e => ⟨e.tag, v⟩) = r := by
      cases n with
      | none => rfl
      | some n =>
        have same : Item.rewriteAt n (fun e => ⟨e.tag, v⟩) r.items = r.items := by
          refine (List.map_congr_left fun y hy => ?_).trans (List.map_id _)
          exact if_neg fun e => ne_of_at?_none hx y hy (congrArg some e.symm)
        rw [rewrite, same]
    rw [away]
    exact add_comm ..
  | some x =>
    obtain ⟨ys, zs, split, rfl⟩ := exists_of_at? hx
    rw [stock_split split, rewrite, split, Item.rewriteAt_split _ (split ▸ h), stock_split rfl]
    simp only [Goods.entry, Option.elim_some]
    abel

theorem Stores.policy {t : κ} {v : ν} {low high : Nat} (h : r.Stores t v low high n r') :
    r'.policy = r.policy := by cases h <;> rfl

/-- Storing an entry puts it into the stock, and takes out the one written over. -/
theorem Stores.stock {t : κ} {v : ν} {low high : Nat} (h : r.Stores t v low high n r')
    (hn : r.nodes.Nodup) :
    .entry ⟨t, v⟩ + r.stock = r'.stock + (r.at? n).elim 0 (Goods.entry ·.entry) := by
  cases h with
  | @written ys zs x split equal =>
    have hx : r.at? (some x.node) = some x := Item.at?_of_mem hn (by simp [split])
    have after := stock_split (r := { r with items := ys ++ { x with entry := ⟨t, v⟩ } :: zs }) rfl
    rw [hx, stock_split split, after]
    simp only [Option.elim_some]
    abel
  | @added ys zs x split gap entry node old drawn =>
    have after := stock_split (r := { r with items := ys ++ x :: zs }) rfl
    rw [after, entry, ← split]
    exact (add_zero _).symm

end Roll

/-! What the caller has to do with it. -/

/-- What the caller gives with a step of a writing cursor: a value that is stored. -/
def Revision.given : Revision ν → Reply κ ν → Goods κ ν
  | .set v, .done => .value v
  | .write v, .value (some _) => .value v
  | _, _ => 0

/-- What the caller replaces with a step of a writing cursor: the value written over. -/
def Revision.replaced : Revision ν → Reply κ ν → Goods κ ν
  | .write _, .value (some old) => .value old
  | _, _ => 0

namespace Map

/-- What the caller gives with an operation: entries to be stored, and values to be written. -/
def Op.given : Op κ ν → Except Fault (Reply κ ν) → Goods κ ν
  | .insert t v, .ok (.flag _) => .entry ⟨t, v⟩
  | .insertMany entries, .ok .done => (entries.map fun e => Goods.entry ⟨e.1, e.2⟩).sum
  | .overwrite _ v, .ok (.value (some _)) => .value v
  | .revise _ steps, .ok (.many as) => (List.zipWith Revision.given steps as).sum
  | _, _ => 0

/-- What the caller gets back from an operation for good. -/
def Op.returned : Op κ ν → Except Fault (Reply κ ν) → Goods κ ν
  | .removeValue _, .ok (.value (some v)) => .value v
  | .remove _, .ok (.entry (some e)) => .entry e
  | _, _ => 0

/-- What the caller replaces with an operation: values written over, which no hook receives. -/
def Op.replaced : Op κ ν → Except Fault (Reply κ ν) → Goods κ ν
  | .overwrite _ _, .ok (.value (some old)) => .value old
  | .revise _ steps, .ok (.many as) => (List.zipWith Revision.replaced steps as).sum
  | _, _ => 0

/-- The entries in the slots of a map, in the order of the slots. -/
def slotEntries (m : Map κ ν) : List (Entry κ ν) :=
  (List.range m.arena.slots.size).filterMap fun i => m.entryAt? ⟨i⟩

/-- The tags and values in the slots of a map. -/
def stored (m : Map κ ν) : Goods κ ν := (m.slotEntries.map Goods.entry).sum

namespace Shows

variable {m : Map κ ν} {r : Roll κ ν}

theorem slotEntries_perm (h : m.Shows r) : m.slotEntries.Perm r.entries := by
  obtain ⟨t, hl⟩ := h.lists
  have forest := hl.bears.forest
  have vacant : m.arena.free.filterMap (fun i => m.entryAt? ⟨i⟩) = [] := by
    refine List.filterMap_eq_nil_iff.mpr fun i hi => ?_
    rw [entryAt?, ((forest.mem_free i).mp hi).2]
    rfl
  have occupied : (t.ids.map NodeId.index).filterMap (fun i => m.entryAt? ⟨i⟩) = r.entries := by
    rw [Tree.ids, hl.cells, List.map_map, List.map_map, List.filterMap_map, Roll.entries,
      ← List.filterMap_eq_map]
    exact List.filterMap_congr fun x hx => hl.entryAt? hx
  have perm := forest.slots_perm.symm.filterMap fun i => m.entryAt? ⟨i⟩
  rw [List.flatMap_singleton, List.filterMap_append, vacant, occupied, List.append_nil] at perm
  exact perm

theorem stored (h : m.Shows r) : m.stored = r.stock :=
  (h.slotEntries_perm.map _).sum_eq

theorem upwardEntries_perm (h : m.Shows r) : m.upwardEntries.Perm r.entries := by
  obtain ⟨t, hl⟩ := h.lists
  exact hl.upwardEntries_perm

theorem total_clearing (h : m.Shows r) (hh : m.policy.Hooked) :
    Released.total (m.upwardEntries.flatMap m.policy.releases) = r.stock := by
  rw [Policy.total_flatMap_releases hh]
  exact (h.upwardEntries_perm.map _).sum_eq

theorem total_releasesAt (h : m.Shows r) (hh : m.policy.Hooked) (n : Option NodeId) :
    Released.total (m.releasesAt n) = (r.at? n).elim 0 (Goods.entry ·.entry) := by
  rw [releasesAt, h.bind_entryAt?]
  cases r.at? n with
  | none => rfl
  | some x => simpa using Policy.total_releases hh x.entry

theorem total_tagReleasesAt (h : m.Shows r) (hh : m.policy.Hooked) (n : Option NodeId) :
    Released.total (m.tagReleasesAt n) = (r.at? n).elim 0 (Goods.tag ·.entry.tag) := by
  rw [tagReleasesAt, h.bind_entryAt?]
  cases r.at? n with
  | none => rfl
  | some x => simpa using Policy.total_tagReleases hh x.entry.tag

theorem total_valueReleasesAt (h : m.Shows r) (hh : m.policy.Hooked) (n : Option NodeId) :
    Released.total (m.valueReleasesAt n) = (r.at? n).elim 0 (Goods.value ·.entry.value) := by
  rw [valueReleasesAt, h.bind_entryAt?]
  cases r.at? n with
  | none => rfl
  | some x => simpa using Policy.total_valueReleases hh x.entry.value

end Shows

/-- An action leaves the map as another roll, and the hooks receive what is told. If there are both
hooks, what was there or is given is there, received by a hook, or with the caller. -/
structure Conserves (w w' : Workspace κ ν) (r r' : Roll κ ν) (rs : List (Released κ ν))
    (given out : Goods κ ν) : Prop where
  disposes : Disposes w w' r' rs
  policy : r'.policy = r.policy
  balance : r.policy.Hooked → given + r.stock = r'.stock + Released.total rs + out

namespace Conserves

variable {w w' w'' : Workspace κ ν} {r r' r'' : Roll κ ν} {rs rs' : List (Released κ ν)}
  {given given' out out' : Goods κ ν}

theorem trans (h : Conserves w w' r r' rs given out)
    (h' : Conserves w' w'' r' r'' rs' given' out') :
    Conserves w w'' r r'' (rs ++ rs') (given + given') (out + out') := by
  refine ⟨h.disposes.trans h'.disposes, h'.policy.trans h.policy, fun hh => ?_⟩
  have first := h.balance hh
  have second := h'.balance (h.policy ▸ hh)
  calc given + given' + r.stock = given' + (given + r.stock) := by abel
    _ = given' + r'.stock + Released.total rs + out := by rw [first]; abel
    _ = r''.stock + Released.total (rs ++ rs') + (out + out') := by
      rw [second, Released.total_append]
      abel

end Conserves
end Map

section Revisions

variable {w : Workspace κ ν} {r : Roll κ ν} {c : Cursor}

theorem Cursor.Rests.isSome (hc : c.Rests r) (h : r.nodes.Nodup) :
    c.rest.isSome = (r.at? c.rest).isSome := by
  cases hn : c.rest with
  | none => rfl
  | some n =>
    obtain ⟨x, hx, rfl⟩ := Roll.mem_nodes.mp (hc n hn)
    rw [Roll.at?, Option.bind_some, Item.at?_of_mem h hx]
    rfl

namespace Revision

/-- A step of a writing cursor balances. -/
theorem amend_balance (h : w.map.Shows r) (hc : c.Rests r) (hh : w.map.policy.Hooked)
    (s : Revision ν) : s.given (r.amend s c).1 + r.stock =
      (r.amend s c).2.2.stock + Released.total (s.releases c w.map) +
        s.replaced (r.amend s c).1 := by
  cases s with
  | look s => simp [given, replaced, releases, Roll.amend]
  | set v =>
    rw [releases, h.total_valueReleasesAt hh, Roll.amend, Roll.stock_rewrite h.nodup,
      hc.isSome h.nodup]
    cases r.at? c.rest <;> simp [given, replaced]
  | write v =>
    have written := Roll.stock_rewrite h.nodup c.rest v
    cases hx : r.at? c.rest with
    | none =>
      rw [hx] at written
      simpa [given, replaced, releases, Roll.amend, hx] using written.symm
    | some x =>
      rw [hx] at written
      simpa [given, replaced, releases, Roll.amend, hx] using written.symm
  | erase =>
    rw [releases, h.total_releasesAt hh, Roll.amend, Roll.stock_erase h.nodup]
    simp [given, replaced]
  | view steps => simp [given, replaced, releases, Roll.amend]

theorem yields_walk_conserves (h : w.map.Shows r) (hc : c.Rests r) (steps : List (Revision ν)) :
    Yields (walk steps c) w fun as w' => ∃ r', Map.Conserves w w' r r' (walkReleases steps c w)
      (List.zipWith given steps as).sum (List.zipWith replaced steps as).sum := by
  induction steps generalizing w r c with
  | nil => exact yields_pure.mpr ⟨r, .refl h, rfl, fun _ => by simp [walkReleases]⟩
  | cons s rest ih =>
    obtain ⟨-, w₁, he, rfl, hl⟩ := s.yields_perform h hc
    have releases_eq : walkReleases (s :: rest) c w =
        s.releases c w.map ++ walkReleases rest (r.amend s c).2.1 w₁ := by
      simp only [walkReleases, he]
    rw [walk, yields_bind, yields_of_eq he, releases_eq]
    simp only
    rw [yields_bind]
    have first : Map.Conserves w w₁ r (r.amend s c).2.2 (s.releases c w.map)
        (s.given (r.amend s c).1) (s.replaced (r.amend s c).1) :=
      ⟨hl, (Roll.Thins.amend r s c).policy, fun hh => s.amend_balance h hc (h.policy ▸ hh)⟩
    apply (ih hl.shows (s.rests hc h.nodup)).mono
    rintro as w₂ ⟨r₂, hrest⟩
    exact yields_pure.mpr ⟨r₂, first.trans hrest⟩

end Revision
end Revisions

namespace Map

variable {w : Workspace κ ν} {r r' : Roll κ ν}

theorem yields_insert_conserves (h : w.map.Shows r) (t : κ) (v : ν) :
    Yields (insert t v) w fun _ w' => ∃ r', Conserves w w' r r'
      (w.map.releasesAt (w.map.found? t)) (.entry ⟨t, v⟩) 0 := by
  apply (yields_insert h t v).mono
  rintro - w' ⟨-, r', hst, hd⟩
  refine ⟨r', hd, hst.policy, fun hh => ?_⟩
  rw [h.total_releasesAt (h.policy ▸ hh), hst.stock h.nodup, add_zero]

theorem yields_insertMany_conserves (h : w.map.Shows r) (es : List (κ × ν)) :
    Yields (insertMany es) w fun _ w' => ∃ r', Conserves w w' r r' (insertManyReleases es w)
      (es.map fun e => Goods.entry ⟨e.1, e.2⟩).sum 0 := by
  induction es generalizing w r with
  | nil => exact yields_pure.mpr ⟨r, .refl h, rfl, fun _ => by simp [insertManyReleases]⟩
  | cons e rest ih =>
    obtain ⟨t, v⟩ := e
    obtain ⟨b, w₁, he, r₁, hfirst⟩ := yields_insert_conserves h t v
    have releases_eq : insertManyReleases ((t, v) :: rest) w =
        w.map.releasesAt (w.map.found? t) ++ insertManyReleases rest w₁ := by
      simp only [insertManyReleases, he]
    rw [insertMany, yields_bind, yields_of_eq he, releases_eq]
    apply (ih hfirst.disposes.shows).mono
    rintro - w₂ ⟨r₂, hrest⟩
    have both := hfirst.trans hrest
    rw [add_zero] at both
    exact ⟨r₂, both⟩

/-- An operation that stores no new entries, and is no revision, balances. -/
theorem perform_balance {op : Op κ ν} {out : Except Fault (Reply κ ν)} (h : w.map.Shows r)
    (hh : w.map.policy.Hooked) (hop : ∀ start steps, op ≠ .revise start steps)
    (hp : r.perform? w.map.found? op = some (out, r')) :
    op.given out + r.stock =
      r'.stock + Released.total (op.releases w) + (op.returned out + op.replaced out) := by
  have reading (hr : r = r') : 0 + r.stock = r'.stock + 0 + (0 + 0) := by simp [hr]
  have erasing {p : Position} {x : Item κ ν} (hx : r.resolve p = .ok x)
      (hr : r.erase (some x.node) = r') : 0 + r.stock = r'.stock +
        (r.at? (some x.node)).elim 0 (Goods.entry ·.entry) + (0 + 0) := by
    rw [← hr, Roll.stock_erase h.nodup]
    simp
  cases op <;> simp only [Roll.perform?, Option.some.injEq, reduceCtorEq] at hp
  case revise start steps => exact absurd rfl (hop start steps)
  case overwrite t v =>
    cases hp
    have written := Roll.stock_rewrite h.nodup (w.map.found? t) v
    cases hx : r.at? (w.map.found? t) with
    | none =>
      rw [hx] at written
      simpa [Op.given, Op.releases, Op.returned, Op.replaced, hx] using written.symm
    | some x =>
      rw [hx] at written
      simpa [Op.given, Op.releases, Op.returned, Op.replaced, hx] using written.symm
  case erase t =>
    cases hp
    rw [Op.releases, h.total_releasesAt hh, Roll.stock_erase h.nodup]
    simp [Op.given, Op.returned, Op.replaced]
  case removeValue t =>
    cases hp
    have erased := Roll.stock_erase h.nodup (w.map.found? t)
    rw [Op.releases, h.total_tagReleasesAt hh, ← erased]
    cases hx : r.at? (w.map.found? t) with
    | none => simp [Op.given, Op.returned, Op.replaced]
    | some x => simp [Op.given, Op.returned, Op.replaced, Goods.entry, add_assoc]
  case remove t =>
    cases hp
    have erased := Roll.stock_erase h.nodup (w.map.found? t)
    rw [Op.releases, ← erased]
    cases hx : r.at? (w.map.found? t) with
    | none => simp [Op.given, Op.returned, Op.replaced]
    | some x => simp [Op.given, Op.returned, Op.replaced]
  case eraseOwnPosition p =>
    rw [Op.releases, h.total_releasesAt hh, h.nodeAt]
    cases hr : r.resolve p with
    | ok x =>
      rw [hr] at hp
      cases hp
      exact erasing hr rfl
    | error e =>
      rw [hr] at hp
      cases e <;> cases hp <;> exact reading rfl
  case erasePosition p =>
    rw [Op.releases, h.total_releasesAt hh, h.nodeAt]
    cases hr : r.resolve p with
    | ok x =>
      rw [hr] at hp
      cases hp
      exact erasing hr rfl
    | error e =>
      rw [hr] at hp
      cases hp
      exact reading rfl
  case clear =>
    cases hp
    rw [Op.releases, h.total_clearing hh]
    simp [Op.given, Op.returned, Op.replaced, Roll.stock, Roll.entries, Roll.empty]
  case walk start steps => split at hp <;> cases hp <;> exact reading rfl
  all_goals
    cases hp
    exact reading rfl

theorem yields_revise_conserves (h : w.map.Shows r) (start : Start κ) (steps : List (Revision ν)) :
    Yields (revise start steps) w fun a w' => ∃ r', Conserves w w' r r'
      ((Op.revise start steps).releases w) ((Op.revise start steps).given (.ok a))
      ((Op.revise start steps).returned (.ok a) + (Op.revise start steps).replaced (.ok a)) := by
  obtain ⟨res, w₁, he, rfl, hread, hc⟩ := yields_cursor h start
  have hd := hread.disposes h
  unfold revise
  rw [yields_bind, yields_of_eq he]
  cases hs : r.cursor w.map.found? start with
  | error e =>
    rw [hs] at he
    have releases_eq : (Op.revise start steps).releases w = [] := by simp only [Op.releases, he]
    rw [releases_eq]
    exact yields_pure.mpr ⟨r, hd, rfl, fun _ => by simp [Op.given, Op.returned, Op.replaced]⟩
  | ok c =>
    rw [hs] at he
    have releases_eq : (Op.revise start steps).releases w = Revision.walkReleases steps c w₁ := by
      simp only [Op.releases, he]
    rw [releases_eq]
    simp only
    rw [yields_bind]
    apply (Revision.yields_walk_conserves hd.shows (hc c hs) steps).mono
    rintro as w₂ ⟨r₂, hw⟩
    refine yields_pure.mpr ⟨r₂, hd.trans hw.disposes, hw.policy, fun hh => ?_⟩
    simpa [Op.given, Op.returned, Op.replaced] using hw.balance hh

/-- Every operation on a map balances. -/
theorem ends_perform_conserves (h : w.map.Shows r) (op : Op κ ν) :
    Ends op.perform w fun res w' => ∃ r', Conserves w w' r r' (op.releases w) (op.given res)
      (op.returned res + op.replaced res) := by
  by_cases hop : ∃ start steps, op = .revise start steps
  · obtain ⟨start, steps, rfl⟩ := hop
    exact (yields_revise_conserves h start steps).ends fun _ _ hc => hc
  have hop' : ∀ start steps, op ≠ .revise start steps := fun a b e => hop ⟨a, b, e⟩
  refine ends_perform_elim h ?_ ?_ ?_ ?_
  · intro out r' w' hp hd
    refine ⟨r', hd, (Roll.Thins.perform hp).policy, fun hh => ?_⟩
    exact perform_balance h (h.policy ▸ hh) hop' hp
  · rintro t v rfl
    exact (yields_insert_conserves h t v).mono fun _ _ hc => hc
  · rintro es rfl
    exact (yields_insertMany_conserves h es).mono fun _ _ hc => hc
  · rintro rfl
    apply (yields_audit h.lists).mono
    rintro a w' ⟨hread, -⟩
    refine ⟨r, hread.disposes h, rfl, fun _ => ?_⟩
    simp [Op.given, Op.releases, Op.returned, Op.replaced]

end Map
end OrderedMap
