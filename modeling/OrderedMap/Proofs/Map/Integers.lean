import OrderedMap.Proofs.Map.Ordered

/-!
Maps of integers in their natural order, as far as their entries tell: an entry under the least key
is stored before all others, every entry is found, and the first one is taken out from before the
others.
-/
namespace OrderedMap
namespace Map

variable {m : Map Int Int} {w : Workspace Int Int} {e : Entry Int Int} {es : List (Entry Int Int)}

/-- The map holds these entries, in the order of the integers. -/
structure Carries (m : Map Int Int) (es : List (Entry Int Int)) : Prop where
  policy : m.policy = .natural
  increasing : es.Pairwise fun d e => d.tag < e.tag
  shows : ∃ r, m.Shows r ∧ r.entries = es

theorem carries_fresh (id : MapId) : (fresh id .natural : Map Int Int).Carries [] :=
  ⟨rfl, .nil, ⟨id, .natural, []⟩, ⟨rfl, rfl, lists_fresh id .natural⟩, rfl⟩

namespace Carries

theorem exists_roll (h : m.Carries es) : ∃ r, m.Shows r ∧ r.Preordered ∧ r.entries = es := by
  obtain ⟨r, hr, he⟩ := h.shows
  have order_eq : r.order = fun a b : Int => Ord.compare a b := by
    rw [Roll.order, ← hr.policy, h.policy]
    rfl
  refine ⟨r, hr, ⟨?_, ?_⟩, he⟩
  · rw [order_eq]
    infer_instance
  · have increasing := h.increasing
    rw [← he, Roll.entries, List.pairwise_map] at increasing
    refine increasing.imp fun {x y} hxy => ?_
    rw [order_eq]
    exact Int.compare_eq_lt.mpr hxy

theorem count (h : m.Carries es) : m.count = es.length := by
  obtain ⟨r, hr, rfl⟩ := h.shows
  rw [hr.count, Roll.entries, List.length_map]

theorem entries_eq (h : m.Carries es) : m.entries = .ok es := by
  obtain ⟨r, hr, rfl⟩ := h.shows
  obtain ⟨t, ht⟩ := hr.lists
  exact ht.entries_eq

end Carries

theorem yields_get_carried (h : w.map.Carries es) (he : e ∈ es) :
    Yields (get? e.tag) w fun v w' => v = some e.value ∧ w'.map = w.map := by
  obtain ⟨r, hr, sorted, rfl⟩ := h.exists_roll
  obtain ⟨x, hx, rfl⟩ := List.mem_map.mp he
  unfold get?
  rw [yields_bind]
  apply (yields_lookup hr x.entry.tag).mono
  rintro - w' ⟨rfl, reads⟩
  rw [hr.found?_item sorted hx, hr.at?_of_mem hx]
  exact yields_pure.mpr ⟨rfl, reads.map⟩

/-- Under a key less than all others an entry is stored before all others. -/
theorem yields_insert_least {key value : Int} (h : w.map.Carries es) (hk : ∀ e ∈ es, key < e.tag) :
    Yields (insert key value) w fun _ w' => w'.map.Carries (⟨key, value⟩ :: es) := by
  obtain ⟨r, hr, -, rfl⟩ := h.exists_roll
  have compare_eq : w.map.compare = fun a b : Int => Ord.compare a b := by
    rw [Map.compare, h.policy]
    rfl
  have less (x) (hx : x ∈ r.items) : w.map.compare key x.entry.tag = .lt := by
    rw [compare_eq]
    exact Int.compare_eq_lt.mpr (hk x.entry (List.mem_map_of_mem hx))
  have missing : w.map.found? key = none := by
    by_contra hf
    obtain ⟨n, hn⟩ := Option.ne_none_iff_exists'.mp hf
    obtain ⟨x, hx, -, equal⟩ := hr.of_found hn
    rw [← hr.compare, less x hx] at equal
    cases equal
  apply (yields_insert_new (v := value) hr.lists missing).mono
  rintro - w' ⟨-, ys, zs, split, gap, -, becomes⟩
  -- nothing comes before the gap, for the key would have to be greater
  obtain rfl : ys = [] := by
    by_contra hy
    obtain ⟨us, u, rfl⟩ := (List.eq_nil_or_concat' ys).resolve_left hy
    have greater := gap.1 u (by simp)
    rw [less u (by simp [split])] at greater
    cases greater
  refine ⟨becomes.policy.trans h.policy, List.pairwise_cons.mpr ⟨hk, h.increasing⟩,
    ⟨w'.map.id, w'.map.policy, _⟩, ⟨rfl, rfl, becomes.lists⟩, ?_⟩
  rw [Roll.entries, Roll.entries, split]
  rfl

/-- The first entry is taken out and leaves the others. -/
theorem yields_removeValue_first (h : w.map.Carries (e :: es)) :
    Yields (removeValue? e.tag) w fun v w' => v = some e.value ∧ w'.map.Carries es := by
  obtain ⟨r, hr, sorted, entries⟩ := h.exists_roll
  obtain ⟨x, xs, split, rfl, rfl⟩ := List.map_eq_cons_iff.mp entries
  have hx : x ∈ r.items := by
    rw [split]
    exact List.mem_cons_self ..
  have left : r.erase (some x.node) = { r with items := xs } := by
    have distinct := hr.nodup
    rw [Roll.nodes, split] at distinct
    have rest : Item.without x.node ([] ++ x :: xs) = [] ++ xs := Item.without_split distinct
    rw [Roll.erase, split]
    exact congrArg (Roll.mk r.id r.policy) rest
  apply (yields_removeValue? hr x.entry.tag).mono
  rintro - w' ⟨rfl, disposes⟩
  rw [hr.found?_item sorted hx, left] at disposes
  rw [hr.found?_item sorted hx, hr.at?_of_mem hx]
  exact ⟨rfl, disposes.shows.policy.trans (hr.policy.symm.trans h.policy), h.increasing.tail,
    _, disposes.shows, rfl⟩

/-- Entries are taken out one after the other, the first one first, until none is left. -/
theorem yields_removeValues (h : w.map.Carries es) :
    Yields ((es.map (·.tag)).mapM removeValue?) w fun vs w' =>
      vs = es.map (fun e => some e.value) ∧ w'.map.Carries [] := by
  induction es generalizing w with
  | nil => exact yields_pure.mpr ⟨rfl, h⟩
  | cons e es ih =>
    rw [List.map_cons, List.mapM_cons, yields_bind]
    apply (yields_removeValue_first h).mono
    rintro - w₁ ⟨rfl, rest⟩
    rw [yields_bind]
    apply (ih rest).mono
    rintro - w' ⟨rfl, none_left⟩
    exact yields_pure.mpr ⟨rfl, none_left⟩

/-- A map without entries that is well formed and passes its check. -/
structure Blank (w : Workspace Int Int) : Prop where
  count : w.map.count = 0
  items : w.map.items = []
  wellFormed : w.map.WellFormed
  audit : ∃ height w', Map.audit w = .ok (.ok height) w'

theorem Carries.blank (h : w.map.Carries []) : Blank w := by
  obtain ⟨r, hr, sorted, entries⟩ := h.exists_roll
  have no_items : r.items = [] := List.map_eq_nil_iff.mp entries
  obtain ⟨a, w', he, -, -, passes⟩ := yields_audit_sorted hr fun _ => sorted.increasing
  obtain ⟨height, rfl⟩ := passes (hr.compare ▸ sorted.order)
  exact ⟨h.count, by rw [hr.items_eq, no_items], hr.wellFormed, height, w', he⟩

end Map
end OrderedMap
