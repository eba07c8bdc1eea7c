import OrderedMap.Proofs.Store.Revival

/-!
The positions that operations hand out, those in the middle of a walk included. Each was taken at a
node with an entry. When the operation is over the entry is still there, or the walk itself has
erased it later on, and the position is lost already.
-/
namespace OrderedMap

variable {κ ν : Type}

/-- A position is among the answers. -/
inductive Reply.Hands (p : Position) : Reply κ ν → Prop
  | here : Hands p (.position (some p))
  | within {a : Reply κ ν} {as : List (Reply κ ν)} (mem : a ∈ as) (hands : Hands p a) :
      Hands p (.many as)

section Answers

variable {p : Position} {a : Reply κ ν} {as : List (Reply κ ν)}

theorem Reply.hands_position {q : Option Position} :
    Hands p (.position q : Reply κ ν) ↔ q = some p := by
  constructor
  · rintro ⟨⟩
    rfl
  · rintro rfl
    exact .here

theorem Reply.hands_many : Hands p (.many as) ↔ ∃ a ∈ as, Hands p a := by
  constructor
  · rintro ⟨⟩
    exact ⟨_, ‹_›, ‹_›⟩
  · rintro ⟨a, ha, hp⟩
    exact .within ha hp

/-- An iterator hands out no positions. -/
theorem View.not_hands_of_pulls (v : View) (pulls : List Pull) (es : List (Entry κ ν))
    (h : a ∈ v.pulls pulls es) : ¬ a.Hands p := by
  have single (e : Option (Entry κ ν)) : ¬ (v.shown e).Hands p := by
    intro hp
    cases v <;> cases e <;> cases hp
  have several (es : List (Entry κ ν)) : ¬ (v.shownAll es).Hands p := by
    rw [View.shownAll, Reply.hands_many]
    rintro ⟨b, hb, hp⟩
    obtain ⟨e, -, rfl⟩ := List.mem_map.mp hb
    exact single (some e) hp
  refine View.forall_mem_pulls (P := fun a => ¬ a.Hands p) single several ?_ ?_ pulls es a h
  · rintro n ⟨⟩
  · rintro lower upper ⟨⟩

end Answers

namespace Roll

variable {r r' : Roll κ ν} {p : Position}

/-- The position belongs to an item of the roll. -/
def Names (r : Roll κ ν) (p : Position) : Prop := ∃ x ∈ r.items, p = r.position x

/-- The position belonged to an item while one roll became another. -/
def Named (r r' : Roll κ ν) (p : Position) : Prop :=
  ∃ r₁, r.Thins r₁ ∧ r₁.Thins r' ∧ r₁.Names p

theorem names_at? {n : Option NodeId} (h : (r.at? n).map r.position = some p) : r.Names p := by
  obtain ⟨x, hx, rfl⟩ := Option.map_eq_some_iff.mp h
  obtain ⟨n, -, hf⟩ := Option.bind_eq_some_iff.mp hx
  exact ⟨x, List.mem_of_find?_eq_some hf, rfl⟩

mutual

theorem names_of_step (s : Step) (c : Cursor) (h : (r.step s c).1.Hands p) : r.Names p := by
  cases s with
  | move side =>
    rw [step] at h
    split at h <;> cases h
  | available => cases h
  | tag => cases h
  | value => cases h
  | entry => cases h
  | position => exact names_at? (Reply.hands_position.mp h)
  | fork steps =>
    obtain ⟨a, ha, hp⟩ := Reply.hands_many.mp h
    exact names_of_walk steps c ha hp

theorem names_of_walk (steps : List Step) (c : Cursor) {a : Reply κ ν}
    (ha : a ∈ r.walk steps c) (h : a.Hands p) : r.Names p := by
  cases steps with
  | nil =>
    rw [walk] at ha
    cases ha
  | cons s rest =>
    rw [walk] at ha
    rcases List.mem_cons.mp ha with ha | ha
    · exact names_of_step s c (ha ▸ h)
    · exact names_of_walk rest _ ha h

end

theorem names_of_amend (s : Revision ν) (c : Cursor) (h : (r.amend s c).1.Hands p) :
    r.Names p := by
  cases s with
  | look s => exact names_of_step s c h
  | set v =>
    rw [amend] at h
    split at h <;> cases h
  | write v => cases h
  | erase => cases h
  | view steps =>
    obtain ⟨a, ha, hp⟩ := Reply.hands_many.mp h
    exact names_of_walk steps c ha hp

theorem named_of_revise (steps : List (Revision ν)) (c : Cursor)
    {a : Reply κ ν} (ha : a ∈ (r.revise steps c).1) (h : a.Hands p) :
    r.Named (r.revise steps c).2 p := by
  induction steps generalizing r c with
  | nil => cases ha
  | cons s rest ih =>
    rcases List.mem_cons.mp ha with rfl | ha
    · exact ⟨r, .refl r, .revise r (s :: rest) c, names_of_amend s c h⟩
    · obtain ⟨r₁, before, after, hn⟩ := ih _ ha
      exact ⟨r₁, (Thins.amend r s c).trans before, after, hn⟩

/-- What an operation hands out has belonged to an item meanwhile. -/
theorem named_of_perform {seek : κ → Option NodeId} {op : Map.Op κ ν}
    {a : Reply κ ν} (hp : r.perform? seek op = some (.ok a, r')) (h : a.Hands p) :
    r.Named r' p := by
  have still (hn : r.Names p) : r.Named r p := ⟨r, .refl r, .refl r, hn⟩
  cases op <;> simp only [perform?, Option.some.injEq, reduceCtorEq] at hp
  case position t =>
    cases hp
    exact still (names_at? (Reply.hands_position.mp h))
  case iterate v pulls =>
    cases hp
    obtain ⟨b, hb, hp⟩ := Reply.hands_many.mp h
    exact absurd hp (v.not_hands_of_pulls pulls _ hb)
  case walk start steps =>
    split at hp <;> cases hp
    · obtain ⟨b, hb, hp⟩ := Reply.hands_many.mp h
      exact still (names_of_walk steps _ hb hp)
    · cases h
  case revise start steps =>
    split at hp <;> cases hp
    · obtain ⟨b, hb, hp⟩ := Reply.hands_many.mp h
      exact named_of_revise steps _ hb hp
    · cases h
  case eraseOwnPosition q => split at hp <;> cases hp <;> cases h
  case erasePosition q => split at hp <;> cases hp <;> cases h
  all_goals
    cases hp
    cases h

end Roll

namespace Store

variable {s : Store κ ν} {k : Nat} {m m' : Map κ ν} {p : Position} {a : Reply κ ν}

/-- The position is one that can be taken at its node, where there is an entry. -/
def Live (s : Store κ ν) (p : Position) : Prop := ∃ m e,
  s.map? p.map.number = some m ∧ m.positionAt p.node = .ok p ∧ m.arena.entry p.node = .ok e

theorem conclude_eq_ok {α : Type} {reply : α → Reply κ ν} {o : Option (Outcome κ ν α × Store κ ν)}
    (h : (conclude s reply o).1.result = .ok a) : a = .noMap ∨ ∃ x, a = reply x := by
  match o with
  | none =>
    cases h
    exact .inl rfl
  | some (⟨.ok x, j⟩, t) =>
    cases h
    exact .inr ⟨x, rfl⟩
  | some (⟨.error f, j⟩, t) => cases h

/-- An operation on a map hands out positions that belonged to items meanwhile. -/
theorem ends_perform_named {op : Map.Op κ ν} {w : Workspace κ ν} {r : Roll κ ν}
    (h : w.map.Shows r) (hr : r.Stamped w.clock) (p : Position) :
    Ends op.perform w fun res w' => ∀ a, res = .ok a →
      a.Hands p → ∃ r', Map.Leaves w w' r' ∧ r.Named r' p := by
  refine Map.ends_perform_elim h ?_ ?_ ?_ ?_
  · rintro - r' w' hop hl a rfl hp
    exact ⟨r', hl.toLeaves, Roll.named_of_perform hop hp⟩
  · rintro t v rfl
    apply (Map.yields_insert h t v).mono
    rintro new w' - - ⟨⟩ ⟨⟩
  · rintro es rfl
    apply (Map.yields_insertMany_tracks h hr es).mono
    rintro - w' - - ⟨⟩ ⟨⟩
  · rintro rfl
    apply (Map.yields_audit h.lists).mono
    rintro a w' - - ⟨⟩ ⟨⟩

variable [EntrySize κ ν]

/-- A position that was named while one map changed is live or lost. -/
theorem Stamped.live_or_lost (h : s.Stamped) {r r' : Roll κ ν} {op : Map.Op κ ν}
    (before : s.map? k = some m) (hr : m.Shows r) (hid : r.id = ⟨k⟩)
    (now : (s.step (.on k op)).2.map? k = some m') (hr' : m'.Shows r') (hp : r.Named r' p) :
    (s.step (.on k op)).2.Live p ∨ (s.step (.on k op)).2.Lost p := by
  obtain ⟨r₁, ht, ht', x, hx, rfl⟩ := hp
  have hid₁ : r₁.id = ⟨k⟩ := ht.id.trans hid
  obtain ⟨y, hy, hkey⟩ := List.mem_map.mp (ht.keys.subset (List.mem_map_of_mem hx))
  have hn : y.node = x.node := congrArg (·.1) hkey
  have hs : y.stamp = x.stamp := congrArg (·.2.1) hkey
  have old := (Stamped.has_iff before hr).mpr hy
  by_cases there : ∃ e, (s.step (.on k op)).2.Has k ⟨x.node, x.stamp, e⟩
  · obtain ⟨e, he⟩ := there
    have hmem := (Stamped.has_iff now hr').mp he
    obtain ⟨u, hl⟩ := hr'.lists
    refine .inl ⟨m', e, ?_, ?_, hr'.entry hmem⟩
    · rw [Roll.position, hid₁]
      exact now
    · rw [Roll.position, ← ht'.id, ← hr'.id]
      exact hl.positionAt (x := ⟨x.node, x.stamp, e⟩) hmem
  · refine .inr fun j z hz e => ?_
    have hzs : z.stamp = y.stamp := e.trans hs.symm
    rcases (h.step (.on k op)).2.origin j z hz with hc | ⟨z', hz', hzn, hzs'⟩ | ⟨i, hop, -⟩
    · have := h.drawn old
      omega
    · obtain ⟨rfl, rfl⟩ := h.eq hz' old (hzs'.trans hzs)
      have same : z = ⟨x.node, x.stamp, z.entry⟩ := by
        rw [← hn, ← hs, hzn, ← hzs]
      exact there ⟨z.entry, same ▸ hz⟩
    · cases hop

/-- A position that any operation hands out, also in the middle of a walk, is live when the
operation is over, or lost by then. -/
theorem Stamped.handed_out (h : s.Stamped) {op : Op κ ν} (ha : (s.step op).1.result = .ok a)
    (hp : a.Hands p) : p.stamp < (s.step op).2.clock ∧
      ((s.step op).2.Live p ∨ (s.step op).2.Lost p) := by
  have hclock := (h.step op).2.clock
  cases op with
  | create policy entries =>
    have number : ∃ res : Except Fault Unit, (s.step (.create policy entries)).1.result =
        res.map fun _ => .number s.maps.size := ⟨_, rfl⟩
    obtain ⟨res, he⟩ := number
    rw [he] at ha
    cases res <;> cases ha
    cases hp
  | on k op =>
    cases hm : s.map? k with
    | none =>
      rw [step_on_none hm] at ha
      cases ha
      cases hp
    | some m =>
      obtain ⟨r, hr, hid, hs⟩ := h.shows k m hm
      obtain ⟨res, w, hres, he⟩ :=
        step_on hm (ends_perform_named (w := ⟨m, s.clock, ∅⟩) hr hs p)
      have hout : res = .ok a := by
        rw [he] at ha
        exact ha
      obtain ⟨r', hl, hn⟩ := hres a hout hp
      have now : (s.step (.on k op)).2.map? k = some w.map := by
        rw [he, map?_setIfInBounds _ (lt_size_of_map? hm), if_pos rfl]
      refine ⟨?_, h.live_or_lost hm hr hid now hl.shows hn⟩
      obtain ⟨r₁, ht, -, x, hx, rfl⟩ := hn
      exact Nat.lt_of_lt_of_le ((hs.thins ht (Nat.le_refl _)).drawn x hx) hclock
  | transfer j k =>
    rw [Store.step] at ha
    rcases conclude_eq_ok ha with rfl | ⟨x, rfl⟩ <;> cases hp
  | discard k =>
    rw [Store.step] at ha
    rcases conclude_eq_ok ha with rfl | ⟨x, rfl⟩ <;> cases hp
  | consume k pulls =>
    rw [Store.step] at ha
    rcases conclude_eq_ok ha with rfl | ⟨es, rfl⟩
    · cases hp
    · rw [Harvest.answers_eq, Reply.hands_many] at hp
      obtain ⟨b, hb, hp⟩ := hp
      exact absurd hp (View.not_hands_of_pulls _ pulls _ hb)

/-- After every run, a position that an operation hands out, from whatever moment of a walk, can be
taken again when the operation is over, or it is refused at every moment of every further run. -/
theorem handed_out_live_or_refused (before later : List (Op κ ν)) {op : Op κ ν}
    (ha : ((after before ∅).step op).1.result = .ok a) (hp : a.Hands p) :
    ((after before ∅).step op).2.Live p ∨
      ((after before ∅).step op).2.RefusedThrough later p := by
  have hs : (after before ∅ : Store κ ν).Stamped := stamped_empty.after before
  obtain ⟨hc, hlive | hlost⟩ := hs.handed_out ha hp
  · exact .inl hlive
  · exact .inr ((hs.step op).1.refusedThrough_of_lost hc hlost later)

end Store
end OrderedMap
