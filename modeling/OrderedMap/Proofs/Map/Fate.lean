import OrderedMap.Proofs.Map.Storing

/-!
The fate of an entry. An operation on a map either removes the entry of a node, or it leaves an
entry there, which may be another one than before. Which nodes are meant the operation tells by its
own lookups. Items keep their nodes and stamps, and what is new has a stamp drawn for it.
-/
namespace OrderedMap

variable {κ ν : Type}

/-- What becomes of the entry at a node when a writing cursor takes a step. -/
def Revision.fate (s : Revision ν) (c : Cursor) (n : NodeId) (e : Entry κ ν) :
    Option (Entry κ ν) :=
  if c.rest = some n then
    match s with
    | .set v | .write v => some ⟨e.tag, v⟩
    | .erase => none
    | .look _ | .view _ => some e
  else
    some e

def Revision.walkFate : List (Revision ν) → Cursor → Workspace κ ν → NodeId → Entry κ ν →
    Option (Entry κ ν)
  | [], _, _, _, e => some e
  | s :: rest, c, w, n, e => (s.fate c n e).bind fun e =>
    match s.perform c w with
    | .ok (_, c) w => walkFate rest c w n e
    | .error _ _ => some e

namespace Map

/-- What becomes of the entry at a node when a node is erased, if there is one. -/
def eraseFate (target : Option NodeId) (n : NodeId) (e : Entry κ ν) : Option (Entry κ ν) :=
  if target = some n then none else some e

/-- What becomes of the entry at a node when another one is stored. -/
def insertFate (t : κ) (v : ν) (w : Workspace κ ν) (n : NodeId) (e : Entry κ ν) : Entry κ ν :=
  if w.map.found? t = some n then ⟨t, v⟩ else e

def insertManyFate : List (κ × ν) → Workspace κ ν → NodeId → Entry κ ν → Entry κ ν
  | [], _, _, e => e
  | (t, v) :: rest, w, n, e =>
    match insert t v w with
    | .ok _ w' | .error _ w' => insertManyFate rest w' n (insertFate t v w n e)

/-- What becomes of the entry at a node when an operation is carried out: nothing, if the entry is
erased, handed over or cleared away, and otherwise the entry there afterwards. -/
def Op.fate (op : Op κ ν) (w : Workspace κ ν) (n : NodeId) (e : Entry κ ν) : Option (Entry κ ν) :=
  match op with
  | .insert t v => some (insertFate t v w n e)
  | .insertMany entries => some (insertManyFate entries w n e)
  | .overwrite t v => some (if w.map.found? t = some n then ⟨e.tag, v⟩ else e)
  | .erase t | .removeValue t | .remove t => eraseFate (w.map.found? t) n e
  | .eraseOwnPosition p | .erasePosition p => eraseFate (w.map.nodeAt p).toOption n e
  | .clear => none
  | .revise start steps =>
    match cursor start w with
    | .ok (.ok c) w => Revision.walkFate steps c w n e
    | _ => some e
  | .size | .isEmpty | .get _ | .getEntry _ | .contains _ | .outermost _ | .position _ | .audit
  | .iterate _ _ | .walk _ _ => some e

end Map

namespace Roll

variable {r r' r'' : Roll κ ν} {low mid high : Nat} {f g : NodeId → Entry κ ν → Option (Entry κ ν)}

/-- The stamps of the items are distinct, and all have been drawn. -/
structure Stamped (r : Roll κ ν) (clock : Nat) : Prop where
  distinct : (r.items.map (·.stamp)).Nodup
  drawn : ∀ x ∈ r.items, x.stamp < clock

theorem Stamped.eq (h : r.Stamped low) {x y : Item κ ν} (hx : x ∈ r.items) (hy : y ∈ r.items)
    (e : x.stamp = y.stamp) : x = y := List.inj_on_of_nodup_map h.distinct hx hy e

theorem Stamped.thins (h : r.Stamped low) (ht : r.Thins r') (hc : low ≤ high) :
    r'.Stamped high := by
  have hsub : (r'.items.map (·.stamp)).Sublist (r.items.map (·.stamp)) := by
    have := ht.keys.map (·.2.1)
    rwa [List.map_map, List.map_map] at this
  refine ⟨h.distinct.sublist hsub, fun x hx => ?_⟩
  obtain ⟨y, hy, e⟩ := List.mem_map.mp (hsub.subset (List.mem_map_of_mem hx))
  exact e ▸ Nat.lt_of_lt_of_le (h.drawn y hy) hc

theorem Stamped.stores {t : κ} {v : ν} {n : Option NodeId} (h : r.Stamped low)
    (hs : r.Stores t v low high n r') (hc : low ≤ high) : r'.Stamped high := by
  obtain ⟨hd, hl⟩ := h
  cases hs with
  | written split =>
    rw [split] at hd hl
    refine ⟨by simpa using hd, fun x hx => ?_⟩
    obtain ⟨y, hy, e⟩ : ∃ y ∈ r.items, y.stamp = x.stamp := by
      rw [split]
      simp only [List.mem_append, List.mem_cons] at hx ⊢
      rcases hx with hx | rfl | hx
      · exact ⟨x, .inl hx, rfl⟩
      · exact ⟨_, .inr (.inl rfl), rfl⟩
      · exact ⟨x, .inr (.inr hx), rfl⟩
    exact e ▸ Nat.lt_of_lt_of_le (hl y (split ▸ hy)) hc
  | @added ys zs x split gap entry node old drawn =>
    rw [split] at hd hl
    have hx (y) (hy : y ∈ ys ++ zs) : x.stamp ≠ y.stamp := fun e =>
      absurd (hl y hy) (by omega)
    constructor
    · refine (List.perm_middle.map _).nodup_iff.mpr (List.nodup_cons.mpr ⟨?_, hd⟩)
      intro hmem
      obtain ⟨y, hy, e⟩ := List.mem_map.mp hmem
      exact hx y hy e.symm
    · intro y hy
      rcases List.mem_cons.mp (List.perm_middle.subset hy) with rfl | hy
      · exact drawn
      · exact Nat.lt_of_lt_of_le (hl y hy) hc

/-- Each item keeps its node and its stamp and gets the entry that is its fate, or it is gone. What
is new has a stamp drawn meanwhile. -/
structure Follows (r : Roll κ ν) (f : NodeId → Entry κ ν → Option (Entry κ ν)) (low high : Nat)
    (r' : Roll κ ν) : Prop where
  kept : ∀ x ∈ r.items, ∀ e, f x.node x.entry = some e → { x with entry := e } ∈ r'.items
  gone : ∀ x ∈ r.items, f x.node x.entry = none → ∀ y ∈ r'.items, y.stamp ≠ x.stamp
  origin : ∀ y ∈ r'.items, low ≤ y.stamp ∧ y.stamp < high ∨
    ∃ x ∈ r.items, x.node = y.node ∧ x.stamp = y.stamp

namespace Follows

theorem refl (r : Roll κ ν) : r.Follows (fun _ e => some e) low high r := by
  refine ⟨fun x hx e he => ?_, nofun, fun y hy => .inr ⟨y, hy, rfl, rfl⟩⟩
  cases he
  exact hx

theorem trans (h : r.Follows f low mid r') (h' : r'.Follows g mid high r'')
    (hr : r.Stamped low) (hlm : low ≤ mid) (hmh : mid ≤ high) :
    r.Follows (fun n e => (f n e).bind (g n)) low high r'' := by
  refine ⟨?_, ?_, ?_⟩
  · intro x hx e he
    obtain ⟨e', hf, hg⟩ := Option.bind_eq_some_iff.mp he
    exact h'.kept _ (h.kept x hx e' hf) e hg
  · intro x hx he y hy e
    cases hf : f x.node x.entry with
    | none =>
      rcases h'.origin y hy with ⟨hl, -⟩ | ⟨z, hz, -, hzs⟩
      · have := hr.drawn x hx
        omega
      · exact h.gone x hx hf z hz (hzs.trans e)
    | some e' =>
      rw [hf] at he
      exact h'.gone _ (h.kept x hx e' hf) he y hy e
  · intro y hy
    rcases h'.origin y hy with ⟨hl, hh⟩ | ⟨z, hz, hzn, hzs⟩
    · exact .inl ⟨by omega, hh⟩
    · rcases h.origin z hz with ⟨hl, hh⟩ | ⟨x, hx, hxn, hxs⟩
      · exact .inl ⟨by omega, by omega⟩
      · exact .inr ⟨x, hx, hxn.trans hzn, hxs.trans hzs⟩

theorem rewrite (r : Roll κ ν) (n : Option NodeId) (f : Entry κ ν → Entry κ ν) :
    r.Follows (fun m e => some (if n = some m then f e else e)) low high (r.rewrite n f) := by
  cases n with
  | none => exact refl r
  | some n =>
    refine ⟨?_, nofun, ?_⟩
    · rintro x hx - ⟨⟩
      refine List.mem_map.mpr ⟨x, hx, ?_⟩
      by_cases hn : x.node = n <;> simp [hn, eq_comm (a := n)]
    · intro y hy
      obtain ⟨x, hx, rfl⟩ := List.mem_map.mp hy
      refine .inr ⟨x, hx, ?_⟩
      split <;> exact ⟨rfl, rfl⟩

theorem erase (hr : r.Stamped low) (n : Option NodeId) :
    r.Follows (Map.eraseFate n) low high (r.erase n) := by
  unfold Map.eraseFate
  cases n with
  | none => exact refl r
  | some n =>
    refine ⟨?_, ?_, fun y hy => .inr ⟨y, (List.mem_filter.mp hy).1, rfl, rfl⟩⟩
    · intro x hx e he
      split at he
      · cases he
      · rename_i hn
        cases he
        exact List.mem_filter.mpr ⟨hx, decide_eq_true fun h => hn (congrArg some h.symm)⟩
    · intro x hx he y hy e
      split at he
      · rename_i hn
        cases hn
        obtain ⟨hy, hne⟩ := List.mem_filter.mp hy
        rw [hr.eq hy hx e] at hne
        simp at hne
      · cases he

theorem empty (r : Roll κ ν) : r.Follows (fun _ _ => none) low high r.empty :=
  ⟨nofun, fun _ _ _ _ hy => (List.not_mem_nil hy).elim, fun _ hy => (List.not_mem_nil hy).elim⟩

theorem stores {t : κ} {v : ν} {n : Option NodeId} (hn : r.nodes.Nodup)
    (h : r.Stores t v low high n r') :
    r.Follows (fun m e => some (if n = some m then ⟨t, v⟩ else e)) low high r' := by
  cases h with
  | @written ys zs x split =>
    have hsplit := Item.rewriteAt_split (fun _ => (⟨t, v⟩ : Entry κ ν))
      (by rw [← split]; exact hn : ((ys ++ x :: zs).map (·.node)).Nodup)
    rw [← hsplit, ← split]
    exact rewrite r (some x.node) fun _ => ⟨t, v⟩
  | @added ys zs x split gap entry node old drawn =>
    refine ⟨?_, nofun, ?_⟩
    · rintro y hy - ⟨⟩
      rw [split] at hy
      exact List.perm_middle.symm.subset (List.mem_cons_of_mem _ hy)
    · intro y hy
      rcases List.mem_cons.mp (List.perm_middle.subset hy) with rfl | hy
      · exact .inl ⟨old, drawn⟩
      · exact .inr ⟨y, split ▸ hy, rfl, rfl⟩

end Follows
end Roll
end OrderedMap
