import Mathlib.Data.List.Induction
import OrderedMap.Proofs.Tree.Refill

/-!
Trees that keep the rules but for one place. In one a red node is the root or hangs from a red node;
in another one the paths through one side of a node lack a black node. Both are told path by path.
Above such a place a path fits, so that the repairs can begin there.
-/
namespace OrderedMap

variable {κ ν : Type} {p q up : Path κ ν} {f : Frame κ ν} {t u v : Tree κ ν} {n : NodeId} {s : Side}
  {h H d : Nat}

namespace Path

/-- Whether the path goes through one side of a node. -/
def through (p : Path κ ν) (n : NodeId) (s : Side) : Bool :=
  p.any fun f => decide (f.cell.id = n ∧ f.side = s)

theorem through_eq_false (h : ∀ f ∈ p, f.cell.id = n → f.side ≠ s) : p.through n s = false := by
  simpa [through] using h

theorem Fits.cons (other : f.other.Balanced h)
    (red : f.color = .red → f.other.color = .black ∧ roof up = .black)
    (rest : Fits up (h + f.rise) H) : Fits (f :: up) h H := by
  obtain ⟨s, k, c, t⟩ := f
  cases k with
  | red => exact .red other (red rfl).1 (red rfl).2 rest
  | black => exact .black other rest

theorem blacks_cons (f : Frame κ ν) (up : Path κ ν) : blacks (f :: up) = f.rise + blacks up := by
  cases hk : f.color <;> simp [blacks, Frame.rise, hk, Nat.add_comm]

/-- A path fits if everything beside it does. -/
theorem fits_of_frames (height : h + q.blacks = H)
    (frames : ∀ lo f up, q = lo ++ f :: up → f.other.Balanced (h + blacks lo) ∧
      (f.color = .red → f.other.color = .black ∧ roof up = .black)) : q.Fits h H := by
  induction q generalizing h with
  | nil =>
    obtain rfl : h = H := height
    exact .nil
  | cons f up ih =>
    obtain ⟨other, red⟩ := frames [] f up rfl
    refine .cons other red (ih (by rw [← height, blacks_cons, Nat.add_assoc]) fun lo g up' e => ?_)
    have beyond := frames (f :: lo) g up' (by rw [e]; rfl)
    rwa [blacks_cons, ← Nat.add_assoc] at beyond

/-- What is beside a path, seen as the end of a path of its own. -/
theorem plug_beside (lo : Path κ ν) (f : Frame κ ν) (up : Path κ ν) (t : Tree κ ν) :
    plug (lo ++ f :: up) t =
      plug (⟨f.side.opposite, f.color, f.cell, plug lo t⟩ :: up) f.other := by
  rw [plug_append, plug_across]

end Path

namespace Tree

/-- No red node is the root or hangs from a red node, but for one at most. -/
def RedBut (t : Tree κ ν) (n : Option NodeId) : Prop :=
  ∀ p u, t = Path.plug p u → u.color = .red → p.roof = .red → u.root? = n

/-- All rules hold if every path through one side of a node is taken to cross one black node more
than it does. The subtree on that side has a black root or is missing. -/
structure Short (t : Tree κ ν) (n : NodeId) (s : Side) (h : Nat) : Prop where
  rootBlack : t.color = .black
  redApart : t.RedApart
  black : ∀ p u, t = Path.plug p u → u.root? = some n → (u.child s).color = .black
  level : ∀ p, t = Path.plug p .nil → p.blacks + 1 + (p.through n s).toNat = h

theorem RedApart.of_join {near far : Tree κ ν} {c : Cell κ ν}
    (h : (p.plug (.join s near .red c far)).RedApart) :
    near.color = .black ∧ far.color = .black := by
  cases s with
  | left => exact h p near c far rfl
  | right => exact (h p far c near rfl).symm

theorem RedApart.redBut (h : t.RedApart) (hb : t.color = .black) : t.RedBut none := by
  rintro p u rfl hu hp
  cases p with
  | nil => exact absurd hu (by simp [show u.color = .black from hb])
  | cons f up =>
    rw [Path.plug_cons, show f.color = .red from hp] at h
    exact absurd hu (by simp [h.of_join.1])

theorem exists_root_of_red (h : t.color = .red) : ∃ n, t.root? = some n :=
  Option.ne_none_iff_exists'.mp fun e => by simp [root?_eq_none_iff.mp e] at h

namespace RedBut

variable {exempt : Option NodeId}

/-- Within a subtree no red node hangs from another one if the exempt node is not in it, or is its
root. -/
theorem redApart (h : (p.plug t).RedBut exempt) (hnd : t.ids.Nodup)
    (he : ∀ n ∈ exempt, n ∈ t.ids → t.root? = some n) : t.RedApart := by
  have black (q : Path κ ν) (f : Frame κ ν) (u : Tree κ ν) (hf : f.color = .red)
      (e : t = Path.plug (f :: q) u) : u.color = .black := by
    subst e
    refine Color.eq_black fun red => ?_
    obtain ⟨n, hn⟩ := exists_root_of_red red
    have hne := h (f :: q ++ p) u (Path.plug_append ..).symm red hf
    rw [(Path.ids_plug_perm (f :: q) u).nodup_iff] at hnd
    have below := root?_mem_ids hn
    obtain ⟨r, hr, hroot⟩ := Path.exists_root_plug f q
    have root := he n (hne.symm.trans hn)
      ((Path.ids_plug_perm (f :: q) u).mem_iff.mpr (List.mem_append_right _ below))
    obtain rfl : r = n := Option.some.inj ((hroot u).symm.trans root)
    exact (List.nodup_append.mp hnd).2.2 r hr r below rfl
  intro q l c r e
  exact ⟨black q ⟨.left, .red, c, r⟩ l rfl e, black q ⟨.right, .red, c, l⟩ r rfl e⟩

/-- Beside a path and along it the rules for the colours hold if the exempt node is not there. -/
theorem beside {lo : Path κ ν} (h : (Path.plug (lo ++ f :: up) t).RedBut exempt)
    (he : ∀ n ∈ exempt, n ∉ Path.ids (lo ++ f :: up)) (hf : f.color = .red) :
    f.other.color = .black ∧ up.roof = .black := by
  have mem : f ∈ lo ++ f :: up := by simp
  constructor
  · refine Color.eq_black fun red => ?_
    obtain ⟨n, hn⟩ := exists_root_of_red red
    have hne := h _ f.other (Path.plug_beside ..) red hf
    exact he n (hne.symm.trans hn) (Path.other_ids_subset mem (root?_mem_ids hn))
  · refine Color.eq_black fun red => ?_
    have hne := h up (.join f.side (Path.plug lo t) f.color f.cell f.other)
      (Path.plug_append ..) (by simpa using hf) red
    rw [root?_join] at hne
    exact he f.cell.id hne.symm (Path.cell_mem_ids mem)

end RedBut
end Tree

namespace Path

/-- A path fits if the rules hold along it and beside it. What it lacks in black nodes below its end
is added to the height there. -/
theorem fits_of_plug (lacks : Path κ ν → Nat) {exempt : Option NodeId}
    (hnd : (q.plug u).ids.Nodup) (colors : (q.plug u).RedBut exempt)
    (he : ∀ n ∈ exempt, n ∉ q.ids) (hu : u.RedApart)
    (level : ∀ p, q.plug u = plug p .nil → p.blacks + 1 + lacks p = H)
    (below : ∀ r, lacks (r ++ q) = d)
    (beside : ∀ lo f up r, q = lo ++ f :: up → f.other = plug r .nil →
      lacks (r ++ ⟨f.side.opposite, f.color, f.cell, plug lo u⟩ :: up) = 0) :
    ∃ h, u.Balanced h ∧ q.Fits (h + d) H := by
  have hb : u.Balanced (H - q.blacks - d) := by
    refine Tree.balanced_iff.mpr ⟨hu, ?_⟩
    rintro r rfl
    have := level (r ++ q) (plug_append ..).symm
    rw [blacks_append, below] at this
    omega
  have pos := hb.pos
  refine ⟨_, hb, fits_of_frames (by omega) ?_⟩
  rintro lo f up rfl
  have whole := plug_beside lo f up u
  refine ⟨Tree.balanced_iff.mpr ⟨?_, fun r hr => ?_⟩, colors.beside he⟩
  · have other : f.other.ids ⊆ ids (lo ++ f :: up) := other_ids_subset (by simp)
    rw [whole] at colors hnd
    rw [(ids_plug_perm _ _).nodup_iff] at hnd
    exact colors.redApart (List.nodup_append.mp hnd).2.1 fun n hn hm => absurd (other hm) (he n hn)
  · have := level _ (by rw [whole, hr, ← plug_append])
    rw [beside lo f up r rfl hr, blacks_append, blacks_cons] at this
    rw [blacks_append, blacks_cons] at pos ⊢
    simp only [Frame.rise] at this pos ⊢
    omega

end Path

namespace Tree

/-- Above a red node that may be the root or hang from a red one the path fits. -/
theorem RedBut.fits (h : (q.plug u).RedBut (some n)) (hnd : (q.plug u).ids.Nodup)
    (hn : u.root? = some n) (hl : (q.plug u).Level H) : ∃ h, u.Balanced h ∧ q.Fits h H := by
  have parts := (q.ids_plug_perm u).nodup_iff.mp hnd
  have apart : n ∉ q.ids := fun hm =>
    (List.nodup_append.mp parts).2.2 n hm n (root?_mem_ids hn) rfl
  have hu : u.RedApart := h.redApart (List.nodup_append.mp parts).2.1 (by simpa using fun _ => hn)
  exact Path.fits_of_plug (d := 0) (fun _ => 0) hnd h (by simpa using apart) hu
    (fun p hp => hl p hp) (fun _ => rfl) fun _ _ _ _ _ _ => rfl

/-- Above a short side the path fits a subtree higher by one. -/
theorem Short.fits (h : (Path.plug (f :: up) u).Short f.cell.id f.side H)
    (hnd : (Path.plug (f :: up) u).ids.Nodup) :
    u.color = .black ∧ ∃ h, u.Balanced h ∧ Path.Fits (f :: up) (h + 1) H := by
  have black := h.black up (.join f.side u f.color f.cell f.other) rfl (root?_join ..)
  rw [child_join] at black
  refine ⟨black, ?_⟩
  have parts := (Path.ids_plug_perm (f :: up) u).nodup_iff.mp hnd
  simp only [Path.ids_cons, List.nodup_append, List.nodup_cons, List.mem_append] at parts
  refine Path.fits_of_plug (d := 1) (fun p => (p.through f.cell.id f.side).toNat) hnd
    (h.redApart.redBut h.rootBlack) (by simp) (RedApart.of_plug h.redApart) h.level (fun r => ?_)
    fun lo g above r e hr => ?_
  · simp [Path.through]
  · have inner : ∀ x ∈ r, x.cell.id ∈ g.other.ids := fun x hx => by
      rw [hr, (r.ids_plug_perm .nil).mem_iff]
      exact List.mem_append_left _ (Path.cell_mem_ids hx)
    have outer : ∀ x ∈ above, x.cell.id ∈ Path.ids above := fun x hx => Path.cell_mem_ids hx
    refine congrArg Bool.toNat (Path.through_eq_false fun x hx hid => ?_)
    rw [List.mem_append, List.mem_cons] at hx
    cases lo with
    | nil =>
      cases e
      rcases hx with hx | rfl | hx
      · exact absurd (.inl (hid ▸ inner x hx)) parts.1.1
      · exact Side.opposite_ne f.side
      · exact absurd (.inr (hid ▸ outer x hx)) parts.1.1
    | cons f' lo =>
      cases e
      -- the node is below all of them
      refine absurd (.inr ?_) parts.1.1
      rw [← hid]
      rcases hx with hx | rfl | hx
      · exact Path.other_ids_subset (by simp) (inner x hx)
      · exact Path.cell_mem_ids (f := g) (by simp)
      · exact Path.cell_mem_ids (by simp [hx])

/-! The rules can be checked. -/

/-- The subtrees, each with the path to it. -/
def parts : Tree κ ν → List (Path κ ν × Tree κ ν)
  | nil => [([], nil)]
  | node l k c r => ([], node l k c r) ::
      (l.parts.map (fun x => (x.1 ++ [⟨.left, k, c, r⟩], x.2)) ++
        r.parts.map (fun x => (x.1 ++ [⟨.right, k, c, l⟩], x.2)))

theorem mem_parts_self (t : Tree κ ν) : ([], t) ∈ t.parts := by
  cases t <;> exact List.mem_cons_self ..

theorem mem_parts_join {k : Color} {c : Cell κ ν} (s : Side) (u : Tree κ ν)
    (h : (p, v) ∈ t.parts) : (p ++ [⟨s, k, c, u⟩], v) ∈ (join s t k c u).parts := by
  cases s with
  | left =>
    exact List.mem_cons_of_mem _ (List.mem_append_left _ (List.mem_map.mpr ⟨(p, v), h, rfl⟩))
  | right =>
    exact List.mem_cons_of_mem _ (List.mem_append_right _ (List.mem_map.mpr ⟨(p, v), h, rfl⟩))

theorem mem_parts : (p, u) ∈ t.parts ↔ t = p.plug u := by
  constructor
  · intro h
    induction t generalizing p with
    | nil =>
      cases List.mem_singleton.mp h
      rfl
    | node l k c r ihl ihr =>
      rcases List.mem_cons.mp h with h | h
      · cases h
        rfl
      rcases List.mem_append.mp h with h | h
      · obtain ⟨⟨q, v⟩, hq, e⟩ := List.mem_map.mp h
        cases e
        rw [Path.plug_append, ← ihl hq]
        rfl
      · obtain ⟨⟨q, v⟩, hq, e⟩ := List.mem_map.mp h
        cases e
        rw [Path.plug_append, ← ihr hq]
        rfl
  · rintro rfl
    induction p using List.reverseRecOn with
    | nil => exact mem_parts_self u
    | append_singleton p f ih =>
      rw [Path.plug_append]
      exact mem_parts_join f.side f.other ih

theorem forall_parts {P : Path κ ν → Tree κ ν → Prop} :
    (∀ x ∈ t.parts, P x.1 x.2) ↔ ∀ p u, t = Path.plug p u → P p u :=
  ⟨fun h p u e => h (p, u) (mem_parts.mpr e), fun h x hx => h x.1 x.2 (mem_parts.mp hx)⟩

instance (P : Path κ ν → Tree κ ν → Prop) [∀ p u, Decidable (P p u)] :
    Decidable (∀ p u, t = Path.plug p u → P p u) := decidable_of_iff _ forall_parts

instance (n : Option NodeId) : Decidable (t.RedBut n) :=
  inferInstanceAs (Decidable (∀ p u, t = Path.plug p u → u.color = .red → p.roof = .red →
    u.root? = n))

instance : Decidable t.RedApart :=
  decidable_of_iff (∀ p u, t = Path.plug p u → u.color = .red →
    (u.child .left).color = .black ∧ (u.child .right).color = .black)
    ⟨fun h p _ _ _ e => h p _ e rfl, fun h p u e hu => match u, e, hu with
      | .node _ .red _ _, e, rfl => h p _ _ _ e⟩

theorem forall_missing {P : Path κ ν → Prop} :
    (∀ p u, t = Path.plug p u → u.root? = none → P p) ↔ ∀ p, t = Path.plug p .nil → P p :=
  ⟨fun h p e => h p .nil e rfl, fun h p u e hu => h p (by rwa [root?_eq_none_iff.mp hu] at e)⟩

instance : Decidable (t.Level h) := decidable_of_iff _ forall_missing

instance : Decidable (t.Short n s h) :=
  decidable_of_iff (t.color = .black ∧ t.RedApart ∧
    (∀ p u, t = Path.plug p u → u.root? = some n → (u.child s).color = .black) ∧
    ∀ p u, t = Path.plug p u → u.root? = none → p.blacks + 1 + (p.through n s).toNat = h)
    ⟨fun ⟨root, apart, black, level⟩ => ⟨root, apart, black, forall_missing.mp level⟩,
      fun hs => ⟨hs.rootBlack, hs.redApart, hs.black, forall_missing.mpr hs.level⟩⟩

end Tree
end OrderedMap
