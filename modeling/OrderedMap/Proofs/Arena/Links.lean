import OrderedMap.Proofs.Arena.Forest

/-!
What the edits of links do to a forest. Detaching splits a tree in two, attaching joins two trees,
and redirecting puts one tree in the place of a subtree of another. None of them changes which
slots are occupied.
-/
namespace OrderedMap
namespace Arena

variable {κ ν : Type} {a a' : Arena κ ν}

/-- Two arenas hold the same in all slots but a few. -/
def AgreeOff (a a' : Arena κ ν) (ns : List NodeId) : Prop := ∀ n, n ∉ ns → a'.get? n = a.get? n

namespace AgreeOff

variable {ns : List NodeId}

theorem put (h : AgreeOff a a' ns) (n : NodeId) (x : Option (Node κ ν)) :
    AgreeOff a (a'.put n x) (n :: ns) := by
  intro m hm
  simp only [List.mem_cons, not_or] at hm
  rw [get?_put_of_ne _ hm.1, h m hm.2]

theorem refl (a : Arena κ ν) : AgreeOff a a [] := fun _ _ => rfl

theorem mono {ms : List NodeId} (h : AgreeOff a a' ns) (hs : ns ⊆ ms) : AgreeOff a a' ms :=
  fun n hn => h n fun hm => hn (hs hm)

theorem trans {b : Arena κ ν} (h : AgreeOff a a' ns) (h' : AgreeOff a' b ns) : AgreeOff a b ns :=
  fun n hn => (h' n hn).trans (h n hn)

theorem hangs (h : AgreeOff a a' ns) {p : Option NodeId} {t : Tree κ ν} (ht : a.Hangs p t)
    (hd : ∀ n ∈ ns, n ∉ t.ids) : a'.Hangs p t :=
  ht.congr fun n hn => h n fun hm => hd n hm hn

theorem encloses (h : AgreeOff a a' ns) {p : Path κ ν} {n : Option NodeId}
    (hp : a.Encloses p n) (hd : ∀ n ∈ ns, n ∉ p.ids) : a'.Encloses p n :=
  hp.congr fun n hn => h n fun hm => hd n hm hn

theorem hangs_all (h : AgreeOff a a' ns) {ts : List (Tree κ ν)} (ht : ∀ t ∈ ts, a.Hangs none t)
    (hd : ∀ n ∈ ns, n ∉ ts.flatMap Tree.ids) : ∀ t ∈ ts, a'.Hangs none t :=
  fun t hm => h.hangs (ht t hm) fun n hn hi => hd n hn (List.mem_flatMap.mpr ⟨t, hm, hi⟩)

end AgreeOff

namespace Grove

variable {p : Path κ ν} {t u : Tree κ ν} {k : Color} {c : Cell κ ν} {s : Side}
  {ts : List (Tree κ ν)}

theorem nodup_plug (h : a.Grove (p.plug t :: ts)) :
    (p.ids ++ t.ids ++ ts.flatMap Tree.ids).Nodup := by
  have hd := h.distinct
  rw [List.flatMap_cons] at hd
  exact ((p.ids_plug_perm t).append_right _).nodup_iff.mp hd

theorem nodup_join (h : a.Grove (p.plug (.join s t k c u) :: ts)) :
    (p.ids ++ c.id :: (t.ids ++ u.ids) ++ ts.flatMap Tree.ids).Nodup := by
  refine List.Perm.nodup_iff ?_ |>.mp h.nodup_plug
  exact ((Tree.ids_join_perm s t k c u).append_left _).append_right _

end Grove

theorem ids_detached_perm (p : Path κ ν) (s : Side) (t u : Tree κ ν) (k : Color) (c : Cell κ ν)
    (ts : List (Tree κ ν)) :
    ((p.plug (.join s .nil k c u) :: t :: ts).flatMap Tree.ids).Perm
      ((p.plug (.join s t k c u) :: ts).flatMap Tree.ids) := by
  refine List.perm_iff_count.mpr fun n => ?_
  simp only [List.flatMap_cons, List.count_append, Path.count_ids_plug, Tree.count_ids_join,
    Tree.ids_nil, List.count_nil]
  omega

theorem Grove.yields_detach {p : Path κ ν} {s : Side} {t u : Tree κ ν} {k : Color} {c : Cell κ ν}
    {ts : List (Tree κ ν)} (h : a.Grove (p.plug (.join s t k c u) :: ts)) :
    Yields (detach s c.id) a fun r a' => r = t.root? ∧
      a'.Grove (p.plug (.join s .nil k c u) :: t :: ts) ∧ Keeps a a' ∧ a'.root = a.root ∧
      AgreeOff a a' (c.id :: t.root?.toList) := by
  obtain ⟨he, hj⟩ := hangs_plug.mp h.head_hangs
  obtain ⟨hc, ht, hu⟩ := hangs_join.mp hj
  rw [Tree.root?_join] at he
  have hnd := h.nodup_join
  unfold detach
  rw [yields_bind, yields_inspect (child_of_get? s hc), Cell.child_node, yields_bind,
    yields_alter hc, Cell.withChild_node]
  cases t with
  | nil =>
    simp only [Tree.root?_nil, yields_pure, true_and]
    rw [Tree.root?_nil] at hc
    rw [put_get? hc]
    exact ⟨h.nil_cons.perm (.swap ..), .refl a, rfl, (AgreeOff.refl a).mono (by simp)⟩
  | node l k' d r =>
    obtain ⟨hd, hl, hr⟩ := ht
    simp only [Tree.ids_node, List.nodup_append, List.nodup_cons, List.mem_append, List.mem_cons]
      at hnd
    have hne : d.id ≠ c.id := by grind
    have hd' := (get?_put_of_ne (some (c.node p.above? k s none u.root?)) hne).trans hd
    simp only [Tree.root?_node, yields_bind]
    rw [yields_alter hd', Cell.withParent_node]
    simp only [yields_pure, true_and]
    have hk := (Keeps.put (c.node p.above? k s none u.root?) hc).trans
      (.put (d.node none k' .left l.root? r.root?) hd')
    have off := ((AgreeOff.refl a).put c.id (some (c.node p.above? k s none u.root?))).put d.id
      (some (d.node none k' .left l.root? r.root?))
    refine ⟨⟨?_, (ids_detached_perm ..).nodup_iff.mpr h.distinct⟩, hk, rfl, off.mono (by simp)⟩
    simp only [List.mem_cons, forall_eq_or_imp]
    refine ⟨hangs_plug.mpr ⟨off.encloses ?_ ?_, hangs_join.mpr ⟨?_, ?_, ?_⟩⟩, ⟨?_, ?_, ?_⟩, ?_⟩
    · rwa [Tree.root?_join]
    · grind
    · rw [get?_put_of_ne _ hne.symm, get?_put_self _ (lt_size_of_get? hc)]
      rfl
    · exact hangs_nil _
    · exact off.hangs hu (by grind)
    · rw [get?_put_self _ (by rw [size_put]; exact lt_size_of_get? hd)]
    · exact off.hangs hl (by grind)
    · exact off.hangs hr (by grind)
    · exact off.hangs_all h.tail_hangs (by grind)

theorem yields_detach {p : Path κ ν} {s : Side} {t u : Tree κ ν} {k : Color} {c : Cell κ ν}
    {ts : List (Tree κ ν)} (h : a.Forest (p.plug (.join s t k c u) :: ts)) :
    Yields (detach s c.id) a fun r a' => r = t.root? ∧
      a'.Forest (p.plug (.join s .nil k c u) :: t :: ts) ∧ Keeps a a' ∧ a'.root = a.root := by
  apply h.grove.yields_detach.mono
  rintro r a' ⟨hr, hg, hk, hroot, -⟩
  exact ⟨hr, h.rebuild hk hg.hangs (ids_detached_perm ..), hk, hroot⟩

theorem Grove.yields_attach {p : Path κ ν} {s : Side} {t u : Tree κ ν} {k : Color} {c : Cell κ ν}
    {n : NodeId} {ts : List (Tree κ ν)} (h : a.Grove (p.plug (.join s .nil k c u) :: t :: ts))
    (hn : t.root? = some n) : Yields (attach s c.id n) a fun _ a' =>
      a'.Grove (p.plug (.join s t k c u) :: ts) ∧ Keeps a a' ∧ a'.root = a.root ∧
      AgreeOff a a' [c.id, n] := by
  obtain ⟨he, hj⟩ := hangs_plug.mp h.head_hangs
  obtain ⟨hc, -, hu⟩ := hangs_join.mp hj
  rw [Tree.root?_join] at he
  rw [Tree.root?_nil] at hc
  have hnd := h.nodup_join
  cases t with
  | nil => cases hn
  | node l k' d r =>
    obtain rfl : d.id = n := Option.some.inj hn
    obtain ⟨hd, hl, hr⟩ := h.tail_hangs _ (List.mem_cons_self ..)
    simp only [List.flatMap_cons, Tree.ids_node, List.nodup_append, List.nodup_cons,
      List.mem_append, List.mem_cons] at hnd
    have hne : d.id ≠ c.id := by grind
    unfold attach
    rw [yields_bind, yields_inspect (child_of_get? s hc), Cell.child_node]
    simp only [Option.isSome_none, Bool.false_eq_true, if_false]
    rw [yields_bind, yields_inspect (parent_of_get? hd), Cell.parent_node]
    simp only [Option.isSome_none, Bool.false_eq_true, if_false]
    have hd' := (get?_put_of_ne (some (c.node p.above? k s (some d.id) u.root?)) hne).trans hd
    rw [yields_bind, yields_alter hc, Cell.withChild_node, yields_alter hd', Cell.withParent_node]
    have hk := (Keeps.put (c.node p.above? k s (some d.id) u.root?) hc).trans
      (.put (d.node (some c.id) k' .left l.root? r.root?) hd')
    have off := ((AgreeOff.refl a).put c.id (some (c.node p.above? k s (some d.id) u.root?))).put
      d.id (some (d.node (some c.id) k' .left l.root? r.root?))
    refine ⟨⟨?_, (ids_detached_perm ..).symm.nodup_iff.mpr h.distinct⟩, hk, rfl, off.mono (by simp)⟩
    simp only [List.mem_cons, forall_eq_or_imp]
    refine ⟨hangs_plug.mpr ⟨off.encloses ?_ ?_, hangs_join.mpr ⟨?_, ⟨?_, ?_, ?_⟩, ?_⟩⟩, ?_⟩
    · rwa [Tree.root?_join]
    · grind
    · rw [get?_put_of_ne _ hne.symm, get?_put_self _ (lt_size_of_get? hc)]
      rfl
    · rw [get?_put_self _ (by rw [size_put]; exact lt_size_of_get? hd)]
    · exact off.hangs hl (by grind)
    · exact off.hangs hr (by grind)
    · exact off.hangs hu (by grind)
    · exact off.hangs_all (fun w hw => h.hangs w (by simp [hw])) (by grind)

theorem yields_attach {p : Path κ ν} {s : Side} {t u : Tree κ ν} {k : Color} {c : Cell κ ν}
    {n : NodeId} {ts : List (Tree κ ν)} (h : a.Forest (p.plug (.join s .nil k c u) :: t :: ts))
    (hn : t.root? = some n) : Yields (attach s c.id n) a fun _ a' =>
      a'.Forest (p.plug (.join s t k c u) :: ts) ∧ Keeps a a' ∧ a'.root = a.root := by
  apply (h.grove.yields_attach hn).mono
  rintro - a' ⟨hg, hk, hroot, -⟩
  exact ⟨h.rebuild hk hg.hangs (ids_detached_perm ..).symm, hk, hroot⟩

theorem ids_redirected_perm (p : Path κ ν) (t w : Tree κ ν) (ts : List (Tree κ ν)) :
    ((p.plug w :: t :: ts).flatMap Tree.ids).Perm ((p.plug t :: w :: ts).flatMap Tree.ids) := by
  refine List.perm_iff_count.mpr fun n => ?_
  simp only [List.flatMap_cons, List.count_append, Path.count_ids_plug]
  omega

/-- The hole of a path is pointed at another node, or at none. -/
theorem encloses_repoint {f : Frame κ ν} {up : Path κ ν} {n m : Option NodeId}
    (he : a.Encloses (f :: up) n) (hnd : (Path.ids (f :: up)).Nodup) :
    (a.put f.cell.id (some (f.cell.node (Path.above? up) f.color f.side m f.other.root?))).Encloses
      (f :: up) m := by
  obtain ⟨hc, ho, hu⟩ := he
  have off := (AgreeOff.refl a).put f.cell.id
    (some (f.cell.node (Path.above? up) f.color f.side m f.other.root?))
  simp only [Path.ids_cons, List.nodup_cons, List.mem_append] at hnd
  exact ⟨get?_put_self _ (lt_size_of_get? hc), off.hangs ho (by grind), off.encloses hu (by grind)⟩

/-- The target of a redirection takes over the parent. -/
def adopt (parent target : Option NodeId) : EditM κ ν Unit := do
  if let some t := target then
    if (← inspect (·.parent t)).isSome then
      throw (.hasParent t)
    alter t (·.withParent parent)

/-- What points at the source of a redirection is pointed at the target. -/
def repoint (parent : Option NodeId) (source : NodeId) (target : Option NodeId) :
    EditM κ ν Unit := do
  match parent with
  | none => setRoot target
  | some p =>
    let x ← inspect (·.node p)
    if x.left = some source then
      alter p (·.withChild .left target)
    else if x.right = some source then
      alter p (·.withChild .right target)
    else
      throw (.notHeld x.right source)

theorem redirect_eq (source : NodeId) (target : Option NodeId) :
    (redirect source target : EditM κ ν Unit) = (do
      let p ← inspect (·.parent source)
      adopt p target
      repoint p source target
      alter source (·.withParent none)) := by
  unfold redirect adopt repoint
  refine bind_congr fun p => ?_
  cases target <;> cases p <;> simp [ite_bind]

theorem yields_adopt {q : Option NodeId} {w : Tree κ ν} (h : a.Hangs none w) (hw : w.ids.Nodup) :
    Yields (adopt q w.root?) a fun _ b => b.Hangs q w ∧ AgreeOff a b w.root?.toList ∧
      Keeps a b ∧ b.root = a.root := by
  cases w with
  | nil => exact yields_pure.mpr ⟨hangs_nil q, fun _ _ => rfl, .refl a, rfl⟩
  | node l k c r =>
    obtain ⟨hc, hl, hr⟩ := h
    simp only [Tree.ids_node, List.nodup_append, List.nodup_cons, List.mem_cons] at hw
    unfold adopt
    simp only [Tree.root?_node]
    rw [yields_bind, yields_inspect (parent_of_get? hc), Cell.parent_node]
    simp only [Option.isSome_none, Bool.false_eq_true, if_false]
    rw [yields_alter hc, Cell.withParent_node]
    have off := (AgreeOff.refl a).put c.id (some (c.node q k .left l.root? r.root?))
    exact ⟨⟨get?_put_self _ (lt_size_of_get? hc), off.hangs hl (by grind), off.hangs hr (by grind)⟩,
      off, .put _ hc, rfl⟩

/-- The root after an edit at the hole of a path. -/
theorem yields_repoint {p : Path κ ν} {n : NodeId} {m : Option NodeId} (he : a.Encloses p (some n))
    (hnd : p.ids.Nodup) (hn : ∀ f ∈ p, f.other.root? ≠ some n) :
    Yields (repoint p.above? n m) a fun _ b => b.Encloses p m ∧ AgreeOff a b p.above?.toList ∧
      Keeps a b ∧ b.root = if p = [] then m else a.root := by
  cases p with
  | nil => exact yields_setRoot.mpr ⟨trivial, fun _ _ => rfl, .setRoot m, rfl⟩
  | cons f up =>
    have hc := he.1
    have hf := hn f (by simp)
    unfold repoint
    simp only [Path.above?_cons]
    rw [yields_bind, yields_inspect (node_of_get? hc)]
    cases hs : f.side with
    | left =>
      simp only [hs, Cell.node, if_true] at hc ⊢
      rw [yields_alter hc]
      have hput := encloses_repoint (m := m) he hnd
      simp only [hs, Cell.node] at hput
      exact ⟨hput, (AgreeOff.refl a).put _ _, .put _ hc, by simp [put]⟩
    | right =>
      simp only [hs, Cell.node, hf, if_true, if_false] at hc ⊢
      rw [yields_alter hc]
      have hput := encloses_repoint (m := m) he hnd
      simp only [hs, Cell.node] at hput
      exact ⟨hput, (AgreeOff.refl a).put _ _, .put _ hc, by simp [put]⟩

theorem Grove.yields_redirect {p : Path κ ν} {t w : Tree κ ν} {n : NodeId} {ts : List (Tree κ ν)}
    (h : a.Grove (p.plug t :: w :: ts)) (hn : t.root? = some n)
    (hr : a.root = (p.plug t).root?) : Yields (redirect n w.root?) a fun _ a' =>
      a'.Grove (p.plug w :: t :: ts) ∧ Keeps a a' ∧ a'.root = (p.plug w).root? ∧
      AgreeOff a a' (n :: (w.root?.toList ++ p.above?.toList)) := by
  obtain ⟨he, ht⟩ := hangs_plug.mp h.head_hangs
  have hnd := h.nodup_plug
  cases t with
  | nil => cases hn
  | node l k c r =>
  obtain rfl : c.id = n := Option.some.inj hn
  obtain ⟨hc, hl, hrt⟩ := ht
  have hw := h.tail_hangs w (List.mem_cons_self ..)
  have hroot : ∀ m, w.root? = some m → m ∈ w.ids := fun m hm => Tree.root?_mem_ids hm
  have habove : ∀ m, p.above? = some m → m ∈ p.ids := fun m hm => Path.above?_mem_ids hm
  have hother : ∀ f ∈ p, f.other.root? ≠ some c.id := fun f hf e => by
    have := Path.other_ids_subset hf (Tree.root?_mem_ids e)
    simp only [Tree.ids_node, List.nodup_append, List.mem_append, List.mem_cons] at hnd
    grind
  simp only [List.flatMap_cons, Tree.ids_node, List.nodup_append, List.nodup_cons,
    List.mem_append, List.mem_cons] at hnd
  rw [redirect_eq, yields_bind, yields_inspect (parent_of_get? hc), Cell.parent_node, yields_bind]
  apply (yields_adopt hw hnd.2.1.1).mono
  rintro - b ⟨hbw, off, hk, hb⟩
  have hbe : b.Encloses p (some c.id) := off.encloses he (by simp; grind)
  rw [yields_bind]
  apply (yields_repoint hbe (by grind) hother).mono
  rintro - d ⟨hde, off', hk', hd⟩
  have hdc : d.get? c.id = some (c.node p.above? k .left l.root? r.root?) := by
    rw [off' c.id (by simp; grind), off c.id (by simp; grind), hc]
  rw [yields_alter hdc, Cell.withParent_node]
  have last := (AgreeOff.refl d).put c.id (some (c.node none k .left l.root? r.root?))
  have hk := (hk.trans hk').trans (.put (c.node none k .left l.root? r.root?) hdc)
  -- What neither the source nor the two ends of the new link touch is as it was.
  have rest : ∀ {q : Option NodeId} {v : Tree κ ν}, a.Hangs q v → c.id ∉ v.ids →
      (∀ m ∈ w.ids, m ∉ v.ids) → (∀ m ∈ p.ids, m ∉ v.ids) →
      Hangs (d.put c.id (some (c.node none k .left l.root? r.root?))) q v := by
    intro q v hv h₁ h₂ h₃
    exact last.hangs (off'.hangs (off.hangs hv (by simp; grind)) (by simp; grind)) (by simpa)
  refine ⟨⟨?_, (ids_redirected_perm ..).nodup_iff.mpr h.distinct⟩, hk, ?_, fun m hm => ?_⟩
  · simp only [List.mem_cons, forall_eq_or_imp]
    refine ⟨hangs_plug.mpr ⟨last.encloses hde (by grind), last.hangs ?_ (by grind)⟩,
      ⟨get?_put_self _ (lt_size_of_get? hdc), rest hl ?_ ?_ ?_, rest hrt ?_ ?_ ?_⟩,
      fun v hv => rest (h.hangs v (by simp [hv])) ?_ ?_ ?_⟩
    · exact off'.hangs hbw (by simp; grind)
    all_goals grind
  · change d.root = _
    rw [hd, hb, hr]
    cases p with
    | nil => rfl
    | cons f up => exact Path.root?_plug_congr up (by simp)
  · simp only [List.mem_cons, List.mem_append, not_or] at hm
    rw [last m (by simpa using hm.1), off' m hm.2.2, off m hm.2.1]

theorem yields_redirect {p : Path κ ν} {t w : Tree κ ν} {n : NodeId} {ts : List (Tree κ ν)}
    (h : a.Forest (p.plug t :: w :: ts)) (hn : t.root? = some n)
    (hr : a.root = (p.plug t).root?) : Yields (redirect n w.root?) a fun _ a' =>
      a'.Forest (p.plug w :: t :: ts) ∧ Keeps a a' ∧ a'.root = (p.plug w).root? := by
  apply (h.grove.yields_redirect hn hr).mono
  rintro - a' ⟨hg, hk, hroot, -⟩
  exact ⟨h.rebuild hk hg.hangs (ids_redirected_perm ..), hk, hroot⟩

end Arena
end OrderedMap
