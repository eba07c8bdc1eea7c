import OrderedMap.Proofs.Arena.Links

/-!
What the edits of slots do to a forest. An allocation adds a tree of one node, in the slot freed
last or in a new one; vacating a slot takes such a tree away. Colours and entries change in place.
-/
namespace OrderedMap
namespace Arena

variable {κ ν : Type} {a a' : Arena κ ν}

/-- A tree of one node. -/
def leaf (k : Color) (c : Cell κ ν) : Tree κ ν := .node .nil k c .nil

/-- The number of the slot that the next allocation takes. -/
def nextId (a : Arena κ ν) : NodeId := ⟨a.free.headD a.slots.size⟩

/-- The number of slots after the next allocation. -/
def nextSize (a : Arena κ ν) : Nat := a.slots.size + if a.free = [] then 1 else 0

theorem get?_of_push {x : Node κ ν} (h : a'.slots = a.slots.push (some x)) (n : NodeId) :
    a'.get? n = if n.index = a.slots.size then some x else a.get? n := by
  simp only [get?, h, Array.getElem?_push]
  split <;> rfl

/-- An allocation fills the next slot and leaves all others as they are. -/
theorem allocate_eq (e : Option (Entry κ ν)) (k : Color) (stamp : Nat) (hv : ∀ i ∈ a.free,
    i < a.slots.size) : ∃ a', allocate e k stamp a = .ok a.nextId a' ∧
      a'.get? a.nextId = some (.unlinked e k stamp) ∧ AgreeOff a a' [a.nextId] ∧
      a'.root = a.root ∧ a'.free = a.free.tail ∧
      a'.slots.size = a.nextSize := by
  unfold allocate nextId nextSize
  cases hf : a.free with
  | nil =>
    refine ⟨_, rfl, ?_, fun n hn => ?_, rfl, rfl, by simp⟩
    · rw [get?_of_push (a := a) rfl]
      simp
    · rw [get?_of_push (a := a) rfl, if_neg]
      intro hi
      exact hn (List.mem_singleton.mpr (by cases n; simpa using hi))
  | cons i rest =>
    have hi := hv i (by simp [hf])
    refine ⟨_, rfl, get?_put_self (n := ⟨i⟩) _ hi, fun n hn => ?_, rfl, rfl, by simp⟩
    exact get?_put_of_ne (n := ⟨i⟩) _ (by simpa using hn)

namespace Queues

theorem get?_nextId (h : a.Queues) : a.get? a.nextId = none := by
  unfold nextId
  cases hf : a.free with
  | nil => exact get?_eq_none_of_size_le (Nat.le_refl _)
  | cons i rest => exact ((h.mem_iff i).mp (by simp [hf])).2

theorem yields_allocate (h : a.Queues) (e : Option (Entry κ ν)) (k : Color) (stamp : Nat) :
    Yields (allocate e k stamp) a fun n a' => n = a.nextId ∧
      a'.get? a.nextId = some (.unlinked e k stamp) ∧ AgreeOff a a' [a.nextId] ∧ a'.Queues ∧
      a'.root = a.root ∧ a'.free = a.free.tail ∧ a'.slots.size = a.nextSize := by
  obtain ⟨a', he, hnew, off, hroot, hfree, hsize⟩ :=
    allocate_eq e k stamp fun i hi => ((h.mem_iff i).mp hi).1
  refine .of_eq he ⟨rfl, hnew, off, ⟨?_, fun i => ?_⟩, hroot, hfree, hsize⟩
  · rw [hfree]
    exact h.nodup.sublist (List.tail_sublist _)
  · rw [hfree, hsize, nextSize]
    by_cases he : (⟨i⟩ : NodeId) = a.nextId
    · rw [he, hnew]
      have hi : i = a.free.headD a.slots.size := congrArg NodeId.index he
      cases hf : a.free with
      | nil => simp
      | cons j rest =>
        have hd := h.nodup
        rw [hf, List.nodup_cons] at hd
        rw [hf] at hi
        subst hi
        simp [hd.1]
    · rw [off ⟨i⟩ (by simpa using he)]
      have hi : i ≠ a.free.headD a.slots.size := fun e => he (by rw [nextId, e])
      have hm := h.mem_iff i
      cases hf : a.free with
      | nil =>
        simp only [hf, List.not_mem_nil, false_iff, List.headD_nil] at hm hi ⊢
        simp only [List.tail_nil, List.not_mem_nil, false_iff, if_true]
        rintro ⟨hl, hn⟩
        exact hm ⟨by omega, hn⟩
      | cons j rest =>
        rw [hf, List.headD_cons] at hi
        simp only [hf, List.mem_cons, hi, false_or] at hm
        simpa using hm

theorem yields_vacate (h : a.Queues) {n : NodeId} {x : Node κ ν} (hx : a.get? n = some x)
    (hu : x.isUnlinked = true) : Yields (vacate n) a fun e a' => e = x.entry ∧
      a'.get? n = none ∧ AgreeOff a a' [n] ∧ a'.Queues ∧ a'.root = a.root ∧
      a'.free = n.index :: a.free ∧ a'.slots.size = a.slots.size := by
  unfold vacate
  rw [yields_bind, yields_inspect (isUnlinked_of_get? hx), hu]
  refine .of_eq rfl ?_
  have off : AgreeOff a (a.put n none) [n] := (AgreeOff.refl a).put n none
  have hlt := lt_size_of_get? hx
  have gone : (a.put n none).get? n = none := get?_put_self none hlt
  refine ⟨by rw [hx]; rfl, gone, off, ⟨?_, fun i => ?_⟩, rfl, rfl, size_put (a := a) ..⟩
  · refine List.nodup_cons.mpr ⟨fun hm => ?_, h.nodup⟩
    rw [((h.mem_iff _).mp hm).2] at hx
    cases hx
  · change i ∈ n.index :: a.free ↔ i < (a.put n none).slots.size ∧ (a.put n none).get? ⟨i⟩ = none
    rw [List.mem_cons, size_put, h.mem_iff]
    by_cases hi : i = n.index
    · subst hi
      simp [hlt, gone]
    · rw [off ⟨i⟩ (by simpa using fun e => hi (congrArg NodeId.index e))]
      simp [hi]

end Queues

section Grove

variable {ts : List (Tree κ ν)}

theorem Grove.nextId_notMem (h : a.Grove ts) (hq : a.Queues) :
    a.nextId ∉ ts.flatMap Tree.ids := fun hm => by
  have := h.get?_of_mem hm
  rw [hq.get?_nextId] at this
  cases this

theorem Grove.yields_allocate (h : a.Grove ts) (hq : a.Queues) (e : Option (Entry κ ν))
    (k : Color) (stamp : Nat) : Yields (allocate e k stamp) a fun n a' => n = a.nextId ∧
      a'.Grove (leaf k ⟨a.nextId, stamp, e⟩ :: ts) ∧ a'.Queues ∧ AgreeOff a a' [a.nextId] ∧
      a'.root = a.root ∧ a'.free = a.free.tail ∧ a'.slots.size = a.nextSize := by
  have hfresh := h.nextId_notMem hq
  apply (hq.yields_allocate e k stamp).mono
  rintro - a' ⟨rfl, hnew, off, hq', hrest⟩
  refine ⟨rfl, ⟨?_, List.nodup_cons.mpr ⟨hfresh, h.distinct⟩⟩, hq', off, hrest⟩
  simp only [List.mem_cons, forall_eq_or_imp]
  exact ⟨⟨hnew, trivial, trivial⟩, off.hangs_all h.hangs (by simpa using hfresh)⟩

theorem Grove.yields_vacate {k : Color} {c : Cell κ ν} (h : a.Grove (leaf k c :: ts))
    (hq : a.Queues) : Yields (vacate c.id) a fun e a' => e = c.entry ∧ a'.Grove ts ∧ a'.Queues ∧
      a'.get? c.id = none ∧ AgreeOff a a' [c.id] ∧ a'.root = a.root ∧
      a'.free = c.id.index :: a.free ∧ a'.slots.size = a.slots.size := by
  obtain ⟨hc, -, -⟩ := h.head_hangs
  have hd := h.distinct
  simp only [leaf, List.flatMap_cons, Tree.ids_node, Tree.ids_nil, List.nil_append,
    List.singleton_append, List.nodup_cons] at hd
  apply (hq.yields_vacate hc rfl).mono
  rintro - a' ⟨rfl, gone, off, hq', hrest⟩
  exact ⟨rfl, ⟨off.hangs_all h.tail_hangs (by simpa using hd.1), hd.2⟩, hq', gone, off, hrest⟩

end Grove

theorem yields_allocate {ts : List (Tree κ ν)} (h : a.Forest ts) (e : Option (Entry κ ν))
    (k : Color) (stamp : Nat) : Yields (allocate e k stamp) a fun n a' => n = a.nextId ∧
      a'.Forest (leaf k ⟨a.nextId, stamp, e⟩ :: ts) ∧ a'.root = a.root ∧ a'.free = a.free.tail ∧
      a'.slots.size = a.nextSize := by
  apply (h.grove.yields_allocate h.queues e k stamp).mono
  rintro - a' ⟨rfl, hg, hq, off, hrest⟩
  refine ⟨rfl, ⟨hg.hangs, hg.distinct, fun n hn => ?_, hq.nodup, hq.mem_iff⟩, hrest⟩
  by_cases he : n = a.nextId
  · simp [leaf, he]
  · rw [off n (by simpa using he)] at hn
    exact List.mem_append_right _ (h.occupied n hn)

theorem yields_vacate {k : Color} {c : Cell κ ν} {ts : List (Tree κ ν)}
    (h : a.Forest (leaf k c :: ts)) : Yields (vacate c.id) a fun e a' => e = c.entry ∧
      a'.Forest ts ∧ a'.root = a.root ∧ a'.free = c.id.index :: a.free ∧
      a'.slots.size = a.slots.size := by
  apply (h.grove.yields_vacate h.queues).mono
  rintro - a' ⟨rfl, hg, hq, gone, off, hrest⟩
  refine ⟨rfl, ⟨hg.hangs, hg.distinct, fun n hn => ?_, hq.nodup, hq.mem_iff⟩, hrest⟩
  have hne : n ≠ c.id := by
    rintro rfl
    rw [gone] at hn
    cases hn
  have := h.occupied n (by rwa [← off n (by simpa using hne)])
  simpa [leaf, hne] using this

end Arena
end OrderedMap
