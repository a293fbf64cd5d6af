import CanonC.Data.PriorityQueue.Refinement

/-!
# Heapify and drain is a heapsort

Heapifying touches only the slots it takes in. Popping a heap until it is empty gives its
elements so that none is after a later one, because each root popped is an element that
none of the others is before.
-/

namespace CanonC

open Toolkit Function

variable {α Ctx : Type*} {cmp : AlgoCmpFn α Ctx} {ctx : Ctx}

section Frame

variable {len : Nat} {hlen : len ≤ pqMaxCapacity}

/-- Sifting down leaves the slots from `len` on alone. -/
theorem pqSiftDownLoop_of_le {data : Nat → α} {idx i : Nat} (hidx : idx < len) (hi : len ≤ i) :
    pqSiftDownLoop cmp ctx len hlen data idx hidx i = data i := by
  induction hd : len - idx using Nat.strong_induction_on generalizing data idx with
  | _ d ih =>
    rw [pqSiftDownLoop]
    split
    · rfl
    · rename_i hne
      have hlt := pqSmallest_lt hlen hidx hne
      rw [ih _ (by omega) hlt.2 rfl, pqSwap_eq, comp_apply,
        Equiv.swap_apply_of_ne_of_ne (by omega) (by omega)]

/-- Heapifying leaves the slots from `len` on alone, and everything but the buffer. -/
theorem pqHeapifyLoop_of_le {i k : Nat} (pq : PriorityQueue α Ctx) (hi : i ≤ pq.len)
    (hk : pq.len ≤ k) : (pqHeapifyLoop pq i hi).data k = pq.data k ∧
      (pqHeapifyLoop pq i hi).len = pq.len := by
  induction i generalizing pq with
  | zero => exact ⟨rfl, rfl⟩
  | succ i ih =>
    obtain ⟨hdata, hlen⟩ := ih (pqSiftDown pq i hi) (Nat.le_of_succ_le hi) hk
    exact ⟨hdata.trans (pqSiftDownLoop_of_le hi hk), hlen⟩

end Frame

/-- Heapifying takes in the first slots and leaves the others alone. -/
theorem pqHeapify_frame {pq heap : PriorityQueue α Ctx} {len : Nat}
    (h : pqHeapify pq len = .ok heap) : heap.len = min len pq.capacity ∧
      ∀ i, heap.len ≤ i → heap.data i = pq.data i := by
  have hmin : (if len > pq.capacity then pq.capacity else len) = min len pq.capacity := by
    split <;> omega
  obtain ⟨_, -, h⟩ := bind_eq_ok.mp h
  by_cases h0 : len = 0
  · rw [if_pos h0] at h
    cases h
    exact ⟨by rw [h0, Nat.zero_min], fun _ _ => rfl⟩
  · rw [if_neg h0] at h
    simp only [hmin] at h
    split at h
    · rename_i h2
      cases h
      have hparent : pqParent (min len pq.capacity - 1) (by omega) + 1 ≤ min len pq.capacity := by
        simp only [pqParent]
        omega
      have hframe := fun k => pqHeapifyLoop_of_le (k := k)
        ({ pq with len := min len pq.capacity, len_le := Nat.min_le_right _ _ } :
          PriorityQueue α Ctx) hparent
      have hlen := (hframe (min len pq.capacity) (Nat.le_refl _)).2
      exact ⟨hlen, fun i hi => (hframe i (hlen ▸ hi)).1⟩
    · cases h
      exact ⟨rfl, fun _ _ => rfl⟩

/-- Popping a heap until it is empty gives its elements in order. -/
theorem PriorityQueue.Heaped.drain {capacity : Nat} (hcmp : cmp.TotalPreorder ctx) {n : Nat} :
    ∀ {pq : PriorityQueue α Ctx}, pq.Heaped cmp ctx capacity → pq.len = n →
      ∃ (popped : List α) (rest : PriorityQueue α Ctx),
        run pqStep pq (List.replicate n (.pop true)) =
          .ok (popped.map fun x => .popped true (some x), rest) ∧
        rest.len = 0 ∧ (popped : Multiset α) = pq.elements ∧
        popped.Pairwise fun a b => cmp a b ctx ≤ 0 := by
  induction n with
  | zero =>
    intro pq _ hlen
    have hbag : pq.elements = 0 := by rw [← Multiset.card_eq_zero, elements, Heap.card_bag, hlen]
    exact ⟨[], pq, rfl, hlen, hbag.symm, .nil⟩
  | succ n ih =>
    intro pq h hlen
    obtain ⟨hout, hheap, hbag⟩ := h.pop hcmp true (by omega)
    have hcard := congrArg Multiset.card hbag
    rw [Multiset.card_cons, elements, elements, Heap.card_bag, Heap.card_bag] at hcard
    obtain ⟨popped, rest, hrun, hrest, hpopped, hordered⟩ := ih hheap (by omega)
    refine ⟨pq.data 0 :: popped, rest, ?_, hrest, ?_,
      List.pairwise_cons.mpr ⟨fun y hy => ?_, hordered⟩⟩
    · rw [List.replicate_succ, run_cons_eq_ok]
      refine ⟨_, _, _, ?_, hrun, rfl⟩
      rw [pqStep, hout]
      rfl
    · rw [hbag, ← hpopped]
      rfl
    · have hmem : y ∈ pq.elements := by
        rw [hbag, ← hpopped]
        exact Multiset.mem_cons_of_mem hy
      have hleast := h.root_least hcmp y hmem
      rwa [hcmp.lt_iff_not_le, not_not] at hleast

/-- For every buffer, requested length and total preorder, heapifying puts a rearrangement
of the first slots, up to the capacity, into heap order and leaves the other slots alone;
popping the heap until it is empty then gives exactly these elements in order. -/
theorem pqHeapify_sorts (pq : PriorityQueue α Ctx) (hcmp : pq.cmp.TotalPreorder pq.ctx)
    (hcap : 0 < pq.capacity) (len : Nat) :
    ∃ heap, pqHeapify pq len = .ok heap ∧ heap.len = min len pq.capacity ∧
      (∀ i < heap.len, 0 < i → ¬ pq.cmp (heap.data i) (heap.data ((i - 1) / 2)) pq.ctx < 0) ∧
      ((List.range heap.len).map heap.data).Perm ((List.range heap.len).map pq.data) ∧
      (∀ i, heap.len ≤ i → heap.data i = pq.data i) ∧
      ∃ (popped : List α) (rest : PriorityQueue α Ctx),
        run pqStep heap (List.replicate heap.len (.pop true)) =
          .ok (popped.map fun x => .popped true (some x), rest) ∧
        pqPopRaw rest true = (rest, false, none) ∧
        popped.Perm ((List.range heap.len).map pq.data) ∧
        popped.Pairwise fun a b => pq.cmp a b pq.ctx ≤ 0 := by
  obtain ⟨heap, hok, hheap, hbag⟩ := PriorityQueue.Heaped.heapify pq hcmp rfl rfl rfl hcap len
  obtain ⟨hlen, hframe⟩ := pqHeapify_frame hok
  obtain ⟨popped, rest, hrun, hrest, hpopped, hordered⟩ := hheap.drain hcmp rfl
  rw [← hlen] at hbag
  refine ⟨heap, hok, hlen, fun i hi hp => ?_, Multiset.coe_eq_coe.mp hbag, hframe, popped, rest,
    hrun, PriorityQueue.Heaped.pop_empty true hrest, ?_, hordered⟩
  · rw [hcmp.lt_iff_not_le, not_not]
    exact hheap.ordered i hi hp
  · exact Multiset.coe_eq_coe.mp (hpopped.trans hbag)

/-- A buffer of four slots, more requested than there are. -/
theorem pqHeapify_sorts_four : ∃ heap,
    pqHeapify ⟨fun i : Nat => (10 - i : Int), 0, 4, algoCmp, (), by decide, by decide⟩ 9 =
        .ok heap ∧
      ∃ (popped : List Int) (rest : PriorityQueue Int Unit),
        run pqStep heap (List.replicate heap.len (.pop true)) =
          .ok (popped.map fun x => .popped true (some x), rest) ∧
        popped.Perm ((List.range heap.len).map fun i : Nat => (10 - i : Int)) := by
  obtain ⟨heap, hok, -, -, -, -, popped, rest, hrun, -, hperm, -⟩ :=
    pqHeapify_sorts ⟨fun i : Nat => (10 - i : Int), 0, 4, algoCmp, (), by decide, by decide⟩
      algoCmp_totalPreorder (by decide) 9
  exact ⟨heap, hok, popped, rest, hrun, hperm⟩

end CanonC
