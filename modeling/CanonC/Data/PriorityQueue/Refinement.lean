import CanonC.Data.PriorityQueue.Model
import CanonC.Toolkit.Heap
import CanonC.Toolkit.Run

/-!
# The priority queue is a bag

Under a comparator that is a total preorder every call keeps the heap order, and its
effect on the multiset of live elements is that of a bag with a least element: pushes
add one element, pops take out one that no element is before.
-/

namespace CanonC

open Toolkit Function

variable {α Ctx : Type*} {cmp : AlgoCmpFn α Ctx} {ctx : Ctx} {n lo : Nat}

/-- The exchange of two slots permutes the indices. -/
theorem pqSwap_eq (data : Nat → α) (a b : Nat) : pqSwap data a b = data ∘ Equiv.swap a b := by
  unfold pqSwap
  by_cases hab : a = b
  · rw [if_pos (by simpa using hab), hab, Equiv.swap_self]
    rfl
  · rw [if_neg (by simpa using hab), Equiv.swap_comm, Equiv.comp_swap_eq_update]

section SiftUp

/-- Sifting up permutes the live elements. -/
theorem bag_pqSiftUpLoop {data : Nat → α} {idx : Nat} (hidx : idx < n) :
    Heap.bag n (pqSiftUpLoop cmp ctx data idx) = Heap.bag n data := by
  induction idx using Nat.strong_induction_on generalizing data with
  | _ idx ih =>
    rw [pqSiftUpLoop]
    split
    · rename_i hpos
      have hp := Heap.parent_lt hpos
      simp only
      split
      · rfl
      · rw [pqSwap_eq]
        exact (ih _ hp (hp.trans hidx)).trans (Heap.bag_exchange (hp.trans hidx) hidx)
    · rfl

/-- Sifting up ends a rise in a heap. -/
theorem ordered_pqSiftUpLoop (hcmp : cmp.TotalPreorder ctx) {data : Nat → α} {idx : Nat}
    (hidx : idx < n) (h : Heap.Rising (cmp.Le ctx) n data idx) :
    Heap.Ordered (cmp.Le ctx) n (pqSiftUpLoop cmp ctx data idx) := by
  induction idx using Nat.strong_induction_on generalizing data with
  | _ idx ih =>
    rw [pqSiftUpLoop]
    split
    · rename_i hpos
      have hp := Heap.parent_lt hpos
      simp only
      split
      · rename_i hle
        exact h.ordered fun _ => hle
      · rename_i hle
        rw [pqSwap_eq]
        exact ih _ hp (hp.trans hidx)
          (h.exchange hcmp.le_trans hpos hidx (hcmp.le_of_not_le hle))
    · exact h.ordered fun hpos => absurd hpos ‹_›

/-- After sifting up a replaced element only position `idx` may be out of order, and
only with what is below it. -/
theorem sinking_pqSiftUpLoop (hcmp : cmp.TotalPreorder ctx) {data : Nat → α} {idx : Nat}
    (hidx : idx < n) (h : Heap.Hole (cmp.Le ctx) n data idx) :
    Heap.Sinking (cmp.Le ctx) n 0 (pqSiftUpLoop cmp ctx data idx) idx := by
  by_cases hup : 0 < idx ∧ ¬ cmp.Le ctx (data (Heap.parent idx)) (data idx)
  · have hle := hcmp.le_of_not_le hup.2
    exact (ordered_pqSiftUpLoop hcmp hidx (h.rising hcmp.le_trans hup.1 hle)).sinking
      hcmp.le_trans hidx
  · have hstay : pqSiftUpLoop cmp ctx data idx = data := by
      rw [pqSiftUpLoop]
      split
      · rename_i hpos
        exact if_pos (by_contra fun hle => hup ⟨hpos, hle⟩)
      · rfl
    rw [hstay]
    exact h.sinking fun hpos => by_contra fun hle => hup ⟨hpos, hle⟩

end SiftUp

section SiftDown

variable {len : Nat} {hlen : len ≤ pqMaxCapacity}

/-- The child chosen is not after `idx` nor after the other child. -/
theorem pqSmallest_spec (hcmp : cmp.TotalPreorder ctx) (hlen : len ≤ pqMaxCapacity)
    (data : Nat → α) {idx : Nat} (hidx : idx < len) :
    let m := pqSmallest cmp ctx data len idx
    (m = idx ∨ (0 < m ∧ m < len ∧ Heap.parent m = idx)) ∧ cmp.Le ctx (data m) (data idx) ∧
      ∀ i < len, 0 < i → Heap.parent i = idx → cmp.Le ctx (data m) (data i) := by
  have hparent : ∀ i, 0 < i → (Heap.parent i = idx ↔ i = 2 * idx + 1 ∨ i = 2 * idx + 2) :=
    fun i hi => Heap.parent_eq_iff hi
  have hpl := (hparent (2 * idx + 1) (by omega)).mpr (Or.inl rfl)
  have hpr := (hparent (2 * idx + 2) (by omega)).mpr (Or.inr rfl)
  simp only [pqSmallest, pqLeftChild_eq hlen hidx, pqRightChild_eq hlen hidx]
  -- The left child is compared first, then the right one with the smaller of the two.
  by_cases hl : 2 * idx + 1 < len ∧ cmp (data (2 * idx + 1)) (data idx) ctx < 0
  · rw [if_pos hl]
    by_cases hr : 2 * idx + 2 < len ∧ cmp (data (2 * idx + 2)) (data (2 * idx + 1)) ctx < 0
    · rw [if_pos hr]
      have hrl : cmp.Le ctx (data (2 * idx + 2)) (data (2 * idx + 1)) := le_of_lt hr.2
      refine ⟨Or.inr ⟨by omega, hr.1, hpr⟩, hcmp.le_trans _ _ _ hrl (le_of_lt hl.2), ?_⟩
      intro i _ hi hpi
      rcases (hparent i hi).mp hpi with rfl | rfl
      · exact hrl
      · exact hcmp.le_refl _
    · rw [if_neg hr]
      refine ⟨Or.inr ⟨by omega, hl.1, hpl⟩, le_of_lt hl.2, ?_⟩
      intro i hil hi hpi
      rcases (hparent i hi).mp hpi with rfl | rfl
      · exact hcmp.le_refl _
      · exact by_contra fun hle => hr ⟨hil, hcmp.lt_iff_not_le.mpr hle⟩
  · rw [if_neg hl]
    have hleft : 2 * idx + 1 < len → cmp.Le ctx (data idx) (data (2 * idx + 1)) :=
      fun hlt => by_contra fun hle => hl ⟨hlt, hcmp.lt_iff_not_le.mpr hle⟩
    by_cases hr : 2 * idx + 2 < len ∧ cmp (data (2 * idx + 2)) (data idx) ctx < 0
    · rw [if_pos hr]
      have hri : cmp.Le ctx (data (2 * idx + 2)) (data idx) := le_of_lt hr.2
      refine ⟨Or.inr ⟨by omega, hr.1, hpr⟩, hri, ?_⟩
      intro i hil hi hpi
      rcases (hparent i hi).mp hpi with rfl | rfl
      · exact hcmp.le_trans _ _ _ hri (hleft hil)
      · exact hcmp.le_refl _
    · rw [if_neg hr]
      refine ⟨Or.inl rfl, hcmp.le_refl _, ?_⟩
      intro i hil hi hpi
      rcases (hparent i hi).mp hpi with rfl | rfl
      · exact hleft hil
      · exact by_contra fun hle => hr ⟨hil, hcmp.lt_iff_not_le.mpr hle⟩

/-- Sifting down permutes the live elements. -/
theorem bag_pqSiftDownLoop {data : Nat → α} {idx : Nat} (hidx : idx < len) :
    Heap.bag len (pqSiftDownLoop cmp ctx len hlen data idx hidx) = Heap.bag len data := by
  induction hd : len - idx using Nat.strong_induction_on generalizing data idx with
  | _ d ih =>
    rw [pqSiftDownLoop]
    split
    · rfl
    · rename_i hne
      have hlt := pqSmallest_lt hlen hidx hne
      rw [ih _ (by omega) hlt.2 rfl, pqSwap_eq]
      exact Heap.bag_exchange hidx hlt.2

/-- Sifting down restores the order from `lo` on. -/
theorem orderedFrom_pqSiftDownLoop (hcmp : cmp.TotalPreorder ctx) {data : Nat → α} {idx : Nat}
    (hidx : idx < len) (hlo : lo ≤ idx) (h : Heap.Sinking (cmp.Le ctx) len lo data idx) :
    Heap.OrderedFrom (cmp.Le ctx) len lo (pqSiftDownLoop cmp ctx len hlen data idx hidx) := by
  induction hd : len - idx using Nat.strong_induction_on generalizing data idx with
  | _ d ih =>
    obtain ⟨hm, hle, hmin⟩ := pqSmallest_spec hcmp hlen data hidx
    rw [pqSiftDownLoop]
    split
    · rename_i heq
      apply h.orderedFrom
      intro i hi hp hpi
      have hmi := hmin i hi hp hpi
      rwa [heq] at hmi
    · rename_i hne
      have hlt := pqSmallest_lt hlen hidx hne
      obtain ⟨hm0, hml, hmp⟩ := hm.resolve_left hne
      have hex := h.exchange hlo hm0 hml hmp hle hmin
      rw [← pqSwap_eq] at hex
      exact ih _ (by omega) hlt.2 (by omega) hex rfl

end SiftDown

/-- The live elements. -/
def PriorityQueue.elements (pq : PriorityQueue α Ctx) : Multiset α := Heap.bag pq.len pq.data

/-- A queue of the given configuration whose live elements form a heap. -/
structure PriorityQueue.Heaped (cmp : AlgoCmpFn α Ctx) (ctx : Ctx) (capacity : Nat)
    (pq : PriorityQueue α Ctx) : Prop where
  /-- The comparator is the one given to `pq_init`. -/
  cmp_eq : pq.cmp = cmp
  /-- The context is the one given to `pq_init`. -/
  ctx_eq : pq.ctx = ctx
  /-- The capacity is the one given to `pq_init`. -/
  capacity_eq : pq.capacity = capacity
  /-- The capacity is positive. -/
  capacity_pos : 0 < capacity
  /-- No live element is before its parent. -/
  ordered : Heap.Ordered (cmp.Le ctx) pq.len pq.data

/-- What a call does to a bag of at most `capacity` elements. -/
def bagSpec (cmp : AlgoCmpFn α Ctx) (ctx : Ctx) (capacity : Nat) (b : Multiset α) :
    PqOp α → PqOut α → Multiset α → Prop
  | .push none, out, b' => out = .pushed (.error .invalidArg) ∧ b' = b
  | .push (some x), out, b' =>
    if b.card < capacity then out = .pushed (.ok true) ∧ b' = x ::ₘ b
    else out = .pushed (.error .capacityExceeded) ∧ b' = b
  | .pop wanted, out, b' =>
    if b.card = 0 then out = .popped false none ∧ b' = b
    else ∃ x, b = x ::ₘ b' ∧ (∀ y ∈ b, ¬ cmp y x ctx < 0) ∧
      out = .popped true (if wanted then some x else none)
  | .peek, out, b' =>
    b' = b ∧ if b.card = 0 then out = .peeked none
      else ∃ x ∈ b, (∀ y ∈ b, ¬ cmp y x ctx < 0) ∧ out = .peeked (some x)
  | .removeAt i, out, b' =>
    if i < b.card then out = .removed (.ok true) ∧ ∃ x, b = x ::ₘ b'
    else out = .removed (.error .outOfRange) ∧ b' = b
  | .heapify filled len, out, b' =>
    out = .heapified ∧ b'.card = min len capacity ∧
      ∀ contents, filled = some contents → b' = Heap.bag (min len capacity) contents

namespace PriorityQueue.Heaped

variable {capacity : Nat} {pq : PriorityQueue α Ctx}

/-- The root is an element that no element is before. -/
theorem root_least (h : pq.Heaped cmp ctx capacity) (hcmp : cmp.TotalPreorder ctx) :
    ∀ y ∈ pq.elements, ¬ cmp y (pq.data 0) ctx < 0 := by
  intro y hy
  obtain ⟨i, hi, rfl⟩ := Heap.mem_bag.mp hy
  rw [hcmp.lt_iff_not_le, not_not]
  exact h.ordered.root_le hcmp.le_refl hcmp.le_trans hi

/-- A push below capacity adds the element. -/
theorem push (h : pq.Heaped cmp ctx capacity) (hcmp : cmp.TotalPreorder ctx) (x : α)
    (hlen : pq.len < capacity) :
    (pqPushResult pq (some x)).2 = .ok true ∧
      (pqPushResult pq (some x)).1.Heaped cmp ctx capacity ∧
      (pqPushResult pq (some x)).1.elements = x ::ₘ pq.elements := by
  obtain rfl := h.cmp_eq
  obtain rfl := h.ctx_eq
  obtain rfl := h.capacity_eq
  rw [pqPushResult, dif_neg (Nat.not_le.mpr hlen)]
  refine ⟨rfl, ⟨rfl, rfl, rfl, h.capacity_pos, ?_⟩, ?_⟩
  · exact ordered_pqSiftUpLoop hcmp (Nat.lt_succ_self _) (h.ordered.rising_push x)
  · exact (bag_pqSiftUpLoop (Nat.lt_succ_self _)).trans (Heap.bag_push x)

/-- A push at capacity changes nothing. -/
theorem push_full (h : pq.Heaped cmp ctx capacity) (x : α) (hlen : capacity ≤ pq.len) :
    pqPushResult pq (some x) = (pq, .error .capacityExceeded) := by
  rw [pqPushResult, dif_pos (by rw [h.capacity_eq]; exact hlen)]

/-- A pop takes out the root. -/
theorem pop (h : pq.Heaped cmp ctx capacity) (hcmp : cmp.TotalPreorder ctx) (wanted : Bool)
    (hlen : 0 < pq.len) :
    (pqPopRaw pq wanted).2 = (true, if wanted then some (pq.data 0) else none) ∧
      (pqPopRaw pq wanted).1.Heaped cmp ctx capacity ∧
      pq.elements = pq.data 0 ::ₘ (pqPopRaw pq wanted).1.elements := by
  obtain rfl := h.cmp_eq
  obtain rfl := h.ctx_eq
  obtain rfl := h.capacity_eq
  obtain ⟨m, hm⟩ : ∃ m, pq.len = m + 1 := ⟨pq.len - 1, by omega⟩
  have ho := h.ordered
  rw [hm] at ho
  rw [pqPopRaw, if_neg (by omega)]
  simp only
  split
  · rename_i hpos
    have hpos' : 0 < pq.len - 1 := hpos
    refine ⟨rfl, ⟨rfl, rfl, rfl, h.capacity_pos, ?_⟩, ?_⟩
    · rw [← Heap.orderedFrom_zero]
      refine orderedFrom_pqSiftDownLoop hcmp hpos (Nat.le_refl 0) ?_
      have hhole := ho.hole_update hcmp.le_trans (show 0 < m by omega) (pq.data (pq.len - 1))
      have hsink := hhole.sinking fun h0 => absurd h0 (Nat.lt_irrefl 0)
      rwa [show m = pq.len - 1 by omega] at hsink
    · have hfill := Heap.bag_fill (a := pq.data) (show 0 < m by omega)
      rw [← hm, show m = pq.len - 1 by omega] at hfill
      exact hfill.trans (congrArg _ (bag_pqSiftDownLoop hpos).symm)
  · rename_i hpos
    have hone : pq.len = 1 := by
      have hzero : ¬ 0 < pq.len - 1 := hpos
      omega
    refine ⟨rfl, ⟨rfl, rfl, rfl, h.capacity_pos, fun i hi => ?_⟩, ?_⟩
    · have hi' : i < pq.len - 1 := hi
      omega
    · simp only [PriorityQueue.elements, hone]
      exact Heap.bag_succ

/-- A pop from an empty queue changes nothing. -/
theorem pop_empty (wanted : Bool) (hlen : pq.len = 0) :
    pqPopRaw pq wanted = (pq, false, none) := by
  rw [pqPopRaw, if_pos hlen]

/-- A removal takes out the element of slot `i`. -/
theorem removeAt (h : pq.Heaped cmp ctx capacity) (hcmp : cmp.TotalPreorder ctx) {i : Nat}
    (hi : i < pq.len) :
    (pqRemoveAtResult pq i).2 = .ok true ∧
      (pqRemoveAtResult pq i).1.Heaped cmp ctx capacity ∧
      pq.elements = pq.data i ::ₘ (pqRemoveAtResult pq i).1.elements := by
  obtain rfl := h.cmp_eq
  obtain rfl := h.ctx_eq
  obtain rfl := h.capacity_eq
  obtain ⟨m, hm⟩ : ∃ m, pq.len = m + 1 := ⟨pq.len - 1, by omega⟩
  have hm' : pq.len - 1 = m := by omega
  have ho := h.ordered
  rw [hm] at ho
  rw [pqRemoveAtResult, dif_neg (Nat.not_le.mpr hi)]
  simp only
  split
  · rename_i heq
    refine ⟨rfl, ⟨rfl, rfl, rfl, h.capacity_pos, fun j hj hp => ?_⟩, ?_⟩
    · exact h.ordered j (Nat.lt_of_lt_of_le hj (Nat.sub_le _ _)) hp
    · simp only [PriorityQueue.elements, heq, hm]
      exact Heap.bag_succ
  · rename_i hne
    have hlt : i < pq.len - 1 := by
      have hne' : ¬ i = pq.len - 1 := hne
      omega
    refine ⟨rfl, ⟨rfl, rfl, rfl, h.capacity_pos, ?_⟩, ?_⟩
    · rw [← Heap.orderedFrom_zero]
      refine orderedFrom_pqSiftDownLoop hcmp hlt (Nat.zero_le i) ?_
      have hhole := ho.hole_update hcmp.le_trans (show i < m by omega) (pq.data (pq.len - 1))
      rw [← hm'] at hhole
      exact sinking_pqSiftUpLoop hcmp hlt hhole
    · have hfill := Heap.bag_fill (a := pq.data) (show i < m by omega)
      rw [← hm, ← hm'] at hfill
      exact hfill.trans (congrArg _
        ((bag_pqSiftDownLoop hlt).trans (bag_pqSiftUpLoop hlt)).symm)

/-- A removal past the end changes nothing. -/
theorem removeAt_outOfRange {i : Nat} (hi : pq.len ≤ i) :
    pqRemoveAtResult pq i = (pq, .error .outOfRange) := by
  rw [pqRemoveAtResult, dif_pos hi]

/-- Sifting every parent down, from the last one to the root, makes a heap. -/
private theorem heapifyLoop (hcmp : cmp.TotalPreorder ctx) (hcap : 0 < capacity) {i : Nat} :
    ∀ (pq : PriorityQueue α Ctx) (hi : i ≤ pq.len), pq.cmp = cmp → pq.ctx = ctx →
      pq.capacity = capacity → Heap.OrderedFrom (cmp.Le ctx) pq.len i pq.data →
      (pqHeapifyLoop pq i hi).Heaped cmp ctx capacity ∧
        (pqHeapifyLoop pq i hi).elements = pq.elements := by
  induction i with
  | zero =>
    intro pq hi hc hx hk ho
    exact ⟨⟨hc, hx, hk, hcap, Heap.orderedFrom_zero.mp ho⟩, rfl⟩
  | succ i ih =>
    intro pq hi hc hx hk ho
    subst hc hx hk
    have hdown : Heap.OrderedFrom (pq.cmp.Le pq.ctx) (pqSiftDown pq i hi).len i
        (pqSiftDown pq i hi).data :=
      orderedFrom_pqSiftDownLoop hcmp hi (Nat.le_refl i) ho.sinking
    obtain ⟨hheap, hbag⟩ := ih (pqSiftDown pq i hi) (Nat.le_of_succ_le hi) rfl rfl rfl hdown
    exact ⟨hheap, hbag.trans (bag_pqSiftDownLoop hi)⟩

/-- Heapifying makes a heap of the first slots of the buffer. -/
theorem heapify (pq : PriorityQueue α Ctx) (hcmp : cmp.TotalPreorder ctx) (hc : pq.cmp = cmp)
    (hx : pq.ctx = ctx) (hk : pq.capacity = capacity) (hcap : 0 < capacity) (len : Nat) :
    ∃ pq', pqHeapify pq len = .ok pq' ∧ pq'.Heaped cmp ctx capacity ∧
      pq'.elements = Heap.bag (min len capacity) pq.data := by
  subst hc hx hk
  have hmin : (if len > pq.capacity then pq.capacity else len) = min len pq.capacity := by
    split <;> omega
  have hmc : min len pq.capacity ≤ pq.capacity := by omega
  by_cases hlen : len = 0
  · refine ⟨{ pq with len := 0, len_le := Nat.zero_le _ }, ?_,
      ⟨rfl, rfl, rfl, hcap, fun i hi => absurd hi (Nat.not_lt_zero i)⟩, ?_⟩
    · simp only [pqHeapify, decide_eq_true hcap, requireMsg_true, hlen, if_true]
      rfl
    · rw [hlen, Nat.zero_min]
      rfl
  · by_cases h2 : 2 ≤ min len pq.capacity
    · have hi : Heap.parent (min len pq.capacity - 1) + 1 ≤ min len pq.capacity := by
        unfold Heap.parent
        omega
      obtain ⟨hheap, hbag⟩ := heapifyLoop hcmp hcap
        { pq with len := min len pq.capacity, len_le := hmc } hi rfl rfl rfl
        Heap.orderedFrom_last
      refine ⟨_, ?_, hheap, hbag⟩
      simp only [pqHeapify, decide_eq_true hcap, requireMsg_true, hlen, if_false, hmin, dif_pos h2]
      rfl
    · refine ⟨{ pq with len := min len pq.capacity, len_le := hmc }, ?_,
        ⟨rfl, rfl, rfl, hcap, fun i hi hp => ?_⟩, rfl⟩
      · simp only [pqHeapify, decide_eq_true hcap, requireMsg_true, hlen, if_false, hmin,
          dif_neg h2]
        rfl
      · simp only at hi
        omega

/-- Every call keeps the heap and does to the bag what the specification says. -/
theorem step (h : pq.Heaped cmp ctx capacity) (hcmp : cmp.TotalPreorder ctx) (op : PqOp α) :
    ∃ out pq', pqStep pq op = .ok (out, pq') ∧ pq'.Heaped cmp ctx capacity ∧
      bagSpec cmp ctx capacity pq.elements op out pq'.elements := by
  have hcard : pq.elements.card = pq.len := Heap.card_bag
  cases op with
  | push elem =>
    refine ⟨_, _, rfl, ?_⟩
    cases elem with
    | none => exact ⟨h, rfl, rfl⟩
    | some x =>
      by_cases hlen : pq.len < capacity
      · obtain ⟨hout, hheap, hbag⟩ := h.push hcmp x hlen
        refine ⟨hheap, ?_⟩
        simp only [bagSpec, hcard, if_pos hlen]
        exact ⟨congrArg _ hout, hbag⟩
      · rw [h.push_full x (by omega)]
        refine ⟨h, ?_⟩
        simp only [bagSpec, hcard, if_neg hlen]
        exact ⟨trivial, trivial⟩
  | pop wanted =>
    refine ⟨_, _, rfl, ?_⟩
    by_cases hlen : pq.len = 0
    · rw [pop_empty wanted hlen]
      refine ⟨h, ?_⟩
      simp only [bagSpec, hcard, if_pos hlen]
      exact ⟨trivial, trivial⟩
    · obtain ⟨hout, hheap, hbag⟩ := h.pop hcmp wanted (by omega)
      refine ⟨hheap, ?_⟩
      simp only [bagSpec, hcard, if_neg hlen]
      exact ⟨pq.data 0, hbag, h.root_least hcmp, by rw [hout]⟩
  | peek =>
    refine ⟨_, _, rfl, h, rfl, ?_⟩
    by_cases hlen : pq.len = 0
    · simp only [hcard, if_pos hlen, pqPeekRaw]
    · simp only [hcard, if_neg hlen, pqPeekRaw]
      exact ⟨pq.data 0, Heap.mem_bag.mpr ⟨0, by omega, rfl⟩, h.root_least hcmp, rfl⟩
  | removeAt i =>
    refine ⟨_, _, rfl, ?_⟩
    by_cases hi : i < pq.len
    · obtain ⟨hout, hheap, hbag⟩ := h.removeAt hcmp hi
      refine ⟨hheap, ?_⟩
      simp only [bagSpec, hcard, if_pos hi]
      exact ⟨congrArg _ hout, pq.data i, hbag⟩
    · rw [removeAt_outOfRange (by omega)]
      refine ⟨h, ?_⟩
      simp only [bagSpec, hcard, if_neg hi]
      exact ⟨trivial, trivial⟩
  | heapify filled len =>
    obtain ⟨pq', hok, hheap, hbag⟩ := heapify { pq with data := filled.getD pq.data }
      hcmp h.cmp_eq h.ctx_eq h.capacity_eq h.capacity_pos len
    refine ⟨.heapified, pq', ?_, hheap, rfl, ?_, ?_⟩
    · simp only [pqStep, hok]
      rfl
    · rw [hbag, Heap.card_bag]
    · rintro contents rfl
      exact hbag

end PriorityQueue.Heaped

/-- `pq_init` leaves an empty heap. -/
theorem pqInit_heaped {buffer : Option (Nat → α)} {capacity elemSize : Nat}
    {hcap : capacity ≤ pqMaxCapacity} {pq : PriorityQueue α Ctx}
    (h : pqInit buffer capacity elemSize (some cmp) ctx hcap = .ok pq) :
    pq.Heaped cmp ctx capacity ∧ pq.elements = 0 := by
  cases buffer with
  | none => cases h
  | some data =>
    by_cases hpos : 0 < capacity
    · by_cases hsize : 0 < elemSize
      · simp only [pqInit, decide_eq_true hpos, decide_eq_true hsize, requireMsg_true] at h
        obtain rfl := Except.ok.inj h
        exact ⟨⟨rfl, rfl, rfl, hpos, fun i hi => absurd hi (Nat.not_lt_zero i)⟩, rfl⟩
      · simp only [pqInit, decide_eq_true hpos, decide_eq_false hsize, requireMsg_true,
          requireMsg_false] at h
        cases h
    · simp only [pqInit, decide_eq_false hpos, requireMsg_false] at h
      cases h

/-- The priority queue refines a bag. Every sequence of calls from `pq_init` completes
and is a run of the bag. In every state reached no live element is before its parent,
a removal takes out exactly the element of its slot, a heapify takes in exactly the
first slots of the buffer, and a call that fails leaves the queue as it is. -/
theorem pq_refines_bag (hcmp : cmp.TotalPreorder ctx) {buffer : Option (Nat → α)}
    {capacity elemSize : Nat} (hcap : capacity ≤ pqMaxCapacity) {pq₀ : PriorityQueue α Ctx}
    (hinit : pqInit buffer capacity elemSize (some cmp) ctx hcap = .ok pq₀)
    (ops : List (PqOp α)) :
    ∃ outs pq, run pqStep pq₀ ops = .ok (outs, pq) ∧
      Trace (bagSpec cmp ctx capacity) 0 ops outs pq.elements ∧
      (∀ i < pq.len, 0 < i → ¬ cmp (pq.data i) (pq.data ((i - 1) / 2)) ctx < 0) ∧
      (∀ i < pq.len, pq.elements = pq.data i ::ₘ (pqRemoveAtResult pq i).1.elements) ∧
      (∀ len, ∃ pq', pqHeapify pq len = .ok pq' ∧
        pq'.elements = (Multiset.range (min len capacity)).map pq.data) ∧
      (∀ x, capacity ≤ pq.len → pqPushResult pq (some x) = (pq, .error .capacityExceeded)) ∧
      (∀ wanted, pq.len = 0 → pqPopRaw pq wanted = (pq, false, none)) ∧
      (∀ i, pq.len ≤ i → pqRemoveAtResult pq i = (pq, .error .outOfRange)) := by
  obtain ⟨hheap₀, hbag₀⟩ := pqInit_heaped hinit
  have hstep : ∀ (pq : PriorityQueue α Ctx) op, pq.Heaped cmp ctx capacity →
      ∃ out pq', pqStep pq op = .ok (out, pq') ∧ pq'.Heaped cmp ctx capacity := by
    intro pq op h
    obtain ⟨out, pq', hs, h', -⟩ := h.step hcmp op
    exact ⟨out, pq', hs, h'⟩
  have hsim : ∀ (pq : PriorityQueue α Ctx) b op out pq',
      pq.Heaped cmp ctx capacity ∧ pq.elements = b → pqStep pq op = .ok (out, pq') →
      ∃ b', bagSpec cmp ctx capacity b op out b' ∧
        pq'.Heaped cmp ctx capacity ∧ pq'.elements = b' := by
    rintro pq b op out pq' ⟨h, rfl⟩ hs
    obtain ⟨out', pq'', hs', h', hspec⟩ := h.step hcmp op
    rw [hs] at hs'
    obtain ⟨rfl, rfl⟩ := Prod.mk.inj (Except.ok.inj hs')
    exact ⟨_, hspec, h', rfl⟩
  obtain ⟨outs, pq, hrun, -⟩ := run_total hstep ops hheap₀
  obtain ⟨b, htrace, h, rfl⟩ := run_simulates hsim ⟨hheap₀, hbag₀⟩ hrun
  refine ⟨outs, pq, hrun, htrace, fun i hi hp => ?_, fun i hi => (h.removeAt hcmp hi).2.2,
    fun len => ?_, h.push_full, PriorityQueue.Heaped.pop_empty,
    fun i hi => PriorityQueue.Heaped.removeAt_outOfRange hi⟩
  · rw [hcmp.lt_iff_not_le, not_not]
    exact h.ordered i hi hp
  · obtain ⟨pq', hok, -, hbag⟩ := PriorityQueue.Heaped.heapify pq hcmp h.cmp_eq h.ctx_eq
      h.capacity_eq h.capacity_pos len
    exact ⟨pq', hok, hbag⟩

/-- Three pushes, a removal from the middle and a pop. -/
theorem pq_refines_bag_three : ∃ outs pq,
    run pqStep ⟨fun _ => (0 : Int), 0, 4, algoCmp, (), by decide, by decide⟩
        [.push (some 7), .push (some 2), .push (some 5), .removeAt 1, .pop true] =
          .ok (outs, pq) ∧
      Trace (bagSpec algoCmp () 4) 0
        [.push (some 7), .push (some 2), .push (some 5), .removeAt 1, .pop true] outs
        pq.elements := by
  have hinit : pqInit (some fun _ => (0 : Int)) 4 8 (some algoCmp) () (by decide) =
      .ok ⟨fun _ => 0, 0, 4, algoCmp, (), by decide, by decide⟩ := rfl
  obtain ⟨outs, pq, hrun, htrace, -⟩ := pq_refines_bag algoCmp_totalPreorder
    (show 4 ≤ pqMaxCapacity by decide) hinit
    [.push (some 7), .push (some 2), .push (some 5), .removeAt 1, .pop true]
  exact ⟨outs, pq, hrun, htrace⟩

end CanonC
