import CanonC.Data.Deque.Model
import CanonC.Toolkit.Ring
import CanonC.Toolkit.Run

/-!
# The deque is a bounded list

The elements are the window of `size` cells from `head` on, and `tail` is the position
right behind it. Each call acts on this window as it should on the list.
-/

namespace CanonC

open Toolkit Toolkit.Cyclic

variable {α : Type*} {d d' : Deque α} {capacity : Nat} {xs : List α} {item : α}

/-- Add an element at an end of a list. -/
@[simp] def DequeEnd.insert : DequeEnd → α → List α → List α
  | .front, item, xs => item :: xs
  | .back, item, xs => xs ++ [item]

/-- The element at an end of a list. -/
@[simp] def DequeEnd.peek : DequeEnd → List α → Option α
  | .front, xs => xs.head?
  | .back, xs => xs.getLast?

/-- Drop the element at an end of a list. -/
@[simp] def DequeEnd.rest : DequeEnd → List α → List α
  | .front, xs => xs.tail
  | .back, xs => xs.dropLast

/-- The calls on a list of at most `capacity` elements; a failure marks a call that
breaks the contract. -/
def dequeSpec (capacity : Nat) (xs : List α) :
    DequeOp α → Except Unit (DequeOut α × List α)
  | .push side item =>
    if xs.length < capacity then .ok (.result (.ok true) none, side.insert item xs)
    else .ok (.result (.error .capacityExceeded) none, xs)
  | .tryPush side item =>
    if xs.length < capacity then .ok (.flag true none, side.insert item xs)
    else .ok (.flag false none, xs)
  | .pushUnchecked side item =>
    if xs.length < capacity then .ok (.done, side.insert item xs) else .error ()
  | .pop side out =>
    if out then
      match side.peek xs with
      | some x => .ok (.result (.ok true) (some x), side.rest xs)
      | none => .ok (.result (.error .invalidState) none, xs)
    else .ok (.result (.error .invalidArg) none, xs)
  | .popOption side => .ok (.option (side.peek xs), side.rest xs)
  | .peek side out =>
    if out then .ok (.flag (side.peek xs).isSome (side.peek xs), xs) else .error ()
  | .peekOption side => .ok (.option (side.peek xs), xs)
  | .clear => .ok (.done, [])

/-- The deque holds the elements `xs` in a ring of `capacity` slots. -/
structure Deque.Holds (capacity : Nat) (d : Deque α) (xs : List α) : Prop where
  /-- The elements lie in the window of `size` cells from `head` on. -/
  contents : ∃ buffer, d.buffer = some buffer ∧ window capacity buffer d.head d.size = xs
  /-- The ring has the capacity of the deque. -/
  capacity_eq : d.capacity = capacity
  /-- The capacity is a `usize`. -/
  capacity_lt : capacity < usizeSize
  /-- The head is a slot. -/
  head_lt : d.head < capacity
  /-- The elements fit. -/
  size_le : d.size ≤ capacity
  /-- The tail is the position behind the last element. -/
  tail_eq : d.tail = (d.head + d.size) % capacity

namespace Deque.Holds

/-- The size counts the list. -/
theorem length_eq (h : d.Holds capacity xs) : xs.length = d.size := by
  obtain ⟨buffer, -, rfl⟩ := h.contents
  exact length_window

/-- The tail is an index of a slot. -/
theorem tail_lt (h : d.Holds capacity xs) : d.tail < capacity := by
  have hlt := h.head_lt
  rw [h.tail_eq]
  exact Nat.mod_lt _ (by omega)

/-- The step forward of `tail` and `head`. -/
theorem usizeAdd_mod {i : Nat} (h : d.Holds capacity xs) (hi : i < capacity) :
    usizeAdd i 1 % d.capacity = next capacity i := by
  have hc := h.capacity_lt
  rw [h.capacity_eq, usizeAdd_of_lt (by omega), next]

/-- The step back of `tail` and `head`. -/
theorem ite_sub {i : Nat} (h : d.Holds capacity xs) (hi : i < capacity) :
    (if i = 0 then d.capacity - 1 else i - 1) = prev capacity i := by
  rw [h.capacity_eq]
  rcases prev_cases hi with ⟨rfl, hp⟩ | ⟨hpos, hp⟩
  · rw [if_pos rfl, hp]
  · rw [if_neg (Nat.ne_of_gt hpos), hp]

/-- On a deque that is not full the three tiers put the element in front alike. -/
theorem push_front (h : d.Holds capacity xs) (hlt : xs.length < capacity) (item : α) :
    ∃ d', d'.Holds capacity (item :: xs) ∧ dequePushFront d item = (d', .ok true) ∧
      dequeTryPushFront d item = (d', true) ∧
      ∀ fn, dequePushFrontUnchecked fn d item = .ok d' := by
  obtain ⟨buffer, hb, hwin⟩ := h.contents
  rw [h.length_eq] at hlt
  have hfull : ¬ d.size ≥ d.capacity := by
    rw [h.capacity_eq]
    omega
  have hsize : d.size < d.capacity := by omega
  have hprev := h.ite_sub h.head_lt
  refine ⟨{ d with
    buffer := some (Function.update buffer (prev capacity d.head) item)
    head := prev capacity d.head
    size := d.size + 1 }, ⟨⟨_, rfl, ?_⟩, h.capacity_eq, h.capacity_lt, prev_lt h.head_lt, hlt, ?_⟩,
    ?_, ?_, ?_⟩
  · rw [window_push_front h.head_lt hlt, hwin]
  · have hnext := next_prev h.head_lt
    rw [next] at hnext
    calc d.tail
        = (d.head + d.size) % capacity := h.tail_eq
      _ = ((prev capacity d.head + 1) % capacity + d.size) % capacity := by rw [hnext]
      _ = (prev capacity d.head + (d.size + 1)) % capacity := by
        rw [Nat.mod_add_mod, Nat.add_assoc, Nat.add_comm 1]
  · simp only [dequePushFront, hb, hfull, if_false, hprev]
  · simp only [dequeTryPushFront, hb, hfull, if_false, hprev]
  · intro fn
    simp only [dequePushFrontUnchecked, hb, hsize, decide_true, requireMsg_true, ok_bind, hprev]

/-- On a deque that is not full the three tiers put the element at the back alike. -/
theorem push_back (h : d.Holds capacity xs) (hlt : xs.length < capacity) (item : α) :
    ∃ d', d'.Holds capacity (xs ++ [item]) ∧ dequePushBack d item = (d', .ok true) ∧
      dequeTryPushBack d item = (d', true) ∧
      ∀ fn, dequePushBackUnchecked fn d item = .ok d' := by
  obtain ⟨buffer, hb, hwin⟩ := h.contents
  rw [h.length_eq] at hlt
  have hfull : ¬ d.size ≥ d.capacity := by
    rw [h.capacity_eq]
    omega
  have hsize : d.size < d.capacity := by omega
  have hnext := h.usizeAdd_mod h.tail_lt
  refine ⟨{ d with
    buffer := some (Function.update buffer d.tail item)
    tail := next capacity d.tail
    size := d.size + 1 }, ⟨⟨_, rfl, ?_⟩, h.capacity_eq, h.capacity_lt, h.head_lt, hlt, ?_⟩,
    ?_, ?_, ?_⟩
  · rw [h.tail_eq, window_push_back h.head_lt hlt, hwin]
  · rw [h.tail_eq, next_add]
  · simp only [dequePushBack, hb, hfull, if_false, hnext]
  · simp only [dequeTryPushBack, hb, hfull, if_false, hnext]
  · intro fn
    simp only [dequePushBackUnchecked, hb, hsize, decide_true, requireMsg_true, ok_bind, hnext]

/-- A nonempty deque gives its first element and keeps the rest. -/
theorem pop_front {x : α} (h : d.Holds capacity (x :: xs)) :
    ∃ d', d'.Holds capacity xs ∧ dequePopFront d true = (d', .ok true, some x) ∧
      ∀ fn, dequePeekFront fn d true = .ok (true, some x) := by
  obtain ⟨buffer, hb, hwin⟩ := h.contents
  have hlen := h.length_eq
  rw [List.length_cons] at hlen
  have hne : d.size ≠ 0 := by omega
  have hle := h.size_le
  rw [← hlen, window_succ, List.cons.injEq] at hwin
  obtain ⟨hx, hwin⟩ := hwin
  have hnext := h.usizeAdd_mod h.head_lt
  refine ⟨{ d with head := next capacity d.head, size := d.size - 1 },
    ⟨⟨buffer, hb, ?_⟩, h.capacity_eq, h.capacity_lt, next_lt h.head_lt, ?_, ?_⟩, ?_, ?_⟩
  · simp only
    rw [← hlen, Nat.add_sub_cancel, hwin]
  · simp only
    omega
  · simp only
    rw [h.tail_eq, next, Nat.mod_add_mod]
    congr 1
    omega
  · simp only [dequePopFront, Bool.not_true, Bool.false_eq_true, if_false, hb, hne, hnext, hx]
  · intro fn
    simp only [dequePeekFront, requireMsg_true, ok_bind, hne, if_false, hb, hx]

/-- A nonempty deque gives its last element and keeps the rest. -/
theorem pop_back {x : α} (h : d.Holds capacity (xs ++ [x])) :
    ∃ d', d'.Holds capacity xs ∧ dequePopBack d true = (d', .ok true, some x) ∧
      ∀ fn, dequePeekBack fn d true = .ok (true, some x) := by
  obtain ⟨buffer, hb, hwin⟩ := h.contents
  have hlen := h.length_eq
  rw [List.length_append, List.length_singleton] at hlen
  have hne : d.size ≠ 0 := by omega
  have hle := h.size_le
  have hhead := h.head_lt
  have htail : prev capacity d.tail = (d.head + xs.length) % capacity := by
    rw [h.tail_eq, ← hlen, prev_add (by omega)]
  rw [← hlen, window_concat hhead, ← htail] at hwin
  obtain ⟨hwin, hx⟩ := List.append_inj' hwin rfl
  rw [List.cons.injEq] at hx
  have hprev := h.ite_sub h.tail_lt
  refine ⟨{ d with tail := prev capacity d.tail, size := d.size - 1 },
    ⟨⟨buffer, hb, ?_⟩, h.capacity_eq, h.capacity_lt, hhead, ?_, ?_⟩, ?_, ?_⟩
  · simp only
    rw [← hlen, Nat.add_sub_cancel, hwin]
  · simp only
    omega
  · simp only
    rw [htail, ← hlen, Nat.add_sub_cancel]
  · simp only [dequePopBack, Bool.not_true, Bool.false_eq_true, if_false, hb, hne, hprev, hx.1]
  · intro fn
    simp only [dequePeekBack, requireMsg_true, ok_bind, hne, if_false, hb, hprev, hx.1]

/-- On a full deque every push is refused and changes nothing. -/
theorem push_full (h : d.Holds capacity xs) (hfull : ¬ xs.length < capacity) (item : α) :
    dequePushFront d item = (d, .error .capacityExceeded) ∧
      dequePushBack d item = (d, .error .capacityExceeded) ∧
      dequeTryPushFront d item = (d, false) ∧ dequeTryPushBack d item = (d, false) ∧
      ∀ fn, dequePushFrontUnchecked fn d item = .error (fn ++ ": deque is full") ∧
        dequePushBackUnchecked fn d item = .error (fn ++ ": deque is full") := by
  obtain ⟨buffer, hb, -⟩ := h.contents
  rw [h.length_eq, ← h.capacity_eq] at hfull
  have hge : d.size ≥ d.capacity := Nat.le_of_not_lt hfull
  simp [dequePushFront, dequePushBack, dequeTryPushFront, dequeTryPushBack,
    dequePushFrontUnchecked, dequePushBackUnchecked, hb, hge, hfull]

/-- On an empty deque nothing is popped and nothing is seen. -/
theorem pop_empty (h : d.Holds capacity ([] : List α)) :
    dequePopFront d true = (d, .error .invalidState, none) ∧
      dequePopBack d true = (d, .error .invalidState, none) ∧
      ∀ fn, dequePeekFront fn d true = .ok (false, none) ∧
        dequePeekBack fn d true = .ok (false, none) := by
  obtain ⟨buffer, hb, -⟩ := h.contents
  have hempty : d.size = 0 := h.length_eq.symm
  simp [dequePopFront, dequePopBack, dequePeekFront, dequePeekBack, hb, hempty]

/-- A cleared deque is empty. -/
theorem clear (h : d.Holds capacity xs) : (dequeClear d).Holds capacity [] := by
  obtain ⟨buffer, hb, -⟩ := h.contents
  have hlt := h.head_lt
  exact ⟨⟨buffer, hb, rfl⟩, h.capacity_eq, h.capacity_lt, Nat.zero_lt_of_lt hlt, Nat.zero_le _,
    (Nat.zero_mod _).symm⟩

end Deque.Holds

section Agreement

variable {mangle : String → String} {side : DequeEnd}

private theorem push_agree (h : d.Holds capacity xs) :
    Agree (Deque.Holds capacity) (dequeStep mangle d (.push side item))
        (dequeSpec capacity xs (.push side item)) ∧
      Agree (Deque.Holds capacity) (dequeStep mangle d (.tryPush side item))
        (dequeSpec capacity xs (.tryPush side item)) ∧
      Agree (Deque.Holds capacity) (dequeStep mangle d (.pushUnchecked side item))
        (dequeSpec capacity xs (.pushUnchecked side item)) := by
  by_cases hlt : xs.length < capacity
  · cases side with
    | front =>
      obtain ⟨d', hd', hpush, htry, hu⟩ := h.push_front hlt item
      simp [dequeStep, dequeSpec, hpush, htry, hu, hlt, Agree, hd']
    | back =>
      obtain ⟨d', hd', hpush, htry, hu⟩ := h.push_back hlt item
      simp [dequeStep, dequeSpec, hpush, htry, hu, hlt, Agree, hd']
  · obtain ⟨hf, hb, htf, htb, hu⟩ := h.push_full hlt item
    cases side with
    | front => simp [dequeStep, dequeSpec, hf, htf, hu, hlt, Agree, h]
    | back => simp [dequeStep, dequeSpec, hb, htb, hu, hlt, Agree, h]

private theorem pop_agree (h : d.Holds capacity xs) :
    Agree (Deque.Holds capacity) (dequeStep mangle d (.pop side true))
        (dequeSpec capacity xs (.pop side true)) ∧
      Agree (Deque.Holds capacity) (dequeStep mangle d (.popOption side))
        (dequeSpec capacity xs (.popOption side)) := by
  cases side with
  | front =>
    cases xs with
    | nil =>
      have hpop := h.pop_empty.1
      simp [dequeStep, dequeSpec, dequePopFrontOption, hpop, Except.isOk, Except.toBool, Agree, h]
    | cons x xs =>
      obtain ⟨d', hd', hpop, -⟩ := h.pop_front
      simp [dequeStep, dequeSpec, dequePopFrontOption, hpop, Except.isOk, Except.toBool, Agree,
        hd']
  | back =>
    rcases List.eq_nil_or_concat' xs with rfl | ⟨ys, x, rfl⟩
    · have hpop := h.pop_empty.2.1
      simp [dequeStep, dequeSpec, dequePopBackOption, hpop, Except.isOk, Except.toBool, Agree, h]
    · obtain ⟨d', hd', hpop, -⟩ := h.pop_back
      simp [dequeStep, dequeSpec, dequePopBackOption, hpop, Except.isOk, Except.toBool, Agree, hd']

private theorem peek_agree (h : d.Holds capacity xs) :
    Agree (Deque.Holds capacity) (dequeStep mangle d (.peek side true))
        (dequeSpec capacity xs (.peek side true)) ∧
      Agree (Deque.Holds capacity) (dequeStep mangle d (.peekOption side))
        (dequeSpec capacity xs (.peekOption side)) := by
  cases side with
  | front =>
    cases xs with
    | nil =>
      have hpeek := fun fn => (h.pop_empty.2.2 fn).1
      simp [dequeStep, dequeSpec, dequePeekFrontOption, hpeek, Agree, h]
    | cons x xs =>
      obtain ⟨-, -, -, hpeek⟩ := h.pop_front
      simp [dequeStep, dequeSpec, dequePeekFrontOption, hpeek, Agree, h]
  | back =>
    rcases List.eq_nil_or_concat' xs with rfl | ⟨ys, x, rfl⟩
    · have hpeek := fun fn => (h.pop_empty.2.2 fn).2
      simp [dequeStep, dequeSpec, dequePeekBackOption, hpeek, Agree, h]
    · obtain ⟨-, -, -, hpeek⟩ := h.pop_back
      simp [dequeStep, dequeSpec, dequePeekBackOption, hpeek, Agree, h]

/-- Each call on the deque answers as on the list and leaves the deque holding the list. -/
theorem dequeStep_agree (h : d.Holds capacity xs) (op : DequeOp α) :
    Agree (Deque.Holds capacity) (dequeStep mangle d op) (dequeSpec capacity xs op) := by
  cases op with
  | push side item => exact (push_agree h).1
  | tryPush side item => exact (push_agree h).2.1
  | pushUnchecked side item => exact (push_agree h).2.2
  | pop side out =>
    cases out with
    | true => exact (pop_agree h).1
    | false => cases side <;> exact ⟨rfl, h⟩
  | popOption side => exact (pop_agree h).2
  | peek side out =>
    cases out with
    | true => exact (peek_agree h).1
    | false => cases side <;> trivial
  | peekOption side => exact (peek_agree h).2
  | clear => exact ⟨rfl, h.clear⟩

end Agreement

/-- A call answered with a failure, a refusal or nothing found. -/
def DequeOut.failed : DequeOut α → Bool
  | .result r _ => !r.isOk
  | .flag ok _ => !ok
  | .option item => item.isNone
  | .done => false

private theorem push_failed (d : Deque α) (item : α) :
    ((dequePushFront d item).2.isOk = false → (dequePushFront d item).1 = d) ∧
      ((dequePushBack d item).2.isOk = false → (dequePushBack d item).1 = d) := by
  unfold dequePushFront dequePushBack
  cases d.buffer with
  | none => exact ⟨fun _ => rfl, fun _ => rfl⟩
  | some buffer =>
    by_cases hfull : d.size ≥ d.capacity
    · simp [hfull]
    · simp [hfull, Except.isOk, Except.toBool]

private theorem tryPush_failed (d : Deque α) (item : α) :
    ((dequeTryPushFront d item).2 = false → (dequeTryPushFront d item).1 = d) ∧
      ((dequeTryPushBack d item).2 = false → (dequeTryPushBack d item).1 = d) := by
  unfold dequeTryPushFront dequeTryPushBack
  cases d.buffer with
  | none => exact ⟨fun _ => rfl, fun _ => rfl⟩
  | some buffer =>
    by_cases hfull : d.size ≥ d.capacity
    · simp [hfull]
    · simp [hfull]

private theorem pop_failed (d : Deque α) (out : Bool) :
    ((dequePopFront d out).2.1.isOk = false → (dequePopFront d out).1 = d) ∧
      ((dequePopFront d out).2.1.isOk = true → (dequePopFront d out).2.2.isSome) ∧
      ((dequePopBack d out).2.1.isOk = false → (dequePopBack d out).1 = d) ∧
      ((dequePopBack d out).2.1.isOk = true → (dequePopBack d out).2.2.isSome) := by
  unfold dequePopFront dequePopBack
  cases out with
  | false => simp [Except.isOk, Except.toBool]
  | true =>
    cases d.buffer with
    | none => simp [Except.isOk, Except.toBool]
    | some buffer => by_cases hempty : d.size = 0 <;> simp [hempty, Except.isOk, Except.toBool]

private theorem popOption_failed (d : Deque α) :
    ((dequePopFrontOption d).2 = none → (dequePopFrontOption d).1 = d) ∧
      ((dequePopBackOption d).2 = none → (dequePopBackOption d).1 = d) := by
  obtain ⟨hfront, hfront', hback, hback'⟩ := pop_failed d true
  simp only [dequePopFrontOption, dequePopBackOption]
  constructor
  · cases hok : (dequePopFront d true).2.1.isOk with
    | false => simpa [hok] using hfront hok
    | true =>
      intro hnone
      simp only [if_true] at hnone
      exact absurd (hfront' hok) (by simp [hnone])
  · cases hok : (dequePopBack d true).2.1.isOk with
    | false => simpa [hok] using hback hok
    | true =>
      intro hnone
      simp only [if_true] at hnone
      exact absurd (hback' hok) (by simp [hnone])

/-- A call that reports failure leaves the deque as it was. -/
theorem dequeStep_failed {mangle : String → String} {op : DequeOp α} {o : DequeOut α}
    (h : dequeStep mangle d op = .ok (o, d')) (hfailed : o.failed = true) : d' = d := by
  have hpeek : ∀ {β : Type _} (x : Except String β) (f : β → DequeOut α),
      (x >>= fun b => .ok (f b, d)) = .ok (o, d') → d' = d := by
    intro β x f hx
    cases x with
    | error msg => cases hx
    | ok b => exact (Prod.mk.inj (Except.ok.inj hx)).2.symm
  cases op with
  | push side item =>
    cases side <;> obtain ⟨rfl, rfl⟩ := Prod.mk.inj (Except.ok.inj h)
    · exact (push_failed d item).1 (by simpa [DequeOut.failed] using hfailed)
    · exact (push_failed d item).2 (by simpa [DequeOut.failed] using hfailed)
  | tryPush side item =>
    cases side <;> obtain ⟨rfl, rfl⟩ := Prod.mk.inj (Except.ok.inj h)
    · exact (tryPush_failed d item).1 (by simpa [DequeOut.failed] using hfailed)
    · exact (tryPush_failed d item).2 (by simpa [DequeOut.failed] using hfailed)
  | pushUnchecked side item =>
    have hdone : ∀ x : Except String (Deque α),
        (x >>= fun d => .ok (DequeOut.done, d)) = .ok (o, d') → o = .done := by
      intro x hx
      cases x with
      | error msg => cases hx
      | ok t => exact (Prod.mk.inj (Except.ok.inj hx)).1.symm
    have ho : o = .done := by
      cases side with
      | front => exact hdone _ h
      | back => exact hdone _ h
    rw [ho] at hfailed
    cases hfailed
  | pop side out =>
    cases side <;> obtain ⟨rfl, rfl⟩ := Prod.mk.inj (Except.ok.inj h)
    · exact (pop_failed d out).1 (by simpa [DequeOut.failed] using hfailed)
    · exact (pop_failed d out).2.2.1 (by simpa [DequeOut.failed] using hfailed)
  | popOption side =>
    cases side <;> obtain ⟨rfl, rfl⟩ := Prod.mk.inj (Except.ok.inj h)
    · exact (popOption_failed d).1 (by simpa [DequeOut.failed] using hfailed)
    · exact (popOption_failed d).2 (by simpa [DequeOut.failed] using hfailed)
  | peek side out =>
    cases side with
    | front => exact hpeek _ (fun b : Bool × Option α => .flag b.1 b.2) h
    | back => exact hpeek _ (fun b : Bool × Option α => .flag b.1 b.2) h
  | peekOption side =>
    cases side with
    | front => exact hpeek _ .option h
    | back => exact hpeek _ .option h
  | clear =>
    obtain ⟨rfl, -⟩ := Prod.mk.inj (Except.ok.inj h)
    cases hfailed

/-- While there is room, the three tiers of a push leave one and the same deque. -/
def Deque.TiersAgree (d : Deque α) : Prop :=
  d.size < d.capacity → ∀ item,
    (∃ d', dequePushFront d item = (d', .ok true) ∧ dequeTryPushFront d item = (d', true) ∧
      ∀ fn, dequePushFrontUnchecked fn d item = .ok d') ∧
    ∃ d', dequePushBack d item = (d', .ok true) ∧ dequeTryPushBack d item = (d', true) ∧
      ∀ fn, dequePushBackUnchecked fn d item = .ok d'

/-- The tiers of each call agree on a deque that holds a list. -/
theorem Deque.Holds.tiersAgree (h : d.Holds capacity xs) : d.TiersAgree := by
  intro hlt item
  rw [h.capacity_eq, ← h.length_eq] at hlt
  obtain ⟨front, -, hfront⟩ := h.push_front hlt item
  obtain ⟨back, -, hback⟩ := h.push_back hlt item
  exact ⟨⟨front, hfront⟩, back, hback⟩

/-- An initialised deque holds no elements. -/
theorem holds_of_init {fn : String} {buffer : Option (Nat → α)} {elemSize : Nat}
    (h : dequeInit fn buffer capacity elemSize = .ok d) : d.Holds capacity [] := by
  cases buffer with
  | none => cases h
  | some buffer =>
    have hpos : 0 < capacity := by
      by_contra hpos
      simp [dequeInit, hpos] at h
    have hle : capacity ≤ dequeMaxCapacity / elemSize := by
      by_contra hle
      simp [dequeInit, hpos, hle] at h
    have hmax := hle.trans (Nat.div_le_self dequeMaxCapacity elemSize)
    simp only [dequeInit, Option.isSome_some, hpos, hle, decide_true, requireMsg_true, ok_bind,
      Except.ok.injEq] at h
    subst h
    refine ⟨⟨buffer, rfl, rfl⟩, rfl, ?_, hpos, Nat.zero_le _, (Nat.zero_mod _).symm⟩
    unfold dequeMaxCapacity at hmax
    unfold usizeSize
    omega

/-- Every run from `deque_init` is the run of the bounded list, and in every state it
reaches the tail lies `size` slots past the head, the tiers of a push agree, and a call
that reports failure changes nothing. -/
theorem deque_refines_bounded_list {fn : String} {buffer : Option (Nat → α)} {elemSize : Nat}
    (hinit : dequeInit fn buffer capacity elemSize = .ok d) (mangle : String → String)
    (ops : List (DequeOp α)) :
    Agree (Deque.Holds capacity) (run (dequeStep mangle) d ops) (run (dequeSpec capacity) [] ops) ∧
      ∀ os t, run (dequeStep mangle) d ops = .ok (os, t) →
        t.tail = (t.head + t.size) % t.capacity ∧ t.TiersAgree ∧
        ∀ op o t', dequeStep mangle t op = .ok (o, t') → o.failed = true → t' = t := by
  have hstep (t : Deque α) (xs : List α) (op : DequeOp α) (ht : t.Holds capacity xs) :
      Agree (Deque.Holds capacity) (dequeStep mangle t op) (dequeSpec capacity xs op) :=
    dequeStep_agree ht op
  have hruns := run_agree hstep ops (holds_of_init hinit)
  refine ⟨hruns, fun os t ht => ?_⟩
  rw [ht] at hruns
  cases hspec : run (dequeSpec capacity) [] ops with
  | error e =>
    rw [hspec] at hruns
    exact hruns.elim
  | ok p =>
    rw [hspec] at hruns
    have hholds := hruns.2
    refine ⟨?_, hholds.tiersAgree, fun op o t' => dequeStep_failed⟩
    rw [hholds.capacity_eq]
    exact hholds.tail_eq

/-- Three slots filled from both ends, so that the head wraps below slot zero. -/
theorem deque_refines_bounded_list_wrap :
    ∃ (d t : Deque Nat) (os : List (DequeOut Nat)),
      dequeInit "deque_int_init" (some fun _ => 0) 3 4 = .ok d ∧
      run (dequeStep ("deque_int_" ++ ·)) d [.push .front 5, .tryPush .back 6,
        .pushUnchecked .front 4, .push .back 9, .pop .back true] = .ok (os, t) ∧
      t.Holds 3 [4, 5] ∧ t.tail = (t.head + t.size) % t.capacity := by
  have hinit : dequeInit "deque_int_init" (some fun _ => 0) 3 4 =
      .ok ⟨some fun _ => 0, 3, 0, 0, 0⟩ := rfl
  have h := deque_refines_bounded_list hinit ("deque_int_" ++ ·) [.push .front 5, .tryPush .back 6,
    .pushUnchecked .front 4, .push .back 9, .pop .back true]
  exact ⟨_, _, _, hinit, rfl, h.1.2, (h.2 _ _ rfl).1⟩

end CanonC
