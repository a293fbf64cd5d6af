import CanonC.Data.Deque.Refinement
import CanonC.Toolkit.Flow

/-!
# The queue is a log read in order

A queue is a deque that is filled at the back and emptied in front. What goes through it is a
log: a call that enters an element writes it behind the last one, and a call that takes an
element out reads the next one. Nothing is read twice, and only a clear leaves entries unread.
-/

namespace CanonC

open Toolkit

variable {α : Type*}

/-- `queue_init`. -/
def queueInit (mangle : String → String) (buffer : Option (Nat → α)) (capacity elemSize : Nat) :
    Except String (Deque α) :=
  dequeInit (mangle "init") buffer capacity elemSize

/-- `queue_enqueue`. -/
def queueEnqueue (q : Deque α) (item : α) : Deque α × Except Error Bool := dequePushBack q item

/-- `queue_try_enqueue`. -/
def queueTryEnqueue (q : Deque α) (item : α) : Deque α × Bool := dequeTryPushBack q item

/-- `queue_enqueue_unchecked`. -/
def queueEnqueueUnchecked (mangle : String → String) (q : Deque α) (item : α) :
    Except String (Deque α) :=
  dequePushBackUnchecked (mangle "push_back_unchecked") q item

/-- `queue_dequeue`: its result and what is written through `out`, if anything. -/
def queueDequeue (q : Deque α) (out : Bool) : Deque α × Except Error Bool × Option α :=
  dequePopFront q out

/-- `queue_dequeue_option`. -/
def queueDequeueOption (q : Deque α) : Deque α × Option α := dequePopFrontOption q

/-- `queue_peek`: the flag returned and what is written through `out`, if anything. -/
def queuePeek (mangle : String → String) (q : Deque α) (out : Bool) :
    Except String (Bool × Option α) :=
  dequePeekFront (mangle "peek_front") q out

/-- `queue_peek_option`. -/
def queuePeekOption (mangle : String → String) (q : Deque α) : Except String (Option α) :=
  dequePeekFrontOption (mangle "peek_front") q

/-- `queue_len`. -/
def queueLen (q : Deque α) : Nat := dequeLen q

/-- `queue_capacity`. -/
def queueCapacity (q : Deque α) : Nat := dequeCapacity q

/-- `queue_remaining`. -/
def queueRemaining (q : Deque α) : Nat := dequeRemaining q

/-- `queue_is_empty`. -/
def queueIsEmpty (q : Deque α) : Bool := dequeIsEmpty q

/-- `queue_is_full`. -/
def queueIsFull (q : Deque α) : Bool := dequeIsFull q

/-- `queue_clear`. -/
def queueClear (q : Deque α) : Deque α := dequeClear q

/-- The calls on a queue. -/
inductive QueueOp (α : Type*) where
  /-- `queue_enqueue` -/
  | enqueue (item : α)
  /-- `queue_try_enqueue` -/
  | tryEnqueue (item : α)
  /-- `queue_enqueue_unchecked` -/
  | enqueueUnchecked (item : α)
  /-- `queue_dequeue`, with or without a place for the element -/
  | dequeue (out : Bool)
  /-- `queue_dequeue_option` -/
  | dequeueOption
  /-- `queue_peek`, with or without a place for the element -/
  | peek (out : Bool)
  /-- `queue_peek_option` -/
  | peekOption
  /-- `queue_len`, `queue_capacity`, `queue_remaining`, `queue_is_empty`, `queue_is_full` -/
  | measure
  /-- `queue_clear` -/
  | clear

/-- What a call answers. -/
inductive QueueOut (α : Type*) where
  /-- A result and the element written, if any. -/
  | result (r : Except Error Bool) (out : Option α)
  /-- A flag and the element written, if any. -/
  | flag (ok : Bool) (out : Option α)
  /-- An optional element. -/
  | option (item : Option α)
  /-- The answers of the five queries. -/
  | measured (len capacity remaining : Nat) (isEmpty isFull : Bool)
  /-- Nothing. -/
  | done

/-- One call on the queue; `mangle` is the naming scheme of the deque's functions. -/
def queueStep (mangle : String → String) (q : Deque α) :
    QueueOp α → Except String (QueueOut α × Deque α)
  | .enqueue item => .ok (.result (queueEnqueue q item).2 none, (queueEnqueue q item).1)
  | .tryEnqueue item => .ok (.flag (queueTryEnqueue q item).2 none, (queueTryEnqueue q item).1)
  | .enqueueUnchecked item => do
    let q ← queueEnqueueUnchecked mangle q item
    .ok (.done, q)
  | .dequeue out =>
    .ok (.result (queueDequeue q out).2.1 (queueDequeue q out).2.2, (queueDequeue q out).1)
  | .dequeueOption => .ok (.option (queueDequeueOption q).2, (queueDequeueOption q).1)
  | .peek out => do
    let (found, item) ← queuePeek mangle q out
    .ok (.flag found item, q)
  | .peekOption => do
    let item ← queuePeekOption mangle q
    .ok (.option item, q)
  | .measure => .ok (.measured (queueLen q) (queueCapacity q) (queueRemaining q) (queueIsEmpty q)
      (queueIsFull q), q)
  | .clear => .ok (.done, queueClear q)

/-- A list that grows at its end, and the number of its entries that have been passed. -/
structure Log (α : Type*) where
  /-- The entries, in the order of their arrival. -/
  entries : List α
  /-- How many of them the reader has passed. -/
  passed : Nat
  /-- The reader is within the log. -/
  passed_le : passed ≤ entries.length

namespace Log

/-- The log without entries. -/
def empty : Log α := ⟨[], 0, Nat.le_refl 0⟩

/-- The entries that the reader has before it. -/
def unread (log : Log α) : List α := log.entries.drop log.passed

/-- Write an entry. -/
def write (log : Log α) (item : α) : Log α :=
  ⟨log.entries ++ [item], log.passed, by
    rw [List.length_append]
    exact log.passed_le.trans (Nat.le_add_right _ _)⟩

/-- Pass some entries, as far as there are any. -/
def pass (log : Log α) (n : Nat) : Log α :=
  ⟨log.entries, min (log.passed + n) log.entries.length, Nat.min_le_right _ _⟩

/-- An item that is written is unread, behind the others. -/
@[simp] theorem unread_write (log : Log α) (item : α) :
    (log.write item).unread = log.unread ++ [item] :=
  List.drop_append_of_le_length log.passed_le

/-- Items are passed from the front. -/
@[simp] theorem unread_pass (log : Log α) (n : Nat) : (log.pass n).unread = log.unread.drop n := by
  change log.entries.drop (min (log.passed + n) log.entries.length) = _
  rw [unread, List.drop_drop]
  rcases Nat.le_total (log.passed + n) log.entries.length with hle | hge
  · rw [Nat.min_eq_left hle]
  · rw [Nat.min_eq_right hge, List.drop_length, List.drop_of_length_le hge]

end Log

/-- The calls on a log of which at most `capacity` entries may be unread; a failure marks a call
that breaks the contract. -/
def logStep (capacity : Nat) (log : Log α) : QueueOp α → Except Unit (QueueOut α × Log α)
  | .enqueue item =>
    if log.unread.length < capacity then .ok (.result (.ok true) none, log.write item)
    else .ok (.result (.error .capacityExceeded) none, log)
  | .tryEnqueue item =>
    if log.unread.length < capacity then .ok (.flag true none, log.write item)
    else .ok (.flag false none, log)
  | .enqueueUnchecked item =>
    if log.unread.length < capacity then .ok (.done, log.write item) else .error ()
  | .dequeue out =>
    if out then
      match log.unread with
      | x :: _ => .ok (.result (.ok true) (some x), log.pass 1)
      | [] => .ok (.result (.error .invalidState) none, log)
    else .ok (.result (.error .invalidArg) none, log)
  | .dequeueOption => .ok (.option log.unread.head?, log.pass 1)
  | .peek out =>
    if out then .ok (.flag log.unread.head?.isSome log.unread.head?, log) else .error ()
  | .peekOption => .ok (.option log.unread.head?, log)
  | .measure => .ok (.measured log.unread.length capacity (capacity - log.unread.length)
      log.unread.isEmpty (decide (log.unread.length = capacity)), log)
  | .clear => .ok (.done, log.pass log.unread.length)

/-- The queue has the entries before it that the reader of the log has. -/
def Queues (capacity : Nat) (q : Deque α) (log : Log α) : Prop := q.Holds capacity log.unread

section Agreement

variable {q : Deque α} {log : Log α} {capacity : Nat} {mangle : String → String} {item : α}

/-- Every tier of entering an element writes it in the log. -/
theorem enqueue_agree (h : Queues capacity q log) :
    Agree (Queues capacity) (queueStep mangle q (.enqueue item))
        (logStep capacity log (.enqueue item)) ∧
      Agree (Queues capacity) (queueStep mangle q (.tryEnqueue item))
        (logStep capacity log (.tryEnqueue item)) ∧
      Agree (Queues capacity) (queueStep mangle q (.enqueueUnchecked item))
        (logStep capacity log (.enqueueUnchecked item)) := by
  by_cases hlt : log.unread.length < capacity
  · obtain ⟨q', hq', hpush, htry, hunchecked⟩ := h.push_back hlt item
    have hwrite : Queues capacity q' (log.write item) := by
      rw [Queues, Log.unread_write]
      exact hq'
    simp [queueStep, logStep, queueEnqueue, queueTryEnqueue, queueEnqueueUnchecked, hpush, htry,
      hunchecked, hlt, Agree, hwrite]
  · obtain ⟨-, hpush, -, htry, hunchecked⟩ := h.push_full hlt item
    simp [queueStep, logStep, queueEnqueue, queueTryEnqueue, queueEnqueueUnchecked, hpush, htry,
      hunchecked, hlt, Agree, h]

/-- Both forms of taking an element out read the log. -/
theorem dequeue_agree (h : Queues capacity q log) :
    Agree (Queues capacity) (queueStep mangle q (.dequeue true))
        (logStep capacity log (.dequeue true)) ∧
      Agree (Queues capacity) (queueStep mangle q .dequeueOption)
        (logStep capacity log .dequeueOption) := by
  have hpass : ∀ q', q'.Holds capacity (log.unread.drop 1) → Queues capacity q' (log.pass 1) := by
    intro q' hq'
    rw [Queues, Log.unread_pass]
    exact hq'
  rw [Queues] at h
  cases hunread : log.unread with
  | nil =>
    rw [hunread] at h hpass
    have hpop := h.pop_empty.1
    have hsame : Queues capacity q log := by rwa [Queues, hunread]
    simp [queueStep, logStep, queueDequeue, queueDequeueOption, dequePopFrontOption, hpop, hunread,
      Except.isOk, Except.toBool, Agree, hsame, hpass q h]
  | cons x rest =>
    rw [hunread] at h hpass
    obtain ⟨q', hq', hpop, -⟩ := h.pop_front
    simp [queueStep, logStep, queueDequeue, queueDequeueOption, dequePopFrontOption, hpop, hunread,
      Except.isOk, Except.toBool, Agree, hpass q' hq']

/-- Both forms of looking at the next element look at the next entry. -/
theorem peek_next_agree (h : Queues capacity q log) :
    Agree (Queues capacity) (queueStep mangle q (.peek true)) (logStep capacity log (.peek true)) ∧
      Agree (Queues capacity) (queueStep mangle q .peekOption)
        (logStep capacity log .peekOption) := by
  have hsame := h
  rw [Queues] at h
  cases hunread : log.unread with
  | nil =>
    rw [hunread] at h
    have hpeek := fun fn => (h.pop_empty.2.2 fn).1
    simp [queueStep, logStep, queuePeek, queuePeekOption, dequePeekFrontOption, hpeek, hunread,
      Agree, hsame]
  | cons x rest =>
    rw [hunread] at h
    obtain ⟨-, -, -, hpeek⟩ := h.pop_front
    simp [queueStep, logStep, queuePeek, queuePeekOption, dequePeekFrontOption, hpeek, hunread,
      Agree, hsame]

/-- The queries measure the unread entries. -/
theorem measure_agree (h : Queues capacity q log) :
    Agree (Queues capacity) (queueStep mangle q .measure) (logStep capacity log .measure) := by
  have hsame := h
  rw [Queues] at h
  have hsize := h.length_eq
  have hcap := h.capacity_eq
  have hle := h.size_le
  have hremaining : usizeSub q.capacity q.size = capacity - log.unread.length := by
    rw [hsize, hcap]
    exact usizeSub_of_le hle h.capacity_lt
  have hempty : decide (q.size = 0) = log.unread.isEmpty := by
    rw [← hsize, Bool.eq_iff_iff, decide_eq_true_iff, List.isEmpty_iff, List.length_eq_zero_iff]
  have hfull : decide (q.size ≥ q.capacity) = decide (log.unread.length = capacity) := by
    rw [decide_eq_decide, hsize, hcap]
    omega
  simp only [queueStep, logStep, queueLen, queueCapacity, queueRemaining, queueIsEmpty, queueIsFull,
    dequeLen, dequeCapacity, dequeRemaining, dequeIsEmpty, dequeIsFull, hremaining, hempty, hfull,
    Agree]
  rw [← hsize, hcap]
  exact ⟨rfl, hsame⟩

/-- Each call on the queue answers as on the log. -/
theorem queueStep_agree (h : Queues capacity q log) (op : QueueOp α) :
    Agree (Queues capacity) (queueStep mangle q op) (logStep capacity log op) := by
  cases op with
  | enqueue item => exact (enqueue_agree h).1
  | tryEnqueue item => exact (enqueue_agree h).2.1
  | enqueueUnchecked item => exact (enqueue_agree h).2.2
  | dequeue out =>
    cases out with
    | true => exact (dequeue_agree h).1
    | false => exact ⟨rfl, h⟩
  | dequeueOption => exact (dequeue_agree h).2
  | peek out =>
    cases out with
    | true => exact (peek_next_agree h).1
    | false => trivial
  | peekOption => exact (peek_next_agree h).2
  | measure => exact measure_agree h
  | clear =>
    refine ⟨rfl, ?_⟩
    rw [Queues, Log.unread_pass, List.drop_length]
    exact h.clear

end Agreement

/-- The elements that an answered call has put in. -/
def QueueOp.entered : QueueOp α → QueueOut α → List α
  | .enqueue item, .result (.ok _) _ => [item]
  | .tryEnqueue item, .flag true _ => [item]
  | .enqueueUnchecked item, _ => [item]
  | _, _ => []

/-- The elements that an answered call has taken out. -/
def QueueOp.left : QueueOp α → QueueOut α → List α
  | .dequeue _, .result _ out => out.toList
  | .dequeueOption, .option item => item.toList
  | _, _ => []

section Order

variable {capacity : Nat} {log log' : Log α} {op : QueueOp α} {o : QueueOut α}

/-- A call on the log takes out what comes next and puts in at the end, and only a clear loses
entries. -/
theorem logStep_flow (h : logStep capacity log op = .ok (o, log')) :
    log'.entries = log.entries ++ op.entered o ∧
      (op.left o ++ log'.unread).Sublist (log.unread ++ op.entered o) ∧
      (op ≠ .clear → op.left o ++ log'.unread = log.unread ++ op.entered o) := by
  have hput (item : α) : (log.write item).entries = log.entries ++ [item] := rfl
  have hget : log.unread.head?.toList ++ log.unread.drop 1 = log.unread := by
    cases log.unread with
    | nil => rfl
    | cons x rest => rfl
  have keep {taken given : List α} (hlog : log'.entries = log.entries ++ taken)
      (heq : given ++ log'.unread = log.unread ++ taken) :
      log'.entries = log.entries ++ taken ∧
        (given ++ log'.unread).Sublist (log.unread ++ taken) ∧
        (op ≠ .clear → given ++ log'.unread = log.unread ++ taken) :=
    ⟨hlog, heq ▸ List.Sublist.refl _, fun _ => heq⟩
  cases op with
  | enqueue item =>
    simp only [logStep] at h
    split at h <;> obtain ⟨rfl, rfl⟩ := Prod.mk.inj (Except.ok.inj h)
    · exact keep (hput item) (Log.unread_write log item)
    · exact keep (List.append_nil _).symm (List.append_nil _).symm
  | tryEnqueue item =>
    simp only [logStep] at h
    split at h <;> obtain ⟨rfl, rfl⟩ := Prod.mk.inj (Except.ok.inj h)
    · exact keep (hput item) (Log.unread_write log item)
    · exact keep (List.append_nil _).symm (List.append_nil _).symm
  | enqueueUnchecked item =>
    simp only [logStep] at h
    split at h
    · obtain ⟨rfl, rfl⟩ := Prod.mk.inj (Except.ok.inj h)
      exact keep (hput item) (Log.unread_write log item)
    · cases h
  | dequeue out =>
    simp only [logStep] at h
    split at h
    · split at h <;> obtain ⟨rfl, rfl⟩ := Prod.mk.inj (Except.ok.inj h)
      next x rest hunread =>
        refine @keep [] [x] (List.append_nil _).symm ?_
        rw [Log.unread_pass, hunread, List.append_nil]
        rfl
      · exact keep (List.append_nil _).symm (List.append_nil _).symm
    · obtain ⟨rfl, rfl⟩ := Prod.mk.inj (Except.ok.inj h)
      exact keep (List.append_nil _).symm (List.append_nil _).symm
  | dequeueOption =>
    obtain ⟨rfl, rfl⟩ := Prod.mk.inj (Except.ok.inj h)
    refine @keep [] _ (List.append_nil _).symm ?_
    rw [Log.unread_pass, List.append_nil]
    exact hget
  | peek out =>
    simp only [logStep] at h
    split at h
    · obtain ⟨rfl, rfl⟩ := Prod.mk.inj (Except.ok.inj h)
      exact keep (List.append_nil _).symm (List.append_nil _).symm
    · cases h
  | peekOption =>
    obtain ⟨rfl, rfl⟩ := Prod.mk.inj (Except.ok.inj h)
    exact keep (List.append_nil _).symm (List.append_nil _).symm
  | measure =>
    obtain ⟨rfl, rfl⟩ := Prod.mk.inj (Except.ok.inj h)
    exact keep (List.append_nil _).symm (List.append_nil _).symm
  | clear =>
    obtain ⟨rfl, rfl⟩ := Prod.mk.inj (Except.ok.inj h)
    refine ⟨(List.append_nil _).symm, ?_, fun hne => absurd rfl hne⟩
    rw [Log.unread_pass, List.drop_length]
    exact List.nil_sublist _

/-- What runs on a log have put in is what the log has, in order, and what they have taken out and
what is unread follow one another in it. -/
theorem run_logStep_flow {ops : List (QueueOp α)} {os : List (QueueOut α)}
    (h : run (logStep capacity) log ops = .ok (os, log')) :
    log'.entries = log.entries ++ moved QueueOp.entered ops os ∧
      (moved QueueOp.left ops os ++ log'.unread).Sublist
        (log.unread ++ moved QueueOp.entered ops os) ∧
      (.clear ∉ ops →
        moved QueueOp.left ops os ++ log'.unread = log.unread ++ moved QueueOp.entered ops os) := by
  refine ⟨?_, ?_, fun hclear => ?_⟩
  · have hflow := @run_flow _ _ _ _ α (logStep capacity) (fun _ => True) Log.entries
      QueueOp.entered (fun _ _ => []) Eq (fun _ => rfl) (fun _ _ _ => Eq.trans)
      (fun us xs ys vs hxy => hxy ▸ rfl) (fun s i o s' _ hs => (logStep_flow hs).1) ops _ _ _
      (fun _ _ => trivial) h
    rwa [moved_nothing] at hflow
  · exact @run_flow _ _ _ _ α (logStep capacity) (fun _ => True) Log.unread QueueOp.entered
      QueueOp.left List.Sublist List.Sublist.refl (fun _ _ _ => List.Sublist.trans)
      (fun us xs ys vs hxy => (hxy.append_left us).append_right vs)
      (fun s i o s' _ hs => (logStep_flow hs).2.1) ops _ _ _ (fun _ _ => trivial) h
  · exact @run_flow _ _ _ _ α (logStep capacity) (· ≠ .clear) Log.unread QueueOp.entered
      QueueOp.left Eq (fun _ => rfl) (fun _ _ _ => Eq.trans) (fun us xs ys vs hxy => hxy ▸ rfl)
      (fun s i o s' hi hs => (logStep_flow hs).2.2 hi) ops _ _ _
      (fun i hi hne => hclear (hne ▸ hi)) h

end Order

section Runs

variable {q : Deque α} {capacity elemSize : Nat} {buffer : Option (Nat → α)}
  {mangle : String → String}

/-- Every run from `queue_init` is the run of a log that is read in order: both break the contract
or both answer alike. What goes in is the log, what comes out and what is still held follow one
another in it, and without a clear they are all of it. -/
theorem queue_fifo (hinit : queueInit mangle buffer capacity elemSize = .ok q)
    (ops : List (QueueOp α)) :
    Agree (Queues capacity) (run (queueStep mangle) q ops) (run (logStep capacity) .empty ops) ∧
      ∀ os t, run (queueStep mangle) q ops = .ok (os, t) → ∃ held,
        t.Holds capacity held ∧
        (moved QueueOp.left ops os ++ held).Sublist (moved QueueOp.entered ops os) ∧
        (.clear ∉ ops → moved QueueOp.left ops os ++ held = moved QueueOp.entered ops os) := by
  have hempty : Queues capacity q .empty := holds_of_init hinit
  have hruns := run_agree (fun s log op (h : Queues capacity s log) =>
    @queueStep_agree _ s log capacity mangle h op) ops hempty
  refine ⟨hruns, fun os t ht => ?_⟩
  rw [ht] at hruns
  cases hlog : run (logStep capacity) .empty ops with
  | error e =>
    rw [hlog] at hruns
    exact hruns.elim
  | ok p =>
    obtain ⟨os', log⟩ := p
    rw [hlog] at hruns
    obtain ⟨rfl, hholds⟩ := hruns
    obtain ⟨-, hsub, heq⟩ := run_logStep_flow hlog
    exact ⟨log.unread, hholds, hsub, heq⟩

/-- Two slots that are used three times, with one refusal between. -/
theorem queue_fifo_wrap :
    ∃ (q t : Deque Nat) (os : List (QueueOut Nat)),
      queueInit ("deque_int_" ++ ·) (some fun _ => 0) 2 4 = .ok q ∧
      run (queueStep ("deque_int_" ++ ·)) q [.enqueue 5, .tryEnqueue 6, .enqueue 9, .dequeue true,
        .enqueueUnchecked 7, .dequeueOption] = .ok (os, t) ∧
      ∃ held, t.Holds 2 held ∧ [5, 6] ++ held = [5, 6, 7] := by
  have hinit : queueInit ("deque_int_" ++ ·) (some fun _ => 0) 2 4 =
      .ok (⟨some fun _ => 0, 2, 0, 0, 0⟩ : Deque Nat) := rfl
  have h := queue_fifo hinit [.enqueue 5, .tryEnqueue 6, .enqueue 9, .dequeue true,
    .enqueueUnchecked 7, .dequeueOption]
  obtain ⟨held, hholds, -, hall⟩ := h.2 _ _ rfl
  exact ⟨_, _, _, hinit, rfl, held, hholds, hall (by simp)⟩

end Runs

end CanonC
