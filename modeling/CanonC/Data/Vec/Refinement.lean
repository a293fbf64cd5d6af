import CanonC.Data.Vec.Model
import CanonC.Toolkit.Run

/-!
# The vector is a bounded list

The elements are the first `len` cells of the buffer. Each call acts on them as it should
on the list; a vector without a buffer refuses every call that needs one.
-/

namespace CanonC

open Toolkit

variable {α : Type*} {v v' : Vec α} {capacity : Nat} {present : Bool} {xs : List α} {item : α}

/-- The elements that a source hands over from a vector with elements `xs`, absent where it has
fewer. -/
def VecSource.elements (xs : List α) (count : Nat) : VecSource α → Option (List α)
  | .null => none
  | .array ys => if count ≤ ys.length then some (ys.take count) else none
  | .slots start =>
    if count = 0 then some []
    else if start.val + count ≤ xs.length then some ((xs.drop start).take count) else none

/-- The source is NULL. -/
def VecSource.isNull : VecSource α → Bool
  | .null => true
  | _ => false

/-- The calls on a list of at most `capacity` elements, with or without a buffer; a failure marks
a call that breaks the contract. -/
def vecSpec (present : Bool) (capacity : Nat) (xs : List α) :
    VecOp α → Except Unit (VecOut α × List α)
  | .push item =>
    if !present then .ok (.result (.error .invalidArg) none, xs)
    else if xs.length < capacity then .ok (.result (.ok true) none, xs ++ [item])
    else .ok (.result (.error .capacityExceeded) none, xs)
  | .tryPush item =>
    if xs.length < capacity then .ok (.flag true, xs ++ [item]) else .ok (.flag false, xs)
  | .pushUnchecked item =>
    if xs.length < capacity then .ok (.done, xs ++ [item]) else .error ()
  | .pop out =>
    if !present || !out then .ok (.result (.error .invalidArg) none, xs)
    else
      match xs.getLast? with
      | none => .ok (.result (.error .invalidState) none, xs)
      | some x => .ok (.result (.ok true) (some x), xs.dropLast)
  | .popOption => .ok (.option xs.getLast?, xs.dropLast)
  | .insert i item =>
    if !present then .ok (.result (.error .invalidArg) none, xs)
    else if xs.length < i then .ok (.result (.error .outOfRange) none, xs)
    else if xs.length < capacity then .ok (.result (.ok true) none, xs.insertIdx i item)
    else .ok (.result (.error .capacityExceeded) none, xs)
  | .remove i out =>
    if !present || !out then .ok (.result (.error .invalidArg) none, xs)
    else if xs.length = 0 then .ok (.result (.error .invalidState) none, xs)
    else
      match xs[i.val]? with
      | none => .ok (.result (.error .outOfRange) none, xs)
      | some x => .ok (.result (.ok true) (some x), xs.eraseIdx i)
  | .removeOption i => .ok (.option xs[i.val]?, xs.eraseIdx i)
  | .appendArray src count =>
    if !present || src.isNull then .ok (.result (.error .invalidArg) none, xs)
    else if usizeMax < xs.length + count then .ok (.result (.error .overflow) none, xs)
    else if capacity < xs.length + count then
      .ok (.result (.error .capacityExceeded) none, xs)
    else
      match src.elements xs count with
      | none => .error ()
      | some ys => .ok (.result (.ok true) none, xs ++ ys)
  | .fill value count =>
    .ok (.done, xs ++ List.replicate (min count (capacity - xs.length)) value)
  | .clear => .ok (.done, [])

/-- The vector holds the elements `xs` in `capacity` slots, of a buffer if one is present. -/
structure Vec.Holds (present : Bool) (capacity : Nat) (v : Vec α) (xs : List α) : Prop where
  /-- Whether there is a buffer. -/
  present_eq : v.items.isSome = present
  /-- Without a buffer there are no slots. -/
  absent : present = false → capacity = 0
  /-- The elements are the first cells of the buffer. -/
  contents : ∀ items, v.items = some items → Cells.read items 0 v.len = xs
  /-- The vector has the capacity. -/
  capacity_eq : v.capacity = capacity
  /-- The capacity is a `usize`. -/
  capacity_lt : capacity < usizeSize
  /-- The number of elements. -/
  len_eq : v.len = xs.length
  /-- The elements fit. -/
  len_le : v.len ≤ capacity

namespace Vec.Holds

/-- A vector without a buffer holds nothing. -/
theorem of_none (h : v.Holds present capacity xs) (hnone : v.items = none) :
    present = false ∧ capacity = 0 ∧ xs = [] := by
  have hpresent : present = false := by rw [← h.present_eq, hnone]; rfl
  have hcap := h.absent hpresent
  have hlen := h.len_eq
  have hle := h.len_le
  exact ⟨hpresent, hcap, List.length_eq_zero_iff.mp (by omega)⟩

/-- A vector with slots has a buffer. -/
theorem of_some {items : Nat → α} (h : v.Holds present capacity xs) (hsome : v.items = some items) :
    present = true := by
  rw [← h.present_eq, hsome]
  rfl

/-- The vector with a new buffer and length holds the elements read. -/
theorem update {items : Nat → α} {len : Nat} {ys : List α} (h : v.Holds true capacity xs)
    (hread : Cells.read items 0 len = ys) (hle : len ≤ capacity) :
    Vec.Holds true capacity { v with items := some items, len } ys where
  present_eq := rfl
  absent := nofun
  contents := by
    rintro items' heq
    rw [← Option.some.inj heq]
    exact hread
  capacity_eq := h.capacity_eq
  capacity_lt := h.capacity_lt
  len_eq := by
    rw [← hread]
    exact Cells.length_read.symm
  len_le := hle

/-- The elements behind which one more is written. -/
theorem read_push {items : Nat → α} (h : v.Holds present capacity xs) (hsome : v.items = some items)
    (item : α) : Cells.read (Function.update items v.len item) 0 (v.len + 1) = xs ++ [item] := by
  have hread := h.contents items hsome
  rw [h.len_eq] at hread
  have := Cells.read_write_append hread [item]
  rwa [Nat.zero_add, ← Cells.update_eq_write, ← h.len_eq] at this

/-- A push below the capacity appends the element. -/
theorem push_room (h : v.Holds present capacity xs) (hlt : xs.length < capacity) (item : α) :
    ∃ v', vecPush v item = (v', .ok true) ∧ v'.Holds present capacity (xs ++ [item]) := by
  have hcap := h.capacity_eq
  have hlen := h.len_eq
  cases hitems : v.items with
  | none =>
    obtain ⟨rfl, rfl, rfl⟩ := h.of_none hitems
    exact absurd hlt (Nat.not_lt_zero _)
  | some items =>
    obtain rfl := h.of_some hitems
    refine ⟨_, ?_, h.update (h.read_push hitems item) (by omega)⟩
    rw [vecPush, hitems]
    exact if_neg (by omega)

/-- A push into a full vector fails and changes nothing. -/
theorem push_full (h : v.Holds present capacity xs) (hge : capacity ≤ xs.length) (item : α) :
    ∃ e, vecPush v item = (v, .error e) := by
  have hcap := h.capacity_eq
  have hlen := h.len_eq
  cases hitems : v.items with
  | none => exact ⟨.invalidArg, by rw [vecPush, hitems]⟩
  | some items =>
    refine ⟨.capacityExceeded, ?_⟩
    rw [vecPush, hitems]
    exact if_pos (by omega)

/-- The last element lies in the last live slot, and the others before it. -/
theorem read_pop {items : Nat → α} {x : α} (h : v.Holds present capacity (xs ++ [x]))
    (hsome : v.items = some items) :
    v.len - 1 = xs.length ∧ Cells.read items 0 (v.len - 1) = xs ∧ items (v.len - 1) = x := by
  have hread := h.contents items hsome
  have hlen : v.len = xs.length + 1 := by simpa using h.len_eq
  rw [hlen, Cells.read_add] at hread
  obtain ⟨hxs, hx⟩ := List.append_inj' hread (by simp)
  rw [Cells.read_one, List.cons.injEq, Nat.zero_add] at hx
  rw [hlen, Nat.add_sub_cancel]
  exact ⟨rfl, hxs, hx.1⟩

/-- A live slot holds the element at its index. -/
theorem getElem?_eq {items : Nat → α} {i : Nat} (h : v.Holds present capacity xs)
    (hsome : v.items = some items) (hi : i < v.len) : xs[i]? = some (items i) := by
  rw [← h.contents items hsome, Cells.getElem?_read hi, Nat.zero_add]

/-- The slots after an insertion. -/
theorem read_insert {items : Nat → α} {i : Nat} (h : v.Holds present capacity xs)
    (hsome : v.items = some items) (hi : i ≤ v.len) (item : α) :
    Cells.read (Function.update
      (if i < v.len then Cells.write items (i + 1) (Cells.read items i (v.len - i)) else items)
      i item) 0 (v.len + 1) = xs.insertIdx i item := by
  have hinsert := @Cells.read_insert α items 0 v.len i hi item
  rw [h.contents items hsome] at hinsert
  simp only [Nat.zero_add] at hinsert
  split
  · exact hinsert
  · obtain rfl : i = v.len := by omega
    rwa [Nat.sub_self, Cells.read_zero, Cells.write_nil] at hinsert

/-- The slots after a removal. -/
theorem read_remove {items : Nat → α} {i : Nat} (h : v.Holds present capacity xs)
    (hsome : v.items = some items) (hi : i < v.len) :
    Cells.read
      (if i < v.len - 1 then Cells.write items i (Cells.read items (i + 1) (v.len - i - 1))
        else items) 0 (v.len - 1) = xs.eraseIdx i := by
  have herase := @Cells.read_erase α items 0 v.len i hi
  rw [h.contents items hsome] at herase
  simp only [Nat.zero_add] at herase
  split
  · exact herase
  · have hlast : v.len - i - 1 = 0 := by omega
    rwa [hlast, Cells.read_zero, Cells.write_nil] at herase

/-- Elements copied behind the live ones are appended. -/
theorem read_append {items : Nat → α} (h : v.Holds present capacity xs)
    (hsome : v.items = some items) (ys : List α) :
    Cells.read (Cells.write items v.len ys) 0 (v.len + ys.length) = xs ++ ys := by
  have hread := h.contents items hsome
  rw [h.len_eq] at hread ⊢
  have happend := Cells.read_write_append hread ys
  rwa [Nat.zero_add] at happend

/-- A cleared vector holds nothing. -/
theorem clear (h : v.Holds present capacity xs) : (vecClear v).Holds present capacity [] :=
  ⟨h.present_eq, h.absent, fun _ _ => rfl, h.capacity_eq, h.capacity_lt, rfl, Nat.zero_le _⟩

end Vec.Holds

/-- The loop of `vec_fill` writes a run of copies. -/
theorem vecFillLoop_eq (len : Nat) (value : α) (left : Nat) : ∀ (i : Nat) (items : Nat → α),
    vecFillLoop len value left i items =
      Cells.write items (len + i) (List.replicate left value) := by
  induction left with
  | zero => exact fun i items => Cells.write_nil.symm
  | succ left ih =>
    intro i items
    rw [vecFillLoop, ih, Cells.update_eq_write, List.replicate_succ, ← Nat.add_assoc]
    exact Cells.write_write_cons items (len + i) value _

/-- A copy to the slots behind the live elements writes the elements of its source, and is a fault
where the source has fewer. -/
theorem vecCopy_eq {items : Nat → α} (h : v.Holds present capacity xs)
    (hsome : v.items = some items) {src : VecSource α} (hsrc : src.isNull = false) (count : Nat) :
    (∀ ys, src.elements xs count = some ys → ys.length = count ∧
      vecCopy items v.len v.len src count = .ok (Cells.write items v.len ys)) ∧
    (src.elements xs count = none → ∃ e, vecCopy items v.len v.len src count = .error e) := by
  have hlen := h.len_eq
  cases src with
  | null => cases hsrc
  | array zs =>
    by_cases hle : count ≤ zs.length
    · by_cases hzero : count = 0
      · subst hzero
        simp [VecSource.elements, vecCopy]
      · simp [VecSource.elements, vecCopy, hle, hzero]
    · have hzero : count ≠ 0 := by omega
      simp [VecSource.elements, vecCopy, hle, hzero]
  | slots start =>
    by_cases hzero : count = 0
    · subst hzero
      simp [VecSource.elements, vecCopy]
    · by_cases hle : start.val + count ≤ v.len
      · have hapart : memRegionsOverlap v.len start count = false :=
          memRegionsOverlap_eq_false.mpr (Or.inr hle)
        have hread : Cells.read items start count = (xs.drop start).take count := by
          rw [← h.contents items hsome, Cells.drop_read, Nat.zero_add,
            Cells.take_read (by omega)]
        have hle' : start.val + count ≤ xs.length := by omega
        simp [VecSource.elements, vecCopy, hzero, hle, hle', hapart, hread]
        omega
      · have hle' : ¬ start.val + count ≤ xs.length := by omega
        simp only [VecSource.elements, vecCopy, hzero, hle, hle', if_false]
        cases !memRegionsOverlap v.len start.val count <;> simp [requireMsg]

section Agreement

variable {mangle : String → String}

private theorem vecPush_agree (h : v.Holds present capacity xs) (item : α) :
    Agree (Vec.Holds present capacity) (vecStep mangle v (.push item))
        (vecSpec present capacity xs (.push item)) ∧
      Agree (Vec.Holds present capacity) (vecStep mangle v (.tryPush item))
        (vecSpec present capacity xs (.tryPush item)) ∧
      Agree (Vec.Holds present capacity) (vecStep mangle v (.pushUnchecked item))
        (vecSpec present capacity xs (.pushUnchecked item)) := by
  cases hitems : v.items with
  | none =>
    obtain ⟨rfl, rfl, rfl⟩ := h.of_none hitems
    simp [vecStep, vecSpec, vecPush, vecTryPush, vecPushUnchecked, hitems, Agree, h]
  | some items =>
    obtain rfl := h.of_some hitems
    have hcap := h.capacity_eq
    have hlen := h.len_eq
    by_cases hlt : xs.length < capacity
    · have hfull : ¬ v.len ≥ v.capacity := by omega
      have hroom : v.len < v.capacity := by omega
      have hnew := h.update (h.read_push hitems item) (by omega)
      simp [vecStep, vecSpec, vecPush, vecTryPush, vecPushUnchecked, hitems, hfull, hroom, hlt,
        Agree, hnew]
    · have hfull : v.len ≥ v.capacity := by omega
      have hroom : ¬ v.len < v.capacity := by omega
      simp [vecStep, vecSpec, vecPush, vecTryPush, vecPushUnchecked, hitems, hfull, hroom, hlt,
        Agree, h]

private theorem vecPop_agree (h : v.Holds present capacity xs) (out : Bool) :
    Agree (Vec.Holds present capacity) (vecStep mangle v (.pop out))
        (vecSpec present capacity xs (.pop out)) ∧
      Agree (Vec.Holds present capacity) (vecStep mangle v .popOption)
        (vecSpec present capacity xs .popOption) := by
  cases hitems : v.items with
  | none =>
    obtain ⟨rfl, rfl, rfl⟩ := h.of_none hitems
    simp [vecStep, vecSpec, vecPop, vecPopOption, hitems, Except.isOk, Except.toBool, Agree, h]
  | some items =>
    obtain rfl := h.of_some hitems
    rcases List.eq_nil_or_concat' xs with rfl | ⟨ys, x, rfl⟩
    · have hlen : v.len = 0 := h.len_eq
      cases out <;>
        simp [vecStep, vecSpec, vecPop, vecPopOption, hitems, hlen, Except.isOk, Except.toBool,
          Agree, h]
    · obtain ⟨-, hys, hx⟩ := h.read_pop hitems
      have hle := h.len_le
      have hlen : v.len ≠ 0 := by simp [h.len_eq]
      have hnew := h.update hys (by omega)
      rw [← hitems] at hnew
      cases out <;>
        simp [vecStep, vecSpec, vecPop, vecPopOption, hitems, hlen, hx, Except.isOk,
          Except.toBool, Agree, h]
      all_goals simpa [hitems] using hnew

private theorem vecInsert_agree (h : v.Holds present capacity xs) (i : Usize) (item : α) :
    Agree (Vec.Holds present capacity) (vecStep mangle v (.insert i item))
      (vecSpec present capacity xs (.insert i item)) := by
  cases hitems : v.items with
  | none =>
    obtain ⟨rfl, rfl, rfl⟩ := h.of_none hitems
    simp [vecStep, vecSpec, vecInsert, hitems, Agree, h]
  | some items =>
    obtain rfl := h.of_some hitems
    have hcap := h.capacity_eq
    have hlen := h.len_eq
    by_cases hin : xs.length < i.val
    · have hout : i.val > v.len := by omega
      simp [vecStep, vecSpec, vecInsert, hitems, hin, hout, Agree, h]
    · have hle : ¬ i.val > v.len := by omega
      by_cases hlt : xs.length < capacity
      · have hfull : ¬ v.len ≥ v.capacity := by omega
        have hnew := h.update (h.read_insert hitems (by omega : i.val ≤ v.len) item) (by omega)
        simp [vecStep, vecSpec, vecInsert, hitems, hin, hle, hfull, hlt, Agree, hnew]
      · have hfull : v.len ≥ v.capacity := by omega
        simp [vecStep, vecSpec, vecInsert, hitems, hin, hle, hfull, hlt, Agree, h]

private theorem vecRemove_agree (h : v.Holds present capacity xs) (i : Usize) (out : Bool) :
    Agree (Vec.Holds present capacity) (vecStep mangle v (.remove i out))
        (vecSpec present capacity xs (.remove i out)) ∧
      Agree (Vec.Holds present capacity) (vecStep mangle v (.removeOption i))
        (vecSpec present capacity xs (.removeOption i)) := by
  cases hitems : v.items with
  | none =>
    obtain ⟨rfl, rfl, rfl⟩ := h.of_none hitems
    simp [vecStep, vecSpec, vecRemove, vecRemoveOption, hitems, Except.isOk, Except.toBool, Agree,
      h]
  | some items =>
    obtain rfl := h.of_some hitems
    have hlen := h.len_eq
    have hcap := h.len_le
    by_cases hin : i.val < v.len
    · have hle : ¬ v.len ≤ i.val := by omega
      have hpos : v.len ≠ 0 := by omega
      have hne : xs ≠ [] := List.ne_nil_of_length_pos (by omega)
      have hget := h.getElem?_eq hitems hin
      have hnew := h.update (h.read_remove hitems hin) (by omega)
      cases out <;>
        simp [vecStep, vecSpec, vecRemove, vecRemoveOption, hitems, hle, hpos, hne, hget,
          Except.isOk, Except.toBool, Agree, h]
      all_goals simpa using hnew
    · have hle : v.len ≤ i.val := by omega
      have hget : xs[i.val]? = none := List.getElem?_eq_none (by omega)
      have herase : xs.eraseIdx i = xs := List.eraseIdx_of_length_le (by omega)
      by_cases hzero : v.len = 0
      · obtain rfl : xs = [] := List.length_eq_zero_iff.mp (by omega)
        cases out <;>
          simp [vecStep, vecSpec, vecRemove, vecRemoveOption, hitems, hzero, Except.isOk,
            Except.toBool, Agree, h]
      · have hne : xs ≠ [] := List.ne_nil_of_length_pos (by omega)
        cases out <;>
          simp [vecStep, vecSpec, vecRemove, vecRemoveOption, hitems, hle, hzero, hne, hget,
            herase, Except.isOk, Except.toBool, Agree, h]

private theorem vecAppendArray_agree (h : v.Holds present capacity xs) (src : VecSource α)
    (count : Usize) :
    Agree (Vec.Holds present capacity) (vecStep mangle v (.appendArray src count))
      (vecSpec present capacity xs (.appendArray src count)) := by
  cases hitems : v.items with
  | none =>
    obtain ⟨rfl, rfl, rfl⟩ := h.of_none hitems
    simp [vecStep, vecSpec, vecAppendArray, hitems, Agree, h]
  | some items =>
    obtain rfl := h.of_some hitems
    have hlen := h.len_eq
    have hcap := h.capacity_eq
    cases hsrc : src.isNull with
    | true =>
      cases src <;> cases hsrc
      simp [vecStep, vecSpec, vecAppendArray, hitems, VecSource.isNull, Agree, h]
    | false =>
      have hcall : vecAppendArray v src count = (checkedAdd v.len count).elim
          (.ok (v, .error .overflow)) fun total =>
            if total > v.capacity then .ok (v, .error .capacityExceeded)
            else vecCopy items v.len v.len src count >>= fun items =>
              .ok ({ v with items := some items, len := total }, .ok true) := by
        unfold vecAppendArray
        rw [hitems]
        cases src with
        | null => cases hsrc
        | array ys => cases checkedAdd v.len count <;> rfl
        | slots start => cases checkedAdd v.len count <;> rfl
      have hlt : v.len < usizeSize := Nat.lt_of_le_of_lt h.len_le h.capacity_lt
      have hmax : usizeMax < xs.length + count ↔ ¬ v.len + count.val < usizeSize := by
        unfold usizeMax
        omega
      by_cases hover : usizeMax < xs.length + count
      · have hadd : checkedAdd v.len count = none := by
          rw [checkedAdd_eq hlt count.2, if_neg (hmax.mp hover)]
        simp [vecStep, vecSpec, hcall, hadd, hsrc, hover, Agree, h]
      · have hadd : checkedAdd v.len count = some (v.len + count.val) := by
          rw [checkedAdd_eq hlt count.2, if_pos (not_not.mp (hmax.not.mp hover))]
        by_cases hfit : capacity < xs.length + count
        · have hfull : v.len + count.val > v.capacity := by omega
          simp [vecStep, vecSpec, hcall, hadd, hsrc, hover, hfit, hfull, Agree, h]
        · have hfull : ¬ v.len + count.val > v.capacity := by omega
          obtain ⟨hcopy, hfault⟩ := vecCopy_eq h hitems hsrc count.val
          cases helems : src.elements xs count with
          | none =>
            obtain ⟨e, he⟩ := hfault helems
            simp [vecStep, vecSpec, hcall, hadd, hsrc, hover, hfit, hfull, helems, he, Agree]
          | some ys =>
            obtain ⟨hys, hok⟩ := hcopy ys helems
            have hread := h.read_append hitems ys
            rw [hys] at hread
            have hnew := h.update hread (by omega)
            simp [vecStep, vecSpec, hcall, hadd, hsrc, hover, hfit, hfull, helems, hok, Agree,
              hnew]

private theorem vecFill_agree (h : v.Holds present capacity xs) (value : α) (count : Usize) :
    Agree (Vec.Holds present capacity) (vecStep mangle v (.fill value count))
      (vecSpec present capacity xs (.fill value count)) := by
  refine ⟨rfl, ?_⟩
  cases hitems : v.items with
  | none =>
    obtain ⟨rfl, rfl, rfl⟩ := h.of_none hitems
    simpa [vecFill, hitems] using h
  | some items =>
    obtain rfl := h.of_some hitems
    have hlen := h.len_eq
    have hcap := h.capacity_eq
    have hle := h.len_le
    have hlt := h.capacity_lt
    have hremaining : usizeSub v.capacity v.len = capacity - xs.length := by
      rw [usizeSub_of_le (by omega) (by omega)]
      omega
    have hfill : (if count.val < capacity - xs.length then count.val else capacity - xs.length) =
        min count.val (capacity - xs.length) := by
      split <;> omega
    have hread := h.read_append hitems
      (List.replicate (min count.val (capacity - xs.length)) value)
    rw [List.length_replicate] at hread
    have hnew := h.update hread (by omega)
    simp only [vecFill, hitems, hremaining, hfill, vecFillLoop_eq, Nat.add_zero]
    rwa [usizeAdd_of_lt (by omega)]

/-- Each call on the vector answers as on the list and leaves the vector holding the list. -/
theorem vecStep_agree (h : v.Holds present capacity xs) (op : VecOp α) :
    Agree (Vec.Holds present capacity) (vecStep mangle v op) (vecSpec present capacity xs op) := by
  cases op with
  | push item => exact (vecPush_agree h item).1
  | tryPush item => exact (vecPush_agree h item).2.1
  | pushUnchecked item => exact (vecPush_agree h item).2.2
  | pop out => exact (vecPop_agree h out).1
  | popOption => exact (vecPop_agree h true).2
  | insert i item => exact vecInsert_agree h i item
  | remove i out => exact (vecRemove_agree h i out).1
  | removeOption i => exact (vecRemove_agree h i true).2
  | appendArray src count => exact vecAppendArray_agree h src count
  | fill value count => exact vecFill_agree h value count
  | clear => exact ⟨rfl, h.clear⟩

end Agreement

/-- A call answered with an error, a refusal or nothing found. -/
def VecOut.failed : VecOut α → Bool
  | .result r _ => !r.isOk
  | .flag ok => !ok
  | .option item => item.isNone
  | .done => false

private theorem vecPop_failed (v : Vec α) (out : Bool) :
    ((vecPop v out).2.1.isOk = false → (vecPop v out).1 = v) ∧
      ((vecPop v out).2.1.isOk = true → (vecPop v out).2.2.isSome) := by
  unfold vecPop
  cases out with
  | false => simp [Except.isOk, Except.toBool]
  | true =>
    cases v.items with
    | none => simp [Except.isOk, Except.toBool]
    | some items => by_cases hempty : v.len = 0 <;> simp [hempty, Except.isOk, Except.toBool]

private theorem vecRemove_failed (v : Vec α) (i : Nat) (out : Bool) :
    ((vecRemove v i out).2.1.isOk = false → (vecRemove v i out).1 = v) ∧
      ((vecRemove v i out).2.1.isOk = true → (vecRemove v i out).2.2.isSome) := by
  unfold vecRemove
  cases v.items with
  | none => simp [Except.isOk, Except.toBool]
  | some items =>
    cases out with
    | false => simp [Except.isOk, Except.toBool]
    | true =>
      by_cases hempty : v.len = 0
      · simp [hempty, Except.isOk, Except.toBool]
      · by_cases hout : i ≥ v.len <;> simp [hempty, hout, Except.isOk, Except.toBool]

private theorem vecPush_failed (v : Vec α) (i : Nat) (item : α) :
    ((vecPush v item).2.isOk = false → (vecPush v item).1 = v) ∧
      ((vecTryPush v item).2 = false → (vecTryPush v item).1 = v) ∧
      ((vecInsert v i item).2.isOk = false → (vecInsert v i item).1 = v) := by
  unfold vecPush vecTryPush vecInsert
  cases v.items with
  | none => exact ⟨fun _ => rfl, fun _ => rfl, fun _ => rfl⟩
  | some items =>
    by_cases hfull : v.len ≥ v.capacity <;> by_cases hout : i > v.len <;>
      simp [hfull, hout, Except.isOk, Except.toBool]

private theorem vecAppendArray_failed {src : VecSource α} {count : Nat} {r : Except Error Bool}
    (h : vecAppendArray v src count = .ok (v', r)) (hr : r.isOk = false) : v' = v := by
  unfold vecAppendArray at h
  split at h
  · exact (Prod.mk.inj (Except.ok.inj h)).1.symm
  · exact (Prod.mk.inj (Except.ok.inj h)).1.symm
  · split at h
    · exact (Prod.mk.inj (Except.ok.inj h)).1.symm
    · split at h
      · exact (Prod.mk.inj (Except.ok.inj h)).1.symm
      · obtain ⟨items, -, hok⟩ := bind_eq_ok.mp h
        rw [← (Prod.mk.inj (Except.ok.inj hok)).2] at hr
        cases hr

/-- An option is empty only when the call that it is taken from has reported an error. -/
private theorem option_failed {call : Vec α × Except Error Bool × Option α}
    (h : (call.2.1.isOk = false → call.1 = v) ∧ (call.2.1.isOk = true → call.2.2.isSome))
    (hnone : (if call.2.1.isOk then (call.1, call.2.2) else (call.1, none)).2.isNone = true) :
    (if call.2.1.isOk then (call.1, call.2.2) else (call.1, none)).1 = v := by
  obtain ⟨hsame, hfound⟩ := h
  cases hok : call.2.1.isOk with
  | false => simpa [hok] using hsame hok
  | true =>
    rw [hok, if_pos rfl, Option.isNone_iff_eq_none] at hnone
    rw [hnone] at hfound
    cases hfound hok

/-- A call that reports failure leaves the vector as it was. -/
theorem vecStep_failed {mangle : String → String} {op : VecOp α} {o : VecOut α}
    (h : vecStep mangle v op = .ok (o, v')) (hfailed : o.failed = true) : v' = v := by
  cases op with
  | push item =>
    obtain ⟨rfl, rfl⟩ := Prod.mk.inj (Except.ok.inj h)
    exact (vecPush_failed v 0 item).1 (by simpa [VecOut.failed] using hfailed)
  | tryPush item =>
    obtain ⟨rfl, rfl⟩ := Prod.mk.inj (Except.ok.inj h)
    exact (vecPush_failed v 0 item).2.1 (by simpa [VecOut.failed] using hfailed)
  | pushUnchecked item =>
    obtain ⟨t, -, hok⟩ := bind_eq_ok.mp h
    obtain ⟨rfl, -⟩ := Prod.mk.inj (Except.ok.inj hok)
    cases hfailed
  | pop out =>
    obtain ⟨rfl, rfl⟩ := Prod.mk.inj (Except.ok.inj h)
    exact (vecPop_failed v out).1 (by simpa [VecOut.failed] using hfailed)
  | popOption =>
    obtain ⟨rfl, rfl⟩ := Prod.mk.inj (Except.ok.inj h)
    exact option_failed (vecPop_failed v true) hfailed
  | insert i item =>
    obtain ⟨rfl, rfl⟩ := Prod.mk.inj (Except.ok.inj h)
    exact (vecPush_failed v i item).2.2 (by simpa [VecOut.failed] using hfailed)
  | remove i out =>
    obtain ⟨rfl, rfl⟩ := Prod.mk.inj (Except.ok.inj h)
    exact (vecRemove_failed v i out).1 (by simpa [VecOut.failed] using hfailed)
  | removeOption i =>
    obtain ⟨rfl, rfl⟩ := Prod.mk.inj (Except.ok.inj h)
    exact option_failed (vecRemove_failed v i true) hfailed
  | appendArray src count =>
    obtain ⟨⟨t, r⟩, happend, hok⟩ := bind_eq_ok.mp h
    obtain ⟨rfl, rfl⟩ := Prod.mk.inj (Except.ok.inj hok)
    exact vecAppendArray_failed happend (by simpa [VecOut.failed] using hfailed)
  | fill value count =>
    obtain ⟨rfl, -⟩ := Prod.mk.inj (Except.ok.inj h)
    cases hfailed
  | clear =>
    obtain ⟨rfl, -⟩ := Prod.mk.inj (Except.ok.inj h)
    cases hfailed

/-- While there is room, the three tiers of a push leave one and the same vector. -/
def Vec.TiersAgree (v : Vec α) : Prop :=
  v.len < v.capacity → ∀ item, ∃ v', vecPush v item = (v', .ok true) ∧
    vecTryPush v item = (v', true) ∧ ∀ fn, vecPushUnchecked fn v item = .ok v'

/-- The iterator yields the elements in order and then nothing. -/
def Vec.Iterates (v : Vec α) (xs : List α) : Prop :=
  ∀ n, ∃ it, vecIterRounds n (vecIterInit v) = .ok (xs.take n, it) ∧
    (xs.length ≤ n → vecIterNext it true = .ok (false, none, it))

/-- A slice between two positions is the list between them. -/
def Vec.Slices (v : Vec α) (xs : List α) : Prop :=
  ∀ start stop, start ≤ stop → stop ≤ v.len → (vecSlice v start stop).len = stop - start ∧
    (v.items.isSome → ∃ items, (vecSlice v start stop).items = some items ∧
      Cells.read items 0 (stop - start) = (xs.take stop).drop start)

namespace Vec.Holds

/-- The tiers of each call agree on a vector that holds a list. -/
theorem tiersAgree (h : v.Holds present capacity xs) : v.TiersAgree := by
  intro hlt item
  cases hitems : v.items with
  | none =>
    obtain ⟨-, hcap, -⟩ := h.of_none hitems
    have hcapacity := h.capacity_eq
    omega
  | some items =>
    have hfull : ¬ v.len ≥ v.capacity := by omega
    refine ⟨{ v with items := some (Function.update items v.len item), len := v.len + 1 }, ?_, ?_,
      fun fn => ?_⟩
    · simp only [vecPush, hitems, hfull, if_false]
    · simp only [vecTryPush, hitems, hfull, if_false]
    · simp [vecPushUnchecked, hitems, hlt]

private theorem iterRounds (h : v.Holds present capacity xs) (n : Nat) : ∀ {i : Nat}, i ≤ v.len →
    vecIterRounds n ⟨v, i⟩ = .ok ((xs.drop i).take n, ⟨v, min (i + n) v.len⟩) := by
  have hlen := h.len_eq
  induction n with
  | zero => exact fun {i} hi => by simp [vecIterRounds, hi]
  | succ n ih =>
    intro i hi
    by_cases hlt : i < v.len
    · have hmore : ¬ i ≥ v.len := by omega
      cases hitems : v.items with
      | none =>
        obtain ⟨-, -, rfl⟩ := h.of_none hitems
        rw [List.length_nil] at hlen
        omega
      | some items =>
        have hget := h.getElem?_eq hitems hlt
        have hmin : min (i + 1 + n) v.len = min (i + (n + 1)) v.len := by
          rw [Nat.add_assoc, Nat.add_comm 1 n]
        have hdrop : xs.drop i = items i :: xs.drop (i + 1) := by
          obtain ⟨hi', hx⟩ := List.getElem?_eq_some_iff.mp hget
          rw [List.drop_eq_getElem_cons hi', hx]
        have hrest := @ih (i + 1) hlt
        simp [vecIterRounds, vecIterNext, hmore, hitems, hrest, hmin, hdrop]
    · have hnone : i ≥ v.len := by omega
      have hdrop : xs.drop i = [] := List.drop_eq_nil_of_le (by omega)
      have hmin : min (i + (n + 1)) v.len = i := by omega
      simp [vecIterRounds, vecIterNext, hnone, hdrop, hmin]

/-- The iterator of a vector that holds a list yields the list. -/
theorem iterates (h : v.Holds present capacity xs) : v.Iterates xs := by
  intro n
  refine ⟨⟨v, min (0 + n) v.len⟩, h.iterRounds n (Nat.zero_le _), fun hle => ?_⟩
  have hlen := h.len_eq
  have hend : min (0 + n) v.len ≥ v.len := by omega
  simp only [vecIterNext, hend, Bool.not_true, Bool.false_eq_true, if_false, if_true]

/-- The slices of a vector that holds a list are its sublists. -/
theorem slices (h : v.Holds present capacity xs) : v.Slices xs := by
  intro start stop hle hstop
  have hin : ¬ (start > stop ∨ stop > v.len) := by omega
  simp only [vecSlice, hin, if_false]
  refine ⟨trivial, fun hsome => ?_⟩
  obtain ⟨items, hitems⟩ := Option.isSome_iff_exists.mp hsome
  refine ⟨fun k => items (start + k), by rw [hitems, Option.map_some], ?_⟩
  rw [← h.contents items hitems, Cells.take_read hstop, Cells.drop_read, Nat.zero_add]
  apply List.map_congr_left
  intro i _
  rw [Nat.zero_add]

end Vec.Holds

/-- A vector initialised with an accepted capacity holds nothing yet. -/
theorem holds_of_vecInit {fn : String} {buffer : Option (Nat → α)} {elemSize : Nat}
    (h : vecInit fn buffer capacity elemSize = .ok v)
    (haccept : capacity ≤ vecMaxCapacity / elemSize) :
    v.Holds buffer.isSome capacity [] := by
  have hmax := Nat.le_trans haccept (Nat.div_le_self vecMaxCapacity elemSize)
  obtain ⟨⟨⟩, hreq, hv⟩ := bind_eq_ok.mp h
  rw [requireMsg_eq_ok, decide_eq_true_iff] at hreq
  rw [if_neg (Nat.not_lt_of_le haccept)] at hv
  obtain rfl := Except.ok.inj hv
  refine ⟨rfl, fun habsent => ?_, fun _ _ => rfl, rfl, ?_, rfl, Nat.zero_le _⟩
  · rw [habsent] at hreq
    simpa using hreq
  · unfold vecMaxCapacity at hmax
    unfold usizeSize
    omega

/-- Every run from `vec_init` with an accepted capacity is the run of the bounded list, and in
every state it reaches the tiers of a push agree, the iterator and the slices show the list, and a
call that reports failure changes nothing. -/
theorem vec_refines_bounded_list {fn : String} {buffer : Option (Nat → α)} {elemSize : Nat}
    (hinit : vecInit fn buffer capacity elemSize = .ok v)
    (haccept : capacity ≤ vecMaxCapacity / elemSize) (mangle : String → String)
    (ops : List (VecOp α)) :
    Agree (Vec.Holds buffer.isSome capacity) (run (vecStep mangle) v ops)
        (run (vecSpec buffer.isSome capacity) [] ops) ∧
      ∀ os t, run (vecStep mangle) v ops = .ok (os, t) →
        ∃ xs, run (vecSpec buffer.isSome capacity) [] ops = .ok (os, xs) ∧
          t.Holds buffer.isSome capacity xs ∧ xs.length ≤ capacity ∧ t.TiersAgree ∧
          t.Iterates xs ∧ t.Slices xs ∧
          ∀ op o t', vecStep mangle t op = .ok (o, t') → o.failed = true → t' = t := by
  have hruns := run_agree
    (fun t xs op ht => @vecStep_agree α t capacity buffer.isSome xs mangle ht op)
    ops (holds_of_vecInit hinit haccept)
  refine ⟨hruns, fun os t ht => ?_⟩
  rw [ht] at hruns
  cases hspec : run (vecSpec buffer.isSome capacity) [] ops with
  | error e =>
    rw [hspec] at hruns
    exact hruns.elim
  | ok p =>
    rw [hspec] at hruns
    obtain ⟨hos, hholds⟩ := hruns
    refine ⟨p.2, by rw [hos], hholds, ?_, hholds.tiersAgree, hholds.iterates, hholds.slices,
      fun op o t' => vecStep_failed⟩
    rw [← hholds.len_eq]
    exact hholds.len_le

/-- Three slots: the three tiers fill them, one element is taken out of the middle and the rest
is filled up. -/
theorem vec_refines_bounded_list_three :
    ∃ (v t : Vec Nat) (os : List (VecOut Nat)),
      vecInit "vec_int_init" (some fun _ => 0) 3 4 = .ok v ∧
      run (vecStep ("vec_int_" ++ ·)) v [.push 5, .tryPush 6, .insert 0 4, .remove 1 true,
        .appendArray (.slots 0) 2, .fill 8 7] = .ok (os, t) ∧
      t.Holds true 3 [4, 6, 8] := by
  have hinit : vecInit "vec_int_init" (some fun _ => 0) 3 4 = .ok ⟨some fun _ => 0, 0, 3⟩ := rfl
  have h := vec_refines_bounded_list hinit (by decide) ("vec_int_" ++ ·) [.push 5, .tryPush 6,
    .insert 0 4, .remove 1 true, .appendArray (.slots 0) 2, .fill 8 7]
  exact ⟨_, _, _, hinit, rfl, h.1.2⟩

/-- A vector initialised without a buffer has capacity zero, and a bulk append of one element to
it is refused as an invalid argument, not for the capacity. -/
theorem vecAppendArray_no_buffer :
    ¬ ∀ (v : Vec Nat) (xs : List Nat) (count : Usize),
      vecInit "vec_int_init" none 0 4 = .ok v → xs.length = count →
        v.len + count ≤ usizeMax → v.capacity < v.len + count →
          vecAppendArray v (.array xs) count = .ok (v, .error .capacityExceeded) := by
  intro h
  cases h ⟨none, 0, 0⟩ [7] 1 rfl rfl (by decide) (by decide)

end CanonC
