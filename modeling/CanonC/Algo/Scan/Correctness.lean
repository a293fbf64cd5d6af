import CanonC.Algo.Scan.Model
import CanonC.Toolkit.Scan

/-!
# The scans ask about the elements from the left

For every predicate, also one that changes its context, a filter asks until the output is full
and the searches ask until they know: about no element twice and about none behind. The filter
writes what was accepted, the searches tell the first accepted element, and what they leave is
the context after exactly these questions.
-/

namespace CanonC

open Toolkit

variable {α Ctx : Type*} {pred : AlgoPredFn α Ctx} {ctx : Ctx} {base : List α} {k elemSize : Nat}

/-- The predicate that accepts what the given one answers with `answer`. -/
def AlgoPredFn.answers (pred : AlgoPredFn α Ctx) (answer : Bool) : AlgoPredFn α Ctx :=
  fun elem ctx => ((pred elem ctx).1 == answer, (pred elem ctx).2)

/-- The predicate with the opposite answers. -/
def AlgoPredFn.negated (pred : AlgoPredFn α Ctx) : AlgoPredFn α Ctx :=
  fun elem ctx => (!(pred elem ctx).1, (pred elem ctx).2)

/-- A predicate asked for true is the predicate. -/
theorem AlgoPredFn.answers_true (pred : AlgoPredFn α Ctx) : pred.answers true = pred := by
  funext elem ctx
  simp [answers]

/-- A negated predicate asked for false is the predicate. -/
theorem AlgoPredFn.negated_answers_false (pred : AlgoPredFn α Ctx) :
    pred.negated.answers false = pred := by
  funext elem ctx
  simp [answers, negated]

/-- Behind the elements seen and the elements written, the filter writes what is accepted until
the output is full. -/
theorem algoFilterLoop_spec (todo : List α) : ∀ (seen out rest : List α) (ctx : Ctx)
    (wanted k outCap : Nat), base = seen ++ todo → outCap = out.length + (wanted + 1) →
    wanted < rest.length → StopsAt pred (wanted + 1) todo ctx k →
    algoFilterLoop pred outCap base seen.length out.length (out ++ rest) ctx =
      .ok (out ++ passed pred (todo.take k) ctx ++
          rest.drop (passed pred (todo.take k) ctx).length,
        out.length + (passed pred (todo.take k) ctx).length, asked pred (todo.take k) ctx) := by
  induction todo with
  | nil =>
    rintro seen out rest ctx wanted k outCap rfl rfl hrest hstop
    obtain rfl := stopsAt_nil_iff.mp hstop
    rw [algoFilterLoop, if_neg (by simp)]
    simp [passed, asked]
  | cons x todo ih =>
    rintro seen out rest ctx wanted k outCap hbase hcap hrest hstop
    obtain ⟨k, rfl⟩ := hstop.pos wanted.succ_pos
    have hin : seen.length < base.length := by simp [hbase]
    have hread : readElem base seen.length = .ok x := by
      rw [hbase]
      exact readElem_append rfl
    have hnext : base = (seen ++ [x]) ++ todo := by rw [hbase, List.append_assoc]; rfl
    rw [algoFilterLoop, if_pos hin, hread, List.take_succ_cons]
    simp only
    cases hx : (pred x ctx).1 with
    | true =>
      have hwrite := @writeElem_free _ out rest (by omega) x
      have hrest' := (stopsAt_cons_of_true hx).mp hstop
      rw [if_pos rfl, hwrite, accepted_cons_of_true hx]
      simp only [asked]
      cases wanted with
      | zero =>
        obtain rfl := stopsAt_zero_iff.mp hrest'
        rw [if_pos (by omega)]
        simp [passed, asked]
      | succ wanted =>
        have htail := ih (seen ++ [x]) (out ++ [x]) (rest.drop 1) (pred x ctx).2 wanted k outCap
          hnext (by simp; omega) (by simp; omega) hrest'
        rw [if_neg (by omega)]
        simpa [Nat.add_assoc, Nat.add_comm] using htail
    | false =>
      have htail := ih (seen ++ [x]) out rest (pred x ctx).2 wanted k outCap hnext hcap hrest
        ((stopsAt_cons_of_false wanted.succ_pos hx).mp hstop)
      rw [if_neg Bool.false_ne_true, accepted_cons_of_false hx, asked]
      simpa using htail

/-- With room for what is wanted, both filters write what is accepted until they stop. -/
theorem algoFilter_spec (hpos : 0 < elemSize) {out : List α} {outCap : Nat}
    (hout : outCap ≤ out.length) (hstop : StopsAt pred outCap base ctx k) :
    algoFilter out outCap base elemSize pred ctx =
        .ok (passed pred (base.take k) ctx ++ out.drop (passed pred (base.take k) ctx).length,
          (passed pred (base.take k) ctx).length, asked pred (base.take k) ctx) ∧
      algoFilterSlice out outCap base pred ctx =
        algoFilter out outCap base elemSize pred ctx := by
  have hsame : algoFilterSlice out outCap base pred ctx =
      algoFilter out outCap base elemSize pred ctx := by
    rw [algoFilter, decide_eq_true hpos, requireMsg_true, ok_bind, algoFilterSlice]
  refine ⟨?_, hsame⟩
  rw [algoFilter, decide_eq_true hpos, requireMsg_true, ok_bind]
  cases outCap with
  | zero =>
    obtain rfl := stopsAt_zero_iff.mp hstop
    rw [if_pos (Or.inr rfl)]
    rfl
  | succ wanted =>
    cases base with
    | nil =>
      obtain rfl := stopsAt_nil_iff.mp hstop
      rw [if_pos (Or.inl List.length_nil)]
      rfl
    | cons x base =>
      have hloop := algoFilterLoop_spec (x :: base) [] [] out ctx wanted k (wanted + 1) rfl
        (by simp) (by omega) hstop
      rw [if_neg (by simp)]
      simpa using hloop

/-- What a search has found when it has asked about the first `k` elements: nothing, or the last of
these, which is the only one accepted. -/
def Found (pred : AlgoPredFn α Ctx) (base : List α) (ctx : Ctx) (k : Nat) : Option Nat → Prop
  | none => passed pred (base.take k) ctx = []
  | some i => k = i + 1 ∧ ∃ x, base[i]? = some x ∧ passed pred (base.take k) ctx = [x]

/-- A place where the asking stops tells what was found. -/
theorem Found.unique {found found' : Option Nat} (h : Found pred base ctx k found)
    (h' : Found pred base ctx k found') : found = found' := by
  cases found with
  | none =>
    cases found' with
    | none => rfl
    | some i =>
      obtain ⟨-, x, -, hx⟩ := h'
      exact absurd (h.symm.trans hx) (List.cons_ne_nil x []).symm
  | some i =>
    obtain ⟨hk, x, -, hx⟩ := h
    cases found' with
    | none => exact absurd (h'.symm.trans hx) (List.cons_ne_nil x []).symm
    | some j =>
      obtain ⟨hk', -⟩ := h'
      rw [Nat.succ.inj (hk.symm.trans hk')]

/-- Behind the elements seen, the search asks until it finds one. -/
theorem algoSearchLoop_spec {answer : Bool} (todo : List α) : ∀ (seen : List α) (ctx : Ctx)
    (k : Nat), base = seen ++ todo → StopsAt (pred.answers answer) 1 todo ctx k →
    ∃ found, algoSearchLoop pred answer base seen.length ctx =
        .ok (found.map (seen.length + ·), asked (pred.answers answer) (todo.take k) ctx) ∧
      Found (pred.answers answer) todo ctx k found := by
  induction todo with
  | nil =>
    rintro seen ctx k rfl hstop
    obtain rfl := stopsAt_nil_iff.mp hstop
    refine ⟨none, ?_, rfl⟩
    rw [algoSearchLoop, if_neg (by simp)]
    rfl
  | cons x todo ih =>
    rintro seen ctx k hbase hstop
    obtain ⟨k, rfl⟩ := hstop.pos Nat.one_pos
    have hin : seen.length < base.length := by simp [hbase]
    have hread : readElem base seen.length = .ok x := by
      rw [hbase]
      exact readElem_append rfl
    have hnext : base = (seen ++ [x]) ++ todo := by rw [hbase, List.append_assoc]; rfl
    rw [algoSearchLoop, if_pos hin, hread, List.take_succ_cons]
    simp only
    by_cases hx : (pred x ctx).1 = answer
    · have hacc : (pred.answers answer x ctx).1 = true := beq_iff_eq.mpr hx
      obtain rfl := stopsAt_zero_iff.mp ((stopsAt_cons_of_true hacc).mp hstop)
      refine ⟨some 0, ?_, rfl, x, rfl, ?_⟩
      · rw [if_pos hx]
        rfl
      · rw [List.take_succ_cons, accepted_cons_of_true hacc]
        rfl
    · have hacc : (pred.answers answer x ctx).1 = false := beq_eq_false_iff_ne.mpr hx
      obtain ⟨found, hloop, hfound⟩ := ih (seen ++ [x]) (pred x ctx).2 k hnext
        ((stopsAt_cons_of_false Nat.one_pos hacc).mp hstop)
      rw [List.length_append, List.length_singleton] at hloop
      refine ⟨found.map (· + 1), ?_, ?_⟩
      · have hshift : ((seen.length + ·) ∘ (· + 1)) = (seen.length + 1 + ·) := by
          funext i
          exact Nat.add_left_comm seen.length i 1 |>.trans (Nat.add_comm i _)
        rw [if_neg hx, hloop, Option.map_map, hshift]
        rfl
      · cases found with
        | none =>
          rw [Option.map_none, Found, List.take_succ_cons, accepted_cons_of_false hacc]
          exact hfound
        | some i =>
          obtain ⟨rfl, y, hy, hkept⟩ := hfound
          refine ⟨rfl, y, hy, ?_⟩
          rw [List.take_succ_cons, accepted_cons_of_false hacc]
          exact hkept

/-- The searches from the first element. -/
theorem algoSearch_spec {answer : Bool} (hstop : StopsAt (pred.answers answer) 1 base ctx k) :
    ∃ found, algoSearchLoop pred answer base 0 ctx =
        .ok (found, asked (pred.answers answer) (base.take k) ctx) ∧
      Found (pred.answers answer) base ctx k found := by
  obtain ⟨found, hloop, hfound⟩ := algoSearchLoop_spec base [] ctx k rfl hstop
  refine ⟨found, ?_, hfound⟩
  simpa using hloop

/-- A filter with room asks until its output is full or no element is left, and writes what is
accepted on the way in front of what the output held. The filter for slices does the same. -/
theorem algoFilter_asks (pred : AlgoPredFn α Ctx) (ctx : Ctx) (base : List α) {out : List α}
    {outCap elemSize : Nat} (hpos : 0 < elemSize) (hout : outCap ≤ out.length) :
    ∃ k, StopsAt pred outCap base ctx k ∧
      algoFilter out outCap base elemSize pred ctx =
        .ok (passed pred (base.take k) ctx ++ out.drop (passed pred (base.take k) ctx).length,
          (passed pred (base.take k) ctx).length, asked pred (base.take k) ctx) ∧
      algoFilterSlice out outCap base pred ctx =
        algoFilter out outCap base elemSize pred ctx := by
  obtain ⟨k, hstop⟩ := exists_stopsAt pred outCap base ctx
  exact ⟨k, hstop, algoFilter_spec hpos hout hstop⟩

/-- A filter that is full before the input ends. -/
theorem algoFilter_asks_full : ∃ k out n asks,
    StopsAt (fun x asks : Nat => (x % 2 == 0, asks + 1)) 2 [1, 2, 4, 6] 0 k ∧
      algoFilter [9, 9, 9] 2 [1, 2, 4, 6] 4 (fun x asks : Nat => (x % 2 == 0, asks + 1)) 0 =
        .ok (out, n, asks) := by
  obtain ⟨k, hstop, hfilter, -⟩ := algoFilter_asks (fun x asks : Nat => (x % 2 == 0, asks + 1)) 0
    [1, 2, 4, 6] (by decide : 0 < 4) (by decide : 2 ≤ [9, 9, 9].length)
  exact ⟨k, _, _, _, hstop, hfilter⟩

/-- All searches for one element are one: with any predicate they ask about the same elements and
leave the same context, they find the same element or none, the one for all elements is the one
for any with the opposite answers, and a filter with room for one element agrees. -/
theorem algo_searches_agree (pred : AlgoPredFn α Ctx) (ctx : Ctx) (base : List α) {elemSize : Nat}
    (hpos : 0 < elemSize) : ∃ k found,
      StopsAt pred 1 base ctx k ∧ Found pred base ctx k found ∧
      algoAny base elemSize pred ctx = .ok (found.isSome, asked pred (base.take k) ctx) ∧
      algoAnySlice base pred ctx = .ok (found.isSome, asked pred (base.take k) ctx) ∧
      algoAll base elemSize pred.negated ctx =
        .ok (!found.isSome, asked pred (base.take k) ctx) ∧
      algoAllSlice base pred.negated ctx = .ok (!found.isSome, asked pred (base.take k) ctx) ∧
      (∀ outIndex outElem, algoFind base elemSize pred ctx outIndex outElem =
        .ok (found.isSome, if outIndex then found else none, if outElem then found else none,
          asked pred (base.take k) ctx)) ∧
      algoFindSlice base pred ctx = .ok (found.bind (base[·]?), asked pred (base.take k) ctx) ∧
      algoFindIndexSlice base pred ctx = .ok (found.getD usizeMax, asked pred (base.take k) ctx) ∧
      ∀ x out, algoFilter (x :: out) 1 base elemSize pred ctx =
        .ok ((found.bind (base[·]?)).getD x :: out, found.toList.length,
          asked pred (base.take k) ctx) := by
  obtain ⟨k, hstop⟩ := exists_stopsAt pred 1 base ctx
  have htrue := @algoSearch_spec α Ctx pred ctx base k true
  have hfalse := @algoSearch_spec α Ctx pred.negated ctx base k false
  rw [AlgoPredFn.answers_true] at htrue
  rw [AlgoPredFn.negated_answers_false] at hfalse
  obtain ⟨found, hloop, hfound⟩ := htrue hstop
  obtain ⟨found', hloop', hfound'⟩ := hfalse hstop
  obtain rfl := hfound.unique hfound'
  refine ⟨k, found, hstop, hfound, ?_, ?_, ?_, ?_, fun outIndex outElem => ?_, ?_, ?_,
    fun x out => ?_⟩
  · rw [algoAny, decide_eq_true hpos, requireMsg_true, ok_bind, hloop, ok_bind]
  · rw [algoAnySlice, hloop, ok_bind]
  · rw [algoAll, decide_eq_true hpos, requireMsg_true, ok_bind, hloop', ok_bind, Option.not_isSome]
  · rw [algoAllSlice, hloop', ok_bind, Option.not_isSome]
  · rw [algoFind, decide_eq_true hpos, requireMsg_true, ok_bind]
    by_cases hempty : base.length = 0
    · obtain rfl := List.length_eq_zero_iff.mp hempty
      obtain rfl := stopsAt_nil_iff.mp hstop
      obtain rfl : found = none := hfound.unique rfl
      rw [if_pos hempty]
      cases outIndex <;> cases outElem <;> rfl
    · rw [if_neg hempty, hloop, ok_bind]
  · rw [algoFindSlice, hloop]
    cases found with
    | none => rfl
    | some i =>
      obtain ⟨-, x, hx, -⟩ := hfound
      simp only [readElem, Option.bind_some, hx]
  · rw [algoFindIndexSlice, hloop, ok_bind]
  · rw [(algoFilter_spec hpos (by simp) hstop).1]
    cases found with
    | none =>
      rw [Found] at hfound
      rw [hfound]
      rfl
    | some i =>
      obtain ⟨-, y, hy, hkept⟩ := hfound
      rw [hkept, Option.bind_some, hy]
      rfl

/-- The searches for the first even number. -/
theorem algo_searches_agree_even : ∃ (found : Option Nat) (asks : Nat),
    algoAny [1, 4, 6] 4 (fun x asks : Nat => (x % 2 == 0, asks + 1)) 0 =
        .ok (found.isSome, asks) ∧
      algoFindIndexSlice [1, 4, 6] (fun x asks : Nat => (x % 2 == 0, asks + 1)) 0 =
        .ok (found.getD usizeMax, asks) := by
  obtain ⟨k, found, -, -, hany, -, -, -, -, -, hindex, -⟩ := algo_searches_agree
    (fun x asks : Nat => (x % 2 == 0, asks + 1)) 0 [1, 4, 6] (by decide : 0 < 4)
  exact ⟨found, _, hany, hindex⟩

end CanonC
