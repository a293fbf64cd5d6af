import CanonC.Data.Smallvec.Calls
import CanonC.Toolkit.Run

/-!
# Inline-first vectors are independent lists

A program with any number of vectors, some of them copied from inline ones, acts on as many
lists: a call changes the list of its own vector and no other, wherever the elements lie. A vector
that has spilled stays where it is until it is given back.
-/

namespace CanonC

open Toolkit

variable {α : Type} {size inlineCap : Nat} {mem mem' : TypedMemory α} {s s' : SmallvecState α}
  {v w : Smallvec} {xs : List α} {k : Nat}

/-- The lists of the vectors. -/
def SmallvecState.lists (s : SmallvecState α) : List (List α) := s.vecs.map (·.elements s.mem)

/-- Each vector holds its list in objects of its own. -/
structure SmallvecState.Good (size inlineCap : Nat) (s : SmallvecState α) : Prop where
  /-- Each vector holds its list. -/
  holds : ∀ (k : Nat) (v : Smallvec), s.vecs[k]? = some v →
    v.Holds size inlineCap s.mem (v.elements s.mem)
  /-- No object is of two vectors. -/
  apart : ∀ (j k : Nat) (v w : Smallvec) (i : Nat), s.vecs[j]? = some v → s.vecs[k]? = some w →
    j ≠ k → v.Owns i → ¬ w.Owns i

/-- What a step makes of the lists. -/
def SmallvecOp.effect (size : Nat) (s : SmallvecState α) (ok : Bool) : SmallvecOp α → List (List α)
  | .new _ _ => s.lists ++ [[]]
  | .copy k _ => s.lists ++ [s.lists.getD k []]
  | .on k c =>
    if ok then s.lists.modify k fun xs => (c.effect xs (c.source size s.mem)).2 else s.lists
  | .other _ => s.lists

/-- What a step answers and leaves. -/
structure SmallvecOp.Outcome (size inlineCap : Nat) (s : SmallvecState α) (op : SmallvecOp α)
    (o : SmallvecOut α) (s' : SmallvecState α) : Prop where
  /-- Each vector holds its list in objects of its own. -/
  good : s'.Good size inlineCap
  /-- A call acts on the list of its vector and on no other. -/
  lists : s'.lists = op.effect size s o.ok
  /-- What a call does with its vector. -/
  call : ∀ k c, op = .on k c → ∃ v v', s.vecs[k]? = some v ∧ s'.vecs = s.vecs.set k v' ∧
    c.Outcome size inlineCap s.mem v o s'.mem v'
  /-- A call that fails changes nothing. -/
  refused : o.ok = false → s' = s
  /-- Nothing but a call changes a vector. -/
  declares : (∀ k c, op ≠ .on k c) → s.vecs <+: s'.vecs

/-- Where the objects of a vector are kept its elements are the same. -/
theorem Smallvec.Holds.elements_keep (h : v.Holds size inlineCap mem xs)
    (hkeeps : ∀ i a, v.Owns i → mem.objects i = some a → mem'.objects i = some a) :
    v.elements mem' = v.elements mem :=
  (h.of_keeps hkeeps).elements_eq.trans h.elements_eq.symm

section Steps

private theorem call_good (h : s.Good size inlineCap) (hk : s.vecs[k]? = some v)
    {c : SmallvecCall α} {o : SmallvecOut α} {v' : Smallvec}
    (houtcome : c.Outcome size inlineCap s.mem v o mem' v') :
    SmallvecState.Good size inlineCap ⟨mem', s.vecs.set k v'⟩ ∧
      SmallvecState.lists ⟨mem', s.vecs.set k v'⟩ = s.lists.set k (v'.elements mem') := by
  have hlt : k < s.vecs.length := (List.getElem?_eq_some_iff.mp hk).1
  have hothers {j : Nat} {w : Smallvec} (hj : s.vecs[j]? = some w) (hjk : j ≠ k) (i : Nat)
      (a : Object α) (hi : w.Owns i) (ha : s.mem.objects i = some a) : mem'.objects i = some a :=
    houtcome.keeps i a (h.apart j k w v i hj hk hjk hi) ha
  have hself : (s.vecs.set k v')[k]? = some v' := List.getElem?_set_self hlt
  have hother {j : Nat} (hjk : j ≠ k) : (s.vecs.set k v')[j]? = s.vecs[j]? :=
    List.getElem?_set_ne hjk.symm
  have hnew {j : Nat} {w : Smallvec} {i : Nat} (hj : s.vecs[j]? = some w) (hjk : j ≠ k)
      (hi : w.Owns i) : ¬ v'.Owns i := by
    intro hi'
    rcases houtcome.owns i hi' with hold | hfresh
    · exact h.apart j k w v i hj hk hjk hi hold
    · obtain ⟨a, ha⟩ := (h.holds j w hj).owned hi
      rw [hfresh] at ha
      cases ha
  refine ⟨⟨fun j w hj => ?_, fun j l w u i hj hl hjl hi hi' => ?_⟩, ?_⟩
  · by_cases hjk : j = k
    · rw [hjk, hself] at hj
      rw [← Option.some.inj hj]
      exact houtcome.holds
    · rw [hother hjk] at hj
      have hholds := h.holds j w hj
      change w.Holds size inlineCap mem' (w.elements mem')
      rw [hholds.elements_keep (hothers hj hjk)]
      exact hholds.of_keeps (hothers hj hjk)
  · change (s.vecs.set k v')[j]? = some w at hj
    change (s.vecs.set k v')[l]? = some u at hl
    by_cases hjk : j = k
    · rw [hjk] at hjl
      rw [hjk, hself] at hj
      rw [hother hjl.symm] at hl
      rw [← Option.some.inj hj] at hi
      exact hnew hl hjl.symm hi' hi
    · rw [hother hjk] at hj
      by_cases hlk : l = k
      · rw [hlk, hself] at hl
        rw [← Option.some.inj hl] at hi'
        exact hnew hj hjk hi hi'
      · rw [hother hlk] at hl
        exact h.apart j l w u i hj hl hjl hi hi'
  · apply List.ext_getElem?
    intro j
    simp only [SmallvecState.lists, List.getElem?_map, List.getElem?_set]
    by_cases hjk : k = j
    · simp only [hjk, if_true, List.length_map]
      split <;> rfl
    · simp only [if_neg hjk]
      cases hj : s.vecs[j]? with
      | none => rfl
      | some w =>
        simp only [Option.map_some]
        rw [(h.holds j w hj).elements_keep (hothers hj (Ne.symm hjk))]

private theorem append_good (h : s.Good size inlineCap) (hkeeps : s.mem.Keeps mem' none)
    (hw : w.Holds size inlineCap mem' xs) (howns : ∀ i, w.Owns i → s.mem.objects i = none) :
    SmallvecState.Good size inlineCap ⟨mem', s.vecs ++ [w]⟩ ∧
      SmallvecState.lists ⟨mem', s.vecs ++ [w]⟩ = s.lists ++ [xs] := by
  have hold (j : Nat) (u : Smallvec) (hj : (s.vecs ++ [w])[j]? = some u) :
      s.vecs[j]? = some u ∨ j = s.vecs.length ∧ u = w := by
    rw [List.getElem?_append] at hj
    split at hj
    · exact Or.inl hj
    · obtain ⟨hlt, hget⟩ := List.getElem?_eq_some_iff.mp hj
      rw [List.length_singleton] at hlt
      right
      refine ⟨by omega, ?_⟩
      rw [← hget]
      exact List.getElem_singleton hlt
  have hall {j : Nat} {u : Smallvec} (i : Nat) (a : Object α) (_ : u.Owns i)
      (ha : s.mem.objects i = some a) : mem'.objects i = some a :=
    hkeeps i a (Option.some_ne_none i) ha
  refine ⟨⟨fun j u hj => ?_, fun j l u t i hj hl hjl hi hi' => ?_⟩, ?_⟩
  · rcases hold j u hj with hj | ⟨-, rfl⟩
    · have hholds := h.holds j u hj
      change u.Holds size inlineCap mem' (u.elements mem')
      rw [hholds.elements_keep (@hall j u)]
      exact hholds.of_keeps (@hall j u)
    · exact hw.elements_eq.symm ▸ hw
  · rcases hold j u hj with hj' | ⟨hjw, huw⟩
    · rcases hold l t hl with hl' | ⟨-, htw⟩
      · exact h.apart j l u t i hj' hl' hjl hi hi'
      · obtain ⟨a, ha⟩ := (h.holds j u hj').owned hi
        rw [htw] at hi'
        rw [howns i hi'] at ha
        cases ha
    · rcases hold l t hl with hl' | ⟨hlw, -⟩
      · obtain ⟨a, ha⟩ := (h.holds l t hl').owned hi'
        rw [huw] at hi
        rw [howns i hi] at ha
        cases ha
      · exact hjl (hjw.trans hlw.symm)
  · rw [SmallvecState.lists, List.map_append, List.map_singleton, hw.elements_eq,
      SmallvecState.lists]
    congr 1
    apply List.map_congr_left
    intro u hu
    obtain ⟨j, hj⟩ := List.mem_iff_getElem?.mp hu
    exact (h.holds j u hj).elements_keep (@hall j u)

private theorem smallvecNew_outcome (h : s.Good size inlineCap) (arena : Bool) (place : Grant α)
    (hallows : s.allows size inlineCap (.new arena place) = true) :
    ∃ o s', smallvecRun size inlineCap s (.new arena place) = .ok (o, s') ∧
      (SmallvecOp.new arena place).Outcome size inlineCap s o s' := by
  simp only [SmallvecState.allows] at hallows
  rcases Store.Buffer.malloc s.mem size inlineCap (some place) with
    hno | ⟨mem', d, hyes, hbuffer, hkeeps, hfresh⟩
  · rw [hno] at hallows
    cases hallows
  · obtain ⟨a, ha, hsize, -⟩ := hbuffer.object d rfl
    have hinit := smallvecInit_holds ha hsize
    obtain ⟨w, hw, hholds, howns⟩ : ∃ w, (if arena then smallvecInitArena inlineCap d
        else smallvecInit inlineCap d) = w ∧ w.Holds size inlineCap mem' [] ∧
        ∀ i, w.Owns i → s.mem.objects i = none := by
      have howns (i : Nat) (hi : i = d ∨ none = some i) : s.mem.objects i = none := by
        rcases hi with rfl | hi
        · exact hfresh
        · cases hi
      cases arena with
      | false => exact ⟨_, rfl, hinit, howns⟩
      | true =>
        exact ⟨_, rfl, ⟨hinit.buffer, hinit.len_eq, hinit.home, hinit.inline, hinit.spilled⟩, howns⟩
    have hcall : smallvecRun size inlineCap s (.new arena place) =
        .ok (⟨true, none⟩, ⟨mem', s.vecs ++ [w]⟩) := by
      simp only [smallvecRun, hyes, hw]
    obtain ⟨hgood, hlists⟩ := append_good h hkeeps hholds howns
    exact ⟨_, _, hcall, hgood, hlists, fun _ _ heq => (by cases heq), fun hno => (by cases hno),
      fun _ => List.prefix_append _ _⟩

private theorem copy_inline {v : Smallvec} {xs : List α} {mem : TypedMemory α} {d : Nat}
    (h : v.Holds size inlineCap mem xs) (hin : v.usingInline = true)
    (hbuffer : mem.Buffer size (some d) inlineCap []) :
    ∃ mem', Store.move size mem ⟨d, 0⟩ ⟨v.inlineBuf, 0⟩ inlineCap = .ok mem' ∧
      Smallvec.Holds size inlineCap mem' { v with inlineBuf := d } xs ∧
      mem.Keeps mem' (some d) := by
  obtain ⟨-, hcap⟩ := h.inline hin
  have hle := h.len_le
  rw [hcap] at hle
  have hbuf : smallvecBuf v = some v.inlineBuf := by rw [smallvecBuf, if_pos hin]
  obtain ⟨a, ha, hbytes, hread⟩ := h.buffer.object v.inlineBuf hbuf
  have hall : mem.read size ⟨v.inlineBuf, 0⟩ inlineCap = .ok (Cells.read a.cells 0 inlineCap) := by
    apply Store.read_of_le ha
    exact Nat.le_of_eq (by rw [hbytes, hcap, Nat.zero_add])
  obtain ⟨mem', hwrite, hcopied, hkeeps⟩ := hbuffer.write (Cells.read a.cells 0 inlineCap)
    (Nat.le_refl _) (by simp)
  rw [splice_length, List.nil_append] at hcopied
  have htake := hcopied.take xs.length
  rw [Cells.take_read hle, hread] at htake
  obtain ⟨b, hb, hbsize, -⟩ := hcopied.object d rfl
  refine ⟨mem', ?_, ⟨?_, h.len_eq, ⟨b, hb, hbsize⟩, h.inline, fun hout => ?_⟩, hkeeps⟩
  · change mem.write size ⟨d, 0⟩ _ = .ok mem' at hwrite
    simp only [Store.move, hall, hwrite, ok_bind]
  · have hbuf' : smallvecBuf { v with inlineBuf := d } = some d := if_pos hin
    rw [hbuf']
    exact hcap.symm ▸ htake
  · rw [show v.usingInline = false from hout] at hin
    cases hin

private theorem smallvecCopy_outcome (h : s.Good size inlineCap) (k : Nat) (place : Grant α)
    (hallows : s.allows size inlineCap (.copy k place) = true) :
    ∃ o s', smallvecRun size inlineCap s (.copy k place) = .ok (o, s') ∧
      (SmallvecOp.copy k place).Outcome size inlineCap s o s' := by
  simp only [SmallvecState.allows, Bool.and_eq_true] at hallows
  obtain ⟨hinline, hplace⟩ := hallows
  cases hk : s.vecs[k]? with
  | none =>
    rw [hk] at hinline
    cases hinline
  | some v =>
    rw [hk] at hinline
    have hin : v.usingInline = true := hinline
    rcases Store.Buffer.malloc s.mem size inlineCap (some place) with
      hno | ⟨mem₁, d, hyes, hbuffer, hkeeps, hfresh⟩
    · rw [hno] at hplace
      cases hplace
    · have hholds := h.holds k v hk
      have hmoved := hholds.of_keeps fun i a _ ha => hkeeps i a (Option.some_ne_none _) ha
      obtain ⟨mem₂, hmove, hcopy, hkeeps₂⟩ := copy_inline hmoved hin hbuffer
      have hkept : s.mem.Keeps mem₂ none := by
        apply hkeeps.trans hkeeps₂
        intro d' hd'
        rw [← Option.some.inj hd']
        exact Or.inr hfresh
      have hcall : smallvecRun size inlineCap s (.copy k place) =
          .ok (⟨true, none⟩, ⟨mem₂, s.vecs ++ [{ v with inlineBuf := d }]⟩) := by
        simp only [smallvecRun, hk, hyes, hmove, ok_bind]
      obtain ⟨hgood, hlists⟩ := append_good h hkept hcopy fun i hi => by
        rcases hi with hi | hi
        · rw [show i = d from hi]
          exact hfresh
        · have hdata := (hholds.inline hin).1
          rw [show v.data = some i from hi] at hdata
          cases hdata
      have hget : s.lists.getD k [] = v.elements s.mem := by
        rw [List.getD_eq_getElem?_getD, SmallvecState.lists, List.getElem?_map, hk]
        rfl
      refine ⟨_, _, hcall, hgood, ?_, fun _ _ heq => (by cases heq), fun hno => (by cases hno),
        fun _ => List.prefix_append _ _⟩
      rw [hlists, SmallvecOp.effect, hget]

private theorem smallvecOn_outcome (h : s.Good size inlineCap) (hsize : 0 < size)
    (hcap : 0 < inlineCap) (k : Nat) (c : SmallvecCall α)
    (hallows : s.allows size inlineCap (.on k c) = true) :
    ∃ o s', smallvecRun size inlineCap s (.on k c) = .ok (o, s') ∧
      (SmallvecOp.on k c).Outcome size inlineCap s o s' := by
  simp only [SmallvecState.allows] at hallows
  cases hk : s.vecs[k]? with
  | none =>
    rw [hk] at hallows
    cases hallows
  | some v =>
    rw [hk] at hallows
    obtain ⟨o, mem', v', hcall, houtcome⟩ :=
      smallvecCall_outcome (h.holds k v hk) hsize hcap c hallows
    have hrun : smallvecRun size inlineCap s (.on k c) = .ok (o, ⟨mem', s.vecs.set k v'⟩) := by
      simp only [smallvecRun, hk, hcall, ok_bind]
    have hrefused (hno : o.ok = false) : (⟨mem', s.vecs.set k v'⟩ : SmallvecState α) = s := by
      obtain ⟨-, rfl, rfl⟩ := houtcome.refused hno
      obtain ⟨hlt, rfl⟩ := List.getElem?_eq_some_iff.mp hk
      rw [List.set_getElem_self]
    obtain ⟨hgood, hlists⟩ := call_good h hk houtcome
    refine ⟨_, _, hrun, hgood, ?_, fun j c' heq => ?_, hrefused, fun hne => absurd rfl (hne k c)⟩
    · cases hok : o.ok with
      | false =>
        rw [hrefused hok]
        rfl
      | true =>
        have helements : v'.elements mem' =
            (c.effect (v.elements s.mem) (c.source size s.mem)).2 :=
          congrArg Prod.snd (houtcome.done hok)
        have hget : s.lists[k]? = some (v.elements s.mem) := by
          rw [SmallvecState.lists, List.getElem?_map, hk, Option.map_some]
        rw [hlists, helements, SmallvecOp.effect, if_pos rfl, List.modify_eq_set, hget,
          Option.getD_some]
    · obtain ⟨rfl, rfl⟩ := SmallvecOp.on.inj heq
      exact ⟨v, v', hk, rfl, houtcome⟩

private theorem smallvecOther_outcome (h : s.Good size inlineCap) (c : Store.Call α)
    (hallows : s.allows size inlineCap (.other c) = true) :
    ∃ o s', smallvecRun size inlineCap s (.other c) = .ok (o, s') ∧
      (SmallvecOp.other c).Outcome size inlineCap s o s' := by
  simp only [SmallvecState.allows, Bool.and_eq_true, Bool.or_eq_true, decide_eq_true_eq,
    List.all_eq_true, bne_iff_ne] at hallows
  obtain ⟨htarget, hok⟩ := hallows
  cases hmem : s.mem.call size c with
  | error e =>
    rw [hmem] at hok
    cases hok
  | ok mem' =>
    have hrun : smallvecRun size inlineCap s (.other c) = .ok (⟨true, none⟩, ⟨mem', s.vecs⟩) := by
      simp only [smallvecRun, hmem, ok_bind]
    have hkeeps {j : Nat} {u : Smallvec} (hj : s.vecs[j]? = some u) (i : Nat) (a : Object α)
        (hi : u.Owns i) (ha : s.mem.objects i = some a) : mem'.objects i = some a := by
      apply Store.objects_call hmem ha
      intro heq
      rcases htarget with hnone | hall
      · rw [hnone] at heq
        cases heq
      · obtain ⟨hhome, hdata⟩ := hall u (List.mem_of_getElem? hj)
        rcases hi with rfl | hi
        · exact hhome heq
        · exact hdata (heq.trans hi.symm)
    refine ⟨_, _, hrun, ⟨fun j u hj => ?_, h.apart⟩, ?_, fun _ _ heq => (by cases heq),
      fun hno => (by cases hno), fun _ => List.prefix_rfl⟩
    · have hholds := h.holds j u hj
      change u.Holds size inlineCap mem' (u.elements mem')
      rw [hholds.elements_keep (hkeeps hj)]
      exact hholds.of_keeps (hkeeps hj)
    · apply List.map_congr_left
      intro u hu
      obtain ⟨j, hj⟩ := List.mem_iff_getElem?.mp hu
      exact (h.holds j u hj).elements_keep (hkeeps hj)

/-- Every step that keeps to its contract is taken, with an outcome as specified. -/
theorem smallvecStep_outcome (h : s.Good size inlineCap) (hsize : 0 < size) (hcap : 0 < inlineCap)
    (op : SmallvecOp α) (hallows : s.allows size inlineCap op = true) :
    ∃ o s', smallvecStep size inlineCap s op = .ok (o, s') ∧
      op.Outcome size inlineCap s o s' := by
  rw [smallvecStep, if_pos hallows]
  cases op with
  | new arena place => exact smallvecNew_outcome h arena place hallows
  | copy k place => exact smallvecCopy_outcome h k place hallows
  | on k c => exact smallvecOn_outcome h hsize hcap k c hallows
  | other c => exact smallvecOther_outcome h c hallows

end Steps

section Runs

variable {op : SmallvecOp α} {o : SmallvecOut α}

private theorem smallvecStep_ok (h : s.Good size inlineCap) (hsize : 0 < size)
    (hcap : 0 < inlineCap) (hstep : smallvecStep size inlineCap s op = .ok (o, s')) :
    op.Outcome size inlineCap s o s' := by
  have hallows : s.allows size inlineCap op = true := by
    unfold smallvecStep at hstep
    split at hstep
    · assumption
    · cases hstep
  obtain ⟨o', t, hstep', houtcome⟩ := smallvecStep_outcome h hsize hcap op hallows
  rw [hstep'] at hstep
  obtain ⟨rfl, rfl⟩ := Prod.mk.inj (Except.ok.inj hstep)
  exact houtcome

private theorem vecs_of_ne (houtcome : op.Outcome size inlineCap s o s')
    (hne : ∀ c, op ≠ .on k c) (hk : s.vecs[k]? = some v) : s'.vecs[k]? = some v := by
  by_cases hon : ∃ j c, op = .on j c
  · obtain ⟨j, c, rfl⟩ := hon
    obtain ⟨u, u', -, hvecs, -⟩ := houtcome.call j c rfl
    have hjk : j ≠ k := fun heq => hne c (heq ▸ rfl)
    rw [hvecs, List.getElem?_set_ne hjk, hk]
  · have hprefix := houtcome.declares fun j c heq => hon ⟨j, c, heq⟩
    obtain ⟨ws, hws⟩ := hprefix
    rw [← hws, List.getElem?_append_left (List.getElem?_eq_some_iff.mp hk).1, hk]

private theorem spilled_stays (houtcome : op.Outcome size inlineCap s o s')
    (hfree : op ≠ .on k .free) {data : Option Nat} {cap : Nat}
    (h : ∃ v, s.vecs[k]? = some v ∧ v.usingInline = false ∧ v.data = data ∧ v.cap = cap) :
    ∃ v, s'.vecs[k]? = some v ∧ v.usingInline = false ∧ v.data = data ∧ v.cap = cap := by
  obtain ⟨v, hk, hout, hdata, hcap⟩ := h
  by_cases hon : ∃ c, op = .on k c
  · obtain ⟨c, rfl⟩ := hon
    obtain ⟨u, v', hu, hvecs, hcall⟩ := houtcome.call k c rfl
    obtain rfl := Option.some.inj (hk.symm.trans hu)
    have hself : s'.vecs[k]? = some v' := by
      rw [hvecs]
      exact List.getElem?_set_self (List.getElem?_eq_some_iff.mp hk).1
    refine ⟨v', hself, ?_⟩
    cases hok : o.ok with
    | false =>
      obtain ⟨-, -, rfl⟩ := hcall.refused hok
      exact ⟨hout, hdata, hcap⟩
    | true =>
      by_cases hfits : (v.elements s.mem).length + c.adds ≤ v.cap
      · obtain ⟨hdata', hcap', hin'⟩ := hcall.stays (fun heq => hfree (heq ▸ rfl)) hfits
        exact ⟨hin'.trans hout, hdata'.trans hdata, hcap'.trans hcap⟩
      · have hin := (hcall.spills hok (Nat.lt_of_not_le hfits)).1
        rw [hout] at hin
        cases hin
  · exact ⟨v, vecs_of_ne houtcome (fun c heq => hon ⟨c, heq⟩) hk, hout, hdata, hcap⟩

private theorem lists_of_ne (houtcome : op.Outcome size inlineCap s o s')
    (hne : ∀ c, op ≠ .on k c) (hk : s.lists[k]? = some xs) : s'.lists[k]? = some xs := by
  have hlt := (List.getElem?_eq_some_iff.mp hk).1
  rw [houtcome.lists]
  cases op with
  | new arena place => rw [SmallvecOp.effect, List.getElem?_append_left hlt, hk]
  | copy j place => rw [SmallvecOp.effect, List.getElem?_append_left hlt, hk]
  | on j c =>
    have hjk : j ≠ k := fun heq => hne c (heq ▸ rfl)
    cases hok : o.ok with
    | false =>
      rw [SmallvecOp.effect, if_neg Bool.false_ne_true, hk]
    | true =>
      rw [SmallvecOp.effect, if_pos rfl, List.getElem?_modify, hk]
      exact congrArg some (if_neg hjk)
  | other c => exact hk

/-- In every state that a program reaches each vector holds its list in objects of its own. -/
theorem smallvec_good_of_run {ops : List (SmallvecOp α)} {os : List (SmallvecOut α)}
    (hsize : 0 < size) (hcap : 0 < inlineCap)
    (hrun : run (smallvecStep size inlineCap) ⟨mem, []⟩ ops = .ok (os, s)) :
    s.Good size inlineCap :=
  run_invariant (fun _ _ _ _ ht hstep => (smallvecStep_ok ht hsize hcap hstep).good)
    ⟨fun k v hk => by simp at hk, fun j k v w i hj => by simp at hj⟩ hrun

/-- In every state that a program reaches, whatever the allocators answer, every call that keeps to
its contract is answered without a fault and acts on the list of its vector alone, wherever the
elements lie. An inline vector has the room of its array and a spilled one at least twice that; a
spilled vector stays where it is until it is given back, and the list of a vector changes by calls
on it alone, also where it is a copy of another one. -/
theorem smallvec_refines_lists {ops : List (SmallvecOp α)} {os : List (SmallvecOut α)}
    (hsize : 0 < size) (hcap : 0 < inlineCap)
    (hrun : run (smallvecStep size inlineCap) ⟨mem, []⟩ ops = .ok (os, s)) :
    (∀ v ∈ s.vecs, v.len = (v.elements s.mem).length ∧ v.len ≤ v.cap ∧
      (v.usingInline = true → v.cap = inlineCap) ∧
      (v.usingInline = false → 2 * inlineCap ≤ v.cap)) ∧
    (∀ op, s.allows size inlineCap op = true →
      ∃ o s', smallvecStep size inlineCap s op = .ok (o, s') ∧ op.Outcome size inlineCap s o s') ∧
    ∀ more os' s', run (smallvecStep size inlineCap) s more = .ok (os', s') → ∀ k,
      (∀ v, s.vecs[k]? = some v → v.usingInline = false → (∀ op ∈ more, op ≠ .on k .free) →
        ∃ v', s'.vecs[k]? = some v' ∧ v'.usingInline = false ∧ v'.data = v.data ∧ v'.cap = v.cap) ∧
      ∀ xs, s.lists[k]? = some xs → (∀ op ∈ more, ∀ c, op ≠ .on k c) → s'.lists[k]? = some xs := by
  have hgood := smallvec_good_of_run hsize hcap hrun
  refine ⟨fun v hv => ?_, smallvecStep_outcome hgood hsize hcap, fun more os' s' hmore k =>
    ⟨fun v hk hout hfree => ?_, fun xs hk hne => ?_⟩⟩
  · obtain ⟨k, hk⟩ := List.mem_iff_getElem?.mp hv
    have hholds := hgood.holds k v hk
    refine ⟨hholds.len_eq, hholds.len_eq ▸ hholds.len_le, fun hin => (hholds.inline hin).2,
      fun hout => ?_⟩
    obtain ⟨d, -, -, hle⟩ := hholds.spilled hout
    exact hle
  · have hstep (t : SmallvecState α) (op : SmallvecOp α) (o : SmallvecOut α) (t' : SmallvecState α)
        (hop : op ≠ .on k .free) (ht : t.Good size inlineCap ∧ ∃ u, t.vecs[k]? = some u ∧
          u.usingInline = false ∧ u.data = v.data ∧ u.cap = v.cap)
        (hstep : smallvecStep size inlineCap t op = .ok (o, t')) :
        t'.Good size inlineCap ∧ ∃ u, t'.vecs[k]? = some u ∧
          u.usingInline = false ∧ u.data = v.data ∧ u.cap = v.cap := by
      have houtcome := smallvecStep_ok ht.1 hsize hcap hstep
      exact ⟨houtcome.good, spilled_stays houtcome hop ht.2⟩
    exact (run_invariant_of hstep hfree ⟨hgood, v, hk, hout, rfl, rfl⟩ hmore).2
  · have hstep (t : SmallvecState α) (op : SmallvecOp α) (o : SmallvecOut α) (t' : SmallvecState α)
        (hop : ∀ c, op ≠ .on k c) (ht : t.Good size inlineCap ∧ t.lists[k]? = some xs)
        (hstep : smallvecStep size inlineCap t op = .ok (o, t')) :
        t'.Good size inlineCap ∧ t'.lists[k]? = some xs := by
      have houtcome := smallvecStep_ok ht.1 hsize hcap hstep
      exact ⟨houtcome.good, lists_of_ne houtcome hop ht.2⟩
    exact (run_invariant_of hstep hne ⟨hgood, hk⟩ hmore).2

/-- A full inline vector is copied and extended by itself, which spills it; the copy loses an
element and the spilled vector, which is full, refuses one. -/
theorem smallvec_refines_lists_copy : ∃ (os : List (SmallvecOut Nat)) (s : SmallvecState Nat),
    run (smallvecStep 4 2) ⟨Store.empty _ _, []⟩ [.new false ⟨1000, fun _ => 0⟩,
      .on 0 (.push 5 none), .on 0 (.insert 0 6 none), .copy 0 ⟨2000, fun _ => 9⟩,
      .on 0 (.extend (some ⟨0, 0⟩) 2 (some ⟨3000, fun _ => 9⟩)), .on 1 (.remove 0 true),
      .on 0 (.push 7 (some ⟨4000, fun _ => 9⟩))] = .ok (os, s) ∧
    s.lists = [[6, 5, 6, 5], [5]] ∧ os.map (·.ok) = [true, true, true, true, true, true, false] ∧
    ∀ v ∈ s.vecs, v.usingInline = false → 2 * 2 ≤ v.cap := by
  obtain ⟨os, s, hrun, hlists, hok⟩ : ∃ (os : List (SmallvecOut Nat)) (s : SmallvecState Nat),
      run (smallvecStep 4 2) ⟨Store.empty _ _, []⟩ [.new false ⟨1000, fun _ => 0⟩,
        .on 0 (.push 5 none), .on 0 (.insert 0 6 none), .copy 0 ⟨2000, fun _ => 9⟩,
        .on 0 (.extend (some ⟨0, 0⟩) 2 (some ⟨3000, fun _ => 9⟩)), .on 1 (.remove 0 true),
        .on 0 (.push 7 (some ⟨4000, fun _ => 9⟩))] = .ok (os, s) ∧
      s.lists = [[6, 5, 6, 5], [5]] ∧
      os.map (·.ok) = [true, true, true, true, true, true, false] := ⟨_, _, rfl, rfl, rfl⟩
  have hvecs := (smallvec_refines_lists (show 0 < 4 by decide) (show 0 < 2 by decide) hrun).1
  exact ⟨os, s, hrun, hlists, hok, fun v hv => (hvecs v hv).2.2.2⟩

end Runs

end CanonC
