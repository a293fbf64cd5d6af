import CanonC.Core.Bytes
import CanonC.Core.Memory

/-!
# String joining as the code computes it

A buffer is an object of exactly the size passed with it, and an access outside it is a
fault. The parts to join are strings or NULL; the parts that splitting leaves are indices
into the scratch buffer, each of a string of its own.
-/

namespace CanonC

/-- The loop of `str_join` over the parts from `i` on, when `pos` bytes are written. -/
def strJoinLoop (sp : List UInt8) (count : Nat) :
    List (Option CString) → Nat → Nat → List UInt8 → Except String (Bool × List UInt8)
  | [], _, pos, dest => do
    let dest ← writeElem dest pos 0
    .ok (true, dest)
  | none :: _, _, _, dest => do
    let dest ← writeElem dest 0 0
    .ok (false, dest)
  | some part :: parts, i, pos, dest =>
    let partLen := strLen part
    let needed := usizeAdd partLen 1
    let needed :=
      if usizeAdd i 1 < count ∧ 0 < sp.length then usizeAdd needed sp.length else needed
    if usizeAdd pos needed > dest.length then do
      let dest ← writeElem dest 0 0
      .ok (false, dest)
    else do
      let dest ← copyElems dest pos part.bytes partLen
      let pos := usizeAdd pos partLen
      if usizeAdd i 1 < count ∧ 0 < sp.length then do
        let dest ← copyElems dest pos sp sp.length
        strJoinLoop sp count parts (usizeAdd i 1) (usizeAdd pos sp.length) dest
      else strJoinLoop sp count parts (usizeAdd i 1) pos dest

/-- `str_join` of an array of `parts.length` strings: the flag and the buffer. -/
def strJoin (dest : Option (List UInt8)) (parts : List (Option CString)) (sep : Option CString) :
    Except String (Bool × List UInt8) :=
  match dest with
  | none => .error "str_join: dest is NULL"
  | some dest => do
    requireMsg (0 < dest.length) "str_join: dest_size is 0"
    if parts.length = 0 then do
      let dest ← writeElem dest 0 0
      .ok (true, dest)
    else
      let sp := sep.getD .empty
      strJoinLoop sp.bytes parts.length parts 0 0 dest

/-- The loop of `str_split_to_parts` with the number of rounds left, from index `p` on, when `count`
parts take the first `scratchPos` bytes of the scratch buffer. -/
def strSplitToPartsLoop (s : List UInt8) (delim : UInt8) (maxParts : Nat) :
    Nat → Nat → Nat → Nat → List Nat → List UInt8 → Except String (Nat × List Nat × List UInt8)
  | 0, _, _, _, _, _ => .error "str_split_to_parts: no round left"
  | rounds + 1, p, count, scratchPos, out, scratch => do
    let c ← readElem s p
    if c = 0 then .ok (count, out, scratch)
    else do
      let start ← scanWhile (· = delim) s p
      let c ← readElem s start
      if c = 0 then .ok (count, out, scratch)
      else do
        let p ← scanWhile (fun c => c ≠ 0 ∧ c ≠ delim) s start
        let partLen := p - start
        if usizeAdd (usizeAdd scratchPos partLen) 1 > scratch.length then .ok (0, out, scratch)
        else if count ≥ maxParts then .ok (0, out, scratch)
        else do
          let scratch ← copyElems scratch scratchPos (s.drop start) partLen
          let scratch ← writeElem scratch (usizeAdd scratchPos partLen) 0
          let out ← writeElem out count scratchPos
          strSplitToPartsLoop s delim maxParts rounds p (count + 1)
            (usizeAdd scratchPos (usizeAdd partLen 1)) out scratch

/-- `str_split_to_parts`: the number of parts, their array and the scratch buffer. -/
def strSplitToParts (s : Option CString) (delim : UInt8) (outParts : Option (List Nat))
    (maxParts : Nat) (scratchBuf : Option (List UInt8)) :
    Except String (Nat × List Nat × List UInt8) :=
  match s, outParts, scratchBuf with
  | none, _, _ => .error "str_split_to_parts: s is NULL"
  | _, none, _ => .error "str_split_to_parts: out_parts is NULL"
  | _, _, none => .error "str_split_to_parts: scratch_buf is NULL"
  | some s, some out, some scratch =>
    if maxParts = 0 ∨ scratch.length = 0 then .ok (0, out, scratch)
    else strSplitToPartsLoop s.object delim maxParts s.object.length 0 0 0 out scratch

/-- The string at an index of a buffer, absent where no terminator follows. -/
def cStringAt (buffer : List UInt8) (p : Nat) : Option CString :=
  let bytes := (buffer.drop p).takeWhile (· ≠ 0)
  if h : 0 ∈ buffer.drop p ∧ bytes.length < usizeMax then
    some ⟨bytes, fun b hb => by simpa using List.mem_takeWhile_imp hb, h.2⟩
  else none

/-- The strings that an array of parts points to; one without a terminator is read to the end of the
buffer and behind it. -/
def partStrings (scratch : List UInt8) (parts : List Nat) : Except String (List (Option CString)) :=
  parts.mapM fun p =>
    match cStringAt scratch p with
    | some part => .ok (some part)
    | none => .error outOfBounds

/-- `str_rejoin`: the flag and the destination. -/
def strRejoin (s : Option CString) (delim : UInt8) (partsBuf : Option (List Nat)) (maxParts : Nat)
    (scratchBuf : Option (List UInt8)) (dest : Option (List UInt8)) (newSep : Option CString) :
    Except String (Bool × List UInt8) := do
  requireMsg s.isSome "str_rejoin: s is NULL"
  requireMsg partsBuf.isSome "str_rejoin: parts_buf is NULL"
  requireMsg scratchBuf.isSome "str_rejoin: scratch_buf is NULL"
  match dest with
  | none => .error "str_rejoin: dest is NULL"
  | some dest => do
    requireMsg (0 < dest.length) "str_rejoin: dest_size is 0"
    let (count, parts, scratch) ← strSplitToParts s delim partsBuf maxParts scratchBuf
    if count = 0 then do
      let dest ← writeElem dest 0 0
      .ok (false, dest)
    else do
      let strings ← partStrings scratch (parts.take count)
      strJoin (some dest) strings newSep

end CanonC
