import TronKernel.Interrupt.KeyBuffer

/-!
# Reading the keyboard with `sys_read`

A process that reads the keyboard polls the ring and waits for the next interrupt in between. Each
poll takes what is in the ring, as far as it fits, and looks at the last character it took: a
newline or a zero ends the call, and is stored as a newline. Keys arrive between the polls, and
between the test of `getCount` and `readBuf`, which itself is not interrupted.

The call returns one line, and leaves the rest in the ring, exactly as long as no poll finds a
newline with further characters behind it, a zero at its end or the character `-1`, `i` does not
overflow, and the buffer has room for the terminator (`sysRead_line_iff`).
-/

namespace TronKernel.Keyboard

open Runs

def NEWLINE : Int8 := 10

/-- The keys that arrive before a poll, and those between its test and its `readBuf`. -/
structure Poll where
  before : List Int8
  between : List Int8
deriving DecidableEq

/-- The variables of `sys_read`, with the ring, the characters that the ring took in since the call
began (those it held then first), the indices stored to and the returned number. -/
structure Reading where
  ring : CircBuffer
  accepted : List Int8
  buf : ℤ → Int8
  written : List ℤ
  i : Int32
  returned : Option Int32

/-- A key arrives. A full ring drops it. -/
def arrive (s : Reading) (c : Int8) : Reading :=
  { s with
    ring := push s.ring c
    accepted := if s.ring.size < BUF_SIZE then s.accepted ++ [c] else s.accepted }

def arriveAll (s : Reading) (keys : List Int8) : Reading := keys.foldl arrive s

/-- The buffer once `str` is stored from index `i` on. -/
def storeAt (buf : ℤ → Int8) (i : ℤ) (str : List Int8) : ℤ → Int8 :=
  fun j => if i ≤ j ∧ j < i + str.length then str.getD (j - i).toNat 0 else buf j

/-- `*pos += readBuf(buf + *pos, count - *pos - 1)`. -/
def takeKeys (count : UInt32) (s : Reading) : Reading :=
  let (ring, str, n) := readBuf s.ring (count - s.i.toUInt32 - 1)
  let written := s.written ++ (List.range str.length).map fun k : ℕ => s.i.toInt + k
  { s with
    ring := ring
    buf := storeAt s.buf s.i.toInt str
    written := written
    i := s.i + Int32.ofNat n }

/-- `getKbdBuffer`, with the keys that arrive behind its test. -/
def getKbdBuffer (count : UInt32) (between : List Int8) (s : Reading) : Reading × Bool :=
  if getCount s.ring ≠ 0 then (takeKeys count (arriveAll s between), true)
  else (arriveAll s between, false)

/-- The test of the loop: behind it the buffer is terminated. -/
def finish (count : UInt32) (s : Reading) : Reading :=
  if s.i.toUInt32 < count - 1 then s
  else
    { s with
      buf := Function.update s.buf s.i.toInt 0
      written := s.written ++ [s.i.toInt]
      returned := some s.i }

/-- `buf[i - 1] = '\n'` and the `return` behind it. -/
def endLine (s : Reading) : Reading :=
  { s with
    buf := Function.update s.buf (s.i.toInt - 1) NEWLINE
    written := s.written ++ [s.i.toInt - 1]
    returned := some s.i }

/-- One round of the loop in `sys_read`. -/
def round (count : UInt32) (s : Reading) (p : Poll) : Reading :=
  let (s, read) := getKbdBuffer count p.between (arriveAll s p.before)
  if read ∧ (s.buf (s.i.toInt - 1) = NEWLINE ∨ s.buf (s.i.toInt - 1) = 0) then endLine s
  else finish count s

/-- `sys_read` on the keyboard, up to the first round. -/
def enter (count : UInt32) (ring : CircBuffer) (buf : ℤ → Int8) : Reading :=
  finish count ⟨ring, contents ring, buf, [], 0, none⟩

/-- A poll of a call that has not returned. -/
def pollStep (count : UInt32) (s : Reading) (p : Poll) : Option Reading :=
  some (if s.returned.isSome then s else round count s p)

/-- The number of bytes read, as long as `i` is not negative. -/
def Reading.read (s : Reading) : ℕ := s.i.toInt.toNat

/-- The bytes that are stored are the next keystrokes, and the others are still in the ring. -/
structure InOrder (count : UInt32) (s : Reading) : Prop where
  nonneg : 0 ≤ s.i.toInt
  /-- At most `count` bytes are stored. -/
  stored : ∀ j ∈ s.written, 0 ≤ j ∧ j < count.toNat
  bytes : ∀ j < s.read, s.accepted[j]? = some (s.buf j)
  rest : contents s.ring = s.accepted.drop s.read

/-- What has been read is one line, or the beginning of one. -/
structure LineSoFar (count : UInt32) (s : Reading) : Prop extends InOrder count s where
  /-- A call that goes on has not read a newline yet. -/
  waiting : s.returned = none → NEWLINE ∉ s.accepted.take s.read
  /-- A call that returned stopped at the first newline, or at `count - 1` bytes without one. -/
  line : ∀ n, s.returned = some n → n = s.i ∧ NEWLINE ∉ (s.accepted.take s.read).dropLast ∧
    ((s.accepted.take s.read).getLast? = some NEWLINE ∨ s.read + 1 = count.toNat)

/-- The characters that a poll finds, as far as they fit in the buffer. -/
def batch (count : UInt32) (s : Reading) (p : Poll) : List Int8 :=
  (contents (arriveAll s (p.before ++ p.between)).ring).take (count.toNat - 1 - s.read)

/-- The poll finds the ring empty, or what it takes can be counted in an `int`, has a newline at its
end at most, no zero there and no `-1`. -/
def CleanPoll (count : UInt32) (s : Reading) (p : Poll) : Prop :=
  s.returned = none → contents (arriveAll s p.before).ring ≠ [] →
    count ≠ 0 ∧ s.read + (batch count s p).length < 2 ^ 31 ∧ (-1 : Int8) ∉ batch count s p ∧
      NEWLINE ∉ (batch count s p).dropLast ∧ (batch count s p).getLast? ≠ some 0

instance (count : UInt32) (s : Reading) (p : Poll) : Decidable (CleanPoll count s p) :=
  inferInstanceAs (Decidable (_ → _ → _))

/-! ## Arrivals -/

variable {count : UInt32} {s : Reading} {p : Poll} {b : CircBuffer} {n i : ℕ}

/-- Keys that arrive go behind those that are waiting, and change nothing else. -/
structure Arrived (s s' : Reading) : Prop where
  within : Within s'.ring
  more : ∃ keys, s'.accepted = s.accepted ++ keys ∧ contents s'.ring = contents s.ring ++ keys
  buf : s'.buf = s.buf
  written : s'.written = s.written
  i : s'.i = s.i
  returned : s'.returned = s.returned

theorem arrived_arrive (h : Within s.ring) (c : Int8) : Arrived s (arrive s c) := by
  refine ⟨within_push h c, ?_, rfl, rfl, rfl, rfl⟩
  rw [arrive]
  by_cases hroom : s.ring.size < BUF_SIZE
  · exact ⟨[c], if_pos hroom, (push_room h hroom c).2⟩
  · refine ⟨[], ?_, ?_⟩
    · simp only [if_neg hroom, List.append_nil]
    · simp only [push, if_neg hroom, List.append_nil]

theorem arrived_arriveAll (h : Within s.ring) (keys : List Int8) :
    Arrived s (arriveAll s keys) := by
  induction keys generalizing s with
  | nil => exact ⟨h, ⟨[], by simp [arriveAll]⟩, rfl, rfl, rfl, rfl⟩
  | cons c keys ih =>
    obtain ⟨hwithin, ⟨first, hacc, hcont⟩, hbuf, hwritten, hi, hret⟩ := arrived_arrive h c
    obtain ⟨hwithin', ⟨more, hacc', hcont'⟩, hbuf', hwritten', hi', hret'⟩ := ih hwithin
    refine ⟨hwithin', ⟨first ++ more, ?_, ?_⟩, hbuf'.trans hbuf, hwritten'.trans hwritten,
      hi'.trans hi, hret'.trans hret⟩
    · exact hacc'.trans (by rw [hacc, List.append_assoc])
    · exact hcont'.trans (by rw [hcont, List.append_assoc])

theorem arriveAll_append (s : Reading) (keys keys' : List Int8) :
    arriveAll s (keys ++ keys') = arriveAll (arriveAll s keys) keys' := List.foldl_append

/-- The number of bytes read is within the keystrokes. -/
theorem InOrder.le (h : InOrder count s) : s.read ≤ s.accepted.length := by
  rcases Nat.eq_zero_or_pos s.read with h0 | hpos
  · omega
  · have hlast := h.bytes (s.read - 1) (by omega)
    have := (List.getElem?_eq_some_iff.mp hlast).1
    omega

theorem InOrder.toInt (h : InOrder count s) : s.i.toInt = s.read :=
  (Int.toNat_of_nonneg h.nonneg).symm

theorem Arrived.read {s' : Reading} (h : Arrived s s') : s'.read = s.read := by
  rw [Reading.read, h.i, Reading.read]

/-- Arrivals do not disturb what has been read. -/
theorem Arrived.inOrder {s' : Reading} (h : Arrived s s') (hs : InOrder count s) :
    InOrder count s' ∧ s'.accepted.take s'.read = s.accepted.take s.read := by
  have hread := h.read
  obtain ⟨-, ⟨keys, hacc, hcont⟩, hbuf, hwritten, hi, -⟩ := h
  have hle := hs.le
  refine ⟨⟨by rw [hi]; exact hs.nonneg, by rw [hwritten]; exact hs.stored, fun j hj => ?_, ?_⟩, ?_⟩
  · rw [hread] at hj
    rw [hacc, hbuf, List.getElem?_append_left (by omega)]
    exact hs.bytes j hj
  · rw [hcont, hacc, hread, List.drop_append_of_le_length hle, hs.rest]
  · rw [hacc, hread, List.take_append_of_le_length hle]

/-! ## One poll -/

theorem getCount_ne_zero_iff (h : Within b) : getCount b ≠ 0 ↔ contents b ≠ [] := by
  have hle : b.size ≤ 64 := h.size_le
  rw [ne_eq, ne_eq, not_iff_not, ← List.length_eq_zero_iff, length_contents, getCount,
    ← UInt8.toNat_inj, UInt8.toNat_ofNat']
  show b.size % 2 ^ 8 = 0 ↔ b.size = 0
  omega

/-- A round, by whether the ring is empty when it is tested. -/
theorem round_empty (h : Within s.ring) (hempty : contents (arriveAll s p.before).ring = []) :
    round count s p = finish count (arriveAll s (p.before ++ p.between)) := by
  have hcount := mt (getCount_ne_zero_iff (arrived_arriveAll h p.before).within).mp
    (not_not.mpr hempty)
  rw [round, getKbdBuffer, if_neg hcount, arriveAll_append]
  simp

theorem round_some (count : UInt32) (h : Within s.ring)
    (hsome : contents (arriveAll s p.before).ring ≠ []) : round count s p =
      let s := takeKeys count (arriveAll s (p.before ++ p.between))
      if s.buf (s.i.toInt - 1) = NEWLINE ∨ s.buf (s.i.toInt - 1) = 0 then endLine s
      else finish count s := by
  have hcount := (getCount_ne_zero_iff (arrived_arriveAll h p.before).within).mpr hsome
  rw [round, getKbdBuffer, if_pos hcount, arriveAll_append]
  simp

/-- The room that is left in the buffer, as `readBuf` is given it. -/
def space (count : UInt32) (i : Int32) : ℕ := (count - i.toUInt32 - 1).toNat

theorem toNat_toUInt32 {i : Int32} {k : ℕ} (h : i.toInt = k) : i.toUInt32.toNat = k := by
  have hnonneg : (0 : Int32) ≤ i := by
    rw [Int32.le_iff_toInt_le, h]
    exact Int.natCast_nonneg k
  rw [Int32.toNat_toUInt32_of_le hnonneg, Int32.toNatClampNeg, h, Int.toNat_natCast]

theorem toNat_sub_one (h : count ≠ 0) : (count - 1).toNat = count.toNat - 1 := by
  have hpos : count.toNat ≠ 0 := fun h0 => h (UInt32.toNat_inj.mp h0)
  rw [UInt32.toNat_sub_of_le _ _ (by
    rw [UInt32.le_iff_toNat_le, show (1 : UInt32).toNat = 1 from rfl]
    omega)]
  rfl

theorem space_eq {i : Int32} {k : ℕ} (hi : i.toInt = k) (hroom : k + 1 < count.toNat) :
    space count i = count.toNat - 1 - k := by
  have hval := toNat_toUInt32 hi
  have hfirst : (count - i.toUInt32).toNat = count.toNat - k := by
    rw [UInt32.toNat_sub_of_le _ _ (by rw [UInt32.le_iff_toNat_le, hval]; omega), hval]
  have hne : count - i.toUInt32 ≠ 0 := by
    rw [ne_eq, ← UInt32.toNat_inj, hfirst, show (0 : UInt32).toNat = 0 from rfl]
    omega
  rw [space, toNat_sub_one hne, hfirst]
  omega

/-- The number of bytes read once `n` more are taken, a negative one when they are too many. -/
theorem toInt_add_taken {i : Int32} (hi : 0 ≤ i.toInt) (hn : n ≤ 64) :
    (i + Int32.ofNat n).toInt
      = if i.toInt + n < 2 ^ 31 then i.toInt + n else i.toInt + n - 2 ^ 32 := by
  have hlt : i.toInt < 2 ^ 31 := i.toInt_lt
  rw [Int32.toInt_add, Int32.toInt_ofNat_of_lt (by omega), Int.bmod_def]
  omega

/-- What a poll without the character `-1` takes. -/
theorem takeKeys_clean (count : UInt32) (h : Within s.ring)
    (hclean : (-1 : Int8) ∉ (contents s.ring).take (space count s.i)) :
    contents (takeKeys count s).ring = (contents s.ring).drop (space count s.i) ∧
      (takeKeys count s).buf
        = storeAt s.buf s.i.toInt ((contents s.ring).take (space count s.i)) ∧
      (takeKeys count s).written = s.written ++
        (List.range (min (space count s.i) s.ring.size)).map (fun k : ℕ => s.i.toInt + k) ∧
      (takeKeys count s).i = s.i + Int32.ofNat (min (space count s.i) s.ring.size) := by
  obtain ⟨hstr, hrest⟩ := readLoop_takes (i := 0) h hclean
  have hcount := readLoop_count (space count s.i) 0 s.ring
  have hlength : ((contents s.ring).take (space count s.i)).length
      = min (space count s.i) s.ring.size := by rw [List.length_take, length_contents]
  rw [hstr, hlength, Nat.zero_add] at hcount
  rw [space] at *
  refine ⟨hrest, ?_, ?_, ?_⟩
  · simp only [takeKeys, readBuf, hstr]
  · simp only [takeKeys, readBuf, hstr, hlength]
  · simp only [takeKeys, readBuf, hcount]

/-- Without `-1` the poll takes its batch, in order. -/
theorem takeKeys_spec (h : Within s.ring) (hs : InOrder count s) (hroom : s.read + 1 < count.toNat)
    (hfit : s.read + min (count.toNat - 1 - s.read) s.ring.size < 2 ^ 31)
    (hclean : (-1 : Int8) ∉ (contents s.ring).take (count.toNat - 1 - s.read)) :
    InOrder count (takeKeys count s) ∧
      (takeKeys count s).read = s.read + min (count.toNat - 1 - s.read) s.ring.size ∧
      (takeKeys count s).accepted.take (takeKeys count s).read =
        s.accepted.take s.read ++ (contents s.ring).take (count.toNat - 1 - s.read) := by
  have hspace := space_eq hs.toInt hroom
  obtain ⟨hrest, hbuf, hwritten, hnext⟩ := takeKeys_clean count h (by rwa [hspace])
  rw [hspace] at hrest hbuf hwritten hnext
  have hsize : s.ring.size ≤ 64 := h.size_le
  have hindex := hs.toInt
  have hi := toInt_add_taken (n := min (count.toNat - 1 - s.read) s.ring.size) hs.nonneg (by omega)
  rw [if_pos (by omega), ← hnext, hindex] at hi
  have hread : (takeKeys count s).read = s.read + min (count.toNat - 1 - s.read) s.ring.size := by
    rw [Reading.read, hi]
    omega
  have hacc : (takeKeys count s).accepted = s.accepted := rfl
  have hlength : (contents s.ring).length = s.ring.size := length_contents s.ring
  refine ⟨⟨by omega, fun j hj => ?_, fun j hj => ?_, ?_⟩, hread, ?_⟩
  · rw [hwritten, List.mem_append, List.mem_map] at hj
    rcases hj with hold | ⟨k, hk, rfl⟩
    · exact hs.stored j hold
    · rw [List.mem_range] at hk
      omega
  · rw [hread] at hj
    rw [hacc, hbuf, storeAt]
    by_cases hlt : j < s.read
    · rw [if_neg (by omega)]
      exact hs.bytes j hlt
    · have hoffset : ((j : ℤ) - s.i.toInt).toNat = j - s.read := by omega
      have hget : s.accepted[j]? = (contents s.ring)[j - s.read]? := by
        rw [hs.rest, List.getElem?_drop]
        congr 1
        omega
      rw [if_pos (by rw [List.length_take, hlength]; omega), hoffset, hget,
        List.getD_eq_getElem?_getD, List.getElem?_take, if_pos (by omega),
        List.getElem?_eq_getElem (by omega)]
      rfl
  · rw [hrest, hacc, hread, ← List.drop_drop, ← hs.rest, List.drop_eq_drop_iff, hlength]
    omega
  · rw [hacc, hread, List.take_add, ← hs.rest, List.append_cancel_left_eq, List.take_eq_take_iff,
      hlength]
    omega

/-- The last character taken is the one that the loop looks at. -/
theorem InOrder.last (h : InOrder count s) (hpos : 0 < s.read) :
    (s.accepted.take s.read).getLast? = some (s.buf (s.i.toInt - 1)) := by
  have hle := h.le
  have hindex := h.toInt
  have hbyte := h.bytes (s.read - 1) (by omega)
  rw [List.getLast?_eq_getElem?, List.length_take, Nat.min_eq_left hle, List.getElem?_take,
    if_pos (by omega), hbyte]
  congr 2
  omega

/-- What a round leaves alone, whichever way it ends. -/
theorem round_fields (count : UInt32) (h : Within s.ring)
    (hsome : contents (arriveAll s p.before).ring ≠ []) :
    let taken := takeKeys count (arriveAll s (p.before ++ p.between))
    (round count s p).ring = taken.ring ∧ (round count s p).accepted = taken.accepted ∧
      (round count s p).i = taken.i ∧ taken.written ⊆ (round count s p).written := by
  rw [round_some count h hsome]
  simp only
  split_ifs
  · simp [endLine]
  · unfold finish
    split_ifs
    · simp
    · simp

/-- The keys that are there when the ring is tested are there when it is read. -/
theorem arrived_nonempty (h : Within s.ring) (hsome : contents (arriveAll s p.before).ring ≠ []) :
    contents (arriveAll s (p.before ++ p.between)).ring ≠ [] := by
  obtain ⟨-, ⟨keys, -, hcont⟩, -⟩ :=
    arrived_arriveAll (arrived_arriveAll h p.before).within p.between
  rw [arriveAll_append, hcont]
  simp [hsome]

/-- A poll that gets to the character `-1` loses it, so the bytes are not in order. -/
theorem no_sentinel (h : Within s.ring) (hs : InOrder count s)
    (hnext : 0 ≤ (takeKeys count s).i.toInt)
    (hafter : contents (takeKeys count s).ring =
      (takeKeys count s).accepted.drop (takeKeys count s).read) :
    (-1 : Int8) ∉ (contents s.ring).take (space count s.i) := by
  intro hhit
  have hswallow := readLoop_swallows (i := 0) h hhit
  have hcount := readLoop_count (space count s.i) 0 s.ring
  set result := readLoop (space count s.i) 0 s.ring with hresult
  have hring : (takeKeys count s).ring = result.1 := rfl
  have hi : (takeKeys count s).i = s.i + Int32.ofNat result.2.2 := rfl
  have hsize : s.ring.size ≤ 64 := h.size_le
  have hindex := hs.toInt
  have hlt : s.i.toInt < 2 ^ 31 := s.i.toInt_lt
  rw [hi, toInt_add_taken hs.nonneg (by omega)] at hnext
  have hread : (takeKeys count s).read = s.read + result.2.2 := by
    rw [Reading.read, hi, toInt_add_taken hs.nonneg (by omega)]
    split_ifs at hnext ⊢ <;> omega
  have hbefore := congrArg List.length hs.rest
  have hlength := congrArg List.length hafter
  rw [show (takeKeys count s).accepted = s.accepted from rfl, hring, hread] at hlength
  rw [List.length_drop, length_contents] at hbefore hlength
  omega

/-- The test of the loop, once the bytes are in order. -/
theorem InOrder.room_iff (h : InOrder count s) (hcount : count ≠ 0) :
    s.i.toUInt32 < count - 1 ↔ s.read + 1 < count.toNat := by
  rw [UInt32.lt_iff_toNat_lt, toNat_toUInt32 h.toInt, toNat_sub_one hcount]
  omega

/-- A call that has read in order and without a newline goes on, or returns with a full buffer. -/
theorem lineSoFar_finish (hs : InOrder count s) (hopen : s.returned = none)
    (hroom : s.read + 1 ≤ count.toNat) (hcount : count ≠ 0)
    (hnewline : NEWLINE ∉ s.accepted.take s.read) : LineSoFar count (finish count s) := by
  have hindex := hs.toInt
  rw [finish]
  split_ifs with hlt
  · refine ⟨hs, fun _ => hnewline, fun n hn => ?_⟩
    rw [hopen] at hn
    cases hn
  · refine ⟨⟨hs.nonneg, fun j hj => ?_, fun j hj => ?_, hs.rest⟩, (fun h => by cases h),
      fun n hn => ?_⟩
    · rcases List.mem_append.mp hj with hold | hlast
      · exact hs.stored j hold
      · rw [List.mem_singleton.mp hlast]
        omega
    · have hj : j < s.read := hj
      simp only
      rw [Function.update_of_ne (by omega)]
      exact hs.bytes j hj
    · rw [hs.room_iff hcount] at hlt
      exact ⟨(Option.some.inj hn).symm, fun hmem => hnewline (List.dropLast_subset _ hmem),
        .inr (show s.read + 1 = count.toNat by omega)⟩

/-- A call that has read in order up to its first newline returns the line. -/
theorem lineSoFar_endLine (hs : InOrder count s) (hpos : 0 < s.read)
    (hroom : s.read + 1 ≤ count.toNat) (hnewline : NEWLINE ∉ (s.accepted.take s.read).dropLast)
    (hlast : s.buf (s.i.toInt - 1) = NEWLINE) : LineSoFar count (endLine s) := by
  have hindex := hs.toInt
  have hsame : Function.update s.buf (s.i.toInt - 1) NEWLINE = s.buf := by
    rw [← hlast, Function.update_eq_self]
  refine ⟨⟨hs.nonneg, fun j hj => ?_, fun j hj => ?_, hs.rest⟩, (fun h => by cases h),
    fun n hn => ?_⟩
  · rcases List.mem_append.mp hj with hold | hend
    · exact hs.stored j hold
    · rw [List.mem_singleton.mp hend]
      omega
  · simp only [endLine, hsame]
    exact hs.bytes j hj
  · refine ⟨(Option.some.inj hn).symm, hnewline, .inl ?_⟩
    show (s.accepted.take s.read).getLast? = some NEWLINE
    rw [hs.last hpos, hlast]

/-! ## Every poll -/

/-- What holds in every state: a call that goes on has room for more, and `i` is zero before the
first byte. -/
structure Polling (count : UInt32) (s : Reading) : Prop where
  within : Within s.ring
  room : s.returned = none → s.i.toUInt32 < count - 1
  fresh : s.written = [] → s.i = 0

/-- What a poll takes is its batch, behind what was read before. -/
structure TakesBatch (count : UInt32) (s : Reading) (p : Poll) (taken : Reading) : Prop where
  inOrder : InOrder count taken
  room : taken.read + 1 ≤ count.toNat
  bytes : taken.accepted.take taken.read = s.accepted.take s.read ++ batch count s p
  nonempty : batch count s p ≠ []
  last : (batch count s p).getLast? = some (taken.buf (taken.i.toInt - 1))

theorem TakesBatch.pos {taken : Reading} (h : TakesBatch count s p taken) : 0 < taken.read := by
  have hlength := congrArg List.length h.bytes
  have hpos := List.length_pos_of_ne_nil h.nonempty
  rw [List.length_take, List.length_append] at hlength
  omega

/-- A newline among the bytes read, but for the last one. -/
theorem TakesBatch.newline_iff {taken : Reading} (h : TakesBatch count s p taken) :
    NEWLINE ∉ (taken.accepted.take taken.read).dropLast ↔
      NEWLINE ∉ s.accepted.take s.read ∧ NEWLINE ∉ (batch count s p).dropLast := by
  rw [h.bytes, List.dropLast_append_of_ne_nil h.nonempty, List.mem_append, not_or]

theorem takesBatch (hp : Polling count s) (hs : LineSoFar count s) (hopen : s.returned = none)
    (hsome : contents (arriveAll s p.before).ring ≠ []) (hcount : count ≠ 0)
    (hfit : s.read + (batch count s p).length < 2 ^ 31) (hclean : (-1 : Int8) ∉ batch count s p) :
    TakesBatch count s p (takeKeys count (arriveAll s (p.before ++ p.between))) := by
  have harrived := arrived_arriveAll hp.within (p.before ++ p.between)
  obtain ⟨horder, htake⟩ := harrived.inOrder hs.toInOrder
  have hroom := (hs.room_iff hcount).mp (hp.room hopen)
  have hsize := List.length_pos_of_ne_nil (arrived_nonempty (p := p) hp.within hsome)
  have hlength : (batch count s p).length = min (count.toNat - 1 - s.read)
      (arriveAll s (p.before ++ p.between)).ring.size := by
    rw [batch, List.length_take, length_contents]
  rw [length_contents] at hsize
  rw [hlength, ← harrived.read] at hfit
  rw [batch, ← harrived.read] at hclean
  rw [← harrived.read] at hroom
  obtain ⟨htaken, hnext, hbytes⟩ := takeKeys_spec harrived.within horder hroom hfit hclean
  rw [htake, harrived.read, ← batch] at hbytes
  have hne : batch count s p ≠ [] := by
    rw [← List.length_pos_iff_ne_nil, hlength, ← harrived.read]
    omega
  refine ⟨htaken, by omega, hbytes, hne, ?_⟩
  rw [← htaken.last (by omega), hbytes, List.getLast?_append_of_ne_nil _ hne]

/-- A clean poll reads on in the line, or reads its end. -/
theorem lineSoFar_round (hp : Polling count s) (hs : LineSoFar count s) (hopen : s.returned = none)
    (hclean : CleanPoll count s p) : LineSoFar count (round count s p) := by
  have harrived := arrived_arriveAll hp.within (p.before ++ p.between)
  have hret : (arriveAll s (p.before ++ p.between)).returned = none := harrived.returned.trans hopen
  by_cases hempty : contents (arriveAll s p.before).ring = []
  · obtain ⟨horder, htake⟩ := harrived.inOrder hs.toInOrder
    rw [round_empty hp.within hempty, finish, if_pos (by rw [harrived.i]; exact hp.room hopen)]
    refine ⟨horder, fun _ => by rw [htake]; exact hs.waiting hopen, fun n hn => ?_⟩
    rw [hret] at hn
    cases hn
  · obtain ⟨hcount, hfit, hsentinel, hnewline, hzero⟩ := hclean hopen hempty
    have htaken := takesBatch hp hs hopen hempty hcount hfit hsentinel
    have hfirst := htaken.newline_iff.mpr ⟨hs.waiting hopen, hnewline⟩
    rw [htaken.last, ne_eq, Option.some.injEq] at hzero
    rw [round_some count hp.within hempty]
    simp only [hzero, or_false]
    split_ifs with hend
    · exact lineSoFar_endLine htaken.inOrder htaken.pos htaken.room hfirst hend
    · apply lineSoFar_finish htaken.inOrder hret htaken.room hcount
      rw [← List.dropLast_append_getLast? _ (htaken.inOrder.last htaken.pos), List.mem_append,
        List.mem_singleton, not_or]
      exact ⟨hfirst, fun heq => hend heq.symm⟩

/-- With a `count` of 0 the poll stores outside the buffer. -/
theorem count_ne_zero (hp : Polling count s) (hs : InOrder count s)
    (hsome : contents (arriveAll s p.before).ring ≠ [])
    (hround : InOrder count (round count s p)) : count ≠ 0 := by
  rintro rfl
  have harrived := arrived_arriveAll hp.within (p.before ++ p.between)
  obtain ⟨horder, -⟩ := harrived.inOrder hs
  obtain ⟨hring, hacc, hi, hwritten⟩ := round_fields 0 hp.within hsome
  have hnone : ∀ j, j ∉ s.written := fun j hj => by
    have := hs.stored j hj
    simp at this
    omega
  have hzero : (arriveAll s (p.before ++ p.between)).i = 0 := by
    rw [harrived.i]
    exact hp.fresh (List.eq_nil_iff_forall_not_mem.mpr hnone)
  have hrest := hround.rest
  have hnonneg := hround.nonneg
  rw [Reading.read, hring, hacc, hi] at hrest
  rw [hi] at hnonneg
  have hsentinel := no_sentinel harrived.within horder hnonneg hrest
  have hsize := List.length_pos_of_ne_nil (arrived_nonempty (p := p) hp.within hsome)
  obtain ⟨-, -, htaken, -⟩ := takeKeys_clean 0 harrived.within hsentinel
  rw [length_contents] at hsize
  have hspace : space 0 (arriveAll s (p.before ++ p.between)).i = 2 ^ 32 - 1 := by
    rw [hzero]
    rfl
  have hmem : (0 : ℤ) ∈ (takeKeys 0 (arriveAll s (p.before ++ p.between))).written := by
    rw [htaken, List.mem_append, List.mem_map]
    refine .inr ⟨0, ?_, by rw [hzero]; rfl⟩
    rw [List.mem_range, hspace]
    omega
  have := hround.stored 0 (hwritten hmem)
  simp at this

/-- A poll that leaves the bytes in order has taken its batch, and can count it. -/
theorem batch_of_inOrder (hp : Polling count s) (hs : LineSoFar count s) (hopen : s.returned = none)
    (hsome : contents (arriveAll s p.before).ring ≠ []) (hcount : count ≠ 0)
    (hround : InOrder count (round count s p)) :
    s.read + (batch count s p).length < 2 ^ 31 ∧ (-1 : Int8) ∉ batch count s p := by
  have harrived := arrived_arriveAll hp.within (p.before ++ p.between)
  obtain ⟨horder, -⟩ := harrived.inOrder hs.toInOrder
  have hroom := (hs.room_iff hcount).mp (hp.room hopen)
  rw [← harrived.read] at hroom
  obtain ⟨hring, hacc, hi, -⟩ := round_fields count hp.within hsome
  have hrest := hround.rest
  have hnonneg := hround.nonneg
  rw [Reading.read, hring, hacc, hi] at hrest
  rw [hi] at hnonneg
  have hsentinel := no_sentinel harrived.within horder hnonneg hrest
  obtain ⟨-, -, -, hnext⟩ := takeKeys_clean count harrived.within hsentinel
  have hsize : (arriveAll s (p.before ++ p.between)).ring.size ≤ 64 := harrived.within.size_le
  have hindex := horder.toInt
  have hlt : (arriveAll s (p.before ++ p.between)).i.toInt < 2 ^ 31 := Int32.toInt_lt _
  rw [hnext, space_eq hindex hroom, toInt_add_taken horder.nonneg (by omega)] at hnonneg
  rw [space_eq hindex hroom, harrived.read, ← batch] at hsentinel
  refine ⟨?_, hsentinel⟩
  rw [batch, List.length_take, length_contents, ← harrived.read]
  split_ifs at hnonneg <;> omega

/-- A poll that reads a line, or the beginning of one, is clean. -/
theorem cleanPoll_of_round (hp : Polling count s) (hs : LineSoFar count s)
    (hround : LineSoFar count (round count s p)) : CleanPoll count s p := by
  intro hopen hsome
  have hcount := count_ne_zero hp hs.toInOrder hsome hround.toInOrder
  obtain ⟨hfit, hsentinel⟩ := batch_of_inOrder hp hs hopen hsome hcount hround.toInOrder
  have htaken := takesBatch hp hs hopen hsome hcount hfit hsentinel
  obtain ⟨-, hacc, hi, -⟩ := round_fields count hp.within hsome
  have hround' := round_some count hp.within hsome
  simp only at hround'
  set taken := takeKeys count (arriveAll s (p.before ++ p.between))
  have hread : (round count s p).read = taken.read := by rw [Reading.read, hi, Reading.read]
  have hpos := htaken.pos
  refine ⟨hcount, hfit, hsentinel, ?_, fun hzero => ?_⟩
  · have hfirst : NEWLINE ∉ ((round count s p).accepted.take (round count s p).read).dropLast := by
      cases hend : (round count s p).returned with
      | none => exact fun hmem => hround.waiting hend (List.dropLast_subset _ hmem)
      | some n => exact (hround.line n hend).2.1
    rw [hacc, hread] at hfirst
    exact (htaken.newline_iff.mp hfirst).2
  · -- a zero at the end is stored as a newline
    have hlast : taken.buf (taken.i.toInt - 1) = 0 :=
      Option.some.inj (htaken.last.symm.trans hzero)
    rw [if_pos (.inr hlast)] at hround'
    have hkey := htaken.inOrder.bytes (taken.read - 1) (by omega)
    have hstored := hround.bytes (taken.read - 1) (by omega)
    have hindex := htaken.inOrder.toInt
    rw [hacc, hkey, hround', endLine, show ((taken.read - 1 : ℕ) : ℤ) = taken.i.toInt - 1 by omega,
      hlast] at hstored
    simp only [Function.update_self] at hstored
    exact absurd hstored (by decide)

theorem within_takeKeys (h : Within s.ring) : Within (takeKeys count s).ring :=
  within_readLoop h _ _

/-- A call that finds its buffer full returns. -/
theorem polling_finish (h : Within s.ring) (hfresh : s.written = [] → s.i = 0) :
    Polling count (finish count s) := by
  rw [finish]
  split_ifs with hroom
  · exact ⟨h, fun _ => hroom, hfresh⟩
  · exact ⟨h, (fun hopen => by cases hopen), fun hnil => absurd hnil (by simp)⟩

theorem polling_round (hp : Polling count s) (p : Poll) : Polling count (round count s p) := by
  have harrived := arrived_arriveAll hp.within (p.before ++ p.between)
  have hfresh : (arriveAll s (p.before ++ p.between)).written = [] →
      (arriveAll s (p.before ++ p.between)).i = 0 := by
    rw [harrived.written, harrived.i]
    exact hp.fresh
  by_cases hempty : contents (arriveAll s p.before).ring = []
  · rw [round_empty hp.within hempty]
    exact polling_finish harrived.within hfresh
  · rw [round_some count hp.within hempty]
    simp only
    split_ifs
    · exact ⟨within_takeKeys harrived.within, (fun hopen => by cases hopen),
        fun hnil => absurd hnil (by simp [endLine])⟩
    · apply polling_finish (within_takeKeys harrived.within)
      intro hnil
      set u := arriveAll s (p.before ++ p.between)
      have hcount := readLoop_count (space count u.i) 0 u.ring
      have hi : (takeKeys count u).i
          = u.i + Int32.ofNat (readLoop (space count u.i) 0 u.ring).2.2 := rfl
      obtain ⟨hold, hnew⟩ := List.append_eq_nil_iff.mp hnil
      have hnone : (readLoop (space count u.i) 0 u.ring).2.1 = [] := by
        simpa [readBuf, space] using hnew
      rw [hi, hcount, hnone, hfresh hold]
      rfl

/-- A call that stores the terminator at once has read the empty line. -/
theorem polling_enter (h : Within b) (buf : ℤ → Int8) : Polling count (enter count b buf) :=
  polling_finish h fun _ => rfl

theorem lineSoFar_enter (b : CircBuffer) (buf : ℤ → Int8) :
    LineSoFar count (enter count b buf) := by
  have hstart : InOrder count ⟨b, contents b, buf, [], 0, none⟩ :=
    ⟨le_refl 0, (fun j hj => absurd hj (by simp)), (fun j hj => absurd hj (by simp [Reading.read])),
      by simp [Reading.read]⟩
  by_cases hcount : count = 0
  · subst hcount
    have hgoes : enter 0 b buf = ⟨b, contents b, buf, [], 0, none⟩ := by
      rw [enter, finish, if_pos (show (0 : Int32).toUInt32 < (0 : UInt32) - 1 by decide)]
    rw [hgoes]
    exact ⟨hstart, (fun _ => by simp [Reading.read]), fun n hn => by cases hn⟩
  · have hpos : count.toNat ≠ 0 := fun h0 => hcount (UInt32.toNat_inj.mp h0)
    exact lineSoFar_finish hstart rfl (by
      show 0 + 1 ≤ count.toNat
      omega) hcount (by simp [Reading.read])

theorem polling_pollStep (hp : Polling count s) {s' : Reading} (h : pollStep count s p = some s') :
    Polling count s' := by
  rw [pollStep] at h
  obtain rfl := Option.some.inj h
  split_ifs
  · exact hp
  · exact polling_round hp p

/-- A poll keeps to the line if and only if it is clean. -/
theorem lineSoFar_pollStep (hp : Polling count s) (hs : LineSoFar count s) {s' : Reading}
    (h : pollStep count s p = some s') : LineSoFar count s' ↔ CleanPoll count s p := by
  rw [pollStep] at h
  obtain rfl := Option.some.inj h
  split_ifs with hdone
  · refine iff_of_true hs fun hopen => ?_
    rw [hopen] at hdone
    cases hdone
  · have hopen : s.returned = none := Option.not_isSome_iff_eq_none.mp hdone
    exact ⟨cleanPoll_of_round hp hs, lineSoFar_round hp hs hopen⟩

/-- However the keys arrive, the call has read one line or the beginning of one after each poll, if
and only if every poll is clean. -/
theorem sysRead_line_iff (count : UInt32) (b : CircBuffer) (hb : Within b) (buf : ℤ → Int8)
    (polls : List Poll) :
    (∀ polls₁ s, polls₁ <+: polls → run (pollStep count) (enter count b buf) polls₁ = some s →
        LineSoFar count s) ↔
      Throughout (pollStep count) (CleanPoll count) (enter count b buf) polls := by
  apply always_iff_throughout (G := Polling count)
  · exact polling_enter hb buf
  · exact lineSoFar_enter b buf
  · exact fun s p s' hp h => polling_pollStep hp h
  · exact fun s p s' hp hs h => lineSoFar_pollStep hp hs h
  · exact fun s p _ h => by cases h

/-- Two keys come before the first poll, a third one before the second, and a newline behind its
test. -/
theorem sysRead_line_two_polls :
    ∃ s, run (pollStep 10) (enter 10 emptyBuffer fun _ => 0) [⟨[104, 105], []⟩, ⟨[33], [NEWLINE]⟩]
        = some s ∧ s.returned = some 4 ∧ LineSoFar 10 s :=
  ⟨_, rfl, by decide +kernel,
    (sysRead_line_iff 10 emptyBuffer within_emptyBuffer (fun _ => 0)
      [⟨[104, 105], []⟩, ⟨[33], [NEWLINE]⟩]).mpr (by decide +kernel) _ _ (List.prefix_refl _) rfl⟩

/-- A newline and a key behind it, taken by one poll: the call goes on. -/
theorem newline_passed :
    ¬ ∀ (count : UInt32) (b : CircBuffer) (buf : ℤ → Int8) (polls polls₁ : List Poll) (s : Reading),
      Within b → polls₁ <+: polls → run (pollStep count) (enter count b buf) polls₁ = some s →
        LineSoFar count s := by
  intro hall
  have hline := hall 10 emptyBuffer (fun _ => 0) [⟨[NEWLINE, 120], []⟩] [⟨[NEWLINE, 120], []⟩] _
    within_emptyBuffer (List.prefix_refl _) rfl
  exact absurd (hline.waiting (by decide +kernel)) (by decide +kernel)

end TronKernel.Keyboard
