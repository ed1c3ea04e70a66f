import TronKernel.Pipe.Fifo

/-!
# What one call may touch

For any state of the pipe, not only those of a run that keeps the queue. `readInto` is `pipe_read`
with the stores to the caller's buffer, one after the other; `readInto_eq` says that they are those
of `readData`. A read stays in the `n` bytes of its caller and returns the number of bytes it
removed exactly if it meets an end mark among the first `n` bytes before the counters meet
(`read_inside_iff`): otherwise the NUL, and the last byte of the pipe with it, is stored behind
them, and the last byte is not counted. A write leaves the unread bytes alone and accepts no more
than there is room for exactly if what it offers fits in front of the end mark
(`write_keeps_unread_iff`).
-/

namespace TronKernel.Pipe

open CircularBuffer

/-! ## Reading -/

/-- The loop of `pipe_read` with its stores: the pipe, the stores `addr[i] = b` in order, and the
final `i`. -/
def readLoopInto : ℕ → PipeT → ℕ → PipeT × List (ℕ × UInt8) × ℕ
  | 0, p, i => (p, [], i)
  | rounds + 1, p, i =>
    if p.at p.nread ≠ endMark ∧ incr p.nread ≠ p.nwrite then
      let (p', stores, k) := readLoopInto rounds { p with nread := incr p.nread } (i + 1)
      (p', (i, p.at p.nread) :: stores, k)
    else (p, [], i)

/-- What `pipe_read` does between `sem_wait` and `sem_post`, with its stores. -/
def readDataInto (p : PipeT) (n : ℤ) : PipeT × List (ℕ × UInt8) × ℕ :=
  let (p, stores, i) := readLoopInto n.toNat p 0
  if incr p.nread = p.nwrite then
    (clearMark { p with nread := incr p.nread }, stores ++ [(i, p.at p.nread), (i + 1, 0)], i)
  else (clearMark p, stores ++ [(i, 0)], i)

/-- `pipe_read` by process `pid`: the pipe, the stores to the caller's buffer, and the result. -/
def readInto (p : PipeT) (pid n : ℤ) : PipeT × List (ℕ × UInt8) × ℤ :=
  if p.created = 0 then (p, [], -1)
  else
    let p := { p with rProcesses := (blockProcessPipe p.rProcesses pid).1 }
    let p := { p with wProcesses := (releaseProcessPipe p.wProcesses pid).1 }
    let (p, stores, i) := readDataInto p n
    (p, stores, i)

/-- The caller's buffer after some stores. -/
def stored (addr : ℕ → UInt8) (stores : List (ℕ × UInt8)) : ℕ → UInt8 :=
  stores.foldl (fun addr w => Function.update addr w.1 w.2) addr

/-- The number of bytes that a call removed, on `unsigned int`. -/
def removed (p p' : PipeT) : ℕ := (p'.nread + 2 ^ 32 - p.nread) % 2 ^ 32

/-- The read stores into `addr[0], …, addr[n - 1]` only and returns the number of bytes that it
removed from the pipe and stored in `addr`. -/
def ReadsInside (p : PipeT) (pid n : ℤ) : Prop :=
  let (p', stores, ret) := readInto p pid n
  (∀ w ∈ stores, (w.1 : ℤ) < n) ∧ ret = removed p p' ∧
    ∀ addr, ∀ k < removed p p', stored addr stores k = p.at (p.nread + k)

/-- Among the first `n` bytes from `nread` on there is an end mark, and `nwrite` is not met up to
the byte behind it. -/
def MeetsMark (p : PipeT) (n : ℤ) : Prop :=
  ∃ j < n.toNat, p.at (p.nread + j) = endMark ∧
    ∀ k ≤ j, (p.nread + k + 1) % 2 ^ 32 ≠ p.nwrite

instance (p : PipeT) (n : ℤ) : Decidable (MeetsMark p n) :=
  inferInstanceAs (Decidable (∃ j < n.toNat, _))

variable {p : PipeT} {addr : ℕ → UInt8} {n : ℤ}

/-- Stores of some bytes from index `i` on. -/
def storesFrom (i : ℕ) : List UInt8 → List (ℕ × UInt8)
  | [] => []
  | b :: bs => (i, b) :: storesFrom (i + 1) bs

theorem storesFrom_append (i : ℕ) (bs cs : List UInt8) :
    storesFrom i (bs ++ cs) = storesFrom i bs ++ storesFrom (i + bs.length) cs := by
  induction bs generalizing i with
  | nil => rfl
  | cons b bs ih =>
    rw [List.cons_append, storesFrom, ih, storesFrom, List.cons_append, List.length_cons,
      Nat.add_right_comm, Nat.add_assoc]

theorem mem_storesFrom {i : ℕ} {bs : List UInt8} {w : ℕ × UInt8} (hw : w ∈ storesFrom i bs) :
    i ≤ w.1 ∧ w.1 < i + bs.length := by
  induction bs generalizing i with
  | nil => cases hw
  | cons b bs ih =>
    rw [List.length_cons]
    rcases List.mem_cons.mp hw with rfl | hw
    · exact ⟨Nat.le_refl _, by omega⟩
    · have := ih hw
      omega

/-- The last of the stores. -/
theorem last_mem_storesFrom (i : ℕ) (bs : List UInt8) (b : UInt8) :
    (i + bs.length, b) ∈ storesFrom i (bs ++ [b]) := by
  rw [storesFrom_append]
  exact List.mem_append_right _ (List.mem_singleton_self _)

theorem stored_frame {i : ℕ} (bs : List UInt8) {k : ℕ} (hk : k < i) :
    stored addr (storesFrom i bs) k = addr k := by
  induction bs generalizing addr i with
  | nil => rfl
  | cons b bs ih =>
    show stored (Function.update addr i b) (storesFrom (i + 1) bs) k = addr k
    rw [ih (Nat.lt_succ_of_lt hk), Function.update_of_ne (Nat.ne_of_lt hk)]

theorem stored_storesFrom {i : ℕ} (bs : List UInt8) {k : ℕ} (hk : k < bs.length) :
    some (stored addr (storesFrom i bs) (i + k)) = bs[k]? := by
  induction bs generalizing addr i k with
  | nil => cases hk
  | cons b bs ih =>
    show some (stored (Function.update addr i b) (storesFrom (i + 1) bs) (i + k)) = _
    cases k with
    | zero =>
      show some (stored (Function.update addr i b) (storesFrom (i + 1) bs) i) = some b
      rw [stored_frame bs (Nat.lt_succ_self i), Function.update_self]
    | succ k =>
      rw [List.length_cons] at hk
      rw [List.getElem?_cons_succ, ← Nat.add_assoc, Nat.add_right_comm]
      exact ih (Nat.lt_of_succ_lt_succ hk)

/-! The stores are those of `readData`. -/

theorem readLoopInto_eq (rounds : ℕ) (p : PipeT) (i : ℕ) :
    readLoopInto rounds p i =
      ((readLoop rounds p).1, storesFrom i (readLoop rounds p).2,
        i + (readLoop rounds p).2.length) := by
  induction rounds generalizing p i with
  | zero => rfl
  | succ rounds ih =>
    rw [readLoopInto, readLoop]
    split_ifs
    · simp only [ih, List.length_cons, storesFrom]
      congr 2
      omega
    · rfl

theorem readDataInto_eq (p : PipeT) (n : ℤ) :
    readDataInto p n =
      ((readData p n).1, storesFrom 0 ((readData p n).2.1 ++ [0]), (readData p n).2.2) := by
  simp only [readDataInto, readData, readLoopInto_eq, Nat.zero_add]
  split_ifs
  · simp [storesFrom_append, storesFrom]
  · simp [storesFrom_append, storesFrom]

/-- `readInto` is `pipeRead` with the bytes as stores. -/
theorem readInto_eq (p : PipeT) (pid n : ℤ) :
    readInto p pid n =
      ((pipeRead p pid n).1, storesFrom 0 (pipeRead p pid n).2.1, (pipeRead p pid n).2.2) := by
  rw [readInto, pipeRead]
  split_ifs
  · rfl
  · simp only [readDataInto_eq]

/-! ### Where the loop stops -/

theorem at_mod (p : PipeT) (k : ℕ) : p.at (k % 2 ^ 32) = p.at k := by
  rw [PipeT.at, mod_pipe_size, PipeT.at]

theorem at_incr (p : PipeT) (c k : ℕ) : p.at (incr c + k) = p.at (c + (k + 1)) := by
  rw [← at_mod, incr, Nat.mod_add_mod, at_mod, Nat.add_assoc, Nat.add_comm 1]

theorem incr_add (c k : ℕ) : (incr c + k) % 2 ^ 32 = (c + (k + 1)) % 2 ^ 32 := by
  rw [incr, Nat.mod_add_mod, Nat.add_assoc, Nat.add_comm 1]

/-- What the loop of `pipe_read` passes and what it stops at: the bound, the end mark or the
counter of the writers. -/
structure Passes (p : PipeT) (rounds : ℕ) (q : PipeT) (bs : List UInt8) : Prop where
  pipe : q = { p with nread := (p.nread + bs.length) % 2 ^ 32 }
  le : bs.length ≤ rounds
  byte : ∀ k < bs.length, bs[k]? = some (p.at (p.nread + k))
  passed : ∀ k < bs.length, p.at (p.nread + k) ≠ endMark ∧ (p.nread + k + 1) % 2 ^ 32 ≠ p.nwrite
  stop : bs.length = rounds ∨ p.at (p.nread + bs.length) = endMark ∨
    (p.nread + bs.length + 1) % 2 ^ 32 = p.nwrite

theorem Passes.nil {rounds : ℕ} (hread : p.nread < 2 ^ 32)
    (hstop : rounds = 0 ∨ p.at p.nread = endMark ∨ incr p.nread = p.nwrite) :
    Passes p rounds p [] where
  pipe := by simp only [List.length_nil, Nat.add_zero, Nat.mod_eq_of_lt hread]
  le := Nat.zero_le _
  byte k hk := absurd hk (Nat.not_lt_zero k)
  passed k hk := absurd hk (Nat.not_lt_zero k)
  stop := hstop.imp_left Eq.symm

theorem Passes.cons {rounds : ℕ} {q : PipeT} {bs : List UInt8}
    (hgo : p.at p.nread ≠ endMark ∧ incr p.nread ≠ p.nwrite)
    (h : Passes { p with nread := incr p.nread } rounds q bs) :
    Passes p (rounds + 1) q (p.at p.nread :: bs) := by
  obtain ⟨hq, hle, hbyte, hpassed, hstop⟩ := h
  have hat : ∀ k, PipeT.at { p with nread := incr p.nread } (incr p.nread + k) =
      p.at (p.nread + (k + 1)) := at_incr p p.nread
  constructor
  · rw [hq]
    simp only [List.length_cons, incr_add]
  · exact Nat.succ_le_succ hle
  · intro k hk
    cases k with
    | zero => rfl
    | succ k => exact (hbyte k (Nat.lt_of_succ_lt_succ hk)).trans (congrArg some (hat k))
  · intro k hk
    cases k with
    | zero => exact hgo
    | succ k =>
      obtain ⟨hmark, hmeet⟩ := hpassed k (Nat.lt_of_succ_lt_succ hk)
      exact ⟨hat k ▸ hmark, fun heq => hmeet ((incr_add p.nread (k + 1)).trans heq)⟩
  · rcases hstop with hall | hmark | hmeet
    · exact Or.inl (congrArg Nat.succ hall)
    · exact Or.inr (Or.inl (hat bs.length ▸ hmark))
    · exact Or.inr (Or.inr ((incr_add p.nread (bs.length + 1)).symm.trans hmeet))

theorem passes_readLoop (rounds : ℕ) (hread : p.nread < 2 ^ 32) :
    Passes p rounds (readLoop rounds p).1 (readLoop rounds p).2 := by
  induction rounds generalizing p with
  | zero => exact Passes.nil hread (Or.inl rfl)
  | succ rounds ih =>
    rw [readLoop]
    by_cases hgo : p.at p.nread ≠ endMark ∧ incr p.nread ≠ p.nwrite
    · rw [if_pos hgo]
      exact Passes.cons hgo (ih (Nat.mod_lt _ (Nat.two_pow_pos 32)))
    · rw [if_neg hgo]
      refine Passes.nil hread (Or.inr ?_)
      by_contra hne
      exact hgo (not_or.mp hne)

/-- The loop stops in front of the `n`-th byte at an end mark, the counters apart, exactly if there
is such a mark. -/
theorem Passes.meetsMark_iff {q : PipeT} {bs : List UInt8} (h : Passes p n.toNat q bs) :
    MeetsMark p n ↔ bs.length < n.toNat ∧ incr q.nread ≠ q.nwrite := by
  have hincr : incr q.nread = (p.nread + bs.length + 1) % 2 ^ 32 := by
    rw [h.pipe]
    exact Nat.mod_add_mod _ _ _
  have hwrite : q.nwrite = p.nwrite := by rw [h.pipe]
  rw [hincr, hwrite]
  constructor
  · rintro ⟨j, hj, hmark, hapart⟩
    have hle : bs.length ≤ j := by
      by_contra hlt
      exact (h.passed j (Nat.lt_of_not_le hlt)).1 hmark
    exact ⟨Nat.lt_of_le_of_lt hle hj, hapart _ hle⟩
  · rintro ⟨hlt, hapart⟩
    refine ⟨bs.length, hlt, ?_, fun k hk => ?_⟩
    · exact (h.stop.resolve_left (Nat.ne_of_lt hlt)).resolve_right hapart
    · rcases Nat.eq_or_lt_of_le hk with rfl | hk
      · exact hapart
      · exact (h.passed k hk).2

theorem clearMark_nread (p : PipeT) : (clearMark p).nread = p.nread := by
  rw [clearMark]
  split_ifs <;> rfl

/-- A read of a pipe that has been created stays in its `n` bytes and returns what it removed if and
only if it meets an end mark among them before the counters meet. -/
theorem read_inside_iff (p : PipeT) (pid n : ℤ) (hcreated : p.created ≠ 0)
    (hread : p.nread < 2 ^ 32) (hn : n < 2 ^ 31) : ReadsInside p pid n ↔ MeetsMark p n := by
  set p₁ : PipeT :=
    { p with
      rProcesses := (blockProcessPipe p.rProcesses pid).1
      wProcesses := (releaseProcessPipe p.wProcesses pid).1 } with hp₁
  have hval : readInto p pid n = ((readData p₁ n).1, storesFrom 0 ((readData p₁ n).2.1 ++ [0]),
      ((readData p₁ n).2.2 : ℤ)) := by
    rw [readInto_eq, pipeRead, if_neg hcreated, hp₁]
  have hpasses : Passes p₁ n.toNat _ _ := passes_readLoop n.toNat hread
  have hmark : MeetsMark p n ↔ MeetsMark p₁ n := Iff.rfl
  rw [hmark, hpasses.meetsMark_iff, ReadsInside, hval]
  have hpipe := hpasses.pipe
  have hle := hpasses.le
  have hbyte := hpasses.byte
  have hfinal : ∀ q : PipeT, removed p (clearMark q) = (q.nread + 2 ^ 32 - p.nread) % 2 ^ 32 :=
    fun q => by rw [removed, clearMark_nread]
  have hstart : p₁.nread = p.nread := rfl
  have hdata : ∀ c, p₁.at c = p.at c := fun _ => rfl
  clear_value p₁
  simp only [readData]
  generalize (readLoop n.toNat p₁).1 = q at *
  generalize (readLoop n.toNat p₁).2 = bs at *
  have hq : q.nread = (p.nread + bs.length) % 2 ^ 32 := by rw [hpipe, ← hstart]
  by_cases hmeet : incr q.nread = q.nwrite
  · -- the last byte of the pipe is stored too, and it is not counted
    simp only [if_pos hmeet, hfinal]
    refine iff_of_false (fun h => ?_) fun h => h.2 hmeet
    have hret := h.2.1
    simp only [incr, hq] at hret
    omega
  · simp only [if_neg hmeet, hfinal]
    have hcount : ((p.nread + bs.length) % 2 ^ 32 + 2 ^ 32 - p.nread) % 2 ^ 32 = bs.length := by
      omega
    rw [hq] at hmeet ⊢
    rw [hcount]
    constructor
    · intro h
      have := h.1 _ (last_mem_storesFrom 0 bs 0)
      simp only at this
      exact ⟨by omega, hmeet⟩
    · rintro ⟨hlt, -⟩
      refine ⟨fun w hw => ?_, rfl, fun addr k hk => ?_⟩
      · have := (mem_storesFrom hw).2
        rw [List.length_append, List.length_singleton] at this
        omega
      · have hlen : k < (bs ++ [0]).length := by
          rw [List.length_append]
          omega
        have hstored : some (stored addr (storesFrom 0 (bs ++ [0])) (0 + k)) = (bs ++ [0])[k]? :=
          stored_storesFrom _ hlen
        rw [List.getElem?_append_left hk, hbyte k hk, Nat.zero_add] at hstored
        rw [Option.some.inj hstored, hstart, hdata]

/-- A pipe with one byte and the end mark behind it. -/
def oneByte : PipeT where
  name := []
  created := 1
  data := fun i => if i = 0 then 97 else if i = 1 then endMark else 0
  rProcesses := fun _ => 0
  wProcesses := fun _ => 0
  nread := 0
  nwrite := 1
  usingPipe := 0
  waitingPid := -1
  fd := 3

/-- The same pipe when it has been read empty. -/
theorem read_inside_empty : ReadsInside { oneByte with nread := 1 } 2 8 :=
  (read_inside_iff { oneByte with nread := 1 } 2 8 (by decide) (by decide) (by decide)).mpr
    ⟨0, by decide, by decide, by decide⟩

/-- One byte is read: the NUL is stored behind the buffer, and the byte is not counted. -/
theorem read_outside :
    ¬ ∀ (p : PipeT) (pid n : ℤ), p.created ≠ 0 → p.nread < 2 ^ 32 → p.nwrite < 2 ^ 32 → 1 ≤ n →
      n < 2 ^ 31 → ReadsInside p pid n := by
  intro h
  obtain ⟨hinside, -⟩ := h oneByte 2 1 (by decide) (by decide) (by decide) (by decide) (by decide)
  exact absurd (hinside (1, 0) (by decide +kernel)) (by decide)

/-! ## Writing -/

/-- The number of bytes that a write offers: `n` or, for `n = 0`, the length of the string, up to
the first NUL. -/
def offeredCount (addr : ℕ → UInt8) (n : ℤ) (len : ℕ) : ℕ :=
  (offered addr 0 (if n = 0 then Sem.toInt len else n).toNat).length

/-- The unread bytes are still in their places, no more was accepted than there was room for, and
the pipe holds no more than its size. -/
def KeepsUnread (p : PipeT) (pid : ℤ) (addr : ℕ → UInt8) (n : ℤ) : Prop :=
  ∃ p' ret, pipeWrite p pid addr n = some (p', ret) ∧ p'.nread = p.nread ∧
    (∀ k < p.used, p'.at (p.nread + k) = p.at (p.nread + k)) ∧
    ret ≤ PIPE_SIZE - p.used ∧ p'.used ≤ PIPE_SIZE

/-- `m` more bytes and the end mark have room behind the unread ones. If only the end mark has not,
it falls on the oldest of the unread bytes. -/
def HasRoom (p : PipeT) (m : ℕ) : Prop :=
  p.used + m < PIPE_SIZE ∨
    p.used + m = PIPE_SIZE ∧ (p.used = 0 ∨ p.at p.nread = endMark)

instance (p : PipeT) (m : ℕ) : Decidable (HasRoom p m) := inferInstanceAs (Decidable (_ ∨ _))

/-- The counter of the writers, told by the number of unread bytes. -/
theorem nwrite_eq (hread : p.nread < 2 ^ 32) (hwrite : p.nwrite < 2 ^ 32) :
    p.nwrite = (p.nread + p.used) % 2 ^ 32 := by
  rw [PipeT.used]
  omega

/-- The loop of `pipe_write` takes all that is offered, for the counters do not meet. The cells that
it writes are those behind the unread bytes. -/
theorem writeLoop_takes (rounds i : ℕ) (hread : p.nread < 2 ^ 32) (hwrite : p.nwrite < 2 ^ 32)
    (hroom : p.used + (offered addr i rounds).length + 1 < 2 ^ 32) :
    ∃ data, writeLoop addr rounds p i =
        ({ p with data := data, nwrite := (p.nwrite + (offered addr i rounds).length) % 2 ^ 32 },
          i + (offered addr i rounds).length) ∧
      ∀ x, (∀ k < (offered addr i rounds).length, (p.nwrite + k) % PIPE_SIZE ≠ x) →
        data x = p.data x := by
  induction rounds generalizing p i with
  | zero =>
    refine ⟨p.data, ?_, fun x _ => rfl⟩
    simp only [writeLoop, offered, bytesAt, List.range'_zero, List.map_nil, List.takeWhile_nil,
      List.length_nil, Nat.add_zero, Nat.mod_eq_of_lt hwrite]
  | succ rounds ih =>
    rw [offered_succ] at hroom ⊢
    by_cases hnul : addr i = 0
    · rw [if_neg (not_not.mpr hnul), writeLoop, if_neg fun h => h.1 hnul]
      refine ⟨p.data, ?_, fun x _ => rfl⟩
      simp only [List.length_nil, Nat.add_zero, Nat.mod_eq_of_lt hwrite]
    · rw [if_pos hnul, List.length_cons] at hroom ⊢
      set q : PipeT := { p.setAt p.nwrite (addr i) with nwrite := incr p.nwrite } with hq
      have hqwrite : q.nwrite = (p.nwrite + 1) % 2 ^ 32 := rfl
      have hqused : q.used = p.used + 1 := by
        have hqread : q.nread = p.nread := rfl
        rw [PipeT.used, hqwrite, hqread]
        simp only [PipeT.used] at hroom ⊢
        omega
      have hfree : p.nread ≠ incr p.nwrite := by
        have hused : p.used = (p.nwrite + 2 ^ 32 - p.nread) % 2 ^ 32 := rfl
        simp only [incr]
        omega
      obtain ⟨data, hval, hframe⟩ := @ih q (i + 1) hread
        (Nat.mod_lt _ (Nat.two_pow_pos 32)) (by rw [hqused]; omega)
      refine ⟨data, ?_, fun x hx => ?_⟩
      · rw [writeLoop, if_pos ⟨hnul, hfree⟩, hval, hqwrite, Nat.mod_add_mod, Nat.add_assoc,
          Nat.add_assoc, Nat.add_comm 1]
        rfl
      · rw [hframe x fun k hk => ?_]
        · show Function.update p.data (p.nwrite % PIPE_SIZE) (addr i) x = p.data x
          exact Function.update_of_ne (Ne.symm (hx 0 (Nat.succ_pos _))) _ _
        · rw [hqwrite, ← mod_pipe_size, Nat.mod_add_mod, mod_pipe_size, Nat.add_assoc,
            Nat.add_comm 1]
          exact hx (k + 1) (Nat.succ_lt_succ hk)

theorem length_offered_le (addr : ℕ → UInt8) (i n : ℕ) : (offered addr i n).length ≤ n := by
  refine (List.takeWhile_sublist _).length_le.trans ?_
  rw [bytesAt, List.length_map, List.length_range']

theorem offeredCount_lt {len : ℕ} (hn : n < 2 ^ 31) : offeredCount addr n len < 2 ^ 31 := by
  refine (length_offered_le _ _ _).trans_lt ?_
  split_ifs
  · simp only [Sem.toInt]
    omega
  · omega

/-- Two places of the ring at most a round apart are one cell only if they are a full round
apart. -/
theorem cell_ne {r k u : ℕ} (hku : k < u) (hlt : u < k + PIPE_SIZE) :
    (r + k) % PIPE_SIZE ≠ (r + u) % PIPE_SIZE := by
  simp only [PIPE_SIZE] at *
  omega

/-- A write of a string. -/
theorem pipeWrite_eq (pid : ℤ) {len : ℕ} (hstring : strlen addr = some len) :
    pipeWrite p pid addr n =
      if p.created = 0 then some (p, -1)
      else
        let q : PipeT :=
          { p with wProcesses := (releaseProcessPipe (blockProcessPipe p.wProcesses pid).1 pid).1 }
        let r := writeData q addr (if n = 0 then Sem.toInt len else n)
        some (r.1, (r.2 : ℤ)) := by
  rw [pipeWrite]
  by_cases h0 : n = 0
  · simp only [if_pos h0, hstring]
    rfl
  · simp only [if_neg h0]
    rfl

/-- A write to an open pipe accepts all that is offered. It writes the cells behind the unread bytes
and puts the end mark behind those. -/
theorem pipeWrite_takes (pid : ℤ) {len : ℕ} (hcreated : p.created ≠ 0) (hread : p.nread < 2 ^ 32)
    (hwrite : p.nwrite < 2 ^ 32) (hused : p.used ≤ PIPE_SIZE) (hn : n < 2 ^ 31)
    (hstring : strlen addr = some len) :
    ∃ p', pipeWrite p pid addr n = some (p', (offeredCount addr n len : ℤ)) ∧
      p'.nread = p.nread ∧ p'.used = p.used + offeredCount addr n len ∧
      (∀ c, c % PIPE_SIZE = (p.nread + p.used + offeredCount addr n len) % PIPE_SIZE →
        p'.at c = endMark) ∧
      ∀ c, (∀ k ≤ offeredCount addr n len, c % PIPE_SIZE ≠ (p.nread + p.used + k) % PIPE_SIZE) →
        p'.at c = p.at c := by
  have hm : offeredCount addr n len < 2 ^ 31 := offeredCount_lt hn
  set p₁ : PipeT :=
    { p with wProcesses := (releaseProcessPipe (blockProcessPipe p.wProcesses pid).1 pid).1 }
  obtain ⟨data, hloop, hframe⟩ := @writeLoop_takes p₁ addr
    (if n = 0 then Sem.toInt len else n).toNat 0 hread hwrite (by
      change p.used + offeredCount addr n len + 1 < 2 ^ 32
      simp only [PIPE_SIZE] at hused
      omega)
  have hnwrite := nwrite_eq hread hwrite
  set m := (offered addr 0 (if n = 0 then Sem.toInt len else n).toNat).length
  have hcell : ∀ k, (p.nwrite + k) % PIPE_SIZE = (p.nread + p.used + k) % PIPE_SIZE := fun k => by
    rw [hnwrite, ← mod_pipe_size, Nat.mod_add_mod, mod_pipe_size]
  refine ⟨PipeT.setAt { p₁ with data := data, nwrite := (p.nwrite + m) % 2 ^ 32 }
    ((p.nwrite + m) % 2 ^ 32) endMark, ?_, rfl, ?_, fun c hc => ?_, fun c hc => ?_⟩
  · have hloop' : writeLoop addr (if n = 0 then Sem.toInt len else n).toNat p₁ 0 = _ := hloop
    rw [pipeWrite_eq pid hstring, if_neg hcreated]
    simp only [writeData]
    rw [hloop', Nat.zero_add]
    rfl
  · show ((p.nwrite + m) % 2 ^ 32 + 2 ^ 32 - p.nread) % 2 ^ 32 = p.used + m
    have hsmall : p.used + m < 2 ^ 32 := by
      change m < 2 ^ 31 at hm
      simp only [PIPE_SIZE] at hused
      omega
    rw [hnwrite]
    omega
  · show Function.update data ((p.nwrite + m) % 2 ^ 32 % PIPE_SIZE) endMark (c % PIPE_SIZE) = _
    rw [hc, mod_pipe_size, ← hcell]
    exact Function.update_self ..
  · show Function.update data ((p.nwrite + m) % 2 ^ 32 % PIPE_SIZE) endMark (c % PIPE_SIZE) = _
    rw [mod_pipe_size, hcell, Function.update_of_ne (hc m (Nat.le_refl _))]
    refine hframe _ fun k hk => ?_
    exact fun heq => hc k (Nat.le_of_lt hk) (heq.symm.trans (hcell k))

/-- A write leaves the unread bytes alone and accepts what there is room for if and only if the pipe
is closed, or what the write offers has room in front of the end mark. -/
theorem write_keeps_unread_iff (p : PipeT) (pid : ℤ) (addr : ℕ → UInt8) (n : ℤ) (len : ℕ)
    (hread : p.nread < 2 ^ 32) (hwrite : p.nwrite < 2 ^ 32) (hused : p.used ≤ PIPE_SIZE)
    (hn : n < 2 ^ 31) (hstring : strlen addr = some len) :
    KeepsUnread p pid addr n ↔ p.created = 0 ∨ HasRoom p (offeredCount addr n len) := by
  by_cases hcreated : p.created = 0
  · refine iff_of_true ⟨p, -1, ?_, rfl, fun k _ => rfl, by omega, hused⟩ (Or.inl hcreated)
    rw [pipeWrite_eq pid hstring, if_pos hcreated]
  obtain ⟨p', hval, hnread, hcount, hmark, hframe⟩ :=
    pipeWrite_takes pid hcreated hread hwrite hused hn hstring
  rw [or_iff_right hcreated]
  generalize offeredCount addr n len = m at *
  -- behind the oldest unread byte, no cell is written as long as there is room
  have hkept : p.used + m ≤ PIPE_SIZE → ∀ k < p.used, 0 < k ∨ p.used + m < PIPE_SIZE →
      p'.at (p.nread + k) = p.at (p.nread + k) := fun hroom k hk hpos => by
    refine hframe _ fun j hj => ?_
    rw [Nat.add_assoc]
    exact cell_ne (by omega) (by omega)
  constructor
  · rintro ⟨q, ret, hq, -, hsame, hret, -⟩
    obtain ⟨rfl, rfl⟩ := Prod.mk.inj (Option.some.inj (hval.symm.trans hq))
    rcases Nat.lt_or_ge (p.used + m) PIPE_SIZE with hlt | hge
    · exact Or.inl hlt
    · have hfull : p.used + m = PIPE_SIZE := by omega
      refine Or.inr ⟨hfull, (Nat.eq_zero_or_pos p.used).imp_right fun hpos => ?_⟩
      refine (hsame 0 hpos).symm.trans (hmark _ ?_)
      rw [Nat.add_assoc, hfull, Nat.add_zero, Nat.add_mod_right]
  · intro hroom
    refine ⟨p', m, hval, hnread, fun k hk => ?_, ?_, ?_⟩
    · rcases hroom with hlt | ⟨hfull, hempty | hsame⟩
      · exact hkept hlt.le k hk (Or.inr hlt)
      · omega
      · rcases Nat.eq_zero_or_pos k with rfl | hpos
        · rw [Nat.add_zero, hsame]
          exact hmark _ (by rw [Nat.add_assoc, hfull, Nat.add_mod_right])
        · exact hkept hfull.le k hk (Or.inl hpos)
    · rcases hroom with hlt | ⟨hfull, -⟩ <;> omega
    · rcases hroom with hlt | ⟨hfull, -⟩ <;> omega

/-- Five bytes written to a pipe whose counters are about to wrap. -/
theorem write_keeps_unread_wrap :
    KeepsUnread { oneByte with nread := 2 ^ 32 - 2, nwrite := 2 ^ 32 - 1 } 2
      (fun i => if i < 5 then 98 else 0) 5 :=
  (write_keeps_unread_iff { oneByte with nread := 2 ^ 32 - 2, nwrite := 2 ^ 32 - 1 } 2
    (fun i => if i < 5 then 98 else 0) 5 5 (by decide) (by decide) (by decide) (by decide)
    (by decide +kernel)).mpr (Or.inr (by decide +kernel))

/-- The pipe is full: the end mark overwrites its oldest byte. -/
theorem full_pipe_overwritten :
    ¬ ∀ (p : PipeT) (pid : ℤ) (addr : ℕ → UInt8) (n : ℤ) (len : ℕ), p.nread < 2 ^ 32 →
      p.nwrite < 2 ^ 32 → p.used ≤ PIPE_SIZE → n < 2 ^ 31 → strlen addr = some len →
      KeepsUnread p pid addr n := by
  intro h
  obtain ⟨p', ret, hval, -, hsame, -⟩ := h { oneByte with nwrite := 4096 } 2 (fun _ => 0) 1 0
    (by decide) (by decide) (by decide) (by decide) (by decide +kernel)
  have hrun : (pipeWrite { oneByte with nwrite := 4096 } 2 (fun _ => 0) 1).map
      (fun r => r.1.at 0) = some endMark := by decide +kernel
  rw [hval, Option.map_some] at hrun
  exact absurd ((hsame 0 (by decide)).symm.trans (Option.some.inj hrun)) (by decide)

end TronKernel.Pipe
