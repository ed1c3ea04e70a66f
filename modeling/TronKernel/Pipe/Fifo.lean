import TronKernel.Pipe.Buffer
import TronKernel.Lib.CircularBuffer
import TronKernel.Lib.Runs
import Mathlib.Data.PNat.Defs

/-!
# A pipe as a queue of bytes

A session keeps the bytes that the writes accepted and those that the reads delivered. `Fifo` is
what a queue promises for one call: what has been delivered is the beginning of what has been
accepted, a read delivers all it is asked for as long as there are bytes left, and a read on an
empty pipe cannot be seen later. The pipe keeps it in the runs whose calls are `Fitting`
(`fitting_calls_keep_fifo`): the bytes have to fit into `PIPE_SIZE - 1` cells, as the test for a
full buffer compares the counters without reducing them; the pipe is not empty when it is read, as a
read wipes the end mark it stops at; and no byte `0xff` that a read meets is taken for that mark.
-/

namespace TronKernel.Pipe

open Runs CircularBuffer

/-- A call by process `pid`, with the memory at `addr` for a write. -/
inductive Call where
  | write (pid : ℤ) (addr : ℕ → UInt8) (n : ℕ+)
  | read (pid : ℤ) (n : ℕ+)

/-- The pipe and the bytes accepted and delivered since it was opened. -/
structure Session where
  pipe : PipeT
  accepted : List UInt8
  delivered : List UInt8

/-- The pipe has just been opened in slot `index`. -/
def Session.start (p : PipeT) (index : ℕ) (name : List UInt8) : Session :=
  ⟨opened p index name, [], []⟩

/-- `addr[i], …, addr[i + n - 1]`. -/
def bytesAt (addr : ℕ → UInt8) (i n : ℕ) : List UInt8 := (List.range' i n).map addr

/-- One call. A write that returns `i` has accepted `i` bytes, a read has delivered the bytes in
front of the NUL. -/
def Session.step (s : Session) : Call → Option Session
  | .write pid addr n => (pipeWrite s.pipe pid addr (n : ℕ)).map fun r =>
      { s with pipe := r.1, accepted := s.accepted ++ bytesAt addr 0 r.2.toNat }
  | .read pid n =>
      let r := pipeRead s.pipe pid (n : ℕ)
      some { s with pipe := r.1, delivered := s.delivered ++ r.2.1.dropLast }

/-- The bytes that have been accepted and not delivered. -/
def Session.pending (s : Session) : ℕ := s.accepted.length - s.delivered.length

/-- Nothing that is delivered later depends on which of the two states it starts from. -/
def SameFuture (s s' : Session) : Prop :=
  ∀ cs, (run Session.step s' cs).map Session.delivered =
    (run Session.step s cs).map Session.delivered

/-- What a queue promises for one call. -/
def Fifo (s : Session) (c : Call) : Prop :=
  ∃ s', s.step c = some s' ∧ s'.delivered <+: s'.accepted ∧
    ∀ pid n, c = .read pid n →
      min (n : ℕ) s.pending + s.delivered.length ≤ s'.delivered.length ∧
        (s.pending = 0 → SameFuture s s')

/-- The bytes that a write offers: up to the first NUL. -/
def offered (addr : ℕ → UInt8) (i n : ℕ) : List UInt8 := (bytesAt addr i n).takeWhile (· ≠ 0)

/-- `nwrite - nread` on `unsigned int`: the number of bytes in the pipe. -/
def PipeT.used (p : PipeT) : ℕ := (p.nwrite + 2 ^ 32 - p.nread) % 2 ^ 32

/-- The bytes in the pipe, the oldest one first. -/
def PipeT.contents (p : PipeT) : List UInt8 := window p.data PIPE_SIZE p.nread p.used

/-- A write fits into `PIPE_SIZE - 1` cells. A read finds a byte, and among those it looks at none
but the last one in the pipe is `0xff`. -/
def Fitting (s : Session) : Call → Prop
  | .write _ addr n => s.pipe.used + (offered addr 0 n).length < PIPE_SIZE
  | .read _ n => 0 < s.pipe.used ∧
      ∀ j < min ((n : ℕ) + 1) (s.pipe.used - 1), s.pipe.contents[j]? ≠ some endMark

instance fittingDecidable : ∀ s c, Decidable (Fitting s c)
  | s, .write _ addr n =>
      inferInstanceAs (Decidable (s.pipe.used + (offered addr 0 n).length < PIPE_SIZE))
  | s, .read _ n => inferInstanceAs (Decidable (0 < s.pipe.used ∧
      ∀ j < min ((n : ℕ) + 1) (s.pipe.used - 1), s.pipe.contents[j]? ≠ some endMark))

/-! ## The bytes in the pipe -/

/-- The pipe is open and holds the bytes `cs`. -/
structure Buffers (p : PipeT) (cs : List UInt8) : Prop where
  created : p.created ≠ 0
  nread_lt : p.nread < 2 ^ 32
  nwrite_eq : p.nwrite = (p.nread + cs.length) % 2 ^ 32
  length_lt : cs.length < PIPE_SIZE
  window_eq : window p.data PIPE_SIZE p.nread cs.length = cs

variable {p : PipeT} {cs : List UInt8} {b : UInt8} {addr : ℕ → UInt8}

theorem mod_pipe_size (k : ℕ) : k % 2 ^ 32 % PIPE_SIZE = k % PIPE_SIZE :=
  Nat.mod_mod_of_dvd k (by decide)

theorem Buffers.used_eq (h : Buffers p cs) : p.used = cs.length := by
  have := h.nread_lt
  have := h.length_lt
  simp only [PipeT.used, h.nwrite_eq, PIPE_SIZE] at *
  omega

theorem Buffers.contents_eq (h : Buffers p cs) : p.contents = cs := by
  rw [PipeT.contents, h.used_eq, h.window_eq]

/-- The counters meet exactly if no byte but the first one is there. -/
theorem Buffers.incr_nread_eq_iff (h : Buffers p cs) : incr p.nread = p.nwrite ↔ cs.length = 1 := by
  have := h.nread_lt
  have := h.length_lt
  simp only [incr, h.nwrite_eq, PIPE_SIZE] at *
  omega

/-- The test for a full buffer never succeeds. -/
theorem Buffers.nread_ne (h : Buffers p cs) : p.nread ≠ incr p.nwrite := by
  have := h.nread_lt
  have := h.length_lt
  simp only [incr, h.nwrite_eq, PIPE_SIZE] at *
  omega

theorem buffers_opened (p : PipeT) (index : ℕ) (name : List UInt8) :
    Buffers (opened p index name) [] where
  created := by simp [opened]
  nread_lt := by simp [opened]
  nwrite_eq := by simp [opened]
  length_lt := by simp
  window_eq := rfl

/-- Another byte behind the others. -/
theorem Buffers.push (h : Buffers p cs) (hlt : cs.length + 1 < PIPE_SIZE) (b : UInt8) :
    Buffers { p.setAt p.nwrite b with nwrite := incr p.nwrite } (cs ++ [b]) where
  created := h.created
  nread_lt := h.nread_lt
  nwrite_eq := by
    simp only [incr, PipeT.setAt, h.nwrite_eq, List.length_append, List.length_singleton]
    omega
  length_lt := by simpa using hlt
  window_eq := by
    simp only [PipeT.setAt, h.nwrite_eq, mod_pipe_size, List.length_append, List.length_singleton]
    rw [window_push b h.length_lt, h.window_eq]

/-- The end mark behind the bytes is none of them. -/
theorem Buffers.mark (h : Buffers p cs) (b : UInt8) : Buffers (p.setAt p.nwrite b) cs where
  created := h.created
  nread_lt := h.nread_lt
  nwrite_eq := h.nwrite_eq
  length_lt := h.length_lt
  window_eq := by
    simp only [PipeT.setAt, h.nwrite_eq, mod_pipe_size]
    rw [window_update b (behind_ne h.length_lt), h.window_eq]

/-- The first byte is the one at `nread`. -/
theorem Buffers.at_nread (h : Buffers p (b :: cs)) : p.at p.nread = b := by
  have hwin := h.window_eq
  rw [List.length_cons, window_succ] at hwin
  exact (List.cons.inj hwin).1

/-- The bytes behind the first one. -/
theorem Buffers.tail (h : Buffers p (b :: cs)) : Buffers { p with nread := incr p.nread } cs where
  created := h.created
  nread_lt := Nat.mod_lt _ (by decide)
  nwrite_eq := by
    simp only [incr, h.nwrite_eq, List.length_cons]
    omega
  length_lt := Nat.lt_of_succ_lt h.length_lt
  window_eq := by
    have hwin := h.window_eq
    rw [List.length_cons, window_succ] at hwin
    have hwrap : incr p.nread % PIPE_SIZE = (p.nread + 1) % PIPE_SIZE := mod_pipe_size _
    show window p.data PIPE_SIZE (incr p.nread) cs.length = cs
    rw [window_modEq hwrap]
    exact (List.cons.inj hwin).2

/-- Once everything has been read, the mark may go. -/
theorem Buffers.clear (h : Buffers p []) : Buffers (clearMark p) [] := by
  unfold clearMark
  split
  · exact ⟨h.created, h.nread_lt, h.nwrite_eq, h.length_lt, rfl⟩
  · exact h

/-! ## One call -/

theorem offered_succ (addr : ℕ → UInt8) (i n : ℕ) :
    offered addr i (n + 1) = if addr i ≠ 0 then addr i :: offered addr (i + 1) n else [] := by
  simp only [offered, bytesAt, List.range'_succ, List.map_cons, List.takeWhile_cons,
    decide_eq_true_eq]

/-- What is offered are the first bytes at `addr`. -/
theorem bytesAt_length_offered (addr : ℕ → UInt8) (i n : ℕ) :
    bytesAt addr i (offered addr i n).length = offered addr i n := by
  induction n generalizing i with
  | zero => rfl
  | succ n ih =>
    rw [offered_succ]
    split
    · have := ih (i + 1)
      simp only [bytesAt, List.length_cons, List.range'_succ, List.map_cons] at this ⊢
      rw [this]
    · rfl

/-- The loop of a write that fits takes all that is offered. -/
theorem writeLoop_spec (rounds i : ℕ) (h : Buffers p cs)
    (hlt : cs.length + (offered addr i rounds).length < PIPE_SIZE) :
    Buffers (writeLoop addr rounds p i).1 (cs ++ offered addr i rounds) ∧
      (writeLoop addr rounds p i).2 = i + (offered addr i rounds).length := by
  induction rounds generalizing p cs i with
  | zero => simpa [writeLoop, offered, bytesAt] using h
  | succ rounds ih =>
    rw [offered_succ] at hlt ⊢
    by_cases hnul : addr i = 0
    · simpa [writeLoop, hnul] using h
    · rw [if_pos hnul, List.length_cons] at hlt
      have := ih (i + 1) (h.push (by omega) (addr i))
        (by simp only [List.length_append, List.length_singleton]; omega)
      rw [writeLoop, if_pos ⟨hnul, h.nread_ne⟩, if_pos hnul]
      refine ⟨?_, ?_⟩
      · simpa using this.1
      · rw [this.2, List.length_cons]
        omega

theorem writeData_spec (n : ℕ) (h : Buffers p cs)
    (hlt : cs.length + (offered addr 0 n).length < PIPE_SIZE) :
    Buffers (writeData p addr n).1 (cs ++ offered addr 0 n) ∧
      (writeData p addr n).2 = (offered addr 0 n).length := by
  obtain ⟨hbuf, hi⟩ := writeLoop_spec n 0 h hlt
  rw [Nat.zero_add] at hi
  exact ⟨hbuf.mark endMark, hi⟩

/-- A write that fits accepts all that is offered. -/
theorem pipeWrite_spec (pid : ℤ) (n : ℕ+) (h : Buffers p cs)
    (hlt : cs.length + (offered addr 0 n).length < PIPE_SIZE) :
    ∃ p', pipeWrite p pid addr (n : ℕ) = some (p', ((offered addr 0 n).length : ℤ)) ∧
      Buffers p' (cs ++ offered addr 0 n) := by
  have hn : ((n : ℕ) : ℤ) ≠ 0 := by
    have := n.2
    have h0 : (n : ℕ) ≠ 0 := Nat.ne_of_gt this
    exact_mod_cast h0
  set q : PipeT :=
    { p with wProcesses := (releaseProcessPipe (blockProcessPipe p.wProcesses pid).1 pid).1 }
  have hbuf : Buffers q cs := ⟨h.created, h.nread_lt, h.nwrite_eq, h.length_lt, h.window_eq⟩
  obtain ⟨hp', hi⟩ := writeData_spec n hbuf hlt
  refine ⟨(writeData q addr n).1, ?_, hp'⟩
  rw [pipeWrite, if_neg hn, Option.bind_eq_bind, Option.bind_some]
  simp only [if_neg h.created]
  rw [← hi]

/-- The loop of a read takes what it is asked for, but leaves the last byte. -/
theorem readLoop_spec (rounds : ℕ) (h : Buffers p cs) (hne : cs ≠ [])
    (hmark : ∀ j < min rounds (cs.length - 1), cs[j]? ≠ some endMark) :
    (readLoop rounds p).2 = cs.take (min rounds (cs.length - 1)) ∧
      Buffers (readLoop rounds p).1 (cs.drop (min rounds (cs.length - 1))) := by
  induction rounds generalizing p cs with
  | zero => simpa [readLoop] using h
  | succ rounds ih =>
    obtain ⟨b, cs, rfl⟩ := List.exists_cons_of_ne_nil hne
    by_cases hlast : cs = []
    · subst hlast
      have hstop : incr p.nread = p.nwrite := h.incr_nread_eq_iff.mpr rfl
      simpa [readLoop, hstop] using h
    · obtain ⟨m, hm⟩ := Nat.exists_eq_succ_of_ne_zero (mt List.length_eq_zero_iff.mp hlast)
      have hb : b ≠ endMark := by
        have := hmark 0 (by simp only [List.length_cons]; omega)
        simpa using this
      have hgo : incr p.nread ≠ p.nwrite := by
        rw [ne_eq, h.incr_nread_eq_iff, List.length_cons]
        omega
      obtain ⟨hbs, hbuf⟩ := ih h.tail hlast fun j hj => by
        have := hmark (j + 1) (by simp only [List.length_cons]; omega)
        simpa using this
      have hmin : min (rounds + 1) ((b :: cs).length - 1) = min rounds (cs.length - 1) + 1 := by
        simp only [List.length_cons]
        omega
      rw [readLoop, if_pos ⟨by rwa [h.at_nread], hgo⟩, hmin, List.take_succ_cons,
        List.drop_succ_cons]
      exact ⟨congrArg₂ List.cons h.at_nread hbs, hbuf⟩

/-- A read that does not meet a byte `0xff` delivers the oldest bytes, as many as it is asked for
or one more. -/
theorem readData_spec (n : ℕ) (h : Buffers p cs) (hne : cs ≠ [])
    (hmark : ∀ j < min (n + 1) (cs.length - 1), cs[j]? ≠ some endMark) :
    ∃ k, min n cs.length ≤ k ∧ (readData p n).2.1 = cs.take k ∧
      Buffers (readData p n).1 (cs.drop k) := by
  have hpos : 0 < cs.length := List.length_pos_iff.mpr hne
  obtain ⟨hbs, hbuf⟩ := readLoop_spec n h hne fun j hj => hmark j (by omega)
  rcases hloop : readLoop n p with ⟨q, bs⟩
  simp only [hloop] at hbs hbuf
  have hlen : (cs.drop (min n (cs.length - 1))).length = cs.length - min n (cs.length - 1) :=
    List.length_drop
  by_cases hlast : cs.length - 1 ≤ n
  · -- one byte is left, and the second part of the call delivers it
    rw [Nat.min_eq_right hlast] at hbs hbuf hlen
    obtain ⟨b, hb⟩ := List.length_eq_one_iff.mp (hlen.trans (by omega))
    rw [hb] at hbuf
    refine ⟨cs.length, Nat.min_le_right _ _, ?_, ?_⟩
    · rw [readData, Int.toNat_natCast, hloop]
      simp only [if_pos (hbuf.incr_nread_eq_iff.mpr rfl)]
      rw [hbuf.at_nread, hbs, ← hb, List.take_append_drop, List.take_length]
    · rw [readData, Int.toNat_natCast, hloop]
      simp only [if_pos (hbuf.incr_nread_eq_iff.mpr rfl)]
      rw [List.drop_length]
      exact hbuf.tail.clear
  · rw [Nat.min_eq_left (by omega)] at hbs hbuf hlen
    have hmore : incr q.nread ≠ q.nwrite := by
      rw [ne_eq, hbuf.incr_nread_eq_iff]
      omega
    have hclear : clearMark q = q := by
      have hn : n < cs.length := by omega
      rw [List.drop_eq_getElem_cons hn] at hbuf
      have := hmark n (by omega)
      rw [List.getElem?_eq_getElem hn, ne_eq, Option.some_inj] at this
      rw [clearMark, hbuf.at_nread, if_neg this]
    refine ⟨n, Nat.min_le_left _ _, ?_, ?_⟩
    · rw [readData, Int.toNat_natCast, hloop]
      simp only [if_neg hmore]
      exact hbs
    · rw [readData, Int.toNat_natCast, hloop]
      simp only [if_neg hmore, hclear]
      exact hbuf

/-- A read that does not meet a byte `0xff` stores the oldest bytes and a NUL. -/
theorem pipeRead_spec (pid : ℤ) (n : ℕ) (h : Buffers p cs) (hne : cs ≠ [])
    (hmark : ∀ j < min (n + 1) (cs.length - 1), cs[j]? ≠ some endMark) :
    ∃ k, min n cs.length ≤ k ∧ (pipeRead p pid n).2.1 = cs.take k ++ [0] ∧
      Buffers (pipeRead p pid n).1 (cs.drop k) := by
  set q : PipeT :=
    { p with
      rProcesses := (blockProcessPipe p.rProcesses pid).1
      wProcesses := (releaseProcessPipe p.wProcesses pid).1 } with hq
  have hbuf : Buffers q cs := ⟨h.created, h.nread_lt, h.nwrite_eq, h.length_lt, h.window_eq⟩
  obtain ⟨k, hk, hbs, hdrop⟩ := readData_spec n hbuf hne hmark
  have hval : pipeRead p pid n =
      ((readData q n).1, (readData q n).2.1 ++ [0], ((readData q n).2.2 : ℤ)) := by
    rw [pipeRead, if_neg h.created]
  exact ⟨k, hk, by rw [hval, hbs], by rw [hval]; exact hdrop⟩

/-! ## All calls -/

/-- What is in the pipe is what has been accepted and not been delivered. -/
def Queued (s : Session) : Prop :=
  ∃ cs, Buffers s.pipe cs ∧ s.accepted = s.delivered ++ cs

theorem queued_start (p : PipeT) (index : ℕ) (name : List UInt8) :
    Queued (.start p index name) := ⟨[], buffers_opened p index name, rfl⟩

variable {s s' : Session}

theorem Queued.write (h : Queued s) (pid : ℤ) (n : ℕ+) (hfit : Fitting s (.write pid addr n)) :
    ∃ s', s.step (.write pid addr n) = some s' ∧ Queued s' ∧ s'.delivered <+: s'.accepted := by
  obtain ⟨cs, hbuf, hacc⟩ := h
  rw [Fitting, hbuf.used_eq] at hfit
  obtain ⟨p', hval, hbuf'⟩ := pipeWrite_spec pid n hbuf hfit
  refine ⟨_, by rw [Session.step, hval]; rfl, ⟨_, hbuf', ?_⟩, ?_⟩
  · simp only [Int.toNat_natCast, bytesAt_length_offered, hacc, List.append_assoc]
  · simp only [hacc, List.append_assoc]
    exact List.prefix_append _ _

theorem Queued.read (h : Queued s) (pid : ℤ) (n : ℕ+) (hfit : Fitting s (.read pid n)) :
    ∃ s', s.step (.read pid n) = some s' ∧ Queued s' ∧ s'.delivered <+: s'.accepted ∧
      min (n : ℕ) s.pending + s.delivered.length ≤ s'.delivered.length ∧ s.pending ≠ 0 := by
  obtain ⟨cs, hbuf, hacc⟩ := h
  have hpending : s.pending = cs.length := by
    rw [Session.pending, hacc, List.length_append]
    omega
  rw [Fitting, hbuf.used_eq, hbuf.contents_eq] at hfit
  obtain ⟨k, hk, hbs, hbuf'⟩ :=
    pipeRead_spec pid n hbuf (List.length_pos_iff.mp hfit.1) hfit.2
  refine ⟨_, rfl, ⟨_, hbuf', ?_⟩, ?_, ?_, by omega⟩
  · simp only [hbs, List.dropLast_concat, List.append_assoc, List.take_append_drop, hacc]
  · simp only [hbs, List.dropLast_concat, hacc]
    exact List.prefix_append_right_inj _ |>.mpr (List.take_prefix _ _)
  · simp only [hbs, List.dropLast_concat, List.length_append, List.length_take, hpending]
    omega

/-- A call that fits does what a queue promises. -/
theorem Queued.fifo (h : Queued s) (c : Call) (hfit : Fitting s c) :
    Fifo s c ∧ ∀ s', s.step c = some s' → Queued s' := by
  cases c with
  | write pid addr n =>
    obtain ⟨s', hstep, hq, hpre⟩ := h.write pid n hfit
    refine ⟨⟨s', hstep, hpre, fun _ _ hc => Call.noConfusion hc⟩, fun t ht => ?_⟩
    exact Option.some.inj (hstep.symm.trans ht) ▸ hq
  | read pid n =>
    obtain ⟨s', hstep, hq, hpre, hmin, hne⟩ := h.read pid n hfit
    refine ⟨⟨s', hstep, hpre, fun pid' n' hc => ?_⟩, fun t ht => ?_⟩
    · obtain ⟨-, rfl⟩ := Call.read.inj hc
      exact ⟨hmin, fun h0 => absurd h0 hne⟩
    · exact Option.some.inj (hstep.symm.trans ht) ▸ hq

/-- In a run of calls that fit, the pipe is a queue. -/
theorem fitting_calls_keep_fifo (p : PipeT) (index : ℕ) (name : List UInt8) (cs : List Call)
    (hfit : Throughout Session.step Fitting (.start p index name) cs) :
    Throughout Session.step Fifo (.start p index name) cs :=
  hfit.of_invariant (queued_start p index name) fun _ c hs hc => hs.fifo c hc

/-- The zeroed pipe. -/
def zeroPipe : PipeT where
  name := []
  created := 0
  data := fun _ => 0
  rProcesses := fun _ => 0
  wProcesses := fun _ => 0
  nread := 0
  nwrite := 0
  usingPipe := 0
  waitingPid := 0
  fd := 0

/-- A byte `0xff` is read as the last one in the pipe. -/
theorem fitting_calls_keep_fifo_five :
    let cs : List Call := [.write 2 (fun i => [97, 98, 255].getD i 0) 3, .read 3 1, .read 3 9,
      .write 2 (fun i => [99, 100].getD i 0) 7, .read 3 9]
    Throughout Session.step Fitting (.start zeroPipe 0 [112]) cs ∧
      Throughout Session.step Fifo (.start zeroPipe 0 [112]) cs :=
  ⟨by decide +kernel, fitting_calls_keep_fifo zeroPipe 0 [112] _ (by decide +kernel)⟩

/-- A read on an empty pipe runs ahead of the writes: it delivers bytes that nobody wrote, and the
byte that is written next is not the one that is read. -/
theorem empty_read_runs_ahead :
    let cs : List Call := [.read 3 2, .write 2 (fun _ => 97) 1, .read 3 1]
    (run Session.step (.start zeroPipe 0 [112]) cs).map (fun s => (s.accepted, s.delivered)) =
        some ([97], [0, 0, 0]) ∧
      ¬ Throughout Session.step Fifo (.start zeroPipe 0 [112]) cs := by
  refine ⟨by decide +kernel, fun h => ?_⟩
  obtain ⟨s', hstep, hpre, -⟩ := h.1
  obtain rfl := Option.some.inj hstep
  exact absurd hpre (by decide +kernel)

end TronKernel.Pipe
