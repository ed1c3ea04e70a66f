import TronKernel.Sched.Boot
import TronKernel.Sched.Descriptors
import TronKernel.Sched.Frame
import TronKernel.Pipe.Fifo

/-!
# `free_proc` and the end of file

`free_proc` writes one byte to the process's own descriptor, and the readers take the byte 4 for the
end of the file. Two things come between: `sys_write` goes where the output of the *current* process
is redirected, and the byte is the one at address 4, as the mark is the pointer's value and not what
it points to. `ends_freeProc` says what any call of `free_proc` leaves in the pipes, and
`eofReaches_iff` when that is the mark, behind what was in the process's pipe.
-/

namespace TronKernel.Sched

open Programs Sem
open Pipe (PipeT Buffers writeData offered)

variable {H : Type} {s s' s₁ : Kernel H} {a proc index : ℕ} {p cur : Process}
  {q : ℕ → PipeT} {addr : ℕ → UInt8}

/-! ## The bytes in the pipes -/

/-- The pipes hold the same bytes as these. -/
def Carries (q : ℕ → PipeT) (s : Kernel H) : Prop := ∀ j, SameData (q j) (s.pipes j)

theorem Carries.keep (h : Carries q s) (hs : SameBytes s s') : Carries q s' :=
  fun j => (h j).trans (hs.pipes j)

theorem SameData.contents_eq {p q : PipeT} (h : SameData p q) : q.contents = p.contents := by
  have hused : q.used = p.used := by rw [PipeT.used, PipeT.used, h.nread, h.nwrite]
  rw [PipeT.contents, PipeT.contents, h.data, h.nread, hused]

theorem SameData.setAt {p q : PipeT} (h : SameData p q) (b : UInt8) :
    SameData (p.setAt p.nwrite b) (q.setAt q.nwrite b) := by
  refine ⟨h.created, ?_, h.nread, h.nwrite⟩
  rw [PipeT.setAt, PipeT.setAt, h.data, h.nwrite]

/-- What a write does to the bytes depends on nothing else. -/
theorem SameData.writeLoop {p q : PipeT} (h : SameData p q) (rounds i : ℕ) :
    SameData (Pipe.writeLoop addr rounds p i).1 (Pipe.writeLoop addr rounds q i).1 := by
  induction rounds generalizing p q i with
  | zero => exact h
  | succ rounds ih =>
    rw [Pipe.writeLoop, Pipe.writeLoop, h.nread, h.nwrite]
    split_ifs with hnext
    · have hset := h.setAt (addr i)
      rw [h.nwrite] at hset
      have hnext : SameData { p.setAt p.nwrite (addr i) with nwrite := Pipe.incr p.nwrite }
          { q.setAt p.nwrite (addr i) with nwrite := Pipe.incr p.nwrite } :=
        ⟨hset.created, hset.data, hset.nread, rfl⟩
      exact ih hnext (i + 1)
    · exact h

theorem SameData.writeData {p q : PipeT} (h : SameData p q) (n : ℤ) :
    SameData (Pipe.writeData p addr n).1 (Pipe.writeData q addr n).1 :=
  (h.writeLoop n.toNat 0).setAt _

/-- The pipes after a write of `n` bytes to one of them. -/
def written (s : Kernel H) (addr : ℕ → UInt8) (n i : ℤ) (j : ℕ) : PipeT :=
  if (j : ℤ) = i ∧ (s.pipes j).created ≠ 0 then (writeData (s.pipes j) addr n).1 else s.pipes j

/-- The pipes after a write to a target. -/
def Target.written (s : Kernel H) (addr : ℕ → UInt8) (n : ℤ) : Target → ℕ → PipeT
  | .pipe i => Sched.written s addr n i
  | _ => s.pipes

theorem Target.written_congr (h : s₁.pipes = s.pipes) (n : ℤ) (t : Target) :
    t.written s₁ addr n = t.written s addr n := by
  cases t with
  | pipe i =>
    funext j
    rw [Target.written, Target.written, Sched.written, Sched.written, h]
  | nothing => exact h
  | screen => exact h
  | keyboard => exact h

variable {force : Op H Unit}

/-- The part of `pipe_write` that moves the bytes. -/
theorem ends_pipeWriteBody (h : SameBytes s s₁) {n i : ℤ} (hi : 0 ≤ i)
    (hcreated : (s.pipes i.toNat).created ≠ 0) :
    Ends (fun _ s' => Carries (written s addr n i) s') (fun _ _ => True)
      (pipeWriteBody i addr n) s₁ := by
  rw [pipeWriteBody, ends_bind]
  refine (stable_sameBytes.pipeRelease i s₁).mono (fun _ s₂ h₂ => ?_) fun _ _ h => h
  replace h₂ := h.trans h₂
  rw [ends_bind]
  refine ends_pipeAt lenient_true fun _ => ?_
  have hdata : SameData (writeData (s.pipes i.toNat) addr n).1
      (writeData (s₂.pipes i.toNat) addr n).1 := (h₂.pipes i.toNat).writeData n
  generalize writeData (s₂.pipes i.toNat) addr n = r at hdata ⊢
  obtain ⟨p, k⟩ := r
  dsimp only at hdata ⊢
  rw [ends_bind, editPipe, ends_modify, ends_bind]
  refine (stable_sameBytes.semPost _ _).mono (fun _ s₃ h₃ => ?_) fun _ _ h => h
  rw [ends_pure]
  refine Carries.keep (fun j => ?_) h₃
  show SameData (written s addr n i j) (Function.update s₂.pipes i.toNat p j)
  rw [Function.update_apply, written]
  by_cases hj : j = i.toNat
  · subst hj
    rw [if_pos rfl, if_pos ⟨Int.toNat_of_nonneg hi, hcreated⟩]
    exact hdata
  · have hne : ¬ (j : ℤ) = i := by omega
    rw [if_neg hj, if_neg fun h => hne h.1]
    exact h₂.pipes j

/-- `pipe_write`, wherever it is blocked on the way. -/
theorem ends_pipeWrite (hforce : KeepsBytes force) {n : ℤ} (hn : n ≠ 0) (i : ℤ) :
    Ends (fun _ s' => Carries (written s addr n i) s') (fun _ _ => True)
      (pipeWrite force i addr n) s := by
  rw [pipeWrite, writeLength, if_neg hn, pure_bind, ends_bind]
  refine ends_pipeAt lenient_true fun hi => ?_
  split_ifs with hcreated
  · refine fun j => ?_
    have hskip : ¬ ((j : ℤ) = i ∧ (s.pipes j).created ≠ 0) := by
      rintro ⟨rfl, hj⟩
      exact hj hcreated
    rw [written, if_neg hskip]
    exact SameData.refl _
  · rw [ends_bind]
    refine (stable_sameBytes.pipeWriteEnter hforce i s).mono (fun _ s₁ h₁ => ?_) fun _ _ h => h
    rw [ends_bind]
    refine (stable_sameBytes.pipeAt i s₁).mono (fun p s₂ h₂ => ?_) fun _ _ h => h
    rw [ends_bind]
    refine (stable_sameBytes.semWait hforce p.name s₂).mono (fun _ s₃ h₃ => ?_) fun _ _ h => h
    exact ends_pipeWriteBody ((h₁.trans h₂).trans h₃) hi hcreated

/-- `sys_write` changes the pipe that it is led to, and no other. -/
theorem ends_sysWrite (hforce : KeepsBytes force) {fd n : ℕ} (hn : toInt n ≠ 0)
    (h : ∀ node c, s.node? s.currentNode = some node → s.process? node.proc = some c → c = cur) :
    Ends (fun _ s' => Carries ((writeTarget fd n cur.writeFd).written s addr (toInt n)) s')
      (fun _ _ => True) (sysWrite force fd addr n) s := by
  rw [sysWrite_eq, getCurrentWrite, bind_assoc, ends_bind]
  refine ends_currentProc lenient_true fun node hnode => ?_
  rw [bind_assoc, ends_bind]
  refine ends_procAt lenient_true fun c hc => ?_
  obtain rfl := h node c hnode hc
  rw [pure_bind]
  cases writeTarget fd n c.writeFd with
  | nothing => exact fun _ => SameData.refl _
  | screen => exact fun _ => SameData.refl _
  | keyboard => exact fun _ => SameData.refl _
  | pipe i =>
    rw [Target.write, ends_bind]
    generalize toInt n = m at hn ⊢
    have hwrite : Ends (fun _ s' => Carries (written s addr m i) s') (fun _ _ => True)
        (pipeWrite force i addr m) s := ends_pipeWrite hforce hn i
    refine hwrite.mono (fun r s' h => ?_) fun _ _ h => h
    rw [ends_pure]
    exact h

/-! ## Giving up the process's blocks -/

/-- Memory has been given up at most. -/
structure Shrinks (s s' : Kernel H) : Prop where
  globals : s'.toGlobals = s.toGlobals
  mem : ∀ a o, s'.mem a = some o → s.mem a = some o

theorem Shrinks.refl (s : Kernel H) : Shrinks s s := ⟨rfl, fun _ _ h => h⟩

theorem Shrinks.trans {s₂ : Kernel H} (h : Shrinks s s₁) (h' : Shrinks s₁ s₂) : Shrinks s s₂ :=
  ⟨h'.globals.trans h.globals, fun a o ho => h.mem a o (h'.mem a o ho)⟩

theorem Shrinks.node? (h : Shrinks s s') {n : Node} (hn : s'.node? a = some n) :
    s.node? a = some n :=
  node?_eq_some.mpr (h.mem a _ (node?_eq_some.mp hn))

theorem Shrinks.process? (h : Shrinks s s') (hp : s'.process? a = some p) :
    s.process? a = some p :=
  process?_eq_some.mpr (h.mem a _ (process?_eq_some.mp hp))

section Freeing

variable [Allocator H]

theorem ends_free (a : ℕ) (s : Kernel H) :
    Ends (fun _ s' => Shrinks s s' ∧ s'.heap = Allocator.free s.heap a) (fun _ _ => True)
      (free a) s := by
  refine ⟨⟨rfl, fun b o ho => ?_⟩, rfl⟩
  have hb : Function.update s.mem a none b = some o := ho
  rw [Function.update_apply] at hb
  split_ifs at hb
  exact hb

theorem ends_freeAll (as : List ℕ) (s : Kernel H) :
    Ends (fun _ s' => Shrinks s s' ∧ s'.heap = as.foldl Allocator.free s.heap) (fun _ _ => True)
      (freeAll as) s := by
  induction as generalizing s with
  | nil => exact ⟨Shrinks.refl s, rfl⟩
  | cons a as ih =>
    rw [freeAll, ends_bind]
    refine (ends_free a s).mono (fun _ s₁ h₁ => ?_) fun _ _ h => h
    refine (ih s₁).mono (fun _ _ h₂ => ⟨h₁.1.trans h₂.1, ?_⟩) fun _ _ h => h
    rw [h₂.2, h₁.2, List.foldl_cons]

/-- `free_argv` gives back the strings and the list. -/
theorem ends_freeArgv (argv : ℕ) (s : Kernel H) :
    Ends (fun _ s' => Shrinks s s' ∧ ∃ args, s.argv? argv = some args ∧
      s'.heap = (args ++ [argv]).foldl Allocator.free s.heap) (fun _ _ => True)
      (freeArgv argv) s := by
  rw [freeArgv, ends_bind, Ends, argvAt]
  cases s.argv? argv with
  | none => trivial
  | some args =>
    show Ends _ _ (freeAll args >>= fun _ => free argv) s
    rw [ends_bind]
    refine (ends_freeAll args s).mono (fun _ s₁ h₁ => ?_) fun _ _ h => h
    refine (ends_free argv s₁).mono (fun _ _ h₂ => ⟨h₁.1.trans h₂.1, args, rfl, ?_⟩)
      fun _ _ h => h
    rw [h₂.2, h₁.2, List.foldl_append]
    rfl

theorem keepsBytes_free (a : ℕ) : KeepsBytes (free a : Op H Unit) := fun _ => .of_eq rfl rfl

end Freeing

/-! ## `free_proc` -/

/-- The bytes that `free_proc` takes for the end of file. -/
def eofBytes (s : Kernel H) (i : ℕ) : UInt8 := s.lowMemory (4 + i)

/-- The process at an address, and the one on the processor. -/
structure Destroys (s : Kernel H) (proc : ℕ) (p cur : Process) : Prop where
  process_at : s.process? proc = some p
  current_at : ∃ n, s.node? s.currentNode = some n ∧ s.process? n.proc = some cur

theorem Destroys.current (h : Destroys s proc p cur) {node : Node} {c : Process}
    (hnode : s.node? s.currentNode = some node) (hc : s.process? node.proc = some c) : c = cur := by
  obtain ⟨n, hn, hcur⟩ := h.current_at
  obtain rfl := Option.some.inj (hn.symm.trans hnode)
  exact Option.some.inj (hc.symm.trans hcur)

section FreeProc

variable [Allocator H]

/-- `free_proc` writes one byte from address 4 to the target that `sys_write` chooses. -/
theorem ends_freeProc (hforce : KeepsBytes force) (h : Destroys s proc p cur) :
    Ends (fun _ s' => Carries ((writeTarget p.writeFd 1 cur.writeFd).written s (eofBytes s) 1) s')
      (fun _ _ => True) (freeProc force proc) s := by
  rw [freeProc, ends_bind]
  refine ends_procAt lenient_true fun p₀ _ => ?_
  rw [ends_bind]
  refine (ends_free _ s).mono (fun _ s₁ h₁ => ?_) fun _ _ h => h
  rw [ends_bind]
  refine ends_procAt lenient_true fun p₁ _ => ?_
  rw [ends_bind]
  refine (ends_freeArgv _ s₁).mono (fun _ s₂ h₂ => ?_) fun _ _ h => h
  replace h₂ := h₁.1.trans h₂.1
  rw [ends_bind, ends_get, ends_bind]
  refine ends_procAt lenient_true fun p₂ hp₂ => ?_
  obtain rfl := Option.some.inj ((h₂.process? hp₂).symm.trans h.process_at)
  have hcurrent : ∀ node c, s₂.node? s₂.currentNode = some node →
      s₂.process? node.proc = some c → c = cur := by
    intro node c hnode hc
    rw [h₂.globals] at hnode
    exact h.current (h₂.node? hnode) (h₂.process? hc)
  have hone : toInt ((1 : ℕ) : ℤ) = 1 := by decide
  have hne : toInt ((1 : ℕ) : ℤ) ≠ 0 := by decide
  rw [ends_bind]
  refine (ends_sysWrite hforce hne hcurrent).mono (fun _ s₃ h₃ => ?_) fun _ _ h => h
  refine (keepsBytes_free proc s₃).mono (fun _ s₄ h₄ => ?_) fun _ _ h => h
  refine Carries.keep ?_ h₄
  have hpipes : s₂.pipes = s.pipes := congrArg Globals.pipes h₂.globals
  have hlow : s₂.lowMemory = s.lowMemory := congrArg Globals.lowMemory h₂.globals
  rw [hone, hlow, Target.written_congr hpipes] at h₃
  exact h₃

end FreeProc

/-! ## When the mark arrives -/

/-- The byte 4 is behind the bytes of the pipe with that index, the other pipes hold what they held,
and nothing is printed on the way to the target. -/
structure EofReaches (s s' : Kernel H) (index : ℕ) (target : Target) : Prop where
  appended : (s'.pipes index).contents = (s.pipes index).contents ++ [4]
  others : ∀ j ≠ index, (s'.pipes j).contents = (s.pipes j).contents
  silent : target ≠ .screen

/-- The pipe is open, and one byte more fits in front of its end mark. -/
structure HasRoom (p : PipeT) : Prop where
  created : p.created ≠ 0
  nread_lt : p.nread < 2 ^ 32
  nwrite_lt : p.nwrite < 2 ^ 32
  room : p.used + 1 < Pipe.PIPE_SIZE

theorem HasRoom.buffers {pipe : PipeT} (h : HasRoom pipe) : Buffers pipe pipe.contents := by
  have hlen : pipe.contents.length = pipe.used := by simp [PipeT.contents, CircularBuffer.window]
  have hroom := h.room
  have hread := h.nread_lt
  have hwrite := h.nwrite_lt
  refine ⟨h.created, h.nread_lt, ?_, by omega, by rw [hlen]; rfl⟩
  rw [hlen, PipeT.used]
  omega

/-- What one byte adds to a pipe with room: nothing if the byte is NUL. -/
theorem HasRoom.contents_writeData {pipe : PipeT} (h : HasRoom pipe) :
    (writeData pipe addr 1).1.contents =
      pipe.contents ++ (if addr 0 ≠ 0 then [addr 0] else []) := by
  have hoffered : offered addr 0 1 = if addr 0 ≠ 0 then [addr 0] else [] := by
    rw [Pipe.offered_succ]
    rfl
  have hlen : (offered addr 0 1).length ≤ 1 := by
    rw [hoffered]
    split_ifs <;> simp
  have hroom := h.room
  rw [h.buffers.used_eq] at hroom
  have hbuf : Buffers (writeData pipe addr 1).1 (pipe.contents ++ offered addr 0 1) :=
    (Pipe.writeData_spec 1 h.buffers (by omega)).1
  rw [hoffered] at hbuf
  exact hbuf.contents_eq

/-- One byte on the descriptor of a pipe goes where the current process writes to. -/
theorem writeTarget_of_pipe {fd : ℕ} (hindex : index < MAX_PIPES) (hfd : fd = index + 3)
    (writeFd : ℕ) : writeTarget fd 1 writeFd =
      if writeFd = 1 then .screen else .pipe (toInt (toUInt64 (writeFd - 3))) := by
  have hpipes : MAX_PIPES = 10 := rfl
  have hmod : fd % 256 = fd := by omega
  simp only [writeTarget, hmod]
  rw [if_neg (show ¬ fd = 2 by omega), if_neg (show ¬ fd = 0 by omega),
    if_neg fun hzero => absurd hzero.2 (by decide)]

theorem toInt_index_eq_index_iff {fd : ℕ} (hindex : index < MAX_PIPES) (hfd : fd = index + 3)
    (writeFd : ℕ) :
    toInt (toUInt64 ((writeFd : ℤ) - 3)) = index ↔ writeFd % 2 ^ 32 = fd := by
  have hpipes : MAX_PIPES = 10 := rfl
  rw [← toInt_index_eq_iff (show fd < 256 by omega)]
  omega

/-- The mark arrives if the output of the current process is the process's own pipe and the byte at
address 4 is 4, and otherwise it does not. -/
theorem eofReaches_iff_of_carries {fd : ℕ} (hindex : index < MAX_PIPES) (hfd : fd = index + 3)
    (hroom : HasRoom (s.pipes index))
    (h : Carries ((writeTarget fd 1 cur.writeFd).written s (eofBytes s) 1) s') :
    EofReaches s s' index (writeTarget fd 1 cur.writeFd) ↔
      cur.writeFd % 2 ^ 32 = fd ∧ s.lowMemory 4 = 4 := by
  have hpipes : MAX_PIPES = 10 := rfl
  have hcontents : ∀ j, (s'.pipes j).contents =
      ((writeTarget fd 1 cur.writeFd).written s (eofBytes s) 1 j).contents :=
    fun j => (h j).contents_eq
  have hnothing : ∀ l : List UInt8, l ≠ l ++ [4] := fun l heq => by simp at heq
  have hsame := toInt_index_eq_index_iff hindex hfd cur.writeFd
  rw [writeTarget_of_pipe hindex hfd] at hcontents ⊢
  split_ifs at hcontents ⊢ with hscreen
  · -- the byte is printed
    refine ⟨fun heof => absurd rfl heof.silent, fun hwant => ?_⟩
    rw [hscreen] at hwant
    omega
  · generalize toInt (toUInt64 (cur.writeFd - 3)) = i at hcontents hsame ⊢
    rw [← hsame]
    by_cases hi : i = index
    · subst hi
      have happended := hcontents index
      rw [Target.written, written, if_pos ⟨rfl, hroom.created⟩, hroom.contents_writeData]
        at happended
      have hothers : ∀ j ≠ index, (s'.pipes j).contents = (s.pipes j).contents := by
        intro j hj
        have hother := hcontents j
        rw [Target.written, written, if_neg fun hji => hj (Int.ofNat.inj hji.1)] at hother
        exact hother
      constructor
      · intro heof
        have hmark := List.append_cancel_left (happended.symm.trans heof.appended)
        split_ifs at hmark
        exact ⟨rfl, (List.cons.inj hmark).1⟩
      · rintro ⟨-, hbyte⟩
        have hbyte : eofBytes s 0 = 4 := hbyte
        rw [hbyte] at happended
        exact ⟨happended, hothers, by simp⟩
    · -- another pipe gets the byte, or none
      refine ⟨fun heof => ?_, fun hwant => absurd hwant.1 hi⟩
      have hkept := hcontents index
      rw [Target.written, written, if_neg fun hji => hi hji.1.symm] at hkept
      exact absurd (hkept.symm.trans heof.appended) (hnothing _)

/-! ## When the call returns -/

/-- `ready_process` returns if its search does. -/
theorem readyProcess_returns {pid r : ℕ} (hfind : findNode pid s = .ok r s) :
    ∃ v s', readyProcess pid s = .ok v s' ∧ s'.semaphores = s.semaphores ∧
      s'.disableCount = s.disableCount ∧ s'.pipes = s.pipes := by
  by_cases hr : r = 0
  · refine ⟨failed, s, ?_, rfl, rfl, rfl⟩
    rw [readyProcess, bind_of_ok hfind, if_pos hr]
    rfl
  · have hends : Ends (fun x s' => x ≠ 0 → Holds s' x pid) (fun _ _ => True) (findNode pid) s :=
      ends_findNode lenient_true (fun h => absurd rfl h) fun x hx _ => hx
    obtain ⟨n, p, hn, hp, -⟩ := hends.of_ok hfind hr
    have hedit : editProc n.proc (fun p => { p with state := .ready }) s =
        .ok () (s.put n.proc (.process { p with state := .ready })) := by
      rw [editProc, bind_of_ok ((Unseen.refl s).procAt hp)]
      rfl
    obtain ⟨hnode, -, -, hself⟩ := put_process (q := { p with state := .ready }) hp
    have hglob : (s.put n.proc (.process { p with state := .ready })).toGlobals = s.toGlobals := rfl
    generalize s.put n.proc (.process { p with state := .ready }) = s₁ at hedit hnode hself hglob
    set s₂ : Kernel H := { s₁ with blockCount := decr64 s₁.blockCount } with hs₂
    have hnode₂ : s₂.node? r = some n := (congrFun hnode r).trans hn
    have hn₂ : Sched.nodeAt r s₂ = .ok n s₂ := (Unseen.refl s₂).nodeAt hnode₂
    have hp₂ : Sched.procAt n.proc s₂ = .ok { p with state := .ready } s₂ :=
      (Unseen.refl s₂).procAt hself
    have hsem : s₁.semaphores = s.semaphores := congrArg Globals.semaphores hglob
    have hcount : s₁.disableCount = s.disableCount := congrArg Globals.disableCount hglob
    have hpipes : s₁.pipes = s.pipes := congrArg Globals.pipes hglob
    refine ⟨p.pid, s₂, ?_, hsem, hcount, hpipes⟩
    rw [readyProcess, bind_of_ok hfind, if_neg hr, bind_of_ok ((Unseen.refl s).nodeAt hn),
      bind_of_ok hedit, modify_bind, ← hs₂, bind_of_ok hn₂, bind_of_ok hp₂]
    rfl

/-- Nothing keeps a write to the pipe waiting, and the process's blocks are its own. -/
structure AtRest (s : Kernel H) (p cur : Process) (pipe : PipeT) : Prop where
  owns : ∃ args, s.argv? p.argv = some args ∧ p.argv ≠ p.stack ∧
    ∀ a ∈ p.stack :: p.argv :: args, s.node? a = none ∧ s.process? a = none
  running : s.currentNode ≠ 0
  search : ∃ r, findNode (toUInt64 (toInt cur.pid)) s = .ok r s
  alone : (Pipe.blockProcessPipe pipe.wProcesses (toInt cur.pid)).2 = none
  mutex : MutexFree s.semaphores pipe.name
  enabled : s.disableCount < 2 ^ 31 - 1

theorem Destroys.getRunningPid (h : Destroys s proc p cur) (h0 : s.currentNode ≠ 0)
    (hs : Unseen s s') : getRunningPid s' = .ok cur.pid s' := by
  obtain ⟨n, hn, hcur⟩ := h.current_at
  have hn' : s'.node? s'.currentNode = some n := by rw [hs.currentNode, hs.node?, hn]
  have hcur' : s'.process? n.proc = some cur := by rw [hs.process?, hcur]
  exact getRunningPid_ok (hs.currentNode.symm ▸ h0) hn' hcur'

theorem pipeAt_ok {i : ℤ} (h0 : 0 ≤ i) (hi : i < MAX_PIPES) :
    pipeAt i s = .ok (s.pipes i.toNat) s := by
  rw [pipeAt, if_pos ⟨h0, hi⟩]
  rfl

theorem readyReleased_returns {pid : ℤ} {released : Option ℤ}
    (hpid : ∀ x, released = some x → x = pid) {node : ℕ}
    (hfind : findNode (toUInt64 pid) s = .ok node s) :
    ∃ s', readyReleased released s = .ok () s' ∧ s'.semaphores = s.semaphores ∧
      s'.disableCount = s.disableCount ∧ s'.pipes = s.pipes := by
  cases released with
  | none => exact ⟨s, rfl, rfl, rfl, rfl⟩
  | some x =>
    obtain rfl := hpid x rfl
    obtain ⟨v, s', hready, hsem, hcount, hpipes⟩ := readyProcess_returns hfind
    refine ⟨s', ?_, hsem, hcount, hpipes⟩
    rw [readyReleased, bind_of_ok hready]
    rfl

/-- The pipe with another list of writers. -/
def Kernel.withWriters (s : Kernel H) (i : ℤ) (list : ℕ → ℤ) : Kernel H :=
  { s with
    pipes := Function.update s.pipes i.toNat { s.pipes i.toNat with wProcesses := list } }

theorem withWriters_name (s : Kernel H) (i : ℤ) (list : ℕ → ℤ) :
    ((s.withWriters i list).pipes i.toNat).name = (s.pipes i.toNat).name := by
  show (Function.update s.pipes i.toNat _ i.toNat).name = _
  rw [Function.update_self]

theorem unseen_withWriters (s : Kernel H) (i : ℤ) (list : ℕ → ℤ) :
    Unseen s (s.withWriters i list) := ⟨rfl, rfl, rfl, rfl⟩

/-- A writer that is not blocked, or is not in the ring, goes on. -/
theorem pipeWriteEnter_returns (force : Op H Unit) {i : ℤ} {pid : ℕ}
    (hi : 0 ≤ i ∧ i < MAX_PIPES) (hpid : getRunningPid s = .ok pid s)
    (hblocked : ∀ x, (Pipe.blockProcessPipe (s.pipes i.toNat).wProcesses (toInt pid)).2 = some x →
      findNode (toUInt64 x) s = .ok 0 s) :
    ∃ list, pipeWriteEnter force i s = .ok () (s.withWriters i list) := by
  refine ⟨(Pipe.blockProcessPipe (s.pipes i.toNat).wProcesses (toInt pid)).1, ?_⟩
  rw [pipeWriteEnter, bind_of_ok hpid, bind_of_ok (pipeAt_ok hi.1 hi.2)]
  generalize Pipe.blockProcessPipe (s.pipes i.toNat).wProcesses (toInt pid) = entry at hblocked ⊢
  obtain ⟨list, blocked⟩ := entry
  dsimp only at hblocked ⊢
  rw [editPipe, modify_bind]
  cases blocked with
  | none => rfl
  | some x =>
    have hfind : findNode (toUInt64 x) (s.withWriters i list) = .ok 0 (s.withWriters i list) :=
      (unseen_withWriters s i list).findNode (hblocked x rfl)
    have hblock : blockProcess force (toUInt64 x) (s.withWriters i list) =
        .ok failed (s.withWriters i list) := by
      rw [blockProcess, bind_of_ok hfind, if_pos rfl]
      rfl
    exact bind_of_ok hblock

/-- `pipe_write` behind `sem_wait` returns if its `sem_post` does. -/
theorem pipeWriteBody_returns {i : ℤ} {pid node : ℕ} (hi : 0 ≤ i ∧ i < MAX_PIPES)
    (hpid : getRunningPid s = .ok pid s) (hfind : findNode (toUInt64 (toInt pid)) s = .ok node s)
    (hpost : ∀ s', OnlyStates s s' → s'.semaphores = s.semaphores →
      s'.disableCount = s.disableCount → Returns (semPost (s.pipes i.toNat).name) s') (n : ℤ) :
    Returns (pipeWriteBody i addr n) s := by
  have hat : ∀ t : Kernel H, pipeAt i t = .ok (t.pipes i.toNat) t := fun t => pipeAt_ok hi.1 hi.2
  have hrelease : ∃ s₂, pipeRelease i s = .ok () s₂ ∧ s₂.semaphores = s.semaphores ∧
      s₂.disableCount = s.disableCount ∧ (s₂.pipes i.toNat).name = (s.pipes i.toNat).name := by
    have hreleased : ∀ x, (Pipe.releaseProcessPipe (s.pipes i.toNat).wProcesses (toInt pid)).2 =
        some x → x = toInt pid := fun _ h => (Pipe.releaseProcessPipe_released h).1
    rw [pipeRelease, bind_of_ok hpid, bind_of_ok (hat s)]
    generalize Pipe.releaseProcessPipe (s.pipes i.toNat).wProcesses (toInt pid) =
      r at hreleased ⊢
    obtain ⟨list, released⟩ := r
    obtain ⟨s₂, hready, hsem₂, hcount₂, hpipes₂⟩ := readyReleased_returns hreleased hfind
    refine ⟨_, bind_of_ok hready, hsem₂, hcount₂, ?_⟩
    show (Function.update s₂.pipes i.toNat _ i.toNat).name = _
    rw [Function.update_self, hpipes₂]
  obtain ⟨s₂, hrelease, hsem₂, hcount₂, hname⟩ := hrelease
  have hstates : OnlyStates s s₂ := (stable_onlyStates.pipeRelease i s).of_ok hrelease
  rw [pipeWriteBody, returns_bind_of_ok hrelease, returns_bind_of_ok (hat s₂)]
  have hwritten : (writeData (s₂.pipes i.toNat) addr n).1.name = (s.pipes i.toNat).name :=
    (Pipe.writeData_name _ _ _).trans hname
  generalize writeData (s₂.pipes i.toNat) addr n = r at hwritten ⊢
  obtain ⟨q, k⟩ := r
  dsimp only at hwritten ⊢
  rw [editPipe, Returns, modify_bind, hwritten]
  obtain ⟨r, s₃, hrun⟩ := hpost { s₂ with pipes := Function.update s₂.pipes i.toNat q }
    (hstates.trans ⟨rfl, fun _ => rfl, rfl, rfl, rfl, rfl, rfl⟩) hsem₂ hcount₂
  exact ⟨_, _, bind_of_ok hrun⟩

/-- With nothing to wait for, `pipe_write` comes to its transfer. -/
theorem pipeWrite_of_entered (force : Op H Unit) {i n : ℤ} (hi : 0 ≤ i ∧ i < MAX_PIPES)
    (hn : n ≠ 0) (hcreated : (s.pipes i.toNat).created ≠ 0) {list : ℕ → ℤ}
    (henter : pipeWriteEnter force i s = .ok () (s.withWriters i list))
    (hlock : Unlocked s.semaphores (s.pipes i.toNat).name) :
    pipeWrite force i addr n s = pipeWriteBody i addr n { s.withWriters i list with
      semaphores := taken s.semaphores (s.pipes i.toNat).name } := by
  obtain ⟨r, hwait⟩ := semWait_unlocked (s := s.withWriters i list) force hlock
  rw [pipeWrite, writeLength, if_neg hn, pure_bind, bind_of_ok (pipeAt_ok hi.1 hi.2),
    if_neg hcreated, bind_of_ok henter, bind_of_ok (pipeAt_ok hi.1 hi.2), withWriters_name,
    bind_of_ok hwait]
  rfl

/-- A write of a process that does not have to wait. -/
theorem pipeWrite_returns (force : Op H Unit) (hindex : index < MAX_PIPES)
    (hcreated : (s.pipes index).created ≠ 0) (h : Destroys s proc p cur)
    (hrest : AtRest s p cur (s.pipes index)) (hs : Unseen s s₁)
    (hsem : s₁.semaphores = s.semaphores)
    (hcount : s₁.disableCount = s.disableCount) (hpipes : s₁.pipes = s.pipes) {n : ℤ} (hn : n ≠ 0) :
    Returns (pipeWrite force index addr n) s₁ := by
  have hi : 0 ≤ (index : ℤ) ∧ (index : ℤ) < MAX_PIPES :=
    ⟨Int.natCast_nonneg index, by exact_mod_cast hindex⟩
  have hpipe : s₁.pipes (index : ℤ).toNat = s.pipes index := by rw [hpipes, Int.toNat_natCast]
  obtain ⟨list, henter⟩ := pipeWriteEnter_returns force hi (h.getRunningPid hrest.running hs)
    fun x hx => by
      rw [hpipe, hrest.alone] at hx
      cases hx
  have hmutex : MutexFree s₁.semaphores (s₁.pipes (index : ℤ).toNat).name := by
    rw [hsem, hpipe]
    exact hrest.mutex
  rw [Returns, pipeWrite_of_entered force hi hn (hpipe.symm ▸ hcreated) henter
    hmutex.takeable.unlocked, taken_eq_held hmutex.takeable]
  obtain ⟨node, hfind⟩ := hrest.search
  have hs₃ : Unseen s { s₁.withWriters index list with
      semaphores := held s₁.semaphores (s₁.pipes (index : ℤ).toNat).name } :=
    ⟨hs.first, hs.currentNode, hs.node?, hs.process?⟩
  refine pipeWriteBody_returns hi (h.getRunningPid hrest.running hs₃) (hs₃.findNode hfind)
    (fun s' _ hsem' hcount' => ?_) n
  rw [show ({ s₁.withWriters index list with
    semaphores := held s₁.semaphores (s₁.pipes (index : ℤ).toNat).name } : Kernel H).pipes
      (index : ℤ).toNat = (s₁.withWriters index list).pipes (index : ℤ).toNat from rfl,
    withWriters_name]
  obtain ⟨r, hpost⟩ := semPost_held (s := s') hmutex hsem'
    (hcount'.trans hcount ▸ hrest.enabled)
  exact returns_of_ok hpost

/-! ## All of `free_proc` -/

variable [Allocator H]

/-- A block that holds neither a node nor a process. -/
theorem free_unseen (hnode : s.node? a = none) (hproc : s.process? a = none) :
    ∃ s', free a s = .ok () s' ∧ s'.toGlobals = s.toGlobals ∧ s'.node? = s.node? ∧
      s'.process? = s.process? ∧ ∀ b, b ≠ a → s'.mem b = s.mem b := by
  refine ⟨_, rfl, rfl, funext fun b => ?_, funext fun b => ?_, fun b hb => ?_⟩
  · by_cases hb : b = a
    · rw [hb, hnode]
      simp [Kernel.node?]
    · simp [Kernel.node?, hb]
  · by_cases hb : b = a
    · rw [hb, hproc]
      simp [Kernel.process?]
    · simp [Kernel.process?, hb]
  · exact Function.update_of_ne hb _ _

theorem freeAll_unseen (as : List ℕ) (h : ∀ a ∈ as, s.node? a = none ∧ s.process? a = none) :
    ∃ s', freeAll as s = .ok () s' ∧ s'.toGlobals = s.toGlobals ∧ s'.node? = s.node? ∧
      s'.process? = s.process? := by
  induction as generalizing s with
  | nil => exact ⟨s, rfl, rfl, rfl, rfl⟩
  | cons a as ih =>
    obtain ⟨s₁, hfree, hglob, hnode, hproc, -⟩ := free_unseen (h a (by simp)).1 (h a (by simp)).2
    obtain ⟨s₂, hall, hglob₂, hnode₂, hproc₂⟩ := ih (s := s₁) fun b hb => by
      rw [hnode, hproc]
      exact h b (by simp [hb])
    refine ⟨s₂, ?_, hglob₂.trans hglob, hnode₂.trans hnode, hproc₂.trans hproc⟩
    rw [freeAll, bind_of_ok hfree, hall]

/-- `free_proc` comes to its write with the blocks of the process freed. -/
theorem freeProc_write (force : Op H Unit) (h : Destroys s proc p cur) {args : List ℕ}
    (hargs : s.argv? p.argv = some args) (hne : p.argv ≠ p.stack)
    (hplain : ∀ a ∈ p.stack :: p.argv :: args, s.node? a = none ∧ s.process? a = none) :
    ∃ s', Unseen s s' ∧ s'.toGlobals = s.toGlobals ∧ getCurrentWrite s' = .ok cur.writeFd s' ∧
      freeProc force proc s = (sysWrite force p.writeFd (fun i => s'.lowMemory (4 + i)) 1 >>=
        fun _ => free proc) s' := by
  obtain ⟨hstack₁, hstack₂⟩ := hplain p.stack (by simp)
  obtain ⟨hargv₁, hargv₂⟩ := hplain p.argv (by simp)
  obtain ⟨s₁, hfree₁, hglob₁, hnode₁, hproc₁, hmem₁⟩ := free_unseen hstack₁ hstack₂
  have hargs₁ : s₁.argv? p.argv = some args := by
    rw [argv?_eq_some, hmem₁ _ hne, ← argv?_eq_some]
    exact hargs
  obtain ⟨s₂, hfree₂, hglob₂, hnode₂, hproc₂⟩ := freeAll_unseen (s := s₁) args fun a ha => by
    rw [hnode₁, hproc₁]
    exact hplain a (by simp [ha])
  obtain ⟨s₃, hfree₃, hglob₃, hnode₃, hproc₃, -⟩ := free_unseen (s := s₂) (a := p.argv)
    (by rw [hnode₂, hnode₁]; exact hargv₁) (by rw [hproc₂, hproc₁]; exact hargv₂)
  have hargvAt : argvAt p.argv s₁ = .ok args s₁ := by rw [argvAt, hargs₁]
  have hfree : freeArgv p.argv s₁ = .ok () s₃ := by
    rw [freeArgv, bind_of_ok hargvAt, bind_of_ok hfree₂, hfree₃]
  have hglob : s₃.toGlobals = s.toGlobals := hglob₃.trans (hglob₂.trans hglob₁)
  have hs₁ : Unseen s s₁ := ⟨congrArg Globals.first hglob₁, congrArg Globals.currentNode hglob₁,
    hnode₁, hproc₁⟩
  have hs₃ : Unseen s s₃ := ⟨congrArg Globals.first hglob, congrArg Globals.currentNode hglob,
    hnode₃.trans (hnode₂.trans hnode₁), hproc₃.trans (hproc₂.trans hproc₁)⟩
  obtain ⟨n, hn, hcur⟩ := h.current_at
  have hcurrent : currentProc s₃ = .ok n.proc s₃ := by
    rw [currentProc, get_bind, hs₃.currentNode, bind_of_ok (hs₃.nodeAt hn)]
    rfl
  have hfd : getCurrentWrite s₃ = .ok cur.writeFd s₃ := by
    rw [getCurrentWrite, bind_of_ok hcurrent, bind_of_ok (hs₃.procAt hcur)]
    rfl
  refine ⟨s₃, hs₃, hglob, hfd, ?_⟩
  rw [freeProc, bind_of_ok ((Unseen.refl s).procAt h.process_at), bind_of_ok hfree₁,
    bind_of_ok (hs₁.procAt h.process_at), bind_of_ok hfree, get_bind,
    bind_of_ok (hs₃.procAt h.process_at)]

/-- `free_proc` returns if its write does not have to wait. -/
theorem freeProc_returns (force : Op H Unit) (hindex : index < MAX_PIPES)
    (hcreated : (s.pipes index).created ≠ 0) (h : Destroys s proc p cur)
    (hrest : AtRest s p cur (s.pipes index))
    (htarget : writeTarget p.writeFd 1 cur.writeFd = .pipe index) :
    ∃ s', freeProc force proc s = .ok () s' := by
  obtain ⟨args, hargs, hne, hplain⟩ := hrest.owns
  obtain ⟨s₃, hs₃, hglob, hfd, hwrite⟩ := freeProc_write force h hargs hne hplain
  have hone : toInt ((1 : ℕ) : ℤ) = 1 := by decide
  have hne₁ : (1 : ℤ) ≠ 0 := by decide
  obtain ⟨r, s₄, hpipe⟩ : ∃ r s',
      pipeWrite force index (fun i => s₃.lowMemory (4 + i)) 1 s₃ = .ok r s' :=
    pipeWrite_returns force hindex hcreated h hrest hs₃ (congrArg Globals.semaphores hglob)
      (congrArg Globals.disableCount hglob) (congrArg Globals.pipes hglob) hne₁
  have hsys : sysWrite force p.writeFd (fun i => s₃.lowMemory (4 + i)) 1 s₃ =
      .ok (toUInt64 r) s₄ := by
    rw [sysWrite_eq, bind_of_ok hfd, htarget, Target.write, hone, bind_of_ok hpipe]
    rfl
  rw [hwrite, bind_of_ok hsys]
  exact ⟨_, rfl⟩

/-- For every process with the descriptor of an open pipe that has room for one byte, and whichever
process is current: where `free_proc` returns, the end of file is in the process's pipe and nothing
else has been written if and only if the output of the current process is redirected to the same
pipe and the byte at address 4 is 4. It returns whenever nothing keeps that write waiting. -/
theorem eof_reaches_reader (hforce : KeepsBytes force) (h : Destroys s proc p cur)
    (hindex : index < MAX_PIPES) (hfd : p.writeFd = index + 3) (hroom : HasRoom (s.pipes index)) :
    (∀ s', freeProc force proc s = .ok () s' →
      (EofReaches s s' index (writeTarget p.writeFd 1 cur.writeFd) ↔
        cur.writeFd % 2 ^ 32 = p.writeFd ∧ s.lowMemory 4 = 4)) ∧
    (AtRest s p cur (s.pipes index) → cur.writeFd % 2 ^ 32 = p.writeFd →
      ∃ s', freeProc force proc s = .ok () s') := by
  refine ⟨fun s' hrun => ?_, fun hrest hsame => ?_⟩
  · exact eofReaches_iff_of_carries hindex hfd hroom ((ends_freeProc hforce h).of_ok hrun)
  · refine freeProc_returns force hindex hroom.created h hrest ?_
    rw [writeTarget_of_pipe hindex hfd, if_neg (by omega),
      (toInt_index_eq_index_iff hindex hfd _).mpr hsame]

/-- A process at 4424 whose output is pipe 0, and one on the processor with its output there or
elsewhere. -/
def redirected (writeFd : ℕ) (byte : UInt8) : Kernel FirstFitHeap :=
  { loaded with
    first := 4096
    currentNode := 4096
    counter := 2
    semaphores := Function.update bootTable 3 (kernelSem 7 ⟨[112], by decide, by decide⟩ 0)
    pipes := Function.update (fun _ => zeroPipe) 0 (Pipe.opened zeroPipe 0 [112])
    lowMemory := fun _ => byte
    mem := fun a => match a with
      | 4096 => some (.node ⟨5, 4136, 4384⟩)
      | 4136 => some (.process { newProc 0 4256 0 0 4272 0 writeFd 5 with state := .running })
      | 4256 => some (.argv [])
      | 4272 => some .stack
      | 4384 => some (.node ⟨5, 4424, 4096⟩)
      | 4424 => some (.process (newProc 0 4544 1 0 4576 0 3 5))
      | 4544 => some (.argv [])
      | 4576 => some .stack
      | _ => none }

theorem redirected_destroys (writeFd : ℕ) (byte : UInt8) :
    Destroys (redirected writeFd byte) 4424 (newProc 0 4544 1 0 4576 0 3 5)
      { newProc 0 4256 0 0 4272 0 writeFd 5 with state := .running } :=
  ⟨rfl, ⟨5, 4136, 4384⟩, rfl, rfl⟩

theorem redirected_room (writeFd : ℕ) (byte : UInt8) :
    HasRoom ((redirected writeFd byte).pipes 0) := by
  show HasRoom (Pipe.opened zeroPipe 0 [112])
  exact ⟨by decide, by decide, by decide, by decide⟩

/-- Nobody else is using the pipe. -/
theorem redirected_atRest (byte : UInt8) :
    AtRest (redirected 3 byte) (newProc 0 4544 1 0 4576 0 3 5)
      { newProc 0 4256 0 0 4272 0 3 5 with state := .running } ((redirected 3 byte).pipes 0) where
  owns := by
    refine ⟨[], rfl, by decide, fun a ha => ?_⟩
    rcases List.mem_pair.mp ha with rfl | rfl
    · exact ⟨rfl, rfl⟩
    · exact ⟨rfl, rfl⟩
  running := by
    show 4096 ≠ 0
    decide
  search := ⟨4096, rfl⟩
  alone := by
    show (Pipe.blockProcessPipe (fun _ => 0) (toInt 0)).2 = none
    decide
  mutex := by
    show MutexFree (Function.update bootTable 3 (kernelSem 7 ⟨[112], by decide, by decide⟩ 0)) [112]
    decide +kernel
  enabled := by
    show 0 < 2 ^ 31 - 1
    decide

/-- A process whose end of file is written by one with the same output. -/
theorem eof_reaches_reader_redirected :
    ∃ s', freeProc interrupt 4424 (redirected 3 4) = .ok () s' ∧
      EofReaches (redirected 3 4) s' 0 (writeTarget 3 1 3) := by
  obtain ⟨hiff, hreturns⟩ := eof_reaches_reader (keepsBytes_throw .switched)
    (redirected_destroys 3 4) (by decide) rfl (redirected_room 3 4)
  obtain ⟨s', hrun⟩ := hreturns (redirected_atRest 4) (by decide)
  exact ⟨s', hrun, (hiff s' hrun).mpr ⟨by decide, rfl⟩⟩

/-- With a NUL at address 4 nothing arrives, although the current process has the same output. -/
theorem eof_lost :
    ¬ ∀ (s s' : Kernel FirstFitHeap) (proc : ℕ) (p cur : Process) (index : ℕ),
      Destroys s proc p cur → index < MAX_PIPES → p.writeFd = index + 3 → HasRoom (s.pipes index) →
        freeProc interrupt proc s = .ok () s' →
          EofReaches s s' index (writeTarget p.writeFd 1 cur.writeFd) := by
  intro hclaim
  obtain ⟨s', hrun⟩ := freeProc_returns interrupt (by decide) (redirected_room 3 0).created
    (redirected_destroys 3 0) (redirected_atRest 0) (by decide)
  have heof := hclaim _ s' 4424 _ _ 0 (redirected_destroys 3 0) (by decide) rfl
    (redirected_room 3 0) hrun
  have hcarries := (ends_freeProc (keepsBytes_throw .switched) (redirected_destroys 3 0)).of_ok hrun
  have hbyte :=
    ((eofReaches_iff_of_carries (by decide) rfl (redirected_room 3 0) hcarries).mp heof).2
  exact absurd hbyte (by decide)

end TronKernel.Sched
