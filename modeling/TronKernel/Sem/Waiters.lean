import TronKernel.Sem.Interleaving
import TronKernel.Lib.CircularBuffer

/-!
# Who is in the queue of a semaphore

`blocked_processes` is a circular buffer of process ids between `blocked_first` and `blocked_last`.
A waiter adds itself on each pass of the sleeping loop; it is not put to sleep (the call that did so
is commented out), so it may run again while its id is still in the queue. `queue_names_waiters`
says that the queue holds waiting processes, each once, as long as that does not happen.
-/

namespace TronKernel.Sem

open Runs CircularBuffer

variable {Proc : Type*}

/-- The ids in `blocked_processes` between `blocked_first` and `blocked_last`. -/
def queue (sem : SemT) : List ℕ :=
  window sem.blockedProcesses MAX_PROC sem.blockedFirst (sub64 sem.blockedLast sem.blockedFirst)

/-- Between two accesses that `scheduler_disable` and `scheduler_enable` keep together. -/
def Pc.disabled : Pc → Bool
  | .enqueuePid _ | .enqueueCmpxchg _ => true
  | .recheckXchg | .recheckValue | .recheckUnlock => true
  | .dequeueLast | .dequeueFirst _ | .dequeueCmpxchg _ => true
  | .postCmpxchg _ => true
  | .updateLast | .updateFirst _ | .updateCmpxchg _ | .updatePid _ => true
  | _ => false

/-- The places at which a process may find its id in the queue. -/
def Pc.mayQueue : Pc → Bool
  | .waitXchg | .recheckXchg | .recheckValue | .recheckUnlock => true
  | .dequeueLast | .dequeueFirst _ | .dequeueCmpxchg _ => true
  | _ => false

/-- At `sem->blocked_processes[last % MAX_PROC] = pid`. -/
def Pc.writesPid : Pc → Bool
  | .enqueuePid _ => true
  | _ => false

/-- The process that acts. -/
def Event.proc : Event Proc → Proc
  | .wait p | .post p | .access p => p

/-- A process acts while the scheduler is not disabled by another one; it evaluates `cond` at the
head of the loop only when its id is not in the queue; and it writes its id into the queue only when
the queue is not full and its counter not at its end. -/
structure Asleep (pid : Proc → ℕ) (c : Config Proc) (e : Event Proc) : Prop where
  enabled : ∀ q, q ≠ e.proc → ¬ (c.pc q).disabled
  head : c.pc e.proc = .waitXchg → pid e.proc ∉ queue c.sem
  room : (c.pc e.proc).writesPid →
    sub64 c.sem.blockedLast c.sem.blockedFirst < MAX_PROC ∧ c.sem.blockedLast + 1 < 2 ^ 64

variable {pid : Proc → ℕ} {c c' : Config Proc} {p : Proc}

/-- What a process knows about the queue between `scheduler_disable` and `scheduler_enable`. -/
def Knows (pid : Proc → ℕ) (c : Config Proc) (p : Proc) : Pc → Prop
  | .enqueuePid last => last = c.sem.blockedLast
  | .enqueueCmpxchg last =>
    last = c.sem.blockedLast ∧ c.sem.blockedLast - c.sem.blockedFirst < MAX_PROC ∧
      c.sem.blockedLast + 1 < 2 ^ 64 ∧ c.sem.blockedProcesses (last % MAX_PROC) = pid p
  | .recheckXchg | .recheckValue | .recheckUnlock | .dequeueLast =>
    ∃ l, queue c.sem = l ++ [pid p]
  | .dequeueFirst last | .dequeueCmpxchg last =>
    last = c.sem.blockedLast ∧ ∃ l, queue c.sem = l ++ [pid p]
  | .updateFirst last => last = c.sem.blockedLast
  | .updateCmpxchg idx => idx = c.sem.blockedFirst ∧ c.sem.blockedFirst < c.sem.blockedLast
  | .updatePid idx =>
    ∃ q, q ≠ p ∧ c.sem.blockedProcesses (idx % MAX_PROC) = pid q ∧ (c.pc q).inWait
  | _ => True

/-- The invariant of the queue. -/
structure Queued (pid : Proc → ℕ) (c : Config Proc) : Prop where
  order : c.sem.blockedFirst ≤ c.sem.blockedLast
  fits : c.sem.blockedLast < 2 ^ 64
  bound : c.sem.blockedLast - c.sem.blockedFirst ≤ MAX_PROC
  nodup : (queue c.sem).Nodup
  waiting : ∀ k ∈ queue c.sem, ∃ p, pid p = k ∧ (c.pc p).mayQueue
  knows : ∀ p, Knows pid c p (c.pc p)

/-! ## The queue as a window -/

/-- The counters do not wrap, so their difference is the length of the queue. -/
theorem Queued.sub64_eq (h : Queued pid c) :
    sub64 c.sem.blockedLast c.sem.blockedFirst = c.sem.blockedLast - c.sem.blockedFirst := by
  have horder := h.order
  have hfits := h.fits
  simp only [sub64]
  omega

theorem Queued.queue_eq (h : Queued pid c) :
    queue c.sem = window c.sem.blockedProcesses MAX_PROC c.sem.blockedFirst
      (c.sem.blockedLast - c.sem.blockedFirst) := by
  rw [queue, h.sub64_eq]

/-- An id in the queue belongs to a process at a place where that may be. -/
theorem Queued.mayQueue (h : Queued pid c) (hpid : Function.Injective pid)
    (hp : pid p ∈ queue c.sem) : (c.pc p).mayQueue := by
  obtain ⟨q, hq, hmay⟩ := h.waiting _ hp
  exact hpid hq ▸ hmay

/-! ## One step -/

/-- A process that is not in a disabled section knows nothing that could become wrong. -/
theorem knows_of_enabled {pc : Pc} (h : pc.disabled = false) : Knows pid c p pc := by
  cases pc <;> trivial

variable [DecidableEq Proc]

/-- A move of `p` after which the queue holds what it held before, and perhaps `p`. -/
theorem Queued.move (h : Queued pid c) (henabled : ∀ q, q ≠ p → ¬ (c.pc q).disabled) {pc : Pc}
    {sem : SemT} (horder : sem.blockedFirst ≤ sem.blockedLast) (hfits : sem.blockedLast < 2 ^ 64)
    (hbound : sem.blockedLast - sem.blockedFirst ≤ MAX_PROC) (hnodup : (queue sem).Nodup)
    (hqueue : ∀ k ∈ queue sem, k ∈ queue c.sem ∨ k = pid p)
    (hmay : pid p ∈ queue sem → pc.mayQueue) (hknows : Knows pid (c.goto p pc sem) p pc) :
    Queued pid (c.goto p pc sem) := by
  refine ⟨horder, hfits, hbound, hnodup, fun k hk => ?_, fun q => ?_⟩
  · rw [Config.goto_sem] at hk
    by_cases hkp : k = pid p
    · subst hkp
      exact ⟨p, rfl, by rw [Config.goto_pc_self]; exact hmay hk⟩
    · obtain ⟨q, rfl, hq⟩ := h.waiting k ((hqueue k hk).resolve_right hkp)
      have hqp : q ≠ p := fun hqp => hkp (congrArg pid hqp)
      exact ⟨q, rfl, by rwa [Config.goto_pc_of_ne _ _ _ hqp]⟩
  · by_cases hqp : q = p
    · subst hqp
      rwa [Config.goto_pc_self]
    · rw [Config.goto_pc_of_ne _ _ _ hqp]
      exact knows_of_enabled (by simpa using henabled q hqp)

/-- A move of `p` that leaves the queue alone. -/
theorem Queued.quiet (h : Queued pid c) (henabled : ∀ q, q ≠ p → ¬ (c.pc q).disabled) {pc : Pc}
    {sem : SemT} (hfirst : sem.blockedFirst = c.sem.blockedFirst)
    (hlast : sem.blockedLast = c.sem.blockedLast)
    (hprocs : sem.blockedProcesses = c.sem.blockedProcesses)
    (hmay : pid p ∈ queue c.sem → pc.mayQueue) (hknows : Knows pid (c.goto p pc sem) p pc) :
    Queued pid (c.goto p pc sem) := by
  have hqueue : queue sem = queue c.sem := by rw [queue, hfirst, hlast, hprocs, queue]
  refine h.move henabled ?_ ?_ ?_ ?_ (fun k hk => Or.inl (hqueue ▸ hk)) (hqueue.symm ▸ hmay) hknows
  · rw [hfirst, hlast]
    exact h.order
  · rw [hlast]
    exact h.fits
  · rw [hfirst, hlast]
    exact h.bound
  · rw [hqueue]
    exact h.nodup

/-- The same for a process that does not stand in the queue. -/
theorem Queued.outside (h : Queued pid c) (henabled : ∀ q, q ≠ p → ¬ (c.pc q).disabled)
    (hp : pid p ∉ queue c.sem) {pc : Pc} {sem : SemT}
    (hfirst : sem.blockedFirst = c.sem.blockedFirst) (hlast : sem.blockedLast = c.sem.blockedLast)
    (hprocs : sem.blockedProcesses = c.sem.blockedProcesses)
    (hknows : Knows pid (c.goto p pc sem) p pc) : Queued pid (c.goto p pc sem) :=
  h.quiet henabled hfirst hlast hprocs (fun hin => absurd hin hp) hknows

/-- The write of the id behind the end of a queue that is not full. -/
theorem Queued.enqueuePid (h : Queued pid c) (henabled : ∀ q, q ≠ p → ¬ (c.pc q).disabled)
    (hp : pid p ∉ queue c.sem) (hroom : c.sem.blockedLast - c.sem.blockedFirst < MAX_PROC)
    (hend : c.sem.blockedLast + 1 < 2 ^ 64) {procs : ℕ → ℕ}
    (hprocs : procs =
      Function.update c.sem.blockedProcesses (c.sem.blockedLast % MAX_PROC) (pid p)) :
    Queued pid (c.goto p (.enqueueCmpxchg c.sem.blockedLast)
      { c.sem with blockedProcesses := procs }) := by
  have horder := h.order
  have hcell : c.sem.blockedLast =
      c.sem.blockedFirst + (c.sem.blockedLast - c.sem.blockedFirst) := by omega
  have hqueue : queue { c.sem with blockedProcesses := procs } = queue c.sem := by
    rw [h.queue_eq, hprocs]
    show window _ MAX_PROC c.sem.blockedFirst (sub64 c.sem.blockedLast c.sem.blockedFirst) = _
    rw [h.sub64_eq]
    refine window_update _ fun k hk => ?_
    rw [hcell]
    exact behind_ne hroom k hk
  refine h.move henabled horder h.fits h.bound (hqueue.symm ▸ h.nodup)
    (fun k hk => Or.inl (hqueue ▸ hk)) (fun hk => absurd (hqueue ▸ hk) hp) ?_
  refine ⟨rfl, hroom, hend, ?_⟩
  show procs _ = _
  rw [hprocs, Function.update_self]

/-- `blocked_last + 1` takes the id into the queue. -/
theorem Queued.enqueueCmpxchg (h : Queued pid c) (henabled : ∀ q, q ≠ p → ¬ (c.pc q).disabled)
    (hp : pid p ∉ queue c.sem)
    (hroom : c.sem.blockedLast - c.sem.blockedFirst < MAX_PROC)
    (hcell : c.sem.blockedProcesses (c.sem.blockedLast % MAX_PROC) = pid p) {last : ℕ}
    (hlast : last = c.sem.blockedLast + 1) (hend : last < 2 ^ 64) :
    Queued pid (c.goto p .recheckXchg { c.sem with blockedLast := last }) := by
  have horder := h.order
  have hqueue : queue { c.sem with blockedLast := last } = queue c.sem ++ [pid p] := by
    have hlength : sub64 last c.sem.blockedFirst = c.sem.blockedLast - c.sem.blockedFirst + 1 := by
      simp only [sub64]
      omega
    rw [h.queue_eq, ← hcell]
    show window c.sem.blockedProcesses MAX_PROC c.sem.blockedFirst
      (sub64 last c.sem.blockedFirst) = _
    rw [hlength, window_succ_last, Nat.add_sub_cancel' horder]
  refine h.move henabled ?_ hend ?_ ?_ (fun k hk => ?_) (fun _ => rfl) ?_
  · show c.sem.blockedFirst ≤ last
    omega
  · show last - c.sem.blockedFirst ≤ MAX_PROC
    omega
  · rw [hqueue]
    exact List.nodup_append.mpr ⟨h.nodup, List.nodup_singleton _, fun a ha b hb hab => by
      rw [List.mem_singleton] at hb
      exact hp (hb ▸ hab ▸ ha)⟩
  · simpa [hqueue] using hk
  · exact ⟨queue c.sem, hqueue⟩

/-- `blocked_last - 1` takes the last id, that of `p`, out of the queue. -/
theorem Queued.dequeueCmpxchg (h : Queued pid c) (henabled : ∀ q, q ≠ p → ¬ (c.pc q).disabled)
    {l : List ℕ} (hl : queue c.sem = l ++ [pid p]) {last : ℕ}
    (hlast : last + 1 = c.sem.blockedLast) :
    Queued pid (c.goto p .decRead { c.sem with blockedLast := last }) := by
  have horder := h.order
  have hfits := h.fits
  have hbound := h.bound
  have hlength : c.sem.blockedLast - c.sem.blockedFirst = l.length + 1 := by
    have := congrArg List.length hl
    rwa [h.queue_eq, length_window, List.length_append, List.length_singleton] at this
  have hqueue : queue { c.sem with blockedLast := last } = l := by
    have hold := hl
    rw [h.queue_eq, hlength, window_succ_last] at hold
    have hsub : sub64 last c.sem.blockedFirst = l.length := by
      simp only [sub64]
      omega
    show window c.sem.blockedProcesses MAX_PROC c.sem.blockedFirst (sub64 last c.sem.blockedFirst) =
      l
    rw [hsub]
    exact (List.append_inj hold (by simp)).1
  have hnodup := h.nodup
  rw [hl, List.nodup_append] at hnodup
  refine h.move henabled ?_ ?_ ?_ ?_ (fun k hk => Or.inl ?_) (fun hk => ?_) trivial
  · show c.sem.blockedFirst ≤ last
    omega
  · show last < 2 ^ 64
    omega
  · show last - c.sem.blockedFirst ≤ MAX_PROC
    omega
  · rw [hqueue]
    exact hnodup.1
  · rw [hqueue] at hk
    rw [hl]
    exact List.mem_append_left _ hk
  · rw [hqueue] at hk
    exact absurd rfl (hnodup.2.2 _ hk _ (List.mem_singleton_self _))

/-- `blocked_first + 1` takes the first id out of the queue. -/
theorem Queued.updateCmpxchg (h : Queued pid c) (henabled : ∀ q, q ≠ p → ¬ (c.pc q).disabled)
    (hp : pid p ∉ queue c.sem) (hlt : c.sem.blockedFirst < c.sem.blockedLast) {first : ℕ}
    (hfirst : first = c.sem.blockedFirst + 1) :
    Queued pid (c.goto p (.updatePid c.sem.blockedFirst) { c.sem with blockedFirst := first }) := by
  have hfits := h.fits
  have hbound := h.bound
  have hqueue : queue c.sem = c.sem.blockedProcesses (c.sem.blockedFirst % MAX_PROC) ::
      queue { c.sem with blockedFirst := first } := by
    obtain ⟨n, hn⟩ : ∃ n, c.sem.blockedLast - c.sem.blockedFirst = n + 1 :=
      ⟨c.sem.blockedLast - c.sem.blockedFirst - 1, by omega⟩
    have hsub : sub64 c.sem.blockedLast first = n := by
      simp only [sub64]
      omega
    rw [h.queue_eq, hn, window_succ]
    show _ = _ :: window c.sem.blockedProcesses MAX_PROC first (sub64 c.sem.blockedLast first)
    rw [hsub, hfirst]
  have hnodup := h.nodup
  rw [hqueue] at hnodup
  refine h.move henabled ?_ hfits ?_ hnodup.of_cons (fun k hk => Or.inl ?_) (fun hk => ?_) ?_
  · show first ≤ c.sem.blockedLast
    omega
  · show c.sem.blockedLast - first ≤ MAX_PROC
    omega
  · rw [hqueue]
    exact List.mem_cons_of_mem _ hk
  · exact absurd (hqueue ▸ List.mem_cons_of_mem _ hk) hp
  · -- the process whose id was first is inside of `sem_wait`, so it is not the one that posts
    have hhead : c.sem.blockedProcesses (c.sem.blockedFirst % MAX_PROC) ∈ queue c.sem := by
      rw [hqueue]
      exact List.mem_cons_self
    obtain ⟨q, hq, hmay⟩ := h.waiting _ hhead
    have hqp : q ≠ p := fun hqp => hp (by rw [← hqp, hq]; exact hhead)
    refine ⟨q, hqp, hq.symm, ?_⟩
    rw [Config.goto_pc_of_ne _ _ _ hqp]
    cases hpc : c.pc q <;> rw [hpc] at hmay <;> first | rfl | exact Bool.noConfusion hmay

/-- One access. -/
theorem Queued.access (h : Queued pid c) (hpid : Function.Injective pid)
    (hcond : Asleep pid c (.access p)) (hacc : access (pid p) c p = some c') : Queued pid c' := by
  have henabled : ∀ q, q ≠ p → ¬ (c.pc q).disabled := hcond.enabled
  have hnot : (c.pc p).mayQueue = false → pid p ∉ queue c.sem := fun hpc hp => by
    rw [h.mayQueue hpid hp] at hpc
    exact Bool.noConfusion hpc
  have hknows := h.knows p
  unfold TronKernel.Sem.access at hacc
  cases hpc : c.pc p
  all_goals
    rw [hpc] at hacc hknows hnot
    simp only at hacc
  case idle => cases hacc
  case waitXchg =>
    obtain rfl := Option.some.inj hacc
    have hp := hcond.head hpc
    refine h.outside henabled hp rfl rfl rfl (knows_of_enabled ?_)
    split_ifs <;> rfl
  case waitValue =>
    obtain rfl := Option.some.inj hacc
    refine h.outside henabled (hnot rfl) rfl rfl rfl (knows_of_enabled ?_)
    split_ifs <;> rfl
  case waitUnlock =>
    obtain rfl := Option.some.inj hacc
    exact h.outside henabled (hnot rfl) rfl rfl rfl trivial
  case enqueueLast =>
    obtain rfl := Option.some.inj hacc
    exact h.outside henabled (hnot rfl) rfl rfl rfl rfl
  case enqueuePid last =>
    obtain rfl : last = c.sem.blockedLast := hknows
    obtain ⟨hroom, hend⟩ := hcond.room (by
      show (c.pc p).writesPid
      rw [hpc]
      rfl)
    rw [← Option.some.inj hacc]
    exact h.enqueuePid henabled (hnot rfl) (h.sub64_eq ▸ hroom) hend rfl
  case enqueueCmpxchg last =>
    obtain ⟨rfl, hroom, hend, hcell⟩ := hknows
    rw [if_pos rfl] at hacc
    rw [← Option.some.inj hacc]
    have hsucc : add64 c.sem.blockedLast 1 = c.sem.blockedLast + 1 := by
      simp only [add64]
      omega
    exact h.enqueueCmpxchg henabled (hnot rfl) hroom hcell hsucc (hsucc.trans_lt hend)
  case recheckXchg =>
    obtain rfl := Option.some.inj hacc
    refine h.quiet henabled rfl rfl rfl (fun _ => ?_) ?_
    · split_ifs <;> rfl
    · split_ifs
      · exact hknows
      · trivial
  case recheckValue =>
    obtain rfl := Option.some.inj hacc
    refine h.quiet henabled rfl rfl rfl (fun _ => ?_) ?_
    · split_ifs <;> rfl
    · split_ifs
      · exact hknows
      · exact hknows
  case recheckUnlock =>
    obtain rfl := Option.some.inj hacc
    exact h.quiet henabled rfl rfl rfl (fun _ => rfl) trivial
  case dequeueLast =>
    obtain rfl := Option.some.inj hacc
    exact h.quiet henabled rfl rfl rfl (fun _ => rfl) ⟨rfl, hknows⟩
  case dequeueFirst last =>
    obtain ⟨rfl, l, hl⟩ := hknows
    -- the id of `p` is in the queue
    have hpos : sub64 c.sem.blockedLast c.sem.blockedFirst > 0 := by
      have hlength := congrArg List.length hl
      rw [queue, length_window, List.length_append, List.length_singleton] at hlength
      omega
    rw [if_pos hpos] at hacc
    obtain rfl := Option.some.inj hacc
    exact h.quiet henabled rfl rfl rfl (fun _ => rfl) ⟨rfl, l, hl⟩
  case dequeueCmpxchg last =>
    obtain ⟨rfl, l, hl⟩ := hknows
    have hlength := congrArg List.length hl
    rw [h.queue_eq, length_window, List.length_append, List.length_singleton] at hlength
    have hfits := h.fits
    rw [if_pos rfl] at hacc
    rw [← Option.some.inj hacc]
    have hpred : sub64 c.sem.blockedLast 1 + 1 = c.sem.blockedLast := by
      simp only [sub64]
      omega
    exact h.dequeueCmpxchg henabled hl hpred
  case decRead =>
    obtain rfl := Option.some.inj hacc
    exact h.outside henabled (hnot rfl) rfl rfl rfl trivial
  case decWrite value =>
    rw [← Option.some.inj hacc]
    exact h.outside henabled (hnot rfl) rfl rfl rfl trivial
  case unlock =>
    rw [← Option.some.inj hacc]
    have hquiet : Queued pid (c.goto p .idle { c.sem with lock := 0 }) :=
      h.outside henabled (hnot rfl) rfl rfl rfl trivial
    exact ⟨hquiet.order, hquiet.fits, hquiet.bound, hquiet.nodup, hquiet.waiting, hquiet.knows⟩
  case postValue =>
    obtain rfl := Option.some.inj hacc
    exact h.outside henabled (hnot rfl) rfl rfl rfl trivial
  case postCmpxchg value =>
    split_ifs at hacc
    · rw [← Option.some.inj hacc]
      have hquiet : Queued pid (c.goto p .updateLast { c.sem with value := add64 value 1 }) :=
        h.outside henabled (hnot rfl) rfl rfl rfl trivial
      exact ⟨hquiet.order, hquiet.fits, hquiet.bound, hquiet.nodup, hquiet.waiting, hquiet.knows⟩
    · obtain rfl := Option.some.inj hacc
      exact h.outside henabled (hnot rfl) rfl rfl rfl trivial
  case updateLast =>
    obtain rfl := Option.some.inj hacc
    exact h.outside henabled (hnot rfl) rfl rfl rfl rfl
  case updateFirst last =>
    obtain rfl : last = c.sem.blockedLast := hknows
    have hsub := h.sub64_eq
    split_ifs at hacc with hpos
    · obtain rfl := Option.some.inj hacc
      refine h.outside henabled (hnot rfl) rfl rfl rfl ⟨rfl, ?_⟩
      rw [hsub] at hpos
      exact Nat.lt_of_sub_pos hpos
    · obtain rfl := Option.some.inj hacc
      exact h.outside henabled (hnot rfl) rfl rfl rfl trivial
  case updateCmpxchg idx =>
    obtain ⟨rfl, hlt⟩ := hknows
    rw [if_pos rfl] at hacc
    rw [← Option.some.inj hacc]
    have hfits := h.fits
    have hsucc : add64 c.sem.blockedFirst 1 = c.sem.blockedFirst + 1 := by
      simp only [add64]
      omega
    exact h.updateCmpxchg henabled (hnot rfl) hlt hsucc
  case updatePid idx =>
    obtain rfl := Option.some.inj hacc
    exact h.outside henabled (hnot rfl) rfl rfl rfl trivial

theorem Queued.step (h : Queued pid c) (hpid : Function.Injective pid) {e : Event Proc}
    (hcond : Asleep pid c e) (hstep : step pid c e = some c') : Queued pid c' := by
  have hidle : ∀ p, c.pc p = .idle → pid p ∉ queue c.sem := fun p hpc hp => by
    have := h.mayQueue hpid hp
    rw [hpc] at this
    exact Bool.noConfusion this
  cases e with
  | wait p =>
    rw [TronKernel.Sem.step] at hstep
    split_ifs at hstep with hpc
    rw [← Option.some.inj hstep]
    exact h.outside hcond.enabled (hidle p hpc) rfl rfl rfl trivial
  | post p =>
    rw [TronKernel.Sem.step] at hstep
    split_ifs at hstep with hpc
    rw [← Option.some.inj hstep]
    exact h.outside hcond.enabled (hidle p hpc) rfl rfl rfl trivial
  | access p => exact h.access hpid hcond hstep

/-! ## Runs -/

omit [DecidableEq Proc] in
theorem queued_start (sem : SemT) (hfirst : sem.blockedFirst = 0) (hlast : sem.blockedLast = 0) :
    Queued pid (start Proc sem) := by
  have hqueue : queue sem = [] := by
    rw [queue, hfirst, hlast]
    rfl
  refine ⟨?_, ?_, ?_, ?_, fun k hk => ?_, fun p => trivial⟩
  · exact hfirst.trans_le (Nat.zero_le _)
  · exact hlast.trans_lt (Nat.two_pow_pos 64)
  · show sem.blockedLast - sem.blockedFirst ≤ MAX_PROC
    rw [hlast, Nat.zero_sub]
    exact Nat.zero_le _
  · exact hqueue.symm ▸ List.nodup_nil
  · change k ∈ queue sem at hk
    rw [hqueue] at hk
    exact absurd hk List.not_mem_nil

/-- The queue of a new semaphore: at most `MAX_PROC` ids, all different, all of processes inside of
`sem_wait`; so the process that `sem_post` takes from it is inside of `sem_wait` too. -/
theorem queue_names_waiters (pid : Proc → ℕ) (hpid : Function.Injective pid) (sem : SemT)
    (hfirst : sem.blockedFirst = 0) (hlast : sem.blockedLast = 0) (es : List (Event Proc))
    (c : Config Proc) (hrun : run (step pid) (start Proc sem) es = some c)
    (hcond : Throughout (step pid) (Asleep pid) (start Proc sem) es) :
    sub64 c.sem.blockedLast c.sem.blockedFirst ≤ MAX_PROC ∧
      (∀ k ∈ queue c.sem, ∃ p, pid p = k ∧ (c.pc p).inWait) ∧ (queue c.sem).Nodup ∧
      ∀ p idx, c.pc p = .updatePid idx →
        ∃ q, c.sem.blockedProcesses (idx % MAX_PROC) = pid q ∧ (c.pc q).inWait := by
  have h : Queued pid c :=
    run_preserves (queued_start sem hfirst hlast) hcond
      (fun _ _ _ hc he hstep => hc.step hpid he hstep) hrun
  refine ⟨h.sub64_eq ▸ h.bound, fun k hk => ?_, h.nodup, fun p idx hpc => ?_⟩
  · obtain ⟨p, hp, hmay⟩ := h.waiting k hk
    refine ⟨p, hp, ?_⟩
    cases hpc : c.pc p <;> rw [hpc] at hmay <;> first | rfl | exact Bool.noConfusion hmay
  · obtain ⟨q, -, hq, hin⟩ := hpc ▸ h.knows p
    exact ⟨q, hq, hin⟩

instance [Fintype Proc] (c : Config Proc) (e : Event Proc) : Decidable (Asleep pid c e) :=
  decidable_of_iff
    ((∀ q, q ≠ e.proc → ¬ (c.pc q).disabled) ∧
      (c.pc e.proc = .waitXchg → pid e.proc ∉ queue c.sem) ∧
      ((c.pc e.proc).writesPid →
        sub64 c.sem.blockedLast c.sem.blockedFirst < MAX_PROC ∧ c.sem.blockedLast + 1 < 2 ^ 64))
    ⟨fun h => ⟨h.1, h.2.1, h.2.2⟩, fun h => ⟨h.1, h.2, h.3⟩⟩

/-- A process finds the value 0 and sleeps; a post takes it from the queue; it comes back. -/
theorem queue_names_waiters_post :
    ∃ c : Config Bool,
      run (step fun p => if p then 1 else 2) (start Bool (zeroTable 0))
        (.wait true :: List.replicate 9 (.access true) ++
          (.post false :: List.replicate 5 (.access false))) = some c ∧
      c.pc false = .updatePid 0 ∧ ∃ q, c.sem.blockedProcesses 0 = (if q then 1 else 2) ∧
        (c.pc q).inWait := by
  set pid : Bool → ℕ := fun p => if p then 1 else 2
  set es : List (Event Bool) := .wait true :: List.replicate 9 (.access true) ++
    (.post false :: List.replicate 5 (.access false))
  have hpc : (run (step pid) (start Bool (zeroTable 0)) es).map (fun c => c.pc false) =
      some (.updatePid 0) := by decide +kernel
  obtain ⟨c, hrun, hc⟩ := Option.map_eq_some_iff.mp hpc
  obtain ⟨-, -, -, hpost⟩ := queue_names_waiters pid (by decide) (zeroTable 0) rfl rfl es c hrun
    (by decide +kernel)
  exact ⟨c, hrun, hc, hpost false 0 hc⟩

/-- One process on a semaphore of value 0: after the second pass of the sleeping loop its id is in
the queue twice. -/
theorem second_pass_queues_twice :
    ¬ ∀ (es : List (Event Bool)) (c : Config Bool),
      run (step fun p => if p then 1 else 2) (start Bool (zeroTable 0)) es = some c →
        (queue c.sem).Nodup := by
  intro hclaim
  have hqueue : (run (step fun p => if p then 1 else 2) (start Bool (zeroTable 0))
      (.wait true :: List.replicate 16 (.access true))).map (fun c => queue c.sem) =
        some [1, 1] := by decide +kernel
  obtain ⟨c, hrun, hc⟩ := Option.map_eq_some_iff.mp hqueue
  have hnodup := hclaim _ c hrun
  rw [hc] at hnodup
  exact absurd hnodup (by decide)

end TronKernel.Sem
