import TronKernel.Sched.Children
import TronKernel.Sched.Pids

/-!
# What is left of a process that has ended

`kill_process` for another process, and `scheduler` for a current process that has been killed, come
down to `destroy_node`. It removes the process if the *current* process has a parent in the ring,
and nothing is left then: no node, no block, no pid (`terminated_iff`). Otherwise the process stays
where it is, KILLED, and so does the foreground process that ends without a background one:
`ready_process` lets it run on (`killed_runs_on`). The steps are `Sound`, as a fault would end the
run in the model and not in the code.
-/

namespace TronKernel.Sched.Lives

open CircularList Programs Runs

variable {H : Type} [Allocator H] {s s' s₁ t : Kernel H} {ring ring' : List Entry} {v x : Entry}
  {g : Entry → Entry} {T : ℕ → Prop} {fg bg q : ℕ} {c : Call}

/-! ## A process leaves -/

/-- `v` has left the ring, its blocks are free, and the other processes are in their places. -/
structure Drops (s s' : Kernel H) (ring : List Entry) (v : Entry) (ring' : List Entry) : Prop where
  shows : Shows s' ring'
  counter : s'.counter = decr64 s.counter
  pidc : s'.pidc = s.pidc
  freed : ∀ a ∈ v.blocks, ¬ Allocator.Live s'.heap a
  order : (ring.map Entry.kin).IsRotated (v.kin :: ring'.map Entry.kin)

theorem Leaves.drops (hl : Leaves s s' ring v ring') : Drops s s' ring v ring' := by
  obtain ⟨-, -, -, -, -, hr, h⟩ := hl
  next e p w l g =>
  refine ⟨h.shows, by rw [h.globals], by rw [h.globals],
    fun a ha hlive => ((h.live a).mp hlive).2.1 ha, ?_⟩
  have hmap : ((g w).into (g v) :: l.map g).map Entry.kin = (w :: l).map Entry.kin := by
    rw [List.map_cons, List.map_map, List.map_cons]
    exact congrArg₂ List.cons (h.loses.kin w) (List.map_congr_left fun y _ => h.loses.kin y)
  rw [hmap]
  exact hr.map Entry.kin

theorem Quiet.map_kin (hq : Quiet T fg bg s t ring g) :
    (ring.map g).map Entry.kin = ring.map Entry.kin := by
  rw [List.map_map]
  exact List.map_congr_left fun x hx => hq.kin hx

/-- It leaves after assignments. -/
theorem Quiet.drops (hq : Quiet T fg bg s t ring g) (hv : v ∈ ring)
    (hd : Drops t s' (ring.map g) (g v) ring') : Drops s s' ring v ring' where
  shows := hd.shows
  counter := by rw [hd.counter, hq.globals]
  pidc := by rw [hd.pidc, hq.globals]
  freed := hq.shape.blocks v ▸ hd.freed
  order := by
    have hr := hd.order
    rwa [hq.map_kin, hq.kin hv] at hr

/-- `scheduler` picks the next process after it has left. -/
theorem Drops.picks (hd : Drops s t ring v ring') (hp : Picks t s' ring' x) :
    Drops s s' ring v (ring'.map (picked x)) where
  shows := hp.shows
  counter := by rw [hp.globals, hd.counter]
  pidc := by rw [hp.globals, hd.pidc]
  freed := hp.heap ▸ hd.freed
  order := by
    have hmap : (ring'.map (picked x)).map Entry.kin = ring'.map Entry.kin := by
      rw [List.map_map]
      exact List.map_congr_left fun y _ => picked_kin x y
    rw [hmap]
    exact hd.order

/-- A step that does not spare its victim removes it. -/
theorem Outcome.drops (ho : Outcome c s ring s' ring') (hc : ¬ c.Spares s) :
    ∃ v ∈ ring, v.node = c.victim s ∧ Drops s s' ring v ring' := by
  cases ho with
  | stay hspares _ => exact absurd hspares hc
  | removed hq hv hvictim hl => exact ⟨_, hv, hvictim, hq.drops hv hl.drops⟩
  | joined hspares _ _ _ _ => exact absurd hspares hc
  | searched _ hsearch hpicks =>
    cases hsearch with
    | left hspares _ _ _ _ => exact absurd hspares hc
    | replaced hq _ _ _ hv hvictim hl => exact ⟨_, hv, hvictim, (hq.drops hv hl.drops).picks hpicks⟩

/-- A step that spares its victim leaves all processes in the ring. -/
theorem Outcome.spared (ho : Outcome c s ring s' ring') (hs : Shows s ring) (hc : c.Spares s)
    (hx : x ∈ ring) : ∃ y ∈ ring', y.proc.pid = x.proc.pid := by
  cases ho with
  | stay _ hq => exact ⟨_, List.mem_map_of_mem hx, (hq.changed x hx).pid⟩
  | removed hq hv hvictim hl => exact absurd hc (hq.not_spares hs hv hvictim hl)
  | joined _ hr _ hj _ =>
    rcases List.mem_cons.mp (hr.mem_iff.mp hx) with rfl | hx
    · exact ⟨_, hj.mem_iff.mpr (Or.inr (Or.inl rfl)), rfl⟩
    · exact ⟨x, hj.mem_iff.mpr (Or.inr (Or.inr hx)), rfl⟩
  | @searched _ _ z _ _ hsearch _ =>
    cases hsearch with
    | left _ hq _ _ _ =>
      refine ⟨_, List.mem_map_of_mem (List.mem_map_of_mem hx), ?_⟩
      rw [picked_pid, (hq.changed x hx).pid]
    | replaced hq _ _ _ hv hvictim hl => exact absurd hc (hq.not_spares hs hv hvictim hl)

/-! ## The processes and their number -/

/-- The processes of the ring have different pids, and `counter` is not below their number. -/
structure Populated (s : Kernel H) (ring : List Entry) : Prop where
  base : Base s ring
  issued : Issued s
  length_le : ring.length ≤ s.counter
  counter_le : s.counter ≤ s.pidc
  pidc_lt : s.pidc < 2 ^ 64

theorem Populated.pid_inj (h : Populated s ring) {y : Entry} (hx : x ∈ ring) (hy : y ∈ ring)
    (heq : x.proc.pid = y.proc.pid) : x = y := by
  have hprocess := h.base.shows.process_at
  exact h.base.shows.procAddr_inj hx hy
    (h.issued.inj _ _ _ _ (hprocess x hx) (hprocess y hy) heq)

theorem Drops.length_eq (hd : Drops s s' ring v ring') : ring.length = ring'.length + 1 := by
  have hlen := hd.order.perm.length_eq
  simpa using hlen

/-- `counter` is one less after a removal. -/
theorem Populated.counter_eq (h : Populated s ring) (hd : Drops s s' ring v ring') :
    s'.counter + 1 = s.counter := by
  have hlen := hd.length_eq
  have := h.length_le
  have := h.counter_le
  have := h.pidc_lt
  rw [hd.counter, decr64_of_pos (by omega) (by omega)]
  omega

/-- What a step does to the number of processes and to the counters. -/
theorem Outcome.counts (ho : Outcome c s ring s' ring') :
    (∃ v, Drops s s' ring v ring') ∨
      (ring'.length = ring.length ∧ s'.counter = s.counter ∧ s'.pidc = s.pidc) ∨
      ring'.length ≤ ring.length + 1 ∧ s'.counter = incr64 s.counter ∧ s'.pidc = incr64 s.pidc := by
  cases ho with
  | stay _ hq =>
    refine Or.inr (Or.inl ⟨List.length_map _, ?_, ?_⟩) <;> rw [hq.globals]
  | removed hq hv _ hl => exact Or.inl ⟨_, hq.drops hv hl.drops⟩
  | joined _ hr _ hj _ =>
    refine Or.inr (Or.inr ⟨?_, ?_, ?_⟩)
    · rw [hj.entries, hr.perm.length_eq]
      split_ifs <;> simp
    all_goals
      rw [hj.globals, Globals.promote]
      split_ifs <;> rfl
  | searched _ hsearch hpicks =>
    cases hsearch with
    | left _ hq _ _ _ =>
      refine Or.inr (Or.inl ⟨?_, ?_, ?_⟩)
      · rw [List.length_map, List.length_map]
      all_goals rw [hpicks.globals, hq.globals]
    | replaced hq _ _ _ hv _ hl => exact Or.inl ⟨_, (hq.drops hv hl.drops).picks hpicks⟩

theorem Populated.outcome (h : Populated s ring) (hs : Unspent s) (hb : Bears s s')
    (ho : Outcome c s ring s' ring') : Populated s' ring' := by
  have hbase := ho.base h.base
  have hissued := h.issued.bears hs hb
  have hlt : s'.pidc < 2 ^ 64 := (hb.pidc_le hs).2.trans_lt hs
  have hlen := h.length_le
  have hle := h.counter_le
  rcases ho.counts with ⟨v, hd⟩ | ⟨hlen', hcounter, hpidc⟩ | ⟨hlen', hcounter, hpidc⟩
  · have hcounter := h.counter_eq hd
    have hlen' := hd.length_eq
    have hpidc := hd.pidc
    exact ⟨hbase, hissued, by omega, by omega, hlt⟩
  · exact ⟨hbase, hissued, by omega, by omega, hlt⟩
  · have hnext : s.counter + 1 < 2 ^ 64 := (Nat.succ_le_succ hle).trans_lt hs
    rw [incr64_of_lt hnext] at hcounter
    rw [incr64_of_lt hs] at hpidc
    exact ⟨hbase, hissued, by omega, by omega, hlt⟩

/-! ## Termination -/

/-- The step terminates the process with this pid: `kill_process` returns the pid of another
process, or `scheduler` switches away from the current process, which has been killed. -/
def Call.Terminates (s s' : Kernel H) (q : ℕ) : Call → Prop
  | .killProcess pid => q = pid ∧ s.nodeOf q ≠ 0 ∧ q ≠ s.pidOf s.currentNode
  | .killOther pid => q = pid ∧ s.nodeOf q ≠ 0 ∧ q ≠ s.pidOf s.currentNode
  | .killForegroundProc => (s.background ≠ 0 ∧ q = s.pidOf s.foreground) ∧ s.nodeOf q ≠ 0 ∧
    q ≠ s.pidOf s.currentNode
  | .schedule _ => (s.procOf s.currentNode).map Process.state = some .killed ∧
    q = s.pidOf s.currentNode ∧ s'.pidOf s'.currentNode ≠ q
  | .finishScheduler => q = s.pidOf s.currentNode ∧ s.nodeOf q ≠ 0 ∧ s'.pidOf s'.currentNode ≠ q
  | _ => False

/-- A step after which there is a new pid left, and which is sound if the scheduler makes it. -/
def Orderly (s : Kernel H) (d : Act) : Prop := Unspent s ∧ ∀ c, d = .call c → Sound s c

/-- Nothing is left of the process, and its pid is never seen again. -/
structure Gone (s s' : Kernel H) (ring : List Entry) (v : Entry) : Prop where
  order : ∃ ring', Shows s' ring' ∧ (∀ x ∈ ring', x.proc.pid ≠ v.proc.pid) ∧
    (ring.map Entry.kin).IsRotated (v.kin :: ring'.map Entry.kin)
  counter : s'.counter + 1 = s.counter
  freed : ∀ a ∈ v.blocks, ¬ Allocator.Live s'.heap a
  forever : ∀ ds t, Throughout act Orderly s' ds → run act s' ds = some t →
    ∀ a p, t.procOf a = some p → p.pid ≠ v.proc.pid

/-- What `find_node` finds is an entry. -/
theorem exists_of_nodeOf (h : Shows s ring) (h0 : s.nodeOf q ≠ 0) :
    ∃ v ∈ ring, v.proc.pid = q := by
  have hfirst : s.first ∈ ring.map Entry.node := by
    by_contra hlost
    exact h0 (h.nodeOf_lost hlost q)
  rcases findNode_cases h hfirst q with ⟨v, hv, hpid, -⟩ | ⟨-, hnone⟩
  · exact ⟨v, hv, hpid⟩
  · exact absurd (nodeOf_eq hnone) h0

/-- The process that a step terminates is in the ring. -/
theorem Call.Terminates.exists (h : c.Terminates s s' q) (hs : Shows s ring) :
    ∃ v ∈ ring, v.proc.pid = q := by
  cases c with
  | schedule sp =>
    obtain ⟨hkilled, rfl, -⟩ := h
    obtain ⟨p, hp, -⟩ := Option.map_eq_some_iff.mp hkilled
    obtain ⟨v, hv, hcur, rfl⟩ := hs.mem_of_procOf hp
    exact ⟨v, hv, by rw [← hcur, hs.pidOf hv]⟩
  | finishScheduler => exact exists_of_nodeOf hs h.2.1
  | killProcess pid => exact exists_of_nodeOf hs h.2.1
  | killOther pid => exact exists_of_nodeOf hs h.2.1
  | killForegroundProc => exact exists_of_nodeOf hs h.2.1
  | _ => exact h.elim

omit [Allocator H] in
/-- The step stops no other process. -/
theorem Call.Terminates.stops {r : ℕ} (h : c.Terminates s s' q) (hr : c.Stops s r) : r = q := by
  cases c with
  | schedule sp => exact hr.2.trans h.2.1.symm
  | finishScheduler => exact hr.trans h.1.symm
  | killProcess pid => exact hr.trans h.1.symm
  | killOther pid => exact hr.trans h.1.symm
  | killForegroundProc => exact hr.2.trans h.1.2.symm
  | _ => exact h.elim

/-- Where the process has left the ring, its pid is not in memory any more. -/
theorem Populated.buried (h : Populated s ring) (hb : Bears s s') (hv : v ∈ ring)
    (hd : Drops s s' ring v ring') : Buried v.proc.pid s' := by
  have hvat := h.base.shows.process_at v hv
  have hlt := h.issued.lt _ _ hvat
  refine ⟨hd.pidc.symm ▸ hlt, fun a p' hp' heq => ?_⟩
  obtain ⟨-, new, hpids⟩ := hb
  rcases hpids a p' hp' with ⟨p, hp, hpid⟩ | ⟨-, hpid, -⟩
  · obtain rfl := h.issued.inj _ _ _ _ hp hvat (hpid.trans heq)
    exact hd.freed v.procAddr (by simp [Entry.blocks])
      (hd.shows.live _ _ (process?_eq_some.mp hp'))
  · exact hlt.ne (heq.symm.trans hpid)

theorem Populated.gone (h : Populated s ring) (hb : Bears s s') (hv : v ∈ ring)
    (hd : Drops s s' ring v ring') : Gone s s' ring v := by
  have hburied := h.buried hb hv hd
  refine ⟨⟨ring', hd.shows, fun x hx => ?_, hd.order⟩, h.counter_eq hd, hd.freed,
    fun ds t hnew hrun a p hp => ?_⟩
  · exact hburied.absent _ _ (hd.shows.process_at x hx)
  · obtain ⟨n, -, hproc⟩ := Option.bind_eq_some_iff.mp hp
    exact (buried_run hburied (hnew.mono fun _ _ => And.left) hrun).absent _ _ hproc

/-- A process that is still in the ring is not gone. -/
theorem not_gone (hs : Shows s' ring') {y : Entry} (hy : y ∈ ring')
    (hpid : y.proc.pid = v.proc.pid) : ¬ Gone s s' ring v := by
  rintro ⟨⟨ring₂, hs₂, hnone, -⟩, -, -, -⟩
  obtain ⟨x, hx, -, hproc⟩ := hs₂.mem_of_procOf (hs.procOf hy)
  exact hnone x hx (hproc ▸ hpid)

/-- The process that a step terminates is gone if and only if `destroy_node` removes it. -/
theorem Populated.terminates_iff (h : Populated s ring) (hstep : step s c = some s')
    (hterm : c.Terminates s s' q) :
    ∃ v ∈ ring, v.proc.pid = q ∧ (Gone s s' ring v ↔ ¬ c.Spares s) := by
  obtain ⟨ring', ho⟩ := step_outcome h.base hstep
  obtain ⟨v, hv, hpid⟩ := hterm.exists h.base.shows
  refine ⟨v, hv, hpid, fun hgone hspares => ?_, fun hspares => ?_⟩
  · obtain ⟨y, hy, hypid⟩ := ho.spared h.base.shows hspares hv
    exact not_gone (ho.base h.base).shows hy hypid hgone
  · obtain ⟨x, hx, hvictim, hd⟩ := ho.drops hspares
    have hxpid := hterm.stops (Call.stops_victim h.base.shows hx hvictim)
    obtain rfl := h.pid_inj hx hv (hxpid.trans hpid.symm)
    exact h.gone (bears_act (d := .call c) hstep) hx hd

/-! ## Runs -/

theorem Starts.populated {e : Entry} (h : Starts s e) (hissued : Issued s) : Populated s [e] where
  base := h.base
  issued := hissued
  length_le := h.counter.ge
  counter_le := by rw [h.counter, h.pidc]
  pidc_lt := by
    rw [h.pidc]
    exact Nat.one_lt_two_pow (by decide)

/-- After `init_scheduler` there is one process, with pid 0. -/
theorem populated_of_init {s₀ : Kernel H} {idle : ℕ} (hs : Booting s₀)
    (hinit : initScheduler interrupt idle s₀ = .ok () s) (hfirst : s.first ≠ 0) :
    ∃ ring, Populated s ring := by
  have hend : Ends (fun _ s' => s'.first ≠ 0 → ∃ ring, Populated s' ring) (fun _ _ => True)
      (initScheduler interrupt idle) s₀ := by
    refine ends_initScheduler lenient_true hs (fun s' hglob h0 => ?_)
      fun s' node proc argv stack args own hb _ => ?_
    · exact absurd (by rw [hglob, hs.first]) h0
    · have hat : ∀ {a p}, s'.process? a = some p → a = proc ∧ p = idleProc idle argv stack := by
        intro a p hp
        rw [hb.process?] at hp
        split_ifs at hp with ha
        exact ⟨ha, (Option.some.inj hp).symm⟩
      refine ⟨_, (Booted.starts hs hb).populated ⟨fun a p hp => ?_, fun a b p p' hp hp' _ => ?_⟩⟩
      · rw [(hat hp).2, hb.globals]
        exact zero_lt_one
      · exact (hat hp).1.trans (hat hp').1.symm
  exact hend.of_ok hinit hfirst

variable {s₀ s'' : Kernel H} {idle : ℕ} {cs : List Call}

/-- In every run of sound steps in which there is always a new pid, a process that is terminated is
gone if and only if the current process has a parent in the ring, and has a background process to
hand over to where it is the foreground process that ends. As before, `Intact` says that no such run
ends in silence at a freed node. -/
theorem terminated_iff (hs : Booting s₀) (hinit : initScheduler interrupt idle s₀ = .ok () s)
    (hfirst : s.first ≠ 0) (hnew : Throughout step (fun s c => Unspent s ∧ Sound s c) s cs)
    (hrun : run step s cs = some s') (hsound : Sound s' c) (hstep : step s' c = some s'')
    (hterm : c.Terminates s' s'' q) :
    Intact s' ∧ Intact s'' ∧ ∃ ring, Shows s' ring ∧ ∃ v ∈ ring, v.proc.pid = q ∧
      (Gone s' s'' ring v ↔ ¬ c.Spares s') := by
  obtain ⟨ring, h⟩ : ∃ ring, Populated s' ring := by
    refine run_preserves (I := fun s => ∃ ring, Populated s ring)
      (populated_of_init hs hinit hfirst) hnew ?_ hrun
    rintro s c s' ⟨ring, h⟩ ⟨hs, -⟩ hstep
    obtain ⟨ring', ho⟩ := step_outcome h.base hstep
    exact ⟨ring', h.outcome hs (bears_act (d := .call c) hstep) ho⟩
  obtain ⟨ring₁, hhandled⟩ :=
    handled_of_run hs hinit hfirst (hnew.mono fun _ _ hc => hc.2.1) hrun
  obtain ⟨ring₂, ho⟩ := step_outcome hhandled.base hstep
  exact ⟨hhandled.intact, (hhandled.outcome hsound.1 ho).intact, ring, h.base.shows,
    h.terminates_iff hstep hterm⟩

/-- The idle process makes two others and kills the second one, which is in the foreground. -/
theorem terminated_iff_killed : ∃ s s' s'' : Kernel FirstFitHeap,
    initScheduler interrupt 0 loaded = .ok () s ∧
      run step s [.addProcess 0 [] 0 1 3 0, .addProcess 0 [] 0 1 3 1] = some s' ∧
      step s' (.killProcess 2) = some s'' ∧ Intact s'' ∧
        ∃ ring, Shows s' ring ∧ ∃ v ∈ ring, v.proc.pid = 2 ∧ Gone s' s'' ring v := by
  have hcheck : (booted.bind fun s => (runIf step (fun s c => Unspent s ∧ Sound s c) s
      [.addProcess 0 [] 0 1 3 0, .addProcess 0 [] 0 1 3 1]).bind fun s' =>
        (step s' (.killProcess 2)).map fun _ =>
          decide (s'.nodeOf 2 ≠ 0 ∧ 2 ≠ s'.pidOf s'.currentNode ∧ Sound s' (.killProcess 2) ∧
            ¬ (Call.killProcess 2).Spares s')) = some true := by decide +kernel
  obtain ⟨s, hs, hcheck⟩ := Option.bind_eq_some_iff.mp hcheck
  obtain ⟨s', hrunIf, hcheck⟩ := Option.bind_eq_some_iff.mp hcheck
  obtain ⟨s'', hstep, hcheck⟩ := Option.map_eq_some_iff.mp hcheck
  obtain ⟨hfound, hother, hsound, hspares⟩ := of_decide_eq_true hcheck
  obtain ⟨hrun, hnew⟩ := run_of_runIf hrunIf
  have hfirst : s.first ≠ 0 := by simpa [hs] using booted_first
  have hinit := initScheduler_of_outcome booting_loaded hs hfirst
  obtain ⟨-, hintact, ring, hshows, v, hv, hpid, hiff⟩ :=
    terminated_iff booting_loaded hinit hfirst hnew hrun hsound hstep ⟨rfl, hfound, hother⟩
  exact ⟨s, s', s'', hinit, hrun, hstep, hintact, ring, hshows, v, hv, hpid, hiff.mpr hspares⟩

/-- The foreground process exits, and there is no background one. It stays in the ring, and runs on
after `ready_process`. -/
theorem killed_runs_on : ∃ s s' s'' t : Kernel FirstFitHeap,
    initScheduler interrupt 0 loaded = .ok () s ∧
      run step s [.addProcess 0 [] 0 1 3 1, .forceCurrentYield, .schedule 0,
        .killCurrentProcess] = some s' ∧ step s' (.schedule 0) = some s'' ∧
      (Call.schedule 0).Terminates s' s'' 1 ∧
      (∀ ring, ∀ v ∈ ring, v.proc.pid = 1 → ¬ Gone s' s'' ring v) ∧
      run step s'' [.readyProcess 1, .forceCurrentYield, .schedule 0] = some t ∧
      ∃ p, t.procOf t.currentNode = some p ∧ p.pid = 1 ∧ p.state = .running := by
  have hcheck : (booted.bind fun s => (run step s [.addProcess 0 [] 0 1 3 1, .forceCurrentYield,
      .schedule 0, .killCurrentProcess]).bind fun s' => (step s' (.schedule 0)).bind fun s'' =>
        (run step s'' [.readyProcess 1, .forceCurrentYield, .schedule 0]).bind fun t =>
          (t.procOf t.currentNode).map fun p =>
            decide (((s'.procOf s'.currentNode).map Process.state = some .killed ∧
              1 = s'.pidOf s'.currentNode ∧ s''.pidOf s''.currentNode ≠ 1) ∧
              s''.counter = s'.counter ∧ p.pid = 1 ∧ p.state = .running)) = some true := by
    decide +kernel
  obtain ⟨s, hs, hcheck⟩ := Option.bind_eq_some_iff.mp hcheck
  obtain ⟨s', hrun, hcheck⟩ := Option.bind_eq_some_iff.mp hcheck
  obtain ⟨s'', hstep, hcheck⟩ := Option.bind_eq_some_iff.mp hcheck
  obtain ⟨t, hlater, hcheck⟩ := Option.bind_eq_some_iff.mp hcheck
  obtain ⟨p, hp, hcheck⟩ := Option.map_eq_some_iff.mp hcheck
  obtain ⟨hterm, hcounter, hpid, hstate⟩ := of_decide_eq_true hcheck
  have hfirst : s.first ≠ 0 := by simpa [hs] using booted_first
  refine ⟨s, s', s'', t, initScheduler_of_outcome booting_loaded hs hfirst, hrun, hstep, hterm,
    fun ring v _ _ hgone => ?_, hlater, p, hp, hpid, hstate⟩
  have hless := hgone.counter
  omega

end TronKernel.Sched.Lives
