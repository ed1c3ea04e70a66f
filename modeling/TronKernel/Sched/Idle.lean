import TronKernel.Lib.Runs
import TronKernel.Sched.Safety

/-!
# There is always a process to run

`find_next_ready` goes round the ring and has no end of its own. It comes to one because the idle
process, the first with pid 0, is neither blocked nor killed: whenever the current process leaves
the processor, a process with pid 0 is READY or NEW (`find_next_ready_ends`). Blocking it while
nobody else can run makes `find_next_ready` go round for ever (`idle_blocked`). The steps are
`Sound`, as a fault would end the run in the model and not in the code.
-/

namespace TronKernel.Sched

open Programs CircularList LinkedList

variable {H : Type} {s s' t : Kernel H} {ring ring' l : List Entry} {e v x : Entry} {a start : ℕ}

/-! ## What `find_next_ready` is to find -/

/-- The process of the node is READY or NEW. -/
def Kernel.ReadyAt (s : Kernel H) (node : ℕ) : Prop := ∃ p, s.procOf node = some p ∧ p.isReady

instance (p : Process) : Decidable p.isReady := inferInstanceAs (Decidable (_ ∨ _))

/-- The next node, if the process of this one is neither READY nor NEW. -/
def Kernel.passes (s : Kernel H) (node : ℕ) : Option ℕ :=
  (s.node? node).bind fun n =>
    (s.process? n.proc).bind fun p => if p.isReady then none else some n.next

theorem findNextReadyLoop_passes {next : ℕ} (h : s.passes a = some next) (calls : ℕ) :
    findNextReadyLoop (calls + 1) a s = findNextReadyLoop calls next s := by
  obtain ⟨n, hn, h⟩ := Option.bind_eq_some_iff.mp h
  obtain ⟨p, hp, h⟩ := Option.bind_eq_some_iff.mp h
  split_ifs at h with hready
  rw [findNextReadyLoop, bind_of_ok (show nodeAt a s = .ok n s by rw [nodeAt, hn]),
    bind_of_ok (show procAt n.proc s = .ok p s by rw [procAt, hp]),
    if_neg (show ¬ (p.state = .ready ∨ p.state = .new) from hready), Option.some.inj h]

/-- Between two nodes that it passes, `find_next_ready` goes back and forth for ever. -/
theorem findNextReadyLoop_pair {b : ℕ} (ha : s.passes a = some b) (hb : s.passes b = some a)
    (calls : ℕ) : findNextReadyLoop calls a s = .error .diverges s ∧
      findNextReadyLoop calls b s = .error .diverges s := by
  induction calls with
  | zero => exact ⟨rfl, rfl⟩
  | succ calls ih =>
    rw [findNextReadyLoop_passes ha, findNextReadyLoop_passes hb]
    exact ⟨ih.2, ih.1⟩

/-- `find_next_ready` passes nodes that are neither READY nor NEW, and returns one that is. -/
def FindsNext (s : Kernel H) (start : ℕ) : Prop :=
  ∃ l a, Seg s.next start l a ∧ (∀ b ∈ l, ¬ s.ReadyAt b) ∧ s.ReadyAt a ∧
    findNextReady start s = .ok a s

variable [Allocator H]

theorem Shows.readyAt (h : Shows s ring) (he : e ∈ ring) : s.ReadyAt e.node ↔ e.isReady = true := by
  rw [Kernel.ReadyAt, h.procOf he]
  simp [Process.isReady, Entry.isReady]

/-- A READY or NEW entry anywhere is enough. -/
theorem Shows.findsNext (h : Shows s ring) (hstart : start ∈ ring.map Entry.node)
    (hready : ∃ x ∈ ring, x.isReady = true) : FindsNext s start := by
  obtain ⟨e, he, rfl⟩ := List.mem_map.mp hstart
  obtain ⟨l, hr⟩ := exists_isRotated_cons he
  have hl := h.rotated hr
  rcases findNextReady_cases hl with ⟨x, hfind, hok⟩ | ⟨hnone, -⟩
  · obtain ⟨hx, as, bs, heq, has⟩ := List.find?_eq_some_iff_append.mp hfind
    have hseg : Seg s.next e.node ((e :: l).map Entry.node) e.node := ⟨rfl, hl.isRing⟩
    rw [heq, List.map_append, List.map_cons] at hseg
    refine ⟨as.map Entry.node, x.node, (seg_append_cons.mp hseg).1, fun b hb => ?_, ?_, hok⟩
    · obtain ⟨y, hy, rfl⟩ := List.mem_map.mp hb
      rw [hl.readyAt (heq ▸ List.mem_append_left _ hy)]
      simpa using has y hy
    · rw [hl.readyAt (heq ▸ by simp)]
      exact hx
  · obtain ⟨x, hx, hxready⟩ := hready
    exact absurd (hnone x (hr.mem_iff.mp hx)) (by simp [hxready])

namespace Lives

open Runs

variable {T : ℕ → Prop} {fg bg : ℕ} {g : Entry → Entry} {c : Call}

/-! ## The idle process -/

/-- There is a process with pid 0. Every such process is neither blocked nor killed, and it runs
only if it is the current one. -/
structure Idles (s : Kernel H) (ring : List Entry) : Prop where
  base : Base s ring
  exists_idle : ∃ x ∈ ring, x.proc.pid = 0
  awake : ∀ x ∈ ring, x.proc.pid = 0 → x.proc.state ≠ .blocked ∧ x.proc.state ≠ .killed
  alone : ∀ x ∈ ring, x.proc.pid = 0 → x.proc.state = .running →
    s.currentNode ∈ ring.map Entry.node → x.node = s.currentNode

/-- No process with pid 0 runs. -/
def Rests (ring : List Entry) : Prop := ∀ x ∈ ring, x.proc.pid = 0 → x.proc.state ≠ .running

theorem Idles.quiet (h : Idles s ring) (hq : Quiet T fg bg s t ring g) (hT : ¬ T 0) :
    Idles t (ring.map g) where
  base := hq.base h.base
  exists_idle := by
    obtain ⟨x, hx, hpid⟩ := h.exists_idle
    exact ⟨g x, List.mem_map_of_mem hx, (hq.changed x hx).pid.trans hpid⟩
  awake := by
    intro x hx hpid
    obtain ⟨y, hy, rfl⟩ := List.mem_map.mp hx
    rw [(hq.changed y hy).pid] at hpid
    rcases (hq.changed y hy).state with hsame | hready | ⟨hstop, -⟩
    · rw [hsame]
      exact h.awake y hy hpid
    · simp [hready]
    · exact absurd (hpid ▸ hstop) hT
  alone := by
    intro x hx hpid hrun hcur
    obtain ⟨y, hy, rfl⟩ := List.mem_map.mp hx
    rw [keepsShape_nodes hq.shape, hq.globals] at hcur
    rw [hq.shape.node, hq.globals]
    rw [(hq.changed y hy).pid] at hpid
    refine h.alone y hy hpid ?_ hcur
    rcases (hq.changed y hy).state with hsame | hready | ⟨hstop, -⟩
    · exact hsame.symm.trans hrun
    · simp [hready] at hrun
    · exact absurd (hpid ▸ hstop) hT

/-- The one that leaves is another one. -/
theorem Idles.leaves (h : Idles s ring) (hv : v.proc.pid ≠ 0) (hl : Leaves s t ring v ring') :
    Idles t ring' := by
  obtain ⟨hback, hforth⟩ := hl.survives h.base.shows
  refine ⟨hl.base h.base, ?_, fun x hx hpid => ?_, fun x hx hpid hrun hcur => ?_⟩
  · obtain ⟨y, hy, hpid⟩ := h.exists_idle
    obtain ⟨x, hx⟩ := hforth y hy fun heq => hv (heq ▸ hpid)
    exact ⟨x, hx.mem, hx.pid.trans hpid⟩
  · obtain ⟨y, hy, -, hsur⟩ := hback x hx
    rcases hsur.state with hsame | hready
    · rw [hsame]
      exact h.awake y hy (hsur.pid.symm.trans hpid)
    · simp [hready]
  · obtain ⟨y, hy, -, hsur⟩ := hback x hx
    rw [hl.currentNode] at hcur ⊢
    have hrun' : y.proc.state = .running := by
      rcases hsur.state with hsame | hready
      · exact hsame.symm.trans hrun
      · simp [hready] at hrun
    have hycur := h.alone y hy (hsur.pid.symm.trans hpid) hrun' (hl.nodes hcur)
    rcases hsur.node with hsame | ⟨-, hgone⟩
    · exact hsame.trans hycur
    · exact absurd (hycur ▸ hcur) hgone

theorem Idles.joins (h : Idles s ring) {p : Process} {proc newNode isForeground : ℕ}
    {args : List ℕ} (hr : ring.IsRotated (e :: l)) (hcur : e.node = s.currentNode)
    (hj : Joins s t e l p proc newNode args isForeground ring') : Idles t ring' := by
  have he : e ∈ ring := hr.mem_iff.mpr (by simp)
  have hin : s.currentNode ∈ ring.map Entry.node := hcur ▸ List.mem_map_of_mem he
  -- what is in the new ring and not new
  have hold : ∀ x ∈ ring', x.proc.state ≠ .new → ∃ y ∈ ring, y.node = x.node ∧
      y.proc.pid = x.proc.pid ∧ y.proc.state = x.proc.state := by
    intro x hx hnew
    rcases hj.mem_iff.mp hx with ⟨-, rfl⟩ | rfl | hx
    · exact absurd hj.state hnew
    · exact ⟨e, he, rfl, rfl, rfl⟩
    · exact ⟨x, hr.mem_iff.mpr (by simp [hx]), rfl, rfl, rfl⟩
  refine ⟨hj.base h.base, ?_, fun x hx hpid => ?_, fun x hx hpid hrun _ => ?_⟩
  · obtain ⟨y, hy, hpid⟩ := h.exists_idle
    rcases List.mem_cons.mp (hr.mem_iff.mp hy) with rfl | hy
    · exact ⟨y.bear, hj.mem_iff.mpr (by simp), hpid⟩
    · exact ⟨y, hj.mem_iff.mpr (by simp [hy]), hpid⟩
  · by_cases hnew : x.proc.state = .new
    · simp [hnew]
    · obtain ⟨y, hy, -, hypid, hstate⟩ := hold x hx hnew
      rw [← hstate]
      exact h.awake y hy (hypid.trans hpid)
  · obtain ⟨y, hy, hnode, hypid, hstate⟩ := hold x hx (by simp [hrun])
    rw [hj.currentNode, ← hnode]
    exact h.alone y hy (hypid.trans hpid) (hstate.trans hrun) hin

/-- While no process with pid 0 runs, another one may be picked. -/
theorem Idles.picks (h : Idles s ring) (hrest : Rests ring) (hp : Picks s t ring x) :
    Idles t (ring.map (picked x)) where
  base := hp.base h.base
  exists_idle := by
    obtain ⟨y, hy, hpid⟩ := h.exists_idle
    exact ⟨picked x y, List.mem_map_of_mem hy, (picked_pid x y).trans hpid⟩
  awake := by
    intro z hz hpid
    obtain ⟨y, hy, rfl⟩ := List.mem_map.mp hz
    rw [picked_pid] at hpid
    rw [picked_proc]
    split_ifs
    · simp [Process.enter]
    · exact h.awake y hy hpid
  alone := by
    intro z hz hpid hrun _
    obtain ⟨y, hy, rfl⟩ := List.mem_map.mp hz
    rw [picked_pid] at hpid
    rw [picked_proc] at hrun
    split_ifs at hrun with hsame
    · obtain rfl := h.base.shows.procAddr_inj hy hp.mem hsame
      rw [(keepsShape_picked y).node, hp.globals]
    · exact absurd hrun (hrest y hy hpid)

/-- Whenever a process leaves the processor, none with pid 0 runs. -/
theorem Idles.searches (h : Idles s ring) (hc : ¬ c.Stops s 0)
    (hs : Searches c s ring start t ring') : Idles t ring' ∧ Rests ring' := by
  have hrests : ∀ {u : Kernel H} {g : Entry → Entry}, Idles u (ring.map g) →
      Quiet (c.Stops s) (c.grounds s).1 (c.grounds s).2 s u ring g →
      s.currentNode ∈ ring.map Entry.node → Settled (c.Stops s) u (ring.map g) →
      Rests (ring.map g) := by
    intro u g hu hq hcur hsettled x hx hpid hrun
    have hxcur := hu.alone x hx hpid hrun (by rwa [keepsShape_nodes hq.shape, hq.globals])
    rcases hsettled x hx hxcur with hidle | hstop
    · exact hidle hrun
    · exact hc (hpid ▸ hstop)
  cases hs with
  | left _ hq hsettled hcur _ =>
    have ht := h.quiet hq hc
    exact ⟨ht, hrests ht hq hcur hsettled⟩
  | @replaced u g v _ hq hsettled hcur _ hvmem hvictim hl =>
    have hu := h.quiet hq hc
    have hrest := hrests hu hq hcur hsettled
    have hpid : (g v).proc.pid ≠ 0 := by
      rw [(hq.changed v hvmem).pid]
      exact fun h0 => hc (h0 ▸ Call.stops_victim h.base.shows hvmem hvictim)
    refine ⟨hu.leaves hpid hl, fun x hx hxpid hrun => ?_⟩
    obtain ⟨y, hy, -, hsur⟩ := (hl.survives hu.base.shows).1 x hx
    refine hrest y hy (hsur.pid.symm.trans hxpid) ?_
    rcases hsur.state with hsame | hready
    · exact hsame.symm.trans hrun
    · simp [hready] at hrun

/-- Then one with pid 0 waits for its turn. -/
theorem Idles.exists_ready (h : Idles s ring) (hrest : Rests ring) :
    ∃ x ∈ ring, x.isReady = true := by
  obtain ⟨x, hx, hpid⟩ := h.exists_idle
  obtain ⟨hblocked, hkilled⟩ := h.awake x hx hpid
  have hrun := hrest x hx hpid
  refine ⟨x, hx, ?_⟩
  cases hstate : x.proc.state with
  | ready => simp [Entry.isReady, hstate]
  | new => simp [Entry.isReady, hstate]
  | running => exact absurd hstate hrun
  | blocked => exact absurd hstate hblocked
  | killed => exact absurd hstate hkilled

theorem Idles.outcome (h : Idles s ring) (hc : ¬ c.Stops s 0) (ho : Outcome c s ring s' ring') :
    Idles s' ring' := by
  cases ho with
  | stay _ hq => exact h.quiet hq hc
  | @removed _ g v _ hq hv hvictim hl =>
    refine (h.quiet hq hc).leaves ?_ hl
    rw [(hq.changed v hv).pid]
    exact fun h0 => hc (h0 ▸ Call.stops_victim h.base.shows hv hvictim)
  | joined _ hr hcur hj _ => exact h.joins hr hcur hj
  | searched _ hsearch hpicks =>
    obtain ⟨ht, hrest⟩ := h.searches hc hsearch
    exact ht.picks hrest hpicks

/-! ## Runs -/

/-- The step blocks and kills no process with pid 0. A call of `scheduler` cannot. -/
def SparesIdle (s : Kernel H) (c : Call) : Prop :=
  match c with
  | .schedule _ => True
  | c => ¬ c.Stops s 0

omit [Allocator H] in
instance sparesIdleDecidable (s : Kernel H) (c : Call) : Decidable (SparesIdle s c) :=
  match c with
  | .schedule _ => isTrue trivial
  | .finishScheduler => inferInstanceAs (Decidable (¬ _))
  | .addProcess .. => inferInstanceAs (Decidable (¬ False))
  | .killProcess _ => inferInstanceAs (Decidable (¬ _))
  | .killOther _ => inferInstanceAs (Decidable (¬ _))
  | .killCurrentProcess => inferInstanceAs (Decidable (¬ _))
  | .killForegroundProc => inferInstanceAs (Decidable (¬ _))
  | .blockProcess _ => inferInstanceAs (Decidable (¬ _))
  | .readyProcess _ => inferInstanceAs (Decidable (¬ False))
  | .waitPid => inferInstanceAs (Decidable (¬ _))
  | .forceCurrentYield => inferInstanceAs (Decidable (¬ False))

theorem Idles.spares (h : Idles s ring) (hc : SparesIdle s c) : ¬ c.Stops s 0 := by
  cases c with
  | schedule sp =>
    rintro ⟨hexits, hpid⟩
    obtain ⟨p, hp, -⟩ := Option.map_eq_some_iff.mp hexits.2.2
    obtain ⟨e, he, hcur, rfl, -⟩ := (Tweak.refl (fun _ => False) h.base.shows).quiet.procOf_current
      h.base.shows hp
    rw [← hcur, h.base.shows.pidOf he] at hpid
    exact (h.awake e he hpid.symm).2 ((h.base.shows.exits he hcur).mp hexits).2.2
  | _ => exact hc

theorem Starts.idles (h : Starts s e) : Idles s [e] where
  base := h.base
  exists_idle := ⟨e, by simp, h.pid⟩
  awake x hx _ := by simp [List.mem_singleton.mp hx, h.state]
  alone x hx _ _ _ := by rw [List.mem_singleton.mp hx, h.current]

/-- In every run of sound steps without such a step, `find_next_ready` comes to an end whenever
`scheduler` calls it, and returns the first node from its argument on that is READY or NEW. It is
not called with a node that has been freed, at which the run would end without a word (`Intact`). -/
theorem find_next_ready_ends {s₀ s s' : Kernel H} {idle : ℕ} {cs : List Call} (hs : Booting s₀)
    (hinit : initScheduler interrupt idle s₀ = .ok () s) (hfirst : s.first ≠ 0)
    (hspared : Throughout step (fun s c => SparesIdle s c ∧ Sound s c) s cs)
    (hrun : run step s cs = some s') :
    Intact s' ∧ (∀ sp start t, schedulerUpTo interrupt sp s' = .ok (.inr start) t →
      scheduler interrupt sp s' = resume (.inr start) t ∧ FindsNext t start) ∧
    (s'.pidOf s'.currentNode ≠ 0 → s'.nodeOf (s'.pidOf s'.currentNode) = s'.currentNode →
      ∀ start t, finishKill s' = .ok start t → FindsNext t start) := by
  obtain ⟨e, he⟩ := starts_of_init hs hinit hfirst
  obtain ⟨ring, hidles⟩ : ∃ ring, Idles s' ring := by
    refine run_preserves (I := fun s => ∃ ring, Idles s ring) ⟨_, he.idles⟩ hspared ?_ hrun
    rintro s c s' ⟨ring, h⟩ ⟨hc, -⟩ hstep
    obtain ⟨ring', ho⟩ := step_outcome h.base hstep
    exact ⟨ring', h.outcome (h.spares hc) ho⟩
  have hfinds : ∀ {c : Call} {start t}, ¬ c.Stops s' 0 →
      c.victim s' = s'.currentNode ∨ c.victim s' = 0 →
      (∃ ring', Searches c s' ring start t ring') → FindsNext t start := by
    rintro c start t hc hvictim ⟨ring', hsearch⟩
    obtain ⟨ht, hrest⟩ := hidles.searches hc hsearch
    refine ht.base.shows.findsNext ?_ (ht.exists_ready hrest)
    cases hsearch with
    | left _ hq _ _ hstart => rwa [keepsShape_nodes hq.shape]
    | @replaced u g v _ hq _ _ hstart hv hnode hl =>
      have hne := hidles.base.shows.node_ne_zero hv
      rcases hvictim with hcur | h0
      · have hmem := hl.node_mem
        rwa [hq.shape.node, hnode, hcur, ← hstart] at hmem
      · exact absurd (hnode.trans h0) hne
  obtain ⟨ring', hhandled⟩ :=
    handled_of_run hs hinit hfirst (hspared.mono fun _ _ hc => hc.2.1) hrun
  refine ⟨hhandled.intact, fun sp start t h => ⟨by rw [scheduler_eq, bind_of_ok h], ?_⟩,
    fun hpid hself start t h => ?_⟩
  · refine hfinds (c := .schedule sp) (hidles.spares trivial) ?_
      ((ends_schedulerUpTo hidles.base).of_ok h)
    rw [Call.victim]
    split_ifs
    · exact Or.inl rfl
    · exact Or.inr rfl
  · exact hfinds (c := .finishScheduler) (fun h0 => hpid h0.symm) (Or.inl hself)
      ((ends_finishKill hidles.base).of_ok h)

/-- The idle process yields to one that it has made. -/
theorem find_next_ready_ends_yield : ∃ (s s' t : Kernel FirstFitHeap) (start : ℕ),
    initScheduler interrupt 0 loaded = .ok () s ∧
      run step s [.addProcess 0 [] 0 1 3 0, .forceCurrentYield] = some s' ∧
      schedulerUpTo interrupt 0 s' = .ok (.inr start) t ∧ FindsNext t start := by
  have hcheck : (booted.bind fun s =>
      (runIf step (fun s c => SparesIdle s c ∧ Sound s c) s
        [.addProcess 0 [] 0 1 3 0, .forceCurrentYield]).map fun s' =>
        match schedulerUpTo interrupt 0 s' with
        | .ok (.inr _) _ => true
        | _ => false) = some true := by decide +kernel
  obtain ⟨s, hs, hcheck⟩ := Option.bind_eq_some_iff.mp hcheck
  obtain ⟨s', hrun, hsearch⟩ := Option.map_eq_some_iff.mp hcheck
  obtain ⟨hrun, hspared⟩ := run_of_runIf hrun
  have hfirst : s.first ≠ 0 := by simpa [hs] using booted_first
  have hinit := initScheduler_of_outcome booting_loaded hs hfirst
  have hends := find_next_ready_ends booting_loaded hinit hfirst hspared hrun
  split at hsearch
  · next start t hupto =>
    exact ⟨s, s', t, start, hinit, hrun, hupto, (hends.2.1 0 start t hupto).2⟩
  · exact absurd hsearch (by simp)

/-- The idle process makes another one, blocks it, and is blocked itself. -/
theorem idle_blocked : ∃ (s s' t : Kernel FirstFitHeap) (start : ℕ),
    initScheduler interrupt 0 loaded = .ok () s ∧
      run step s [.addProcess 0 [] 0 1 3 0, .blockProcess 1, .schedule 0, .blockProcess 0] =
        some s' ∧
      schedulerUpTo interrupt 0 s' = .ok (.inr start) t ∧
      findNextReady start t = .error .diverges t ∧ ¬ FindsNext t start := by
  have hcheck : (booted.bind fun s => (run step s [.addProcess 0 [] 0 1 3 0, .blockProcess 1,
      .schedule 0, .blockProcess 0]).map fun s' =>
        match schedulerUpTo interrupt 0 s' with
        | .ok (.inr start) t => decide ((t.passes start).bind t.passes = some start)
        | _ => false) = some true := by decide +kernel
  obtain ⟨s, hs, hcheck⟩ := Option.bind_eq_some_iff.mp hcheck
  obtain ⟨s', hrun, hsearch⟩ := Option.map_eq_some_iff.mp hcheck
  have hfirst : s.first ≠ 0 := by simpa [hs] using booted_first
  have hinit := initScheduler_of_outcome booting_loaded hs hfirst
  split at hsearch
  · next start t hupto =>
    obtain ⟨b, hb, hback⟩ := Option.bind_eq_some_iff.mp (of_decide_eq_true hsearch)
    have hdiverges : findNextReady start t = .error .diverges t :=
      (findNextReadyLoop_pair hb hback _).1
    refine ⟨s, s', t, start, hinit, hrun, hupto, hdiverges, ?_⟩
    rintro ⟨l, a, -, -, -, hok⟩
    rw [hdiverges] at hok
    cases hok
  · exact absurd hsearch (by simp)

end Lives

end TronKernel.Sched
