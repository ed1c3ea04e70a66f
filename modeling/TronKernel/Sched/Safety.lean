import TronKernel.Sched.Handles
import TronKernel.Sched.Unlink

/-!
# No step uses memory that is not there

A run of the model ends without a word where the code follows a pointer to a freed node, or one that
a failed `malloc` has left NULL. A step is `Sound` if it leaves no pointer to a node that it frees,
a process that it removes has an argument list and writes to an output that exists, and a process
that it makes gets its memory. From a ring with all pointers in it a sound step does not fault
(`Handled.safe_run`), and so nothing is missing from the runs of such steps.
-/

namespace TronKernel.Sched

open Programs CircularList Sem

variable {H α β : Type} {s s' t : Kernel H} {ring ring' l : List Entry} {c e v x : Entry} {a : ℕ}

/-- The program uses no memory that is not there. -/
def Safe (m : Op H α) (s : Kernel H) : Prop := ∀ t, m s ≠ .error .fault t

variable {m : Op H α} {f : α → Op H β}

theorem Safe.of_ok {r : α} (h : m s = .ok r t) : Safe m s := fun u hu => by
  rw [h] at hu
  cases hu

theorem Safe.of_error {e : Stop} (h : m s = .error e t) (hne : e ≠ .fault) : Safe m s :=
  fun u hu => by
  rw [h] at hu
  injection hu with he
  exact hne he

/-- The rest of the program is safe from wherever its first part leads to. -/
theorem Safe.bind (hm : Safe m s) (hf : ∀ r t, m s = .ok r t → Safe (f r) t) :
    Safe (m >>= f) s := by
  cases hrun : m s with
  | ok r t =>
    intro u hu
    rw [bind_of_ok hrun] at hu
    exact hf r t hrun u hu
  | error e t =>
    refine .of_error (bind_of_error hrun) fun he => hm t ?_
    rw [hrun, he]

theorem Safe.ok_bind {r : α} (h : m s = .ok r t) (hf : Safe (f r) t) : Safe (m >>= f) s :=
  Safe.bind (.of_ok h) fun r' t' h' => by
    rw [h] at h'
    injection h' with hr ht
    exact hr ▸ ht ▸ hf

theorem safe_pure (r : α) : Safe (pure r : Op H α) s := .of_ok rfl

theorem safe_interrupt : Safe (interrupt : Op H Unit) s := .of_error rfl (by simp)

theorem Safe.get_bind {f : Kernel H → Op H β} (h : Safe (f s) s) : Safe (get >>= f) s := h

theorem Safe.modify_bind {g : Kernel H → Kernel H} {f : Unit → Op H β} (h : Safe (f ()) (g s)) :
    Safe (modify g >>= f) s := h

/-- There is such a pipe, or it is none. -/
def Target.Exists : Target → Prop
  | .pipe i => 0 ≤ i ∧ i < MAX_PIPES
  | _ => True

instance targetExistsDecidable (d : Target) : Decidable d.Exists :=
  match d with
  | .pipe i => inferInstanceAs (Decidable (0 ≤ i ∧ i < MAX_PIPES))
  | .nothing => isTrue trivial
  | .screen => isTrue trivial
  | .keyboard => isTrue trivial

variable [Allocator H]

namespace Lives

variable {T : ℕ → Prop} {fg bg : ℕ} {g : Entry → Entry} {d : Call}

/-! ## The condition -/

/-- `destroy_node` for this node, if the current process has its parent in the ring: there is a node
behind it which is not the current one, its process has an argument list, and the end of file that
the current process writes for it goes to an output that exists. -/
def Removable (s : Kernel H) (a : ℕ) : Prop :=
  s.next a ≠ s.currentNode ∧ ∀ e ∈ s.procOf s.currentNode, ∀ v ∈ s.procOf a,
    v.argv ≠ 0 ∧ (writeTarget v.writeFd 1 e.writeFd).Exists

omit [Allocator H] in
instance removableDecidable (s : Kernel H) (a : ℕ) : Decidable (Removable s a) :=
  inferInstanceAs (Decidable (_ ∧ ∀ e ∈ s.procOf s.currentNode, ∀ v ∈ s.procOf a, _))

/-- `destroy_node` for this node comes to an end. -/
def Destroyable (s : Kernel H) (a : ℕ) : Prop :=
  (∀ p, s.procOf s.currentNode = some p → s.nodeOf p.ppid = 0) ∨ Removable s a

/-- A process that the step removes is removable. -/
def Removes (s : Kernel H) (c : Call) : Prop := c.Spares s ∨ Removable s (c.victim s)

omit [Allocator H] in
instance removesDecidable (s : Kernel H) (c : Call) : Decidable (Removes s c) :=
  inferInstanceAs (Decidable (_ ∨ _))

/-- What is needed besides: `newProcess` gets its memory and an `argc` that is not negative, and
`kill_foreground_proc` has a process to kill. -/
def Provided (s : Kernel H) : Call → Prop
  | .addProcess name argv readFd writeFd priority _ =>
    0 ≤ toInt (countArgv argv) ∧
      ∀ t, makeProcess interrupt name argv readFd writeFd priority s ≠ .ok 0 t
  | .killForegroundProc => s.background = 0 ∨ s.foreground ≠ 0
  | _ => True

instance neverNullDecidable (m : Op H ℕ) (s : Kernel H) : Decidable (∀ t, m s ≠ .ok 0 t) :=
  match m s with
  | .ok 0 t => isFalse fun hne => hne t rfl
  | .ok (_ + 1) _ => isTrue fun _ => by simp
  | .error _ _ => isTrue fun _ => by simp

instance providedDecidable (s : Kernel H) (c : Call) : Decidable (Provided s c) :=
  match c with
  | .addProcess name argv readFd writeFd priority _ =>
    inferInstanceAs (Decidable (_ ∧ ∀ t, makeProcess interrupt name argv readFd writeFd priority s ≠
      .ok 0 t))
  | .killForegroundProc => inferInstanceAs (Decidable (_ ∨ _))
  | .schedule _ => isTrue trivial
  | .finishScheduler => isTrue trivial
  | .killProcess _ => isTrue trivial
  | .killOther _ => isTrue trivial
  | .killCurrentProcess => isTrue trivial
  | .blockProcess _ => isTrue trivial
  | .readyProcess _ => isTrue trivial
  | .waitPid => isTrue trivial
  | .forceCurrentYield => isTrue trivial

/-- The step uses no memory that is not there, and leaves no pointer to a node that it frees. -/
def Sound (s : Kernel H) (c : Call) : Prop := Apart s c ∧ Removes s c ∧ Provided s c

instance soundDecidable (s : Kernel H) (c : Call) : Decidable (Sound s c) :=
  inferInstanceAs (Decidable (_ ∧ _ ∧ _))

/-! ## Removing a process -/

/-- A ring that `first` and `currentNode` are in. -/
structure Steady (s : Kernel H) (ring : List Entry) : Prop where
  base : Base s ring
  first : s.first ∈ ring.map Entry.node
  current : s.currentNode ∈ ring.map Entry.node

theorem Handled.steady (h : Handled s ring) : Steady s ring := ⟨h.base, h.first, h.current⟩

theorem Steady.quiet (h : Steady s ring) (hq : Quiet T fg bg s t ring g) :
    Steady t (ring.map g) where
  base := hq.base h.base
  first := by
    rw [keepsShape_nodes hq.shape, hq.globals]
    exact h.first
  current := by
    rw [keepsShape_nodes hq.shape, hq.globals]
    exact h.current

/-- The entry of the current process. -/
theorem Steady.exists_current (h : Steady s ring) : ∃ e ∈ ring, e.node = s.currentNode :=
  List.mem_map.mp h.current

theorem Steady.findNode (h : Steady s ring) (pid : ℕ) :
    (∃ x ∈ ring, x.proc.pid = pid ∧ Sched.findNode pid s = .ok x.node s) ∨
      Sched.findNode pid s = .ok 0 s :=
  (findNode_cases h.base.shows h.first pid).imp_right And.right

theorem Steady.destroyNode (h : Steady s ring) (hv : v ∈ ring) (hok : Destroyable s v.node) :
    ∃ s', Sched.destroyNode interrupt v.node s = .ok () s' := by
  obtain ⟨c, hc, hcur⟩ := h.exists_current
  have hs := h.base.shows
  obtain ⟨parent, hfind⟩ : ∃ parent, Sched.findNode c.proc.ppid s = .ok parent s := by
    rcases h.findNode c.proc.ppid with ⟨x, -, -, hfind⟩ | hfind
    · exact ⟨_, hfind⟩
    · exact ⟨_, hfind⟩
  by_cases h0 : parent = 0
  · refine ⟨s, ?_⟩
    rw [Sched.destroyNode, bind_of_ok (hs.currentProc hc hcur), bind_of_ok (hs.procAt hc),
      bind_of_ok hfind, if_pos h0]
    rfl
  have hparent : s.nodeOf c.proc.ppid = parent := nodeOf_eq hfind
  have hproc := hs.procOf hc
  rw [hcur] at hproc
  rcases hok with hnone | ⟨hbehind, hremovable⟩
  · exact absurd (hparent.symm.trans (hnone _ hproc)) h0
  obtain ⟨hargv, hout⟩ := hremovable _ hproc _ (hs.procOf hv)
  obtain ⟨l, hr⟩ := exists_isRotated_cons hv
  -- the node behind is not the victim's own: it would be the current one
  cases l with
  | nil =>
    have hnext : s.next v.node = v.node := isRing_singleton.mp (hs.rotated hr).isRing
    obtain rfl := List.mem_singleton.mp (hr.mem_iff.mp hc)
    exact absurd (hnext.trans hcur) hbehind
  | cons w l =>
    have hd : s.disableCount < 2 ^ 31 - 1 := by
      rw [h.base.enabled]
      decide
    have hpipe : Unawaited s v.proc.writeFd c.proc := by
      intro i hi
      rw [hi] at hout
      exact ⟨hout, fun hopen => absurd (h.base.pipes i.toNat) hopen⟩
    have hreturns := destroyNode_iff (hs.rotated hr) ((hr.map Entry.node).mem_iff.mp h.first)
      (hr.mem_iff.mp hc) hcur hfind h0 h.base.proc.takeable hd
    obtain ⟨_, s', hrun⟩ := hreturns.mpr ⟨hargv, hpipe⟩
    exact ⟨s', hrun⟩

/-- Assignments change none of this. -/
theorem Quiet.destroyable (hq : Quiet T fg bg s t ring g) (hs : Shows s ring) (hv : v ∈ ring)
    (hok : Destroyable s v.node) : Destroyable t v.node := by
  have hcur : t.currentNode = s.currentNode := by rw [hq.globals]
  have hback : ∀ a p, t.procOf a = some p → ∃ x ∈ ring, x.node = a ∧ p = (g x).proc := by
    intro a p hp
    obtain ⟨y, hy, hnode, rfl⟩ := hq.shows.mem_of_procOf hp
    obtain ⟨x, hx, rfl⟩ := List.mem_map.mp hy
    exact ⟨x, hx, (hq.shape.node x).symm.trans hnode, rfl⟩
  rw [Destroyable, hcur]
  refine hok.imp (fun hnone p hp => ?_) fun ⟨hbehind, hremovable⟩ => ⟨?_, fun p hp q hq' => ?_⟩
  · obtain ⟨x, hx, hnode, rfl⟩ := hback _ _ hp
    rw [hq.nodeOf hs, (hq.changed x hx).ppid]
    exact hnone _ (hnode ▸ hs.procOf hx)
  · rw [hq.next hs hv, hcur]
    exact hbehind
  · rw [hcur] at hp
    obtain ⟨x, hx, hxnode, rfl⟩ := hback _ _ hp
    obtain ⟨y, hy, hynode, rfl⟩ := hback _ _ hq'
    rw [(hq.changed x hx).writeFd, (hq.changed y hy).writeFd, hq.shape.argv]
    exact hremovable _ (hxnode ▸ hs.procOf hx) _ (hynode ▸ hs.procOf hy)

/-! ## The calls -/

/-- An assignment to a process of the ring. -/
theorem Tweak.edit_ok (h : Shows s ring) (hx : x ∈ ring) {f : Process → Process}
    (hblocks : KeepsBlocks f) (hf : Changed T x.proc (f x.proc)) :
    ∃ t, editProc x.procAddr f s = .ok () t ∧ Tweak T s t ring (Entry.edit x.procAddr f) := by
  refine ⟨_, ?_, Tweak.edit h hx hblocks hf⟩
  rw [editProc, bind_of_ok (h.procAt hx)]
  rfl

theorem Quiet.safe_killOther (hq : Quiet T fg bg s t ring g) (h : Steady s ring) {pid : ℕ}
    (hT : T pid) (hok : s.nodeOf pid = 0 ∨ Destroyable s (s.nodeOf pid)) :
    Safe (Sched.killOther interrupt pid) t := by
  have ht := h.quiet hq
  rw [Sched.killOther]
  rcases findNode_cases ht.base.shows ht.first pid with ⟨x, hx, hpid, hfind⟩ | ⟨-, hfind⟩
  · obtain ⟨v, hv, rfl⟩ := List.mem_map.mp hx
    have hnode : v.node = s.nodeOf pid := by
      rw [← hq.nodeOf h.base.shows, nodeOf_eq hfind, hq.shape.node]
    refine .ok_bind hfind ?_
    rw [if_neg (hq.shows.node_ne_zero hx), hq.shape.node]
    -- the process is marked
    obtain ⟨u, hedit, htweak⟩ := Tweak.edit_ok (T := T) hq.shows hx
      (f := fun p => { p with state := .killed }) (fun _ => ⟨rfl, rfl⟩)
      ⟨rfl, rfl, rfl, rfl, Or.inr (Or.inr ⟨hpid ▸ hT, Or.inr rfl⟩), Or.inl rfl⟩
    have hmark := hq.tweak htweak
    have hfound := hq.shows.nodeAt hx
    rw [hq.shape.node] at hfound
    refine .ok_bind hfound (.ok_bind hedit ?_)
    have hv' := List.mem_map_of_mem (f := fun x => Entry.edit (g v).procAddr
      (fun p => { p with state := .killed }) (g x)) hv
    have hat := hmark.shows.nodeAt hv'
    have hproc := hmark.shows.procAt hv'
    rw [edit_node, hq.shape.node] at hat
    rw [edit_procAddr] at hat hproc
    refine .ok_bind hat (.ok_bind hproc ?_)
    -- and removed
    have hgoes := hmark.destroyable h.base.shows hv
      ((hok.resolve_left (hnode ▸ h.base.shows.node_ne_zero hv)).imp_right fun hr => hnode ▸ hr)
    have hgone := (h.quiet hmark).destroyNode hv' (by rwa [edit_node, hq.shape.node])
    rw [edit_node, hq.shape.node] at hgone
    obtain ⟨w, hdestroy⟩ := hgone
    exact .ok_bind hdestroy (safe_pure _)
  · refine .ok_bind hfind ?_
    rw [if_pos rfl]
    exact safe_pure _

theorem Steady.safe_killCurrentProcess (h : Steady s ring) :
    Safe (Sched.killCurrentProcess interrupt) s := by
  obtain ⟨e, he, hcur⟩ := h.exists_current
  obtain ⟨t, hedit, -⟩ := h.base.shows.editProc he (f := fun p => { p with state := .killed })
    fun _ => ⟨rfl, rfl⟩
  exact .ok_bind (h.base.shows.currentProc he hcur) (.ok_bind hedit safe_interrupt)

/-- `kill_process` stops at the current process, or goes on to `killOther`. -/
theorem Quiet.safe_killProcess (hq : Quiet T fg bg s t ring g) (h : Steady s ring) {pid : ℕ}
    (hT : T pid) (hok : s.pidOf s.currentNode = pid ∨ s.nodeOf pid = 0 ∨
      Destroyable s (s.nodeOf pid)) : Safe (Sched.killProcess interrupt pid) t := by
  obtain ⟨e, he, hcur⟩ := h.exists_current
  have hge := List.mem_map_of_mem (f := g) he
  have hgcur : (g e).node = t.currentNode := by
    rw [hq.shape.node, hcur, hq.globals]
  rw [Sched.killProcess]
  refine Safe.bind ?_ fun _ u hu => ?_
  · rw [killIfCurrent]
    refine .ok_bind (hq.shows.currentProc hge hgcur) (.ok_bind (hq.shows.procAt hge) ?_)
    split_ifs
    · exact (h.quiet hq).safe_killCurrentProcess
    · exact safe_pure _
  · -- the call has come back, and so this is another process
    rw [killIfCurrent, bind_of_ok (hq.shows.currentProc hge hgcur),
      bind_of_ok (hq.shows.procAt hge)] at hu
    split_ifs at hu with hsame
    · obtain ⟨w, hedit, -⟩ := hq.shows.editProc hge (f := fun p => { p with state := .killed })
        fun _ => ⟨rfl, rfl⟩
      rw [Sched.killCurrentProcess, bind_of_ok (hq.shows.currentProc hge hgcur), bind_of_ok hedit]
        at hu
      cases hu
    · obtain rfl : t = u := by
        injection hu
      refine hq.safe_killOther h hT (hok.resolve_left fun heq => hsame ?_)
      rw [(hq.changed e he).pid, ← h.base.shows.pidOf he, hcur, heq]

/-- An assignment to the process in the foreground. -/
theorem Quiet.editForeground (hq : Quiet T fg bg s t ring g) (hfg : fg ∈ ring.map Entry.node)
    {f : Process → Process} (hblocks : KeepsBlocks f) (hf : ∀ p, Changed T p (f p)) :
    ∃ u k, (do editProc (← foregroundProc) f : Op H Unit) t = .ok () u ∧
      Quiet T fg bg s u ring k := by
  obtain ⟨x, hx, rfl⟩ := List.mem_map.mp hfg
  have hgx := List.mem_map_of_mem (f := g) hx
  obtain ⟨u, hedit, htweak⟩ := Tweak.edit_ok hq.shows hgx hblocks (hf (g x).proc)
  refine ⟨u, _, ?_, hq.tweak htweak⟩
  rw [bind_of_ok (hq.shows.foregroundProc hgx (by rw [hq.shape.node, hq.globals]))]
  exact hedit

theorem Tweak.safe_killForegroundProc (ht : Tweak T s t ring g) (h : Handled s ring)
    (hT : s.background ≠ 0 → T (s.pidOf s.foreground))
    (hfg : s.background = 0 ∨ s.foreground ≠ 0)
    (hok : s.background ≠ 0 → s.pidOf s.currentNode = s.pidOf s.foreground ∨
      s.nodeOf (s.pidOf s.foreground) = 0 ∨ Destroyable s (s.nodeOf (s.pidOf s.foreground))) :
    Safe (Sched.killForegroundProc interrupt) t := by
  have hbg : t.background = s.background := by rw [ht.globals]
  have hfgt : t.foreground = s.foreground := by rw [ht.globals]
  rw [Sched.killForegroundProc]
  apply Safe.get_bind
  by_cases h0 : s.background = 0
  · rw [if_neg (by rwa [hbg, not_not])]
    exact safe_pure _
  rw [if_pos (by rwa [hbg])]
  apply Safe.get_bind
  apply Safe.modify_bind
  -- the background process comes to the foreground
  have hin := h.background h0
  have h₁ := ht.quiet.setForeground t.background
  rw [hbg] at h₁ ⊢
  obtain ⟨u₂, k₂, hready, h₂⟩ := h₁.editForeground hin
    (f := fun p => { p with state := if p.state = .blocked then .ready else p.state })
    (fun _ => ⟨rfl, rfl⟩) fun p => ⟨rfl, rfl, rfl, rfl, by dsimp only; split_ifs <;> simp,
      Or.inl rfl⟩
  obtain ⟨u₃, k₃, hread, h₃⟩ := h₂.editForeground hin (f := fun p => { p with readFd := 0 })
    (fun _ => ⟨rfl, rfl⟩) fun p => ⟨rfl, rfl, rfl, rfl, Or.inl rfl, Or.inl rfl⟩
  refine .ok_bind hready ?_
  rw [← bind_assoc]
  refine .ok_bind hread ?_
  apply Safe.modify_bind
  have h₄ := h₃.setBackground 0
  -- and the one that was there is killed
  obtain ⟨x, hx, hnode⟩ := List.mem_map.mp (h.foreground (hfg.resolve_left h0))
  have hkx := List.mem_map_of_mem (f := k₃) hx
  have hat := h₄.shows.nodeAt hkx
  rw [h₄.shape.node, hnode, ← hfgt] at hat
  refine .ok_bind hat (.ok_bind (h₄.shows.procAt hkx) ?_)
  have hpid : (k₃ x).proc.pid = s.pidOf s.foreground := by
    rw [(h₄.changed x hx).pid, ← hnode, h.base.shows.pidOf hx]
  rw [hpid]
  exact (h₄.safe_killProcess h.steady (hT h0) (hok h0)).bind fun _ _ _ => safe_pure _

/-! ## `scheduler` -/

/-- A process that has not been killed goes on, or is left. -/
theorem Steady.safe_switchUpTo (h : Steady s ring) : Safe switchUpTo s := by
  obtain ⟨e, he, hcur⟩ := h.exists_current
  have hs := h.base.shows
  have hat := hs.nodeAt he
  rw [hcur] at hat
  rw [switchUpTo]
  refine .get_bind (.ok_bind hat (.ok_bind (hs.procAt he) ?_))
  split_ifs
  · exact safe_pure _
  · apply Safe.get_bind
    split_ifs
    · have hcount : Shows { s with forceYield := 0 } ring := hs.congr rfl rfl
      obtain ⟨t, hedit, -⟩ := hcount.editProc he (f := fun p => { p with state := .ready })
        fun _ => ⟨rfl, rfl⟩
      exact .modify_bind (.ok_bind hedit (safe_pure _))
    · exact .ok_bind (hs.currentProc he hcur) (.ok_bind (hs.procAt he) (safe_pure _))

theorem Handled.safe_schedulerUpTo (h : Handled s ring) {sp : ℕ} (hc : Sound s (.schedule sp)) :
    Safe (schedulerUpTo interrupt sp) s := by
  obtain ⟨e, he, hcur⟩ := h.steady.exists_current
  have hs := h.base.shows
  rw [schedulerUpTo]
  apply Safe.get_bind
  rw [if_neg (not_not.mpr h.base.enabled)]
  apply Safe.get_bind
  split_ifs with hone
  · exact safe_pure _
  obtain ⟨s₁, hedit, hsaved⟩ := Tweak.edit_ok (T := Call.Stops s (.schedule sp)) hs he
    (f := fun p => { p with sp := sp }) (fun _ => ⟨rfl, rfl⟩)
    ⟨rfl, rfl, rfl, rfl, Or.inl rfl, Or.inl rfl⟩
  refine .ok_bind (hs.currentProc he hcur) (.ok_bind hedit ?_)
  have hsteady := h.steady.quiet hsaved.quiet
  have hnode : s₁.currentNode = s.currentNode := by rw [hsaved.globals]
  have hge := List.mem_map_of_mem (f := Entry.edit e.procAddr fun p => { p with sp := sp }) he
  have hcur₁ := hsaved.shows.currentProc hge (by rw [edit_node, hcur, hnode])
  have hat₁ := hsaved.shows.procAt hge
  rw [edit_procAddr] at hcur₁ hat₁
  rw [edit_self] at hat₁
  refine .ok_bind hcur₁ (.ok_bind hat₁ ?_)
  dsimp only
  cases hstate : e.proc.state with
  | running =>
    apply Safe.get_bind
    obtain ⟨s₂, hcharge, hshows, hglob, -⟩ := hsaved.shows.editQuantums hge incr64
    rw [edit_node, hcur, ← hnode] at hcharge
    refine .ok_bind hcharge ?_
    have hbase : Base s₂ _ :=
      hsteady.base.congr hshows (by rw [hglob]) (by rw [hglob]) (by rw [hglob])
    refine Steady.safe_switchUpTo ⟨hbase, ?_, ?_⟩ <;>
      rw [keepsShape_nodes (keepsShape_charge _ _), hglob]
    · exact hsteady.first
    · exact hsteady.current
  | killed =>
    have hexits : s.Exits := (hs.exits he hcur).mpr ⟨h.base.enabled, hone, hstate⟩
    have hT : Call.Stops s (.schedule sp) (s.pidOf s.currentNode) := ⟨hexits, rfl⟩
    refine Safe.bind ?_ fun _ _ _ => .get_bind (safe_pure _)
    rw [schedulerDestroy]
    refine .ok_bind hcur₁ ?_
    -- what `foreground->proc` is
    obtain ⟨a, hground, ha⟩ : ∃ a, foregroundProc s₁ = .ok a s₁ ∧ a = s.ground s.foreground := by
      have hfg : s₁.foreground = s.foreground := by rw [hsaved.globals]
      by_cases h0 : s.foreground = 0
      · refine ⟨0, ?_, (if_pos h0).symm⟩
        rw [foregroundProc, get_bind, if_pos (hfg.trans h0)]
        rfl
      · obtain ⟨x, hx, hxfg⟩ := List.mem_map.mp (h.foreground h0)
        have hgx := List.mem_map_of_mem (f := Entry.edit e.procAddr fun p => { p with sp := sp }) hx
        refine ⟨_, hsaved.shows.foregroundProc hgx (by rw [edit_node, hxfg, hfg]), ?_⟩
        rw [edit_procAddr, ← hxfg, hs.ground hx]
    refine .ok_bind hground ?_
    split_ifs with hsame
    · replace hsame : s.current = s.ground s.foreground :=
        (hs.current he hcur).trans (hsame.trans ha)
      have hpids := foreground_eq_currentNode hs he hcur hsame
      have hne : s.foreground ≠ 0 := by
        rw [hpids, ← hcur]
        exact hs.node_ne_zero he
      exact hsaved.safe_killForegroundProc h (fun _ => hpids ▸ hT) (Or.inr hne)
        fun _ => Or.inl (by rw [hpids])
    · replace hsame : s.current ≠ s.ground s.foreground := fun heq =>
        hsame ((hs.current he hcur).symm.trans (heq.trans ha.symm))
      have hvictim : Call.victim s (.schedule sp) = s.currentNode := if_pos ⟨hexits, hsame⟩
      apply Safe.get_bind
      have hok : Destroyable s e.node := by
        have hremoves := hc.2.1
        rw [Removes, Call.Spares, hvictim] at hremoves
        rw [hcur]
        exact hremoves.imp_left fun hspares => hspares.resolve_left (hcur ▸ hs.node_ne_zero he)
      obtain ⟨u, hdestroy⟩ := hsteady.destroyNode hge
        (by rw [edit_node]; exact hsaved.quiet.destroyable hs he hok)
      rw [edit_node, hcur, ← hnode] at hdestroy
      exact .of_ok hdestroy
  | _ => exact hsteady.safe_switchUpTo

/-- `find_next_ready`, and what follows it each time. -/
theorem safe_dispatch {start : ℕ} (h : Shows s ring) (hstart : start ∈ ring.map Entry.node) :
    Safe (dispatch start) s := by
  obtain ⟨e, he, rfl⟩ := List.mem_map.mp hstart
  obtain ⟨l, hr⟩ := exists_isRotated_cons he
  rw [dispatch]
  rcases findNextReady_cases (h.rotated hr) with ⟨x, hfind, hok⟩ | ⟨-, hdiverges⟩
  · have hx : x ∈ ring := hr.mem_iff.mpr (List.mem_of_find?_eq_some hfind)
    have h₁ : Shows { s with currentNode := x.node } ring := h.congr rfl rfl
    obtain ⟨s₂, hedit, h₂, hglob, -⟩ := h₁.editProc hx (f := fun p => { p with state := .running })
      fun _ => ⟨rfl, rfl⟩
    have hx₂ :=
      List.mem_map_of_mem (f := Entry.edit x.procAddr fun p => { p with state := .running }) hx
    have hat := h₂.procAt hx₂
    have hnode := h₂.nodeAt hx₂
    rw [edit_procAddr] at hat
    rw [edit_node] at hnode
    have hcur : s₂.currentNode = x.node := by rw [hglob]
    refine .ok_bind hok (.modify_bind (.ok_bind (h₁.currentProc hx rfl) (.ok_bind hedit
      (.ok_bind hat (.get_bind ?_)))))
    rw [hcur]
    exact .ok_bind hnode (.of_ok rfl)
  · exact .of_error (bind_of_error hdiverges) (by simp)

/-- The node that `find_next_ready` is to start from is in the ring. -/
theorem Handled.start_mem (h : Handled s ring) (hc : Apart s d) {start : ℕ}
    (hsearch : Searches d s ring start t ring') : start ∈ ring'.map Entry.node := by
  cases hsearch with
  | left _ hq _ _ hstart => rwa [keepsShape_nodes hq.shape]
  | replaced hq _ _ hstart hv hvictim hl =>
    have hcur := (h.removed hc hq hv hvictim hl).current
    rwa [hl.currentNode, hq.globals, ← hstart] at hcur

theorem Handled.safe_schedule (h : Handled s ring) {sp : ℕ} (hc : Sound s (.schedule sp)) :
    Safe (scheduler interrupt sp) s := by
  rw [scheduler_eq]
  refine (h.safe_schedulerUpTo hc).bind fun r t hupto => ?_
  have hend := (ends_schedulerUpTo h.base).of_ok hupto
  cases r with
  | inl v => exact safe_pure v
  | inr start =>
    obtain ⟨ring', hsearch⟩ := hend
    have hshows := (hsearch.base h.base).shows
    have hstart := h.start_mem hc.1 hsearch
    refine (safe_dispatch hshows hstart).bind fun _ u hdispatch => ?_
    have hpicks : ∃ x, Picks t u ring' x :=
      (ends_dispatch_ring (Q := fun _ u => ∃ x, Picks t u ring' x) lenient_true hshows
        fun _ x hx => ⟨x, hx⟩).of_ok hdispatch
    obtain ⟨x, hx⟩ := hpicks
    have hmem := List.mem_map_of_mem (f := picked x) hx.mem
    have hcur : (picked x x).node = u.currentNode := by
      rw [(keepsShape_picked x).node, hx.globals]
    exact .ok_bind (hx.shows.currentProc hmem hcur) (.ok_bind (hx.shows.procAt hmem) (safe_pure _))

theorem Handled.safe_finishScheduler (h : Handled s ring) (hc : Sound s .finishScheduler) :
    Safe (finishKill >>= dispatch) s := by
  obtain ⟨e, he, hcur⟩ := h.steady.exists_current
  have hs := h.base.shows
  have hpid : s.pidOf s.currentNode = e.proc.pid := by rw [← hcur, hs.pidOf he]
  have hself : Safe finishKill s := by
    refine .ok_bind (hs.currentProc he hcur) (.ok_bind (hs.procAt he) ?_)
    refine Safe.bind ?_ fun _ _ _ => .get_bind (safe_pure _)
    have hvictim : Call.victim s .finishScheduler = s.nodeOf e.proc.pid := by
      rw [Call.victim, hpid]
    have hremoves := hc.2.1
    rw [Removes, Call.Spares, hvictim, or_assoc] at hremoves
    exact (Tweak.refl (Call.Stops s .finishScheduler) hs).quiet.safe_killOther h.steady hpid.symm
      hremoves
  refine hself.bind fun start t hfinish => ?_
  obtain ⟨ring', hsearch⟩ := (ends_finishKill h.base).of_ok hfinish
  exact safe_dispatch (hsearch.base h.base).shows (h.start_mem hc.1 hsearch)

/-! ## `add_process` -/

section AddProcess

variable {n : Node} {p q : Process} {proc name readFd writeFd priority isForeground : ℕ}
  {argv : List (List UInt8)}

omit [Allocator H] in
theorem currentProc_ok (hn : s.node? s.currentNode = some n) : currentProc s = .ok n.proc s := by
  rw [currentProc, get_bind, bind_of_ok (show nodeAt s.currentNode s = .ok n s by rw [nodeAt, hn])]
  rfl

omit [Allocator H] in
theorem procAt_ok (hp : s.process? a = some p) : procAt a s = .ok p s := by
  rw [procAt, hp]

/-- `newProcess` comes to an end, and makes a process if it does not return NULL. -/
theorem safe_makeProcess (hw : Within s) (hn : s.node? s.currentNode = some n)
    (hp : s.process? n.proc = some p) (hmutex : MutexFree s.semaphores PIDC_MUTEX.bytes)
    (henabled : s.disableCount = 0) (hargc : 0 ≤ toInt (countArgv argv)) :
    Safe (makeProcess interrupt name argv readFd writeFd priority) s := by
  have hd : s.disableCount < 2 ^ 31 - 1 := by
    rw [henabled]
    decide
  rw [makeProcess]
  refine .ok_bind (schedulerDisable_ok hd) ?_
  set s₀ : Kernel H := { s with disableCount := s.disableCount + 1 } with hs₀
  rcases newProcess_cases interrupt (s := s₀) hw name readFd writeFd (min priority 5) argv with
    ⟨s₁, hend, -⟩ | ⟨hneg, -⟩ | ⟨proc, saved, stack, args, own, s₁, hstart, hg, -, -, -⟩
  · exact .of_ok hend
  · exact absurd hneg (not_lt.mpr hargc)
  have hsame : Safe (startProcess interrupt name proc saved stack readFd writeFd (min priority 5))
      s₁ := by
    have hsem : s₁.semaphores = s.semaphores := by rw [hg.globals]
    have hdis : s₁.disableCount < 2 ^ 31 - 1 := by
      have hone : s₁.disableCount = s.disableCount + 1 := by rw [hg.globals]
      rw [hone, henabled]
      decide
    obtain ⟨r, hwait⟩ := semWait_free (s := s₁) interrupt (hsem ▸ hmutex)
    refine .ok_bind hwait (.get_bind (.modify_bind ?_))
    obtain ⟨r', hpost⟩ := semPost_held (t := s₁.semaphores)
      (s := { s₁ with
        semaphores := held s₁.semaphores PIDC_MUTEX.bytes
        pidc := incr64 s₁.pidc })
      (hsem ▸ hmutex) rfl hdis
    refine .ok_bind hpost ?_
    -- the current process is still there
    have hcur : s₁.currentNode = s.currentNode := by rw [hg.globals]
    have hn₁ : s₁.node? s₁.currentNode = some n := by
      rw [hcur, hg.node? hw]
      exact hn
    have hp₁ : s₁.process? n.proc = some p := by
      rw [hg.process? hw]
      exact hp
    refine Safe.bind ?_ fun _ _ _ => .of_ok rfl
    rw [getRunningPid]
    apply Safe.get_bind
    split_ifs
    · exact safe_pure _
    · exact .ok_bind (currentProc_ok hn₁) (.ok_bind (procAt_ok hp₁) (safe_pure _))
  intro t ht
  exact hsame t (hstart ▸ ht)

omit [Allocator H] in
/-- The end of `add_process`. -/
theorem safe_announce {newNode : ℕ} (hq : s.process? proc = some q) :
    Safe (do
      takeForeground isForeground newNode
      modify fun s => { s with counter := incr64 s.counter }
      schedulerEnable
      return (← procAt proc).pid : Op H ℕ) s := by
  refine .ok_bind (takeForeground_ok _ _) (.modify_bind (.ok_bind schedulerEnable_ok ?_))
  exact .ok_bind (procAt_ok hq) (safe_pure _)

/-- `add_process` behind `newProcess`, which has made the process. -/
theorem safe_registerProcess (hw : Within s) (hn : s.node? s.currentNode = some n)
    (hp : s.process? n.proc = some p) (hq : s.process? proc = some q)
    (hmutex : MutexFree s.semaphores PROC_MUTEX.bytes) (hd : s.disableCount < 2 ^ 31 - 1) :
    Safe (registerProcess interrupt proc isForeground) s := by
  -- the current process counts a child
  obtain ⟨r, hwait⟩ := semWait_free (s := s) interrupt hmutex
  set bear : Process → Process := fun p => { p with children := incr64 p.children } with hbear
  set s₁ : Kernel H := { s with semaphores := held s.semaphores PROC_MUTEX.bytes } with hs₁
  have hedit : editProc n.proc bear s₁ = .ok () (s₁.put n.proc (.process (bear p))) := by
    rw [editProc, bind_of_ok (procAt_ok (s := s₁) hp)]
    rfl
  obtain ⟨r', hpost⟩ := semPost_held (t := s.semaphores)
    (s := s₁.put n.proc (.process (bear p))) hmutex rfl hd
  rw [registerProcess]
  refine .ok_bind hwait (.ok_bind (currentProc_ok (s := s₁) hn)
    (.ok_bind hedit (.ok_bind hpost ?_)))
  set s₂ : Kernel H :=
    { s₁.put n.proc (.process (bear p)) with semaphores := s.semaphores } with hs₂
  have hn₂ : s₂.node? s₂.currentNode = some n :=
    (congrFun (node?_put_process (s := s₁) (node?_of_process hp) (bear p)) _).trans hn
  obtain ⟨q₂, hq₂⟩ : ∃ q₂, s₂.process? proc = some q₂ := by
    have hat := process?_put_process s₁ n.proc proc (bear p)
    split_ifs at hat
    · exact ⟨_, hat⟩
    · exact ⟨_, hat.trans hq⟩
  have hw₂ : Within s₂ := Within.put (s := s₁) hw (hw.process_live hp)
  -- `add_node`
  rw [addNode, bind_assoc]
  refine .ok_bind (malloc_ok _) ?_
  split_ifs with h0
  · exact safe_announce (s := s₂.afterMalloc sizeofNode) hq₂
  have hfresh := Allocator.malloc_fresh s₂.heap sizeofNode
  generalize (Allocator.malloc s₂.heap sizeofNode).2 = newNode at hfresh ⊢
  set s₃ := (s₂.afterMalloc sizeofNode).put newNode (.node ⟨q₂.priority, proc, n.next⟩) with hs₃
  have hnone : (s₂.afterMalloc sizeofNode).process? newNode = none := (hw₂.plain hfresh).2
  have hq₃ : s₃.process? proc = some q₂ := (congrFun (process?_put_node hnone _) proc).trans hq₂
  obtain ⟨m, hm⟩ : ∃ m, s₃.node? s₂.currentNode = some m := by
    have hat := node?_put_node (s₂.afterMalloc sizeofNode) newNode s₂.currentNode
      ⟨q₂.priority, proc, n.next⟩
    split_ifs at hat
    · exact ⟨_, hat⟩
    · exact ⟨_, hat.trans hn₂⟩
  simp only [bind_assoc, pure_bind]
  refine .get_bind (.ok_bind (procAt_ok (s := s₂.afterMalloc sizeofNode) hq₂) (.ok_bind ?_
    (.modify_bind (.ok_bind (editNode_ok hm _) (safe_announce (q := q₂) ?_)))))
  · show nodeAt s₂.currentNode (s₂.afterMalloc sizeofNode) = .ok n (s₂.afterMalloc sizeofNode)
    rw [nodeAt, show (s₂.afterMalloc sizeofNode).node? s₂.currentNode = some n from hn₂]
  · exact (congrFun (process?_put_node (process?_of_node hm) _) proc).trans hq₃

/-- `add_process`, where `newProcess` gets its memory. -/
theorem Steady.safe_addProcess (h : Steady s ring) (hargc : 0 ≤ toInt (countArgv argv))
    (hmade : ∀ t, makeProcess interrupt name argv readFd writeFd priority s ≠ .ok 0 t) :
    Safe (Sched.addProcess interrupt name argv readFd writeFd priority isForeground) s := by
  obtain ⟨e, he, hcur⟩ := h.exists_current
  have hw : Within s := h.base.shows.live
  have hn : s.node? s.currentNode = some ⟨e.quantums, e.procAddr, s.next e.node⟩ := by
    rw [← hcur, h.base.shows.node_at e he]
  have hp := h.base.shows.process_at e he
  have heq : (Sched.addProcess interrupt name argv readFd writeFd priority isForeground : Op H ℕ) =
      makeProcess interrupt name argv readFd writeFd priority >>= fun proc =>
        registerProcess interrupt proc isForeground := by
    rw [makeProcess, bind_assoc]
    rfl
  rw [heq]
  refine (safe_makeProcess hw hn hp h.base.pidc h.base.enabled hargc).bind fun proc t ht => ?_
  have hmakes : Ends (fun proc t => proc = 0 ∨ ∃ p args own d,
      Created s t proc p args own ∧ t.toGlobals =
        { s.toGlobals with pidc := incr64 s.pidc, disableCount := d } ∧ d < 2 ^ 31 - 1)
      (fun _ _ => True) (makeProcess interrupt name argv readFd writeFd priority) s := by
    rw [makeProcess, ends_bind]
    refine ends_schedulerDisable lenient_true fun d hd => ?_
    refine ends_newProcess lenient_true (s := { s with disableCount := d }) hw h.base.pidc
      (fun _ _ => Or.inl rfl) fun t proc args own saved ppid stack d₁ hc _ hd₁ hglob =>
        Or.inr ⟨_, args, own, d₁, ⟨hc.live, hc.kept, hc.within, hc.node?, hc.process?, hc.fresh,
          hc.stack_at, hc.args_at⟩, hglob, ?_⟩
    have hone : d = 1 := by
      rw [hd (by rw [h.base.enabled]; decide), h.base.enabled]
    subst hone
    have hsame : d₁ = 1 := hd₁ (show 1 < 2 ^ 31 - 1 by decide)
    rw [hsame]
    decide
  rcases hmakes.of_ok ht with h0 | ⟨q, args, own, d, hc, hglob, hd⟩
  · exact absurd (h0 ▸ ht) (hmade t)
  · have hne : e.procAddr ≠ proc := fun heq =>
      hc.fresh.not_live proc (by simp) (heq ▸ hw.process_live hp)
    have hcur' : t.currentNode = s.currentNode := by rw [hglob]
    refine safe_registerProcess hc.within (n := ⟨e.quantums, e.procAddr, s.next e.node⟩)
      (p := e.proc) (q := q) ?_ ?_ ?_ ?_ ?_
    · rw [hcur', hc.node?, hn]
    · rw [hc.process?, if_neg hne, hp]
    · rw [hc.process?, if_pos rfl]
    · rw [hglob]
      exact h.base.proc
    · rw [hglob]
      exact hd

end AddProcess

/-! ## All steps -/

/-- A sound step from a ring with all pointers in it uses no memory that is not there. -/
theorem Handled.safe_run (h : Handled s ring) (hc : Sound s d) : Safe d.run s := by
  have hs := h.base.shows
  obtain ⟨e, he, hcur⟩ := h.steady.exists_current
  have hquiet : ∀ T, Quiet T s.foreground s.background s s ring id :=
    fun T => (Tweak.refl T hs).quiet
  have hremoves := hc.2.1
  cases d with
  | schedule sp => exact (h.safe_schedule hc).bind fun _ _ _ => safe_pure _
  | finishScheduler => exact h.safe_finishScheduler hc
  | addProcess name argv readFd writeFd priority isForeground =>
    exact (h.steady.safe_addProcess hc.2.2.1 hc.2.2.2).bind fun _ _ _ => safe_pure _
  | killProcess pid =>
    refine ((hquiet fun q => q = pid).safe_killProcess h.steady rfl ?_).bind
      fun _ _ _ => safe_pure _
    by_cases hself : s.pidOf s.currentNode = pid
    · exact Or.inl hself
    · rw [Removes, Call.Spares, Call.victim, if_neg hself, or_assoc] at hremoves
      exact Or.inr hremoves
  | killOther pid =>
    rw [Removes, Call.Spares, Call.victim, or_assoc] at hremoves
    exact ((hquiet fun q => q = pid).safe_killOther h.steady rfl hremoves).bind
      fun _ _ _ => safe_pure _
  | killCurrentProcess => exact h.steady.safe_killCurrentProcess
  | killForegroundProc =>
    refine (Tweak.refl (fun _ => True) hs).safe_killForegroundProc h (fun _ => trivial) hc.2.2
      fun h0 => ?_
    by_cases hself : s.pidOf s.currentNode = s.pidOf s.foreground
    · exact Or.inl hself
    · rw [Removes, Call.Spares, Call.victim, if_neg (not_or.mpr ⟨h0, hself⟩), or_assoc] at hremoves
      exact Or.inr hremoves
  | blockProcess pid =>
    refine Safe.bind ?_ fun _ _ _ => safe_pure _
    rw [Sched.blockProcess]
    rcases h.steady.findNode pid with ⟨x, hx, -, hfind⟩ | hfind
    · refine .ok_bind hfind ?_
      rw [if_neg (hs.node_ne_zero hx)]
      obtain ⟨t, hedit, -⟩ := hs.editProc hx (f := fun p => { p with state := .blocked })
        fun _ => ⟨rfl, rfl⟩
      refine .ok_bind (hs.nodeAt hx) (.ok_bind hedit ?_)
      exact Safe.of_error (bind_of_error rfl) (by simp)
    · refine .ok_bind hfind ?_
      rw [if_pos rfl]
      exact safe_pure _
  | readyProcess pid =>
    refine Safe.bind ?_ fun _ _ _ => safe_pure _
    rcases hs.readyProcess h.first pid with ⟨x, -, -, t, hready, -⟩ | ⟨-, hready⟩
    · exact .of_ok hready
    · exact .of_ok hready
  | waitPid =>
    refine .ok_bind (hs.currentProc he hcur) (.ok_bind (hs.procAt he) ?_)
    split_ifs
    · obtain ⟨t, hedit, ht, hglob, -⟩ :=
        hs.editProc he (f := fun p => { p with blockedByChildren := 1 })
        fun _ => ⟨rfl, rfl⟩
      have he' := List.mem_map_of_mem
        (f := Entry.edit e.procAddr fun p => { p with blockedByChildren := 1 }) he
      have hcount : Shows { t with blockCount := incr64 t.blockCount } _ := ht.congr rfl rfl
      obtain ⟨u, hblock, -⟩ := hcount.editProc he' (f := fun p => { p with state := .blocked })
        fun _ => ⟨rfl, rfl⟩
      have hat := hcount.currentProc he' (by rw [edit_node, hcur]; exact (by rw [hglob]))
      rw [edit_procAddr] at hat hblock
      exact .ok_bind hedit (.modify_bind (.ok_bind hat (.ok_bind hblock safe_interrupt)))
    · exact safe_pure _
  | forceCurrentYield => exact .modify_bind safe_interrupt

/-- All pointers go to nodes of the ring, and no sound step faults. -/
structure Intact (s : Kernel H) : Prop where
  handles : HandlesInRing s
  safe : ∀ c, Sound s c → Safe c.run s

theorem Handled.intact (h : Handled s ring) : Intact s :=
  ⟨h.handlesInRing, fun _ hc => h.safe_run hc⟩

end Lives

end TronKernel.Sched
