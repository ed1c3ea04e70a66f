import TronKernel.Lib.Runs
import TronKernel.Sched.Safety

/-!
# Who counts whose children

`add_process` counts a child for the current process. `destroy_node` takes one from the parent of
the current process, whoever it removes, and so the counts are right as long as only siblings of the
current process are removed (`children_counted`). A process that kills its own child loses count
(`own_child_killed`).

The steps of such a run are to be `Sound`: a step that uses a freed node, or NULL, is a fault, and
ends the run in the model where the code goes on.
-/

namespace TronKernel.Sched

open CircularList

variable {H : Type} {s s' t : Kernel H} {ring ring' l : List Entry} {e v w x x' y p : Entry}
  {g : Entry → Entry}

/-! ## Children in a ring -/

/-- What makes a process a parent or a child. -/
structure Kin where
  addr : ℕ
  pid : ℕ
  ppid : ℕ
deriving DecidableEq

def Entry.kin (x : Entry) : Kin := ⟨x.procAddr, x.proc.pid, x.proc.ppid⟩

/-- `c` is another process than `p`, and its parent has the pid of `p`. -/
def Kin.IsParent (p c : Kin) : Prop := c.addr ≠ p.addr ∧ c.ppid = p.pid

instance (p c : Kin) : Decidable (p.IsParent c) := inferInstanceAs (Decidable (_ ∧ _))

/-- The number of the other processes in the ring whose `ppid` is the pid of this one. -/
def childCount (ring : List Entry) (x : Entry) : ℕ :=
  ring.countP fun y => x.kin.IsParent y.kin

/-- Every process counts its children, and has one if it waits for them. -/
structure Counted (ring : List Entry) : Prop where
  children : ∀ x ∈ ring, x.proc.children = childCount ring x
  waits : ∀ x ∈ ring, x.proc.blockedByChildren ≠ 0 → ∃ y ∈ ring, x.kin.IsParent y.kin

theorem childCount_eq_countP (ring : List Entry) (x : Entry) :
    childCount ring x = (ring.map Entry.kin).countP fun c => x.kin.IsParent c := by
  rw [List.countP_map]
  rfl

theorem childCount_ne_zero : childCount ring x ≠ 0 ↔ ∃ y ∈ ring, x.kin.IsParent y.kin := by
  rw [childCount, ← Nat.pos_iff_ne_zero, List.countP_pos_iff]
  simp

/-- Only the kin counts. -/
theorem childCount_congr (hring : ring'.map Entry.kin = ring.map Entry.kin) (hx : x'.kin = x.kin) :
    childCount ring' x' = childCount ring x := by
  rw [childCount_eq_countP, childCount_eq_countP, hring, hx]

/-- One more process is one more child, or not. -/
theorem childCount_more {k : Kin} (hring : (ring'.map Entry.kin).Perm (k :: ring.map Entry.kin))
    (hx : x'.kin = x.kin) :
    childCount ring' x' = childCount ring x + if x.kin.IsParent k then 1 else 0 := by
  rw [childCount_eq_countP, hring.countP_eq, List.countP_cons, hx, childCount_eq_countP]
  simp

/-- Where the pids differ, the parent alone is touched. -/
theorem LosesChild.proc (h : LosesChild p ring g)
    (hinj : ∀ x ∈ ring, x.proc.pid = p.proc.pid → x = p) (y : Entry) : (g y).proc =
      if y.procAddr = p.procAddr then
        if decr64 p.proc.children = 0 then y.proc.lose.wake else y.proc.lose
      else y.proc := by
  cases h with
  | more hmore =>
    rw [if_neg hmore, Entry.edit]
    split_ifs <;> rfl
  | @last x hlast hx hpid =>
    obtain rfl := hinj x hx hpid
    rw [if_pos hlast]
    simp only [Entry.edit]
    split_ifs <;> rfl

theorem LosesChild.kin (h : LosesChild p ring g) (y : Entry) : (g y).kin = y.kin := by
  rw [Entry.kin, h.shape.procAddr, h.field Process.pid (fun _ => rfl) (fun _ => rfl),
    h.field Process.ppid (fun _ => rfl) (fun _ => rfl)]
  rfl

variable [Allocator H]

theorem Shows.childCount_lt (h : Shows s ring) (x : Entry) : childCount ring x < 2 ^ 64 :=
  lt_of_le_of_lt List.countP_le_length h.length_lt

namespace Lives

open Runs

variable {T : ℕ → Prop} {fg bg : ℕ} {c : Call}

/-! ## The conditions -/

/-- No process but the one of the node has this pid. -/
def Lacks (s : Kernel H) (node pid : ℕ) : Prop := s.nodeOf pid = 0 ∨ s.nodeOf pid = node

omit [Allocator H] in
instance lacksDecidable (s : Kernel H) (node pid : ℕ) : Decidable (Lacks s node pid) :=
  inferInstanceAs (Decidable (_ ∨ _))

/-- A process that the step removes has the parent of the current process, or neither of their
parents remains. -/
def Siblings (s : Kernel H) (c : Call) : Prop :=
  c.Spares s ∨ ∀ e ∈ s.procOf s.currentNode, ∀ v ∈ s.procOf (c.victim s),
    e.ppid = v.ppid ∨ Lacks s (c.victim s) e.ppid ∧ Lacks s (c.victim s) v.ppid

omit [Allocator H] in
instance siblingsDecidable (s : Kernel H) (c : Call) : Decidable (Siblings s c) :=
  inferInstanceAs (Decidable (_ ∨ ∀ e ∈ s.procOf s.currentNode, ∀ v ∈ s.procOf (c.victim s), _))

/-- A process that the step creates gets a node. -/
def Linked (s : Kernel H) (c : Call) : Prop := ∀ newNode, c.Makes s newNode → newNode ≠ 0

theorem linked_addProcess {name readFd writeFd priority isForeground : ℕ}
    {argv : List (List UInt8)} : Linked s
      (.addProcess name argv readFd writeFd priority isForeground) ↔
      match makeProcess interrupt name argv readFd writeFd priority s with
      | .ok _ t => (Allocator.malloc t.heap sizeofNode).2 ≠ 0
      | .error _ _ => True := by
  constructor
  · intro h
    split
    · next proc t hmade => exact h _ ⟨proc, t, hmade, rfl⟩
    · trivial
  · rintro h _ ⟨proc, t, hmade, rfl⟩
    rwa [hmade] at h

instance linkedDecidable (s : Kernel H) (c : Call) : Decidable (Linked s c) :=
  match c with
  | .addProcess name argv readFd writeFd priority _ =>
    haveI : Decidable (match makeProcess interrupt name argv readFd writeFd priority s with
        | .ok _ t => (Allocator.malloc t.heap sizeofNode).2 ≠ 0
        | .error _ _ => True) :=
      match makeProcess interrupt name argv readFd writeFd priority s with
      | .ok _ t => inferInstanceAs (Decidable ((Allocator.malloc t.heap sizeofNode).2 ≠ 0))
      | .error _ _ => isTrue trivial
    decidable_of_iff _ linked_addProcess.symm
  | .schedule _ => isTrue fun _ h => h.elim
  | .finishScheduler => isTrue fun _ h => h.elim
  | .killProcess _ => isTrue fun _ h => h.elim
  | .killOther _ => isTrue fun _ h => h.elim
  | .killCurrentProcess => isTrue fun _ h => h.elim
  | .killForegroundProc => isTrue fun _ h => h.elim
  | .blockProcess _ => isTrue fun _ h => h.elim
  | .readyProcess _ => isTrue fun _ h => h.elim
  | .waitPid => isTrue fun _ h => h.elim
  | .forceCurrentYield => isTrue fun _ h => h.elim

/-- A process that the step creates gets a pid that no process and no parent has. -/
def FreshPid (s : Kernel H) (c : Call) : Prop :=
  ∀ newNode, c.Makes s newNode → ∀ a p, s.procOf a = some p → p.pid ≠ s.pidc ∧ p.ppid ≠ s.pidc

/-- All three. -/
def Fair (s : Kernel H) (c : Call) : Prop := Siblings s c ∧ Linked s c ∧ FreshPid s c

/-! ## The invariant -/

/-- The pids differ, and the counts are right. -/
structure Family (s : Kernel H) (ring : List Entry) : Prop where
  base : Base s ring
  pids : (ring.map fun x => x.proc.pid).Nodup
  children : ∀ x ∈ ring, x.proc.children = childCount ring x
  waits : ∀ x ∈ ring, x.proc.blockedByChildren ≠ 0 → childCount ring x ≠ 0

theorem Family.counted (h : Family s ring) : Counted ring where
  children := h.children
  waits x hx hne := childCount_ne_zero.mp (h.waits x hx hne)

theorem Family.pid_inj (h : Family s ring) (hx : x ∈ ring) (hy : y ∈ ring)
    (heq : x.proc.pid = y.proc.pid) : x = y :=
  List.inj_on_of_nodup_map h.pids hx hy heq

/-- The processes keep their places in the family. -/
theorem Family.map (h : Family s ring) (hb : Base t (ring.map g))
    (hkin : ∀ x ∈ ring, (g x).kin = x.kin)
    (hchildren : ∀ x ∈ ring, (g x).proc.children = x.proc.children)
    (hwaits : ∀ x ∈ ring, (g x).proc.blockedByChildren = x.proc.blockedByChildren ∨
      x.proc.children ≠ 0) : Family t (ring.map g) := by
  have hkins : (ring.map g).map Entry.kin = ring.map Entry.kin := by
    rw [List.map_map]
    exact List.map_congr_left hkin
  have hpids : (ring.map g).map (fun x => x.proc.pid) = ring.map fun x => x.proc.pid := by
    rw [List.map_map]
    exact List.map_congr_left fun x hx => congrArg Kin.pid (hkin x hx)
  refine ⟨hb, hpids ▸ h.pids, fun z hz => ?_, fun z hz hne => ?_⟩
  · obtain ⟨x, hx, rfl⟩ := List.mem_map.mp hz
    rw [hchildren x hx, childCount_congr hkins (hkin x hx)]
    exact h.children x hx
  · obtain ⟨x, hx, rfl⟩ := List.mem_map.mp hz
    rw [childCount_congr hkins (hkin x hx)]
    rcases hwaits x hx with hsame | hchild
    · exact h.waits x hx (hsame ▸ hne)
    · exact h.children x hx ▸ hchild

theorem Quiet.kin (hq : Quiet T fg bg s t ring g) (hx : x ∈ ring) : (g x).kin = x.kin := by
  rw [Entry.kin, hq.shape.procAddr, (hq.changed x hx).pid, (hq.changed x hx).ppid]
  rfl

theorem Family.quiet (h : Family s ring) (hq : Quiet T fg bg s t ring g) : Family t (ring.map g) :=
  h.map (hq.base h.base) (fun _ => hq.kin) (fun x hx => (hq.changed x hx).children) fun x hx =>
    (hq.changed x hx).waits.imp_right And.left

omit [Allocator H] in
theorem picked_kin (x y : Entry) : (picked x y).kin = y.kin := by
  rw [Entry.kin, (keepsShape_picked x).procAddr, picked_proc]
  split_ifs <;> rfl

theorem Family.picks (h : Family s ring) (hp : Picks s t ring x) :
    Family t (ring.map (picked x)) := by
  refine h.map (hp.base h.base) (fun y _ => picked_kin x y) (fun y _ => ?_) fun y _ => Or.inl ?_
  · rw [picked_proc]
    split_ifs <;> rfl
  · rw [picked_proc]
    split_ifs <;> rfl

/-- A new process is one more child of the current one. -/
theorem Family.joins (h : Family s ring) (hr : ring.IsRotated (e :: l)) {q : Process}
    {proc newNode isForeground : ℕ} {args : List ℕ}
    (hj : Joins s t e l q proc newNode args isForeground ring') (h0 : newNode ≠ 0)
    (hfresh : ∀ a p, s.procOf a = some p → p.pid ≠ s.pidc ∧ p.ppid ≠ s.pidc) :
    Family t ring' ∧
      ∀ x ∈ ring, ∀ x' ∈ ring', x'.proc.pid = x.proc.pid →
        childCount ring x ≤ childCount ring' x' := by
  set n := newEntry q proc newNode args with hn
  have hentries : ring' = e.bear :: n :: l := hj.entries.trans (if_neg h0)
  have hpid : n.proc.pid = s.pidc := hj.pid
  have hunused : ∀ y ∈ ring, y.proc.pid ≠ s.pidc ∧ y.proc.ppid ≠ s.pidc := fun y hy =>
    hfresh y.node y.proc (h.base.shows.procOf hy)
  have he : e ∈ ring := hr.mem_iff.mpr (by simp)
  have hbear : e.bear ∈ ring' := by simp [hentries]
  have hnew : n ∈ ring' := by simp [hentries]
  have hkin : (ring'.map Entry.kin).Perm (n.kin :: ring.map Entry.kin) := by
    rw [hentries]
    exact (List.Perm.swap n.kin e.kin _).trans ((hr.perm.map Entry.kin).symm.cons n.kin)
  have hpids : (ring'.map fun x => x.proc.pid).Perm
      (n.proc.pid :: ring.map fun x => x.proc.pid) := by
    simpa [Function.comp_def, Entry.kin] using hkin.map Kin.pid
  have hnodup : e.proc.pid ∉ l.map fun x => x.proc.pid :=
    (List.nodup_cons.mp ((hr.perm.map fun x => x.proc.pid).nodup_iff.mp h.pids)).1
  -- who is the parent of the new one
  have hself : ¬ n.kin.IsParent n.kin := fun hpar => hpar.1 rfl
  have hparent : e.kin.IsParent n.kin := by
    refine ⟨fun heq => (hunused e he).1 ?_, hj.ppid⟩
    rw [← hpid, hj.shows.procAddr_inj hnew hbear heq]
    rfl
  have hothers : ∀ x ∈ l, ¬ x.kin.IsParent n.kin := fun x hx hpar =>
    hnodup (List.mem_map.mpr ⟨x, hx, (hj.ppid.symm.trans hpar.2).symm⟩)
  have hnone : childCount ring n = 0 := by
    by_contra hne
    obtain ⟨y, hy, -, hppid⟩ := childCount_ne_zero.mp hne
    exact (hunused y hy).2 (hppid.trans hpid)
  have hcountn : childCount ring' n = 0 := by rw [childCount_more hkin rfl, if_neg hself, hnone]
  have hcounte : childCount ring' e.bear = childCount ring e + 1 := by
    rw [childCount_more hkin (show e.bear.kin = e.kin from rfl), if_pos hparent]
  have hcountl : ∀ x ∈ l, childCount ring' x = childCount ring x := fun x hx => by
    rw [childCount_more hkin rfl, if_neg (hothers x hx), Nat.add_zero]
  have hmem : ∀ {x}, x ∈ ring' → x = e.bear ∨ x = n ∨ x ∈ l :=
    fun hx => by simpa [hentries] using hx
  have hold : ∀ x ∈ l, x ∈ ring := fun x hx => hr.mem_iff.mpr (List.mem_cons_of_mem _ hx)
  refine ⟨⟨hj.base h.base, ?_, fun x hx => ?_, fun x hx hne => ?_⟩, fun x hx x' hx' heq => ?_⟩
  · rw [hpids.nodup_iff, List.nodup_cons]
    refine ⟨fun hin => ?_, h.pids⟩
    obtain ⟨y, hy, hypid⟩ := List.mem_map.mp hin
    exact (hunused y hy).1 (hypid.trans hpid)
  · rcases hmem hx with rfl | rfl | hx
    · have hlt := hj.shows.childCount_lt e.bear
      rw [hcounte] at hlt ⊢
      show incr64 e.proc.children = _
      rw [h.children e he, incr64_of_lt hlt]
    · rw [hcountn]
      exact hj.children
    · rw [hcountl x hx]
      exact h.children x (hold x hx)
  · rcases hmem hx with rfl | rfl | hx
    · rw [hcounte]
      exact Nat.succ_ne_zero _
    · exact absurd hj.waits hne
    · rw [hcountl x hx]
      exact h.waits x (hold x hx) hne
  · rcases hmem hx' with rfl | rfl | hx'
    · rw [h.pid_inj hx he heq.symm, hcounte]
      exact Nat.le_succ _
    · exact absurd (heq.symm.trans hpid) (hunused x hx).1
    · rw [h.pid_inj hx (hold x' hx') heq.symm, hcountl x' hx']

/-- The parts of a removal that have to do with children. -/
theorem Leaves.parts (hs : Shows s ring) (hl : Leaves s s' ring v ring') :
    ∃ e ∈ ring, e.node = s.currentNode ∧ ∃ p ∈ ring, p.proc.pid = e.proc.ppid ∧
      ∃ g, LosesChild p ring g ∧ (ring.map Entry.kin).Perm (v.kin :: ring'.map Entry.kin) ∧
        ∀ x ∈ ring', ∃ y ∈ ring, y ≠ v ∧ x.kin = y.kin ∧ x.proc = (g y).proc := by
  obtain ⟨he, hcur, hp, hpid, -, hr, h⟩ := hl
  next e p w l g =>
  have hkin := h.loses.kin
  have hnodup := (hs.rotated hr).nodes_nodup
  simp only [List.map_cons, List.nodup_cons, List.mem_cons, not_or] at hnodup
  obtain ⟨⟨hvw, hvl⟩, -, -⟩ := hnodup
  refine ⟨e, he, hcur, p, hp, hpid, g, ?_, ?_, fun x hx => ?_⟩
  · cases h.loses with
    | more hmore => exact .more hmore
    | last hlast hx hxpid => exact .last hlast (hr.mem_iff.mpr hx) hxpid
  · have hmap : ((g w).into (g v) :: l.map g).map Entry.kin = (w :: l).map Entry.kin := by
      rw [List.map_cons, List.map_map, List.map_cons]
      exact congrArg₂ List.cons (hkin w) (List.map_congr_left fun y _ => hkin y)
    rw [hmap]
    exact hr.perm.map Entry.kin
  · rcases List.mem_cons.mp hx with rfl | hx
    · exact ⟨w, hr.mem_iff.mpr (by simp), fun heq => hvw (heq ▸ rfl), hkin w, rfl⟩
    · obtain ⟨y, hy, rfl⟩ := List.mem_map.mp hx
      exact ⟨y, hr.mem_iff.mpr (by simp [hy]), fun heq => hvl (heq ▸ List.mem_map_of_mem hy),
        hkin y, rfl⟩

/-- A sibling of the current process leaves, and their parent has one child less. After the last one
it is READY. -/
theorem Family.leaves (h : Family s ring) (hv : v ∈ ring) (hl : Leaves s s' ring v ring')
    (hsib : ∀ e ∈ ring, e.node = s.currentNode → ∀ y ∈ ring, y ≠ v →
      (y.proc.pid = e.proc.ppid ↔ y.proc.pid = v.proc.ppid)) :
    Family s' ring' ∧ ∀ y ∈ ring, y.proc.blockedByChildren ≠ 0 → ∀ x ∈ ring',
      x.proc.pid = y.proc.pid → childCount ring' x = 0 → x.proc.state = .ready := by
  obtain ⟨e, he, hcur, p, hp, hpid, g, hloses, hkin, hback⟩ := hl.parts h.base.shows
  have hproc := hloses.proc fun x hx heq => h.pid_inj hx hp heq
  -- what has become of an entry
  have hentry : ∀ x ∈ ring', ∃ y ∈ ring, x.proc.pid = y.proc.pid ∧
      (childCount ring y = childCount ring' x ∧ x.proc = y.proc ∨
        decr64 y.proc.children = childCount ring' x ∧
          x.proc = if childCount ring' x = 0 then y.proc.lose.wake else y.proc.lose) := by
    intro x hx
    obtain ⟨y, hy, hyv, hxkin, hxproc⟩ := hback x hx
    have hcount := childCount_more hkin hxkin.symm
    have haddr : v.procAddr ≠ y.procAddr := fun heq =>
      hyv (h.base.shows.procAddr_inj hy hv heq.symm)
    refine ⟨y, hy, congrArg Kin.pid hxkin, ?_⟩
    rw [hxproc, hproc]
    by_cases hyp : y = p
    · subst hyp
      have hpar : x.kin.IsParent v.kin := by
        rw [hxkin]
        exact ⟨haddr, ((hsib e he hcur y hy hyv).mp hpid).symm⟩
      rw [if_pos hpar] at hcount
      have hlt := h.base.shows.childCount_lt y
      have hdecr : decr64 y.proc.children = childCount ring' x := by
        rw [h.children y hy, decr64_of_pos (by omega) hlt, hcount, Nat.add_sub_cancel]
      rw [if_pos rfl, hdecr]
      exact Or.inr ⟨rfl, rfl⟩
    · have hpar : ¬ x.kin.IsParent v.kin := fun hpar => by
        rw [hxkin] at hpar
        have heq := (hsib e he hcur y hy hyv).mpr hpar.2.symm
        exact hyp (h.pid_inj hy hp (heq.trans hpid.symm))
      rw [if_neg hpar] at hcount
      rw [if_neg fun heq => hyp (h.base.shows.procAddr_inj hy hp heq)]
      exact Or.inl ⟨hcount, rfl⟩
  refine ⟨⟨hl.base h.base, ?_, fun x hx => ?_, fun x hx hne => ?_⟩, fun y hy hne x hx heq h0 => ?_⟩
  · have hpids : (ring.map fun x => x.proc.pid).Perm
        (v.proc.pid :: ring'.map fun x => x.proc.pid) := by
      simpa [Function.comp_def, Entry.kin] using hkin.map Kin.pid
    exact (List.nodup_cons.mp (hpids.nodup_iff.mp h.pids)).2
  · obtain ⟨y, hy, -, ⟨hcount, hsame⟩ | ⟨hdecr, hlost⟩⟩ := hentry x hx
    · rw [hsame, h.children y hy, hcount]
    · rw [hlost]
      split_ifs <;> exact hdecr
  · obtain ⟨y, hy, -, ⟨hcount, hsame⟩ | ⟨hdecr, hlost⟩⟩ := hentry x hx
    · rw [← hcount]
      exact h.waits y hy (hsame ▸ hne)
    · intro h0
      rw [hlost, if_pos h0] at hne
      exact hne (if_pos (hdecr.trans h0))
  · obtain ⟨z, hz, hzpid, ⟨hcount, -⟩ | ⟨-, hlost⟩⟩ := hentry x hx
    · obtain rfl := h.pid_inj hy hz (heq.symm.trans hzpid)
      exact absurd (hcount.trans h0) (h.waits y hy hne)
    · rw [hlost, if_pos h0]
      rfl

/-- What `find_node` finds is the process with the pid. -/
theorem Family.ne_of_lacks (h : Family s ring) (hfirst : s.first ∈ ring.map Entry.node) {a pid : ℕ}
    (hlacks : Lacks s a pid) (hx : x ∈ ring) (hne : x.node ≠ a) : x.proc.pid ≠ pid := by
  intro heq
  rcases findNode_cases h.base.shows hfirst pid with ⟨y, hy, hypid, hfind⟩ | ⟨hnone, -⟩
  · obtain rfl := h.pid_inj hx hy (heq.trans hypid.symm)
    rw [Lacks, nodeOf_eq hfind] at hlacks
    exact hlacks.elim (h.base.shows.node_ne_zero hx) hne
  · exact hnone x hx heq

/-- The condition on the step is what the removal needs. -/
theorem Family.siblings (h : Family s ring) (hc : Siblings s c) (hq : Quiet T fg bg s t ring g)
    (hv : v ∈ ring) (hvictim : v.node = c.victim s) (hl : Leaves t s' (ring.map g) (g v) ring') :
    ∀ e ∈ ring.map g, e.node = t.currentNode → ∀ y ∈ ring.map g, y ≠ g v →
      (y.proc.pid = e.proc.ppid ↔ y.proc.pid = (g v).proc.ppid) := by
  intro e hge hcur y hgy hne
  have hspares := hq.not_spares h.base.shows hv hvictim hl
  obtain ⟨e, he, rfl⟩ := List.mem_map.mp hge
  obtain ⟨y, hy, rfl⟩ := List.mem_map.mp hgy
  rw [hq.shape.node, hq.globals] at hcur
  replace hne : y.node ≠ c.victim s := fun heq =>
    hne (congrArg g (h.base.shows.node_inj hy hv (heq.trans hvictim.symm)))
  rw [(hq.changed y hy).pid, (hq.changed e he).ppid, (hq.changed v hv).ppid]
  have hfirst : s.first ∈ ring.map Entry.node := by
    by_contra hlost
    exact hspares (Or.inr fun q _ => h.base.shows.nodeOf_lost hlost q.ppid)
  rcases hc.resolve_left hspares e.proc (hcur ▸ h.base.shows.procOf he) v.proc
    (hvictim ▸ h.base.shows.procOf hv) with hsame | ⟨hparent, hparent'⟩
  · rw [hsame]
  · exact iff_of_false (h.ne_of_lacks hfirst hparent hy hne) (h.ne_of_lacks hfirst hparent' hy hne)

/-! ## What a step does -/

/-- A process that is BLOCKED in `wait_pid` and has no child left is READY, or `scheduler` has
picked it since. -/
def Wakes (ring : List Entry) (s' : Kernel H) (ring' : List Entry) : Prop :=
  ∀ x ∈ ring, x.proc.state = .blocked → x.proc.blockedByChildren ≠ 0 → ∀ x' ∈ ring',
    x'.proc.pid = x.proc.pid → (¬ ∃ y ∈ ring', x'.kin.IsParent y.kin) →
      x'.proc.state = .ready ∨ x'.node = s'.currentNode ∧ x'.proc.state = .running

/-- A process that waits still does after assignments. -/
theorem Quiet.waits (hq : Quiet T fg bg s t ring g) (hx : x ∈ ring)
    (hne : x.proc.blockedByChildren ≠ 0) : (g x).proc.blockedByChildren ≠ 0 := by
  rcases (hq.changed x hx).waits with hsame | ⟨-, hone⟩
  · rwa [hsame]
  · rw [hone]
    exact one_ne_zero

/-- Where nobody leaves, those who wait have their children. -/
theorem Family.still (h : Family s ring) (hkin : ∀ x ∈ ring, (g x).kin = x.kin) (hx : x ∈ ring)
    (hne : x.proc.blockedByChildren ≠ 0) (hx' : x' ∈ ring.map g) (heq : x'.proc.pid = x.proc.pid) :
    childCount (ring.map g) x' ≠ 0 := by
  obtain ⟨y, hy, rfl⟩ := List.mem_map.mp hx'
  have hypid : y.proc.pid = x.proc.pid := (congrArg Kin.pid (hkin y hy)).symm.trans heq
  obtain rfl := h.pid_inj hx hy hypid.symm
  have hkins : (ring.map g).map Entry.kin = ring.map Entry.kin := by
    rw [List.map_map]
    exact List.map_congr_left hkin
  rw [childCount_congr hkins (hkin x hx)]
  exact h.waits x hx hne

/-- What holds after a removal behind assignments. -/
theorem Family.removed (h : Family s ring) (hc : Siblings s c) (hq : Quiet T fg bg s t ring g)
    (hv : v ∈ ring) (hvictim : v.node = c.victim s) (hl : Leaves t s' (ring.map g) (g v) ring') :
    Family s' ring' ∧ ∀ y ∈ ring, y.proc.blockedByChildren ≠ 0 → ∀ x ∈ ring',
      x.proc.pid = y.proc.pid → childCount ring' x = 0 → x.proc.state = .ready := by
  obtain ⟨hfam, hready⟩ := (h.quiet hq).leaves (List.mem_map_of_mem hv) hl
    (h.siblings hc hq hv hvictim hl)
  exact ⟨hfam, fun y hy hne x hx heq => hready (g y) (List.mem_map_of_mem hy) (hq.waits hy hne) x hx
    (heq.trans (hq.changed y hy).pid.symm)⟩

theorem Family.outcome (h : Family s ring) (hc : Fair s c) (ho : Outcome c s ring s' ring') :
    Family s' ring' ∧ Wakes ring s' ring' := by
  obtain ⟨hsib, hlinked, hfresh⟩ := hc
  have hnone : ∀ {ring : List Entry} {x : Entry}, (¬ ∃ y ∈ ring, x.kin.IsParent y.kin) →
      childCount ring x = 0 := fun hno => not_not.mp fun hne => hno (childCount_ne_zero.mp hne)
  cases ho with
  | stay _ hq =>
    refine ⟨h.quiet hq, fun x hx _ hne x' hx' heq hno => ?_⟩
    exact absurd (hnone hno) (h.still (fun _ => hq.kin) hx hne hx' heq)
  | removed hq hv hvictim hl =>
    obtain ⟨hfam, hready⟩ := h.removed hsib hq hv hvictim hl
    exact ⟨hfam, fun x hx _ hne x' hx' heq hno => Or.inl (hready x hx hne x' hx' heq (hnone hno))⟩
  | joined _ hr _ hj hmakes =>
    obtain ⟨hfam, hmore⟩ := h.joins hr hj (hlinked _ hmakes) (hfresh _ hmakes)
    refine ⟨hfam, fun x hx _ hne x' hx' heq hno => ?_⟩
    have hle := hmore x hx x' hx' heq
    rw [hnone hno] at hle
    exact absurd (Nat.le_zero.mp hle) (h.waits x hx hne)
  | @searched start u z ring₁ _ hsearch hpicks =>
    obtain ⟨hfam, hready⟩ : Family u ring₁ ∧ ∀ y ∈ ring, y.proc.blockedByChildren ≠ 0 →
        ∀ x ∈ ring₁, x.proc.pid = y.proc.pid → childCount ring₁ x = 0 → x.proc.state = .ready := by
      cases hsearch with
      | left _ hq _ _ _ =>
        refine ⟨h.quiet hq, fun y hy hne x hx heq h0 => ?_⟩
        exact absurd h0 (h.still (fun _ => hq.kin) hy hne hx heq)
      | replaced hq _ _ _ hv hvictim hl => exact h.removed hsib hq hv hvictim hl
    refine ⟨hfam.picks hpicks, fun x hx _ hne x' hx' heq hno => ?_⟩
    obtain ⟨y, hy, rfl⟩ := List.mem_map.mp hx'
    have hkins : (ring₁.map (picked z)).map Entry.kin = ring₁.map Entry.kin := by
      rw [List.map_map]
      exact List.map_congr_left fun y _ => picked_kin z y
    have h0 := hnone hno
    rw [childCount_congr hkins (picked_kin z y)] at h0
    rw [picked_pid] at heq
    have hstate := hready x hx hne y hy heq h0
    rw [picked_proc]
    split_ifs with hsame
    · obtain rfl := hfam.base.shows.procAddr_inj hy hpicks.mem hsame
      refine Or.inr ⟨?_, rfl⟩
      rw [(keepsShape_picked y).node, hpicks.globals]
    · exact Or.inl hstate

/-! ## Pids that are not used up -/

/-- All pids have been given out. -/
structure Numbered (s : Kernel H) (ring : List Entry) : Prop where
  base : Base s ring
  pids : ∀ x ∈ ring, x.proc.pid < s.pidc ∧ x.proc.ppid < s.pidc

theorem Numbered.freshPid (h : Numbered s ring) : FreshPid s c := by
  intro _ _ a p hp
  obtain ⟨x, hx, -, rfl⟩ := h.base.shows.mem_of_procOf hp
  exact ⟨(h.pids x hx).1.ne, (h.pids x hx).2.ne⟩

theorem Numbered.quiet (h : Numbered s ring) (hq : Quiet T fg bg s t ring g) :
    Numbered t (ring.map g) := by
  refine ⟨hq.base h.base, fun z hz => ?_⟩
  obtain ⟨x, hx, rfl⟩ := List.mem_map.mp hz
  rw [(hq.changed x hx).pid, (hq.changed x hx).ppid, hq.globals]
  exact h.pids x hx

theorem Numbered.leaves (h : Numbered s ring) (hl : Leaves s t ring v ring') :
    Numbered t ring' := by
  obtain ⟨first, hglob⟩ := hl.globals
  refine ⟨hl.base h.base, fun x hx => ?_⟩
  obtain ⟨y, hy, -, hsur⟩ := (hl.survives h.base.shows).1 x hx
  rw [hsur.pid, hsur.ppid, hglob]
  exact h.pids y hy

theorem Numbered.picks (h : Numbered s ring) (hp : Picks s t ring x) :
    Numbered t (ring.map (picked x)) := by
  refine ⟨hp.base h.base, fun z hz => ?_⟩
  obtain ⟨y, hy, rfl⟩ := List.mem_map.mp hz
  have hpid : (picked x y).proc.pid = y.proc.pid := congrArg Kin.pid (picked_kin x y)
  have hppid : (picked x y).proc.ppid = y.proc.ppid := congrArg Kin.ppid (picked_kin x y)
  rw [hpid, hppid, hp.globals]
  exact h.pids y hy

theorem Numbered.joins (h : Numbered s ring) (hlt : s.pidc + 1 < 2 ^ 64)
    (hr : ring.IsRotated (e :: l)) {q : Process} {proc newNode isForeground : ℕ} {args : List ℕ}
    (hj : Joins s t e l q proc newNode args isForeground ring') :
    Numbered t ring' ∧ t.pidc = s.pidc + 1 := by
  have hpidc : t.pidc = s.pidc + 1 := by
    rw [← incr64_of_lt hlt, hj.globals, Globals.promote]
    split_ifs <;> rfl
  refine ⟨⟨hj.base h.base, fun x hx => ?_⟩, hpidc⟩
  rw [hpidc]
  have hold : ∀ y ∈ e :: l, y.proc.pid < s.pidc + 1 ∧ y.proc.ppid < s.pidc + 1 := fun y hy =>
    (h.pids y (hr.mem_iff.mpr hy)).imp Nat.lt_succ_of_lt Nat.lt_succ_of_lt
  rcases hj.mem_iff.mp hx with ⟨-, rfl⟩ | rfl | hx
  · show q.pid < _ ∧ q.ppid < _
    rw [hj.pid, hj.ppid]
    exact ⟨Nat.lt_succ_self _, (hold e (by simp)).1⟩
  · exact hold e (by simp)
  · exact hold x (by simp [hx])

theorem Numbered.outcome (h : Numbered s ring) (hlt : s.pidc + 1 < 2 ^ 64)
    (ho : Outcome c s ring s' ring') : Numbered s' ring' ∧ s'.pidc ≤ s.pidc + 1 := by
  have hremoved : ∀ {T fg bg t g v s' ring'}, Quiet T fg bg s t ring g →
      Leaves t s' (ring.map g) (g v) ring' → Numbered s' ring' ∧ s'.pidc = s.pidc := by
    intro T fg bg t g v s' ring' hq hl
    obtain ⟨first, hglob⟩ := hl.globals
    exact ⟨(h.quiet hq).leaves hl, by rw [hglob, hq.globals]⟩
  cases ho with
  | stay _ hq => exact ⟨h.quiet hq, by rw [hq.globals]; exact Nat.le_succ _⟩
  | removed hq _ _ hl =>
    obtain ⟨hnum, hpidc⟩ := hremoved hq hl
    exact ⟨hnum, hpidc ▸ Nat.le_succ _⟩
  | joined _ hr _ hj _ => exact (h.joins hlt hr hj).imp_right Eq.le
  | @searched start u z ring₁ _ hsearch hpicks =>
    have hu : Numbered u ring₁ ∧ u.pidc = s.pidc := by
      cases hsearch with
      | left _ hq _ _ _ => exact ⟨h.quiet hq, by rw [hq.globals]⟩
      | replaced hq _ _ _ _ _ hl => exact hremoved hq hl
    refine ⟨hu.1.picks hpicks, ?_⟩
    rw [hpicks.globals]
    exact hu.2 ▸ Nat.le_succ _

/-- While fewer than `2 ^ 64` processes are made, every pid is new. -/
theorem Numbered.throughout {cs : List Call} (h : Numbered s ring)
    (hlen : s.pidc + cs.length < 2 ^ 64)
    (hP : Throughout step (fun s c => Siblings s c ∧ Linked s c ∧ Sound s c) s cs) :
    Throughout step (fun s c => Fair s c ∧ Sound s c) s cs := by
  induction cs generalizing s ring with
  | nil => trivial
  | cons c cs ih =>
    rw [List.length_cons] at hlen
    obtain ⟨⟨hsib, hlinked, hsound⟩, hrest⟩ := hP
    refine ⟨⟨⟨hsib, hlinked, h.freshPid⟩, hsound⟩, fun s' hstep => ?_⟩
    obtain ⟨ring', ho⟩ := step_outcome h.base hstep
    obtain ⟨hnum, hle⟩ := h.outcome (by omega) ho
    exact ih hnum (by omega) (hrest s' hstep)

theorem Starts.numbered (h : Starts s e) : Numbered s [e] := by
  refine ⟨h.base, fun x hx => ?_⟩
  obtain rfl := List.mem_singleton.mp hx
  rw [h.pid, h.ppid, h.pidc]
  exact ⟨zero_lt_one, zero_lt_one⟩

/-! ## Runs -/

theorem Starts.family (h : Starts s e) : Family s [e] where
  base := h.base
  pids := by simp
  children x hx := by
    obtain rfl := List.mem_singleton.mp hx
    rw [h.children]
    simp [childCount, Kin.IsParent]
  waits x hx hne := by
    obtain rfl := List.mem_singleton.mp hx
    exact absurd h.waits hne

variable {s₀ : Kernel H} {idle : ℕ} {cs : List Call}

/-- In every run of sound steps in which only siblings of the current process are removed, and every
new process gets a node and a new pid, the counts are right. A process that waits has a child, and
is READY as soon as the last one is gone. A use of a freed node would end the run without a word:
`Intact` says that no sound step makes one. -/
theorem children_counted (hs : Booting s₀) (hinit : initScheduler interrupt idle s₀ = .ok () s)
    (hfirst : s.first ≠ 0) (hfair : Throughout step (fun s c => Fair s c ∧ Sound s c) s cs)
    (hrun : run step s cs = some s') :
    Intact s' ∧ ∃ ring, Shows s' ring ∧ Counted ring ∧
      ∀ c s'', Fair s' c → Sound s' c → step s' c = some s'' →
        Intact s'' ∧ ∃ ring', Shows s'' ring' ∧ Wakes ring s'' ring' := by
  obtain ⟨e, he⟩ := starts_of_init hs hinit hfirst
  obtain ⟨ring, h, hhandled⟩ : ∃ ring, Family s' ring ∧ Handled s' ring := by
    refine run_preserves (I := fun s => ∃ ring, Family s ring ∧ Handled s ring)
      ⟨_, he.family, he.handled⟩ hfair ?_ hrun
    rintro s c s' ⟨ring, h, hhandled⟩ ⟨hc, hsound⟩ hstep
    obtain ⟨ring', ho⟩ := step_outcome h.base hstep
    exact ⟨ring', (h.outcome hc ho).1, hhandled.outcome hsound.1 ho⟩
  refine ⟨hhandled.intact, ring, h.base.shows, h.counted, fun c s'' hc hsound hstep => ?_⟩
  obtain ⟨ring', ho⟩ := step_outcome h.base hstep
  obtain ⟨hfam, hwakes⟩ := h.outcome hc ho
  exact ⟨(hhandled.outcome hsound.1 ho).intact, ring', hfam.base.shows, hwakes⟩

/-- The idle process makes another one and waits for it until it exits. -/
theorem children_counted_wait : ∃ s s' : Kernel FirstFitHeap,
    initScheduler interrupt 0 loaded = .ok () s ∧
      run step s [.addProcess 0 [] 0 1 3 0, .waitPid, .schedule 0, .killCurrentProcess,
        .schedule 0] = some s' ∧ Intact s' ∧ ∃ ring, Shows s' ring ∧ Counted ring := by
  have hcheck : (booted.bind fun s =>
      runIf step (fun s c => Siblings s c ∧ Linked s c ∧ Sound s c) s [.addProcess 0 [] 0 1 3 0,
        .waitPid, .schedule 0, .killCurrentProcess, .schedule 0]).isSome = true := by decide +kernel
  obtain ⟨s', hs'⟩ := Option.isSome_iff_exists.mp hcheck
  obtain ⟨s, hs, hrunIf⟩ := Option.bind_eq_some_iff.mp hs'
  obtain ⟨hrun, hfair⟩ := run_of_runIf hrunIf
  have hfirst : s.first ≠ 0 := by simpa [hs] using booted_first
  have hinit := initScheduler_of_outcome booting_loaded hs hfirst
  obtain ⟨e, he⟩ := starts_of_init booting_loaded hinit hfirst
  replace hfair := he.numbered.throughout (by rw [he.pidc]; simp) hfair
  obtain ⟨hintact, ring, hshows, hcounted, -⟩ :=
    children_counted booting_loaded hinit hfirst hfair hrun
  exact ⟨s, s', hinit, hrun, hintact, ring, hshows, hcounted⟩

/-- A process makes another one and kills it. The idle process has one child and counts none. -/
theorem own_child_killed : ∃ s s' : Kernel FirstFitHeap,
    initScheduler interrupt 0 loaded = .ok () s ∧
      run step s [.addProcess 0 [] 0 1 3 0, .forceCurrentYield, .schedule 0,
        .addProcess 0 [] 0 1 3 0, .killProcess 2] = some s' ∧ ∀ ring, Shows s' ring →
        ¬ Counted ring := by
  have hcheck : (booted.bind fun s => (run step s [.addProcess 0 [] 0 1 3 0, .forceCurrentYield,
      .schedule 0, .addProcess 0 [] 0 1 3 0, .killProcess 2]).bind fun s' =>
        (s'.procOf (s'.nodeOf 0)).bind fun p => (s'.procOf (s'.nodeOf 1)).map fun q =>
          decide (p.pid = 0 ∧ p.children = 0 ∧ q.pid = 1 ∧ q.ppid = 0)) = some true := by
            decide +kernel
  obtain ⟨s, hs, hcheck⟩ := Option.bind_eq_some_iff.mp hcheck
  obtain ⟨s', hrun, hcheck⟩ := Option.bind_eq_some_iff.mp hcheck
  obtain ⟨p, hp, hcheck⟩ := Option.bind_eq_some_iff.mp hcheck
  obtain ⟨q, hq, hcheck⟩ := Option.map_eq_some_iff.mp hcheck
  obtain ⟨hpid, hchildren, hqpid, hppid⟩ := of_decide_eq_true hcheck
  have hfirst : s.first ≠ 0 := by simpa [hs] using booted_first
  refine ⟨s, s', initScheduler_of_outcome booting_loaded hs hfirst, hrun, fun ring h hcounted => ?_⟩
  obtain ⟨x, hx, -, rfl⟩ := h.mem_of_procOf hp
  obtain ⟨y, hy, -, rfl⟩ := h.mem_of_procOf hq
  have hne : y.procAddr ≠ x.procAddr := fun heq => by
    obtain rfl := h.procAddr_inj hy hx heq
    exact absurd (hqpid.symm.trans hpid) one_ne_zero
  have hcount := hcounted.children x hx
  rw [hchildren] at hcount
  exact childCount_ne_zero.mpr ⟨y, hy, hne, hppid.trans hpid.symm⟩ hcount.symm

end Lives

end TronKernel.Sched
