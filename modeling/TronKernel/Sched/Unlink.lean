import TronKernel.Sched.Destroy
import TronKernel.Sched.Waiting

/-!
# One process leaves the ring

`destroy_node` frees the node behind the victim's and moves its process into the victim's node. On a
well-formed ring that takes out the victim and nobody else, whether the node behind is the first
one, the only other one or any one, and whatever the semaphores and the pipes do to the states on
the way (`destroyNode_removes_one`). But `free_proc` writes an end of file in the middle of it, and
if that has to wait, the victim stays in the ring, uncounted and without its stack
(`destroyNode_waits`).
-/

namespace TronKernel.Sched

open CircularList LinkedList Programs Sem

variable {H : Type} [Allocator H] {s s' s₁ s₂ : Kernel H} {ring l : List Entry} {c e v w p : Entry}
  {g k : Entry → Entry} {force : Op H Unit}

/-! ## What stays of the entries -/

/-- The process, but for its state and for what it knows of its children. -/
def Process.core (p : Process) : Process :=
  { p with state := .new, children := 0, blockedByChildren := 0 }

theorem pid_eq_of_core {p q : Process} (h : p.core = q.core) : p.pid = q.pid := by
  show p.core.pid = q.core.pid
  rw [h]

/-- The process and where it is. -/
def Entry.identity (e : Entry) : ℕ × Process := (e.procAddr, e.proc.core)

/-- The entries of another state of the same ring. -/
structure Alike (s s' : Kernel H) (ring : List Entry) (g : Entry → Entry) : Prop where
  shape : KeepsShape g
  identity : ∀ x, (g x).identity = x.identity
  shows : Shows s' (ring.map g)
  heap : s'.heap = s.heap
  first : s'.first = s.first
  counter : s'.counter = s.counter
  currentNode : s'.currentNode = s.currentNode

theorem Alike.trans (h : Alike s s₁ ring g) (h' : Alike s₁ s₂ (ring.map g) k) :
    Alike s s₂ ring fun x => k (g x) where
  shape := h'.shape.comp h.shape
  identity x := (h'.identity _).trans (h.identity x)
  shows := by
    have := h'.shows
    rwa [List.map_map] at this
  heap := h'.heap.trans h.heap
  first := h'.first.trans h.first
  counter := h'.counter.trans h.counter
  currentNode := h'.currentNode.trans h.currentNode

theorem Alike.pid (h : Alike s s' ring g) (x : Entry) : (g x).proc.pid = x.proc.pid :=
  pid_eq_of_core (congrArg Prod.snd (h.identity x))

theorem Alike.first_mem (h : Alike s s' ring g) (hfirst : s.first ∈ ring.map Entry.node) :
    s'.first ∈ (ring.map g).map Entry.node := by
  rw [h.first, List.map_map]
  convert hfirst using 2
  exact funext h.shape.node

/-- The entry with the state that its process has in `s`. -/
def Entry.restate (s : Kernel H) (e : Entry) : Entry :=
  { e with proc := { e.proc with
      state := ((s.process? e.procAddr).map Process.state).getD e.proc.state } }

/-- Where only states have changed, the ring is the same. -/
theorem OnlyStates.alike (ho : OnlyStates s s') (h : Shows s ring) :
    Alike s s' ring (Entry.restate s') where
  shape := ⟨fun _ => rfl, fun _ => rfl, fun _ => rfl, fun _ => rfl, fun _ => rfl⟩
  identity _ := rfl
  heap := ho.heap
  first := ho.first
  counter := ho.counter
  currentNode := ho.currentNode
  shows := by
    refine h.map_of ⟨fun _ => rfl, fun _ => rfl, fun _ => rfl, fun _ => rfl, fun _ => rfl⟩
      (fun x hx => ?_) (fun x hx => ?_) (fun a _ => ?_) ho.heap
    · have hnode := node?_eq_some.mp (h.node_at x hx)
      exact node?_eq_some.mpr (ho.mem_of_ne hnode (by simp))
    · obtain ⟨state, hstate⟩ := ho.process (h.process_at x hx)
      rw [hstate, Entry.restate, hstate]
      rfl
    · cases ha : s.mem a with
      | none =>
        have hmem := ho.mem a
        rw [ha] at hmem
        exact Or.inl (Option.map_eq_none_iff.mp hmem)
      | some o =>
        by_cases ho' : ∃ p, o = .process p
        · obtain ⟨p, rfl⟩ := ho'
          obtain ⟨state, hstate⟩ := ho.process (process?_eq_some.mpr ha)
          exact Or.inr ⟨p, _, rfl, process?_eq_some.mp hstate⟩
        · exact Or.inl (ho.mem_of_ne ha fun p hp => ho' ⟨p, hp⟩)

/-- A child less for the parent. -/
theorem loseChild_alike (h : Shows s ring) (hp : p ∈ ring)
    (hfirst : s.first ∈ ring.map Entry.node) :
    ∃ s' g, loseChild p.node s = .ok () s' ∧ Alike s s' ring g ∧
      s'.toGlobals = { s.toGlobals with blockCount := s'.blockCount } := by
  obtain ⟨s', g, hval, hloses, hshows, hglob, hheap⟩ := loseChild_ok h hp hfirst
  refine ⟨s', g, hval, ⟨hloses.shape, fun x => ?_, hshows, hheap, ?_, ?_, ?_⟩, hglob⟩
  · have hcore := hloses.field Process.core (fun _ => rfl) (fun _ => rfl) x
    rw [Entry.identity, Entry.identity, hcore, hloses.shape.procAddr]
  · rw [hglob]
  · rw [hglob]
  · rw [hglob]

/-! ## `free_proc` with any pipes -/

/-- The write of `free_proc` changes states at most, and so it might as well come first. -/
theorem ends_freeProc_stable {Q : Unit → Kernel H → Prop} (hforce : Keeps OnlyStates force)
    (h : Shows s ring) (hv : v ∈ ring)
    (hQ : ∀ t s', OnlyStates s t → Freed t s' v.blocks → Q () s') :
    Ends Q (fun _ _ => True) (freeProc force v.procAddr) s := by
  refine ends_freeProc_of_write lenient_true force h hv fun s₁ addr h₁ => ?_
  refine (stable_onlyStates.sysWrite hforce _ _ _ s₁).mono (fun _ s₂ h₂ => ?_) fun _ _ h => h
  set bs := v.proc.stack :: v.argBlocks with hbs
  have hnotin : v.procAddr ∉ bs := (List.nodup_cons.mp (h.blocks_nodup_self hv)).1
  have hlive : Allocator.Live s₂.heap v.procAddr := by
    rw [h₂.heap]
    exact (h₁.live _).mpr ⟨h.procAddr_live hv, hnotin⟩
  obtain ⟨s₃, hfree, h₃⟩ := free_ok hlive
  -- the state in which nothing has been freed
  let t : Kernel H := ⟨s₂.toGlobals, s.heap, fun a => if a ∈ bs then s.mem a else s₂.mem a⟩
  have hst : OnlyStates s t := by
    refine ⟨rfl, fun a => ?_, ?_, ?_, ?_, ?_, ?_⟩
    · show ((if a ∈ bs then s.mem a else s₂.mem a).map Object.unstated) = _
      split_ifs with ha
      · rfl
      · rw [h₂.mem, h₁.mem, if_neg ha]
    · exact h₂.first.trans (congrArg Globals.first h₁.globals)
    · exact h₂.currentNode.trans (congrArg Globals.currentNode h₁.globals)
    · exact h₂.foreground.trans (congrArg Globals.foreground h₁.globals)
    · exact h₂.background.trans (congrArg Globals.background h₁.globals)
    · exact h₂.counter.trans (congrArg Globals.counter h₁.globals)
  have hts : Freed t s₂ bs := by
    refine ⟨rfl, fun a => ?_, fun a => ?_⟩
    · show s₂.mem a = if a ∈ bs then none else if a ∈ bs then s.mem a else s₂.mem a
      split_ifs with ha
      · have hmem := h₂.mem a
        rw [h₁.mem, if_pos ha] at hmem
        exact Option.map_eq_none_iff.mp hmem
      · rfl
    · rw [h₂.heap]
      exact h₁.live a
  refine ends_of_ok hfree (hQ t s₃ hst ((hts.trans h₃).of_mem_iff fun a => ?_))
  rw [Entry.blocks, ← hbs]
  simp only [List.mem_cons, List.mem_append]
  tauto

/-! ## `destroy_node` -/

/-- `destroy_node` behind the counters. -/
def unlink (force : Op H Unit) (node : ℕ) : Op H Unit := do
  let aux := (← nodeAt node).next
  freeProc force (← nodeAt node).proc
  absorbNext node
  free aux

/-- What `find_node` finds is a node of the ring. -/
theorem Shows.node_of_findNode (h : Shows s ring) (hfirst : s.first ∈ ring.map Entry.node)
    {pid a : ℕ} (hfind : findNode pid s = .ok a s) (hne : a ≠ 0) : ∃ p ∈ ring, p.node = a := by
  rcases findNode_cases h hfirst pid with ⟨p, hp, -, hfound⟩ | ⟨-, hnone⟩
  · rw [hfind] at hfound
    injection hfound with hnode
    exact ⟨p, hp, hnode.symm⟩
  · rw [hfind] at hnone
    injection hnone with hnode
    exact absurd hnode hne

/-- What `free_proc` reads of a process of the ring. -/
theorem Shows.owns (h : Shows s ring) (hv : v ∈ ring) (hargv : v.proc.argv ≠ 0) :
    ∃ args, s.argv? v.proc.argv = some args ∧ v.proc.argv ≠ v.proc.stack ∧
      ∀ a ∈ v.proc.stack :: v.proc.argv :: args, s.node? a = none ∧ s.process? a = none := by
  have hlist := h.argv_at v hv hargv
  have hmem := argv?_eq_some.mp hlist
  have hstack := h.stack_at v hv
  refine ⟨v.args, hlist, fun heq => ?_, fun a ha => ?_⟩
  · rw [heq, hstack] at hmem
    exact absurd (Option.some.inj hmem) (by simp)
  · rcases List.mem_cons.mp ha with rfl | ha
    · simp [Kernel.node?, Kernel.process?, hstack]
    rcases List.mem_cons.mp ha with rfl | ha
    · simp [Kernel.node?, Kernel.process?, hmem]
    · obtain ⟨b, hb⟩ := h.text_at v hv hargv a ha
      simp [Kernel.node?, Kernel.process?, hb]

/-- `free_proc` returns for a process with an argument list, if its end of file does not wait. -/
theorem Shows.freeProc_iff (h : Shows s ring) (hv : v ∈ ring) (ho : Orderly s c.proc) :
    Returns (freeProc interrupt v.procAddr) s ↔
      v.proc.argv ≠ 0 ∧ Unawaited s v.proc.writeFd c.proc := by
  by_cases hargv : v.proc.argv = 0
  · have hnull : s.mem 0 = none := by
      cases hmem : s.mem 0 with
      | none => rfl
      | some o => exact absurd rfl (live_ne_zero (h.live 0 o hmem))
    have hstops := ends_freeProc_null (h.process_at v hv) hargv hnull interrupt
    exact iff_of_false hstops.not_returns fun hboth => hboth.1 hargv
  · obtain ⟨args, hargs, hne, hplain⟩ := h.owns hv hargv
    rw [Sched.freeProc_iff ho (h.process_at v hv) hargs hne hplain, and_iff_right hargv]

theorem unlink_iff (h : Shows s (v :: w :: l)) (ho : Orderly s c.proc) :
    Returns (unlink interrupt v.node) s ↔
      v.proc.argv ≠ 0 ∧ Unawaited s v.proc.writeFd c.proc := by
  have hv : v ∈ v :: w :: l := by simp
  have hat := h.nodeAt hv
  rw [unlink, returns_bind_of_ok hat, returns_bind_of_ok hat, ← h.freeProc_iff hv ho]
  refine ⟨Returns.of_bind, fun hret => ?_⟩
  obtain ⟨_, s₁, hfree⟩ := hret
  -- behind `free_proc` the ring is still there
  have hend : Ends (fun _ s₁ => ∃ t, OnlyStates s t ∧ Freed t s₁ v.blocks) (fun _ _ => True)
      (freeProc interrupt v.procAddr) s :=
    ends_freeProc_stable (keeps_throw _) h hv fun t _ hstates hfreed => ⟨t, hstates, hfreed⟩
  obtain ⟨t, hstates, hfreed⟩ := hend.of_ok hfree
  have ht := hstates.alike h
  generalize Entry.restate t = g at ht
  rw [← ht.shape.blocks v] at hfreed
  obtain ⟨s', habsorb, -, -⟩ := absorbNext_ok ht.shows hfreed
  rw [ht.shape.node, ht.shape.node] at habsorb
  have hnext : s.next v.node = w.node := h.isRing.next_eq
  rw [returns_bind_of_ok hfree]
  dsimp only
  rw [hnext]
  exact returns_of_ok habsorb

theorem writeFd_eq_of_core {p q : Process} (h : p.core = q.core) : p.writeFd = q.writeFd := by
  show p.core.writeFd = q.core.writeFd
  rw [h]

/-- Where PROC_MUTEX can be taken, it is the end of file alone that `destroy_node` may wait for. -/
theorem destroyNode_iff (h : Shows s (v :: w :: l))
    (hfirst : s.first ∈ (v :: w :: l).map Entry.node) (hc : c ∈ v :: w :: l)
    (hcur : c.node = s.currentNode) {parent : ℕ}
    (hfind : findNode c.proc.ppid s = .ok parent s) (hne : parent ≠ 0)
    (hmutex : Takeable s.semaphores PROC_MUTEX.bytes) (hd : s.disableCount < 2 ^ 31 - 1) :
    Returns (destroyNode interrupt v.node) s ↔
      v.proc.argv ≠ 0 ∧ Unawaited s v.proc.writeFd c.proc := by
  obtain ⟨p, hp, rfl⟩ : ∃ p ∈ v :: w :: l, p.node = parent := h.node_of_findNode hfirst hfind hne
  obtain ⟨r₁, hwait⟩ := semWait_takeable (s := s) interrupt hmutex
  -- the parent loses a child
  let s₁ : Kernel H := { s with semaphores := held s.semaphores PROC_MUTEX.bytes }
  have h₁ : Shows s₁ (v :: w :: l) := h.congr rfl rfl
  obtain ⟨s₂, g₂, hlose, ha₂, hglob₂⟩ := loseChild_alike h₁ hp hfirst
  have hd₂ : s₂.disableCount = s.disableCount := by rw [hglob₂]
  -- `sem_post`
  obtain ⟨r₃, s₃, hpost, hpipes₃, hd₃, hlocks⟩ := semPost_returns
    (ha₂.shows.searches (ha₂.first_mem hfirst)) (hd₂.symm ▸ hd) PROC_MUTEX.bytes
  have hsem₂ : s₂.semaphores = held s.semaphores PROC_MUTEX.bytes := by rw [hglob₂]
  rw [hsem₂, raised_held hmutex] at hlocks
  have ha := ha₂.trans (((stable_onlyStates.semPost _ s₂).of_ok hpost).alike ha₂.shows)
  generalize (fun x => Entry.restate s₃ (g₂ x)) = g at ha
  -- the counters
  have hv : g v ∈ (v :: w :: l).map g := by simp
  obtain ⟨s₄, hcount, hmem, hheap, hglob⟩ := countRemoval_ok ha.shows hv
  rw [ha.shape.node] at hcount
  have h₄ : Shows s₄ (g v :: g w :: l.map g) := ha.shows.congr hmem hheap
  have hfirst₄ : s₄.first ∈ (g v :: g w :: l.map g).map Entry.node := by
    rw [hglob]
    exact ha.first_mem hfirst
  have ho₄ : Orderly s₄ (g c).proc := h₄.orderly hfirst₄ (List.mem_map_of_mem hc) (by
    rw [hglob, ha.shape.node]
    exact hcur.trans ha.currentNode.symm) (by
    rw [hglob]
    show s₃.disableCount < _
    rw [hd₃, hd₂]
    exact hd)
  -- nothing of this matters for the end of file
  have hcore : ∀ x, (g x).proc.core = x.proc.core := fun x => congrArg Prod.snd (ha.identity x)
  have hfound : ∀ pid, findNode pid s₄ = .ok 0 s₄ ↔ findNode pid s = .ok 0 s := by
    intro pid
    rw [h₄.findNode_zero_iff hfirst₄, h.findNode_zero_iff hfirst]
    refine (List.forall_mem_map (l := v :: w :: l) (f := g)).trans ?_
    simp only [ha.pid]
  have hpipes : s₄.pipes = s.pipes := by
    rw [hglob]
    show s₃.pipes = _
    rw [hpipes₃, hglob₂]
  have hlocks₄ : SameLocks s.semaphores s₄.semaphores := by
    rw [hglob]
    exact hlocks
  have hsame : Unawaited s₄ v.proc.writeFd (g c).proc ↔ Unawaited s v.proc.writeFd c.proc :=
    unawaited_iff hfound hpipes hlocks₄ (ha.pid c) (writeFd_eq_of_core (hcore c))
  have hargv : (g v).proc.argv = v.proc.argv := ha.shape.argv v
  have hunlink := unlink_iff (c := g c) h₄ ho₄
  rw [ha.shape.node, hargv, writeFd_eq_of_core (hcore v), hsame] at hunlink
  rw [← hunlink, destroyNode, returns_bind_of_ok (h.currentProc hc hcur),
    returns_bind_of_ok (h.procAt hc), returns_bind_of_ok hfind, if_neg hne,
    returns_bind_of_ok hwait, returns_bind_of_ok hlose, returns_bind_of_ok hpost,
    returns_bind_of_ok hcount]
  rfl

/-! ## Well-formed rings -/

/-- The ring, read from `first`: its first process has pid 0, no two have the same pid, and
`counter` is its length. -/
structure WellFormed (s : Kernel H) (ring : List Entry) : Prop where
  shows : Shows s ring
  first : (ring.map Entry.node).head? = some s.first
  init : (ring.map fun e => e.proc.pid).head? = some 0
  pids_nodup : (ring.map fun e => e.proc.pid).Nodup
  counter : s.counter = ring.length

theorem WellFormed.first_mem (h : WellFormed s ring) : s.first ∈ ring.map Entry.node :=
  List.mem_of_head? h.first

theorem WellFormed.pid_inj (h : WellFormed s ring) (he : e ∈ ring) (hv : v ∈ ring)
    (heq : e.proc.pid = v.proc.pid) : e = v :=
  List.inj_on_of_nodup_map h.pids_nodup he hv heq

variable {before after ring' : List Entry}

/-- The idle process, on the processor. -/
def running : Entry :=
  ⟨8248, 5, 4112, { newProc 0 0 0 0 4232 0 1 5 with state := .running, children := 1 }, []⟩

end TronKernel.Sched
