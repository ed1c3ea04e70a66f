import TronKernel.Sched.Boot
import TronKernel.Sched.Population
import TronKernel.Sched.Switch
import TronKernel.Lib.Runs

/-!
# Runs in which processes come and go

The calls of `scheduler.c` and `wait_pid` on the ring, whatever processes make them. A call that
forces the scheduler ends there: the interrupt is the next step of a run, or another one. What a
call can do is said once (`After`): it tweaks processes, removes one, adds one, and lets `scheduler`
pick the next one.
-/

namespace TronKernel.Sched.Lives

open Programs Sem CircularList

variable {H : Type} [Allocator H] {s s' t : Kernel H} {ring : List Entry} {x y : Entry} {a : ℕ}
  {I : Kernel H → Prop} {T : ℕ → Prop} {g k : Entry → Entry} {p p' : Process}

/-! ## Assignments to processes -/

/-- What a step does to a process, apart from its stack pointer, its `read_fd` and its priority.
Only those with a pid in `T` are blocked or killed. -/
structure Changed (T : ℕ → Prop) (p p' : Process) : Prop where
  pid : p'.pid = p.pid
  ppid : p'.ppid = p.ppid
  writeFd : p'.writeFd = p.writeFd
  children : p'.children = p.children
  state : p'.state = p.state ∨ p'.state = .ready ∨
    T p.pid ∧ (p'.state = .blocked ∨ p'.state = .killed)
  waits : p'.blockedByChildren = p.blockedByChildren ∨ p.children ≠ 0 ∧ p'.blockedByChildren = 1

theorem Changed.refl (T : ℕ → Prop) (p : Process) : Changed T p p :=
  ⟨rfl, rfl, rfl, rfl, Or.inl rfl, Or.inl rfl⟩

theorem Changed.trans {q : Process} (h : Changed T p p') (h' : Changed T p' q) : Changed T p q where
  pid := h'.pid.trans h.pid
  ppid := h'.ppid.trans h.ppid
  writeFd := h'.writeFd.trans h.writeFd
  children := h'.children.trans h.children
  state := by
    rcases h'.state with hsame | hready | ⟨hT, hstop⟩
    · rw [hsame]
      exact h.state
    · exact Or.inr (Or.inl hready)
    · exact Or.inr (Or.inr ⟨h.pid ▸ hT, hstop⟩)
  waits := by
    rcases h'.waits with hsame | ⟨hne, hone⟩
    · rw [hsame]
      exact h.waits
    · exact Or.inr ⟨h.children ▸ hne, hone⟩

/-- The entries have been changed in this way, and nothing else that matters. -/
structure Tweak (T : ℕ → Prop) (s s' : Kernel H) (ring : List Entry) (g : Entry → Entry) :
    Prop where
  shape : KeepsShape g
  shows : Shows s' (ring.map g)
  changed : ∀ x ∈ ring, Changed T x.proc (g x).proc
  heap : s'.heap = s.heap
  globals : s'.toGlobals =
    { s.toGlobals with blockCount := s'.blockCount, forceYield := s'.forceYield }

theorem keepsShape_id : KeepsShape id :=
  ⟨fun _ => rfl, fun _ => rfl, fun _ => rfl, fun _ => rfl, fun _ => rfl⟩

theorem keepsShape_nodes (hg : KeepsShape g) :
    (ring.map g).map Entry.node = ring.map Entry.node := by
  rw [List.map_map]
  exact List.map_congr_left fun x _ => hg.node x

theorem Tweak.refl (T : ℕ → Prop) (h : Shows s ring) : Tweak T s s ring id where
  shape := keepsShape_id
  shows := by rwa [List.map_id]
  changed x _ := Changed.refl T x.proc
  heap := rfl
  globals := rfl

theorem Tweak.trans (h : Tweak T s t ring g) (h' : Tweak T t s' (ring.map g) k) :
    Tweak T s s' ring fun x => k (g x) where
  shape := h'.shape.comp h.shape
  shows := by
    have hshows := h'.shows
    rwa [List.map_map] at hshows
  changed x hx := (h.changed x hx).trans (h'.changed (g x) (List.mem_map_of_mem hx))
  heap := h'.heap.trans h.heap
  globals := by rw [h'.globals, h.globals]

/-- Counters that only `scheduler` looks at. -/
theorem Tweak.counters (h : Tweak T s t ring g) (b f : ℕ) :
    Tweak T s { t with blockCount := b, forceYield := f } ring g where
  shape := h.shape
  shows := h.shows.congr rfl rfl
  changed := h.changed
  heap := h.heap
  globals := by
    show ({ t.toGlobals with blockCount := b, forceYield := f } : Globals) = _
    rw [h.globals]

/-- An assignment to one process of the ring. -/
theorem Tweak.edit (h : Shows s ring) (hx : x ∈ ring) {f : Process → Process}
    (hblocks : KeepsBlocks f) (hf : Changed T x.proc (f x.proc)) :
    Tweak T s (s.put x.procAddr (.process (f x.proc))) ring (Entry.edit x.procAddr f) where
  shape := keepsShape_edit hblocks _
  shows := h.put_process hx hblocks
  changed y hy := by
    by_cases hyx : y.procAddr = x.procAddr
    · obtain rfl := h.procAddr_inj hy hx hyx
      rw [edit_self]
      exact hf
    · rw [edit_of_ne f hyx]
      exact Changed.refl T y.proc
  heap := rfl
  globals := rfl

/-- An assignment to one node's quantums. -/
theorem Tweak.charge (T : ℕ → Prop) (h : Shows s ring) (hx : x ∈ ring) (q : ℕ) :
    Tweak T s (s.put x.node (.node ⟨q, x.procAddr, s.next x.node⟩)) ring
      (Entry.charge x.node q) where
  shape := keepsShape_charge _ q
  shows := h.put_quantums hx q
  changed y _ := by
    rw [charge_proc]
    exact Changed.refl T y.proc
  heap := rfl
  globals := rfl

/-! ## What the calls assign -/

/-- The pid of the process of a node, as it is returned. -/
theorem Tweak.ends_pidOf (h : Tweak T s t ring g) (hx : x ∈ ring) {E : Stop → Kernel H → Prop}
    (hI : I t) : Ends (fun _ => I) E (do return (← procAt (← nodeAt x.node).proc).pid) t := by
  have hgx := List.mem_map_of_mem (f := g) hx
  have hnode := h.shows.nodeAt hgx
  have hproc := h.shows.procAt hgx
  rw [h.shape.node] at hnode
  rw [ends_bind]
  refine ends_of_ok hnode ?_
  rw [ends_bind]
  exact ends_of_ok hproc hI

theorem ends_readyProcess_ring (h : Shows s ring) (pid : ℕ)
    (hI : ∀ s' g, Tweak T s s' ring g → I s') :
    Ends (fun _ => I) (WhenSwitched I) (readyProcess pid) s := by
  have hE := lenient_whenSwitched (H := H) I
  rw [readyProcess, ends_bind]
  refine ends_findNode_ring hE h (fun _ _ _ => ?_) fun _ x hx _ _ => ?_
  · rw [if_pos rfl]
    exact hI _ _ (Tweak.refl T h)
  · rw [if_neg (h.node_ne_zero hx), ← bind_assoc, ends_bind]
    have htweak := Tweak.edit (T := T) h hx (f := fun p => { p with state := .ready })
      (fun _ => ⟨rfl, rfl⟩) ⟨rfl, rfl, rfl, rfl, Or.inr (Or.inl rfl), Or.inl rfl⟩
    refine h.ends_editAt hx ?_
    rw [ends_bind, ends_modify]
    have hcount := htweak.counters (decr64 s.blockCount) s.forceYield
    exact hcount.ends_pidOf hx (hI _ _ hcount)

theorem ends_blockProcess_ring (h : Shows s ring) {pid : ℕ} (hT : T pid)
    (hI : ∀ s' g, Tweak T s s' ring g → I s') :
    Ends (fun _ => I) (WhenSwitched I) (blockProcess interrupt pid) s := by
  have hE := lenient_whenSwitched (H := H) I
  rw [blockProcess, ends_bind]
  refine ends_findNode_ring hE h (fun _ _ _ => ?_) fun _ x hx hpid _ => ?_
  · rw [if_pos rfl]
    exact hI _ _ (Tweak.refl T h)
  · rw [if_neg (h.node_ne_zero hx), ← bind_assoc, ends_bind]
    have htweak := Tweak.edit (T := T) h hx (f := fun p => { p with state := .blocked })
      (fun _ => ⟨rfl, rfl⟩) ⟨rfl, rfl, rfl, rfl, Or.inr (Or.inr ⟨hpid ▸ hT, Or.inl rfl⟩),
      Or.inl rfl⟩
    refine h.ends_editAt hx ?_
    rw [ends_bind]
    exact fun _ => hI _ _ htweak

theorem ends_forceCurrentYield_ring (h : Shows s ring)
    (hI : ∀ s' g, Tweak T s s' ring g → I s') :
    Ends (fun _ => I) (WhenSwitched I) (forceCurrentYield interrupt) s := by
  rw [forceCurrentYield, ends_bind, ends_modify]
  exact fun _ => hI _ _ ((Tweak.refl T h).counters s.blockCount 1)

theorem ends_killCurrentProcess_ring (h : Shows s ring)
    (hT : ∀ x ∈ ring, x.node = s.currentNode → T x.proc.pid)
    (hI : ∀ s' g, Tweak T s s' ring g → I s') :
    Ends (fun _ => I) (WhenSwitched I) (killCurrentProcess interrupt) s := by
  have hE := lenient_whenSwitched (H := H) I
  rw [killCurrentProcess, ends_bind]
  refine ends_currentProc_ring hE h fun x hx hcur => ?_
  have htweak := Tweak.edit (T := T) h hx (f := fun p => { p with state := .killed })
    (fun _ => ⟨rfl, rfl⟩)
    ⟨rfl, rfl, rfl, rfl, Or.inr (Or.inr ⟨hT x hx hcur, Or.inr rfl⟩), Or.inl rfl⟩
  rw [ends_bind]
  refine h.ends_editProc hx ?_
  exact fun _ => hI _ _ htweak

theorem ends_waitPid_ring (h : Shows s ring)
    (hT : ∀ x ∈ ring, x.node = s.currentNode → x.proc.children ≠ 0 → T x.proc.pid)
    (hI : ∀ s' g, Tweak T s s' ring g → I s') :
    Ends (fun _ => I) (WhenSwitched I) (waitPid interrupt) s := by
  have hE := lenient_whenSwitched (H := H) I
  rw [waitPid, ends_bind]
  refine ends_currentProc_ring hE h fun x hx hcur => ?_
  rw [ends_bind]
  refine ends_of_ok (h.procAt hx) ?_
  split_ifs with hchildren
  · have hwait := Tweak.edit (T := T) h hx (f := fun p => { p with blockedByChildren := 1 })
      (fun _ => ⟨rfl, rfl⟩) ⟨rfl, rfl, rfl, rfl, Or.inl rfl, Or.inr ⟨hchildren, rfl⟩⟩
    rw [ends_bind]
    refine h.ends_editProc hx ?_
    rw [ends_bind, ends_modify, ends_bind]
    have hcount := hwait.counters (incr64 s.blockCount) s.forceYield
    have hgx := List.mem_map_of_mem
      (f := Entry.edit x.procAddr fun p => { p with blockedByChildren := 1 }) hx
    refine ends_currentProc_ring hE hcount.shows fun y hy hycur => ?_
    obtain ⟨z, hz, rfl⟩ := List.mem_map.mp hy
    rw [edit_node] at hycur
    obtain rfl : z = x := h.node_inj hz hx (hycur.trans hcur.symm)
    have hblock := hcount.trans (Tweak.edit (T := T) hcount.shows hy
      (f := fun p => { p with state := .blocked }) (fun _ => ⟨rfl, rfl⟩)
      ⟨rfl, rfl, rfl, rfl, Or.inr (Or.inr ⟨?_, Or.inl rfl⟩), Or.inl rfl⟩)
    · rw [ends_bind]
      refine hcount.shows.ends_editProc hy ?_
      exact fun _ => hI _ _ hblock
    · rw [(hcount.changed z hz).pid]
      exact hT z hz hcur hchildren
  · exact hI _ _ (Tweak.refl T h)

end TronKernel.Sched.Lives
