import TronKernel.Sched.Ring

/-!
# Accesses and searches on a ring

What the code reads and writes through its pointers, said of the entries of the ring. `find_node`
finds an entry with the pid if there is one, wherever `first` is (`findNode_cases`).
`find_next_ready` finds the first entry from its argument on that is READY or NEW, and never ends if
there is none (`findNextReady_cases`).
-/

namespace TronKernel.Sched

open CircularList LinkedList Programs

variable {H : Type} {s : Kernel H} {ring l : List Entry} {e : Entry} {a : ℕ}

variable [Allocator H]

theorem Shows.nodeAt (h : Shows s ring) (he : e ∈ ring) :
    Sched.nodeAt e.node s = .ok ⟨e.quantums, e.procAddr, s.next e.node⟩ s := by
  rw [Sched.nodeAt, h.node_at e he]

theorem Shows.procAt (h : Shows s ring) (he : e ∈ ring) :
    Sched.procAt e.procAddr s = .ok e.proc s := by
  rw [Sched.procAt, h.process_at e he]

theorem Shows.currentProc (h : Shows s ring) (he : e ∈ ring) (hcur : e.node = s.currentNode) :
    Sched.currentProc s = .ok e.procAddr s := by
  rw [Sched.currentProc, get_bind, ← hcur, bind_of_ok (h.nodeAt he)]
  rfl

theorem Shows.getRunningPid (h : Shows s ring) (he : e ∈ ring) (hcur : e.node = s.currentNode) :
    Sched.getRunningPid s = .ok e.proc.pid s := by
  rw [Sched.getRunningPid, get_bind, if_neg (hcur ▸ h.node_ne_zero he),
    bind_of_ok (h.currentProc he hcur), bind_of_ok (h.procAt he)]
  rfl

theorem Shows.foregroundProc (h : Shows s ring) (he : e ∈ ring) (hfg : e.node = s.foreground) :
    Sched.foregroundProc s = .ok e.procAddr s := by
  rw [Sched.foregroundProc, get_bind, if_neg (hfg ▸ h.node_ne_zero he), get_bind, ← hfg,
    bind_of_ok (h.nodeAt he)]
  rfl

/-- An assignment to a process changes no more than the entry. -/
theorem Shows.editProc (h : Shows s ring) (he : e ∈ ring) {f : Process → Process}
    (hf : KeepsBlocks f) :
    ∃ s', Sched.editProc e.procAddr f s = .ok () s' ∧
      Shows s' (ring.map (Entry.edit e.procAddr f)) ∧ s'.toGlobals = s.toGlobals ∧
      s'.heap = s.heap := by
  refine ⟨_, ?_, h.put_process he hf, rfl, rfl⟩
  rw [Sched.editProc, bind_of_ok (h.procAt he)]
  rfl

/-- An assignment to a node's quantums changes no more than the entry. -/
theorem Shows.editQuantums (h : Shows s ring) (he : e ∈ ring) (f : ℕ → ℕ) :
    ∃ s', Sched.editNode e.node (fun n => { n with quantums := f n.quantums }) s = .ok () s' ∧
      Shows s' (ring.map (Entry.charge e.node (f e.quantums))) ∧
      s'.toGlobals = s.toGlobals ∧ s'.heap = s.heap := by
  refine ⟨_, ?_, h.put_quantums he (f e.quantums), rfl, rfl⟩
  rw [Sched.editNode, bind_of_ok (h.nodeAt he)]
  rfl

/-! ## `find_node` -/

/-- The loop on the nodes that are left before `first`. -/
theorem findNodeLoop_eq (h : Shows s ring) (pid : ℕ) {rounds : ℕ} (hl : ∀ x ∈ l, x ∈ ring)
    (hseg : Seg s.next a (l.map Entry.node) s.first) (hfirst : ∀ x ∈ l, x.node ≠ s.first)
    (hrounds : l.length < rounds) :
    findNodeLoop pid rounds a s =
      .ok (((l.find? fun x => x.proc.pid = pid).map Entry.node).getD 0) s := by
  induction l generalizing a rounds with
  | nil =>
    obtain ⟨rounds, rfl⟩ := Nat.exists_eq_succ_of_ne_zero (Nat.ne_of_gt hrounds)
    rw [findNodeLoop, get_bind, if_pos (seg_nil.mp hseg)]
    rfl
  | cons x l ih =>
    obtain ⟨rounds, rfl⟩ := Nat.exists_eq_succ_of_ne_zero (Nat.ne_of_gt (Nat.zero_lt_of_lt hrounds))
    obtain ⟨rfl, hseg⟩ := hseg
    have hx := hl x (by simp)
    rw [findNodeLoop, get_bind, if_neg (hfirst x (by simp)), bind_of_ok (h.nodeAt hx),
      bind_of_ok (h.procAt hx)]
    by_cases hpid : x.proc.pid = pid
    · rw [if_pos hpid, List.find?_cons_of_pos (by simpa using hpid)]
      rfl
    · rw [if_neg hpid, List.find?_cons_of_neg (by simpa using hpid)]
      exact ih (fun y hy => hl y (by simp [hy])) hseg (fun y hy => hfirst y (by simp [hy]))
        (Nat.lt_of_succ_lt_succ hrounds)

/-- `find_node` starts at `first`. -/
theorem findNode_eq (h : Shows s (e :: l)) (hfirst : e.node = s.first) (pid : ℕ) :
    findNode pid s =
      .ok ((((e :: l).find? fun x => x.proc.pid = pid).map Entry.node).getD 0) s := by
  have he : e ∈ e :: l := by simp
  rw [findNode, get_bind, ← hfirst, bind_of_ok (h.nodeAt he), bind_of_ok (h.procAt he)]
  by_cases hpid : e.proc.pid = pid
  · rw [if_pos hpid, List.find?_cons_of_pos (by simpa using hpid)]
    rfl
  · rw [if_neg hpid, List.find?_cons_of_neg (by simpa using hpid)]
    refine findNodeLoop_eq h pid (fun x hx => by simp [hx]) (hfirst ▸ h.isRing)
      (fun x hx heq => ?_) ?_
    · have hnodup := h.nodes_nodup
      rw [List.map_cons, List.nodup_cons] at hnodup
      exact hnodup.1 (hfirst.trans heq.symm ▸ List.mem_map_of_mem hx)
    · have := h.length_lt
      rw [List.length_cons] at this
      omega

/-- `find_node` finds an entry with the pid, or there is none. -/
theorem findNode_cases (h : Shows s ring) (hfirst : s.first ∈ ring.map Entry.node) (pid : ℕ) :
    (∃ x ∈ ring, x.proc.pid = pid ∧ findNode pid s = .ok x.node s) ∨
      ((∀ x ∈ ring, x.proc.pid ≠ pid) ∧ findNode pid s = .ok 0 s) := by
  obtain ⟨e, he, hef⟩ := List.mem_map.mp hfirst
  obtain ⟨l, hr⟩ := exists_isRotated_cons he
  have heq := findNode_eq (h.rotated hr) hef pid
  cases hfind : (e :: l).find? fun x => x.proc.pid = pid with
  | none =>
    refine Or.inr ⟨fun x hx => ?_, by rw [heq, hfind]; rfl⟩
    simpa using List.find?_eq_none.mp hfind x (hr.mem_iff.mp hx)
  | some x =>
    refine Or.inl ⟨x, hr.mem_iff.mpr (List.mem_of_find?_eq_some hfind), ?_, by rw [heq, hfind]; rfl⟩
    simpa using List.find?_some hfind

/-! ## `find_next_ready` -/

/-- READY or NEW. -/
def Entry.isReady (e : Entry) : Bool := e.proc.state = .ready ∨ e.proc.state = .new

theorem findNextReadyLoop_succ (h : Shows s ring) (he : e ∈ ring) (calls : ℕ) :
    findNextReadyLoop (calls + 1) e.node s =
      if e.isReady then .ok e.node s else findNextReadyLoop calls (s.next e.node) s := by
  rw [findNextReadyLoop, bind_of_ok (h.nodeAt he), bind_of_ok (h.procAt he)]
  by_cases hready : e.proc.state = .ready ∨ e.proc.state = .new
  · rw [if_pos hready, if_pos (by simpa [Entry.isReady] using hready)]
    rfl
  · rw [if_neg hready, if_neg (by simpa [Entry.isReady] using hready)]

theorem findNextReadyLoop_found (h : Shows s ring) {calls b : ℕ} {x : Entry}
    (hl : ∀ y ∈ l, y ∈ ring) (hseg : Seg s.next a (l.map Entry.node) b)
    (hfind : l.find? Entry.isReady = some x) (hcalls : l.length ≤ calls) :
    findNextReadyLoop calls a s = .ok x.node s := by
  induction l generalizing a calls with
  | nil => simp at hfind
  | cons y l ih =>
    obtain ⟨calls, rfl⟩ :=
      Nat.exists_eq_succ_of_ne_zero (Nat.ne_of_gt (Nat.lt_of_lt_of_le (by simp) hcalls))
    obtain ⟨rfl, hseg⟩ := hseg
    rw [findNextReadyLoop_succ h (hl y (by simp))]
    by_cases hready : y.isReady = true
    · rw [if_pos hready]
      rw [List.find?_cons_of_pos hready] at hfind
      rw [Option.some.inj hfind]
    · rw [if_neg hready]
      rw [List.find?_cons_of_neg hready] at hfind
      exact ih (fun z hz => hl z (by simp [hz])) hseg hfind (Nat.le_of_succ_le_succ hcalls)

theorem findNextReadyLoop_diverges (h : Shows s ring) (hnone : ∀ x ∈ ring, x.isReady = false)
    (he : e ∈ ring) (calls : ℕ) : findNextReadyLoop calls e.node s = .error .diverges s := by
  induction calls generalizing e with
  | zero => rfl
  | succ calls ih =>
    rw [findNextReadyLoop_succ h he, hnone e he]
    obtain ⟨x, hx, hxe⟩ := List.mem_map.mp (h.isRing.next_mem (List.mem_map_of_mem he))
    rw [← hxe]
    exact ih hx

/-- `find_next_ready` finds the first entry of its kind, or goes round for ever. -/
theorem findNextReady_cases (h : Shows s (e :: l)) :
    (∃ x, (e :: l).find? Entry.isReady = some x ∧ findNextReady e.node s = .ok x.node s) ∨
      ((∀ x ∈ e :: l, x.isReady = false) ∧ findNextReady e.node s = .error .diverges s) := by
  cases hfind : (e :: l).find? Entry.isReady with
  | none =>
    have hnone : ∀ x ∈ e :: l, x.isReady = false := by simpa using hfind
    exact Or.inr ⟨hnone, findNextReadyLoop_diverges h hnone (by simp) _⟩
  | some x =>
    exact Or.inl ⟨x, rfl, findNextReadyLoop_found h (fun y hy => hy) ⟨rfl, h.isRing⟩ hfind
      (Nat.le_of_lt h.length_lt)⟩

/-! ## `ready_process` and `change_priority` -/

/-- An edit by `find_node`, as `ready_process` and its kind make it. -/
theorem Shows.readyProcess (h : Shows s ring) (hfirst : s.first ∈ ring.map Entry.node) (pid : ℕ) :
    (∃ x ∈ ring, x.proc.pid = pid ∧ ∃ s', Sched.readyProcess pid s = .ok pid s' ∧
        Shows s' (ring.map (Entry.edit x.procAddr fun p => { p with state := .ready })) ∧
        s'.toGlobals = { s.toGlobals with blockCount := decr64 s.blockCount } ∧ s'.heap = s.heap) ∨
      ((∀ x ∈ ring, x.proc.pid ≠ pid) ∧ Sched.readyProcess pid s = .ok failed s) := by
  rcases findNode_cases h hfirst pid with ⟨x, hx, hpid, hfind⟩ | ⟨hnone, hfind⟩
  · refine Or.inl ⟨x, hx, hpid, ?_⟩
    obtain ⟨s₁, hedit, hshow, hglob, hheap⟩ :=
      h.editProc hx (f := fun p => { p with state := .ready }) fun _ => ⟨rfl, rfl⟩
    have hshow₂ : Shows { s₁ with blockCount := decr64 s₁.blockCount } _ := hshow.congr rfl rfl
    have hx₂ :=
      List.mem_map_of_mem (f := Entry.edit x.procAddr fun p => { p with state := .ready }) hx
    have hnode := hshow₂.nodeAt hx₂
    have hproc := hshow₂.procAt hx₂
    rw [edit_node, edit_procAddr] at hnode
    rw [edit_procAddr, edit_self] at hproc
    refine ⟨_, ?_, hshow₂, by rw [← hglob], hheap⟩
    rw [Sched.readyProcess, bind_of_ok hfind, if_neg (h.node_ne_zero hx), bind_of_ok (h.nodeAt hx),
      bind_of_ok hedit, modify_bind, bind_of_ok hnode, bind_of_ok hproc, ← hpid]
    rfl
  · refine Or.inr ⟨hnone, ?_⟩
    rw [Sched.readyProcess, bind_of_ok hfind, if_pos rfl]
    rfl

theorem Shows.changePriority (h : Shows s ring) (hfirst : s.first ∈ ring.map Entry.node)
    (pid priority : ℕ) :
    (∃ x ∈ ring, x.proc.pid = pid ∧ ∃ s', Sched.changePriority pid priority s = .ok pid s' ∧
        Shows s' (ring.map (Entry.edit x.procAddr fun p => { p with priority := priority })) ∧
        s'.toGlobals = s.toGlobals ∧ s'.heap = s.heap) ∨
      ((∀ x ∈ ring, x.proc.pid ≠ pid) ∧ Sched.changePriority pid priority s = .ok failed s) := by
  rcases findNode_cases h hfirst pid with ⟨x, hx, hpid, hfind⟩ | ⟨hnone, hfind⟩
  · refine Or.inl ⟨x, hx, hpid, ?_⟩
    obtain ⟨s₁, hedit, hshow, hglob, hheap⟩ :=
      h.editProc hx (f := fun p => { p with priority := priority }) fun _ => ⟨rfl, rfl⟩
    have hx₁ := List.mem_map_of_mem
      (f := Entry.edit x.procAddr fun p => { p with priority := priority }) hx
    have hnode := hshow.nodeAt hx₁
    have hproc := hshow.procAt hx₁
    rw [edit_node, edit_procAddr] at hnode
    rw [edit_procAddr, edit_self] at hproc
    refine ⟨_, ?_, hshow, hglob, hheap⟩
    rw [Sched.changePriority, bind_of_ok hfind, if_neg (h.node_ne_zero hx),
      bind_of_ok (h.nodeAt hx), bind_of_ok hedit, bind_of_ok hnode, bind_of_ok hproc, ← hpid]
    rfl
  · refine Or.inr ⟨hnone, ?_⟩
    rw [Sched.changePriority, bind_of_ok hfind, if_pos rfl]
    rfl

end TronKernel.Sched
