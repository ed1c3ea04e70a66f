import TronKernel.Sched.Blocks
import TronKernel.Sched.Descriptors
import TronKernel.Sched.Mutex
import TronKernel.Sched.Search

/-!
# Taking a process out of the ring

`destroy_node` on a ring that is read from the victim on: the parent it finds loses a child, the
victim's blocks are freed, the next node's process moves into the victim's node, and the next node
is freed (`ends_destroyNode`). The pipes are not open here, so that the end of file goes nowhere.
-/

namespace TronKernel.Sched

open CircularList LinkedList Programs Sem

variable {H : Type} {s s' s₁ : Kernel H} {ring l : List Entry} {e v w p : Entry} {a : ℕ}
  {E : Stop → Kernel H → Prop}

theorem editNode_ok {n : Node} (h : s.node? a = some n) (f : Node → Node) :
    editNode a f s = .ok () (s.put a (.node (f n))) := by
  rw [editNode, bind_of_ok (show nodeAt a s = .ok n s by rw [nodeAt, h])]
  rfl

/-- No pipe is open. -/
def Unopened (s : Kernel H) : Prop := ∀ j, (s.pipes j).created = 0

/-- What `sys_write` prints, or writes to a pipe that is not open, changes nothing. -/
theorem ends_sysWrite_unopened {Q : ℕ → Kernel H → Prop} (hE : Lenient E) (force : Op H Unit)
    (hpipes : Unopened s) (fd : ℕ) (string : ℕ → UInt8) (h : ∀ r, Q r s) :
    Ends Q E (sysWrite force fd string 1) s := by
  rw [sysWrite_eq, getCurrentWrite, bind_assoc, ends_bind]
  refine ends_currentProc hE fun n _ => ?_
  rw [bind_assoc, ends_bind]
  refine ends_procAt hE fun p _ => ?_
  rw [pure_bind]
  have hone : toInt ((1 : ℕ) : ℤ) = 1 := by decide
  cases writeTarget fd 1 p.writeFd with
  | nothing => exact h 0
  | screen => exact h 0
  | keyboard => exact h 0
  | pipe index =>
    rw [Target.write, hone, ends_bind, pipeWrite, writeLength, if_neg (by decide), pure_bind,
      ends_bind, pipeAt]
    split_ifs
    · rw [ends_bind, ends_get, ends_pure, if_pos (hpipes _)]
      exact h _
    · exact hE _ _ (by simp)

variable [Allocator H]

/-! ## Searching a ring -/

omit [Allocator H] in
/-- What `find_node` returns, and 0 if it does not return. -/
def Kernel.nodeOf (s : Kernel H) (pid : ℕ) : ℕ :=
  match findNode pid s with
  | .ok a _ => a
  | .error _ _ => 0

theorem Shows.node_of_some (h : Shows s ring) {n : Node} (hn : s.node? a = some n) :
    ∃ x ∈ ring, x.node = a ∧ n = ⟨x.quantums, x.procAddr, s.next a⟩ := by
  obtain ⟨x, hx, rfl⟩ := h.node_mem a n hn
  exact ⟨x, hx, rfl, Option.some.inj (hn.symm.trans (h.node_at x hx))⟩

omit [Allocator H] in
theorem nodeOf_eq {pid : ℕ} (h : findNode pid s = .ok a s) : s.nodeOf pid = a := by
  rw [Kernel.nodeOf, h]

/-- `find_node` on a ring. A `first` that is no node of the ring is not followed. -/
theorem ends_findNode_ring {Q : ℕ → Kernel H → Prop} (hE : Lenient E) (h : Shows s ring) {pid : ℕ}
    (hnone : s.first ∈ ring.map Entry.node → (∀ x ∈ ring, x.proc.pid ≠ pid) → s.nodeOf pid = 0 →
      Q 0 s)
    (hfound : s.first ∈ ring.map Entry.node → ∀ x ∈ ring, x.proc.pid = pid → x.node = s.nodeOf pid →
      Q x.node s) :
    Ends Q E (findNode pid) s := by
  by_cases hfirst : s.first ∈ ring.map Entry.node
  · rcases findNode_cases h hfirst pid with ⟨x, hx, hpid, hfind⟩ | ⟨hne, hfind⟩
    · exact ends_of_ok hfind (hfound hfirst x hx hpid (nodeOf_eq hfind).symm)
    · exact ends_of_ok hfind (hnone hfirst hne (nodeOf_eq hfind))
  · rw [findNode, ends_bind, ends_get, ends_bind]
    refine ends_nodeAt hE fun n hn => ?_
    obtain ⟨x, hx, hxf, -⟩ := h.node_of_some hn
    exact absurd (hxf ▸ List.mem_map_of_mem hx) hfirst

/-- The process of `currentNode` is one of the ring. -/
theorem Shows.ends_current {α : Type} {Q : α → Kernel H → Prop} (hE : Lenient E) (h : Shows s ring)
    {k : Process → Op H α}
    (hQ : ∀ x ∈ ring, x.node = s.currentNode → Ends Q E (k x.proc) s) :
    Ends Q E (do k (← Sched.procAt (← Sched.currentProc)) : Op H α) s := by
  rw [ends_bind]
  refine ends_currentProc hE fun n hn => ?_
  obtain ⟨x, hx, hxc, rfl⟩ := h.node_of_some hn
  rw [ends_bind]
  refine ends_procAt hE fun q hq => ?_
  obtain rfl := Option.some.inj ((h.process_at x hx).symm.trans hq)
  exact hQ x hx hxc

/-- The current process is one of the ring. -/
theorem ends_currentProc_ring {Q : ℕ → Kernel H → Prop} (hE : Lenient E)
    (h : Shows s ring) (hQ : ∀ x ∈ ring, x.node = s.currentNode → Q x.procAddr s) :
    Ends Q E currentProc s := by
  refine ends_currentProc hE fun n hn => ?_
  obtain ⟨x, hx, hxc, rfl⟩ := h.node_of_some hn
  exact hQ x hx hxc

theorem Shows.ends_editProc {Q : Unit → Kernel H → Prop}
    (h : Shows s ring) (he : e ∈ ring) {f : Process → Process}
    (hQ : Q () (s.put e.procAddr (.process (f e.proc)))) :
    Ends Q E (Sched.editProc e.procAddr f) s := by
  rw [Sched.editProc, ends_bind]
  exact ends_of_ok (h.procAt he) hQ

/-- An assignment to the process of a node. -/
theorem Shows.ends_editAt {Q : Unit → Kernel H → Prop}
    (h : Shows s ring) (he : e ∈ ring) {f : Process → Process}
    (hQ : Q () (s.put e.procAddr (.process (f e.proc)))) :
    Ends Q E (do Sched.editProc (← Sched.nodeAt e.node).proc f : Op H Unit) s := by
  rw [ends_bind]
  exact ends_of_ok (h.nodeAt he) (h.ends_editProc he hQ)

/-! ## `free_proc` -/

theorem mem_argBlocks : a ∈ e.argBlocks ↔ e.proc.argv ≠ 0 ∧ (a = e.proc.argv ∨ a ∈ e.args) := by
  unfold Entry.argBlocks
  split_ifs with h0 <;> simp [h0]

theorem Shows.blocks_live (h : Shows s ring) (he : e ∈ ring) (ha : a ∈ e.blocks) :
    Allocator.Live s.heap a := by
  simp only [Entry.blocks, List.mem_cons] at ha
  rcases ha with rfl | rfl | ha
  · exact h.procAddr_live he
  · exact h.live _ _ (h.stack_at e he)
  · obtain ⟨hne, ha⟩ := mem_argBlocks.mp ha
    rcases ha with rfl | ha
    · exact h.live _ _ (argv?_eq_some.mp (h.argv_at e he hne))
    · obtain ⟨b, hb⟩ := h.text_at e he hne a ha
      exact h.live _ _ hb

/-- A node is no block of a process. -/
theorem Shows.node_notMem_blocks (h : Shows s ring) (he : e ∈ ring) (hw : w ∈ ring) :
    w.node ∉ e.blocks := by
  intro ha
  have hnode := node?_eq_some.mp (h.node_at w hw)
  simp only [Entry.blocks, List.mem_cons] at ha
  rcases ha with ha | ha | ha
  · rw [ha, process?_eq_some.mp (h.process_at e he)] at hnode
    exact absurd (Option.some.inj hnode) (by simp)
  · rw [ha, h.stack_at e he] at hnode
    exact absurd (Option.some.inj hnode) (by simp)
  · obtain ⟨hne, ha⟩ := mem_argBlocks.mp ha
    rcases ha with ha | ha
    · rw [ha, argv?_eq_some.mp (h.argv_at e he hne)] at hnode
      exact absurd (Option.some.inj hnode) (by simp)
    · obtain ⟨b, hb⟩ := h.text_at e he hne _ ha
      rw [hb] at hnode
      exact absurd (Option.some.inj hnode) (by simp)

theorem Shows.blocks_nodup_self (h : Shows s ring) (he : e ∈ ring) : e.blocks.Nodup :=
  (List.nodup_flatMap.mp h.blocks_nodup).1 e he

/-- `free_proc` frees the blocks of the process, and the process itself after its write. -/
theorem ends_freeProc_of_write {Q : Unit → Kernel H → Prop} (hE : Lenient E) (force : Op H Unit)
    (h : Shows s ring) (hv : v ∈ ring)
    (hwrite : ∀ s₁ addr, Freed s s₁ (v.proc.stack :: v.argBlocks) →
      Ends (fun _ s₂ => Ends Q E (free v.procAddr) s₂) E
        (sysWrite force v.proc.writeFd addr 1) s₁) :
    Ends Q E (freeProc force v.procAddr) s := by
  have hnodup := h.blocks_nodup_self hv
  have hlive : ∀ a ∈ v.blocks, Allocator.Live s.heap a := fun a ha => h.blocks_live hv ha
  obtain ⟨s₁, hfree₁, h₁⟩ := free_ok (hlive v.proc.stack (by simp [Entry.blocks]))
  have hps : v.procAddr ≠ v.proc.stack := fun heq => (List.nodup_cons.mp hnodup).1 (by simp [heq])
  have hproc₁ : procAt v.procAddr s₁ = .ok v.proc s₁ := by
    rw [procAt, h₁.process? (by simpa using hps), h.process_at v hv]
  rw [freeProc, ends_bind]
  refine ends_of_ok (h.procAt hv) ?_
  rw [ends_bind]
  refine ends_of_ok hfree₁ ?_
  rw [ends_bind]
  refine ends_of_ok hproc₁ ?_
  by_cases h0 : v.proc.argv = 0
  · -- there is no list at NULL
    rw [ends_bind, freeArgv, ends_bind, h0, Ends, argvAt]
    have hnone : s₁.argv? 0 = none := by
      rw [Option.eq_none_iff_forall_ne_some]
      intro args hargs
      rw [argv?_eq_some, h₁.mem] at hargs
      split_ifs at hargs
      exact live_ne_zero (h.live _ _ hargs) rfl
    rw [hnone]
    exact hE _ _ (by simp)
  have hargblocks : v.argBlocks = v.proc.argv :: v.args := if_neg h0
  rw [Entry.blocks, hargblocks] at hnodup hlive
  simp only [List.nodup_cons, List.mem_cons, not_or] at hnodup
  obtain ⟨⟨-, hpa, hpargs⟩, ⟨hsa, hsargs⟩, haargs, hargs⟩ := hnodup
  simp only [List.mem_cons, forall_eq_or_imp] at hlive
  obtain ⟨hplive, hslive, halive, hargslive⟩ := hlive
  -- the arguments and their list
  have hargv₁ : argvAt v.proc.argv s₁ = .ok v.args s₁ := by
    rw [argvAt, h₁.argv? (by simpa using Ne.symm hsa), h.argv_at v hv h0]
  have hargs₁ : ∀ a ∈ v.args, Allocator.Live s₁.heap a := fun a ha =>
    (h₁.live a).mpr ⟨hargslive a ha, fun hin => hsargs (List.mem_singleton.mp hin ▸ ha)⟩
  obtain ⟨s₂, hfree₂, h₂⟩ := freeAll_ok hargs₁ hargs
  obtain ⟨s₃, hfree₃, h₃⟩ := free_ok (s := s₂) (a := v.proc.argv) ((h₂.live _).mpr
    ⟨(h₁.live _).mpr ⟨halive, by simpa using Ne.symm hsa⟩, haargs⟩)
  have hfreed := (h₁.trans h₂).trans h₃
  have hnotin : v.procAddr ∉ [v.proc.stack] ++ v.args ++ [v.proc.argv] := by
    simp [hps, hpa, hpargs]
  have hargvs : freeArgv v.proc.argv s₁ = .ok () s₃ := by
    rw [freeArgv, bind_of_ok hargv₁, bind_of_ok hfree₂, hfree₃]
  have hproc₃ : procAt v.procAddr s₃ = .ok v.proc s₃ := by
    rw [procAt, hfreed.process? hnotin, h.process_at v hv]
  rw [ends_bind]
  refine ends_of_ok hargvs ?_
  rw [ends_bind, ends_get, ends_bind]
  refine ends_of_ok hproc₃ ?_
  -- the end of file, written by the current process
  rw [ends_bind]
  refine hwrite s₃ _ (hfreed.of_mem_iff fun a => ?_)
  rw [hargblocks]
  simp only [List.mem_cons, List.mem_append]
  tauto

/-- Where its write changes nothing, `free_proc` frees the blocks of the process. -/
theorem ends_freeProc_unopened {Q : Unit → Kernel H → Prop} (hE : Lenient E) (force : Op H Unit)
    (h : Shows s ring) (hv : v ∈ ring) (hpipes : Unopened s)
    (hQ : ∀ s', Freed s s' v.blocks → Q () s') : Ends Q E (freeProc force v.procAddr) s := by
  refine ends_freeProc_of_write hE force h hv fun s₁ addr h₁ => ?_
  have hpipes₁ : Unopened s₁ := by
    intro j
    rw [congrArg Globals.pipes h₁.globals]
    exact hpipes j
  refine ends_sysWrite_unopened hE force hpipes₁ _ _ fun r => ?_
  have hnotin : v.procAddr ∉ v.proc.stack :: v.argBlocks :=
    (List.nodup_cons.mp (h.blocks_nodup_self hv)).1
  obtain ⟨s₂, hfree₂, h₂⟩ := free_ok ((h₁.live _).mpr ⟨h.procAddr_live hv, hnotin⟩)
  refine ends_of_ok hfree₂ (hQ s₂ ((h₁.trans h₂).of_mem_iff fun a => ?_))
  rw [Entry.blocks]
  simp only [List.mem_cons, List.mem_append]
  tauto

/-! ## The ring without the victim -/

/-- Where the ring starts after a process with that pid has moved into the node. -/
def firstAfter (pid node first : ℕ) : ℕ := if pid = 0 then node else first

/-- The next node's process in the node. -/
def Entry.into (w v : Entry) : Entry := { w with node := v.node, quantums := v.quantums }

/-- The memory after the victim's blocks and the next node have been freed, with the next node's
process in the victim's node. -/
structure Absorbed (s s' : Kernel H) (v w : Entry) : Prop where
  mem : ∀ a, s'.mem a = if a = w.node then none
    else if a = v.node then some (.node ⟨v.quantums, w.procAddr, s.next w.node⟩)
    else if a ∈ v.blocks then none else s.mem a
  live : ∀ a, Allocator.Live s'.heap a ↔ Allocator.Live s.heap a ∧ a ∉ v.blocks ∧ a ≠ w.node

theorem Absorbed.shows (h : Shows s (v :: w :: l)) (habs : Absorbed s s' v w) :
    Shows s' (w.into v :: l) := by
  have hv : v ∈ v :: w :: l := by simp
  have hnodup := h.nodes_nodup
  simp only [List.map_cons, List.nodup_cons, List.mem_cons, not_or] at hnodup
  obtain ⟨⟨hvw, hvl⟩, hwl, hlnodup⟩ := hnodup
  -- an entry that stays: its node and its blocks are untouched
  have hdisj : ∀ x ∈ w :: l, ∀ a ∈ x.blocks, a ∉ v.blocks := by
    intro x hx a ha hav
    obtain rfl := h.blocks_inj (by simp [hx]) hv ha hav
    rcases List.mem_cons.mp hx with rfl | hx
    · exact hvw rfl
    · exact hvl (List.mem_map_of_mem hx)
  have hkeep : ∀ x ∈ w :: l, ∀ a ∈ x.blocks, s'.mem a = s.mem a := by
    intro x hx a ha
    have hxmem : x ∈ v :: w :: l := by simp [hx]
    rw [habs.mem, if_neg, if_neg, if_neg (hdisj x hx a ha)]
    · rintro rfl
      exact h.node_notMem_blocks hxmem hv ha
    · rintro rfl
      exact h.node_notMem_blocks hxmem (by simp) ha
  have hkeepnode : ∀ x ∈ l, s'.node? x.node = s.node? x.node := by
    intro x hx
    have hxnode : x.node ∈ l.map Entry.node := List.mem_map_of_mem hx
    have hw : x.node ≠ w.node := fun heq => hwl (heq ▸ hxnode)
    have hv' : x.node ≠ v.node := fun heq => hvl (heq ▸ hxnode)
    simp only [Kernel.node?, habs.mem, if_neg hw, if_neg hv',
      if_neg (h.node_notMem_blocks hv (show x ∈ v :: w :: l by simp [hx]))]
  have hnode : s'.node? v.node = some ⟨v.quantums, w.procAddr, s.next w.node⟩ := by
    simp [Kernel.node?, habs.mem, hvw]
  have hnextv : s'.next v.node = s.next w.node := by rw [Kernel.next, hnode]; rfl
  have hnextl : ∀ x ∈ l, s'.next x.node = s.next x.node := fun x hx => by
    rw [Kernel.next, hkeepnode x hx]; rfl
  -- nothing but the victim and the next node has gone
  have hback : ∀ a o, s'.mem a = some o →
      a = v.node ∨ a ≠ w.node ∧ a ∉ v.blocks ∧ s.mem a = some o := by
    intro a o ha
    rw [habs.mem] at ha
    split_ifs at ha with haw hav hab
    · exact Or.inl hav
    · exact Or.inr ⟨haw, hab, ha⟩
  have hmem : ∀ x ∈ w.into v :: l, ∃ y ∈ w :: l, y.procAddr = x.procAddr ∧ y.proc = x.proc ∧
      y.args = x.args := by
    intro x hx
    rcases List.mem_cons.mp hx with rfl | hx
    · exact ⟨w, by simp, rfl, rfl, rfl⟩
    · exact ⟨x, by simp [hx], rfl, rfl, rfl⟩
  constructor
  · refine IsRing.remove (b := w.node) h.isRing hnextv fun a ha => ?_
    obtain ⟨x, hx, rfl⟩ := List.mem_map.mp ha
    exact hnextl x hx
  · exact List.nodup_cons.mpr ⟨hvl, hlnodup⟩
  · have := h.blocks_nodup
    rw [List.flatMap_cons, List.nodup_append] at this
    exact this.2.1
  · intro x hx
    rcases List.mem_cons.mp hx with rfl | hx
    · exact hnode.trans (by rw [← hnextv]; rfl)
    · rw [hkeepnode x hx, hnextl x hx]
      exact h.node_at x (by simp [hx])
  · intro a n hn
    rcases hback a _ (node?_eq_some.mp hn) with rfl | ⟨haw, -, ha⟩
    · exact ⟨w.into v, by simp, rfl⟩
    · obtain ⟨x, hx, rfl⟩ := h.node_mem a n (node?_eq_some.mpr ha)
      simp only [List.mem_cons] at hx
      rcases hx with rfl | rfl | hx
      · exact ⟨w.into x, by simp, rfl⟩
      · exact absurd rfl haw
      · exact ⟨x, by simp [hx], rfl⟩
  · intro x hx
    obtain ⟨y, hy, hpa, hp, -⟩ := hmem x hx
    rw [← hpa, ← hp, process?_eq_some, hkeep y hy _ (by simp [Entry.blocks]), ← process?_eq_some]
    exact h.process_at y (by simp [hy])
  · intro x hx
    obtain ⟨y, hy, -, hp, hargs⟩ := hmem x hx
    rw [← hp, ← hargs]
    intro hne
    have hblock : y.proc.argv ∈ y.blocks := by simp [Entry.blocks, mem_argBlocks, hne]
    rw [argv?_eq_some, hkeep y hy _ hblock, ← argv?_eq_some]
    exact h.argv_at y (by simp [hy]) hne
  · intro x hx
    obtain ⟨y, hy, -, hp, hargs⟩ := hmem x hx
    rw [← hp, ← hargs]
    intro hne a ha
    have hblock : a ∈ y.blocks := by simp [Entry.blocks, mem_argBlocks, hne, ha]
    rw [hkeep y hy a hblock]
    exact h.text_at y (by simp [hy]) hne a ha
  · intro x hx
    obtain ⟨y, hy, -, hp, -⟩ := hmem x hx
    rw [← hp, hkeep y hy _ (by simp [Entry.blocks])]
    exact h.stack_at y (by simp [hy])
  · intro a o ha
    rw [habs.live]
    rcases hback a o ha with rfl | ⟨haw, hab, ha⟩
    · exact ⟨h.node_live hv, h.node_notMem_blocks hv hv, hvw⟩
    · exact ⟨h.live a o ha, hab, haw⟩

/-- The links and the contents move over, and the next node is freed. -/
theorem absorbNext_ok (h : Shows s (v :: w :: l)) (hfreed : Freed s s₁ v.blocks) :
    ∃ s', (absorbNext v.node >>= fun _ => free w.node) s₁ = .ok () s' ∧ Absorbed s s' v w ∧
      s'.toGlobals = { s.toGlobals with first := firstAfter w.proc.pid v.node s.first } := by
  have hv : v ∈ v :: w :: l := by simp
  have hw : w ∈ v :: w :: l := by simp
  have hvw : v.node ≠ w.node := fun heq => by
    have hnodup := h.nodes_nodup
    simp [heq] at hnodup
  have hat : ∀ {s : Kernel H} {a : ℕ} {n : Node}, s.node? a = some n → nodeAt a s = .ok n s :=
    fun h => by rw [nodeAt, h]
  have hnode : ∀ x ∈ v :: w :: l, s₁.node? x.node = some ⟨x.quantums, x.procAddr, s.next x.node⟩ :=
    fun x hx => by rw [hfreed.node? (h.node_notMem_blocks hv hx), h.node_at x hx]
  have hnv := hnode v hv
  have hnw := hnode w hw
  rw [show s.next v.node = w.node from h.isRing.next_eq] at hnv
  -- `node->proc = node->next->proc`
  obtain ⟨hproc₂, -, hother₂, hself₂⟩ := put_node (m := ⟨v.quantums, w.procAddr, w.node⟩) hnv
  set s₂ := s₁.put v.node (.node ⟨v.quantums, w.procAddr, w.node⟩) with hs₂
  have hnw₂ := (hother₂ _ (Ne.symm hvw)).trans hnw
  -- `node->next = node->next->next`
  obtain ⟨hproc₃, -, -, hself₃⟩ :=
    put_node (m := ⟨v.quantums, w.procAddr, s.next w.node⟩) hself₂
  set s₃ := s₂.put v.node (.node ⟨v.quantums, w.procAddr, s.next w.node⟩) with hs₃
  have hpw : procAt w.procAddr s₃ = .ok w.proc s₃ := by
    have hnotin : w.procAddr ∉ v.blocks := by
      intro ha
      exact hvw (congrArg Entry.node
        (h.blocks_inj hw hv (a := w.procAddr) List.mem_cons_self ha)).symm
    rw [procAt, hproc₃, hproc₂, hfreed.process? hnotin, h.process_at w hw]
  set s₄ : Kernel H := { s₃ with first := firstAfter w.proc.pid v.node s₃.first } with hs₄
  have hrun : absorbNext v.node s₁ = .ok () s₄ := by
    rw [absorbNext, bind_of_ok (hat hnv), bind_of_ok (hat hnw), bind_of_ok (editNode_ok hnv _),
      bind_of_ok (hat hself₂), bind_of_ok (hat hnw₂), bind_of_ok (editNode_ok hself₂ _),
      bind_of_ok (hat hself₃), bind_of_ok hpw]
    by_cases hpid : w.proc.pid = 0
    · rw [if_pos hpid]
      simp only [modify_apply, hs₄, firstAfter, if_pos hpid]
    · rw [if_neg hpid]
      simp only [pure_apply, hs₄, firstAfter, if_neg hpid]
  -- `free(aux)`
  have hlive₄ : ∀ a, Allocator.Live s₄.heap a ↔ Allocator.Live s.heap a ∧ a ∉ v.blocks :=
    hfreed.live
  obtain ⟨s₅, hfree, h₅⟩ := free_ok (s := s₄) (a := w.node)
    ((hlive₄ _).mpr ⟨h.node_live hw, h.node_notMem_blocks hv hw⟩)
  refine ⟨s₅, by rw [bind_of_ok hrun, hfree], ⟨fun a => ?_, fun a => ?_⟩, ?_⟩
  · rw [h₅.mem]
    by_cases haw : a = w.node
    · simp [haw]
    · by_cases hav : a = v.node
      · simp [hav, hvw, hs₄, hs₃]
      · simp [haw, hav, hs₄, hs₃, hs₂, hfreed.mem]
  · rw [h₅.live, hlive₄, List.mem_singleton, and_assoc]
  · rw [h₅.globals, hs₄]
    show ({ s₃.toGlobals with first := _ } : Globals) = _
    rw [hs₃, put_toGlobals, hs₂, put_toGlobals, hfreed.globals]

/-! ## The parent -/

/-- One child less, and no waiting if it was the last one. -/
def Process.lose (p : Process) : Process :=
  { p with
    children := decr64 p.children
    blockedByChildren := if decr64 p.children = 0 then 0 else p.blockedByChildren }

theorem lose_pid (p : Process) : p.lose.pid = p.pid := rfl

/-- What `ready_process` makes of a process. -/
def Process.wake (p : Process) : Process := { p with state := .ready }

/-- What becomes of the entries when `p` loses a child: after the last one an entry with its pid is
made READY. -/
inductive LosesChild (p : Entry) (ring : List Entry) : (Entry → Entry) → Prop
  | more (h : decr64 p.proc.children ≠ 0) : LosesChild p ring (Entry.edit p.procAddr Process.lose)
  | last {x : Entry} (h : decr64 p.proc.children = 0) (hx : x ∈ ring)
    (hpid : x.proc.pid = p.proc.pid) :
    LosesChild p ring fun y => (y.edit p.procAddr Process.lose).edit x.procAddr Process.wake

variable {g : Entry → Entry}

theorem KeepsShape.comp {k : Entry → Entry} (hg : KeepsShape g) (hk : KeepsShape k) :
    KeepsShape fun x => g (k x) where
  node x := (hg.node _).trans (hk.node x)
  procAddr x := (hg.procAddr _).trans (hk.procAddr x)
  args x := (hg.args _).trans (hk.args x)
  stack x := (hg.stack _).trans (hk.stack x)
  argv x := (hg.argv _).trans (hk.argv x)

theorem LosesChild.shape (h : LosesChild p ring g) : KeepsShape g := by
  have hlose : ∀ a, KeepsShape (Entry.edit a Process.lose) := keepsShape_edit fun _ => ⟨rfl, rfl⟩
  have hwake : ∀ a, KeepsShape (Entry.edit a Process.wake) := keepsShape_edit fun _ => ⟨rfl, rfl⟩
  cases h with
  | more _ => exact hlose _
  | last _ _ _ => exact (hwake _).comp (hlose _)

/-- The fields that have nothing to do with children stay, but for the state. -/
theorem LosesChild.field {γ : Type} (h : LosesChild p ring g) (k : Process → γ)
    (hlose : ∀ q, k q.lose = k q) (hwake : ∀ q, k q.wake = k q) (x : Entry) :
    k (g x).proc = k x.proc := by
  cases h with
  | more _ => exact edit_field k hlose _ x
  | last _ _ _ => exact (edit_field k hwake _ _).trans (edit_field k hlose _ x)

theorem loseChild_ok (h : Shows s ring) (hp : p ∈ ring) (hfirst : s.first ∈ ring.map Entry.node) :
    ∃ s' g, loseChild p.node s = .ok () s' ∧ LosesChild p ring g ∧ Shows s' (ring.map g) ∧
      s'.toGlobals = { s.toGlobals with blockCount := s'.blockCount } ∧ s'.heap = s.heap := by
  let dec : Process → Process := fun q => { q with children := decr64 q.children }
  obtain ⟨s₁, hedit₁, h₁, hglob₁, hheap₁⟩ := h.editProc hp (f := dec) fun _ => ⟨rfl, rfl⟩
  have hp₁ := List.mem_map_of_mem (f := Entry.edit p.procAddr dec) hp
  have hnode₁ := h₁.nodeAt hp₁
  have hproc₁ := h₁.procAt hp₁
  rw [edit_node, edit_procAddr] at hnode₁
  rw [edit_procAddr, edit_self] at hproc₁
  by_cases hlast : decr64 p.proc.children = 0
  · -- the last child: `p` stops waiting and is made ready
    let calm : Process → Process := fun q => { q with blockedByChildren := 0 }
    obtain ⟨s₂, hedit₂, h₂, hglob₂, hheap₂⟩ := h₁.editProc hp₁ (f := calm) fun _ => ⟨rfl, rfl⟩
    rw [edit_procAddr] at hedit₂ h₂
    have hboth : (ring.map (Entry.edit p.procAddr dec)).map (Entry.edit p.procAddr calm) =
        ring.map (Entry.edit p.procAddr Process.lose) := by
      rw [List.map_map]
      refine List.map_congr_left fun y hy => ?_
      by_cases hyp : y.procAddr = p.procAddr
      · obtain rfl := h.procAddr_inj hy hp hyp
        simp [Entry.edit, Process.lose, dec, calm, hlast]
      · simp [edit_of_ne _ hyp]
    rw [hboth] at h₂
    have hp₂ := List.mem_map_of_mem (f := Entry.edit p.procAddr Process.lose) hp
    have hnode₂ := h₂.nodeAt hp₂
    have hproc₂ := h₂.procAt hp₂
    rw [edit_node, edit_procAddr] at hnode₂
    rw [edit_procAddr, edit_self] at hproc₂
    have hfirst₂ : s₂.first ∈ (ring.map (Entry.edit p.procAddr Process.lose)).map Entry.node := by
      rw [congrArg Globals.first (hglob₂.trans hglob₁)]
      simpa [Function.comp_def] using hfirst
    rcases h₂.readyProcess hfirst₂ p.proc.pid with
      ⟨y, hy, hypid, s₃, hready, h₃, hglob₃, hheap₃⟩ | hnone
    · obtain ⟨x, hx, rfl⟩ := List.mem_map.mp hy
      rw [edit_field Process.pid lose_pid] at hypid
      rw [edit_procAddr, List.map_map] at h₃
      refine ⟨s₃, _, ?_, .last hlast hx hypid, h₃, ?_, ?_⟩
      · rw [loseChild, bind_of_ok (h.nodeAt hp), bind_of_ok hedit₁, bind_of_ok hnode₁,
          bind_of_ok hproc₁, if_pos hlast, bind_of_ok hnode₁, bind_of_ok hedit₂, bind_of_ok hnode₂,
          bind_of_ok hproc₂]
        exact bind_of_ok hready
      · rw [hglob₃, hglob₂, hglob₁]
      · rw [hheap₃, hheap₂, hheap₁]
    · refine absurd ?_ (hnone.1 _ hp₂)
      rw [edit_field Process.pid lose_pid]
  · have hsame : ring.map (Entry.edit p.procAddr dec) =
        ring.map (Entry.edit p.procAddr Process.lose) := by
      refine List.map_congr_left fun y hy => ?_
      by_cases hyp : y.procAddr = p.procAddr
      · obtain rfl := h.procAddr_inj hy hp hyp
        simp [Entry.edit, Process.lose, dec, hlast]
      · simp [edit_of_ne _ hyp]
    refine ⟨s₁, _, ?_, .more hlast, hsame ▸ h₁, ?_, hheap₁⟩
    · rw [loseChild, bind_of_ok (h.nodeAt hp), bind_of_ok hedit₁, bind_of_ok hnode₁,
        bind_of_ok hproc₁, if_neg hlast]
      rfl
    · rw [hglob₁]

theorem countRemoval_ok (h : Shows s ring) (hv : v ∈ ring) :
    ∃ s', countRemoval v.node s = .ok () s' ∧ s'.mem = s.mem ∧ s'.heap = s.heap ∧
      s'.toGlobals =
        { s.toGlobals with counter := decr64 s.counter, blockCount := s'.blockCount } := by
  have h₁ : Shows { s with counter := decr64 s.counter } ring := h.congr rfl rfl
  by_cases hblocked : v.proc.state = .blocked
  · refine ⟨{ s with counter := decr64 s.counter, blockCount := decr64 s.blockCount }, ?_, rfl, rfl,
      rfl⟩
    rw [countRemoval, modify_bind, bind_of_ok (h₁.nodeAt hv), bind_of_ok (h₁.procAt hv),
      if_pos hblocked]
    rfl
  · refine ⟨{ s with counter := decr64 s.counter }, ?_, rfl, rfl, rfl⟩
    rw [countRemoval, modify_bind, bind_of_ok (h₁.nodeAt hv), bind_of_ok (h₁.procAt hv),
      if_neg hblocked]
    rfl

/-! ## `destroy_node` -/

/-- The state after `v` has left a ring that starts with `v` and `w`, and `p` has lost a child. -/
structure Removed (s s' : Kernel H) (p v w : Entry) (l : List Entry) (g : Entry → Entry) :
    Prop where
  loses : LosesChild p (v :: w :: l) g
  shows : Shows s' ((g w).into (g v) :: l.map g)
  globals : s'.toGlobals =
    { s.toGlobals with
      counter := decr64 s.counter
      blockCount := s'.blockCount
      first := firstAfter w.proc.pid v.node s.first }
  live : ∀ a, Allocator.Live s'.heap a ↔ Allocator.Live s.heap a ∧ a ∉ v.blocks ∧ a ≠ w.node

/-- A ring of one node cannot lose it: its process would move into the node after it has been
freed. -/
theorem ends_absorbNext_alone {Q : Unit → Kernel H → Prop} (hE : Lenient E) (h : Shows s [v])
    (hfreed : Freed s s₁ v.blocks) : Ends Q E (absorbNext v.node) s₁ := by
  have hnext : s.next v.node = v.node := isRing_singleton.mp h.isRing
  have hnode : s₁.node? v.node = some ⟨v.quantums, v.procAddr, v.node⟩ := by
    rw [hfreed.node? (h.node_notMem_blocks (by simp) (by simp)), h.node_at v (by simp), hnext]
  have hgone : s₁.process? v.procAddr = none := by
    simp [Kernel.process?, hfreed.mem, Entry.blocks]
  -- the assignments leave the node as it is
  have hsame : s₁.put v.node (.node ⟨v.quantums, v.procAddr, v.node⟩) = s₁ := by
    rw [Kernel.put, ← node?_eq_some.mp hnode, Function.update_eq_self]
  have hat : nodeAt v.node s₁ = .ok ⟨v.quantums, v.procAddr, v.node⟩ s₁ := by rw [nodeAt, hnode]
  have hedit : ∀ f : Node → Node,
      f ⟨v.quantums, v.procAddr, v.node⟩ = ⟨v.quantums, v.procAddr, v.node⟩ →
        editNode v.node f s₁ = .ok () s₁ := by
    intro f hf
    rw [editNode_ok hnode, hf, hsame]
  rw [absorbNext, ends_bind]
  refine ends_of_ok hat ?_
  rw [ends_bind]
  refine ends_of_ok hat ?_
  rw [ends_bind]
  refine ends_of_ok (hedit _ rfl) ?_
  rw [ends_bind]
  refine ends_of_ok hat ?_
  rw [ends_bind]
  refine ends_of_ok hat ?_
  rw [ends_bind]
  refine ends_of_ok (hedit _ rfl) ?_
  rw [ends_bind]
  refine ends_of_ok hat ?_
  rw [ends_bind]
  refine ends_procAt hE fun q hq => ?_
  exact absurd (hgone.symm.trans hq) (by simp)

/-- `destroy_node`, called by the process `e` for the process on `v`: without a parent of `e` in the
ring nothing happens, and otherwise `v` is removed. -/
theorem ends_destroyNode {Q : Unit → Kernel H → Prop} (hE : Lenient E) (force : Op H Unit)
    (h : Shows s ring) (hpipes : Unopened s) (hmutex : MutexFree s.semaphores PROC_MUTEX.bytes)
    (hdis : s.disableCount < 2 ^ 31 - 1) (hv : v ∈ ring)
    (horphan : ∀ e ∈ ring, e.node = s.currentNode → (∀ x ∈ ring, x.proc.pid ≠ e.proc.ppid) →
      s.nodeOf e.proc.ppid = 0 → Q () s)
    (hremoved : ∀ e ∈ ring, e.node = s.currentNode → ∀ p ∈ ring, p.proc.pid = e.proc.ppid →
      p.node = s.nodeOf e.proc.ppid → ∀ w l, ring.IsRotated (v :: w :: l) →
        ∀ s' g, Removed s s' p v w l g → Q () s') :
    Ends Q E (destroyNode force v.node) s := by
  rw [destroyNode]
  refine h.ends_current hE fun e he hcur => ?_
  rw [ends_bind]
  refine ends_findNode_ring hE h (fun _ hnone hnot => ?_) fun hfirst p hp hpid hfound => ?_
  · rw [if_pos rfl]
    exact horphan e he hcur hnone hnot
  rw [if_neg (h.node_ne_zero hp)]
  obtain ⟨l, hr⟩ := exists_isRotated_cons hv
  -- `sem_wait`
  obtain ⟨r₁, hwait⟩ := semWait_free (s := s) force hmutex
  rw [ends_bind]
  refine ends_of_ok hwait ?_
  set s₁ : Kernel H := { s with semaphores := held s.semaphores PROC_MUTEX.bytes } with hs₁
  have h₁ : Shows s₁ (v :: l) := (h.rotated hr).congr rfl rfl
  -- the parent loses a child
  have hfirst₁ : s₁.first ∈ (v :: l).map Entry.node := (hr.map Entry.node).mem_iff.mp hfirst
  obtain ⟨s₂, g, hlose, hloses, h₂, hglob₂, hheap₂⟩ := loseChild_ok h₁ (hr.mem_iff.mp hp) hfirst₁
  rw [ends_bind]
  refine ends_of_ok hlose ?_
  -- `sem_post`
  obtain ⟨r₃, hpost⟩ := semPost_held (s := s₂) hmutex (by rw [hglob₂]) (by rw [hglob₂]; exact hdis)
  rw [ends_bind]
  refine ends_of_ok hpost ?_
  set s₃ : Kernel H := { s₂ with semaphores := s.semaphores } with hs₃
  have h₃ : Shows s₃ (g v :: l.map g) := h₂.congr rfl rfl
  have hglob₃ : s₃.toGlobals = { s.toGlobals with blockCount := s₃.blockCount } := by
    rw [hs₃]
    show ({ s₂.toGlobals with semaphores := _ } : Globals) = _
    rw [hglob₂]
  -- the counters
  have hv₃ : g v ∈ g v :: l.map g := by simp
  obtain ⟨s₄, hcount, hmem₄, hheap₄, hglob₄⟩ := countRemoval_ok h₃ hv₃
  rw [hloses.shape.node] at hcount
  rw [ends_bind]
  refine ends_of_ok hcount ?_
  have h₄ : Shows s₄ (g v :: l.map g) := h₃.congr hmem₄ hheap₄
  have hpipes₄ : Unopened s₄ := by
    intro j
    have hsame : s₄.pipes = s.pipes := by
      rw [hglob₄]
      show s₃.toGlobals.pipes = _
      rw [hglob₃]
    rw [hsame]
    exact hpipes j
  have hnodev := h₄.nodeAt (show g v ∈ g v :: l.map g by simp)
  rw [hloses.shape.node, hloses.shape.procAddr] at hnodev
  rw [ends_bind]
  refine ends_of_ok hnodev ?_
  rw [ends_bind]
  refine ends_of_ok hnodev ?_
  -- the blocks of the victim
  rw [ends_bind, ← hloses.shape.procAddr v]
  refine ends_freeProc_unopened hE force h₄ (by simp) hpipes₄ fun s₅ h₅ => ?_
  rw [← hloses.shape.node v]
  cases l with
  | nil =>
    rw [ends_bind]
    exact ends_absorbNext_alone hE h₄ h₅
  | cons w l =>
    have hnext : s₄.next (g v).node = (g w).node := h₄.isRing.next_eq
    obtain ⟨s₆, habsorb, habs, hglob₆⟩ := absorbNext_ok h₄ h₅
    dsimp only
    rw [hnext]
    refine ends_of_ok habsorb (hremoved e he hcur p hp hpid hfound w l hr s₆ g
      ⟨hloses, habs.shows h₄, ?_, fun a => ?_⟩)
    · rw [hglob₆, hloses.field Process.pid (fun _ => rfl) (fun _ => rfl), hloses.shape.node, hglob₄,
        hglob₃]
    · rw [habs.live, hheap₄, hloses.shape.blocks, hloses.shape.node]
      show Allocator.Live s₂.heap a ∧ _ ↔ _
      rw [hheap₂]

end TronKernel.Sched
