import TronKernel.Sched.Create
import TronKernel.Sched.Destroy

/-!
# A new process in the ring

`add_process` on a ring that is read from the current process on: the new entry is the second one,
if there was memory for its node, and the current process has one child more.
-/

namespace TronKernel.Sched

open CircularList Programs Sem

variable {H : Type} [Allocator H] {s s' : Kernel H} {l : List Entry} {e : Entry} {a : ℕ}

/-- One child more. -/
def Process.bear (p : Process) : Process := { p with children := incr64 p.children }

/-- The entry of a new process. -/
def newEntry (p : Process) (proc newNode : ℕ) (args : List ℕ) : Entry :=
  ⟨newNode, p.priority, proc, p, args⟩

/-- The entry of the current process after `add_process`. -/
def Entry.bear (e : Entry) : Entry := { e with proc := e.proc.bear }

theorem bear_blocks (e : Entry) : e.bear.blocks = e.blocks := rfl

variable {p : Process} {proc newNode : ℕ} {args own : List ℕ}

/-- Where everything but the current node and its process is after `add_process`. -/
theorem Added.mem_eq (h : Shows s (e :: l))
    (hadd : Added s s' ⟨e.quantums, e.procAddr, s.next e.node⟩ e.proc p proc newNode args own)
    (hcur : e.node = s.currentNode) {o : Object} (ha : s.mem a = some o) (hnode : ∀ n, o ≠ .node n)
    (hprocess : ∀ q, o ≠ .process q) : s'.mem a = some o := by
  rw [hadd.kept a (h.live a o ha) (fun heq => ?_) fun heq => ?_, ha]
  · have hn := node?_eq_some.mp (h.node_at e (by simp))
    rw [hcur, ← heq, ha] at hn
    exact hnode _ (Option.some.inj hn)
  · have hp := process?_eq_some.mp (h.process_at e (by simp))
    replace heq : a = e.procAddr := heq
    rw [← heq, ha] at hp
    exact hprocess _ (Option.some.inj hp)

/-- The new blocks are no blocks of the ring. -/
theorem Added.notMem_blocks (h : Shows s (e :: l))
    (hadd : Added s s' ⟨e.quantums, e.procAddr, s.next e.node⟩ e.proc p proc newNode args own)
    {x : Entry} (hx : x ∈ e :: l) (ha : a ∈ proc :: p.stack :: own) : a ∉ x.blocks := by
  intro hblock
  exact hadd.fresh.not_live a (List.mem_append_right _ ha) (h.blocks_live hx hblock)

/-- The processes of the ring after `add_process`. -/
theorem Added.process_at (h : Shows s (e :: l))
    (hadd : Added s s' ⟨e.quantums, e.procAddr, s.next e.node⟩ e.proc p proc newNode args own) :
    s'.process? e.procAddr = some e.proc.bear ∧
      ∀ x ∈ l, s'.process? x.procAddr = some x.proc := by
  have hne : ∀ x ∈ e :: l, x.procAddr ≠ proc := fun x hx heq =>
    hadd.notMem_blocks h hx (a := proc) (by simp) (by simp [Entry.blocks, heq])
  constructor
  · rw [hadd.process?, if_neg (hne e (by simp)), if_pos rfl]
    rfl
  · intro x hx
    have hxe : x.procAddr ≠ e.procAddr := by
      intro heq
      obtain rfl := h.procAddr_inj (by simp [hx]) (by simp) heq
      have hnodup := h.nodes_nodup
      rw [List.map_cons, List.nodup_cons] at hnodup
      exact hnodup.1 (List.mem_map_of_mem hx)
    rw [hadd.process?, if_neg (hne x (by simp [hx])), if_neg hxe]
    exact h.process_at x (by simp [hx])

/-- Without memory for the node the ring stays as it is. -/
theorem Added.shows_lost (h : Shows s (e :: l)) (hcur : e.node = s.currentNode)
    (hadd : Added s s' ⟨e.quantums, e.procAddr, s.next e.node⟩ e.proc p proc 0 args own) :
    Shows s' (e.bear :: l) := by
  have hnode : s'.node? = s.node? := funext fun a => (hadd.node? a).trans (if_pos rfl)
  have hnext : s'.next = s.next := by
    funext a
    simp only [Kernel.next, hnode]
  have hback : ∀ x ∈ e.bear :: l, ∃ y ∈ e :: l, y.node = x.node ∧ y.quantums = x.quantums ∧
      y.procAddr = x.procAddr ∧ y.args = x.args ∧ y.proc.argv = x.proc.argv ∧
      y.proc.stack = x.proc.stack := by
    intro x hx
    rcases List.mem_cons.mp hx with rfl | hx
    · exact ⟨e, by simp, rfl, rfl, rfl, rfl, rfl, rfl⟩
    · exact ⟨x, by simp [hx], rfl, rfl, rfl, rfl, rfl, rfl⟩
  obtain ⟨hself, hother⟩ := hadd.process_at h
  constructor
  · rw [hnext]
    exact h.isRing
  · exact h.nodes_nodup
  · exact h.blocks_nodup
  · intro x hx
    obtain ⟨y, hy, hn, hq, hp, -⟩ := hback x hx
    rw [hnode, hnext, ← hn, ← hq, ← hp]
    exact h.node_at y hy
  · intro a n hn
    rw [hnode] at hn
    obtain ⟨y, hy, rfl⟩ := h.node_mem a n hn
    rcases List.mem_cons.mp hy with rfl | hy
    · exact ⟨y.bear, by simp, rfl⟩
    · exact ⟨y, by simp [hy], rfl⟩
  · intro x hx
    rcases List.mem_cons.mp hx with rfl | hx
    · exact hself
    · exact hother x hx
  · intro x hx
    obtain ⟨y, hy, -, -, -, hargs, hargv, -⟩ := hback x hx
    rw [← hargs, ← hargv]
    intro hne
    rw [argv?_eq_some]
    exact hadd.mem_eq h hcur (argv?_eq_some.mp (h.argv_at y hy hne)) (by simp) (by simp)
  · intro x hx
    obtain ⟨y, hy, -, -, -, hargs, hargv, -⟩ := hback x hx
    rw [← hargs, ← hargv]
    intro hne a ha
    obtain ⟨b, hb⟩ := h.text_at y hy hne a ha
    exact ⟨b, hadd.mem_eq h hcur hb (by simp) (by simp)⟩
  · intro x hx
    obtain ⟨y, hy, -, -, -, -, -, hstack⟩ := hback x hx
    rw [← hstack]
    exact hadd.mem_eq h hcur (h.stack_at y hy) (by simp) (by simp)
  · exact hadd.within

/-- With memory for the node, the new entry is behind the current one. -/
theorem Added.shows_linked (h : Shows s (e :: l)) (hcur : e.node = s.currentNode)
    (hadd : Added s s' ⟨e.quantums, e.procAddr, s.next e.node⟩ e.proc p proc newNode args own)
    (h0 : newNode ≠ 0) : Shows s' (e.bear :: newEntry p proc newNode args :: l) := by
  have hfresh := hadd.fresh
  rw [if_neg h0] at hfresh
  have hnew : ∀ x ∈ e :: l, x.node ≠ newNode := fun x hx heq =>
    hfresh.not_live newNode (by simp) (heq ▸ h.node_live hx)
  have hnodup := h.nodes_nodup
  rw [List.map_cons, List.nodup_cons] at hnodup
  have hnodee : s'.node? e.node = some ⟨e.quantums, e.procAddr, newNode⟩ := by
    rw [hadd.node?, if_neg h0, if_neg (hnew e (by simp)), if_pos hcur]
  have hnoden : s'.node? newNode = some ⟨p.priority, proc, s.next e.node⟩ := by
    rw [hadd.node?, if_neg h0, if_pos rfl]
  have hnodel : ∀ x ∈ l, s'.node? x.node = s.node? x.node := by
    intro x hx
    have hxe : x.node ≠ s.currentNode := fun heq =>
      hnodup.1 (hcur ▸ heq ▸ List.mem_map_of_mem hx)
    rw [hadd.node?, if_neg h0, if_neg (hnew x (by simp [hx])), if_neg hxe]
  have hnexte : s'.next e.node = newNode := by rw [Kernel.next, hnodee]; rfl
  have hnextn : s'.next newNode = s.next e.node := by rw [Kernel.next, hnoden]; rfl
  have hnextl : ∀ x ∈ l, s'.next x.node = s.next x.node := fun x hx => by
    rw [Kernel.next, hnodel x hx]; rfl
  have hargs : (newEntry p proc newNode args).argBlocks = own := hadd.args_at.blocks.symm
  obtain ⟨hself, hother⟩ := hadd.process_at h
  -- the argument lists, the strings and the stacks of the others
  have hback : ∀ x ∈ e.bear :: l, ∃ y ∈ e :: l, y.args = x.args ∧ y.proc.argv = x.proc.argv ∧
      y.proc.stack = x.proc.stack := by
    intro x hx
    rcases List.mem_cons.mp hx with rfl | hx
    · exact ⟨e, by simp, rfl, rfl, rfl⟩
    · exact ⟨x, by simp [hx], rfl, rfl, rfl⟩
  have hcases : ∀ {x : Entry}, x ∈ e.bear :: newEntry p proc newNode args :: l →
      x = newEntry p proc newNode args ∨ x ∈ e.bear :: l := by
    intro x hx
    simp only [List.mem_cons] at hx ⊢
    tauto
  constructor
  · refine IsRing.insert h.isRing hnexte hnextn fun x hx => ?_
    obtain ⟨y, hy, rfl⟩ := List.mem_map.mp hx
    exact hnextl y hy
  · simp only [List.map_cons, List.nodup_cons, List.mem_cons, not_or]
    refine ⟨⟨hnew e (by simp), hnodup.1⟩, fun hmem => ?_, hnodup.2⟩
    obtain ⟨y, hy, heq⟩ := List.mem_map.mp hmem
    exact hnew y (by simp [hy]) heq
  · have hperm : ((e.bear :: newEntry p proc newNode args :: l).flatMap Entry.blocks).Perm
        ((newEntry p proc newNode args).blocks ++ (e :: l).flatMap Entry.blocks) := by
      simp only [List.flatMap_cons, bear_blocks]
      exact List.perm_append_comm_assoc _ _ _
    rw [hperm.nodup_iff, List.nodup_append]
    refine ⟨?_, h.blocks_nodup, ?_⟩
    · rw [Entry.blocks, hargs]
      exact (List.nodup_cons.mp hfresh.nodup).2
    · rintro b hb c hc rfl
      obtain ⟨y, hy, hblock⟩ := List.mem_flatMap.mp hc
      rw [Entry.blocks, hargs] at hb
      exact hadd.notMem_blocks h hy hb hblock
  · intro x hx
    simp only [List.mem_cons] at hx
    rcases hx with rfl | rfl | hx
    · exact hnodee.trans (by rw [show e.bear.node = e.node from rfl, hnexte]; rfl)
    · exact hnoden.trans (by rw [← hnextn]; rfl)
    · rw [hnodel x hx, hnextl x hx]
      exact h.node_at x (by simp [hx])
  · intro a n hn
    rw [hadd.node?, if_neg h0] at hn
    split_ifs at hn with han hac
    · exact ⟨newEntry p proc newNode args, by simp, han.symm⟩
    · exact ⟨e.bear, by simp, hcur.trans hac.symm⟩
    · obtain ⟨y, hy, rfl⟩ := h.node_mem a n hn
      rcases List.mem_cons.mp hy with rfl | hy
      · exact absurd hcur hac
      · exact ⟨y, by simp [hy], rfl⟩
  · intro x hx
    simp only [List.mem_cons] at hx
    rcases hx with rfl | rfl | hx
    · exact hself
    · exact (hadd.process? proc).trans (if_pos rfl)
    · exact hother x hx
  · intro x hx hne
    rcases hcases hx with rfl | hx
    · exact hadd.args_at.argv_at hne
    · obtain ⟨y, hy, hargs, hargv, -⟩ := hback x hx
      rw [← hargv] at hne
      rw [← hargs, ← hargv, argv?_eq_some]
      exact hadd.mem_eq h hcur (argv?_eq_some.mp (h.argv_at y hy hne)) (by simp) (by simp)
  · intro x hx hne a ha
    rcases hcases hx with rfl | hx
    · exact hadd.args_at.text_at hne a ha
    · obtain ⟨y, hy, hargs, hargv, -⟩ := hback x hx
      rw [← hargv] at hne
      rw [← hargs] at ha
      obtain ⟨b, hb⟩ := h.text_at y hy hne a ha
      exact ⟨b, hadd.mem_eq h hcur hb (by simp) (by simp)⟩
  · intro x hx
    rcases hcases hx with rfl | hx
    · exact hadd.stack_at
    · obtain ⟨y, hy, -, -, hstack⟩ := hback x hx
      rw [← hstack]
      exact hadd.mem_eq h hcur (h.stack_at y hy) (by simp) (by simp)
  · exact hadd.within

end TronKernel.Sched
