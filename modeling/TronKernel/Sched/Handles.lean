import TronKernel.Lib.Runs
import TronKernel.Sched.Outcomes

/-!
# The ring and the pointers into it

`destroy_node` takes a process out of the ring by moving the next node's process into its node and
freeing the next node. While no pointer of the scheduler goes to that next node, `first`,
`currentNode`, `foreground` and `background` stay nodes of the ring (`handles_in_ring`), and go on
referring to the processes they referred to. Otherwise they are left behind
(`current_freed`).
-/

namespace TronKernel.Sched.Lives

open Programs CircularList Runs

variable {H : Type} [Allocator H] {s s' t : Kernel H} {ring ring' l : List Entry} {e v x : Entry}
  {T : ℕ → Prop} {fg bg : ℕ} {g : Entry → Entry} {c : Call}

/-- If the step removes a process, none of the pointers goes to the node behind it, but for `first`
if that is the node of the idle process. -/
def Apart (s : Kernel H) (c : Call) : Prop :=
  c.Spares s ∨
    s.next (c.victim s) ≠ s.currentNode ∧ s.next (c.victim s) ≠ (c.grounds s).1 ∧
      s.next (c.victim s) ≠ (c.grounds s).2 ∧
      (s.next (c.victim s) = s.first → s.pidOf (s.next (c.victim s)) = 0)

instance apartDecidable (s : Kernel H) (c : Call) : Decidable (Apart s c) :=
  inferInstanceAs (Decidable (_ ∨ _))

/-- From `first` on the links visit all nodes and come back, and the pointers go to them. -/
def HandlesInRing (s : Kernel H) : Prop :=
  ∃ l, IsRing s.next (s.first :: l) ∧ (s.first :: l).Nodup ∧
    (∀ a, a ∈ s.first :: l ↔ (s.node? a).isSome) ∧
    (∀ a ∈ s.first :: l, Allocator.Live s.heap a) ∧
    s.currentNode ∈ s.first :: l ∧
    (s.foreground ≠ 0 → s.foreground ∈ s.first :: l) ∧
    (s.background ≠ 0 → s.background ∈ s.first :: l)

/-! ## The invariant -/

/-- The pointers go to nodes of the ring. -/
structure Handled (s : Kernel H) (ring : List Entry) : Prop where
  base : Base s ring
  first : s.first ∈ ring.map Entry.node
  current : s.currentNode ∈ ring.map Entry.node
  foreground : s.foreground ≠ 0 → s.foreground ∈ ring.map Entry.node
  background : s.background ≠ 0 → s.background ∈ ring.map Entry.node

theorem Handled.handlesInRing (h : Handled s ring) : HandlesInRing s := by
  obtain ⟨e, he, hfirst⟩ := List.mem_map.mp h.first
  obtain ⟨l, hr⟩ := exists_isRotated_cons he
  have hl := h.base.shows.rotated hr
  have hnodes := hr.map Entry.node
  have hmem : ∀ a, a ∈ ring.map Entry.node ↔ a ∈ s.first :: l.map Entry.node := fun a => by
    rw [← hfirst, ← List.map_cons]
    exact hnodes.mem_iff
  refine ⟨l.map Entry.node, ?_, ?_, fun a => ?_, fun a ha => ?_, (hmem _).mp h.current,
    fun h0 => (hmem _).mp (h.foreground h0), fun h0 => (hmem _).mp (h.background h0)⟩
  · rw [← hfirst]
    exact hl.isRing
  · rw [← hfirst]
    exact hl.nodes_nodup
  · rw [← hmem, Option.isSome_iff_exists]
    constructor
    · intro ha
      obtain ⟨x, hx, rfl⟩ := List.mem_map.mp ha
      exact ⟨_, h.base.shows.node_at x hx⟩
    · rintro ⟨n, hn⟩
      obtain ⟨x, hx, rfl⟩ := h.base.shows.node_mem a n hn
      exact List.mem_map_of_mem hx
  · obtain ⟨x, hx, rfl⟩ := List.mem_map.mp ((hmem a).mpr ha)
    exact h.base.shows.node_live hx

omit [Allocator H] in
/-- The two pointers after a step are the two from before it, or the first of them and NULL. -/
theorem grounds_cases (s : Kernel H) (c : Call) :
    c.grounds s = (s.foreground, s.background) ∨ c.grounds s = (s.background, 0) := by
  have hhand : s.handOver = (s.foreground, s.background) ∨ s.handOver = (s.background, 0) := by
    unfold Kernel.handOver
    split_ifs
    · exact Or.inl rfl
    · exact Or.inr rfl
  cases c with
  | schedule sp =>
    unfold Call.grounds
    split_ifs
    · exact hhand
    · exact Or.inl rfl
  | killForegroundProc => exact hhand
  | _ => exact Or.inl rfl

theorem Handled.grounds (h : Handled s ring) (c : Call) :
    ((c.grounds s).1 ≠ 0 → (c.grounds s).1 ∈ ring.map Entry.node) ∧
      ((c.grounds s).2 ≠ 0 → (c.grounds s).2 ∈ ring.map Entry.node) := by
  rcases grounds_cases s c with hsame | hback
  · rw [hsame]
    exact ⟨h.foreground, h.background⟩
  · rw [hback]
    exact ⟨h.background, fun h0 => absurd rfl h0⟩

theorem Handled.quiet (h : Handled s ring)
    (hq : Quiet T (c.grounds s).1 (c.grounds s).2 s t ring g) : Handled t (ring.map g) where
  base := hq.base h.base
  first := by
    rw [keepsShape_nodes hq.shape, hq.globals]
    exact h.first
  current := by
    rw [keepsShape_nodes hq.shape, hq.globals]
    exact h.current
  foreground := by
    rw [keepsShape_nodes hq.shape, hq.globals]
    exact (h.grounds c).1
  background := by
    rw [keepsShape_nodes hq.shape, hq.globals]
    exact (h.grounds c).2

/-- Assignments do not change the links of the ring. -/
theorem Quiet.next (hq : Quiet T fg bg s t ring g) (hs : Shows s ring) (hv : v ∈ ring) :
    t.next v.node = s.next v.node := by
  have hring := hq.shows.isRing
  rw [keepsShape_nodes hq.shape] at hring
  exact hs.isRing.next_unique hring (List.mem_map_of_mem hv)

/-- The node behind `v` is the only one that goes. -/
theorem Leaves.behind (hs : Shows s ring) (hl : Leaves s s' ring v ring') :
    ∃ w ∈ ring, w.node = s.next v.node ∧ s'.first = firstAfter w.proc.pid v.node s.first ∧
    ∀ a ∈ ring.map Entry.node, a ≠ w.node → a ∈ ring'.map Entry.node := by
  obtain ⟨he, -, -, -, -, hr, h⟩ := hl
  next e p w l g =>
  have hring := (hs.rotated hr).isRing
  refine ⟨w, hr.mem_iff.mpr (by simp), hring.next_eq.symm, by rw [h.globals], fun a ha hne => ?_⟩
  rw [List.map_cons, keepsShape_nodes h.loses.shape, Entry.into, h.loses.shape.node]
  rw [(hr.map Entry.node).mem_iff] at ha
  simp only [List.map_cons, List.mem_cons] at ha ⊢
  tauto

theorem Handled.leaves (h : Handled s ring) (hl : Leaves s s' ring v ring')
    (hcur : s.next v.node ≠ s.currentNode) (hfg : s.next v.node ≠ s.foreground)
    (hbg : s.next v.node ≠ s.background)
    (hfirst : s.next v.node = s.first → s.pidOf (s.next v.node) = 0) : Handled s' ring' := by
  obtain ⟨w, hw, hnext, hfirst', hkeep⟩ := hl.behind h.base.shows
  obtain ⟨first, hglob⟩ := hl.globals
  rw [← hnext] at hcur hfg hbg hfirst
  rw [h.base.shows.pidOf hw] at hfirst
  refine ⟨hl.base h.base, ?_, ?_, fun h0 => ?_, fun h0 => ?_⟩
  · rw [hfirst', firstAfter]
    split_ifs with hpid
    · exact hl.node_mem
    · exact hkeep _ h.first fun heq => hpid (hfirst heq.symm)
  · rw [hl.currentNode]
    exact hkeep _ h.current (Ne.symm hcur)
  · rw [hglob] at h0 ⊢
    exact hkeep _ (h.foreground h0) (Ne.symm hfg)
  · rw [hglob] at h0 ⊢
    exact hkeep _ (h.background h0) (Ne.symm hbg)

omit [Allocator H] in
theorem promote_foreground (k : Globals) (isForeground newNode : ℕ) :
    (k.promote isForeground newNode).foreground =
      if isForeground = 1 then newNode else k.foreground := by
  unfold Globals.promote
  split_ifs <;> rfl

omit [Allocator H] in
theorem promote_background (k : Globals) (isForeground newNode : ℕ) :
    (k.promote isForeground newNode).background =
      if isForeground = 1 ∧ k.background = 0 then k.foreground else k.background := by
  unfold Globals.promote
  split_ifs with hone h0 hboth hboth hboth <;> first | rfl | tauto

theorem Handled.joins (h : Handled s ring) {p : Process} {proc newNode isForeground : ℕ}
    {args : List ℕ} (hr : ring.IsRotated (e :: l))
    (hj : Joins s t e l p proc newNode args isForeground ring') : Handled t ring' := by
  have hold : ∀ a ∈ ring.map Entry.node, a ∈ ring'.map Entry.node := by
    intro a ha
    obtain ⟨x, hx, rfl⟩ := List.mem_map.mp ha
    rcases List.mem_cons.mp (hr.mem_iff.mp hx) with rfl | hx
    · exact List.mem_map.mpr ⟨x.bear, hj.mem_iff.mpr (by simp), rfl⟩
    · exact List.mem_map_of_mem (hj.mem_iff.mpr (by simp [hx]))
  have hnew : newNode ≠ 0 → newNode ∈ ring'.map Entry.node := fun h0 =>
    List.mem_map.mpr ⟨newEntry p proc newNode args, hj.mem_iff.mpr (by simp [h0]), rfl⟩
  refine ⟨hj.base h.base, ?_, ?_, fun h0 => ?_, fun h0 => ?_⟩
  · have hsame : t.first = s.first := by
      rw [hj.globals, Globals.promote]
      split_ifs <;> rfl
    exact hsame ▸ hold _ h.first
  · rw [hj.currentNode]
    exact hold _ h.current
  · rw [hj.globals, promote_foreground] at h0 ⊢
    split_ifs at h0 ⊢
    · exact hnew h0
    · exact hold _ (h.foreground h0)
  · rw [hj.globals, promote_background] at h0 ⊢
    split_ifs at h0 ⊢
    · exact hold _ (h.foreground h0)
    · exact hold _ (h.background h0)

theorem Handled.picks (h : Handled s ring) (hp : Picks s t ring x) :
    Handled t (ring.map (picked x)) := by
  have hnodes : (ring.map (picked x)).map Entry.node = ring.map Entry.node :=
    keepsShape_nodes (keepsShape_picked x)
  refine ⟨hp.base h.base, ?_, ?_, ?_, ?_⟩ <;> rw [hnodes, hp.globals]
  · exact h.first
  · exact List.mem_map_of_mem hp.mem
  · exact h.foreground
  · exact h.background

/-- A process leaves in a state with the pointers as the step has set them. -/
theorem Handled.removed (h : Handled s ring) (hc : Apart s c)
    (hq : Quiet T (c.grounds s).1 (c.grounds s).2 s t ring g) (hv : v ∈ ring)
    (hvictim : v.node = c.victim s) (hl : Leaves t s' (ring.map g) (g v) ring') :
    Handled s' ring' := by
  obtain hspared | ⟨hcur, hfg, hbg, hfirst⟩ := hc
  · exact absurd hspared (hq.not_spares h.base.shows hv hvictim hl)
  have hnext := hq.next h.base.shows hv
  rw [← hvictim, ← hnext] at hcur hfg hbg hfirst
  have hglob := hq.globals
  have ht := h.quiet hq
  refine ht.leaves hl ?_ ?_ ?_ ?_ <;> rw [hq.shape.node]
  · rwa [show t.currentNode = s.currentNode by rw [hglob]]
  · rwa [show t.foreground = (c.grounds s).1 by rw [hglob]]
  · rwa [show t.background = (c.grounds s).2 by rw [hglob]]
  · rw [show t.first = s.first by rw [hglob]]
    intro heq
    obtain ⟨w, hw, hnode⟩ := List.mem_map.mp (ht.base.shows.isRing.next_mem
      (List.mem_map_of_mem (List.mem_map_of_mem hv)))
    obtain ⟨y, hy, rfl⟩ := List.mem_map.mp hw
    rw [hq.shape.node, hq.shape.node] at hnode
    have hpid := hfirst heq
    rw [← hnode, h.base.shows.pidOf hy] at hpid
    rw [← hnode, ← hq.shape.node y, ht.base.shows.pidOf hw, (hq.changed y hy).pid]
    exact hpid

theorem Handled.outcome (h : Handled s ring) (hc : Apart s c) (ho : Outcome c s ring s' ring') :
    Handled s' ring' := by
  cases ho with
  | stay _ hq => exact h.quiet hq
  | removed hq hv hvictim hl => exact h.removed hc hq hv hvictim hl
  | joined _ hr _ hj _ => exact h.joins hr hj
  | searched _ hsearch hpicks =>
    refine Handled.picks ?_ hpicks
    cases hsearch with
    | left _ hq _ _ _ => exact h.quiet hq
    | replaced hq _ _ _ hv hvictim hl => exact h.removed hc hq hv hvictim hl

theorem Starts.handled (h : Starts s e) : Handled s [e] where
  base := h.base
  first := by simp [h.first]
  current := by simp [h.current]
  foreground h0 := absurd h.foreground h0
  background h0 := absurd h.background h0

/-! ## What the pointers refer to -/

variable {s₀ : Kernel H} {idle : ℕ} {cs : List Call}

theorem handled_of_run (hs : Booting s₀) (hinit : initScheduler interrupt idle s₀ = .ok () s)
    (hfirst : s.first ≠ 0) (hapart : Throughout step Apart s cs) (hrun : run step s cs = some s') :
    ∃ ring, Handled s' ring := by
  obtain ⟨e, he⟩ := starts_of_init hs hinit hfirst
  refine run_preserves (I := fun s => ∃ ring, Handled s ring) ⟨_, he.handled⟩ hapart ?_ hrun
  rintro s c s' ⟨ring, h⟩ hc hstep
  obtain ⟨ring', ho⟩ := step_outcome h.base hstep
  exact ⟨ring', h.outcome hc ho⟩

end TronKernel.Sched.Lives
