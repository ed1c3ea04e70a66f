import TronKernel.Sched.Calls
import TronKernel.Lib.CircularList

/-!
# The ring of processes

What the pointers of the scheduler stand for: a circular list of entries, each a node with its
process and the process's arguments. `Shows` says that the memory holds exactly such a ring; it
starts at any of its nodes (`Shows.rotated`). The lemmas below run the accesses and the searches of
the code on a ring.
-/

namespace TronKernel.Sched

open CircularList Programs

variable {H : Type} {s s' : Kernel H} {a : ℕ}

/-! ## The memory -/

theorem node?_eq_some {n : Node} : s.node? a = some n ↔ s.mem a = some (.node n) := by
  unfold Kernel.node?
  split <;> simp_all

theorem process?_eq_some {p : Process} : s.process? a = some p ↔ s.mem a = some (.process p) := by
  unfold Kernel.process?
  split <;> simp_all

theorem argv?_eq_some {args : List ℕ} : s.argv? a = some args ↔ s.mem a = some (.argv args) := by
  unfold Kernel.argv?
  split <;> simp_all

@[simp] theorem put_mem (s : Kernel H) (a b : ℕ) (o : Object) :
    (s.put a o).mem b = if b = a then some o else s.mem b := by
  simp [Kernel.put, Function.update_apply]

@[simp] theorem put_toGlobals (s : Kernel H) (a : ℕ) (o : Object) :
    (s.put a o).toGlobals = s.toGlobals := rfl

@[simp] theorem put_heap (s : Kernel H) (a : ℕ) (o : Object) : (s.put a o).heap = s.heap := rfl

theorem node?_put_node (s : Kernel H) (a b : ℕ) (n : Node) :
    (s.put a (.node n)).node? b = if b = a then some n else s.node? b := by
  by_cases hba : b = a <;> simp [Kernel.node?, hba]

theorem process?_put_process (s : Kernel H) (a b : ℕ) (p : Process) :
    (s.put a (.process p)).process? b = if b = a then some p else s.process? b := by
  by_cases hba : b = a <;> simp [Kernel.process?, hba]

theorem process?_put_node (h : s.process? a = none) (n : Node) :
    (s.put a (.node n)).process? = s.process? := by
  funext b
  by_cases hba : b = a
  · rw [hba, h]
    simp [Kernel.process?]
  · simp [Kernel.process?, hba]

theorem node?_put_process (h : s.node? a = none) (p : Process) :
    (s.put a (.process p)).node? = s.node? := by
  funext b
  by_cases hba : b = a
  · rw [hba, h]
    simp [Kernel.node?]
  · simp [Kernel.node?, hba]

theorem process?_of_node {n : Node} (h : s.node? a = some n) : s.process? a = none := by
  rw [node?_eq_some] at h
  simp [Kernel.process?, h]

theorem node?_of_process {p : Process} (h : s.process? a = some p) : s.node? a = none := by
  rw [process?_eq_some] at h
  simp [Kernel.node?, h]

/-- Another process in place of one is seen by `process?` only. -/
theorem put_process {p q : Process} (h : s.process? a = some p) :
    (s.put a (.process q)).node? = s.node? ∧ (s.put a (.process q)).argv? = s.argv? ∧
      (∀ b, b ≠ a → (s.put a (.process q)).process? b = s.process? b) ∧
      (s.put a (.process q)).process? a = some q := by
  rw [process?_eq_some] at h
  refine ⟨funext fun b => ?_, funext fun b => ?_, fun b hb => ?_, ?_⟩
  · by_cases hb : b = a
    · simp [Kernel.node?, hb, h]
    · simp [Kernel.node?, hb]
  · by_cases hb : b = a
    · simp [Kernel.argv?, hb, h]
    · simp [Kernel.argv?, hb]
  · simp [Kernel.process?, hb]
  · simp [Kernel.process?]

/-- Another node in place of one is seen by `node?` only. -/
theorem put_node {n m : Node} (h : s.node? a = some n) :
    (s.put a (.node m)).process? = s.process? ∧ (s.put a (.node m)).argv? = s.argv? ∧
      (∀ b, b ≠ a → (s.put a (.node m)).node? b = s.node? b) ∧
      (s.put a (.node m)).node? a = some m := by
  rw [node?_eq_some] at h
  refine ⟨funext fun b => ?_, funext fun b => ?_, fun b hb => ?_, ?_⟩
  · by_cases hb : b = a
    · simp [Kernel.process?, hb, h]
    · simp [Kernel.process?, hb]
  · by_cases hb : b = a
    · simp [Kernel.argv?, hb, h]
    · simp [Kernel.argv?, hb]
  · simp [Kernel.node?, hb]
  · simp [Kernel.node?]

/-! ## The entries -/

variable [Allocator H]

/-- A node with its process and the copies of the process's arguments. -/
structure Entry where
  node : ℕ
  quantums : ℕ
  procAddr : ℕ
  proc : Process
  args : List ℕ

/-- The blocks of the arguments. There are none if `save_argv` found no memory. -/
def Entry.argBlocks (e : Entry) : List ℕ :=
  if e.proc.argv = 0 then [] else e.proc.argv :: e.args

/-- The blocks of the entry's process. -/
def Entry.blocks (e : Entry) : List ℕ := e.procAddr :: e.proc.stack :: e.argBlocks

/-- `a->next`. -/
def Kernel.next (s : Kernel H) (a : ℕ) : ℕ := ((s.node? a).map Node.next).getD 0

/-- The memory holds this ring, and no other nodes. -/
structure Shows (s : Kernel H) (ring : List Entry) : Prop where
  isRing : IsRing s.next (ring.map Entry.node)
  nodes_nodup : (ring.map Entry.node).Nodup
  blocks_nodup : (ring.flatMap Entry.blocks).Nodup
  node_at : ∀ e ∈ ring, s.node? e.node = some ⟨e.quantums, e.procAddr, s.next e.node⟩
  node_mem : ∀ a n, s.node? a = some n → ∃ e ∈ ring, e.node = a
  process_at : ∀ e ∈ ring, s.process? e.procAddr = some e.proc
  argv_at : ∀ e ∈ ring, e.proc.argv ≠ 0 → s.argv? e.proc.argv = some e.args
  text_at : ∀ e ∈ ring, e.proc.argv ≠ 0 → ∀ a ∈ e.args, ∃ b, s.mem a = some (.text b)
  stack_at : ∀ e ∈ ring, s.mem e.proc.stack = some .stack
  live : ∀ a o, s.mem a = some o → Allocator.Live s.heap a

variable {ring l : List Entry} {e e' : Entry}

theorem Shows.ne_nil (h : Shows s ring) : ring ≠ [] := by
  rintro rfl
  exact h.isRing

theorem Shows.node_inj (h : Shows s ring) (he : e ∈ ring) (he' : e' ∈ ring)
    (heq : e.node = e'.node) : e = e' :=
  List.inj_on_of_nodup_map h.nodes_nodup he he' heq

/-- No block belongs to two entries. -/
theorem Shows.blocks_inj (h : Shows s ring) (he : e ∈ ring) (he' : e' ∈ ring)
    (hb : a ∈ e.blocks) (hb' : a ∈ e'.blocks) : e = e' := by
  by_contra hne
  have hpair := (List.nodup_flatMap.mp h.blocks_nodup).2
  have hsymm : Std.Symm (Function.onFun List.Disjoint Entry.blocks) :=
    ⟨fun _ _ hd _ hb hb' => hd hb' hb⟩
  exact (hpair.forall he he' hne) hb hb'

theorem Shows.procAddr_inj (h : Shows s ring) (he : e ∈ ring) (he' : e' ∈ ring)
    (heq : e.procAddr = e'.procAddr) : e = e' :=
  h.blocks_inj he he' (a := e.procAddr) List.mem_cons_self (heq ▸ List.mem_cons_self)

theorem Shows.node_live (h : Shows s ring) (he : e ∈ ring) : Allocator.Live s.heap e.node :=
  h.live _ _ (node?_eq_some.mp (h.node_at e he))

theorem Shows.procAddr_live (h : Shows s ring) (he : e ∈ ring) :
    Allocator.Live s.heap e.procAddr :=
  h.live _ _ (process?_eq_some.mp (h.process_at e he))

theorem live_ne_zero {heap : H} (h : Allocator.Live heap a) : a ≠ 0 := by
  rintro rfl
  exact Allocator.not_live_null heap h

theorem Shows.node_ne_zero (h : Shows s ring) (he : e ∈ ring) : e.node ≠ 0 :=
  live_ne_zero (h.node_live he)

theorem Shows.procAddr_ne_zero (h : Shows s ring) (he : e ∈ ring) : e.procAddr ≠ 0 :=
  live_ne_zero (h.procAddr_live he)

/-- There are fewer nodes than addresses. -/
theorem Shows.length_lt (h : Shows s ring) : ring.length < 2 ^ 64 := by
  have hsub : 0 :: ring.map Entry.node ⊆ List.range (2 ^ 64) := by
    intro x hx
    rw [List.mem_range]
    rcases List.mem_cons.mp hx with rfl | hx
    · exact Nat.two_pow_pos 64
    · obtain ⟨e, he, rfl⟩ := List.mem_map.mp hx
      exact Allocator.live_lt _ _ (h.node_live he)
  have hnodup : (0 :: ring.map Entry.node).Nodup := by
    refine List.nodup_cons.mpr ⟨fun h0 => ?_, h.nodes_nodup⟩
    obtain ⟨e, he, h0⟩ := List.mem_map.mp h0
    exact h.node_ne_zero he h0
  have := (List.subperm_of_subset hnodup hsub).length_le
  simp only [List.length_cons, List.length_map, List.length_range] at this
  omega

/-- The ring may start at any node. -/
theorem Shows.rotated (h : Shows s ring) (hr : ring.IsRotated l) : Shows s l where
  isRing := h.isRing.rotated (hr.map _)
  nodes_nodup := ((hr.map _).nodup_iff).mp h.nodes_nodup
  blocks_nodup := ((hr.perm.flatMap_right _).nodup_iff).mp h.blocks_nodup
  node_at e he := h.node_at e (hr.mem_iff.mpr he)
  node_mem a n hn := (h.node_mem a n hn).imp fun _ => And.imp_left hr.mem_iff.mp
  process_at e he := h.process_at e (hr.mem_iff.mpr he)
  argv_at e he := h.argv_at e (hr.mem_iff.mpr he)
  text_at e he := h.text_at e (hr.mem_iff.mpr he)
  stack_at e he := h.stack_at e (hr.mem_iff.mpr he)
  live := h.live

/-- The ring depends on the memory and the heap alone. -/
theorem Shows.congr (h : Shows s ring) (hmem : s'.mem = s.mem) (hheap : s'.heap = s.heap) :
    Shows s' ring := by
  have hnode : s'.node? = s.node? := by
    funext a
    simp only [Kernel.node?, hmem]
  have hprocess : s'.process? = s.process? := by
    funext a
    simp only [Kernel.process?, hmem]
  have hargv : s'.argv? = s.argv? := by
    funext a
    simp only [Kernel.argv?, hmem]
  have hnext : s'.next = s.next := by
    funext a
    simp only [Kernel.next, hnode]
  constructor
  · rw [hnext]; exact h.isRing
  · exact h.nodes_nodup
  · exact h.blocks_nodup
  · rw [hnode, hnext]; exact h.node_at
  · rw [hnode]; exact h.node_mem
  · rw [hprocess]; exact h.process_at
  · rw [hargv]; exact h.argv_at
  · rw [hmem]; exact h.text_at
  · rw [hmem]; exact h.stack_at
  · rw [hmem, hheap]; exact h.live

/-- An entry keeps its addresses and its blocks. -/
structure KeepsShape (g : Entry → Entry) : Prop where
  node : ∀ x, (g x).node = x.node
  procAddr : ∀ x, (g x).procAddr = x.procAddr
  args : ∀ x, (g x).args = x.args
  stack : ∀ x, (g x).proc.stack = x.proc.stack
  argv : ∀ x, (g x).proc.argv = x.proc.argv

theorem KeepsShape.blocks {g : Entry → Entry} (hg : KeepsShape g) (x : Entry) :
    (g x).blocks = x.blocks := by
  rw [Entry.blocks, Entry.blocks, Entry.argBlocks, Entry.argBlocks, hg.procAddr, hg.stack, hg.argv,
    hg.args]

/-- New contents for the nodes and the processes, with the links as they are. A process that is not
in the ring may change, too. -/
theorem Shows.map_of (h : Shows s ring) {g : Entry → Entry} (hg : KeepsShape g)
    (hnode : ∀ x ∈ ring, s'.node? x.node = some ⟨(g x).quantums, x.procAddr, s.next x.node⟩)
    (hprocess : ∀ x ∈ ring, s'.process? x.procAddr = some (g x).proc)
    (hrest : ∀ a, (∀ x ∈ ring, a ≠ x.node ∧ a ≠ x.procAddr) → s'.mem a = s.mem a ∨
      ∃ p q, s.mem a = some (.process p) ∧ s'.mem a = some (.process q))
    (hheap : s'.heap = s.heap) : Shows s' (ring.map g) := by
  have hmap : ∀ {γ : Type} (k : Entry → γ), (∀ x, k (g x) = k x) →
      (ring.map g).map k = ring.map k := by
    intro γ k hk
    rw [List.map_map]
    exact List.map_congr_left fun x _ => hk x
  -- an address of an object of another kind is no node's and no process's
  have hother : ∀ a o, s.mem a = some o → (∀ n, o ≠ .node n) → (∀ p, o ≠ .process p) →
      s'.mem a = some o := by
    intro a o ha hn hp
    have hout : ∀ x ∈ ring, a ≠ x.node ∧ a ≠ x.procAddr := fun x hx => by
      refine ⟨?_, ?_⟩
      · rintro rfl
        rw [node?_eq_some.mp (h.node_at x hx)] at ha
        exact hn _ (Option.some.inj ha).symm
      · rintro rfl
        rw [process?_eq_some.mp (h.process_at x hx)] at ha
        exact hp _ (Option.some.inj ha).symm
    rcases hrest a hout with hsame | ⟨p, q, hap, -⟩
    · rw [hsame, ha]
    · rw [ha] at hap
      exact absurd (Option.some.inj hap) (hp p)
  -- and nothing new has come up
  have hback : ∀ a o, s'.mem a = some o → (∃ x ∈ ring, a = x.node) ∨ (∃ x ∈ ring, a = x.procAddr) ∨
      s.mem a = some o ∨ ∃ p q, s.mem a = some (.process p) ∧ o = .process q := by
    intro a o ha
    by_cases hin : ∃ x ∈ ring, a = x.node ∨ a = x.procAddr
    · obtain ⟨x, hx, hax | hax⟩ := hin
      · exact Or.inl ⟨x, hx, hax⟩
      · exact Or.inr (Or.inl ⟨x, hx, hax⟩)
    · push Not at hin
      rcases hrest a hin with hsame | ⟨p, q, hap, haq⟩
      · exact Or.inr (Or.inr (Or.inl (hsame ▸ ha)))
      · exact Or.inr (Or.inr (Or.inr ⟨p, q, hap, Option.some.inj (ha.symm.trans haq)⟩))
  have hnext : ∀ x ∈ ring, s'.next x.node = s.next x.node := fun x hx => by
    rw [Kernel.next, hnode x hx]; rfl
  constructor
  · rw [hmap _ hg.node]
    refine h.isRing.congr fun a ha => ?_
    obtain ⟨x, hx, rfl⟩ := List.mem_map.mp ha
    exact hnext x hx
  · rw [hmap _ hg.node]; exact h.nodes_nodup
  · rw [List.flatMap_map, List.flatMap_congr fun x _ => hg.blocks x]
    exact h.blocks_nodup
  · intro x hx
    obtain ⟨y, hy, rfl⟩ := List.mem_map.mp hx
    rw [hg.node, hg.procAddr, hnext y hy]
    exact hnode y hy
  · intro a n hn
    rcases hback a _ (node?_eq_some.mp hn) with ⟨x, hx, rfl⟩ | ⟨x, hx, rfl⟩ | ha | ⟨p, q, -, heq⟩
    · exact ⟨g x, List.mem_map_of_mem hx, hg.node x⟩
    · have hp := process?_eq_some.mp (hprocess x hx)
      rw [node?_eq_some.mp hn] at hp
      exact absurd (Option.some.inj hp) (by simp)
    · obtain ⟨x, hx, rfl⟩ := h.node_mem a n (node?_eq_some.mpr ha)
      exact ⟨g x, List.mem_map_of_mem hx, hg.node x⟩
    · exact absurd heq (by simp)
  · intro x hx
    obtain ⟨y, hy, rfl⟩ := List.mem_map.mp hx
    rw [hg.procAddr]
    exact hprocess y hy
  · intro x hx
    obtain ⟨y, hy, rfl⟩ := List.mem_map.mp hx
    rw [hg.argv, hg.args, argv?_eq_some]
    intro hne
    exact hother _ _ (argv?_eq_some.mp (h.argv_at y hy hne)) (by simp) (by simp)
  · intro x hx
    obtain ⟨y, hy, rfl⟩ := List.mem_map.mp hx
    rw [hg.argv, hg.args]
    intro hne a ha
    obtain ⟨b, hb⟩ := h.text_at y hy hne a ha
    exact ⟨b, hother a _ hb (by simp) (by simp)⟩
  · intro x hx
    obtain ⟨y, hy, rfl⟩ := List.mem_map.mp hx
    rw [hg.stack]
    exact hother _ _ (h.stack_at y hy) (by simp) (by simp)
  · intro a o ha
    rw [hheap]
    rcases hback a o ha with ⟨x, hx, rfl⟩ | ⟨x, hx, rfl⟩ | ha | ⟨p, q, hap, -⟩
    · exact h.node_live hx
    · exact h.procAddr_live hx
    · exact h.live a o ha
    · exact h.live a _ hap

/-- New contents for the nodes and the processes, with the links as they are. -/
theorem Shows.map (h : Shows s ring) {g : Entry → Entry} (hg : KeepsShape g)
    (hnode : ∀ x ∈ ring, s'.node? x.node = some ⟨(g x).quantums, x.procAddr, s.next x.node⟩)
    (hprocess : ∀ x ∈ ring, s'.process? x.procAddr = some (g x).proc)
    (hrest : ∀ a, (∀ x ∈ ring, a ≠ x.node ∧ a ≠ x.procAddr) → s'.mem a = s.mem a)
    (hheap : s'.heap = s.heap) : Shows s' (ring.map g) :=
  h.map_of hg hnode hprocess (fun a ha => Or.inl (hrest a ha)) hheap

/-- An edit of the process at an address. -/
def Entry.edit (a : ℕ) (f : Process → Process) (e : Entry) : Entry :=
  if e.procAddr = a then { e with proc := f e.proc } else e

@[simp] theorem edit_node (a : ℕ) (f : Process → Process) (e : Entry) :
    (e.edit a f).node = e.node := by unfold Entry.edit; split <;> rfl

@[simp] theorem edit_procAddr (a : ℕ) (f : Process → Process) (e : Entry) :
    (e.edit a f).procAddr = e.procAddr := by unfold Entry.edit; split <;> rfl

@[simp] theorem edit_quantums (a : ℕ) (f : Process → Process) (e : Entry) :
    (e.edit a f).quantums = e.quantums := by unfold Entry.edit; split <;> rfl

@[simp] theorem edit_args (a : ℕ) (f : Process → Process) (e : Entry) :
    (e.edit a f).args = e.args := by unfold Entry.edit; split <;> rfl

@[simp] theorem edit_self (f : Process → Process) (e : Entry) :
    e.edit e.procAddr f = { e with proc := f e.proc } := if_pos rfl

theorem edit_of_ne (f : Process → Process) (h : e.procAddr ≠ a) : e.edit a f = e := if_neg h

/-- A field that the edit does not change. -/
theorem edit_field {γ : Type} (g : Process → γ) {f : Process → Process} (hf : ∀ p, g (f p) = g p)
    (a : ℕ) (e : Entry) : g (e.edit a f).proc = g e.proc := by
  unfold Entry.edit
  split
  · exact hf e.proc
  · rfl

/-- The edit leaves the process its blocks. -/
def KeepsBlocks (f : Process → Process) : Prop := ∀ p, (f p).stack = p.stack ∧ (f p).argv = p.argv

theorem keepsShape_edit {f : Process → Process} (hf : KeepsBlocks f) (a : ℕ) :
    KeepsShape (Entry.edit a f) where
  node := edit_node a f
  procAddr := edit_procAddr a f
  args := edit_args a f
  stack := edit_field Process.stack (fun p => (hf p).1) a
  argv := edit_field Process.argv (fun p => (hf p).2) a

/-- An assignment to fields of a process. -/
theorem Shows.put_process (h : Shows s ring) (he : e ∈ ring) {f : Process → Process}
    (hf : KeepsBlocks f) :
    Shows (s.put e.procAddr (.process (f e.proc))) (ring.map (Entry.edit e.procAddr f)) := by
  obtain ⟨hnode, -, hother, hself⟩ := Sched.put_process (q := f e.proc) (h.process_at e he)
  refine h.map (keepsShape_edit hf _) (fun x hx => ?_) (fun x hx => ?_) (fun a ha => ?_) rfl
  · rw [hnode, edit_quantums]
    exact h.node_at x hx
  · by_cases hxe : x.procAddr = e.procAddr
    · obtain rfl := h.procAddr_inj hx he hxe
      rw [edit_self]
      exact hself
    · rw [edit_of_ne f hxe, hother _ hxe]
      exact h.process_at x hx
  · rw [put_mem, if_neg (ha e he).2]

/-- New quantums for the node at an address. -/
def Entry.charge (a q : ℕ) (e : Entry) : Entry := if e.node = a then { e with quantums := q } else e

@[simp] theorem charge_node (a q : ℕ) (e : Entry) : (e.charge a q).node = e.node := by
  unfold Entry.charge; split <;> rfl

@[simp] theorem charge_procAddr (a q : ℕ) (e : Entry) : (e.charge a q).procAddr = e.procAddr := by
  unfold Entry.charge; split <;> rfl

@[simp] theorem charge_proc (a q : ℕ) (e : Entry) : (e.charge a q).proc = e.proc := by
  unfold Entry.charge; split <;> rfl

@[simp] theorem charge_args (a q : ℕ) (e : Entry) : (e.charge a q).args = e.args := by
  unfold Entry.charge; split <;> rfl

theorem keepsShape_charge (a q : ℕ) : KeepsShape (Entry.charge a q) where
  node := charge_node a q
  procAddr := charge_procAddr a q
  args := charge_args a q
  stack x := by rw [charge_proc]
  argv x := by rw [charge_proc]

/-- An assignment to `quantums`. -/
theorem Shows.put_quantums (h : Shows s ring) (he : e ∈ ring) (q : ℕ) :
    Shows (s.put e.node (.node ⟨q, e.procAddr, s.next e.node⟩))
      (ring.map (Entry.charge e.node q)) := by
  obtain ⟨hprocess, -, hother, hself⟩ :=
    put_node (m := ⟨q, e.procAddr, s.next e.node⟩) (h.node_at e he)
  refine h.map (keepsShape_charge _ q) (fun x hx => ?_) (fun x hx => ?_) (fun a ha => ?_) rfl
  · by_cases hxe : x.node = e.node
    · obtain rfl := h.node_inj hx he hxe
      rw [hself]
      simp [Entry.charge]
    · rw [hother _ hxe, h.node_at x hx]
      simp [Entry.charge, hxe]
  · rw [hprocess, charge_proc]
    exact h.process_at x hx
  · rw [put_mem, if_neg (ha e he).1]

end TronKernel.Sched
