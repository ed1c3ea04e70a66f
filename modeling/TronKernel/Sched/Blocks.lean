import TronKernel.Sched.Access

/-!
# Blocks that come and go

What the calls of `malloc` and `free` do to the heap and the memory together. Between two states,
blocks have been freed (`Freed`) or blocks have been added that hold neither nodes nor processes
(`Grown`); `Fresh` names blocks that are new.
-/

namespace TronKernel.Sched

open Programs

variable {H : Type} [Allocator H] {s s' s₀ s₁ s₂ : Kernel H} {h h' : H} {a n : ℕ} {o : Object}
  {bs cs : List ℕ}

/-- What the memory holds is in use. -/
def Within (s : Kernel H) : Prop := ∀ a o, s.mem a = some o → Allocator.Live s.heap a

theorem Within.node_live (hs : Within s) {n : Node} (hn : s.node? a = some n) :
    Allocator.Live s.heap a :=
  hs a _ (node?_eq_some.mp hn)

theorem Within.process_live (hs : Within s) {p : Process} (hp : s.process? a = some p) :
    Allocator.Live s.heap a :=
  hs a _ (process?_eq_some.mp hp)

theorem Within.put (hs : Within s) (ha : Allocator.Live s.heap a) : Within (s.put a o) := by
  intro b o' hb
  rw [put_mem] at hb
  split_ifs at hb with hba
  · exact hba ▸ ha
  · exact hs b o' hb

/-! ## Freeing -/

/-- The state after freeing blocks. -/
structure Freed (s s' : Kernel H) (bs : List ℕ) : Prop where
  globals : s'.toGlobals = s.toGlobals
  mem : ∀ a, s'.mem a = if a ∈ bs then none else s.mem a
  live : ∀ a, Allocator.Live s'.heap a ↔ Allocator.Live s.heap a ∧ a ∉ bs

theorem Freed.nil (s : Kernel H) : Freed s s [] := ⟨rfl, fun a => by simp, fun a => by simp⟩

theorem Freed.trans (h : Freed s s₁ bs) (h' : Freed s₁ s₂ cs) : Freed s s₂ (bs ++ cs) where
  globals := h'.globals.trans h.globals
  mem a := by
    rw [h'.mem, h.mem]
    by_cases hb : a ∈ bs <;> by_cases hc : a ∈ cs <;> simp [hb, hc]
  live a := by
    rw [h'.live, h.live, List.mem_append, not_or, and_assoc]

theorem Freed.of_mem_iff (h : Freed s s' bs) (heq : ∀ a, a ∈ cs ↔ a ∈ bs) : Freed s s' cs where
  globals := h.globals
  mem a := by simp only [heq, h.mem a]
  live a := by simp only [heq, h.live a]

theorem Freed.node? (h : Freed s s' bs) (ha : a ∉ bs) : s'.node? a = s.node? a := by
  simp only [Kernel.node?, h.mem, if_neg ha]

theorem Freed.process? (h : Freed s s' bs) (ha : a ∉ bs) : s'.process? a = s.process? a := by
  simp only [Kernel.process?, h.mem, if_neg ha]

theorem Freed.argv? (h : Freed s s' bs) (ha : a ∉ bs) : s'.argv? a = s.argv? a := by
  simp only [Kernel.argv?, h.mem, if_neg ha]

theorem free_ok (h : Allocator.Live s.heap a) : ∃ s', free a s = .ok () s' ∧ Freed s s' [a] := by
  refine ⟨_, rfl, rfl, fun b => ?_, fun b => ?_⟩
  · simp [Function.update_apply]
  · simpa using Allocator.live_free s.heap a b h

theorem freeAll_ok (hlive : ∀ a ∈ bs, Allocator.Live s.heap a) (hnodup : bs.Nodup) :
    ∃ s', freeAll bs s = .ok () s' ∧ Freed s s' bs := by
  induction bs generalizing s with
  | nil => exact ⟨s, rfl, Freed.nil s⟩
  | cons b bs ih =>
    rw [List.nodup_cons] at hnodup
    obtain ⟨s₁, hfree, h₁⟩ := free_ok (hlive b (by simp))
    obtain ⟨s₂, hall, h₂⟩ := ih (s := s₁) (fun a ha => (h₁.live a).mpr
      ⟨hlive a (by simp [ha]), fun hab => hnodup.1 (List.mem_singleton.mp hab ▸ ha)⟩) hnodup.2
    exact ⟨s₂, by rw [freeAll, bind_of_ok hfree, hall], h₁.trans h₂⟩

/-! ## New blocks -/

/-- Different blocks that have come into use between two heaps. -/
structure Fresh (h h' : H) (bs : List ℕ) : Prop where
  nodup : bs.Nodup
  not_live : ∀ a ∈ bs, ¬ Allocator.Live h a
  live : ∀ a ∈ bs, Allocator.Live h' a

theorem Fresh.nil (h h' : H) : Fresh h h' [] := ⟨by simp, by simp, by simp⟩

theorem Fresh.perm (hf : Fresh h h' bs) (hp : bs.Perm cs) : Fresh h h' cs :=
  ⟨hp.nodup hf.nodup, fun a ha => hf.not_live a (hp.mem_iff.mpr ha),
    fun a ha => hf.live a (hp.mem_iff.mpr ha)⟩

theorem Fresh.of_append (hf : Fresh h h' (bs ++ cs)) : Fresh h h' cs :=
  ⟨(List.nodup_append.mp hf.nodup).2.1, fun a ha => hf.not_live a (List.mem_append_right _ ha),
    fun a ha => hf.live a (List.mem_append_right _ ha)⟩

theorem live_malloc_of_live (ha : Allocator.Live h a) : Allocator.Live (Allocator.malloc h n).1 a :=
  (Allocator.live_malloc h n a).mpr (Or.inl ha)

theorem Fresh.malloc (hf : Fresh h h' bs) (hlive : ∀ a, Allocator.Live h a → Allocator.Live h' a)
    (hne : (Allocator.malloc h' n).2 ≠ 0) :
    Fresh h (Allocator.malloc h' n).1 ((Allocator.malloc h' n).2 :: bs) where
  nodup := by
    refine List.nodup_cons.mpr ⟨fun hmem => ?_, hf.nodup⟩
    exact Allocator.malloc_fresh h' n (hf.live _ hmem)
  not_live a ha := by
    rcases List.mem_cons.mp ha with rfl | ha
    · exact fun hl => Allocator.malloc_fresh h' n (hlive _ hl)
    · exact hf.not_live a ha
  live a ha := by
    rcases List.mem_cons.mp ha with rfl | ha
    · exact (Allocator.live_malloc h' n _).mpr (Or.inr ⟨hne, rfl⟩)
    · exact live_malloc_of_live (hf.live a ha)

/-- Blocks have been added, and they hold neither nodes nor processes. -/
structure Grown (s s' : Kernel H) : Prop where
  globals : s'.toGlobals = s.toGlobals
  live : ∀ a, Allocator.Live s.heap a → Allocator.Live s'.heap a
  kept : ∀ a, Allocator.Live s.heap a → s'.mem a = s.mem a
  within : Within s'
  plain : ∀ a, ¬ Allocator.Live s.heap a → s'.node? a = none ∧ s'.process? a = none

theorem Within.plain (hs : Within s) (ha : ¬ Allocator.Live s.heap a) :
    s.node? a = none ∧ s.process? a = none :=
  ⟨Option.eq_none_iff_forall_ne_some.mpr fun _ hn => ha (hs.node_live hn),
    Option.eq_none_iff_forall_ne_some.mpr fun _ hp => ha (hs.process_live hp)⟩

theorem Grown.refl (hs : Within s) : Grown s s :=
  ⟨rfl, fun _ => id, fun _ _ => rfl, hs, fun _ => hs.plain⟩

theorem Grown.node? (hg : Grown s s') (hs : Within s) : s'.node? = s.node? := by
  funext a
  by_cases ha : Allocator.Live s.heap a
  · simp only [Kernel.node?, hg.kept a ha]
  · rw [(hg.plain a ha).1, (hs.plain ha).1]

theorem Grown.process? (hg : Grown s s') (hs : Within s) : s'.process? = s.process? := by
  funext a
  by_cases ha : Allocator.Live s.heap a
  · simp only [Kernel.process?, hg.kept a ha]
  · rw [(hg.plain a ha).2, (hs.plain ha).2]

/-- The state after `malloc`. -/
def Kernel.afterMalloc (s : Kernel H) (n : ℕ) : Kernel H :=
  { s with heap := (Allocator.malloc s.heap n).1 }

theorem malloc_ok (n : ℕ) : malloc n s = .ok (Allocator.malloc s.heap n).2 (s.afterMalloc n) := rfl

theorem Grown.malloc (hg : Grown s₀ s) (n : ℕ) : Grown s₀ (s.afterMalloc n) where
  globals := hg.globals
  live a ha := live_malloc_of_live (hg.live a ha)
  kept := hg.kept
  within a o ha := live_malloc_of_live (hg.within a o ha)
  plain := hg.plain

theorem Grown.put (hg : Grown s₀ s) (hold : ¬ Allocator.Live s₀.heap a)
    (hnew : Allocator.Live s.heap a) (hnode : ∀ n, o ≠ .node n) (hprocess : ∀ p, o ≠ .process p) :
    Grown s₀ (s.put a o) where
  globals := hg.globals
  live := hg.live
  kept b hb := by
    have hba : b ≠ a := fun hba => hold (hba ▸ hb)
    rw [put_mem, if_neg hba]
    exact hg.kept b hb
  within := hg.within.put hnew
  plain b hb := by
    by_cases hba : b = a
    · simp only [Option.eq_none_iff_forall_ne_some, ne_eq, node?_eq_some, process?_eq_some, put_mem,
        if_pos hba]
      exact ⟨fun n hn => hnode n (Option.some.inj hn), fun p hp => hprocess p (Option.some.inj hp)⟩
    · simp only [Kernel.node?, Kernel.process?, put_mem, if_neg hba]
      exact hg.plain b hb

/-- New blocks may go again. -/
theorem Grown.freed (hg : Grown s₀ s) (hf : Freed s s' bs)
    (hold : ∀ a ∈ bs, ¬ Allocator.Live s₀.heap a) : Grown s₀ s' where
  globals := hf.globals.trans hg.globals
  live a ha := (hf.live a).mpr ⟨hg.live a ha, fun hmem => hold a hmem ha⟩
  kept a ha := by
    rw [hf.mem, if_neg fun hmem => hold a hmem ha]
    exact hg.kept a ha
  within a o ha := by
    rw [hf.mem] at ha
    split_ifs at ha with hmem
    exact (hf.live a).mpr ⟨hg.within a o ha, hmem⟩
  plain a ha := by
    by_cases hmem : a ∈ bs
    · simp only [Kernel.node?, Kernel.process?, hf.mem, if_pos hmem, and_self]
    · rw [hf.node? hmem, hf.process? hmem]
      exact hg.plain a ha

theorem Fresh.freed (hf : Fresh s₀.heap s.heap (bs ++ cs)) (hfr : Freed s s' bs) :
    Fresh s₀.heap s'.heap cs where
  nodup := hf.of_append.nodup
  not_live := hf.of_append.not_live
  live a ha := (hfr.live a).mpr ⟨hf.of_append.live a ha, fun hmem =>
    (List.nodup_append.mp hf.nodup).2.2 a hmem a ha rfl⟩

end TronKernel.Sched
