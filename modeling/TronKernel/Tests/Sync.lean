import TronKernel.Sem.Interleaving
import Mathlib.Algebra.BigOperators.Ring.Finset
import Mathlib.Data.BitVec
import Mathlib.Data.Fintype.Basic

/-!
# `tests/test_sync.c`: processes that count together

Any number of processes run the loop of `my_process_inc` on one `global`, between their `sem_open`
and their `sem_close`. A step is one access of one process: of the semaphore inside `sem_wait` and
`sem_post`, or of `global` in `slowInc`, where the process yields between its read and its write.
With the semaphore no increment is lost in any interleaving (`sync_counts`).
-/

namespace TronKernel.Tests.Sync

open Sem Runs

/-- The arguments of `my_process_inc`, after `satoi`. -/
structure Args where
  n : ℕ
  inc : BitVec 8
  useSem : Bool

/-- What a process does next. -/
inductive Place where
  /-- the test `i < n`, and the call of `sem_wait` -/
  | loop
  /-- inside `sem_wait` -/
  | waiting
  /-- `aux = *p` in `slowInc` -/
  | load
  /-- `*p = aux` after `aux += inc` -/
  | store (aux : BitVec 64)
  /-- the call of `sem_post` -/
  | leave
  /-- inside `sem_post` -/
  | posting
  /-- after the loop -/
  | done
deriving DecidableEq, Repr

variable {Proc : Type*} [DecidableEq Proc]

/-- The semaphore with the places of the processes in its functions, their places in
`my_process_inc`, their loop counters and `global`. -/
structure State (Proc : Type*) where
  sem : Config Proc
  place : Proc → Place
  i : Proc → ℕ
  global : BitVec 64

/-- All processes in front of the loop, and the semaphore open. It stays open in all steps. -/
def start (sem : SemT) (global : BitVec 64) : State Proc :=
  ⟨Sem.start Proc sem, fun _ => .loop, fun _ => 0, global⟩

/-- Process `p` goes on at another place. -/
def State.goto (s : State Proc) (p : Proc) (place : Place) (sem : Config Proc) : State Proc :=
  { s with sem := sem, place := Function.update s.place p place }

/-- The end of one turn of the loop. -/
def State.again (s : State Proc) (p : Proc) (sem : Config Proc) : State Proc :=
  { s.goto p .loop sem with i := Function.update s.i p (s.i p + 1) }

/-- The next step of process `p` in `my_process_inc`. -/
def step (pid : Proc → ℕ) (args : Proc → Args) (s : State Proc) (p : Proc) : Option (State Proc) :=
  match s.place p with
  | .loop =>
    if s.i p < (args p).n then
      if (args p).useSem then (Sem.step pid s.sem (.wait p)).map (s.goto p .waiting)
      else some (s.goto p .load s.sem)
    else some (s.goto p .done s.sem)
  | .waiting => (Sem.step pid s.sem (.access p)).map fun sem =>
      s.goto p (if sem.pc p = .idle then .load else .waiting) sem
  | .load => some (s.goto p (.store s.global) s.sem)
  | .store aux =>
    let s := { s with global := aux + (args p).inc.signExtend 64 }
    if (args p).useSem then some (s.goto p .leave s.sem) else some (s.again p s.sem)
  | .leave => (Sem.step pid s.sem (.post p)).map (s.goto p .posting)
  | .posting => (Sem.step pid s.sem (.access p)).map fun sem =>
      if sem.pc p = .idle then s.again p sem else s.goto p .posting sem
  | .done => none

/-! ## The functions of the semaphore -/

/-- Inside `sem_post`. -/
def inPost : Pc → Bool
  | .postValue | .postCmpxchg _ => true
  | .updateLast | .updateFirst _ | .updateCmpxchg _ | .updatePid _ => true
  | _ => false

variable {c c' : Config Proc} {p : Proc} {n : ℕ}

/-- An access inside `sem_wait` stays there or is the last one. -/
theorem access_of_inWait (hin : (c.pc p).inWait) (hacc : access n c p = some c') :
    (∃ pc sem, pc.inWait ∧ c' = c.goto p pc sem) ∨
      ∃ sem, c' = { c.goto p .idle sem with
        waited := c.waited + 1, between := insert p c.between } := by
  unfold access at hacc
  cases hpc : c.pc p
  all_goals
    rw [hpc] at hacc hin
    simp only at hacc
  case unlock => exact Or.inr ⟨_, (Option.some.inj hacc).symm⟩
  all_goals first
    | exact Bool.noConfusion hin
    | skip
  all_goals
    left
    try split_ifs at hacc
    all_goals
      refine ⟨_, _, ?_, (Option.some.inj hacc).symm⟩
      rfl

/-- An access inside `sem_post` stays there or is the last one; one of them is the increment. -/
theorem access_of_inPost (hin : inPost (c.pc p)) (hacc : access n c p = some c') :
    (∃ pc sem, (inPost pc ∨ pc = .idle) ∧ pc.beforeIncrement = (c.pc p).beforeIncrement ∧
        c' = c.goto p pc sem) ∨
      ∃ sem, (c.pc p).beforeIncrement ∧ c' = { c.goto p .updateLast sem with
        posted := c.posted + 1, between := c.between.erase p } := by
  unfold access at hacc
  cases hpc : c.pc p
  all_goals
    rw [hpc] at hacc hin
    simp only at hacc
  case postCmpxchg value =>
    split_ifs at hacc
    · exact Or.inr ⟨_, rfl, (Option.some.inj hacc).symm⟩
    · exact Or.inl ⟨.postValue, _, Or.inl rfl, rfl, (Option.some.inj hacc).symm⟩
  all_goals first
    | exact Bool.noConfusion hin
    | skip
  all_goals
    left
    try split_ifs at hacc
    all_goals
      refine ⟨_, _, ?_, ?_, (Option.some.inj hacc).symm⟩
      · first
          | exact Or.inl rfl
          | exact Or.inr rfl
      · rfl

/-! ## The invariant -/

/-- The accesses that go with a place. -/
def Place.At : Place → Pc → Prop
  | .waiting, pc => pc.inWait
  | .posting, pc => inPost pc
  | _, pc => pc = .idle

/-- Behind `sem_wait` and in front of the increment of `sem_post`. -/
def Place.inside : Place → Pc → Bool
  | .load, _ | .store _, _ | .leave, _ => true
  | .posting, pc => pc.beforeIncrement
  | _, _ => false

/-- The turn of the loop has written `global`. -/
def Place.written : Place → Bool
  | .leave | .posting => true
  | _ => false

/-- In a turn of the loop. -/
def Place.turning : Place → Bool
  | .loop | .done => false
  | _ => true

/-- The increments of `global` that process `p` has made. -/
def State.stored (s : State Proc) (p : Proc) : ℕ := s.i p + (s.place p).written.toNat

variable [Fintype Proc]

/-- The sum of the increments that have been made. -/
def State.sum (args : Proc → Args) (s : State Proc) : BitVec 64 :=
  ∑ p, BitVec.ofNat 64 (s.stored p) * (args p).inc.signExtend 64

/-- The semaphore lets one process in at a time, so the value it has read is still there when it
writes. -/
structure Counts (args : Proc → Args) (global : BitVec 64) (s : State Proc) : Prop where
  safe : Safe 1 s.sem
  pairs : InPairs s.sem
  places : ∀ p, (s.place p).At (s.sem.pc p)
  between : ∀ p, p ∈ s.sem.between ↔ (s.place p).inside (s.sem.pc p)
  read : ∀ p aux, s.place p = .store aux → aux = s.global
  total : s.global = global + s.sum args
  loops : ∀ p, s.i p + (s.place p).turning.toNat ≤ (args p).n
  done : ∀ p, s.place p = .done → s.i p = (args p).n

variable {pid : Proc → ℕ} {args : Proc → Args} {global : BitVec 64} {s s' : State Proc}
  {place : Place} {pc : Pc} {i : ℕ}

omit [DecidableEq Proc] in
theorem counts_start (sem : SemT) (hvalue : sem.value = 1) :
    Counts args global (start sem global : State Proc) where
  safe := safe_start sem hvalue.le
  pairs := inPairs_start sem
  places _ := rfl
  between p := iff_of_false (Finset.notMem_empty p) Bool.false_ne_true
  read p aux hp := Place.noConfusion hp
  total := by
    have hsum : (start sem global : State Proc).sum args = 0 :=
      Finset.sum_eq_zero fun p _ => zero_mul _
    rw [hsum, add_zero]
    rfl
  loops p := by simp [start, Place.turning]
  done p hp := Place.noConfusion hp

omit [DecidableEq Proc] in
/-- The value of the semaphore and the processes inside make at most one. -/
theorem Counts.value_add_card (h : Counts args global s) :
    s.sem.sem.value + s.sem.between.card ≤ 1 := by
  have htotal := h.safe.total
  have hcount := h.pairs.count
  omega

omit [DecidableEq Proc] in
theorem Counts.alone (h : Counts args global s) {p q : Proc} (hp : p ∈ s.sem.between)
    (hq : q ∈ s.sem.between) : p = q := by
  have hcard := h.value_add_card
  exact Finset.card_le_one.mp (by omega) p hp q hq

/-- A step in the functions of the semaphore. -/
theorem Counts.semStep (h : Counts args global s) {e : Event Proc} (he : Paired s.sem e)
    (hstep : Sem.step pid s.sem e = some c') : Safe 1 c' ∧ InPairs c' := by
  have hcard := h.value_add_card
  refine ⟨h.safe.step hstep (by omega) ?_, h.pairs.step he hstep⟩
  cases e with
  | wait p => trivial
  | post p => trivial
  | access p => exact fun _ => by omega

/-- A step of `p` that leaves `global` and the sum alone. -/
theorem Counts.move (h : Counts args global s) (hsafe : Safe 1 s'.sem) (hpairs : InPairs s'.sem)
    (hplace : s'.place = Function.update s.place p place)
    (hpc : s'.sem.pc = Function.update s.sem.pc p pc) (hi : s'.i = Function.update s.i p i)
    (hglobal : s'.global = s.global) (hother : ∀ q, q ≠ p →
      (q ∈ s'.sem.between ↔ q ∈ s.sem.between)) (hat : place.At pc)
    (hself : p ∈ s'.sem.between ↔ place.inside pc)
    (hread : ∀ aux, place = .store aux → aux = s.global)
    (hstored : i + place.written.toNat = s.stored p) (hloops : i + place.turning.toNat ≤ (args p).n)
    (hdone : place = .done → i = (args p).n) : Counts args global s' where
  safe := hsafe
  pairs := hpairs
  places q := by
    rw [hplace, hpc]
    by_cases hq : q = p
    · rw [hq, Function.update_self, Function.update_self]
      exact hat
    · rw [Function.update_of_ne hq, Function.update_of_ne hq]
      exact h.places q
  between q := by
    rw [hplace, hpc]
    by_cases hq : q = p
    · rw [hq, Function.update_self, Function.update_self]
      exact hself
    · rw [Function.update_of_ne hq, Function.update_of_ne hq, hother q hq]
      exact h.between q
  read q aux hq := by
    rw [hplace] at hq
    rw [hglobal]
    by_cases hqp : q = p
    · rw [hqp, Function.update_self] at hq
      exact hread aux hq
    · rw [Function.update_of_ne hqp] at hq
      exact h.read q aux hq
  total := by
    have hsum : s'.stored = s.stored := by
      funext q
      rw [State.stored, hplace, hi]
      by_cases hq : q = p
      · rw [hq, Function.update_self, Function.update_self]
        exact hstored
      · rw [Function.update_of_ne hq, Function.update_of_ne hq]
        rfl
    rw [hglobal, h.total, State.sum, State.sum, hsum]
  loops q := by
    rw [hplace, hi]
    by_cases hq : q = p
    · rw [hq, Function.update_self, Function.update_self]
      exact hloops
    · rw [Function.update_of_ne hq, Function.update_of_ne hq]
      exact h.loops q
  done q hq := by
    rw [hplace] at hq
    rw [hi]
    by_cases hqp : q = p
    · rw [hqp, Function.update_self] at hq ⊢
      exact hdone hq
    · rw [Function.update_of_ne hqp] at hq ⊢
      exact h.done q hq

/-- A step of `p` within one turn of the loop. -/
theorem Counts.goto (h : Counts args global s) {sem : Config Proc} (hsafe : Safe 1 sem)
    (hpairs : InPairs sem) (hpc : sem.pc = Function.update s.sem.pc p pc)
    (hother : ∀ q, q ≠ p → (q ∈ sem.between ↔ q ∈ s.sem.between)) (hat : place.At pc)
    (hself : p ∈ sem.between ↔ place.inside pc)
    (hread : ∀ aux, place = .store aux → aux = s.global)
    (hwritten : place.written = (s.place p).written)
    (hloops : s.i p + place.turning.toNat ≤ (args p).n)
    (hdone : place = .done → s.i p = (args p).n) : Counts args global (s.goto p place sem) :=
  h.move hsafe hpairs rfl hpc (Function.update_eq_self p s.i).symm rfl hother hat hself hread
    (by rw [hwritten]; rfl) hloops hdone

/-- The write of `slowInc`: the value that it has read is still there. -/
theorem Counts.write (h : Counts args global s) {aux : BitVec 64}
    (hplace : s.place p = .store aux) :
    Counts args global
      { s with
        global := aux + (args p).inc.signExtend 64
        place := Function.update s.place p .leave } where
  safe := h.safe
  pairs := h.pairs
  places q := by
    show (Function.update s.place p .leave q).At (s.sem.pc q)
    have hq := h.places q
    by_cases hqp : q = p
    · rw [hqp, Function.update_self]
      rw [hqp, hplace] at hq
      exact hq
    · rw [Function.update_of_ne hqp]
      exact hq
  between q := by
    show _ ↔ (Function.update s.place p .leave q).inside (s.sem.pc q)
    have hq := h.between q
    by_cases hqp : q = p
    · rw [hqp, Function.update_self]
      rw [hqp, hplace] at hq
      exact hq
    · rw [Function.update_of_ne hqp]
      exact hq
  read q aux' hq := by
    change Function.update s.place p .leave q = .store aux' at hq
    by_cases hqp : q = p
    · rw [hqp, Function.update_self] at hq
      exact Place.noConfusion hq
    · -- nobody else is inside
      rw [Function.update_of_ne hqp] at hq
      have hpin : p ∈ s.sem.between := (h.between p).mpr (by rw [hplace]; rfl)
      have hqin : q ∈ s.sem.between := (h.between q).mpr (by rw [hq]; rfl)
      exact absurd (h.alone hqin hpin) hqp
  total := by
    show aux + (args p).inc.signExtend 64 = global + ∑ q, BitVec.ofNat 64
      (s.i q + (Function.update s.place p .leave q).written.toNat) * (args q).inc.signExtend 64
    rw [h.read p aux hplace, h.total, State.sum, add_assoc]
    congr 1
    rw [← Finset.add_sum_erase _ _ (Finset.mem_univ p),
      ← Finset.add_sum_erase (Finset.univ) (fun q => BitVec.ofNat 64
        (s.i q + (Function.update s.place p .leave q).written.toNat) * (args q).inc.signExtend 64)
        (Finset.mem_univ p)]
    have hrest : ∀ q ∈ Finset.univ.erase p,
        BitVec.ofNat 64 (s.i q + (Function.update s.place p .leave q).written.toNat) *
          (args q).inc.signExtend 64 =
        BitVec.ofNat 64 (s.stored q) * (args q).inc.signExtend 64 := fun q hq => by
      rw [Function.update_of_ne (Finset.ne_of_mem_erase hq)]
      rfl
    rw [Finset.sum_congr rfl hrest, Function.update_self, State.stored, hplace]
    simp only [Place.written, Bool.toNat_true, Bool.toNat_false, add_zero]
    have hone : BitVec.ofNat 64 (s.i p + 1) * (args p).inc.signExtend 64 =
        BitVec.ofNat 64 (s.i p) * (args p).inc.signExtend 64 + (args p).inc.signExtend 64 := by
      rw [BitVec.ofNat_add, add_mul]
      exact congrArg _ (one_mul _)
    rw [hone, add_right_comm]
  loops q := by
    show s.i q + (Function.update s.place p .leave q).turning.toNat ≤ (args q).n
    have hq := h.loops q
    by_cases hqp : q = p
    · rw [hqp, Function.update_self]
      rw [hqp, hplace] at hq
      exact hq
    · rw [Function.update_of_ne hqp]
      exact hq
  done q hq := by
    change Function.update s.place p .leave q = .done at hq
    by_cases hqp : q = p
    · rw [hqp, Function.update_self] at hq
      exact Place.noConfusion hq
    · rw [Function.update_of_ne hqp] at hq
      exact h.done q hq

/-- Every step of a process that uses the semaphore. -/
theorem Counts.step (h : Counts args global s) (huse : (args p).useSem)
    (hstep : step pid args s p = some s') : Counts args global s' := by
  have hat := h.places p
  have hin := h.between p
  have hloops := h.loops p
  unfold Sync.step at hstep
  cases hplace : s.place p
  all_goals
    rw [hplace] at hstep hat hin hloops
    simp only at hstep
  case loop =>
    split_ifs at hstep with hlt
    · -- the call of `sem_wait`
      obtain ⟨c', hsem, rfl⟩ := Option.map_eq_some_iff.mp hstep
      have hout : p ∉ s.sem.between := fun hp => Bool.noConfusion (hin.mp hp)
      obtain ⟨hsafe, hpairs⟩ := h.semStep (e := .wait p) hout hsem
      rw [Sem.step, if_pos (show s.sem.pc p = .idle from hat)] at hsem
      obtain rfl := Option.some.inj hsem
      exact h.goto hsafe hpairs rfl (fun _ _ => Iff.rfl) rfl (iff_of_false hout Bool.false_ne_true)
        (fun _ hp => Place.noConfusion hp) (by rw [hplace]; rfl) hlt fun hp => Place.noConfusion hp
    · obtain rfl := Option.some.inj hstep
      exact h.goto h.safe h.pairs (Function.update_eq_self p s.sem.pc).symm (fun _ _ => Iff.rfl)
        hat hin (fun _ hp => Place.noConfusion hp) (by rw [hplace]; rfl) hloops
        fun _ => le_antisymm hloops (not_lt.mp hlt)
  case waiting =>
    obtain ⟨c', hsem, rfl⟩ := Option.map_eq_some_iff.mp hstep
    obtain ⟨hsafe, hpairs⟩ := h.semStep (e := .access p) trivial hsem
    rcases access_of_inWait hat hsem with ⟨pc, sem, hpc, rfl⟩ | ⟨sem, rfl⟩
    · have hne : (s.sem.goto p pc sem).pc p ≠ .idle := by
        rw [Config.goto_pc_self]
        rintro rfl
        exact Bool.noConfusion hpc
      rw [if_neg hne]
      exact h.goto hsafe hpairs rfl (fun _ _ => Iff.rfl) hpc hin (fun _ hp => Place.noConfusion hp)
        (by rw [hplace]) hloops fun hp => Place.noConfusion hp
    · -- `sem_wait` returns
      rw [if_pos (Config.goto_pc_self ..)]
      exact h.goto hsafe hpairs rfl (fun q hq => Finset.mem_insert.trans (or_iff_right hq)) rfl
        (iff_of_true (Finset.mem_insert_self ..) rfl) (fun _ hp => Place.noConfusion hp)
        (by rw [hplace]; rfl) hloops fun hp => Place.noConfusion hp
  case load =>
    obtain rfl := Option.some.inj hstep
    exact h.goto h.safe h.pairs (Function.update_eq_self p s.sem.pc).symm (fun _ _ => Iff.rfl)
      hat hin (fun _ hp => (Place.store.inj hp).symm) (by rw [hplace]; rfl) hloops
      fun hp => Place.noConfusion hp
  case store aux =>
    rw [if_pos huse] at hstep
    obtain rfl := Option.some.inj hstep
    exact h.write hplace
  case leave =>
    obtain ⟨c', hsem, rfl⟩ := Option.map_eq_some_iff.mp hstep
    have hmem : p ∈ s.sem.between := hin.mpr rfl
    obtain ⟨hsafe, hpairs⟩ := h.semStep (e := .post p) hmem hsem
    rw [Sem.step, if_pos (show s.sem.pc p = .idle from hat)] at hsem
    obtain rfl := Option.some.inj hsem
    exact h.goto hsafe hpairs rfl (fun _ _ => Iff.rfl) rfl (iff_of_true hmem rfl)
      (fun _ hp => Place.noConfusion hp) (by rw [hplace]; rfl) hloops fun hp => Place.noConfusion hp
  case posting =>
    obtain ⟨c', hsem, rfl⟩ := Option.map_eq_some_iff.mp hstep
    obtain ⟨hsafe, hpairs⟩ := h.semStep (e := .access p) trivial hsem
    rcases access_of_inPost hat hsem with ⟨pc, sem, hpc, hsame, rfl⟩ | ⟨sem, -, rfl⟩
    · rcases hpc with hpc | rfl
      · have hne : (s.sem.goto p pc sem).pc p ≠ .idle := by
          rw [Config.goto_pc_self]
          rintro rfl
          exact Bool.noConfusion hpc
        rw [if_neg hne]
        have hself : p ∈ s.sem.between ↔ pc.beforeIncrement = true := by
          rw [hsame]
          exact hin
        exact h.goto hsafe hpairs rfl (fun _ _ => Iff.rfl) hpc hself
          (fun _ hp => Place.noConfusion hp) (by rw [hplace]) hloops fun hp => Place.noConfusion hp
      · -- `sem_post` returns
        rw [if_pos (Config.goto_pc_self ..)]
        have hout : p ∉ s.sem.between := fun hp => by
          have hbefore : (s.sem.pc p).beforeIncrement = true := hin.mp hp
          rw [← hsame] at hbefore
          exact Bool.noConfusion hbefore
        exact h.move hsafe hpairs rfl rfl rfl rfl (fun _ _ => Iff.rfl) rfl
          (iff_of_false hout Bool.false_ne_true) (fun _ hp => Place.noConfusion hp)
          (by rw [State.stored, hplace]; rfl) hloops fun hp => Place.noConfusion hp
    · -- the increment of `sem_post`
      rw [if_neg (by rw [Config.goto_pc_self]; exact Pc.noConfusion)]
      exact h.goto hsafe hpairs rfl
        (fun q hq => Finset.mem_erase.trans (and_iff_right hq)) rfl
        (iff_of_false (Finset.notMem_erase p _) Bool.false_ne_true)
        (fun _ hp => Place.noConfusion hp) (by rw [hplace]) hloops fun hp => Place.noConfusion hp
  case done => cases hstep

/-! ## Runs -/

/-- Between the read and the write of `global` in `slowInc`, or in front of them. -/
def Place.counting : Place → Bool
  | .load | .store _ => true
  | _ => false

/-- In every interleaving, with any number of processes, at most one of them is in `slowInc`, no
increment is lost, and when all have finished their loops `global` has changed by the sum of what
they were told to add. -/
theorem sync_counts (pid : Proc → ℕ) (args : Proc → Args) (huse : ∀ p, (args p).useSem)
    (sem : SemT) (hvalue : sem.value = 1) (global : BitVec 64) (ps : List Proc) (s : State Proc)
    (hrun : run (step pid args) (start sem global) ps = some s) :
    (∀ p q, (s.place p).counting → (s.place q).counting → p = q) ∧
      s.global = global + s.sum args ∧
      ((∀ p, s.place p = .done) → s.global =
        global + ∑ p, BitVec.ofNat 64 (args p).n * (args p).inc.signExtend 64) := by
  have h : Counts args global s := run_preserves (P := fun _ _ => True) (counts_start sem hvalue)
    (throughout_of_forall fun _ _ => trivial)
    (fun _ p _ hs _ hstep => hs.step (huse p) hstep) hrun
  have hinside : ∀ p, (s.place p).counting → p ∈ s.sem.between := fun p hp => by
    rw [h.between p]
    cases hplace : s.place p <;> rw [hplace] at hp <;> first | rfl | exact Bool.noConfusion hp
  refine ⟨fun p q hp hq => h.alone (hinside p hp) (hinside q hq), h.total, fun hdone => ?_⟩
  have hsum : s.sum args = ∑ p, BitVec.ofNat 64 (args p).n * (args p).inc.signExtend 64 :=
    Finset.sum_congr rfl fun p _ => by
      rw [State.stored, h.done p (hdone p), hdone p]
      rfl
  rw [h.total, hsum]

/-- One process adds 1 and one adds -1. The second one comes while the first one is in `slowInc`. -/
theorem sync_counts_pair : ∃ s : State Bool,
    run (step (fun p => if p then 1 else 2) fun p => ⟨1, if p then 1 else -1, true⟩)
      (start { zeroTable 0 with value := 1 } 0)
      (List.replicate 7 true ++ List.replicate 9 false ++ List.replicate 9 true ++
        List.replicate 14 false) = some s ∧ s.global = 0 := by
  set pid : Bool → ℕ := fun p => if p then 1 else 2
  set args : Bool → Args := fun p => ⟨1, if p then 1 else -1, true⟩
  set ps : List Bool := List.replicate 7 true ++ List.replicate 9 false ++
    List.replicate 9 true ++ List.replicate 14 false
  have hdone : (run (step pid args) (start { zeroTable 0 with value := 1 } 0) ps).map
      (fun s => decide (∀ p, s.place p = .done)) = some true := by decide +kernel
  obtain ⟨s, hrun, hall⟩ := Option.map_eq_some_iff.mp hdone
  have hglobal := (sync_counts pid args (fun _ => rfl) _ rfl 0 ps s hrun).2.2
    (of_decide_eq_true hall)
  exact ⟨s, hrun, hglobal.trans (by decide)⟩

/-- Without the semaphore an increment is lost. -/
example : (run (step (fun p => if p then 1 else 2) fun _ : Bool => ⟨1, 1, false⟩)
    (start (zeroTable 0) 0) [true, true, false, false, true, false, true, false]).map State.global =
      some 1 := by decide

end TronKernel.Tests.Sync
