import TronKernel.Buddy.Represents

/-!
# Splitting and merging

`malloc` splits one free head down to the level it needs, and all heads it leaves behind have their
buddy split or handed out. `free` puts one head back and merges it upwards. In between the only free
head that may have a free buddy is the one in the code's hand, which is `MergedExcept`.
-/

namespace TronKernel.Buddy

open DyadicTiling DoublyLinked
open FirstFit (wadd wsub)

/-- No two buddies below the top level are both free. -/
def Merged (top : ℕ) (free : List Interval) : Prop :=
  ∀ b ∈ free, ∀ c ∈ free, b.level < top → c.level = b.level → c.index ≠ buddyIndex b.index b.level

/-- No two buddies below the top level are both free, unless one of them is `x`. -/
def MergedExcept (x : Interval) (top : ℕ) (free : List Interval) : Prop :=
  ∀ b ∈ free, ∀ c ∈ free, b ≠ x → c ≠ x → b.level < top → c.level = b.level →
    c.index ≠ buddyIndex b.index b.level

variable {top i k : ℕ} {s : State} {free free' alloc held : List Interval} {b c x : Interval}

theorem Merged.except (h : Merged top free) : MergedExcept x top free :=
  fun b hb c hc _ _ => h b hb c hc

/-- It is enough that the exception's own buddy is not free. -/
theorem MergedExcept.merged (h : MergedExcept x top free)
    (halign : ∀ b ∈ free, 2 ^ b.level ∣ b.index)
    (hbuddy : x.level < top → (⟨buddyIndex x.index x.level, x.level⟩ : Interval) ∉ free) :
    Merged top free := by
  intro b hb c hc hlt hlevel hindex
  by_cases hbx : b = x
  · subst hbx
    obtain ⟨ci, ck⟩ := c
    obtain rfl : ck = b.level := hlevel
    obtain rfl : ci = buddyIndex b.index b.level := hindex
    exact hbuddy hlt hc
  by_cases hcx : c = x
  · subst hcx
    refine hbuddy (hlevel ▸ hlt) ?_
    rw [hindex, hlevel, buddyIndex_buddyIndex (halign b hb)]
    exact hb
  · exact h b hb c hc hbx hcx hlt hlevel hindex

theorem getBuddy_eq (hi : i < BLOCK_LIMIT) :
    getBuddy s i = some (buddyIndex i (s.blocks i).level) := by
  simp only [getBuddy, block_eq hi]
  rfl

/-- A head just taken off its bucket may be handed out. -/
theorem Represents.handOut (h : Represents top s free alloc (b :: held))
    (hflag : (s.blocks b.index).allocated = true) :
    Represents top s free (b :: alloc) held := by
  have hperm : (alloc ++ b :: held).Perm (b :: alloc ++ held) := List.perm_middle
  have hperm' := hperm.append_left free
  exact
    { h with
      shape := h.shape.perm hperm'
      level_eq := fun c hc => h.level_eq c (hperm'.mem_iff.mpr hc)
      alloc_flag := fun c hc => by
        rcases List.mem_cons.mp hc with rfl | hc
        · exact hflag
        · exact h.alloc_flag c hc
      info_allocated := by rw [h.info_allocated, units, (hperm.map _).sum_eq]; rfl }

/-- The first block of a bucket is a free head of its level. -/
theorem Represents.bucket_mem (h : Represents top s free alloc held) (hk : k < LEVEL_LIMIT)
    (hi : s.bucket k = some i) : (⟨i, k⟩ : Interval) ∈ free := by
  rw [(h.bucket k hk).head_eq] at hi
  exact mem_bucketOf.mp (List.mem_of_head? hi)

/-! ## The blocks that are no heads -/

/-- A head begins at the block `x`. -/
def IsHead (heads : List Interval) (x : ℕ) : Prop := ∃ b ∈ heads, b.index = x

@[simp] theorem isHead_append {hs gs : List Interval} {x : ℕ} :
    IsHead (hs ++ gs) x ↔ IsHead hs x ∨ IsHead gs x := by
  simp [IsHead, or_and_right, exists_or]

@[simp] theorem isHead_cons {gs : List Interval} {x : ℕ} :
    IsHead (b :: gs) x ↔ b.index = x ∨ IsHead gs x := by
  simp [IsHead]

@[simp] theorem isHead_nil {x : ℕ} : ¬ IsHead [] x := by simp [IsHead]

/-- No head is lost, and the blocks that still are no heads keep their flags. -/
structure Grows (s s' : State) (heads heads' : List Interval) : Prop where
  mono : ∀ x, IsHead heads x → IsHead heads' x
  flag : ∀ x, ¬ IsHead heads' x → (s'.blocks x).allocated = (s.blocks x).allocated

/-- No head is new, and the blocks that are no heads any more are left flagged. -/
structure Shrinks (s s' : State) (heads heads' : List Interval) : Prop where
  anti : ∀ x, IsHead heads' x → IsHead heads x
  flag : ∀ x, ¬ IsHead heads' x →
    ((s'.blocks x).allocated = true ↔ (s.blocks x).allocated = true ∨ IsHead heads x)

section Flags

variable {s₁ s₂ s₃ : State} {hs₁ hs₂ hs₃ : List Interval}

theorem Grows.refl (s : State) (hs : List Interval) : Grows s s hs hs :=
  ⟨fun _ => id, fun _ _ => rfl⟩

theorem Grows.trans (h : Grows s₁ s₂ hs₁ hs₂) (h' : Grows s₂ s₃ hs₂ hs₃) : Grows s₁ s₃ hs₁ hs₃ where
  mono x hx := h'.mono x (h.mono x hx)
  flag x hx := (h'.flag x hx).trans (h.flag x fun hx' => hx (h'.mono x hx'))

theorem Shrinks.refl (s : State) (hs : List Interval) : Shrinks s s hs hs where
  anti _ := id
  flag x hx := by simp [hx]

theorem Shrinks.trans (h : Shrinks s₁ s₂ hs₁ hs₂) (h' : Shrinks s₂ s₃ hs₂ hs₃) :
    Shrinks s₁ s₃ hs₁ hs₃ where
  anti x hx := h.anti x (h'.anti x hx)
  flag x hx := by
    rw [h'.flag x hx]
    by_cases hx₂ : IsHead hs₂ x
    · exact iff_of_true (Or.inr hx₂) (Or.inr (h.anti x hx₂))
    · rw [or_iff_left hx₂, h.flag x hx₂]

/-- Heads that stay as they are may be counted in. -/
theorem Grows.append (h : Grows s₁ s₂ hs₁ hs₂) (gs : List Interval) :
    Grows s₁ s₂ (hs₁ ++ gs) (hs₂ ++ gs) where
  mono x hx := by
    rw [isHead_append] at hx ⊢
    exact hx.imp_left (h.mono x)
  flag x hx := h.flag x fun hx' => hx (isHead_append.mpr (Or.inl hx'))

theorem Shrinks.append (h : Shrinks s₁ s₂ hs₁ hs₂) (gs : List Interval) :
    Shrinks s₁ s₂ (hs₁ ++ gs) (hs₂ ++ gs) where
  anti x hx := by
    rw [isHead_append] at hx ⊢
    exact hx.imp_left (h.anti x)
  flag x hx := by
    rw [isHead_append, not_or] at hx
    rw [h.flag x hx.1, isHead_append, or_iff_left hx.2]

end Flags

/-! ## Splitting -/

/-- One round: the first head of a level becomes two heads of the level below, which come first on
the list of that level, the lower one in front. -/
theorem splitBlock_represents (h : Represents top s (free ++ ⟨i, k + 1⟩ :: free') alloc held)
    (hhead : s.bucket (k + 1) = some i) :
    ∃ s', splitBlock s (k + 1) = some s' ∧ SameRegion s s' ∧
      Represents top s' (⟨i, k⟩ :: ⟨i + 2 ^ k, k⟩ :: (free ++ free')) alloc held ∧
      Grows s s' (free ++ ⟨i, k + 1⟩ :: free') (⟨i, k⟩ :: ⟨i + 2 ^ k, k⟩ :: (free ++ free')) := by
  have hmem : (⟨i, k + 1⟩ : Interval) ∈ free ++ ⟨i, k + 1⟩ :: free' ++ (alloc ++ held) := by simp
  have hi := h.index_lt hmem
  have hk := h.level_lt hmem
  have halign : 2 ^ (k + 1) ∣ i := h.shape.aligned _ hmem
  obtain ⟨s₁, hval₁, hregion₁, hr₁, -, hflags₁⟩ := removeBlock_represents h
  -- both halves get their level, and neither is another head
  have hshape : IsTiling top (⟨i, k⟩ :: ⟨i + 2 ^ k, k⟩ :: (free ++ free' ++ (alloc ++ held))) := by
    refine (hr₁.shape.perm ?_).split
    rw [← List.append_assoc, ← List.append_assoc]
    exact List.perm_middle
  set s₂ : State :=
    { s₁ with
      blocks := Function.update s₁.blocks i { s₁.blocks i with level := k + 1 - 1 } } with hs₂
  have hlevel₂ : (s₂.blocks i).level = k := by simp [hs₂]
  have hbuddy : buddyIndex i k = i + 2 ^ k := buddyIndex_of_dvd halign
  have hj : i + 2 ^ k < BLOCK_LIMIT := by
    refine (hshape.index_lt (b := ⟨i + 2 ^ k, k⟩) (by simp)).trans_le ?_
    exact Nat.pow_le_pow_right Nat.two_pos (Nat.le_of_lt_succ h.lt_limit)
  set s₃ : State :=
    { s₂ with
      blocks := Function.update s₂.blocks (i + 2 ^ k)
        { s₂.blocks (i + 2 ^ k) with level := k + 1 - 1 } } with hs₃
  have hne : i + 2 ^ k ≠ i := by have := Nat.two_pow_pos k; omega
  have hr₃ : Represents top s₃ (free ++ free') alloc
      ([⟨i + 2 ^ k, k⟩, ⟨i, k⟩] ++ held) := by
    refine Represents.relevel [⟨i, k + 1⟩] [⟨i + 2 ^ k, k⟩, ⟨i, k⟩] hr₁
      (hshape.perm (List.Perm.swap _ _ _)) ?_ ⟨rfl, rfl, rfl, rfl⟩ rfl rfl (fun c hc => ?_)
      fun c hc => ?_
    · simp [pow_succ]; ring
    · have hc₁ : c.index ≠ i := fun heq => hshape.index_ne (c := c) (by simp_all) heq.symm
      have hc₂ : c.index ≠ i + 2 ^ k := fun heq =>
        (hshape.perm (List.Perm.swap _ _ _)).index_ne (c := c) (by simp_all) heq.symm
      simp [hs₃, hs₂, hc₁, hc₂]
    · rcases List.mem_pair.mp hc with rfl | rfl
      · simp [hs₃]
      · simp [hs₃, hs₂]
  obtain ⟨s₄, hval₄, hregion₄, hr₄, hflags₄⟩ := addBlock_represents hr₃
  obtain ⟨s₅, hval₅, hregion₅, hr₅, hflags₅⟩ := addBlock_represents hr₄
  refine ⟨s₅, ?_, ?_, hr₅, fun x hx => ?_, fun x hx => ?_⟩
  · have hset₂ : s₁.setBlock i (fun b => { b with level := k + 1 - 1 }) = some s₂ :=
      setBlock_eq hi _
    have hget : getBuddy s₂ i = some (i + 2 ^ k) := by rw [getBuddy_eq hi, hlevel₂, hbuddy]
    have hset₃ : s₂.setBlock (i + 2 ^ k) (fun b => { b with level := k + 1 - 1 }) = some s₃ :=
      setBlock_eq hj _
    simp only [splitBlock, Nat.succ_ne_zero, if_false, bucketAt_eq hk, hhead, Option.bind_eq_bind,
      Option.bind_some, hval₁, hset₂, hget, hset₃, hval₄]
    exact hval₅
  · have hregion₃ : SameRegion s₁ s₃ := ⟨rfl, rfl, rfl, rfl⟩
    exact ((hregion₁.trans hregion₃).trans hregion₄).trans hregion₅
  · simp only [isHead_append, isHead_cons] at hx ⊢
    tauto
  · simp only [isHead_append, isHead_cons, not_or] at hx
    obtain ⟨hxi, hxj, -⟩ := hx
    have hxi' : x ≠ i := Ne.symm hxi
    have hxj' : x ≠ i + 2 ^ k := Ne.symm hxj
    have hsame₃ : (s₃.blocks x).allocated = (s₁.blocks x).allocated := by
      simp [hs₃, hs₂, hxi', hxj']
    exact (hflags₅ x hxi').trans ((hflags₄ x hxj').trans (hsame₃.trans (hflags₁ x hxi')))

/-! ## Merging -/

/-- A head and its buddy are the two halves of a block, in one order or the other; the code keeps
the lower one. -/
theorem halves_of_buddies (hb : 2 ^ b.level ∣ b.index) (hlevel : c.level = b.level)
    (hindex : c.index = buddyIndex b.index b.level) :
    ∃ base, 2 ^ (b.level + 1) ∣ base ∧ (if b.index > c.index then c.index else b.index) = base ∧
      [c, b].Perm [⟨base, b.level⟩, ⟨base + 2 ^ b.level, b.level⟩] := by
  obtain ⟨i, k⟩ := b
  obtain ⟨j, l⟩ := c
  simp only at hb hlevel hindex ⊢
  have hpos := Nat.two_pow_pos k
  subst hlevel hindex
  rcases half_cases hb with hi | ⟨j, rfl, hj⟩
  · rw [buddyIndex_of_dvd hi]
    exact ⟨i, hi, if_neg (by omega), List.Perm.swap _ _ _⟩
  · rw [buddyIndex_add hj]
    exact ⟨j, hj, if_pos (by omega), List.Perm.refl _⟩

/-- One round of `mergeBuddy`. -/
theorem mergeBuddy_succ {j : ℕ} (hi : i < BLOCK_LIMIT) (hbuddy : getBuddy s i = some j)
    (hj : j < BLOCK_LIMIT) (fuel : ℕ) :
    mergeBuddy s i (fuel + 1) =
      if (s.blocks i).level = s.levelsCount - 1 then some s
      else if (s.blocks i).level ≠ (s.blocks j).level then some s
      else if (s.blocks i).allocated ∨ (s.blocks j).allocated then some s
      else (removeBlock s i).bind fun s => (removeBlock s j).bind fun s =>
        (s.setBlock (if i > j then j else i) fun b => { b with level := b.level + 1 }).bind fun s =>
          (addBlock s (if i > j then j else i)).bind fun s =>
            mergeBuddy s (if i > j then j else i) fuel := by
  simp only [mergeBuddy, block_eq hi, hbuddy, block_eq hj, Option.bind_eq_bind, Option.bind_some]

/-- One round on two free buddies: they become one free head of the next level. -/
theorem joinBuddies_represents {f₁ f₂ : List Interval}
    (h : Represents top s (b :: (f₁ ++ c :: f₂)) alloc []) (hlevel : c.level = b.level)
    (hindex : c.index = buddyIndex b.index b.level) :
    ∃ base s₁ s₂ s₃ s₄, (if b.index > c.index then c.index else b.index) = base ∧
      removeBlock s b.index = some s₁ ∧ removeBlock s₁ c.index = some s₂ ∧
      s₂.setBlock base (fun b => { b with level := b.level + 1 }) = some s₃ ∧
      addBlock s₃ base = some s₄ ∧ SameRegion s s₄ ∧
      Represents top s₄ (⟨base, b.level + 1⟩ :: (f₁ ++ f₂)) alloc [] ∧
      Shrinks s s₄ (b :: (f₁ ++ c :: f₂)) (⟨base, b.level + 1⟩ :: (f₁ ++ f₂)) := by
  have hbmem : b ∈ b :: (f₁ ++ c :: f₂) ++ (alloc ++ []) := by simp
  have hcmem : c ∈ b :: (f₁ ++ c :: f₂) ++ (alloc ++ []) := by simp
  have halign := h.shape.aligned b hbmem
  have hbi := h.index_lt hbmem
  have hci := h.index_lt hcmem
  obtain ⟨s₁, hval₁, hregion₁, hr₁, hflag₁, hflags₁⟩ :=
    removeBlock_represents (show Represents top s ([] ++ b :: (f₁ ++ c :: f₂)) alloc [] from h)
  obtain ⟨s₂, hval₂, hregion₂, hr₂, hflag₂, hflags₂⟩ :=
    removeBlock_represents (show Represents top s₁ (f₁ ++ c :: f₂) alloc [b] from hr₁)
  obtain ⟨base, hbase, hmin, hhalves⟩ := halves_of_buddies halign hlevel hindex
  have hshape : IsTiling top ([⟨base, b.level + 1⟩] ++ (f₁ ++ f₂ ++ (alloc ++ []))) := by
    refine (hr₂.shape.perm ?_).join hbase
    refine List.Perm.trans ?_ (hhalves.append_right (f₁ ++ f₂ ++ (alloc ++ [])))
    rw [← List.append_assoc (f₁ ++ f₂), List.append_nil]
    exact List.perm_append_comm
  have hbaseMem : base = c.index ∨ base = b.index := by
    rw [← hmin]; split_ifs <;> simp
  have hbaseLevel : (s₂.blocks base).level = b.level := by
    rcases hbaseMem with rfl | rfl
    · rw [hr₂.level_eq c (by simp), hlevel]
    · rw [hr₂.level_eq b (by simp)]
  have hbaseLt : base < BLOCK_LIMIT := by rcases hbaseMem with rfl | rfl <;> assumption
  set s₃ : State :=
    { s₂ with
      blocks := Function.update s₂.blocks base
        { s₂.blocks base with level := (s₂.blocks base).level + 1 } } with hs₃
  have hr₃ : Represents top s₃ (f₁ ++ f₂) alloc ([⟨base, b.level + 1⟩] ++ []) := by
    refine Represents.relevel [c, b] [⟨base, b.level + 1⟩] hr₂ hshape ?_
      ⟨rfl, rfl, rfl, rfl⟩ rfl rfl (fun d hd => ?_) fun d hd => ?_
    · rw [units, units, (hhalves.map _).sum_eq]
      simp only [List.map_cons, List.map_nil, List.sum_cons, List.sum_nil]
      ring
    · have hd' : d.index ≠ base := fun heq => hshape.index_ne hd heq.symm
      simp [hs₃, hd']
    · rw [List.mem_singleton.mp hd]
      simp [hs₃, hbaseLevel]
  obtain ⟨s₄, hval₄, hregion₄, hr₄, hflags₄⟩ := addBlock_represents hr₃
  have hregion₃ : SameRegion s₂ s₃ := ⟨rfl, rfl, rfl, rfl⟩
  refine ⟨base, s₁, s₂, s₃, s₄, hmin, hval₁, hval₂, setBlock_eq hbaseLt _, hval₄,
    ((hregion₁.trans hregion₂).trans hregion₃).trans hregion₄, hr₄, fun x hx => ?_, fun x hx => ?_⟩
  · simp only [isHead_append, isHead_cons] at hx ⊢
    rcases hx with hx | hx | hx
    · rcases hbaseMem with hb | hb
      · exact Or.inr (Or.inr (Or.inl (hb.symm.trans hx)))
      · exact Or.inl (hb.symm.trans hx)
    · exact Or.inr (Or.inl hx)
    · exact Or.inr (Or.inr (Or.inr hx))
  · simp only [isHead_append, isHead_cons, not_or] at hx ⊢
    obtain ⟨hxbase, hx₁, hx₂⟩ := hx
    have hxbase' : x ≠ base := Ne.symm hxbase
    have hsame₃ : (s₃.blocks x).allocated = (s₂.blocks x).allocated := by simp [hs₃, hxbase']
    rw [hflags₄ x hxbase', hsame₃]
    -- only the upper of the two buddies is left behind, and both were flagged on removal
    by_cases hxc : x = c.index
    · subst hxc
      simp [hflag₂]
    · rw [hflags₂ x hxc]
      by_cases hxb : x = b.index
      · subst hxb
        simp [hflag₁]
      · rw [hflags₁ x hxb]
        simp [hx₁, hx₂, Ne.symm hxb, Ne.symm hxc]

/-- `mergeBuddy` on a free head that alone may have a free buddy. -/
theorem mergeBuddy_represents (fuel : ℕ) :
    ∀ (s : State) (b : Interval) (free : List Interval), Represents top s (b :: free) alloc [] →
      MergedExcept b top (b :: free) → top < fuel + b.level →
      ∃ s' free', mergeBuddy s b.index fuel = some s' ∧ SameRegion s s' ∧
        Represents top s' free' alloc [] ∧ Merged top free' ∧ Shrinks s s' (b :: free) free' := by
  induction fuel with
  | zero =>
    intro s b free h _ hfuel
    have := h.shape.level_le (b := b) (by simp)
    omega
  | succ fuel ih =>
    intro s b free h hmerged hfuel
    have hbmem : b ∈ b :: free ++ (alloc ++ []) := by simp
    have hbi := h.index_lt hbmem
    have hblevel := h.level_eq b hbmem
    have hbflag := h.free_flag b (by simp)
    have halign := h.shape.aligned b hbmem
    have halignFree : ∀ c ∈ b :: free, 2 ^ c.level ∣ c.index := fun c hc =>
      h.shape.aligned c (List.mem_append_left _ hc)
    have hcount : s.levelsCount - 1 = top := by rw [h.levelsCount]; rfl
    by_cases htop : b.level = top
    · -- the whole region
      refine ⟨s, b :: free, ?_, SameRegion.refl s, h, hmerged.merged halignFree fun hlt => ?_,
        Shrinks.refl s _⟩
      · simp only [mergeBuddy, block_eq hbi, Option.bind_eq_bind, Option.bind_some, hblevel, hcount,
          if_pos htop]
      · exact absurd htop hlt.ne
    have hlt : b.level < top := lt_of_le_of_ne (h.shape.level_le hbmem) htop
    obtain ⟨c, hcmem, hcindex, hcle⟩ := h.shape.buddy_mem hbmem hlt
    have hci := h.index_lt hcmem
    have hclevel := h.level_eq c hcmem
    have hbuddy : getBuddy s b.index = some c.index := by rw [getBuddy_eq hbi, hblevel, hcindex]
    -- the head that begins where the buddy begins is `c`
    have honly : (⟨buddyIndex b.index b.level, b.level⟩ : Interval) ∈ b :: free →
        (⟨buddyIndex b.index b.level, b.level⟩ : Interval) = c := fun hmem =>
      h.shape.index_inj (List.mem_append_left _ hmem) hcmem hcindex.symm
    rw [mergeBuddy_succ hbi hbuddy hci, hblevel, hclevel, hcount, if_neg htop]
    by_cases hlevel : b.level = c.level
    swap
    · rw [if_pos hlevel]
      exact ⟨s, b :: free, rfl, SameRegion.refl s, h, hmerged.merged halignFree fun _ hmem =>
        hlevel (by rw [← honly hmem]), Shrinks.refl s _⟩
    rw [if_neg (not_not.mpr hlevel)]
    by_cases hcflag : (s.blocks c.index).allocated = true
    · rw [if_pos (Or.inr hcflag)]
      refine ⟨s, b :: free, rfl, SameRegion.refl s, h, hmerged.merged halignFree fun _ hmem => ?_,
        Shrinks.refl s _⟩
      have := h.free_flag c (honly hmem ▸ hmem)
      rw [hcflag] at this
      exact Bool.noConfusion this
    rw [if_neg (by rw [hbflag]; simpa using hcflag)]
    -- both are free: `c` is another head of the free list
    have hcb : c ≠ b := by
      rintro rfl
      have := Nat.two_pow_pos c.level
      rcases half_cases halign with hi | ⟨j, hj, hjd⟩
      · rw [buddyIndex_of_dvd hi] at hcindex; omega
      · rw [hj, buddyIndex_add hjd] at hcindex; omega
    have hcfree : c ∈ free := by
      rcases List.mem_append.mp hcmem with hc | hc
      · exact (List.mem_cons.mp hc).resolve_left hcb
      · exact absurd (h.alloc_flag c (by simpa using hc)) hcflag
    obtain ⟨f₁, f₂, rfl⟩ := List.append_of_mem hcfree
    have hbnot : b ∉ f₁ ++ c :: f₂ := by
      have := (List.nodup_append.mp h.shape.nodup).1
      exact (List.nodup_cons.mp this).1
    obtain ⟨base, s₁, s₂, s₃, s₄, hmin, hval₁, hval₂, hset, hval₄, hregion, hr, hshrinks⟩ :=
      joinBuddies_represents h hlevel.symm hcindex
    rw [hmin]
    have hmerged₄ : MergedExcept ⟨base, b.level + 1⟩ top (⟨base, b.level + 1⟩ :: (f₁ ++ f₂)) := by
      intro x hx y hy hx' hy'
      have hsub : ∀ z, z ≠ (⟨base, b.level + 1⟩ : Interval) →
          z ∈ (⟨base, b.level + 1⟩ :: (f₁ ++ f₂) : List Interval) → z ∈ f₁ ++ c :: f₂ := by
        intro z hz hmem
        have := (List.mem_cons.mp hmem).resolve_left hz
        simp only [List.mem_append, List.mem_cons] at this ⊢
        tauto
      have hxf := hsub x hx' hx
      have hyf := hsub y hy' hy
      exact hmerged x (List.mem_cons_of_mem _ hxf) y (List.mem_cons_of_mem _ hyf)
        (fun heq => hbnot (heq ▸ hxf)) fun heq => hbnot (heq ▸ hyf)
    obtain ⟨s', free', hval', hregion', hr', hmerged', hshrinks'⟩ :=
      ih s₄ ⟨base, b.level + 1⟩ (f₁ ++ f₂) hr hmerged₄ (by simp only; omega)
    refine ⟨s', free', ?_, hregion.trans hregion', hr', hmerged', hshrinks.trans hshrinks'⟩
    rw [hval₁, Option.bind_some, hval₂, Option.bind_some, hset, Option.bind_some, hval₄,
      Option.bind_some, hval']

end TronKernel.Buddy
