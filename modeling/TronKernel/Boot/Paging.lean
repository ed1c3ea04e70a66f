import TronKernel.Lib.Paging

/-!
# The page tables of Pure64

In 32-bit mode Pure64 writes tables for the first 4 GiB, turns paging on, and then, through these
tables, writes the entries for the other 60 GiB. `Tables m n` says that the first `n` pages of 2 MiB
are mapped. The 32-bit code establishes it for 2048 pages (`start32_tables`), each round of the
64-bit loop for one more (`buildem_tables`): the page that the loop writes to is mapped before the
loop begins, and no round changes the entries on the way to it. In the end every address below
64 GiB is mapped to itself, also from the higher half (`buildTables_identity`).
-/

namespace TronKernel.Boot

open Mem Paging

/-! ## The code -/

/-- `rep stosd` with zero in `eax`. -/
def repStosd : ℕ → ℕ → Mem → Mem
  | 0, _, m => m
  | ecx + 1, edi, m => repStosd ecx (edi + 4) (storeLE m edi 4 0)

/-- `rep movsb` -/
def repMovsb : ℕ → ℕ → ℕ → Mem → Mem
  | 0, _, _, m => m
  | ecx + 1, esi, edi, m => repMovsb ecx (esi + 1) (edi + 1) (Function.update m edi (m esi))

/-- An entry of eight bytes, of which `eax` has the lower four, and `eax` after it: `stosd`,
`push eax`, `stosd` of zero, `pop eax`. The stack is empty before, below 0x8000. -/
def storeEntry (m : Mem) (edi eax : ℕ) : Mem × ℕ :=
  let m := storeLE m edi 4 eax
  let m := storeLE m 0x7FFC 4 eax
  let m := storeLE m (edi + 4) 4 0
  (m, loadLE m 0x7FFC 4)

/-- The loops `create_pdpe` and `pd_again` with `n` rounds to go. -/
def createEntries (step : ℕ) : ℕ → ℕ → ℕ → Mem → Mem
  | 0, _, _, m => m
  | n + 1, edi, eax, m =>
    let (m, eax) := storeEntry m edi eax
    createEntries step n (edi + 8) ((eax + step) % 2 ^ 32) m

/-- `create_pdpe` -/
def createPdpe : Mem → Mem := createEntries 0x1000 64 0x3000 0x10007

/-- `pd_again`. What the last round leaves in `eax` does not fit into 32 bits and is not used. -/
def pdAgain : Mem → Mem := createEntries 0x200000 2048 0x10000 0x8F

/-- The two entries of the PML4. -/
def createPml4 (m : Mem) : Mem :=
  let m := storeLE m 0x2000 4 0x3007
  let m := storeLE m 0x2004 4 0
  let m := storeLE m 0x2800 4 0x3007
  storeLE m 0x2804 4 0

/-- `start32`, up to the jump to 64-bit mode. At `gdt64` are three descriptors of eight bytes. -/
def start32 (gdt64 : ℕ) (m : Mem) : Mem :=
  let m := repStosd 1024 0 m
  let m := repStosd 65536 0x10000 m
  let m := repMovsb 24 gdt64 0x1000 m
  let m := createPml4 m
  let m := createPdpe m
  pdAgain m

/-- `cr3`, with the bit for write-through. -/
def cr3 : ℕ := 0x2008

/-- `stosd` in 64-bit mode: the address goes through the page tables. -/
def stosd (m : Mem) (rdi eax : ℕ) : Option Mem :=
  (translate m cr3 rdi).map fun address => storeLE m address 4 eax

/-- `stosq` in 64-bit mode. -/
def stosq (m : Mem) (rdi rax : ℕ) : Option Mem :=
  (translate m cr3 rdi).map fun address => store64 m address rax

/-- The loop `buildem` with `n` rounds to go. -/
def buildem : ℕ → ℕ → ℕ → Mem → Option Mem
  | 0, _, _, m => some m
  | n + 1, rdi, rax, m => do
    let m ← stosq m rdi rax
    buildem n (rdi + 8) (rax + 0x200000) m

/-- The address of `ap_modify` in Pure64, which begins at 0x8000. -/
def apModify : ℕ := 0x8026

/-- The page tables are built, first in 32-bit and then in 64-bit mode. In between the jump at
`ap_modify` is overwritten. A fault gives `none`. -/
def buildTables (gdt64 : ℕ) (m : Mem) : Option Mem := do
  let m := start32 gdt64 m
  let m ← stosd m apModify 0x90909090
  buildem 30720 0x14000 0x10000008F m

/-! ## The 32-bit code -/

variable {m m' : Mem} {n x : ℕ}

theorem repStosd_frame {ecx edi : ℕ} (h : x < edi ∨ edi + 4 * ecx ≤ x) :
    repStosd ecx edi m x = m x := by
  induction ecx generalizing edi m with
  | zero => rfl
  | succ ecx ih => rw [repStosd, ih (by omega), storeLE_frame (by omega)]

theorem repMovsb_frame {ecx esi edi : ℕ} (h : x < edi ∨ edi + ecx ≤ x) :
    repMovsb ecx esi edi m x = m x := by
  induction ecx generalizing esi edi m with
  | zero => rfl
  | succ ecx ih => rw [repMovsb, ih (by omega), Function.update_of_ne (by omega)]

/-- Two halves make an entry. -/
theorem load64_halves {a v : ℕ} (hlow : loadLE m a 4 = v) (hhigh : loadLE m (a + 4) 4 = 0) :
    load64 m a = v := by
  have hsplit := loadLE_add m a 4 4
  rw [hlow, hhigh, Nat.mul_zero, Nat.add_zero] at hsplit
  exact hsplit

theorem loadLE_stored {a v : ℕ} (hv : v < 2 ^ 32) : loadLE (storeLE m a 4 v) a 4 = v := by
  rw [loadLE_storeLE]
  exact Nat.mod_eq_of_lt hv

variable {edi eax step : ℕ}

/-- The stack lies apart from the entry, so `eax` comes back as it was. -/
theorem storeEntry_spec (hstack : edi + 8 ≤ 0x7FFC ∨ 0x8000 ≤ edi) (heax : eax < 2 ^ 32) :
    (storeEntry m edi eax).2 = eax ∧ load64 (storeEntry m edi eax).1 edi = eax := by
  constructor
  · show loadLE (storeLE _ (edi + 4) 4 0) 0x7FFC 4 = eax
    rw [loadLE_storeLE_of_disjoint (by omega)]
    exact loadLE_stored heax
  · apply load64_halves
    · show loadLE (storeLE _ (edi + 4) 4 0) edi 4 = eax
      rw [loadLE_storeLE_of_disjoint (by omega), loadLE_storeLE_of_disjoint (by omega)]
      exact loadLE_stored heax
    · exact loadLE_stored (by omega)

theorem storeEntry_frame (hx : x < edi ∨ edi + 8 ≤ x) (hstack : x < 0x7FFC ∨ 0x8000 ≤ x) :
    (storeEntry m edi eax).1 x = m x := by
  show storeLE (storeLE (storeLE m edi 4 eax) 0x7FFC 4 eax) (edi + 4) 4 0 x = m x
  rw [storeLE_frame (by omega), storeLE_frame (by omega), storeLE_frame (by omega)]

theorem createEntries_frame (hx : x < edi ∨ edi + 8 * n ≤ x) (hstack : x < 0x7FFC ∨ 0x8000 ≤ x) :
    createEntries step n edi eax m x = m x := by
  induction n generalizing edi eax m with
  | zero => rfl
  | succ n ih =>
    rw [createEntries]
    dsimp only
    rw [ih (by omega)]
    exact storeEntry_frame (by omega) hstack

/-- The loop writes the numbers `eax`, `eax + step`, .. as long as they fit into 32 bits. -/
theorem createEntries_spec (hstack : edi + 8 * n ≤ 0x7FFC ∨ 0x8000 ≤ edi)
    (hfits : ∀ i < n, eax + step * i < 2 ^ 32) :
    ∀ i < n, load64 (createEntries step n edi eax m) (edi + 8 * i) = eax + step * i := by
  induction n generalizing edi eax m with
  | zero =>
    intro i hi
    omega
  | succ n ih =>
    have hfirst : eax < 2 ^ 32 := hfits 0 (by omega)
    have hfirststack : edi + 8 ≤ 0x7FFC ∨ 0x8000 ≤ edi := by omega
    obtain ⟨hpop, hentry⟩ := storeEntry_spec (m := m) hfirststack hfirst
    intro i hi
    rw [createEntries]
    dsimp only
    rw [hpop]
    cases i with
    | zero =>
      -- the later rounds write behind this entry
      have hkept : load64 (createEntries step n (edi + 8) ((eax + step) % 2 ^ 32)
          (storeEntry m edi eax).1) edi = load64 (storeEntry m edi eax).1 edi := by
        apply loadLE_congr
        intro x hle hlt
        exact createEntries_frame (by omega) (by omega)
      rw [Nat.mul_zero, Nat.mul_zero, Nat.add_zero edi, Nat.add_zero eax, hkept, hentry]
    | succ i =>
      have hnext : ∀ j, eax + step + step * j = eax + step * (j + 1) := by
        intro j
        rw [Nat.mul_succ]
        omega
      have hsmall : eax + step < 2 ^ 32 := by
        have := hfits 1 (by omega)
        rwa [Nat.mul_one] at this
      have hlater : ∀ j < n, eax + step + step * j < 2 ^ 32 := by
        intro j hj
        rw [hnext]
        exact hfits (j + 1) (by omega)
      have hshift : edi + 8 * (i + 1) = edi + 8 + 8 * i := by omega
      rw [Nat.mod_eq_of_lt hsmall, hshift, ih (by omega) hlater i (by omega), hnext]

/-! ## The tables -/

/-- The tables for the first `n` pages of 2 MiB, reached from the lower and from the higher half. -/
structure Tables (m : Mem) (n : ℕ) : Prop where
  low : load64 m 0x2000 = 0x3007
  high : load64 m 0x2800 = 0x3007
  pdpt : ∀ i < 64, load64 m (0x3000 + 8 * i) = 0x10007 + 0x1000 * i
  pd : ∀ j < n, load64 m (0x10000 + 8 * j) = 0x8F + 0x200000 * j

theorem Tables.congr (h : Tables m n)
    (heq : ∀ x, 0x2000 ≤ x → x < 0x3200 ∨ 0x10000 ≤ x ∧ x < 0x10000 + 8 * n → m' x = m x) :
    Tables m' n := by
  have hword : ∀ a, 0x2000 ≤ a → a + 8 ≤ 0x3200 ∨ 0x10000 ≤ a ∧ a + 8 ≤ 0x10000 + 8 * n →
      load64 m' a = load64 m a := by
    intro a hle hlt
    apply loadLE_congr
    intro x hx₁ hx₂
    exact heq x (by omega) (by omega)
  refine ⟨?_, ?_, fun i hi => ?_, fun j hj => ?_⟩
  · rw [hword _ (by omega) (by omega), h.low]
  · rw [hword _ (by omega) (by omega), h.high]
  · rw [hword _ (by omega) (by omega), h.pdpt i hi]
  · rw [hword _ (by omega) (by omega), h.pd j hj]

/-- A walk through the tables. The two entries of the PML4 lead to the same PDPT. -/
theorem Tables.walk {va : ℕ} (h : Tables m n) (hva : Canonical va)
    (hhalf : va / 2 ^ 39 % 512 = 0 ∨ va / 2 ^ 39 % 512 = 256) (hn : n ≤ 32768)
    (hx : va % 2 ^ 39 < 0x200000 * n) : translate m cr3 va = some (va % 2 ^ 39) := by
  have hpml4e : entry m (frame 12 cr3) 39 va = 0x3007 := by
    have htable : frame 12 cr3 = 0x2000 := by decide
    rw [entry, htable]
    rcases hhalf with hhalf | hhalf
    · rw [hhalf]
      exact h.low
    · rw [hhalf]
      exact h.high
  obtain ⟨i, hi⟩ : ∃ i, i = va % 2 ^ 39 / 2 ^ 30 := ⟨_, rfl⟩
  obtain ⟨j, hj⟩ : ∃ j, j = va % 2 ^ 39 / 2 ^ 21 := ⟨_, rfl⟩
  have hpdpte : entry m (frame 12 0x3007) 30 va = 0x10007 + 0x1000 * i := by
    have htable : frame 12 0x3007 = 0x3000 := by decide
    have hindex : va / 2 ^ 30 % 512 = i := by omega
    rw [entry, htable, hindex]
    exact h.pdpt i (by omega)
  have hpde : entry m (frame 12 (0x10007 + 0x1000 * i)) 21 va = 0x8F + 0x200000 * j := by
    have htable : frame 12 (0x10007 + 0x1000 * i) = 0x10000 + 0x1000 * i := by
      unfold frame
      omega
    have hindex : 0x10000 + 0x1000 * i + 8 * (va / 2 ^ 21 % 512) = 0x10000 + 8 * j := by omega
    rw [entry, htable, hindex]
    exact h.pd j (by omega)
  have hpage : frame 21 (0x8F + 0x200000 * j) = 0x200000 * j := by
    unfold frame
    omega
  have hwalk := translate_large hva hpml4e (by decide) hpdpte (by unfold Present; omega)
    (by unfold PageSize; omega) hpde (by unfold Present; omega) (by unfold PageSize; omega)
  have haddress : 0x200000 * j + va % 2 ^ 21 = va % 2 ^ 39 := by omega
  rw [hwalk, hpage, haddress]

theorem Tables.identity (h : Tables m n) (hn : n ≤ 32768) (hx : x < 0x200000 * n) :
    translate m cr3 x = some x := by
  have hmod : x % 2 ^ 39 = x := Nat.mod_eq_of_lt (by omega)
  have hwalk : translate m cr3 x = some (x % 2 ^ 39) :=
    h.walk (Or.inl (by omega)) (Or.inl (by omega)) hn (by rwa [hmod])
  rwa [hmod] at hwalk

theorem Tables.identity_high (h : Tables m n) (hn : n ≤ 32768) (hx : x < 0x200000 * n) :
    translate m cr3 (0xFFFF800000000000 + x) = some x := by
  have hmod : (0xFFFF800000000000 + x) % 2 ^ 39 = x := by omega
  have hwalk : translate m cr3 (0xFFFF800000000000 + x) =
      some ((0xFFFF800000000000 + x) % 2 ^ 39) :=
    h.walk (Or.inr (by omega)) (Or.inr (by omega)) hn (by rwa [hmod])
  rwa [hmod] at hwalk

/-- The 32-bit code maps the first 4 GiB, and leaves what lies behind the tables alone. -/
theorem start32_tables (gdt64 : ℕ) (m : Mem) :
    Tables (start32 gdt64 m) 2048 ∧ ∀ x, 0x50000 ≤ x → start32 gdt64 m x = m x := by
  obtain ⟨m₁, hm₁⟩ : ∃ m₁, m₁ =
      repMovsb 24 gdt64 0x1000 (repStosd 65536 0x10000 (repStosd 1024 0 m)) := ⟨_, rfl⟩
  have heq : start32 gdt64 m = pdAgain (createPdpe (createPml4 m₁)) := by
    rw [hm₁]
    rfl
  have hpdpt : ∀ x, x < 0x3000 ∨ 0x8000 ≤ x → createPdpe (createPml4 m₁) x = createPml4 m₁ x :=
    fun x hx => createEntries_frame (by omega) (by omega)
  have hpd : ∀ x, x < 0x7FFC ∨ 0x8000 ≤ x ∧ x < 0x10000 ∨ 0x14000 ≤ x →
      start32 gdt64 m x = createPdpe (createPml4 m₁) x := by
    intro x hx
    rw [heq]
    exact createEntries_frame (by omega) (by omega)
  have hlow : ∀ a, a + 8 ≤ 0x3000 → load64 (start32 gdt64 m) a = load64 (createPml4 m₁) a := by
    intro a ha
    apply loadLE_congr
    intro x hle hlt
    rw [hpd x (by omega), hpdpt x (by omega)]
  refine ⟨⟨?_, ?_, fun i hi => ?_, fun j hj => ?_⟩, fun x hx => ?_⟩
  · rw [hlow _ (by omega)]
    unfold createPml4
    apply load64_halves
    · rw [loadLE_storeLE_of_disjoint (by omega), loadLE_storeLE_of_disjoint (by omega),
        loadLE_storeLE_of_disjoint (by omega), loadLE_stored (by omega)]
    · rw [loadLE_storeLE_of_disjoint (by omega), loadLE_storeLE_of_disjoint (by omega),
        loadLE_stored (by omega)]
  · rw [hlow _ (by omega)]
    unfold createPml4
    apply load64_halves
    · rw [loadLE_storeLE_of_disjoint (by omega), loadLE_stored (by omega)]
    · exact loadLE_stored (by omega)
  · have hkept : load64 (start32 gdt64 m) (0x3000 + 8 * i) =
        load64 (createPdpe (createPml4 m₁)) (0x3000 + 8 * i) :=
      loadLE_congr fun x hle hlt => hpd x (by omega)
    rw [hkept]
    exact createEntries_spec (by omega) (fun k hk => by omega) i hi
  · rw [heq]
    exact createEntries_spec (by omega) (fun k hk => by omega) j hj
  · rw [hpd x (by omega), hpdpt x (by omega), createPml4, storeLE_frame (by omega),
      storeLE_frame (by omega), storeLE_frame (by omega), storeLE_frame (by omega), hm₁,
      repMovsb_frame (by omega), repStosd_frame (by omega), repStosd_frame (by omega)]

/-! ## The 64-bit code -/

/-- Each round of the loop writes one entry through the tables that are there, and adds a page. -/
theorem buildem_tables {k : ℕ} (h : Tables m n) (hpos : 0 < n) (hn : n + k ≤ 32768) :
    ∃ m', buildem k (0x10000 + 8 * n) (0x8F + 0x200000 * n) m = some m' ∧ Tables m' (n + k) ∧
      ∀ x, 0x10000 + 8 * (n + k) ≤ x → m' x = m x := by
  induction k generalizing m n with
  | zero => exact ⟨m, rfl, h, fun _ _ => rfl⟩
  | succ k ih =>
    have hmapped : translate m cr3 (0x10000 + 8 * n) = some (0x10000 + 8 * n) :=
      h.identity (by omega) (by omega)
    have hstore : stosq m (0x10000 + 8 * n) (0x8F + 0x200000 * n) =
        some (store64 m (0x10000 + 8 * n) (0x8F + 0x200000 * n)) := by
      rw [stosq, hmapped]
      rfl
    have hmore : Tables (store64 m (0x10000 + 8 * n) (0x8F + 0x200000 * n)) (n + 1) := by
      have hkept : Tables (store64 m (0x10000 + 8 * n) (0x8F + 0x200000 * n)) n :=
        h.congr fun x hle hlt => store64_frame (by omega)
      refine ⟨hkept.low, hkept.high, hkept.pdpt, fun j hj => ?_⟩
      rcases Nat.lt_succ_iff_lt_or_eq.mp hj with hj | rfl
      · exact hkept.pd j hj
      · exact load64_store64_self _ _ (by omega)
    obtain ⟨m', hrun, htables, hframe⟩ := ih hmore (by omega) (by omega)
    have hcount : n + 1 + k = n + (k + 1) := by omega
    have hrdi : 0x10000 + 8 * (n + 1) = 0x10000 + 8 * n + 8 := by omega
    have hrax : 0x8F + 0x200000 * (n + 1) = 0x8F + 0x200000 * n + 0x200000 := by omega
    rw [hcount] at htables hframe
    rw [hrdi, hrax] at hrun
    refine ⟨m', ?_, htables, fun x hx => ?_⟩
    · rw [buildem, hstore]
      exact hrun
    · rw [hframe x hx, store64_frame (by omega)]

theorem buildTables_eq (gdt64 : ℕ) (m : Mem) :
    ∃ m', buildTables gdt64 m = some m' ∧ Tables m' 32768 ∧ ∀ x, 0x50000 ≤ x → m' x = m x := by
  obtain ⟨htables, hframe⟩ := start32_tables gdt64 m
  have hmapped : translate (start32 gdt64 m) cr3 apModify = some apModify :=
    htables.identity (by decide) (by decide)
  have hpatch : stosd (start32 gdt64 m) apModify 0x90909090 =
      some (storeLE (start32 gdt64 m) apModify 4 0x90909090) := by
    rw [stosd, hmapped]
    rfl
  have hpatched : Tables (storeLE (start32 gdt64 m) apModify 4 0x90909090) 2048 := by
    apply htables.congr
    intro x hle hlt
    apply storeLE_frame
    unfold apModify
    omega
  obtain ⟨rounds, hrounds⟩ : ∃ rounds, rounds = 30720 := ⟨_, rfl⟩
  obtain ⟨m', hrun, htables', hframe'⟩ :=
    buildem_tables hpatched (by omega) (show 2048 + rounds ≤ 32768 by omega)
  have hpages : 2048 + rounds = 32768 := by omega
  have hrdi : 0x10000 + 8 * 2048 = 0x14000 := by norm_num
  have hrax : 0x8F + 0x200000 * 2048 = 0x10000008F := by norm_num
  rw [hpages] at htables' hframe'
  rw [hrdi, hrax] at hrun
  refine ⟨m', ?_, htables', fun x hx => ?_⟩
  · rw [buildTables, ← hrounds]
    show (stosd (start32 gdt64 m) apModify 0x90909090).bind _ = _
    rw [hpatch]
    exact hrun
  · have hbehind : apModify + 4 ≤ x := (show apModify + 4 ≤ 0x50000 by decide).trans hx
    rw [hframe' x hx, storeLE_frame (Or.inr hbehind), hframe x hx]

/-- **The first 64 GiB are mapped to themselves.** Whatever memory Pure64 finds, it builds its page
tables without a fault, and then every address below 64 GiB is its own physical address, in the
lower half and at the same distance in the higher half. The free memory behind the tables is as
before. -/
theorem buildTables_identity (gdt64 : ℕ) (m : Mem) :
    ∃ m', buildTables gdt64 m = some m' ∧
      (∀ x < 2 ^ 36, translate m' cr3 x = some x ∧
        translate m' cr3 (0xFFFF800000000000 + x) = some x) ∧
      ∀ x, 0x50000 ≤ x → x < 0xA0000 → m' x = m x := by
  obtain ⟨m', hrun, htables, hframe⟩ := buildTables_eq gdt64 m
  refine ⟨m', hrun, fun x hx => ⟨?_, ?_⟩, fun x hx _ => hframe x hx⟩
  · exact htables.identity (by omega) (by omega)
  · exact htables.identity_high (by omega) (by omega)

end TronKernel.Boot
