import TronKernel.Lib.Memory

/-!
# Address translation of the x86-64

In long mode an address is split into four indices of nine bits and an offset. `translate` walks the
tables that lie in memory, with pages of 4 KiB, 2 MiB and 1 GiB. A walk that ends in a page of 2 MiB
is `translate_large`. The accessed and dirty bits that the processor sets on the way are not read by
any walk.
-/

namespace TronKernel.Paging

open Mem

/-- The entry refers to a table or a page. -/
def Present (e : ℕ) : Prop := e % 2 = 1

/-- The entry of an upper level refers to a page. -/
def PageSize (e : ℕ) : Prop := e / 2 ^ 7 % 2 = 1

instance (e : ℕ) : Decidable (Present e) := inferInstanceAs (Decidable (_ = _))

instance (e : ℕ) : Decidable (PageSize e) := inferInstanceAs (Decidable (_ = _))

/-- The address in an entry, of a page or a table of `2 ^ k` bytes: the bits from `k` to 51. -/
def frame (k e : ℕ) : ℕ := e / 2 ^ k * 2 ^ k % 2 ^ 52

/-- The bits from 47 up are the same. -/
def Canonical (va : ℕ) : Prop := va < 2 ^ 47 ∨ 2 ^ 64 - 2 ^ 47 ≤ va ∧ va < 2 ^ 64

instance (va : ℕ) : Decidable (Canonical va) := inferInstanceAs (Decidable (_ ∨ _))

/-- The entry for an address in a table, whose index starts at bit `k`. -/
def entry (m : Mem) (table k va : ℕ) : ℕ := load64 m (table + 8 * (va / 2 ^ k % 512))

/-- The physical address, or a fault. -/
def translate (m : Mem) (cr3 va : ℕ) : Option ℕ :=
  if ¬ Canonical va then none
  else
    let pml4e := entry m (frame 12 cr3) 39 va
    if ¬ Present pml4e then none
    else
      let pdpte := entry m (frame 12 pml4e) 30 va
      if ¬ Present pdpte then none
      else if PageSize pdpte then some (frame 30 pdpte + va % 2 ^ 30)
      else
        let pde := entry m (frame 12 pdpte) 21 va
        if ¬ Present pde then none
        else if PageSize pde then some (frame 21 pde + va % 2 ^ 21)
        else
          let pte := entry m (frame 12 pde) 12 va
          if ¬ Present pte then none else some (frame 12 pte + va % 2 ^ 12)

variable {m : Mem} {cr3 va pml4e pdpte pde : ℕ}

/-- A walk through three tables to a page of 2 MiB. -/
theorem translate_large (hva : Canonical va) (h4 : entry m (frame 12 cr3) 39 va = pml4e)
    (h4p : Present pml4e) (h3 : entry m (frame 12 pml4e) 30 va = pdpte) (h3p : Present pdpte)
    (h3s : ¬ PageSize pdpte) (h2 : entry m (frame 12 pdpte) 21 va = pde) (h2p : Present pde)
    (h2s : PageSize pde) : translate m cr3 va = some (frame 21 pde + va % 2 ^ 21) := by
  simp only [translate, h4, h3, h2]
  rw [if_neg (not_not_intro hva), if_neg (not_not_intro h4p), if_neg (not_not_intro h3p),
    if_neg h3s, if_neg (not_not_intro h2p), if_pos h2s]

end TronKernel.Paging
