import TronKernel.Bmfs.Utility
import TronKernel.Modules.Memcpy

/-!
# The boot sector

The boot sector reads 512 sectors from the disk to 0x8000, checks that Pure64 is there, and copies
all of it to 0x60000, where Pure64 leaves it alone. The destination of a sector is a segment and an
offset of 16 bits: `At` is the state after a number of sectors, and `readsector` leads from one to
the next (`readsector_at`), also where the offset wraps around and the segment takes the carry. The
copy goes segment by segment (`copy_segment`).
-/

namespace TronKernel.Boot

open Mem Modules

/-! ## The code -/

/-- The memory and the registers of the loop over the sectors. -/
structure Sectors where
  mem : Mem
  es : ℕ
  cx : ℕ
  ebx : ℕ

/-- The number of sectors of a disk. -/
def sectors (disk : Bmfs.Disk) : ℕ := disk.size / 512

/-- The extended read of the BIOS: one sector, or an error where the disk has none. -/
def extendedRead (disk : Bmfs.Disk) (m : Mem) (sector buffer : ℕ) : Option Mem :=
  if sector < sectors disk then
    some fun x =>
      if buffer ≤ x ∧ x < buffer + 512 then disk.bytes (sector * 512 + (x - buffer)) else m x
  else none

/-- The registers after a sector, from `read_ok` on. The carry of `cx` goes to the upper half of the
segment. -/
def Sectors.next (s : Sectors) (m : Mem) : Sectors where
  mem := m
  es := if 2 ^ 16 ≤ s.cx + 512 then (s.es + 0x1000) % 2 ^ 16 else s.es
  cx := (s.cx + 512) % 2 ^ 16
  ebx := (s.ebx + 1) % 2 ^ 32

/-- `readsector`. After an error it tries again, without end: `none`. -/
def readsector (disk : Bmfs.Disk) (s : Sectors) : Option Sectors :=
  (extendedRead disk s.mem s.ebx (s.es * 16 + s.cx)).map s.next

/-- The loop `load_nextsector`. -/
def loadNextsector (disk : Bmfs.Disk) : ℕ → Sectors → Option Sectors
  | 0, s => some s
  | eax + 1, s => do
    let s ← readsector disk s
    loadNextsector disk eax s

/-- The loop `copy_single_segment`: `bx` takes all values of 16 bits. -/
def copySingleSegment (m : Mem) (fs es : ℕ) : Mem := copyBytes m (es * 16) (fs * 16) 0x10000

/-- The loop `copy_payload_to_free_mem`. It ends when `cx` is 0xA000; `fuel` bounds its rounds. -/
def copyPayloadToFreeMem : ℕ → ℕ → ℕ → Mem → Option Mem
  | 0, _, _, _ => none
  | fuel + 1, ax, cx, m =>
    let m := copySingleSegment m ax cx
    let ax := (ax + 0x1000) % 2 ^ 16
    let cx := (cx + 0x1000) % 2 ^ 16
    if cx = 0xA000 then some m else copyPayloadToFreeMem fuel ax cx m

/-- The first four bytes of Pure64. -/
def magic : List UInt8 := [0xFA, 0x66, 0x31, 0xC0]

/-- The boot sector, up to the jump to 0x8000. Where Pure64 is not found it halts: `none`. -/
def bmfsMbr (disk : Bmfs.Disk) (m : Mem) : Option Mem := do
  let s ← loadNextsector disk 512 ⟨m, 0, 0x8000, 16⟩
  if loadLE s.mem 0x8000 4 = 0xC03166FA then copyPayloadToFreeMem 16 0x0800 0x6000 s.mem
  else none

/-! ## Reading the sectors -/

variable {disk : Bmfs.Disk} {m : Mem} {s : Sectors} {k n : ℕ}

/-- The state after `k` sectors. The first one goes to 0x8000, which is 64 sectors into the segment.
-/
structure At (disk : Bmfs.Disk) (m : Mem) (k : ℕ) (s : Sectors) : Prop where
  es : s.es = (64 + k) / 128 * 0x1000
  cx : s.cx = (64 + k) % 128 * 512
  ebx : s.ebx = 16 + k
  read : ∀ i < 512 * k, s.mem (0x8000 + i) = disk.bytes (8192 + i)
  frame : ∀ x, x < 0x8000 ∨ 0x8000 + 512 * k ≤ x → s.mem x = m x

theorem At.buffer (h : At disk m k s) : s.es * 16 + s.cx = 0x8000 + 512 * k := by
  rw [h.es, h.cx]
  omega

theorem At.next_es (h : At disk m k s) (hk : k < 512) (m' : Mem) :
    (s.next m').es = (64 + (k + 1)) / 128 * 0x1000 := by
  rw [Sectors.next, h.es, h.cx]
  dsimp only
  by_cases hlast : (64 + k) % 128 = 127
  · -- the offset wraps around
    rw [hlast, if_pos (by decide)]
    omega
  · rw [if_neg (by omega)]
    omega

theorem At.next_cx (h : At disk m k s) (m' : Mem) :
    (s.next m').cx = (64 + (k + 1)) % 128 * 512 := by
  rw [Sectors.next, h.cx]
  dsimp only
  omega

theorem At.next_ebx (h : At disk m k s) (hk : k < 512) (m' : Mem) :
    (s.next m').ebx = 16 + (k + 1) := by
  rw [Sectors.next, h.ebx]
  dsimp only
  omega

theorem extendedRead_eq {sector : ℕ} (m : Mem) (buffer : ℕ) (h : sector < sectors disk) :
    ∃ m', extendedRead disk m sector buffer = some m' ∧
      (∀ i < 512, m' (buffer + i) = disk.bytes (sector * 512 + i)) ∧
      ∀ x, x < buffer ∨ buffer + 512 ≤ x → m' x = m x := by
  refine ⟨_, if_pos h, fun i hi => ?_, fun x hx => ?_⟩
  · rw [if_pos (by omega), Nat.add_sub_cancel_left]
  · exact if_neg (by omega)

/-- A sector is read behind the ones before it. -/
theorem readsector_at (h : At disk m k s) (hk : k < 512) (hdisk : 16 + k < sectors disk) :
    ∃ s', readsector disk s = some s' ∧ At disk m (k + 1) s' := by
  have hsector : s.ebx < sectors disk := h.ebx.trans_lt hdisk
  obtain ⟨m', hread, hnew, hold⟩ :=
    extendedRead_eq s.mem (s.es * 16 + s.cx) hsector
  rw [h.buffer] at hnew hold
  have hmem : (s.next m').mem = m' := rfl
  refine ⟨s.next m', by rw [readsector, hread]; rfl, h.next_es hk m', h.next_cx m',
    h.next_ebx hk m', fun i hi => ?_, fun x hx => ?_⟩
  · rw [hmem]
    by_cases hi' : 512 * k ≤ i
    · obtain ⟨j, rfl⟩ := Nat.exists_eq_add_of_le hi'
      have hfrom : s.ebx * 512 + j = 8192 + (512 * k + j) := by
        rw [h.ebx]
        ring
      rw [← hfrom, ← Nat.add_assoc]
      exact hnew j (by omega)
    · have hbefore : 0x8000 + i < 0x8000 + 512 * k := by omega
      rw [hold _ (Or.inl hbefore), h.read i (by omega)]
  · have hbehind : 0x8000 + 512 * k + 512 ≤ 0x8000 + 512 * (k + 1) := by omega
    rw [hmem, hold x (hx.imp (fun hlt => by omega) hbehind.trans), h.frame x (by omega)]

theorem loadNextsector_at (h : At disk m k s) (hkn : k + n ≤ 512)
    (hdisk : 16 + (k + n) ≤ sectors disk) :
    ∃ s', loadNextsector disk n s = some s' ∧ At disk m (k + n) s' := by
  induction n generalizing k s with
  | zero => exact ⟨s, rfl, h⟩
  | succ n ih =>
    have hcount : k + 1 + n = k + (n + 1) := by omega
    obtain ⟨s₁, hround, hnext⟩ := readsector_at h (by omega) (by omega)
    obtain ⟨s', hrest, hlast⟩ := ih hnext (by omega) (by omega)
    rw [hcount] at hlast
    refine ⟨s', ?_, hlast⟩
    rw [loadNextsector, hround]
    exact hrest

/-! ## Copying the payload -/

/-- A copy can be made in two parts. -/
theorem copied_copied {d s n k : ℕ} (h : s + (n + k) ≤ d) :
    copied (copied m d s n) (d + n) (s + n) k = copied m d s (n + k) := by
  funext x
  by_cases hsecond : d + n ≤ x ∧ x < d + n + k
  · have hsource : s + n + (x - (d + n)) = s + (x - d) := by omega
    rw [copied, if_pos hsecond, hsource, copied_source (by omega), copied, if_pos (by omega)]
  · rw [copied, if_neg hsecond]
    by_cases hfirst : d ≤ x ∧ x < d + n
    · rw [copied, if_pos hfirst, copied, if_pos (by omega)]
    · rw [copied_source (by omega), copied_source (by omega)]

/-- The next segment of the copy. -/
theorem copy_segment {fs es : ℕ} (hfs : fs * 16 = 0x8000 + n) (hes : es * 16 = 0x60000 + n)
    (hn : n + 0x10000 ≤ 0x40000) :
    copySingleSegment (copied m 0x60000 0x8000 n) fs es =
      copied m 0x60000 0x8000 (n + 0x10000) := by
  have hapart : 0x8000 + n + 0x10000 ≤ 0x60000 + n := by omega
  have hbehind : 0x8000 + (n + 0x10000) ≤ 0x60000 :=
    (Nat.add_le_add_left hn 0x8000).trans (by decide)
  rw [copySingleSegment, hfs, hes, copyBytes_eq _ _ _ _ (Or.inr hapart), copied_copied hbehind]

/-- A round of the loop that is not the last. -/
theorem copy_payload_next {fuel ax cx ax' cx' : ℕ} (hax : (ax + 0x1000) % 2 ^ 16 = ax')
    (hcx : (cx + 0x1000) % 2 ^ 16 = cx') (hne : cx' ≠ 0xA000) :
    copyPayloadToFreeMem (fuel + 1) ax cx m =
      copyPayloadToFreeMem fuel ax' cx' (copySingleSegment m ax cx) := by
  rw [copyPayloadToFreeMem, hax, hcx, if_neg hne]

/-- The loop copies four segments. -/
theorem copy_payload_eq (m : Mem) :
    copyPayloadToFreeMem 16 0x0800 0x6000 m = some (copied m 0x60000 0x8000 0x40000) := by
  have hbegin : copied m 0x60000 0x8000 0 = m := funext fun x => copied_source id
  have hfirst : copySingleSegment (copied m 0x60000 0x8000 0) 0x0800 0x6000 =
      copied m 0x60000 0x8000 (0 + 0x10000) := copy_segment rfl rfl (by decide)
  rw [hbegin, Nat.zero_add] at hfirst
  have hsecond : copySingleSegment (copied m 0x60000 0x8000 0x10000) 0x1800 0x7000 =
      copied m 0x60000 0x8000 0x20000 := copy_segment rfl rfl (by decide)
  have hthird : copySingleSegment (copied m 0x60000 0x8000 0x20000) 0x2800 0x8000 =
      copied m 0x60000 0x8000 0x30000 := copy_segment rfl rfl (by decide)
  have hfourth : copySingleSegment (copied m 0x60000 0x8000 0x30000) 0x3800 0x9000 =
      copied m 0x60000 0x8000 0x40000 := copy_segment rfl rfl (by decide)
  calc
    copyPayloadToFreeMem 16 0x0800 0x6000 m
    _ = copyPayloadToFreeMem 15 0x1800 0x7000 (copied m 0x60000 0x8000 0x10000) := by
      rw [← hfirst]
      exact copy_payload_next rfl rfl (by decide)
    _ = copyPayloadToFreeMem 14 0x2800 0x8000 (copied m 0x60000 0x8000 0x20000) := by
      rw [← hsecond]
      exact copy_payload_next rfl rfl (by decide)
    _ = copyPayloadToFreeMem 13 0x3800 0x9000 (copied m 0x60000 0x8000 0x30000) := by
      rw [← hthird]
      exact copy_payload_next rfl rfl (by decide)
    _ = some (copied m 0x60000 0x8000 0x40000) := by
      rw [copyPayloadToFreeMem, if_pos (by decide), hfourth]

/-- On a disk that holds Pure64 and 256 KiB in all, the boot sector gets to Pure64. What begins in
sector 16 then lies at 0x8000 and again at 0x60000. -/
theorem bmfsMbr_eq (m : Mem) (hdisk : 16 + 512 ≤ sectors disk)
    (hmagic : Holds disk.bytes 8192 magic) :
    ∃ m', bmfsMbr disk m = some m' ∧
      (∀ i < 0x40000, m' (0x8000 + i) = disk.bytes (8192 + i)) ∧
      (∀ i < 0x40000, m' (0x60000 + i) = disk.bytes (8192 + i)) := by
  have hbegin : At disk m 0 ⟨m, 0, 0x8000, 16⟩ :=
    ⟨rfl, rfl, rfl, fun i hi => absurd hi (Nat.not_lt_zero i), fun _ _ => rfl⟩
  obtain ⟨rounds, hrounds⟩ : ∃ rounds, rounds = 512 := ⟨_, rfl⟩
  obtain ⟨s, hload, hat⟩ :=
    loadNextsector_at (n := rounds) hbegin (by omega) (by omega)
  have hread : ∀ i < 0x40000, s.mem (0x8000 + i) = disk.bytes (8192 + i) :=
    fun i hi => hat.read i (by omega)
  have hfound : loadLE s.mem 0x8000 4 = 0xC03166FA := by
    have hheld : Holds s.mem 0x8000 (bytesLE 4 0xC03166FA) :=
      hmagic.copy fun i hi => hread i (Nat.lt_trans hi (by decide))
    exact hheld.loadLE
  refine ⟨copied s.mem 0x60000 0x8000 0x40000, ?_, fun i hi => ?_, fun i hi => ?_⟩
  · rw [bmfsMbr, ← hrounds, hload]
    show (if loadLE s.mem 0x8000 4 = 0xC03166FA then _ else none) = _
    rw [if_pos hfound, copy_payload_eq]
  · rw [copied_frame (by omega), hread i hi]
  · rw [copied_dest hi, hread i hi]

end TronKernel.Boot
