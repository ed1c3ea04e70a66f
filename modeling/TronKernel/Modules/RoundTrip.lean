import Mathlib.Data.Set.Lattice
import Mathlib.Order.CompletePartialOrder
import TronKernel.Modules.Memcpy

/-!
# The loader reads what the packer wrote

The packer's loops come down to the byte string `image kernel modules` (`buildImage_eq`). One round
of the loader copies the module under the cursor and leaves the cursor at the next one
(`loadModule_eq`). The loop is then an induction on the modules: a module copied early must survive
the later rounds, and what a round overwrites must not be payload that a later round still reads.
-/

namespace TronKernel.Modules

open Mem

/-! ## What the packer writes -/

/-- The modules as they stand in the payload, each behind its size. -/
def entries (modules : List File) : File :=
  modules.flatMap fun file => bytesLE 4 file.length ++ file

/-- The target file: the kernel, the number of modules and the modules. -/
def image (kernel : File) (modules : List File) : File :=
  kernel ++ (bytesLE 4 modules.length ++ entries modules)

/-- The chunked copy writes the whole source behind the target. -/
theorem writeFile_eq (target : File) (source : Stream) (hopen : source.atEof = false) :
    writeFile target source = target ++ source.rest := by
  induction target, source using writeFile.induct with
  | case1 target source hend => simp [hopen] at hend
  | case2 target source hend ih =>
    rw [writeFile, if_neg hend]
    by_cases hshort : source.rest.length < BUFFER_SIZE
    · -- the last portion: the flag is set and the loop ends
      rw [writeFile, if_pos (by simp [fread, hshort])]
      simp only [fread]
      rw [List.take_of_length_le (Nat.le_of_lt hshort)]
    · have hnext : (fread BUFFER_SIZE source).2.atEof = false := by simp [fread, hopen, hshort]
      rw [ih hnext]
      simp only [fread]
      rw [List.append_assoc, List.take_append_drop]

theorem writeModule_eq (target file : File) (hsize : file.length < 2 ^ 32) :
    writeModule target file = target ++ (bytesLE 4 file.length ++ file) := by
  rw [writeModule, writeFile_eq _ _ rfl, writeSize, Nat.mod_eq_of_lt hsize, List.append_assoc]
  rfl

theorem foldl_writeModule (target : File) (modules : List File)
    (hsize : ∀ file ∈ modules, file.length < 2 ^ 32) :
    modules.foldl writeModule target = target ++ entries modules := by
  induction modules generalizing target with
  | nil => simp [entries]
  | cons file modules ih =>
    rw [List.foldl_cons, writeModule_eq target file (hsize file List.mem_cons_self),
      ih _ fun other hother => hsize other (List.mem_cons_of_mem _ hother)]
    simp [entries]

theorem buildImage_eq {files : FileArray} {kernel : File} {modules : List File}
    (harray : files.array = kernel :: modules) (hsize : ∀ file ∈ modules, file.length < 2 ^ 32) :
    buildImage files = some (image kernel modules) := by
  rw [buildImage, harray]
  simp only [List.length_cons, Nat.add_sub_cancel]
  rw [foldl_writeModule _ _ hsize, writeFile_eq _ _ rfl, image, List.append_assoc]
  rfl

/-! ## What the loader reads -/

variable {m : Mem}

/-- A module and the address it is loaded at. -/
structure Placed where
  target : ℕ
  file : File

namespace Placed

/-- The address behind the loaded module. -/
def stop (p : Placed) : ℕ := p.target + p.file.length

/-- The addresses the module is loaded to. -/
def range (p : Placed) : Set ℕ := Set.Ico p.target p.stop

end Placed

/-- No module is loaded over payload from its own bytes on. The next size is at `cursor`, and the
payload ends at `stop`. -/
def SparesUnread (stop cursor : ℕ) : List Placed → Prop
  | [] => True
  | p :: rest =>
    Disjoint p.range (Set.Ico (cursor + sizeofUint32) stop) ∧
      SparesUnread stop (cursor + sizeofUint32 + p.file.length) rest

/-- The modules in the order they are loaded. -/
def filesOf (loads : List Placed) : List File := loads.map Placed.file

theorem entries_cons (p : Placed) (loads : List Placed) :
    entries (filesOf (p :: loads)) =
      bytesLE 4 p.file.length ++ (p.file ++ entries (filesOf loads)) := by
  simp [entries, filesOf]

/-- One round of the loader under the cursor of a module. -/
theorem loadModule_eq {p : Placed} {cursor stop : ℕ} {rest : File}
    (hsize : p.file.length < 2 ^ 32)
    (hheld : Holds m cursor (bytesLE 4 p.file.length ++ (p.file ++ rest)))
    (hstop : cursor + 4 + p.file.length ≤ stop)
    (hspares : Disjoint p.range (Set.Ico (cursor + sizeofUint32) stop)) :
    loadModule m cursor p.target = (p.stop, cursor + 4 + p.file.length,
      copied m p.target (cursor + 4) p.file.length) := by
  have hword : loadLE m cursor 4 = p.file.length := by
    rw [(holds_append.mp hheld).1.loadLE]
    exact Nat.mod_eq_of_lt hsize
  simp only [loadModule, readUint32, sizeofUint32, hword, Placed.stop]
  rw [memcpy_eq]
  by_contra hover
  rw [not_or, Nat.not_le, Nat.not_le] at hover
  -- otherwise the first byte of the module is loaded over its own payload
  have hfirst : p.target ∈ p.range := ⟨le_refl _, by rw [Placed.stop]; omega⟩
  exact Set.disjoint_left.mp hspares hfirst ⟨hover.1.le, by omega⟩

/-- The rounds of the loader: every module ends up at its address, and no other byte changes. -/
theorem loadRest_eq {loads : List Placed} {cursor : ℕ} (last : Option ℕ)
    (hsize : ∀ p ∈ loads, p.file.length < 2 ^ 32)
    (hheld : Holds m cursor (entries (filesOf loads)))
    (hapart : loads.Pairwise fun p q => Disjoint p.range q.range)
    (hspares : SparesUnread (cursor + (entries (filesOf loads)).length) cursor loads) :
    ∃ m', loadRest m cursor last loads.length (loads.map Placed.target) =
        some (loads.foldl (fun _ p => some p.stop) last, m') ∧
      (∀ p ∈ loads, Holds m' p.target p.file) ∧
      ∀ x, (∀ p ∈ loads, x ∉ p.range) → m' x = m x := by
  induction loads generalizing m cursor last with
  | nil => exact ⟨m, rfl, by simp, fun _ _ => rfl⟩
  | cons p loads ih =>
    obtain ⟨hfirst, hspares⟩ := hspares
    obtain ⟨hp, hapart⟩ := List.pairwise_cons.mp hapart
    rw [entries_cons] at hheld hfirst hspares
    have hend : cursor + (bytesLE 4 p.file.length ++ (p.file ++ entries (filesOf loads))).length =
        cursor + 4 + p.file.length + (entries (filesOf loads)).length := by
      simp only [List.length_append, length_bytesLE]
      ring
    rw [hend] at hfirst hspares
    have hround := loadModule_eq (hsize p List.mem_cons_self) hheld (by omega) hfirst
    have hbody := (holds_append.mp hheld).2
    rw [length_bytesLE] at hbody
    obtain ⟨hfile, hrest⟩ := holds_append.mp hbody
    -- the rest of the payload is still there
    have hkept : Holds (copied m p.target (cursor + 4) p.file.length)
        (cursor + 4 + p.file.length) (entries (filesOf loads)) := by
      apply hrest.congr
      intro x hle hlt
      apply copied_source
      intro htarget
      by_contra hin
      refine Set.disjoint_left.mp hfirst (show x ∈ p.range from ⟨htarget, ?_⟩) ⟨?_, hlt⟩
      · exact Nat.lt_of_not_le hin
      · simp only [sizeofUint32]
        omega
    obtain ⟨m', hrun, hloaded, hframe⟩ := ih (some p.stop)
      (fun q hq => hsize q (List.mem_cons_of_mem _ hq)) hkept hapart hspares
    refine ⟨m', ?_, ?_, ?_⟩
    · rw [List.length_cons, List.map_cons, loadRest, hround]
      exact hrun
    · intro q hq
      rcases List.mem_cons.mp hq with rfl | hq
      · -- copied in this round, and no later round writes there
        have hcopied : Holds (copied m q.target (cursor + 4) q.file.length) q.target q.file := by
          apply hfile.copy
          intro x hx
          rw [copied, if_pos (by omega), Nat.add_sub_cancel_left]
        apply hcopied.congr
        intro x hle hlt
        apply hframe
        intro other hother
        exact Set.disjoint_left.mp (hp other hother) ⟨hle, hlt⟩
      · exact hloaded q hq
    · intro x hx
      rw [hframe x fun q hq => hx q (List.mem_cons_of_mem _ hq)]
      have hnot : x ∉ p.range := hx p List.mem_cons_self
      apply copied_source
      intro hle
      exact Nat.le_of_not_lt fun hlt => hnot ⟨hle, hlt⟩

theorem foldl_stop (last : Option ℕ) {loads : List Placed} (hne : loads ≠ []) :
    loads.foldl (fun _ p => some p.stop) last = some (loads.getLast hne).stop := by
  induction loads generalizing last with
  | nil => exact absurd rfl hne
  | cons p loads ih =>
    rw [List.foldl_cons]
    by_cases hrest : loads = []
    · subst hrest
      rfl
    · rw [ih _ hrest, List.getLast_cons hrest]

/-- **Packing then loading gives the modules back.** The image of the packer lies in memory from `a`
on. Where the targets meet neither each other nor the payload that is still to be read, every module
ends up at its target, the loader returns the end of the last one, and no other byte changes. -/
theorem loadModules_buildImage {files : FileArray} {kernel : File} {loads : List Placed}
    (hfiles : files.array = kernel :: filesOf loads) (hne : loads ≠ [])
    (hsize : ∀ p ∈ loads, p.file.length < 2 ^ 32) :
    ∃ image, buildImage files = some image ∧
      ∀ (m : Mem) (a : ℕ), Holds m a image →
        (loads.Pairwise fun p q => Disjoint p.range q.range) →
        SparesUnread (a + image.length) (a + kernel.length + sizeofUint32) loads →
        ∃ m', loadModules m (a + kernel.length) (loads.map Placed.target) =
            some (some (loads.getLast hne).stop, m') ∧
          (∀ p ∈ loads, Holds m' p.target p.file) ∧
          ∀ x, (∀ p ∈ loads, x ∉ p.range) → m' x = m x := by
  have hfilesize : ∀ file ∈ filesOf loads, file.length < 2 ^ 32 := by
    intro file hfile
    obtain ⟨p, hp, rfl⟩ := List.mem_map.mp hfile
    exact hsize p hp
  refine ⟨image kernel (filesOf loads), buildImage_eq hfiles hfilesize, ?_⟩
  intro m a hheld hapart hspares
  obtain ⟨hcount, hentries⟩ := holds_append.mp (holds_append.mp hheld).2
  rw [length_bytesLE] at hentries
  have hlength : (filesOf loads).length = loads.length := List.length_map ..
  have hfew : loads.length < 2 ^ 32 := by
    have := files.length_lt
    rw [hfiles, List.length_cons, hlength] at this
    omega
  have hword : loadLE m (a + kernel.length) 4 = loads.length := by
    rw [hcount.loadLE, hlength]
    exact Nat.mod_eq_of_lt hfew
  have hend : a + (image kernel (filesOf loads)).length =
      a + kernel.length + 4 + (entries (filesOf loads)).length := by
    simp only [image, List.length_append, length_bytesLE]
    ring
  rw [hend] at hspares
  obtain ⟨m', hrun, hloaded, hframe⟩ := loadRest_eq none hsize hentries hapart hspares
  refine ⟨m', ?_, hloaded, hframe⟩
  simp only [loadModules, readUint32, sizeofUint32, hword]
  rw [hrun, foldl_stop none hne]

/-- A kernel of four bytes with a module that is copied by words and one that is copied by bytes. -/
def twoModules : FileArray :=
  ⟨[[0x55, 0x66, 0x77, 0x88], [1, 2, 3, 4, 5, 6, 7, 8], [9, 10, 11]], by decide⟩

/-- The two modules loaded at 4 MiB and 5 MiB, the image being at 1 MiB. -/
theorem loadModules_buildImage_two :
    ∃ image m', buildImage twoModules = some image ∧
      loadModules (fun x => image.getD (x - 0x100000) 0) 0x100004 [0x400000, 0x500000] =
        some (some 0x500003, m') ∧
      Holds m' 0x400000 [1, 2, 3, 4, 5, 6, 7, 8] ∧ Holds m' 0x500000 [9, 10, 11] := by
  let loads : List Placed := [⟨0x400000, [1, 2, 3, 4, 5, 6, 7, 8]⟩, ⟨0x500000, [9, 10, 11]⟩]
  have hsize : ∀ p ∈ loads, p.file.length < 2 ^ 32 := by simp [loads]
  have hfilesize : ∀ file ∈ filesOf loads, file.length < 2 ^ 32 := by simp [loads, filesOf]
  have hfiles : twoModules.array = [0x55, 0x66, 0x77, 0x88] :: filesOf loads := rfl
  obtain ⟨packed, hpacked, hload⟩ := loadModules_buildImage hfiles (List.cons_ne_nil _ _) hsize
  have himage : packed = image [0x55, 0x66, 0x77, 0x88] (filesOf loads) :=
    Option.some.inj (hpacked.symm.trans (buildImage_eq hfiles hfilesize))
  have hlength : packed.length = 27 := by
    rw [himage]
    decide
  have hapart : loads.Pairwise fun p q => Disjoint p.range q.range := by
    simp only [loads, List.pairwise_cons, List.mem_singleton, forall_eq, Placed.range, Placed.stop]
    simp [Set.disjoint_left]
    omega
  have hspares : SparesUnread (0x100000 + packed.length) (0x100000 + 4 + sizeofUint32) loads := by
    rw [hlength]
    refine ⟨?_, ?_, trivial⟩
    all_goals
      apply Set.disjoint_left.mpr
      intro x htarget hunread
      exact absurd (Nat.lt_of_le_of_lt htarget.1 hunread.2) (by decide)
  obtain ⟨m', hrun, hloaded, -⟩ := hload _ 0x100000 (holds_getD packed 0x100000) hapart hspares
  exact ⟨packed, m', hpacked, hrun, hloaded _ List.mem_cons_self,
    hloaded _ (List.mem_cons_of_mem _ List.mem_cons_self)⟩

end TronKernel.Modules
