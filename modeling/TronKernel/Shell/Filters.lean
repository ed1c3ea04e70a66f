import Mathlib.Data.List.Forall2
import TronKernel.Shell.Commands

/-!
# `wc`, `filter` and `cat`

The three text filters read two bytes at a time and collect them in a buffer of `MAX_BUFFER_SIZE`
bytes. The byte 0 and the end mark 4 are left out, and the loop ends where both bytes are one of
these. The loops differ in one thing: `cat` prints the buffer and begins anew after a newline. Here
the buffer is a map from offsets, and every store is recorded.

None of the loops looks at the size of the buffer (`filters_inside_iff`).
-/

namespace TronKernel.Shell.Filters

open Sem (toInt)

abbrev MAX_BUFFER_SIZE : ℕ := 2048

abbrev NEWLINE : UInt8 := 10

/-- The buffer by offsets, the offsets of the stores so far, `i`, and what the buffer held when it
was printed. -/
structure Collector where
  bytes : ℤ → UInt8
  written : List ℤ
  i : ℤ
  printed : List (ℤ → UInt8)

/-- `buff[i] = c`. -/
def Collector.store (s : Collector) (c : UInt8) : Collector :=
  { s with bytes := Function.update s.bytes s.i c, written := s.written ++ [s.i] }

/-- `buff[i++] = c`, for a byte that is kept. -/
def Collector.keep (s : Collector) (c : UInt8) : Collector :=
  if c ≠ 0 ∧ c ≠ 4 then { s.store c with i := toInt (s.i + 1) } else s

/-- `buff[i] = 0`, `printf("%s", buff)` and `i = 0`. -/
def Collector.flush (s : Collector) : Collector :=
  { s.store 0 with i := 0, printed := s.printed ++ [(s.store 0).bytes] }

/-- The two bytes of a `read`. -/
abbrev Pair := UInt8 × UInt8

/-- The loop goes on after these bytes. -/
def goesOn (p : Pair) : Bool := (p.1 ≠ 4 && p.1 ≠ 0) || (p.2 ≠ 4 && p.2 ≠ 0)

/-- A pass of the loop. `breaks` tells after which bytes the buffer is printed. -/
def Collector.pass (breaks : Pair → Bool) (s : Collector) (p : Pair) : Collector :=
  let s := (s.keep p.1).keep p.2
  if breaks p then s.flush else s

/-- The loop, with what `read` delivers: the buffer, and whether the loop has ended. -/
def collect (breaks : Pair → Bool) : Collector → List Pair → Collector × Bool
  | s, [] => (s, false)
  | s, p :: reads =>
    if goesOn p then collect breaks (s.pass breaks p) reads else (s.pass breaks p, true)

/-- `wc` fills its buffer with zeros first. -/
def wc (buff : ℤ → UInt8) (reads : List Pair) : Collector × Bool :=
  collect (fun _ => false)
    ⟨fun o => if 0 ≤ o ∧ o < MAX_BUFFER_SIZE then 0 else buff o,
      (List.range MAX_BUFFER_SIZE).map Nat.cast, 0, []⟩ reads

/-- `filter` puts a terminator behind the text. -/
def filter (buff : ℤ → UInt8) (reads : List Pair) : Collector × Bool :=
  let (s, ended) := collect (fun _ => false) ⟨buff, [], 0, []⟩ reads
  (if ended then s.store 0 else s, ended)

/-- The test of `cat` for a newline. -/
def hasNewline (p : Pair) : Bool := p.1 = NEWLINE || p.2 = NEWLINE

/-- `cat`. -/
def cat (buff : ℤ → UInt8) (reads : List Pair) : Collector × Bool :=
  collect hasNewline ⟨buff, [], 0, []⟩ reads

/-! ## The text of a stream -/

/-- The bytes of the stream that are kept. -/
def kept (ps : List Pair) : List UInt8 :=
  (ps.flatMap fun p => [p.1, p.2]).filter fun c => c ≠ 0 && c ≠ 4

/-- What is read until the loop ends. -/
def passes : List Pair → List Pair
  | [] => []
  | p :: reads => if goesOn p then p :: passes reads else [p]

/-- The loop ends. -/
def ends (reads : List Pair) : Bool := reads.any fun p => !goesOn p

/-- The text since the last time it was printed, and the texts that were printed. -/
structure Text where
  text : List UInt8
  lines : List (List UInt8)
deriving DecidableEq

/-- The text after two more bytes. -/
def Text.add (breaks : Pair → Bool) (t : Text) (p : Pair) : Text :=
  if breaks p then ⟨[], t.lines ++ [t.text ++ kept [p]]⟩ else ⟨t.text ++ kept [p], t.lines⟩

/-- The text of a stream. -/
def textOf (breaks : Pair → Bool) (ps : List Pair) : Text := ps.foldl (Text.add breaks) ⟨[], []⟩

/-- The buffer begins with the text. -/
def Holds (bytes : ℤ → UInt8) (text : List UInt8) : Prop :=
  ∀ j (hj : j < text.length), bytes j = text[j]

/-- The buffer is the text as a string that ends inside. -/
def HoldsString (bytes : ℤ → UInt8) (text : List UInt8) : Prop :=
  Holds bytes text ∧ bytes text.length = 0 ∧ text.length < MAX_BUFFER_SIZE

/-- Each store so far was one to the buffer. -/
def Collector.Inside (s : Collector) : Prop := ∀ o ∈ s.written, 0 ≤ o ∧ o < MAX_BUFFER_SIZE

/-- The text fits: in each pass there is room for it, and for a terminator if it is printed. -/
def Fits (breaks : Pair → Bool) (t : Text) (ps : List Pair) : Prop :=
  ∀ pre p, pre ++ [p] <+: ps →
    ((pre.foldl (Text.add breaks) t).text ++ kept [p]).length + (if breaks p then 1 else 0) ≤
      MAX_BUFFER_SIZE

/-! ## A pass -/

variable {breaks : Pair → Bool} {s : Collector} {t : Text} {fill : ℤ → UInt8} {p : Pair}
  {ps reads : List Pair} {c : UInt8} {text : List UInt8} {ended : Bool}

/-- So far the collector has the text, and all stores were inside. Behind a text that has never been
printed the buffer is as it was. -/
structure Tracks (fill : ℤ → UInt8) (s : Collector) (t : Text) : Prop where
  index : s.i = t.text.length
  room : t.text.length ≤ MAX_BUFFER_SIZE
  inside : s.Inside
  holds : Holds s.bytes t.text
  printed : List.Forall₂ HoldsString s.printed t.lines
  rest : t.lines = [] → ∀ o : ℤ, t.text.length ≤ o → s.bytes o = fill o

theorem Collector.inside_store (s : Collector) (c : UInt8) :
    (s.store c).Inside ↔ s.Inside ∧ 0 ≤ s.i ∧ s.i < MAX_BUFFER_SIZE := by
  simp only [Collector.Inside, Collector.store, List.mem_append, List.mem_singleton]
  refine ⟨fun h => ⟨fun o ho => h o (Or.inl ho), h s.i (Or.inr rfl)⟩, fun h o ho => ?_⟩
  rcases ho with ho | rfl
  · exact h.1 o ho
  · exact h.2

/-- A store behind the text. -/
theorem Tracks.holds_store (h : Tracks fill s t) : Holds (s.store c).bytes t.text := by
  intro j hj
  have hne : (j : ℤ) ≠ s.i := by
    rw [h.index]
    omega
  exact (Function.update_of_ne hne _ _).trans (h.holds j hj)

theorem Tracks.inside_store (h : Tracks fill s t) (c : UInt8) :
    (s.store c).Inside ↔ t.text.length < MAX_BUFFER_SIZE := by
  rw [Collector.inside_store, h.index]
  refine ⟨fun hin => by omega, fun hlt => ⟨h.inside, by omega, by omega⟩⟩

theorem kept_append (ps qs : List Pair) : kept (ps ++ qs) = kept ps ++ kept qs := by
  simp [kept]

/-- What is kept of one byte. -/
def kept1 (c : UInt8) : List UInt8 := if c ≠ 0 ∧ c ≠ 4 then [c] else []

theorem kept_pair (p : Pair) : kept [p] = kept1 p.1 ++ kept1 p.2 := by
  simp only [kept, kept1, List.flatMap_cons, List.flatMap_nil, List.append_nil]
  have hfilter : ∀ c : UInt8, ([c].filter fun c => c ≠ 0 && c ≠ 4) =
      if c ≠ 0 ∧ c ≠ 4 then [c] else [] := by
    intro c
    by_cases hc : c ≠ 0 ∧ c ≠ 4
    · rw [if_pos hc, List.filter_cons_of_pos (by simpa using hc), List.filter_nil]
    · rw [if_neg hc, List.filter_cons_of_neg (by simpa using hc), List.filter_nil]
  rw [← hfilter, ← hfilter, ← List.filter_append, List.singleton_append]

/-- A byte is kept if there is room for it. -/
theorem Tracks.keep (h : Tracks fill s t)
    (hroom : (t.text ++ kept1 c).length ≤ MAX_BUFFER_SIZE) :
    Tracks fill (s.keep c) ⟨t.text ++ kept1 c, t.lines⟩ := by
  unfold Collector.keep kept1 at *
  split_ifs at hroom ⊢ with hc
  swap
  · rwa [List.append_nil]
  rw [List.length_append, List.length_singleton] at hroom
  have hindex := h.index
  have hmax : MAX_BUFFER_SIZE = 2048 := rfl
  refine ⟨?_, by simpa using hroom, (h.inside_store c).mpr (by omega), ?_, h.printed, ?_⟩
  · simp only [toInt, hindex, List.length_append, List.length_singleton]
    omega
  · intro j hj
    rw [List.length_append, List.length_singleton] at hj
    by_cases hlast : j < t.text.length
    · rw [List.getElem_append_left hlast]
      exact h.holds_store j hlast
    · obtain rfl : j = t.text.length := by omega
      rw [List.getElem_append_right (le_refl _)]
      simp [Collector.store, hindex]
  · intro hlines o ho
    rw [List.length_append, List.length_singleton] at ho
    have hne : o ≠ s.i := by
      rw [hindex]
      omega
    exact (Function.update_of_ne hne _ _).trans (h.rest hlines o (by omega))

/-- A byte for which there is no room goes behind the buffer. -/
theorem Tracks.keep_outside (h : Tracks fill s t)
    (hroom : ¬ (t.text ++ kept1 c).length ≤ MAX_BUFFER_SIZE) : ¬ (s.keep c).Inside := by
  have hold := h.room
  unfold Collector.keep kept1 at *
  split_ifs at hroom ⊢ with hc
  · rw [List.length_append, List.length_singleton] at hroom
    exact (h.inside_store c).not.mpr (by omega)
  · exact absurd (by simpa using hold) hroom

theorem Tracks.flush (h : Tracks fill s t) (hroom : t.text.length < MAX_BUFFER_SIZE) :
    Tracks fill s.flush ⟨[], t.lines ++ [t.text]⟩ where
  index := rfl
  room := Nat.zero_le _
  inside := (h.inside_store 0).mpr hroom
  holds _ hj := absurd hj (Nat.not_lt_zero _)
  printed := by
    refine List.rel_append h.printed (List.Forall₂.cons ⟨h.holds_store, ?_, hroom⟩ .nil)
    rw [← h.index]
    exact Function.update_self _ _ _
  rest hlines := absurd hlines (by simp)

/-- Stores outside stay recorded. -/
theorem Collector.inside_of_keep (h : (s.keep c).Inside) : s.Inside := by
  unfold Collector.keep at h
  split_ifs at h
  · exact ((Collector.inside_store s c).mp h).1
  · exact h

theorem Collector.inside_of_pass (h : (s.pass breaks p).Inside) : s.Inside := by
  refine inside_of_keep (c := p.1) (inside_of_keep (c := p.2) ?_)
  unfold Collector.pass at h
  dsimp only at h
  split_ifs at h
  · exact ((Collector.inside_store _ 0).mp h).1
  · exact h

/-- A pass for which there is room. -/
theorem Tracks.pass (h : Tracks fill s t)
    (hroom : (t.text ++ kept [p]).length + (if breaks p then 1 else 0) ≤ MAX_BUFFER_SIZE) :
    Tracks fill (s.pass breaks p) (t.add breaks p) := by
  rw [kept_pair, ← List.append_assoc] at hroom
  have hfirst : Tracks fill (s.keep p.1) ⟨t.text ++ kept1 p.1, t.lines⟩ := by
    refine h.keep ?_
    rw [List.length_append] at hroom
    omega
  have hboth := hfirst.keep (c := p.2) (Nat.le_of_add_right_le hroom)
  unfold Collector.pass Text.add
  rw [kept_pair, ← List.append_assoc]
  split_ifs at hroom ⊢
  · exact hboth.flush hroom
  · exact hboth

/-- A pass for which there is none. -/
theorem Tracks.pass_outside (h : Tracks fill s t)
    (hroom : ¬ (t.text ++ kept [p]).length + (if breaks p then 1 else 0) ≤ MAX_BUFFER_SIZE) :
    ¬ (s.pass breaks p).Inside := by
  rw [kept_pair, ← List.append_assoc] at hroom
  intro hin
  have hkept : ((s.keep p.1).keep p.2).Inside := by
    unfold Collector.pass at hin
    dsimp only at hin
    split_ifs at hin
    · exact ((Collector.inside_store _ 0).mp hin).1
    · exact hin
  by_cases hfirst : (t.text ++ kept1 p.1).length ≤ MAX_BUFFER_SIZE
  · have htracks := h.keep hfirst
    by_cases hboth : ((t.text ++ kept1 p.1) ++ kept1 p.2).length ≤ MAX_BUFFER_SIZE
    · have htracks' := htracks.keep hboth
      unfold Collector.pass at hin
      dsimp only at hin
      split_ifs at hin hroom
      · exact hroom ((htracks'.inside_store 0).mp hin)
      · exact hroom hboth
    · exact htracks.keep_outside hboth hkept
  · exact h.keep_outside hfirst (Collector.inside_of_keep hkept)

/-! ## All passes -/

theorem collect_eq (s : Collector) (reads : List Pair) :
    collect breaks s reads = ((passes reads).foldl (Collector.pass breaks) s, ends reads) := by
  induction reads generalizing s with
  | nil => rfl
  | cons p reads ih =>
    rw [collect, passes, ends, List.any_cons]
    by_cases hgo : goesOn p
    · rw [if_pos hgo, if_pos hgo, ih, List.foldl_cons, hgo]
      rfl
    · rw [if_neg hgo, if_neg hgo]
      simp [hgo]

theorem inside_of_foldl (h : (ps.foldl (Collector.pass breaks) s).Inside) : s.Inside := by
  induction ps generalizing s with
  | nil => exact h
  | cons p ps ih => exact Collector.inside_of_pass (ih h)

theorem fits_cons : Fits breaks t (p :: ps) ↔
    (t.text ++ kept [p]).length + (if breaks p then 1 else 0) ≤ MAX_BUFFER_SIZE ∧
      Fits breaks (t.add breaks p) ps := by
  constructor
  · intro h
    refine ⟨h [] p (by simp), fun pre q hpre => ?_⟩
    exact h (p :: pre) q (List.cons_prefix_cons.mpr ⟨rfl, hpre⟩)
  · rintro ⟨hfirst, hrest⟩ pre q hpre
    cases pre with
    | nil =>
      obtain ⟨rfl, -⟩ := List.cons_prefix_cons.mp hpre
      exact hfirst
    | cons a pre =>
      obtain ⟨rfl, hpre'⟩ := List.cons_prefix_cons.mp hpre
      exact hrest pre q hpre'

/-- All stores are inside exactly if the text fits in every pass, and then the buffer has it. -/
theorem Tracks.foldl (breaks : Pair → Bool) (ps : List Pair) (h : Tracks fill s t) :
    ((ps.foldl (Collector.pass breaks) s).Inside ↔ Fits breaks t ps) ∧
      (Fits breaks t ps →
        Tracks fill (ps.foldl (Collector.pass breaks) s) (ps.foldl (Text.add breaks) t)) := by
  induction ps generalizing s t with
  | nil => exact ⟨iff_of_true h.inside fun pre p hpre => by simp at hpre, fun _ => h⟩
  | cons p ps ih =>
    rw [fits_cons]
    by_cases hroom : (t.text ++ kept [p]).length + (if breaks p then 1 else 0) ≤ MAX_BUFFER_SIZE
    · obtain ⟨hiff, htracks⟩ := ih (h.pass hroom)
      refine ⟨hiff.trans ⟨fun hfits => ⟨hroom, hfits⟩, fun hfits => hfits.2⟩, fun hfits => ?_⟩
      exact htracks hfits.2
    · refine ⟨iff_of_false (fun hin => ?_) fun hfits => hroom hfits.1,
        fun hfits => absurd hfits.1 hroom⟩
      exact h.pass_outside hroom (inside_of_foldl hin)

/-! ## Loops that never print -/

theorem foldl_add_never (t : Text) (ps : List Pair) :
    ps.foldl (Text.add fun _ => false) t = ⟨t.text ++ kept ps, t.lines⟩ := by
  induction ps generalizing t with
  | nil => simp [kept]
  | cons p ps ih =>
    have hcons : kept (p :: ps) = kept [p] ++ kept ps := kept_append [p] ps
    rw [List.foldl_cons, ih, Text.add, if_neg Bool.false_ne_true, hcons, List.append_assoc]

/-- Where nothing is printed the whole text has to fit. -/
theorem fits_never (ps : List Pair) :
    Fits (fun _ => false) ⟨[], []⟩ ps ↔ (kept ps).length ≤ MAX_BUFFER_SIZE := by
  constructor
  · intro h
    rcases List.eq_nil_or_concat ps with rfl | ⟨pre, p, rfl⟩
    · exact Nat.zero_le _
    · have hlast := h pre p (List.concat_eq_append ▸ List.prefix_refl _)
      rw [foldl_add_never] at hlast
      simpa [kept_append] using hlast
  · intro h pre p hpre
    obtain ⟨post, rfl⟩ := hpre
    rw [kept_append, List.length_append, kept_append] at h
    rw [foldl_add_never, if_neg Bool.false_ne_true]
    exact Nat.le_of_add_right_le h

/-- An empty buffer. -/
theorem tracks_empty (fill : ℤ → UInt8) {written : List ℤ}
    (hin : ∀ o ∈ written, 0 ≤ o ∧ o < MAX_BUFFER_SIZE) :
    Tracks fill ⟨fill, written, 0, []⟩ ⟨[], []⟩ where
  index := rfl
  room := Nat.zero_le _
  inside := hin
  holds _ hj := absurd hj (Nat.not_lt_zero _)
  printed := .nil
  rest _ _ _ := rfl

/-! ## The three filters -/

/-- All stores were inside, and the buffer has the text: as a string, once the loop has ended. -/
def Collects (out : Collector × Bool) (reads : List Pair) : Prop :=
  out.1.Inside ∧ Holds out.1.bytes (kept (passes reads)) ∧ out.2 = ends reads ∧
    (out.2 = true → HoldsString out.1.bytes (kept (passes reads)))

/-- The same for `cat`: the buffer has the text since the last newline, and each text that was
printed was a string. -/
def CollectsLines (out : Collector × Bool) (reads : List Pair) : Prop :=
  out.1.Inside ∧ Holds out.1.bytes (textOf hasNewline (passes reads)).text ∧ out.2 = ends reads ∧
    List.Forall₂ HoldsString out.1.printed (textOf hasNewline (passes reads)).lines

/-- A loop that never prints, from an empty buffer. -/
theorem collect_never (fill : ℤ → UInt8) {written : List ℤ} (reads : List Pair)
    (hin : ∀ o ∈ written, 0 ≤ o ∧ o < MAX_BUFFER_SIZE) :
    ((collect (fun _ => false) ⟨fill, written, 0, []⟩ reads).1.Inside ↔
        (kept (passes reads)).length ≤ MAX_BUFFER_SIZE) ∧
      ((kept (passes reads)).length ≤ MAX_BUFFER_SIZE →
        Tracks fill (collect (fun _ => false) ⟨fill, written, 0, []⟩ reads).1
          ⟨kept (passes reads), []⟩) := by
  have hall := Tracks.foldl (fun _ => false) (passes reads) (tracks_empty fill hin)
  rw [fits_never, foldl_add_never, List.nil_append] at hall
  rwa [collect_eq]

theorem wc_collects_iff (buff : ℤ → UInt8) (reads : List Pair) :
    Collects (wc buff reads) reads ↔
      (kept (passes reads)).length + (if ends reads then 1 else 0) ≤ MAX_BUFFER_SIZE := by
  have hin : ∀ o ∈ (List.range MAX_BUFFER_SIZE).map (Nat.cast : ℕ → ℤ),
      0 ≤ o ∧ o < MAX_BUFFER_SIZE := by
    intro o ho
    obtain ⟨n, hn, rfl⟩ := List.mem_map.mp ho
    exact ⟨Int.natCast_nonneg n, by exact_mod_cast List.mem_range.mp hn⟩
  obtain ⟨hiff, htracks⟩ := collect_never
    (fun o => if 0 ≤ o ∧ o < MAX_BUFFER_SIZE then 0 else buff o) reads hin
  have hended : (wc buff reads).2 = ends reads := by
    rw [wc, collect_eq]
  constructor
  · rintro ⟨hinside, -, -, hstring⟩
    have hroom := hiff.mp hinside
    split_ifs with hends
    · exact (hstring (hended.trans hends)).2.2
    · exact hroom
  · intro hroom
    have hgood := htracks (Nat.le_of_add_right_le hroom)
    refine ⟨hgood.inside, hgood.holds, hended, fun h => ?_⟩
    rw [← hended, if_pos h] at hroom
    refine ⟨hgood.holds, ?_, hroom⟩
    exact (hgood.rest rfl _ (Int.le_refl _)).trans
      (if_pos ⟨Int.natCast_nonneg _, by exact_mod_cast hroom⟩)

theorem filter_collects_iff (buff : ℤ → UInt8) (reads : List Pair) :
    Collects (filter buff reads) reads ↔
      (kept (passes reads)).length + (if ends reads then 1 else 0) ≤ MAX_BUFFER_SIZE := by
  obtain ⟨hiff, htracks⟩ := collect_never buff reads (by simp : ∀ o ∈ ([] : List ℤ), _)
  set out := collect (fun _ => false) ⟨buff, [], 0, []⟩ reads with hout
  have hended : out.2 = ends reads := by
    rw [hout, collect_eq]
  have hfilter : filter buff reads = (if out.2 then out.1.store 0 else out.1, out.2) := rfl
  rw [hfilter, Collects, hended]
  by_cases hends : ends reads = true
  · rw [if_pos hends, if_pos hends]
    constructor
    · rintro ⟨-, -, -, hstring⟩
      exact (hstring hends).2.2
    · intro hroom
      have hgood := htracks (Nat.le_of_add_right_le hroom)
      refine ⟨(hgood.inside_store 0).mpr hroom, hgood.holds_store, rfl, fun _ => ?_⟩
      refine ⟨hgood.holds_store, ?_, hroom⟩
      rw [← hgood.index]
      exact Function.update_self _ _ _
  · rw [if_neg hends, if_neg hends]
    constructor
    · rintro ⟨hinside, -⟩
      exact hiff.mp hinside
    · intro hroom
      have hgood := htracks hroom
      exact ⟨hgood.inside, hgood.holds, rfl, fun h => absurd h hends⟩

theorem cat_collects_iff (buff : ℤ → UInt8) (reads : List Pair) :
    CollectsLines (cat buff reads) reads ↔ Fits hasNewline ⟨[], []⟩ (passes reads) := by
  have hempty : Tracks buff ⟨buff, [], 0, []⟩ ⟨[], []⟩ := tracks_empty buff (by simp)
  obtain ⟨hiff, htracks⟩ := hempty.foldl hasNewline (passes reads)
  rw [CollectsLines, cat, collect_eq]
  constructor
  · rintro ⟨hinside, -⟩
    exact hiff.mp hinside
  · intro hfits
    have hgood := htracks hfits
    exact ⟨hgood.inside, hgood.holds, rfl, hgood.printed⟩

/-- The filters stay in their buffer and collect the text exactly as long as it fits. -/
theorem filters_inside_iff (buff : ℤ → UInt8) (reads : List Pair) :
    (Collects (wc buff reads) reads ↔
        (kept (passes reads)).length + (if ends reads then 1 else 0) ≤ MAX_BUFFER_SIZE) ∧
      (Collects (filter buff reads) reads ↔
        (kept (passes reads)).length + (if ends reads then 1 else 0) ≤ MAX_BUFFER_SIZE) ∧
      (CollectsLines (cat buff reads) reads ↔ Fits hasNewline ⟨[], []⟩ (passes reads)) :=
  ⟨wc_collects_iff buff reads, filter_collects_iff buff reads, cat_collects_iff buff reads⟩

/-- The bytes `aa`, over and over. -/
def endless (n : ℕ) : List Pair := List.replicate n (97, 97)

theorem passes_endless (n : ℕ) : passes (endless n) = endless n := by
  induction n with
  | zero => rfl
  | succ n ih =>
    have hcons : endless (n + 1) = (97, 97) :: endless n := rfl
    rw [hcons, passes, if_pos (by decide), ih]

theorem kept_endless (n : ℕ) : (kept (endless n)).length = 2 * n := by
  induction n with
  | zero => rfl
  | succ n ih =>
    have hcons : endless (n + 1) = [(97, 97)] ++ endless n := rfl
    have htwo : (kept [(97, 97)]).length = 2 := by decide
    rw [hcons, kept_append, List.length_append, ih, htwo]
    omega

/-- The byte with number 2049 goes behind the buffer. -/
theorem filters_outside :
    ¬ ∀ (buff : ℤ → UInt8) (reads : List Pair), Collects (wc buff reads) reads ∧
      Collects (filter buff reads) reads ∧ CollectsLines (cat buff reads) reads := by
  intro h
  have hroom := (filter_collects_iff _ _).mp (h (fun _ => 0) (endless 1025)).2.1
  rw [passes_endless, kept_endless] at hroom
  exact absurd (Nat.le_of_add_right_le hroom) (by decide)

end TronKernel.Shell.Filters
