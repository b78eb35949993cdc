import Mathlib.Algebra.BigOperators.Ring.List
import Mathlib.Algebra.Ring.Nat

/-!
# Resetting memory by its page map

The pages that a scan of the page map reports are reset in place, and what lies behind the end of
the scan is decommitted.  The scan looks for written pages that are present and backed neither by
the zero page nor by a file, so a written page that is swapped out is passed over.  This is the
only way in which what was written is kept.
-/

namespace WasmDeps.Pooling

open List

/-- The categories of a page, as bits. -/
abbrev Categories := BitVec 8

def WRITTEN : Categories := 1 <<< 1
def FILE : Categories := 1 <<< 2
def PRESENT : Categories := 1 <<< 3
def SWAPPED : Categories := 1 <<< 4
def PFNZERO : Categories := 1 <<< 5

/-- What the kernel knows of a page. -/
inductive Page
  | untouched | zero | file | written | swapped

namespace Page

/-- No page is write-protected, so all that are mapped count as written. -/
def categories : Page → Categories
  | untouched => 0
  | zero => WRITTEN ||| PRESENT ||| PFNZERO
  | file => WRITTEN ||| PRESENT ||| FILE
  | written => WRITTEN ||| PRESENT
  | swapped => WRITTEN ||| SWAPPED

/-- The page has another content than at first. -/
def modified : Page → Bool
  | written | swapped => true
  | _ => false

/-- The page passes the scan's `category_inverted` and `category_mask`. -/
def isInteresting (p : Page) : Bool :=
  let mask := WRITTEN ||| PRESENT ||| PFNZERO ||| FILE
  (p.categories ^^^ (PFNZERO ||| FILE)) &&& mask = mask

theorem isInteresting_of_modified {p : Page} (h : p.modified) (hne : p ≠ swapped) :
    p.isInteresting := by
  cases p with
  | written => rfl
  | swapped => exact absurd rfl hne
  | _ => cases h

end Page

/-- The answer of the `ioctl`, in pages from the start of the memory. -/
structure PageMapScan where
  regions : List (ℕ × ℕ)
  walkEnd : ℕ

/-- The regions are the pages of interest before the end of the scan, at most `maxPages`. -/
def PageMapScan.Reports (scan : PageMapScan) (pages : List Page) (maxPages : ℕ) : Prop :=
  (∀ i, (∃ r ∈ scan.regions, r.1 ≤ i ∧ i < r.2) ↔
    i < scan.walkEnd ∧ ∃ p ∈ pages[i]?, p.isInteresting) ∧
  (scan.regions.map fun r => r.2 - r.1).sum ≤ maxPages

/-- The ranges of bytes that are passed to the callbacks. -/
structure Reset where
  resetManually : List (ℕ × ℕ)
  decommit : ℕ × ℕ

/-- What `reset_with_pagemap` returns. -/
def Reset.bytesResident (reset : Reset) : ℕ := (reset.resetManually.map fun r => r.2 - r.1).sum

/-- The scan that is made, if there is one: with a page map that answers to `max_pages` or fails,
bytes to keep resident and more than one page. -/
def scanned (hostPageSize : ℕ) (pagemap : Option (ℕ → Option PageMapScan))
    (len keepResident : ℕ) : Option PageMapScan :=
  if keepResident = 0 ∨ keepResident ≤ hostPageSize ∧ len ≤ hostPageSize then none
  else pagemap.bind (· (keepResident / hostPageSize))

/-- The last case is that of `pagemap_disabled`. -/
def resetWithPagemap (hostPageSize : ℕ) (pagemap : Option (ℕ → Option PageMapScan))
    (len keepResident : ℕ) : Reset :=
  let keepResident := min keepResident len
  match scanned hostPageSize pagemap len keepResident with
  | some scan =>
    ⟨scan.regions.map fun r => (r.1 * hostPageSize, r.2 * hostPageSize),
      scan.walkEnd * hostPageSize, len⟩
  | none => ⟨[(0, keepResident)], keepResident, len⟩

/-- Every byte of a modified page is passed to a callback, and few of them are reset manually. -/
def Reset.Clears (reset : Reset) (pages : List Page) (hostPageSize keepResident : ℕ) : Prop :=
  (∀ a, (∃ p ∈ pages[a / hostPageSize]?, p.modified) →
    ∃ r ∈ reset.decommit :: reset.resetManually, r.1 ≤ a ∧ a < r.2) ∧
  reset.bytesResident ≤ keepResident

variable {pages : List Page} {hostPageSize keepResident : ℕ}
  {pagemap : Option (ℕ → Option PageMapScan)}

theorem scanned_reports {len : ℕ} {scan : PageMapScan}
    (hscan : ∀ ioctl ∈ pagemap, ∀ n, ∀ scan ∈ ioctl n, scan.Reports pages n)
    (h : scanned hostPageSize pagemap len keepResident = some scan) :
    scan.Reports pages (keepResident / hostPageSize) := by
  rw [scanned] at h
  split at h
  · cases h
  · obtain ⟨ioctl, hioctl, hanswer⟩ := Option.bind_eq_some_iff.mp h
    exact hscan ioctl hioctl _ scan hanswer

theorem lt_of_getElem?_div (hpos : 0 < hostPageSize) {a : ℕ} {p : Page}
    (hp : p ∈ pages[a / hostPageSize]?) : a < pages.length * hostPageSize := by
  rw [← Nat.div_lt_iff_lt_mul hpos]
  exact (List.getElem?_eq_some_iff.mp hp).1

/-- A scan resets what it reports and decommits what is behind it, which is all but the pages that
are swapped out. -/
theorem clears_of_scan_iff (hpos : 0 < hostPageSize) {scan : PageMapScan} {n : ℕ}
    (hscan : scan.Reports pages n) (hn : n * hostPageSize ≤ keepResident) :
    (Reset.mk (scan.regions.map fun r => (r.1 * hostPageSize, r.2 * hostPageSize))
      (scan.walkEnd * hostPageSize, pages.length * hostPageSize)).Clears pages hostPageSize
      keepResident ↔ ∀ i < scan.walkEnd, pages[i]? ≠ some .swapped := by
  obtain ⟨hexact, hpages⟩ := hscan
  have hbytes : (Reset.mk (scan.regions.map fun r => (r.1 * hostPageSize, r.2 * hostPageSize))
      (scan.walkEnd * hostPageSize, pages.length * hostPageSize)).bytesResident ≤ keepResident :=
    calc
      _ = (scan.regions.map fun r => r.2 - r.1).sum * hostPageSize := by
        rw [Reset.bytesResident, ← sum_map_mul_right, map_map]
        simp [Function.comp_def, Nat.sub_mul]
      _ ≤ n * hostPageSize := Nat.mul_le_mul_right _ hpages
      _ ≤ keepResident := hn
  constructor
  · -- The first byte of a swapped page is in no region, and before what is decommitted.
    rintro ⟨hall, -⟩ i hi hswapped
    have hdiv : i * hostPageSize / hostPageSize = i := Nat.mul_div_cancel i hpos
    obtain ⟨r, hr, hle, hlt⟩ := hall (i * hostPageSize) ⟨.swapped, by rwa [hdiv], rfl⟩
    rcases mem_cons.mp hr with rfl | hr
    · exact absurd (Nat.le_of_mul_le_mul_right hle hpos) (not_le.mpr hi)
    · obtain ⟨q, hq, rfl⟩ := mem_map.mp hr
      obtain ⟨-, p, hp, hinteresting⟩ := (hexact i).mp
        ⟨q, hq, Nat.le_of_mul_le_mul_right hle hpos, Nat.lt_of_mul_lt_mul_right hlt⟩
      obtain rfl := Option.some.inj (hswapped.symm.trans hp)
      cases hinteresting
  · refine fun hswapped => ⟨?_, hbytes⟩
    rintro a ⟨p, hp, hmodified⟩
    by_cases hend : a < scan.walkEnd * hostPageSize
    · rw [← Nat.div_lt_iff_lt_mul hpos] at hend
      have hne : p ≠ .swapped := fun heq => hswapped _ hend (heq ▸ hp)
      have hinteresting := Page.isInteresting_of_modified hmodified hne
      obtain ⟨r, hr, hle, hlt⟩ := (hexact _).mpr ⟨hend, p, hp, hinteresting⟩
      exact ⟨_, .tail _ (mem_map_of_mem hr), (Nat.le_div_iff_mul_le hpos).mp hle,
        (Nat.div_lt_iff_lt_mul hpos).mp hlt⟩
    · exact ⟨_, .head _, not_lt.mp hend, lt_of_getElem?_div hpos hp⟩

/-- **A modified byte is lost exactly if its page was swapped out and passed over**: without a scan
every byte is passed to a callback, and with one it is so exactly if no page before its end is
swapped out.  At most `keep_resident` bytes are reset manually. -/
theorem resetWithPagemap_clears_iff (hpos : 0 < hostPageSize)
    (hscan : ∀ ioctl ∈ pagemap, ∀ n, ∀ scan ∈ ioctl n, scan.Reports pages n) :
    (resetWithPagemap hostPageSize pagemap (pages.length * hostPageSize) keepResident).Clears
      pages hostPageSize keepResident ↔
    ∀ scan ∈ scanned hostPageSize pagemap (pages.length * hostPageSize)
        (min keepResident (pages.length * hostPageSize)),
      ∀ i < scan.walkEnd, pages[i]? ≠ some .swapped := by
  have hkeep := min_le_left keepResident (pages.length * hostPageSize)
  rw [resetWithPagemap]
  cases heq : scanned hostPageSize pagemap (pages.length * hostPageSize)
      (min keepResident (pages.length * hostPageSize)) with
  | some scan =>
    simp only [Option.mem_some_iff, forall_eq']
    exact clears_of_scan_iff hpos (scanned_reports hscan heq)
      ((Nat.div_mul_le_self _ _).trans hkeep)
  | none =>
    refine iff_of_true ⟨?_, hkeep⟩ nofun
    rintro a ⟨p, hp, -⟩
    by_cases hk : a < min keepResident (pages.length * hostPageSize)
    · exact ⟨_, .tail _ (.head _), Nat.zero_le a, hk⟩
    · exact ⟨_, .head _, not_lt.mp hk, lt_of_getElem?_div hpos hp⟩

/-- One page was only read, and one that is swapped out is behind the end of the scan. -/
theorem resetWithPagemap_clears_iff_read :
    (resetWithPagemap 4096 (some fun n => if n = 1 then some ⟨[(1, 2)], 2⟩ else none)
      12288 4096).Clears [.zero, .written, .swapped] 4096 4096 := by
  refine (resetWithPagemap_clears_iff (by decide) ?_).mpr ?_
  · intro ioctl hioctl n scan hscan
    obtain rfl := Option.some.inj hioctl
    obtain ⟨rfl, rfl⟩ : n = 1 ∧ ⟨[(1, 2)], 2⟩ = scan := by simpa using hscan
    refine ⟨fun i => ?_, by decide⟩
    rcases i with _ | _ | _ | i <;> simp <;> decide
  · rintro scan hscan i hi
    obtain rfl : ⟨[(1, 2)], 2⟩ = scan := Option.some.inj hscan
    rcases i with _ | _ | i
    · simp
    · simp
    · exact absurd hi (by simp)

/-- **A page that is swapped out is lost**: no range is passed to a callback. -/
theorem resetWithPagemap_swapped : ∃ scan : PageMapScan,
    (∀ n, scan.Reports [.swapped, .untouched] n) ∧
      resetWithPagemap 4096 (some fun _ => some scan) 8192 4096 = ⟨[], 8192, 8192⟩ ∧
      ¬(⟨[], 8192, 8192⟩ : Reset).Clears [.swapped, .untouched] 4096 4096 := by
  refine ⟨⟨[], 2⟩, fun n => ⟨fun i => ?_, Nat.zero_le n⟩, rfl, fun h => ?_⟩
  · rcases i with _ | _ | i <;> simp <;> decide
  · have := h.1 0 ⟨_, rfl, rfl⟩
    simp at this

end WasmDeps.Pooling
