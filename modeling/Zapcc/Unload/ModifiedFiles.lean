import Mathlib.Data.List.Count
import Zapcc.Support.SetVector

/-!
# Modified files

Before a compilation, the server looks for files that were modified on the disk. It sorts the
files by their recorded modification times and looks only at the first hundred. The main result
is `findModifiedFiles_complete`: a modified file is found when less than a hundred others
are recorded as modified at the same time or later.
-/

namespace Zapcc.Unload

open List

structure FileEntry where
  UniqueID : Nat
  Name : String
  ModTime : Int
  deriving DecidableEq

/-- A way to sort files by their modification times. Equal times leave the order open. -/
structure ModTimeSort where
  sort : List FileEntry → List FileEntry
  perm : ∀ FEs, (sort FEs).Perm FEs
  sorted : ∀ FEs, (sort FEs).Pairwise fun FE1 FE2 => FE2.ModTime ≤ FE1.ModTime

/-- Whether the modification time on the disk, if it can be read, differs from the recorded one. -/
def wasModified (status : String → Option Int) (FE : FileEntry) : Bool :=
  match status FE.Name with
  | none => false
  | some T2 => FE.ModTime ≠ T2

/-- How many files are looked at. -/
def MaxFiles : Nat := 100

def findModifiedFiles (S : ModTimeSort) (status : String → Option Int)
    (UniqueRealFiles FileEntries : List FileEntry) : List FileEntry :=
  ((S.sort UniqueRealFiles).take MaxFiles).foldl
    (fun FileEntries FE =>
      if wasModified status FE then SetVector.insert FileEntries FE else FileEntries)
    FileEntries

/-- The other files that are recorded as modified at the same time or later. -/
def asRecent (UniqueRealFiles : List FileEntry) (FE : FileEntry) : Nat :=
  UniqueRealFiles.countP fun other => other ≠ FE ∧ FE.ModTime ≤ other.ModTime

/-- The files that are recorded as modified later. -/
def moreRecent (UniqueRealFiles : List FileEntry) (FE : FileEntry) : Nat :=
  UniqueRealFiles.countP fun other => FE.ModTime < other.ModTime

variable {S : ModTimeSort} {status : String → Option Int} {files FileEntries : List FileEntry}
  {FE : FileEntry}

theorem mem_findModifiedFiles :
    FE ∈ findModifiedFiles S status files FileEntries ↔
      FE ∈ FileEntries ∨ FE ∈ (S.sort files).take MaxFiles ∧ wasModified status FE = true := by
  unfold findModifiedFiles
  generalize (S.sort files).take MaxFiles = FEs
  induction FEs generalizing FileEntries with
  | nil => simp
  | cons other FEs ih =>
    rw [foldl_cons, ih, mem_cons, or_and_right, ← or_assoc]
    refine or_congr_left ?_
    split_ifs with hmodified
    · rw [SetVector.mem_insert]
      refine or_congr_right (and_iff_left_of_imp fun heq => ?_).symm
      rw [heq]
      exact hmodified
    · refine (or_iff_left fun h => hmodified ?_).symm
      rw [← h.1]
      exact h.2

theorem mem_take_of_asRecent (hFE : FE ∈ files) (hfew : asRecent files FE < MaxFiles) :
    FE ∈ (S.sort files).take MaxFiles := by
  obtain ⟨front, back, hsort, hfront⟩ :=
    eq_append_cons_of_mem ((S.perm files).mem_iff.mpr hFE)
  have hsorted := S.sorted files
  rw [hsort, pairwise_append] at hsorted
  -- the files in front are others that are as recent
  have hcount : front.length ≤ asRecent files FE := by
    have hall : front.countP (fun other => other ≠ FE ∧ FE.ModTime ≤ other.ModTime) =
        front.length := countP_eq_length.mpr fun other hother => by
      have hne : other ≠ FE := fun heq => hfront (heq ▸ hother)
      have hle := hsorted.2.2 other hother FE mem_cons_self
      exact decide_eq_true ⟨hne, hle⟩
    rw [asRecent, ← (S.perm files).countP_eq, hsort, countP_append, hall]
    exact Nat.le_add_right _ _
  have hroom : MaxFiles - front.length = MaxFiles - front.length - 1 + 1 := by omega
  rw [hsort, take_append, hroom, take_succ_cons]
  exact mem_append_right _ mem_cons_self

theorem notMem_take_of_moreRecent (hmany : MaxFiles ≤ moreRecent files FE) :
    FE ∉ (S.sort files).take MaxFiles := by
  intro hFE
  have hsorted := S.sorted files
  have hsplit := take_append_drop MaxFiles (S.sort files)
  rw [← hsplit, pairwise_append] at hsorted
  have hback : ((S.sort files).drop MaxFiles).countP
      (fun other => FE.ModTime < other.ModTime) = 0 :=
    countP_eq_zero.mpr fun other hother => by
      have hle := hsorted.2.2 FE hFE other hother
      simpa using hle
  have hfront : ((S.sort files).take MaxFiles).countP
      (fun other => FE.ModTime < other.ModTime) ≠ ((S.sort files).take MaxFiles).length :=
    fun heq => by
      have hself := countP_eq_length.mp heq FE hFE
      simp at hself
  have hle : ((S.sort files).take MaxFiles).countP (fun other => FE.ModTime < other.ModTime) ≤
      ((S.sort files).take MaxFiles).length := countP_le_length
  have hlength := length_take_le MaxFiles (S.sort files)
  rw [moreRecent, ← (S.perm files).countP_eq, ← hsplit, countP_append, hback] at hmany
  omega

/-- A modified file is found if less than a hundred others are as recent, and no file is added that
is not modified. -/
theorem findModifiedFiles_complete (S : ModTimeSort) (status : String → Option Int)
    (files FileEntries : List FileEntry) :
    (∀ FE ∈ files, wasModified status FE = true → asRecent files FE < MaxFiles →
      FE ∈ findModifiedFiles S status files FileEntries) ∧
    ∀ FE ∈ findModifiedFiles S status files FileEntries, FE ∉ FileEntries →
      FE ∈ files ∧ wasModified status FE = true := by
  refine ⟨fun FE hFE hmodified hfew => ?_, fun FE hFE hnew => ?_⟩
  · exact mem_findModifiedFiles.mpr (.inr ⟨mem_take_of_asRecent hFE hfew, hmodified⟩)
  · obtain ⟨hlooked, hmodified⟩ := (mem_findModifiedFiles.mp hFE).resolve_left hnew
    exact ⟨(S.perm files).mem_iff.mp (mem_of_mem_take hlooked), hmodified⟩

/-- Whether a file may stand before another one. -/
def moreRecentFirst (FE1 FE2 : FileEntry) : Bool := FE2.ModTime ≤ FE1.ModTime

def mergeModTimes : ModTimeSort where
  sort FEs := FEs.mergeSort moreRecentFirst
  perm FEs := mergeSort_perm FEs moreRecentFirst
  sorted FEs := by
      have htrans (a b c : FileEntry) (hab : moreRecentFirst a b = true)
          (hbc : moreRecentFirst b c = true) : moreRecentFirst a c = true :=
        decide_eq_true (Int.le_trans (of_decide_eq_true hbc) (of_decide_eq_true hab))
      have htotal (a b : FileEntry) : (moreRecentFirst a b || moreRecentFirst b a) = true := by
        simp only [moreRecentFirst, Bool.or_eq_true, decide_eq_true_eq]
        omega
      exact (pairwise_mergeSort htrans htotal FEs).imp fun h => of_decide_eq_true h

/-- A file that was recorded before a hundred others. -/
def oldFile : FileEntry := ⟨0, "0", 0⟩

/-- The modification of a single file is found. -/
theorem findModifiedFiles_complete_oldFile :
    oldFile ∈ findModifiedFiles mergeModTimes (fun _ => some 2) [oldFile] [] :=
  (findModifiedFiles_complete mergeModTimes (fun _ => some 2) [oldFile] []).1 oldFile
    mem_cons_self (by decide) (by decide)

def hundredAndOneFiles : List FileEntry :=
  oldFile :: (List.range 100).map fun i => ⟨i + 1, toString (i + 1), 1⟩

/-- The modification of the old file is not found. -/
theorem findModifiedFiles_misses_oldFile :
    ¬ ∀ (S : ModTimeSort) (status : String → Option Int) (files : List FileEntry),
      ∀ FE ∈ files, wasModified status FE = true → FE ∈ findModifiedFiles S status files [] := by
  intro hall
  have hfound := hall mergeModTimes (fun Name => if Name = "0" then some 2 else some 1)
    hundredAndOneFiles oldFile mem_cons_self (by decide)
  have hlooked := ((mem_findModifiedFiles.mp hfound).resolve_left not_mem_nil).1
  refine notMem_take_of_moreRecent ?_ hlooked
  rw [moreRecent, hundredAndOneFiles, countP_cons_of_neg (by decide), countP_map,
    countP_eq_length.mpr fun i _ => by simp [oldFile], length_range]
  exact Nat.le_refl MaxFiles

end Zapcc.Unload
