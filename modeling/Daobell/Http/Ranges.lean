import Daobell.Http.Reassembly

/-!
Whether the ranges that the threads ask for can be satisfied. The last thread asks
for one position more than there are; and when there are more threads than bytes,
the others ask for all positions of a `size_t`.
-/

namespace Daobell

namespace HttpMultiThreadsDownloader

variable (d : HttpMultiThreadsDownloader)

/-- The range ends where it begins or later, and in the file. -/
def Satisfiable : Prop :=
  d.threadOffsetBeg ≤ d.threadOffsetEnd ∧ d.threadOffsetEnd < d.fileSize

def Asks (p : UInt64) : Prop := d.threadOffsetBeg ≤ p ∧ p ≤ d.threadOffsetEnd

end HttpMultiThreadsDownloader

/-- The thread with index `i`, as `download_file` makes it. -/
def hmtd (hup : HttpUrlParser) (fileSize threadCount : UInt64) (i : ℕ) :
    HttpMultiThreadsDownloader :=
  newHttpMultiThreadsDownloader hup fileSize threadCount (UInt64.ofNat i)

/-- The range of thread `i` can be satisfied, and no other thread asks for a position
in it. -/
def RangeFits (hup : HttpUrlParser) (fileSize threadCount : UInt64) (i : ℕ) : Prop :=
  (hmtd hup fileSize threadCount i).Satisfiable ∧
    ∀ j < threadCount.toNat, j ≠ i →
      ∀ p, (hmtd hup fileSize threadCount i).Asks p → ¬ (hmtd hup fileSize threadCount j).Asks p

section

variable {hup : HttpUrlParser} {fileSize threadCount : UInt64} {i : ℕ}

theorem threadOffsetEnd_last (hi : i + 1 = threadCount.toNat) :
    (hmtd hup fileSize threadCount i).threadOffsetEnd = fileSize :=
  if_pos ((currentThreadIndex_eq_last_iff (Nat.lt_of_succ_le hi.le)).mpr hi)

/-- With more threads than bytes, a thread asks for everything. -/
theorem threadOffsetEnd_of_lt (hi : i + 1 < threadCount.toNat) (hlt : fileSize < threadCount) :
    (hmtd hup fileSize threadCount i).threadOffsetEnd = -1 := by
  have hzero : fileSize / threadCount = 0 := by
    rw [← UInt64.toNat_inj, UInt64.toNat_div]
    exact Nat.div_eq_of_lt hlt
  have hnot : ¬ (hmtd hup fileSize threadCount i).currentThreadIndex = threadCount - 1 :=
    fun h => absurd ((currentThreadIndex_eq_last_iff (Nat.lt_of_succ_lt hi)).mp h) hi.ne
  have hsize : (hmtd hup fileSize threadCount i).threadFileSize = 0 := hzero
  rw [HttpMultiThreadsDownloader.threadOffsetEnd, HttpMultiThreadsDownloader.threadOffsetBeg, hsize]
  refine (if_neg hnot).trans ?_
  simp

theorem threadOffsetEnd_lt_threadOffsetBeg (hle : threadCount ≤ fileSize) {j : ℕ} (hij : i < j)
    (hj : j < threadCount.toNat) :
    (hmtd hup fileSize threadCount i).threadOffsetEnd <
      (hmtd hup fileSize threadCount j).threadOffsetBeg := by
  have hpos : 0 < fileSize.toNat / threadCount.toNat := Nat.div_pos hle (Nat.zero_lt_of_lt hj)
  rw [UInt64.lt_iff_toNat_lt, hmtd, hmtd, threadOffsetEnd_new (hij.trans hj) hpos,
    threadOffsetBeg_new hj, if_neg (by omega)]
  have hmul : (i + 1) * (fileSize.toNat / threadCount.toNat) ≤
      j * (fileSize.toNat / threadCount.toNat) := Nat.mul_le_mul_right _ hij
  have hfirst : 0 < (i + 1) * (fileSize.toNat / threadCount.toNat) :=
    Nat.mul_pos (Nat.succ_pos i) hpos
  exact (Nat.sub_lt hfirst Nat.one_pos).trans_le hmul

theorem satisfiable_of_lt (hle : threadCount ≤ fileSize) (hi : i + 1 < threadCount.toNat) :
    (hmtd hup fileSize threadCount i).Satisfiable := by
  have hpos : 0 < fileSize.toNat / threadCount.toNat :=
    Nat.div_pos hle (Nat.zero_lt_of_lt hi)
  have hend : (hmtd hup fileSize threadCount i).threadOffsetEnd.toNat =
      (i + 1) * (fileSize.toNat / threadCount.toNat) - 1 := by
    rw [hmtd, threadOffsetEnd_new (Nat.lt_of_succ_lt hi) hpos, if_neg hi.ne]
  have hbeg : (hmtd hup fileSize threadCount i).threadOffsetBeg.toNat =
      i * (fileSize.toNat / threadCount.toNat) := threadOffsetBeg_new (Nat.lt_of_succ_lt hi)
  have hfile := succ_mul_le fileSize (Nat.lt_of_succ_lt hi)
  constructor
  · rw [UInt64.le_iff_toNat_le, hbeg, hend, Nat.succ_mul]
    omega
  · rw [UInt64.lt_iff_toNat_lt, hend]
    show _ < fileSize.toNat
    rw [Nat.succ_mul] at hfile ⊢
    omega

end

/-- **The ranges that fit.** The range of a thread can be satisfied and is its own if
and only if it is not the last thread and there are no more threads than bytes. -/
theorem rangeFits_iff (hup : HttpUrlParser) (fileSize threadCount : UInt64) (i : ℕ)
    (hi : i < threadCount.toNat) :
    RangeFits hup fileSize threadCount i ↔
      i + 1 < threadCount.toNat ∧ threadCount ≤ fileSize := by
  constructor
  · rintro ⟨⟨-, hend⟩, -⟩
    have hlast : i + 1 < threadCount.toNat := by
      refine Nat.lt_of_le_of_ne hi fun h => ?_
      rw [threadOffsetEnd_last h] at hend
      exact absurd hend (UInt64.lt_irrefl fileSize)
    refine ⟨hlast, ?_⟩
    by_contra hlt
    rw [threadOffsetEnd_of_lt hlast (UInt64.not_le.mp hlt)] at hend
    exact absurd hend (UInt64.not_lt.mpr (UInt64.le_iff_toNat_le.mpr
      (Nat.le_of_lt_succ fileSize.toNat_lt)))
  · rintro ⟨hlast, hle⟩
    refine ⟨satisfiable_of_lt hle hlast, fun j hj hne p hp hp' => ?_⟩
    rcases Nat.lt_or_gt_of_ne hne with hlt | hlt
    · exact absurd (UInt64.le_trans hp.1 hp'.2)
        (UInt64.not_le.mpr (threadOffsetEnd_lt_threadOffsetBeg hle hlt hi))
    · exact absurd (UInt64.le_trans hp'.1 hp.2)
        (UInt64.not_le.mpr (threadOffsetEnd_lt_threadOffsetBeg hle hlt hj))

theorem rangeFits_iff_five :
    RangeFits ⟨bytesOf "host", bytesOf "/name"⟩ 5 2 0 ↔
      0 + 1 < (2 : UInt64).toNat ∧ (2 : UInt64) ≤ 5 :=
  rangeFits_iff ⟨bytesOf "host", bytesOf "/name"⟩ 5 2 0 (by decide)

/-- A file of one byte over one connection. -/
theorem not_rangeFits_oneByte :
    (hmtd ⟨bytesOf "host", bytesOf "/name"⟩ 1 1 0).genRangeHeader ≠ none ∧
      ¬ RangeFits ⟨bytesOf "host", bytesOf "/name"⟩ 1 1 0 := by
  refine ⟨by decide +kernel, fun h => ?_⟩
  have hend : (hmtd ⟨bytesOf "host", bytesOf "/name"⟩ 1 1 0).threadOffsetEnd = 1 := by decide
  have hlt := h.1.2
  rw [hend] at hlt
  exact absurd hlt (by decide)

end Daobell
