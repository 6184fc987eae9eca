import Hoe.LoadFile
import Hoe.Lemmas.Refine

/-!
# Mapping a file

The size of a file and the number of its pages are each an `int` of `mmap_buffer`. A file that both are right for is mapped as a
whole. Where the rounding up to pages leaves the `int`, no array of pages is allocated and the file is not mapped.
-/

namespace Hoe

variable {sys : SystemCalls} {b b' : EditBuffer} {ino : Nat} {file : List Byte}

/-- Nothing is mapped whose size is no positive `int`. -/
theorem maps_pos {n : Int} (h : sys.maps (sizeOfInt n) = true) (hn : n < 2 ^ 31) (hn' : -2 ^ 31 ≤ n) : 0 < n := by
  have hlt := sys.maps_lt _ h
  have hne : sizeOfInt n ≠ 0 := fun hz => by
    rw [hz, sys.maps_zero] at h
    cases h
  unfold sizeOfInt at hlt hne
  omega

/-- No array of pages is allocated for a count that has left the `int`. -/
theorem allocates_nonneg {n : Int} (h : sys.allocates (sizeOfInt (n * sizeofPage)) = true) (hn : n < 2 ^ 31) (hn' : -2 ^ 31 ≤ n) :
    0 ≤ n := by
  have hlt := sys.allocates_lt _ h
  unfold sizeOfInt sizeofPage at hlt
  omega

/-- The division of C by the size of a page. -/
theorem tdiv_maxPageSize {m : Int} (h0 : -2 ^ 31 ≤ m) (h : m < 2 ^ 31) :
    -2 ^ 31 ≤ m.tdiv maxPageSize ∧ m.tdiv maxPageSize < 2 ^ 31 ∧ (0 ≤ m → m.tdiv maxPageSize = m / maxPageSize) ∧
      (m ≤ -maxPageSize → m.tdiv maxPageSize < 0) := by
  unfold maxPageSize
  rcases Int.le_total 0 m with hm | hm
  · rw [Int.tdiv_eq_ediv_of_nonneg hm]
    omega
  · obtain ⟨k, rfl⟩ : ∃ k, m = -k := ⟨-m, by omega⟩
    rw [Int.neg_tdiv, Int.tdiv_eq_ediv_of_nonneg (by omega)]
    omega

theorem mmapFile_pos (h : mmapFile sys b ino file = some b') : 0 < wrapInt file.length := by
  unfold mmapFile at h
  simp only at h
  split at h
  · rename_i hcalls
    rw [Bool.and_eq_true, Bool.and_eq_true] at hcalls
    have hbounds := wrapInt_bounds file.length
    exact maps_pos hcalls.1.2 hbounds.2 hbounds.1
  · cases h

/-- A file that is mapped, and whose size is an `int`, is mapped as a whole. -/
theorem mmapFile_eq (hlen : file.length < 2 ^ 31) (h : mmapFile sys b ino file = some b') :
    b' = mmapBuffer b ino file := by
  have hpos := mmapFile_pos h
  have hsize : wrapInt file.length = file.length := wrapInt_of_lt (by omega) (by exact_mod_cast hlen)
  unfold mmapFile at h
  simp only [hsize] at h
  split at h
  · rename_i hcalls
    rw [Bool.and_eq_true, Bool.and_eq_true] at hcalls
    have halloc := hcalls.2
    have hbounds := wrapInt_bounds ((file.length : Int) + maxPageSize - 1)
    obtain ⟨hlow, hhigh, hdiv, hneg⟩ := tdiv_maxPageSize hbounds.1 hbounds.2
    have hn := allocates_nonneg halloc hhigh hlow
    have hpages : (wrapInt ((file.length : Int) + maxPageSize - 1)).tdiv maxPageSize = pagesFor file.length := by
      by_cases hroom : (file.length : Int) + maxPageSize - 1 < 2 ^ 31
      · have hsum : wrapInt ((file.length : Int) + maxPageSize - 1) = (file.length : Int) + maxPageSize - 1 :=
          wrapInt_of_lt (by unfold maxPageSize; omega) hroom
        rw [hdiv (by rw [hsum]; unfold maxPageSize; omega), hsum]
        unfold pagesFor maxPageSize
        omega
      · refine absurd (hneg ?_) (Int.not_lt.mpr hn)
        unfold wrapInt
        unfold maxPageSize at hroom ⊢
        omega
    rw [hpages, Int.toNat_natCast, Int.toNat_natCast, List.take_length] at h
    rw [mmapBuffer, if_neg (by omega)]
    exact (Option.some.inj h).symm
  · cases h

theorem willingCalls_maps (size : Nat) : willingCalls.maps size = true ↔ 0 < size ∧ size < 2 ^ 63 := decide_eq_true_iff

theorem willingCalls_allocates (size : Nat) : willingCalls.allocates size = true ↔ size < 2 ^ 63 := decide_eq_true_iff

/-- With calls that do all they can every file is mapped that both are right for. -/
theorem mmapFile_willing (b : EditBuffer) (ino : Nat) (hpos : 0 < file.length) (hlen : file.length + maxPageSize ≤ 2 ^ 31) :
    mmapFile willingCalls b ino file = some (mmapBuffer b ino file) := by
  have hmax : maxPageSize = 4096 := rfl
  have hmaps : willingCalls.maps (sizeOfInt (wrapInt file.length)) = true := by
    rw [wrapInt_of_lt (by omega) (by omega)]
    rw [willingCalls_maps, sizeOfInt]
    omega
  have halloc : willingCalls.allocates
      (sizeOfInt ((wrapInt (wrapInt file.length + maxPageSize - 1)).tdiv maxPageSize * sizeofPage)) = true := by
    have hfile : wrapInt file.length = file.length := wrapInt_of_lt (by omega) (by omega)
    rw [hfile, wrapInt_of_lt (by omega) (by omega), Int.tdiv_eq_ediv_of_nonneg (by omega), willingCalls_allocates, sizeOfInt, hmax,
      sizeofPage]
    omega
  have hsome : (mmapFile willingCalls b ino file).isSome := by
    unfold mmapFile
    dsimp only
    rw [hmaps, halloc]
    rfl
  obtain ⟨b', hb'⟩ := Option.isSome_iff_exists.1 hsome
  rw [hb', mmapFile_eq (by omega) hb']

/-- The buffer behind a call of `mmap_buffer`, which leaves it as it is on an error. -/
theorem mmapFile_getD (b : EditBuffer) (ino : Nat) (hlen : file.length + maxPageSize ≤ 2 ^ 31) :
    (mmapFile willingCalls b ino file).getD b = mmapBuffer b ino file := by
  rcases Nat.eq_zero_or_pos file.length with hzero | hpos
  · have hnone : mmapFile willingCalls b ino file = none := by
      by_contra hne
      obtain ⟨b', hb'⟩ := Option.ne_none_iff_exists'.1 hne
      have hpos := mmapFile_pos hb'
      rw [hzero] at hpos
      exact absurd hpos (by decide)
    rw [hnone, mmapBuffer, if_pos hzero]
    rfl
  · rw [mmapFile_willing b ino hpos hlen]
    rfl

/-- Where the rounding up leaves the `int`, the file is not mapped. -/
theorem mmapFile_none (sys : SystemCalls) (b : EditBuffer) (ino : Nat) (hlen : file.length < 2 ^ 31)
    (hlarge : 2 ^ 31 < file.length + maxPageSize) : mmapFile sys b ino file = none := by
  by_contra hne
  obtain ⟨b', hb'⟩ := Option.ne_none_iff_exists'.1 hne
  have hmax : maxPageSize = 4096 := rfl
  unfold mmapFile at hb'
  dsimp only at hb'
  split at hb'
  · rename_i hcalls
    rw [Bool.and_eq_true] at hcalls
    have hbounds := wrapInt_bounds (wrapInt file.length + maxPageSize - 1)
    obtain ⟨hlow, hhigh, -, hneg⟩ := tdiv_maxPageSize hbounds.1 hbounds.2
    refine absurd (hneg ?_) (Int.not_lt.mpr (allocates_nonneg hcalls.2 hhigh hlow))
    have hfile : wrapInt file.length = file.length := wrapInt_of_lt (by omega) (by omega)
    rw [hfile, wrapInt]
    omega
  · cases hb'

end Hoe
