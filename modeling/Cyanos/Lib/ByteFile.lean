import Cyanos.Lib.Heap

/-!
# Files as byte sequences

A file is the list of its bytes.  Reading gives the bytes from an offset on, writing replaces them,
and what lies between the end of the file and a later write or a greater length is zero.

A file can be kept in an array of bytes and a length, where the bytes from the length on are not part
of it (`loadBytes mem 0 len`).  `readAt_loadBytes`, `writeAt_loadBytes` and `resize_loadBytes` say
what the three operations are there.  For a write beyond the end, the bytes between have to be zero.
-/

namespace Lib

open List Nat

/-- Up to `n` bytes from `off` on. -/
def readAt (bytes : List UInt8) (off n : ℕ) : List UInt8 := (bytes.drop off).take n

/-- The file cut off, or extended by zeros, to the length `n`. -/
def resize (bytes : List UInt8) (n : ℕ) : List UInt8 :=
  bytes.take n ++ List.replicate (n - bytes.length) 0

/-- The file with the bytes `new` at `off`. -/
def writeAt (bytes : List UInt8) (off : ℕ) (new : List UInt8) : List UInt8 :=
  resize bytes off ++ new ++ bytes.drop (off + new.length)

variable {mem : ℕ → UInt8} {len off n : ℕ}

@[simp] theorem length_loadBytes (mem : ℕ → UInt8) (a n : ℕ) : (loadBytes mem a n).length = n := by
  simp [loadBytes]

theorem loadBytes_zero (mem : ℕ → UInt8) (a : ℕ) : loadBytes mem a 0 = [] := rfl

theorem loadBytes_congr {mem' : ℕ → UInt8} {a : ℕ} (h : ∀ i < n, mem' (a + i) = mem (a + i)) :
    loadBytes mem' a n = loadBytes mem a n :=
  map_congr_left fun i hi => h i (mem_range.1 hi)

theorem loadBytes_add (mem : ℕ → UInt8) (a m n : ℕ) :
    loadBytes mem a (m + n) = loadBytes mem a m ++ loadBytes mem (a + m) n := by
  simp [loadBytes, range_add, add_assoc]

theorem loadBytes_eq_replicate {a : ℕ} (h : ∀ i < n, mem (a + i) = 0) :
    loadBytes mem a n = replicate n 0 := by
  rw [eq_replicate_iff]
  refine ⟨length_loadBytes .., fun b hb => ?_⟩
  obtain ⟨i, hi, rfl⟩ := mem_map.1 hb
  exact h i (mem_range.1 hi)

theorem drop_loadBytes (mem : ℕ → UInt8) (a len off : ℕ) :
    (loadBytes mem a len).drop off = loadBytes mem (a + off) (len - off) := by
  rcases le_total off len with hle | hle
  · obtain ⟨k, rfl⟩ := Nat.exists_eq_add_of_le hle
    rw [loadBytes_add, drop_left' (length_loadBytes ..), Nat.add_sub_cancel_left]
  · rw [drop_of_length_le (by simpa using hle), Nat.sub_eq_zero_of_le hle, loadBytes_zero]

theorem take_loadBytes (mem : ℕ → UInt8) (a len n : ℕ) :
    (loadBytes mem a len).take n = loadBytes mem a (min n len) := by
  rcases le_total n len with hle | hle
  · obtain ⟨k, rfl⟩ := Nat.exists_eq_add_of_le hle
    rw [loadBytes_add, take_left' (length_loadBytes ..), min_eq_left (le_add_right ..)]
  · rw [take_of_length_le (by simpa using hle), min_eq_right hle]

/-- A length up to which the bytes beyond the end are zero. -/
theorem resize_loadBytes_of_zero (h : ∀ x, len ≤ x → x < n → mem x = 0) :
    resize (loadBytes mem 0 len) n = loadBytes mem 0 n := by
  rw [resize, take_loadBytes, length_loadBytes]
  rcases le_total n len with hle | hle
  · rw [min_eq_left hle, Nat.sub_eq_zero_of_le hle, replicate_zero, append_nil]
  · obtain ⟨k, rfl⟩ := Nat.exists_eq_add_of_le hle
    have hzero : ∀ i < k, mem (0 + len + i) = 0 := fun i hi => h _ (by omega) (by omega)
    rw [min_eq_right hle, Nat.add_sub_cancel_left, loadBytes_add, loadBytes_eq_replicate hzero]

/-- **A new length, with the bytes beyond the end set to zero.** -/
theorem resize_loadBytes (mem : ℕ → UInt8) (len n : ℕ) :
    resize (loadBytes mem 0 len) n =
      loadBytes (fun x => if len ≤ x ∧ x < n then 0 else mem x) 0 n := by
  have hsame : loadBytes (fun x => if len ≤ x ∧ x < n then 0 else mem x) 0 len =
      loadBytes mem 0 len :=
    loadBytes_congr fun i hi => if_neg (by omega)
  rw [← hsame]
  exact resize_loadBytes_of_zero fun x hle hlt => if_pos ⟨hle, hlt⟩

/-- **A write where the bytes up to its offset are zero.** -/
theorem writeAt_loadBytes {new : List UInt8} (h : ∀ x, len ≤ x → x < off → mem x = 0) :
    writeAt (loadBytes mem 0 len) off new =
      loadBytes (storeBytes mem off new) 0 (max len (off + new.length)) := by
  have hbefore : loadBytes (storeBytes mem off new) 0 off = loadBytes mem 0 off :=
    loadBytes_congr fun i hi => storeBytes_of_not_mem (by omega)
  have hafter k : loadBytes (storeBytes mem off new) (off + new.length) k =
      loadBytes mem (off + new.length) k :=
    loadBytes_congr fun i hi => storeBytes_of_not_mem (by omega)
  obtain ⟨k, hk⟩ := Nat.exists_eq_add_of_le (le_max_right len (off + new.length))
  have hrest : len - (off + new.length) = k := by omega
  rw [writeAt, resize_loadBytes_of_zero h, drop_loadBytes, hrest, hk, loadBytes_add, loadBytes_add,
    zero_add, zero_add, hbefore, loadBytes_storeBytes, hafter]

end Lib
