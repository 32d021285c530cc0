import LwipPoc.Ipv4.Header
import LwipPoc.Ipv4.InetChksumChain

/-!
# Headers in memory

A header is written field by field into the memory that it lies in: `writeAt`. What is read back is a matter of the
places (`writeAt_of_notMem`, `writeAt_add`), and what gets into a packet are the first bytes, `memBytes`, or some
bytes behind them, `bytesFrom`.

The checksum of a header is **computed with zero in its place, and stored there** (`memSum_of_stored`); the result
verifies for each of the three versions (`inetChksum_eq_zero_iff`).
-/

namespace Lwip.Ipv4

open Lwip.Core

/-- The bytes of the first pbuf. -/
def firstBytes (ps : List Pbuf) : List (BitVec 8) := (ps.head?.map Pbuf.payload).getD []

/-- The memory with these bytes written from `i` on. -/
def writeAt (f : ℕ → BitVec 8) (i : ℕ) (bs : List (BitVec 8)) : ℕ → BitVec 8 := fun j ↦
  if i ≤ j ∧ j < i + bs.length then bs.getD (j - i) 0 else f j

/-- The checksum of a header is computed, and stored: `IPH_CHKSUM_SET`, with zero and with `inet_chksum`. -/
def chksumMem (f : ℕ → BitVec 8) : ℕ → BitVec 8 :=
  let f := writeAt f 10 (storeU16 0)
  writeAt f 10 (storeU16 (inetChksum .two ⟨0, memBytes f ipHlen⟩))

variable {f : ℕ → BitVec 8} {bs : List (BitVec 8)} {i j : ℕ}

theorem writeAt_of_notMem (h : j < i ∨ i + bs.length ≤ j) : writeAt f i bs j = f j :=
  if_neg (by omega)

theorem writeAt_add {k : ℕ} (hk : k < bs.length) : writeAt f i bs (i + k) = bs.getD k 0 := by
  rw [writeAt, if_pos (by omega), Nat.add_sub_cancel_left]

@[simp] theorem length_memBytes (f : ℕ → BitVec 8) (n : ℕ) : (memBytes f n).length = n := by
  simp [memBytes]

theorem memBytes_congr {g : ℕ → BitVec 8} {n : ℕ} (h : ∀ j < n, f j = g j) : memBytes f n = memBytes g n :=
  List.map_congr_left fun j hj ↦ h j (List.mem_range.1 hj)

/-- The bytes of a pbuf are those of the memory. -/
theorem memBytes_bytesAt (bs : List (BitVec 8)) (behind : ℕ → BitVec 8) :
    memBytes (bytesAt bs behind) bs.length = bs := by
  refine List.ext_getElem (by simp) fun j hj _ ↦ ?_
  rw [length_memBytes] at hj
  simp [memBytes, bytesAt, hj]

/-- The bytes from `i` on. -/
def bytesFrom (f : ℕ → BitVec 8) (i n : ℕ) : List (BitVec 8) := (List.range' i n).map f

theorem memBytes_add (f : ℕ → BitVec 8) (i n : ℕ) : memBytes f (i + n) = memBytes f i ++ bytesFrom f i n := by
  rw [memBytes, memBytes, bytesFrom, List.range_eq_range', List.range_eq_range', ← List.range'_append_1,
    List.map_append, Nat.zero_add]

theorem drop_memBytes (f : ℕ → BitVec 8) (i n : ℕ) : (memBytes f (i + n)).drop i = bytesFrom f i n := by
  rw [memBytes_add, List.drop_left' (length_memBytes f i)]

@[simp] theorem length_bytesFrom (f : ℕ → BitVec 8) (i n : ℕ) : (bytesFrom f i n).length = n := by
  simp [bytesFrom]

theorem bytesFrom_succ (f : ℕ → BitVec 8) (i n : ℕ) : bytesFrom f i (n + 1) = f i :: bytesFrom f (i + 1) n := rfl

theorem bytesFrom_add (f : ℕ → BitVec 8) (i m n : ℕ) :
    bytesFrom f i (m + n) = bytesFrom f i m ++ bytesFrom f (i + m) n := by
  rw [bytesFrom, bytesFrom, bytesFrom, ← List.map_append, List.range'_append_1]

theorem bytesFrom_congr {g : ℕ → BitVec 8} {n : ℕ} (h : ∀ j, i ≤ j → f j = g j) :
    bytesFrom f i n = bytesFrom g i n :=
  List.map_congr_left fun j hj ↦ h j (List.mem_range'_1.1 hj).1

/-- What is written is read back. -/
theorem bytesFrom_writeAt (f : ℕ → BitVec 8) (i : ℕ) (bs : List (BitVec 8)) :
    bytesFrom (writeAt f i bs) i bs.length = bs := by
  refine List.ext_getElem (by simp [bytesFrom]) fun j hj hj' ↦ ?_
  simp only [bytesFrom, List.getElem_map, List.getElem_range', Nat.one_mul, writeAt_add hj']
  exact (List.getElem_eq_getD 0).symm

/-- The bytes around what is written. -/
theorem memBytes_writeAt (f : ℕ → BitVec 8) (i : ℕ) (bs : List (BitVec 8)) (n : ℕ) :
    memBytes (writeAt f i bs) (i + (bs.length + n)) =
      memBytes f i ++ (bs ++ bytesFrom f (i + bs.length) n) := by
  rw [← Nat.add_assoc, memBytes_add, memBytes_add, bytesFrom_writeAt, List.append_assoc,
    memBytes_congr fun j hj ↦ writeAt_of_notMem (.inl hj),
    bytesFrom_congr fun j hj ↦ writeAt_of_notMem (.inr hj)]

/-! ### Checksums -/

/-- **A checksum that verifies**, for any of the versions. -/
theorem inetChksum_eq_zero_iff (alg : ChksumAlgorithm) {b : Buffer} (hlen : b.bytes.length < 2 ^ 16) :
    inetChksum alg b = 0 ↔ memSum b.bytes % (2 ^ 16 - 1) = 0 ∧ memSum b.bytes ≠ 0 := by
  obtain ⟨heq, hlt⟩ := onesEq_lwipChksum alg (b := b) (Nat.le_pred_of_lt hlen)
  exact heq.compl_eq_zero_iff hlt

theorem inetChksumPbuf_eq_zero_iff (alg : ChksumAlgorithm) {p : List Buffer}
    (hlen : (chainBytes p).length < 2 ^ 16) :
    inetChksumPbuf alg p = 0 ↔ memSum (chainBytes p) % (2 ^ 16 - 1) = 0 ∧ memSum (chainBytes p) ≠ 0 := by
  obtain ⟨heq, hlt⟩ := onesEq_chainSum (p := p) alg (Nat.le_pred_of_lt hlen)
  rw [inetChksumPbuf_eq alg (Nat.le_pred_of_lt hlen)]
  exact heq.compl_eq_zero_iff hlt

/-- A checksum that is computed with zero in its place, and stored there. -/
theorem memSum_of_stored {pre post : List (BitVec 8)} (alg : ChksumAlgorithm) (addr : ℕ)
    (hpre : pre.length % 2 = 0) (hlen : (pre ++ (storeU16 0 ++ post)).length < 2 ^ 16)
    (hpos : memSum (pre ++ (storeU16 0 ++ post)) ≠ 0) :
    memSum (pre ++ (storeU16 (inetChksum alg ⟨addr, pre ++ (storeU16 0 ++ post)⟩) ++ post)) % (2 ^ 16 - 1) = 0 ∧
      memSum (pre ++ (storeU16 (inetChksum alg ⟨addr, pre ++ (storeU16 0 ++ post)⟩) ++ post)) ≠ 0 := by
  obtain ⟨⟨hmod, -⟩, hlt⟩ := onesEq_lwipChksum alg (b := ⟨addr, pre ++ (storeU16 0 ++ post)⟩)
    (Nat.le_pred_of_lt hlen)
  rw [memSum_field hpre (by rw [inetChksum]; omega), inetChksum]
  dsimp only at hmod
  omega

theorem chksumMem_of_notMem (h : j < 10 ∨ 12 ≤ j) : chksumMem f j = f j := by
  rw [chksumMem, writeAt_of_notMem (by simp; omega), writeAt_of_notMem (by simp; omega)]

/-- **A header whose checksum is computed verifies**, if there is anything else in it. -/
theorem memSum_chksumMem (hj : j < 10) (hpos : f j ≠ 0) :
    memSum (memBytes (chksumMem f) ipHlen) % (2 ^ 16 - 1) = 0 ∧ memSum (memBytes (chksumMem f) ipHlen) ≠ 0 := by
  have hzero : memBytes (writeAt f 10 (storeU16 0)) ipHlen = memBytes f 10 ++ (storeU16 0 ++ bytesFrom f 12 8) :=
    memBytes_writeAt f 10 (storeU16 0) 8
  have hlen : (memBytes f 10 ++ (storeU16 0 ++ bytesFrom f 12 8)).length < 2 ^ 16 := by
    rw [← hzero, length_memBytes]
    decide
  have hsum : memSum (memBytes f 10 ++ (storeU16 0 ++ bytesFrom f 12 8)) ≠ 0 := fun h0 ↦ by
    have hzeros := (altSum_eq_zero_iff (by decide) (by decide) _).1 h0
    exact hpos (hzeros _ (List.mem_append_left _ (List.mem_map_of_mem (List.mem_range.2 hj))))
  have hbytes : memBytes (chksumMem f) ipHlen = memBytes f 10 ++
      (storeU16 (inetChksum .two ⟨0, memBytes f 10 ++ (storeU16 0 ++ bytesFrom f 12 8)⟩) ++ bytesFrom f 12 8) := by
    have hstored : memBytes (chksumMem f) ipHlen = memBytes (writeAt f 10 (storeU16 0)) 10 ++
        (storeU16 (inetChksum .two ⟨0, memBytes (writeAt f 10 (storeU16 0)) ipHlen⟩) ++
          bytesFrom (writeAt f 10 (storeU16 0)) 12 8) := memBytes_writeAt _ 10 (storeU16 _) 8
    have hfront : memBytes (writeAt f 10 (storeU16 0)) 10 = memBytes f 10 :=
      memBytes_congr fun j hj ↦ writeAt_of_notMem (.inl hj)
    have hback : bytesFrom (writeAt f 10 (storeU16 0)) 12 8 = bytesFrom f 12 8 :=
      bytesFrom_congr fun j hj ↦ writeAt_of_notMem (.inr hj)
    rw [hstored, hzero, hfront, hback]
  rw [hbytes]
  exact memSum_of_stored .two 0 (by rw [length_memBytes]) hlen hsum

end Lwip.Ipv4
