import Mathlib.Data.BitVec
import Mathlib.Logic.Function.Basic

/-!
# Byte memory

Memory as a function from addresses to bytes, with the two loads and the two stores that records
made of `uint8_t` and little-endian `uint16_t` fields need.

Almost everything one has to know about a store is **where it does not reach**. `SameExcept P m m'`
says that `m'` differs from `m` at addresses in `P` only; stores establish it, it composes, and loads
from elsewhere do not see the difference.
-/

/-- A memory: the byte at every address. -/
abbrev ByteMem := ℕ → BitVec 8

namespace ByteMem

variable {m m' m'' : ByteMem} {P Q : Set ℕ} {a : ℕ}

/-- Load a byte. -/
def load8 (m : ByteMem) (a : ℕ) : ℕ := (m a).toNat

/-- Load two bytes, the lower one first. -/
def load16 (m : ByteMem) (a : ℕ) : ℕ := (m a).toNat + 256 * (m (a + 1)).toNat

/-- Store a byte. -/
def store8 (m : ByteMem) (a v : ℕ) : ByteMem := Function.update m a (BitVec.ofNat 8 v)

/-- Store two bytes, the lower one first. -/
def store16 (m : ByteMem) (a v : ℕ) : ByteMem := (m.store8 a v).store8 (a + 1) (v / 256)

/-! ### Frames -/

/-- The two memories agree outside of `P`. -/
def SameExcept (P : Set ℕ) (m m' : ByteMem) : Prop := ∀ i ∉ P, m' i = m i

theorem SameExcept.refl (P : Set ℕ) (m : ByteMem) : SameExcept P m m := fun _ _ ↦ rfl

theorem SameExcept.mono (h : SameExcept P m m') (hPQ : P ⊆ Q) : SameExcept Q m m' :=
  fun i hi ↦ h i fun hP ↦ hi (hPQ hP)

theorem SameExcept.trans (h : SameExcept P m m') (h' : SameExcept P m' m'') :
    SameExcept P m m'' :=
  fun i hi ↦ (h' i hi).trans (h i hi)

theorem sameExcept_store8 {v : ℕ} (ha : a ∈ P) : SameExcept P m (m.store8 a v) :=
  fun i hi ↦ Function.update_of_ne (fun hia : i = a ↦ hi (hia ▸ ha)) _ _

theorem sameExcept_store16 {v : ℕ} (ha : a ∈ P) (ha' : a + 1 ∈ P) :
    SameExcept P m (m.store16 a v) :=
  (sameExcept_store8 ha).trans (sameExcept_store8 ha')

theorem SameExcept.load8_eq (h : SameExcept P m m') (ha : a ∉ P) : m'.load8 a = m.load8 a := by
  rw [load8, load8, h a ha]

theorem SameExcept.load16_eq (h : SameExcept P m m') (ha : a ∉ P) (ha' : a + 1 ∉ P) :
    m'.load16 a = m.load16 a := by
  rw [load16, load16, h a ha, h (a + 1) ha']

/-! ### Loads after stores -/

@[simp] theorem load8_store8 (v : ℕ) : (m.store8 a v).load8 a = v % 256 := by
  simp [load8, store8]

@[simp] theorem load16_store16 (v : ℕ) : (m.store16 a v).load16 a = v % 65536 := by
  simp only [load16, store16, store8, Function.update_self, BitVec.toNat_ofNat,
    Function.update_of_ne (Nat.ne_of_lt (Nat.lt_succ_self a))]
  omega

end ByteMem
