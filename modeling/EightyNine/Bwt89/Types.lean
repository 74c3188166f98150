import EightyNine.Library.Checked
import Mathlib.Logic.Function.Basic
import Mathlib.Order.Defs.LinearOrder

/-!
# Buffers and statuses of the transforms

The public calls take byte buffers with their length and report a status.  Inside,
the workers read and write `int` arrays by index: an array is modelled as a function
of the index, and a store as `Function.update`.  `int` values are naturals where the
source keeps them non-negative.
-/

namespace Bwt89

open Library

/-- `int`. -/
def int : IntRange := { lo := -2147483648, hi := 2147483647 }

/-- `size_t`. -/
def size : IntRange := { lo := 0, hi := 18446744073709551615 }

/-- `BWT89_MAX_N`, that is `INT_MAX - 1`. -/
def maxN : Nat := 2147483646

/-- `BWT89_ALPHABET`. -/
def alphabet : Nat := 256

/-- `enum bwt89_status`. -/
inductive Status
  | ok
  | nullArg
  | nomem
  | badIndex
  | badEdit
  | tooLarge
  | badData

/-- Bytes in their numeric order. -/
instance byteOrder : LinearOrder UInt8 where
  le_refl := UInt8.le_refl
  le_trans := fun _ _ _ => UInt8.le_trans
  le_antisymm := fun _ _ => UInt8.le_antisymm
  le_total := UInt8.le_total
  lt_iff_le_not_ge := fun a b => by
    rw [UInt8.lt_iff_toNat_lt, UInt8.le_iff_toNat_le, UInt8.le_iff_toNat_le]
    omega
  toDecidableLE := inferInstance
  toDecidableLT := inferInstance
  toDecidableEq := inferInstance

/-- A buffer as the workers index it. -/
def bytesOf (s : List UInt8) : Nat → UInt8 := fun i => s.getD i 0

/-- The first `n` bytes of a buffer. -/
def readBytes (n : Nat) (a : Nat → UInt8) : List UInt8 := (List.range n).map a

@[simp] theorem readBytes_length (n : Nat) (a : Nat → UInt8) : (readBytes n a).length = n := by
  simp [readBytes]

theorem readBytes_congr {n : Nat} {a b : Nat → UInt8} (h : ∀ i < n, a i = b i) :
    readBytes n a = readBytes n b :=
  List.map_congr_left fun i hi => h i (List.mem_range.mp hi)

theorem bytesOf_readBytes {n i : Nat} (a : Nat → UInt8) (h : i < n) :
    bytesOf (readBytes n a) i = a i := by
  simp [bytesOf, readBytes, h]

theorem readBytes_bytesOf (s : List UInt8) : readBytes s.length (bytesOf s) = s := by
  refine List.ext_getElem (readBytes_length _ _) fun i h h' => ?_
  simp [readBytes, bytesOf, h']

end Bwt89
