import Mathlib.Data.List.Basic
import Mathlib.Logic.Function.Basic
import Mathlib.Algebra.Ring.Nat

/-!
# Byte buffers

A buffer is its bytes, by offset from a pointer.  It has no end of its own: what lies
behind the end of an allocation is whatever the memory holds there, so a program that
reads too far reads some byte, and nothing can be said about which.

`slice` is what a function sees that is given the two ends of a range.  Everything
below is about when two slices are equal, and about copying a range.
-/

namespace Bytes

/-- A buffer. -/
abbrev Buffer := Nat → UInt8

/-- The `len` bytes from `pos` on. -/
def slice (m : Buffer) (pos len : Nat) : List UInt8 := (List.range' pos len).map m

variable {m m' : Buffer} {pos pos' len p : Nat}

/-- A slice is as long as asked for. -/
@[simp] theorem slice_length (m : Buffer) (pos len : Nat) : (slice m pos len).length = len := by
  simp [slice]

/-- An empty slice. -/
@[simp] theorem slice_zero (m : Buffer) (pos : Nat) : slice m pos 0 = [] := rfl

/-- A slice, one byte at a time. -/
theorem slice_succ (m : Buffer) (pos len : Nat) :
    slice m pos (len + 1) = m pos :: slice m (pos + 1) len := by
  simp [slice, List.range'_succ]

/-- The beginning of a slice is a slice. -/
theorem take_slice (hp : p ≤ len) : (slice m pos len).take p = slice m pos p := by
  induction p generalizing pos len with
  | zero => rfl
  | succ p ih =>
      cases len with
      | zero => omega
      | succ len => rw [slice_succ, List.take_succ_cons, ih (by omega), slice_succ]

/-- `uint2korr`: a 2-byte little-endian number. -/
def uint2 (m : Buffer) (pos : Nat) : Nat := (m pos).toNat + 256 * (m (pos + 1)).toNat

end Bytes
