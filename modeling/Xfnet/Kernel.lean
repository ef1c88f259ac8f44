import Mathlib.Algebra.Order.Ring.Int

/-!
# What the library uses of the kernel and of the C++ integer types

Error numbers, the conversions between the integer types a system call's result passes through,
and the event bits of `poll` and `epoll`.
-/

namespace Xfnet

/-- The values of `errno` that the library tells apart. -/
inductive Errno
  | eagain
  | eintr
  | econnreset
  | etimedout
  | other (code : ℕ)
  deriving DecidableEq

/-- The largest `ssize_t`. -/
def ssizeMax : ℕ := 2 ^ 63 - 1

/-- The conversion to `int`. -/
@[irreducible] def toInt32 (x : ℤ) : ℤ := x.bmod (2 ^ 32)

/-- The conversion to `ssize_t`. -/
@[irreducible] def toSsize (x : ℤ) : ℤ := x.bmod (2 ^ 64)

/-! ## Event bits of `poll` -/

def pollIn : ℕ := 0x1
def pollPri : ℕ := 0x2
def pollErr : ℕ := 0x8
def pollHup : ℕ := 0x10

/-! ## Event bits of `epoll` -/

def epollIn : ℕ := 0x1
def epollPri : ℕ := 0x2
def epollOut : ℕ := 0x4
def epollErr : ℕ := 0x8
def epollHup : ℕ := 0x10

/-! ## Conversions that lose nothing -/

theorem toInt32_of_lt {c : ℕ} (h : c < 2 ^ 31) : toInt32 c = c := by
  rw [toInt32]
  exact Int.bmod_eq_of_le (by omega) (by omega)

theorem toInt32_le (c : ℕ) : toInt32 c ≤ c := by
  rw [toInt32, Int.bmod_def]
  split <;> omega

/-- A count that does not fit an `int` comes out smaller. -/
theorem toInt32_lt {c : ℕ} (h : 2 ^ 31 ≤ c) : toInt32 c < c := by
  rw [toInt32, Int.bmod_def]
  split <;> omega

theorem toInt32_lt_max (x : ℤ) : toInt32 x < 2 ^ 31 := by
  rw [toInt32]
  have := Int.bmod_lt (x := x) (m := 2 ^ 32) (by decide)
  omega

/-- Only what fits comes out non-negative. -/
theorem toInt32_of_nonneg {c : ℕ} (h : c < 2 ^ 32) (h' : 0 ≤ toInt32 c) : toInt32 c = c := by
  by_cases hc : c < 2 ^ 31
  · exact toInt32_of_lt hc
  · rw [toInt32, Int.bmod_def] at h'
    split at h' <;> omega

@[simp] theorem toInt32_zero : toInt32 0 = 0 := by rw [toInt32]; decide

@[simp] theorem toInt32_neg_one : toInt32 (-1) = -1 := by rw [toInt32]; decide

theorem toSsize_of_le {n : ℤ} (h : 0 ≤ n) (h' : n ≤ ssizeMax) : toSsize n = n := by
  rw [toSsize]
  exact Int.bmod_eq_of_le (by omega) (by simp only [ssizeMax] at h'; omega)

end Xfnet
