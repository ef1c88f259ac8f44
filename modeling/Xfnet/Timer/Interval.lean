import Mathlib.Algebra.Order.Ring.Int

/-!
# The interval of a timer

`InitTime` splits the milliseconds that `AddTimer` and `SetTimer` get into seconds and nanoseconds.
The cast in `(int) interval_ms/1000` binds before the division, so from `2 ^ 31` milliseconds on the
seconds are those of a negative number, and the time is another one (`initTime_exact_iff`).
-/

namespace Xfnet.TimerManager

/-- `struct timespec`, with a `time_t` and a `long` of 64 bits. -/
structure Timespec where
  tvSec : BitVec 64
  tvNsec : BitVec 64

/-- `struct itimerspec`: the time to the first expiry, and the period after it. -/
structure Itimerspec where
  itValue : Timespec
  itInterval : Timespec

/-- `(int) interval_ms/1000`, as a `time_t`. -/
def seconds (intervalMs : BitVec 32) : BitVec 64 := (intervalMs.sdiv 1000#32).signExtend 64

/-- `(interval_ms % 1000) * 1000000ULL`. -/
def nanoseconds (intervalMs : BitVec 32) : BitVec 64 :=
  (intervalMs % 1000#32).setWidth 64 * 1000000#64

def initTime (intervalMs : BitVec 32) : Itimerspec :=
  let itValue : Timespec := ⟨seconds intervalMs, nanoseconds intervalMs⟩
  ⟨itValue, ⟨itValue.tvSec, itValue.tvNsec⟩⟩

/-- The times `timerfd_settime` takes. -/
structure Timespec.Valid (t : Timespec) : Prop where
  sec : 0 ≤ t.tvSec.toInt
  nsec : 0 ≤ t.tvNsec.toInt
  nsec_le : t.tvNsec.toInt ≤ 999999999

/-- The time is so many milliseconds. -/
structure Timespec.Denotes (t : Timespec) (ms : ℤ) : Prop where
  whole : 1000000 ∣ t.tvNsec.toInt
  total : t.tvSec.toInt * 1000 + t.tvNsec.toInt / 1000000 = ms

instance (t : Timespec) : Decidable t.Valid :=
  decidable_of_iff (0 ≤ t.tvSec.toInt ∧ 0 ≤ t.tvNsec.toInt ∧ t.tvNsec.toInt ≤ 999999999)
    ⟨fun h => ⟨h.1, h.2.1, h.2.2⟩, fun h => ⟨h.sec, h.nsec, h.nsec_le⟩⟩

/-- The first expiry and the period are valid times of exactly `ms` milliseconds. -/
structure Itimerspec.Exact (t : Itimerspec) (ms : ℤ) : Prop where
  value : t.itValue.Valid ∧ t.itValue.Denotes ms
  interval : t.itInterval.Valid ∧ t.itInterval.Denotes ms

section Conversion

variable (intervalMs : BitVec 32)

theorem toInt_seconds : (seconds intervalMs).toInt = intervalMs.toInt.tdiv 1000 := by
  have hdivisor : (1000#32).toInt = 1000 := by decide
  rw [seconds, BitVec.toInt_signExtend_of_le (by decide),
    BitVec.toInt_sdiv_of_ne_or_ne _ _ (.inr (by decide)), hdivisor]

/-- The product does not overflow. -/
theorem toInt_nanoseconds :
    (nanoseconds intervalMs).toInt = (intervalMs.toNat % 1000 * 1000000 : ℕ) := by
  have hlt : intervalMs.toNat % 1000 < 1000 := Nat.mod_lt _ (by decide)
  have hrest : (intervalMs % 1000#32).toNat = intervalMs.toNat % 1000 := BitVec.toNat_umod
  have hfactor : (1000000#64).toNat = 1000000 := rfl
  have hnat : (nanoseconds intervalMs).toNat = intervalMs.toNat % 1000 * 1000000 := by
    rw [nanoseconds, BitVec.toNat_mul, BitVec.toNat_setWidth, hrest, hfactor,
      Nat.mod_eq_of_lt (a := intervalMs.toNat % 1000) (by omega), Nat.mod_eq_of_lt (by omega)]
  rw [BitVec.toInt_eq_toNat_of_lt (by omega), hnat]

variable {intervalMs}

theorem toInt_of_lt (h : intervalMs.toNat < 2 ^ 31) : intervalMs.toInt = intervalMs.toNat :=
  BitVec.toInt_eq_toNat_of_lt (by omega)

/-- From `2 ^ 31` on the cast gives a negative number. -/
theorem toInt_of_ge (h : 2 ^ 31 ≤ intervalMs.toNat) :
    intervalMs.toInt = intervalMs.toNat - 2 ^ 32 := by
  rw [BitVec.toInt_eq_toNat_cond, if_neg (by omega)]
  simp

end Conversion

/-- The first expiry and the period are one time. -/
theorem exact_iff (intervalMs : BitVec 32) (ms : ℤ) : (initTime intervalMs).Exact ms ↔
    Timespec.Valid ⟨seconds intervalMs, nanoseconds intervalMs⟩ ∧
      Timespec.Denotes ⟨seconds intervalMs, nanoseconds intervalMs⟩ ms :=
  ⟨fun h => h.value, fun h => ⟨h, h⟩⟩

/-- **When the interval of a timer is exact**: below `2 ^ 31` milliseconds. -/
theorem initTime_exact_iff (intervalMs : BitVec 32) :
    (initTime intervalMs).Exact intervalMs.toNat ↔ intervalMs.toNat < 2 ^ 31 := by
  have hsec := toInt_seconds intervalMs
  have hnsec := toInt_nanoseconds intervalMs
  have hmod : intervalMs.toNat % 1000 < 1000 := Nat.mod_lt _ (by decide)
  rw [exact_iff]
  constructor
  · rintro ⟨-, -, htotal⟩
    by_contra hge
    -- the seconds are not positive, and the nanoseconds are less than a second
    have hcast := toInt_of_ge (Nat.le_of_not_lt hge)
    have hnonpos : (seconds intervalMs).toInt ≤ 0 := by
      rw [hsec, hcast, ← Int.neg_nonneg, ← Int.neg_tdiv]
      exact Int.tdiv_nonneg (by omega) (by decide)
    simp only at htotal
    omega
  · intro hlt
    rw [toInt_of_lt hlt, Int.tdiv_eq_ediv_of_nonneg (by omega)] at hsec
    constructor
    · constructor <;> simp only <;> omega
    · constructor <;> simp only <;> omega

/-- The largest interval denotes 295 milliseconds. -/
theorem longest_interval : ¬∀ intervalMs : BitVec 32, 1 ≤ intervalMs.toNat →
    (initTime intervalMs).Exact intervalMs.toNat := by
  intro h
  have htotal := (h 4294967295 (by decide)).value.2.total
  exact absurd htotal (by decide)

end Xfnet.TimerManager
