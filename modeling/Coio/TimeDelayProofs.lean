import Coio.ChronoProofs
import Mathlib.Tactic.NormNum

/-! # `to_kernel_timespec` — whole seconds by `floor`, the rest by a truncating cast

    `time_delay` hands the kernel a `__kernel_timespec`.  The seconds are the floor
    of the duration.  For the nanoseconds the duration is cast as it is when it is
    shorter than a second, and otherwise what the seconds leave of it.

    A negative duration is shorter than a second, so all of it is cast to
    nanoseconds, while the seconds have been rounded down as well: the two parts
    overlap.  The result is a normalised decomposition exactly for the durations
    that are not negative, for every tick and every counting type. -/

namespace CoioTimeDelay

open CoioChrono

/-! ## The functions -/

def second : Ratio := ⟨1, by norm_num⟩

def nanosecond : Ratio := ⟨1 / 10 ^ 9, by norm_num⟩

/-- `1s`. -/
def oneSecond : Duration int64 second := ⟨1, by decide⟩

variable {R : IntType} {P : Ratio}

def getSeconds (d : Duration R P) : Option (Duration int64 second) := floor int64 second d

/-- Both arms of the conditional have the common type of the duration and the seconds. -/
def getNanosecs (d : Duration R P) : Option (Duration int64 nanosecond) :=
  (less d oneSecond).bind fun short =>
    (if short then durationCast (R.common int64) (P.common second) d
      else (getSeconds d).bind (sub d)).bind (durationCast int64 nanosecond)

structure KernelTimespec where
  tvSec : Int
  tvNsec : Int
  deriving DecidableEq

/-- `none` is an overflow on the way. -/
def toKernelTimespec (d : Duration R P) : Option KernelTimespec := do
  let sec ← getSeconds d
  let nsec ← getNanosecs d
  pure ⟨sec.count, nsec.count⟩

/-! ## What the two parts are -/

theorem getSeconds_count {d : Duration R P} {s : Duration int64 second}
    (h : getSeconds d = some s) : s.count = ⌊d.span⌋ := by
  rw [floor_count h]
  exact congrArg Int.floor (div_one d.span)

theorem getNanosecs_count {d : Duration R P} {n : Duration int64 nanosecond}
    (h : getNanosecs d = some n) :
    n.count = trunc ((if d.span < 1 then d.span else d.span - ⌊d.span⌋) * 10 ^ 9) := by
  obtain ⟨short, hshort, hpart⟩ := Option.bind_eq_some_iff.mp h
  obtain ⟨rest, hrest, hcast⟩ := Option.bind_eq_some_iff.mp hpart
  have hone : oneSecond.span = 1 := by
    show ((1 : ℤ) : ℚ) * 1 = 1
    norm_num
  have hlt : short = true ↔ d.span < 1 := hone ▸ less_iff hshort
  have hspan : rest.span = if d.span < 1 then d.span else d.span - ⌊d.span⌋ := by
    by_cases hs : short = true
    · rw [if_pos hs] at hrest
      rw [if_pos (hlt.mp hs)]
      exact durationCast_exact (P.div_common second) hrest
    · rw [if_neg hs] at hrest
      rw [if_neg (fun hpos => hs (hlt.mpr hpos))]
      obtain ⟨s, hsec, hsub⟩ := Option.bind_eq_some_iff.mp hrest
      rw [sub_span hsub, ← getSeconds_count hsec]
      exact congrArg _ (mul_one _)
  rw [durationCast_count hcast, hspan]
  congr 1
  show _ / (1 / 10 ^ 9 : ℚ) = _
  rw [div_div_eq_mul_div, div_one]

theorem toKernelTimespec_parts {d : Duration R P} {ts : KernelTimespec}
    (h : toKernelTimespec d = some ts) :
    ts.tvSec = ⌊d.span⌋ ∧
      ts.tvNsec = trunc ((if d.span < 1 then d.span else d.span - ⌊d.span⌋) * 10 ^ 9) := by
  unfold toKernelTimespec at h
  simp only [Option.bind_eq_bind, Option.bind_eq_some_iff, Option.pure_def] at h
  obtain ⟨s, hsec, n, hnsec, hts⟩ := h
  obtain rfl := Option.some.inj hts
  exact ⟨getSeconds_count hsec, getNanosecs_count hnsec⟩

/-! ## Normalised decompositions -/

/-- `tv_nsec` is a fraction of a second, and both parts together are the time in
    nanoseconds, rounded down. -/
def Normalised (ts : KernelTimespec) (time : ℚ) : Prop :=
  0 ≤ ts.tvNsec ∧ ts.tvNsec < 10 ^ 9 ∧ ts.tvSec * 10 ^ 9 + ts.tvNsec = ⌊time * 10 ^ 9⌋

/-- The whole seconds and the fraction make up the time. -/
theorem normalised_of_fract {ts : KernelTimespec} {q : ℚ} (hsec : ts.tvSec = ⌊q⌋)
    (hnsec : ts.tvNsec = ⌊Int.fract q * 10 ^ 9⌋) : Normalised ts q := by
  have h0 := Int.fract_nonneg q
  have h1 := Int.fract_lt_one q
  refine ⟨?_, ?_, ?_⟩
  · rw [hnsec, Int.floor_nonneg]
    positivity
  · rw [hnsec, Int.floor_lt]
    push_cast
    linarith
  · have hsplit : q * 10 ^ 9 = Int.fract q * 10 ^ 9 + ((⌊q⌋ * 10 ^ 9 : ℤ) : ℚ) := by
      have hsum := Int.fract_add_floor q
      push_cast
      linarith
    rw [hsplit, Int.floor_add_intCast, hsec, hnsec, add_comm]

/-- Below zero the nanoseconds are not positive, and the whole seconds are already less
    than the time. -/
theorem not_normalised_of_neg {ts : KernelTimespec} {q : ℚ} (hq : q < 0)
    (hsec : ts.tvSec = ⌊q⌋) (hnsec : ts.tvNsec = ⌈q * 10 ^ 9⌉) : ¬ Normalised ts q := by
  rintro ⟨hnonneg, -, htotal⟩
  have hneg : q * 10 ^ 9 < 0 := by linarith
  have hceil : ⌈q * 10 ^ 9⌉ ≤ 0 := Int.ceil_le.mpr (by push_cast; exact hneg.le)
  have hzero : ts.tvNsec = 0 := by omega
  have hfloor : ⌊q⌋ < 0 := Int.floor_lt.mpr (by push_cast; exact hq)
  -- the nanoseconds are gone, so the time is less than one nanosecond below zero
  have hnear : ⌈q * 10 ^ 9⌉ ≤ ⌊q * 10 ^ 9⌋ + 1 := Int.ceil_le_floor_add_one _
  omega

/-- **NORMALISED FOR NO NEGATIVE DURATION**: where nothing overflows, the result is a
    normalised decomposition of the duration exactly if the duration is not negative. -/
theorem to_kernel_timespec_normalised_iff (d : Duration R P) (ts : KernelTimespec)
    (h : toKernelTimespec d = some ts) : Normalised ts (d.count * P.val) ↔ 0 ≤ d.count := by
  obtain ⟨hsec, hnsec⟩ := toKernelTimespec_parts h
  show Normalised ts d.span ↔ _
  have hsign : 0 ≤ d.span ↔ 0 ≤ d.count := by
    unfold Duration.span
    rw [mul_nonneg_iff_of_pos_right P.pos, Int.cast_nonneg_iff]
  rw [← hsign]
  by_cases hq : 0 ≤ d.span
  · refine iff_of_true (normalised_of_fract hsec ?_) hq
    have hfract : (if d.span < 1 then d.span else d.span - ⌊d.span⌋) = Int.fract d.span := by
      split
      · rename_i hlt
        exact (Int.fract_eq_self.mpr ⟨hq, hlt⟩).symm
      · rfl
    rw [hnsec, hfract]
    unfold trunc
    exact if_pos (mul_nonneg (Int.fract_nonneg _) (by norm_num))
  · refine iff_of_false (not_normalised_of_neg (not_le.mp hq) hsec ?_) hq
    rw [hnsec, if_pos (by linarith)]
    unfold trunc
    exact if_neg (by linarith)

/-! ## Two durations in milliseconds -/

def millisecond : Ratio := ⟨1 / 10 ^ 3, by norm_num⟩

/-- `std::chrono::milliseconds`. -/
def milliseconds (n : Int) (h : int64.Fits n) : Duration int64 millisecond := ⟨n, h⟩

/-- The theorem at `1500ms`. -/
theorem to_kernel_timespec_normalised_iff_milliseconds :
    toKernelTimespec (milliseconds 1500 (by decide)) = some ⟨1, 500000000⟩ ∧
      Normalised ⟨1, 500000000⟩
        ((milliseconds 1500 (by decide)).count * millisecond.val) := by
  have hspec : toKernelTimespec (milliseconds 1500 (by decide)) = some ⟨1, 500000000⟩ := by
    decide +kernel
  exact ⟨hspec, (to_kernel_timespec_normalised_iff _ _ hspec).mpr (by decide)⟩

/-- `-1500ms` becomes minus two seconds and minus one and a half billion nanoseconds. -/
theorem negative_not_normalised :
    toKernelTimespec (milliseconds (-1500) (by decide)) = some ⟨-2, -1500000000⟩ ∧
      ¬ Normalised ⟨-2, -1500000000⟩
        ((milliseconds (-1500) (by decide)).count * millisecond.val) := by
  refine ⟨by decide +kernel, ?_⟩
  rintro ⟨hnonneg, -, -⟩
  exact absurd hnonneg (by decide)

end CoioTimeDelay
