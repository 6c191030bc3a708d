import Mathlib.Data.Rat.Floor
import Mathlib.Tactic.Linarith
import Mathlib.Tactic.FieldSimp

/-! # Durations with integer counts — casts, floor, comparison, difference

    A duration is a count of ticks, and its type says how long a tick is (a ratio,
    in seconds) and what integer type counts.  A cast multiplies before it divides,
    in the common type of both counts and the widest integer, and the division cuts
    off towards zero.  Comparison and difference first convert both sides to a
    common tick, which is exact.

    Every value that is computed on the way is checked against its type; `none` is
    an overflow.  Where nothing overflows, a duration stands for a rational number
    of seconds, and the results below say what each operation does to that number.

    Nothing here knows what the durations are for. -/

namespace CoioChrono

/-! ## Integer types -/

structure IntType where
  signed : Bool
  width : Nat
  deriving DecidableEq

/-- The values of the type. -/
def IntType.Fits (t : IntType) (v : Int) : Prop :=
  if t.signed then -2 ^ (t.width - 1) ≤ v ∧ v < 2 ^ (t.width - 1) else 0 ≤ v ∧ v < 2 ^ t.width

instance (t : IntType) (v : Int) : Decidable (t.Fits v) :=
  inferInstanceAs (Decidable (if t.signed then _ else _))

/-- A value computed in the type. -/
def IntType.check (t : IntType) (v : Int) : Option Int :=
  if t.Fits v then some v else none

/-- `std::common_type`, where one of the two is as wide as `intmax_t`: the wider one, and
    the unsigned one of two that are equally wide. -/
def IntType.common (t u : IntType) : IntType :=
  if t.width < u.width then u
  else if u.width < t.width then t
  else ⟨t.signed && u.signed, t.width⟩

def int64 : IntType := ⟨true, 64⟩

theorem IntType.check_eq_some {t : IntType} {v w : Int} : t.check v = some w ↔ t.Fits v ∧ w = v := by
  unfold IntType.check
  split
  · rename_i hfits
    exact ⟨fun h => ⟨hfits, (Option.some.inj h).symm⟩, fun h => congrArg some h.2.symm⟩
  · rename_i hnot
    exact ⟨fun h => absurd h (by simp), fun h => absurd h.1 hnot⟩

/-! ## Ratios -/

/-- `std::ratio` keeps itself in lowest terms, as a rational number does. -/
structure Ratio where
  val : ℚ
  pos : 0 < val

/-- `std::ratio_divide`. -/
def Ratio.divide (p q : Ratio) : Ratio := ⟨p.val / q.val, div_pos p.pos q.pos⟩

/-- The greatest tick that both ticks are multiples of. -/
def Ratio.common (p q : Ratio) : Ratio where
  val := (Nat.gcd p.val.num.toNat q.val.num.toNat : ℚ) / (Nat.lcm p.val.den q.val.den : ℚ)
  pos := by
    have hnum : 0 < p.val.num.toNat := by
      have := Rat.num_pos.mpr p.pos
      omega
    have hgcd : 0 < Nat.gcd p.val.num.toNat q.val.num.toNat := Nat.gcd_pos_of_pos_left _ hnum
    have hlcm : 0 < Nat.lcm p.val.den q.val.den := Nat.lcm_pos p.val.den_pos q.val.den_pos
    exact div_pos (Nat.cast_pos.mpr hgcd) (Nat.cast_pos.mpr hlcm)

theorem Ratio.common_comm (p q : Ratio) : p.common q = q.common p := by
  unfold Ratio.common
  congr 1
  rw [Nat.gcd_comm, Nat.lcm_comm]

/-- A tick is a whole number of common ticks. -/
theorem Ratio.div_common (p q : Ratio) : ∃ k : ℤ, p.val / (p.common q).val = k := by
  obtain ⟨a, ha⟩ := Nat.gcd_dvd_left p.val.num.toNat q.val.num.toNat
  obtain ⟨b, hb⟩ := Nat.dvd_lcm_left p.val.den q.val.den
  have hnum : (p.val.num.toNat : ℤ) = p.val.num := Int.toNat_of_nonneg (Rat.num_pos.mpr p.pos).le
  have hval : p.val = (p.val.num.toNat : ℚ) / (p.val.den : ℚ) := by
    rw [← Int.cast_natCast p.val.num.toNat, hnum]
    exact (Rat.num_div_den p.val).symm
  have hpos := (p.common q).pos
  have hden : (p.val.den : ℚ) ≠ 0 := Nat.cast_ne_zero.mpr p.val.den_ne_zero
  refine ⟨a * b, (div_eq_iff hpos.ne').mpr ?_⟩
  have hlcm : (Nat.lcm p.val.den q.val.den : ℚ) ≠ 0 := by
    rw [Nat.cast_ne_zero]
    exact (Nat.lcm_pos p.val.den_pos q.val.den_pos).ne'
  show p.val = _ * ((Nat.gcd p.val.num.toNat q.val.num.toNat : ℚ) / (Nat.lcm p.val.den q.val.den : ℚ))
  have hnum' : (p.val.num.toNat : ℚ) = Nat.gcd p.val.num.toNat q.val.num.toNat * a := by
    exact_mod_cast ha
  have hlcm' : (Nat.lcm p.val.den q.val.den : ℚ) = p.val.den * b := by exact_mod_cast hb
  rw [mul_div_assoc', eq_div_iff hlcm]
  nth_rewrite 1 [hval]
  rw [hlcm', hnum']
  field_simp
  push_cast
  ring

theorem Ratio.div_common_right (p q : Ratio) : ∃ k : ℤ, q.val / (p.common q).val = k :=
  p.common_comm q ▸ q.div_common p

/-! ## Rounding towards zero -/

def trunc (q : ℚ) : ℤ := if 0 ≤ q then ⌊q⌋ else ⌈q⌉

theorem trunc_intCast (k : ℤ) : trunc k = k := by
  unfold trunc
  split
  · exact Int.floor_intCast k
  · exact Int.ceil_intCast k

/-- Division of integers cuts off towards zero. -/
theorem tdiv_eq_trunc (x : ℤ) (n : ℕ) : x.tdiv n = trunc (x / n) := by
  unfold trunc
  have hn : (0 : ℚ) ≤ n := Nat.cast_nonneg n
  by_cases hx : 0 ≤ x
  · rw [if_pos (div_nonneg (Int.cast_nonneg hx) hn), Rat.floor_intCast_div_natCast]
    exact Int.tdiv_eq_ediv_of_nonneg hx
  · rcases Nat.eq_zero_or_pos n with rfl | hpos
    · simp
    · have hneg : ¬ (0 : ℚ) ≤ x / n := by
        rw [not_le]
        exact div_neg_of_neg_of_pos (Int.cast_lt_zero.mpr (by omega)) (Nat.cast_pos.mpr hpos)
      rw [if_neg hneg, Rat.ceil_intCast_div_natCast,
        ← Int.tdiv_eq_ediv_of_nonneg (by omega), Int.neg_tdiv, Int.neg_neg]

/-- One less where the cut went up: the floor. -/
theorem floor_of_trunc (q : ℚ) : (if q < trunc q then trunc q - 1 else trunc q) = ⌊q⌋ := by
  unfold trunc
  by_cases hq : 0 ≤ q
  · rw [if_pos hq, if_neg (not_lt.mpr (Int.floor_le q))]
  · rw [if_neg hq]
    split
    · rename_i hup
      rw [eq_comm, Int.floor_eq_iff]
      push_cast
      have hceil := Int.ceil_lt_add_one q
      constructor <;> linarith
    · rename_i hdown
      have hint : (⌈q⌉ : ℚ) = q := le_antisymm (not_lt.mp hdown) (Int.le_ceil q)
      rw [← hint, Int.floor_intCast, Int.ceil_intCast]

/-! ## Durations -/

/-- `std::chrono::duration` with its two parameters. -/
structure Duration (R : IntType) (P : Ratio) where
  count : Int
  fits : R.Fits count

variable {R R' : IntType} {P P' : Ratio}

/-- The time it stands for, in seconds. -/
def Duration.span (d : Duration R P) : ℚ := d.count * P.val

/-- A count that may not fit. -/
def Duration.of (R : IntType) (P : Ratio) (v : Int) : Option (Duration R P) :=
  if h : R.Fits v then some ⟨v, h⟩ else none

theorem Duration.of_count {v : Int} {d : Duration R P} (h : Duration.of R P v = some d) :
    d.count = v := by
  unfold Duration.of at h
  split at h
  · rw [← Option.some.inj h]
  · cases h

/-- `duration_cast`: the product and the quotient are computed in the common type of both
    counts and `intmax_t`. -/
def durationCast (R' : IntType) (P' : Ratio) (d : Duration R P) : Option (Duration R' P') := do
  let cf := P.divide P'
  let cr := (R'.common R).common int64
  let count ← cr.check d.count
  let num ← cr.check cf.val.num
  let den ← cr.check cf.val.den
  let product ← cr.check (count * num)
  Duration.of R' P' (product.tdiv den)

/-- `operator<`. -/
def less (d : Duration R P) (e : Duration R' P') : Option Bool := do
  let lhs ← durationCast (R.common R') (P.common P') d
  let rhs ← durationCast (R.common R') (P.common P') e
  pure (decide (lhs.count < rhs.count))

/-- `operator-`. -/
def sub (d : Duration R P) (e : Duration R' P') :
    Option (Duration (R.common R') (P.common P')) := do
  let lhs ← durationCast (R.common R') (P.common P') d
  let rhs ← durationCast (R.common R') (P.common P') e
  Duration.of (R.common R') (P.common P') (lhs.count - rhs.count)

/-- `std::chrono::floor`. -/
def floor (R' : IntType) (P' : Ratio) (d : Duration R P) : Option (Duration R' P') := do
  let cut ← durationCast R' P' d
  let above ← less d cut
  if above then Duration.of R' P' (cut.count - 1) else some cut

/-! ## What they do to the time -/

/-- A cast cuts off towards zero. -/
theorem durationCast_count {d : Duration R P} {e : Duration R' P'}
    (h : durationCast R' P' d = some e) : e.count = trunc (d.span / P'.val) := by
  unfold durationCast at h
  simp only [Option.bind_eq_bind, Option.bind_eq_some_iff, IntType.check_eq_some] at h
  obtain ⟨count, ⟨-, rfl⟩, num, ⟨-, rfl⟩, den, ⟨-, rfl⟩, product, ⟨-, rfl⟩, hof⟩ := h
  rw [Duration.of_count hof, tdiv_eq_trunc]
  congr 1
  unfold Duration.span
  rw [Int.cast_mul, mul_div_assoc, Rat.num_div_den, mul_div_assoc]
  rfl

/-- A cast to a tick that divides the old one keeps the time. -/
theorem durationCast_exact {d : Duration R P} {e : Duration R' P'}
    (hk : ∃ k : ℤ, P.val / P'.val = k) (h : durationCast R' P' d = some e) : e.span = d.span := by
  obtain ⟨k, hk⟩ := hk
  have hticks : d.span / P'.val = (d.count * k : ℤ) := by
    rw [Int.cast_mul, ← hk]
    exact mul_div_assoc _ _ _
  have hcount := durationCast_count h
  rw [hticks, trunc_intCast] at hcount
  unfold Duration.span
  rw [hcount, ← hticks]
  exact div_mul_cancel₀ _ P'.pos.ne'

/-- Counts of one tick are compared as the times are. -/
theorem count_lt_iff (d e : Duration R P) : d.count < e.count ↔ d.span < e.span := by
  unfold Duration.span
  rw [mul_lt_mul_iff_left₀ P.pos, Int.cast_lt]

theorem less_iff {d : Duration R P} {e : Duration R' P'} {b : Bool} (h : less d e = some b) :
    b = true ↔ d.span < e.span := by
  unfold less at h
  simp only [Option.bind_eq_bind, Option.bind_eq_some_iff, Option.pure_def] at h
  obtain ⟨lhs, hlhs, rhs, hrhs, hb⟩ := h
  obtain rfl := Option.some.inj hb
  rw [decide_eq_true_eq, count_lt_iff, durationCast_exact (P.div_common P') hlhs,
    durationCast_exact (P.div_common_right P') hrhs]

theorem sub_span {d : Duration R P} {e : Duration R' P'}
    {f : Duration (R.common R') (P.common P')} (h : sub d e = some f) :
    f.span = d.span - e.span := by
  unfold sub at h
  simp only [Option.bind_eq_bind, Option.bind_eq_some_iff] at h
  obtain ⟨lhs, hlhs, rhs, hrhs, hof⟩ := h
  rw [← durationCast_exact (P.div_common P') hlhs,
    ← durationCast_exact (P.div_common_right P') hrhs]
  unfold Duration.span
  rw [Duration.of_count hof, Int.cast_sub, sub_mul]

/-- The floor is the floor. -/
theorem floor_count {d : Duration R P} {e : Duration R' P'} (h : floor R' P' d = some e) :
    e.count = ⌊d.span / P'.val⌋ := by
  unfold floor at h
  simp only [Option.bind_eq_bind, Option.bind_eq_some_iff] at h
  obtain ⟨cut, hcut, above, habove, hend⟩ := h
  have hcast := durationCast_count hcut
  have hup : above = true ↔ d.span / P'.val < trunc (d.span / P'.val) := by
    rw [less_iff habove, div_lt_iff₀ P'.pos, ← hcast]
    rfl
  rw [← floor_of_trunc, ← hcast]
  rw [← hcast] at hup
  by_cases hlt : above = true
  · rw [if_pos (hup.mp hlt)]
    rw [if_pos hlt] at hend
    exact Duration.of_count hend
  · rw [if_neg (fun hpos => hlt (hup.mpr hpos))]
    rw [if_neg hlt] at hend
    rw [Option.some.inj hend]

end CoioChrono
