import Mathlib.Algebra.Order.Ring.Nat
import Lowering.Binary64.Arith
/-!
# Rounding to single precision is final

A single precision number is a double precision number too: rounding it to double precision is exact, and so is rounding
the result back. So a number that was rounded to single precision stays the same however often it is rounded again.
-/

namespace Lowering

namespace Format

variable {f : Format} {num : Nat} {power : Int} {significand : Nat}

/-- The unit in the last place of an integer times a power of two, by the length of the integer. -/
theorem unitOf_one (f : Format) (hnum : 0 < num) (power : Int) :
    f.unitOf num 1 power = max (num.log2 + power - f.precision + 1) f.least := by
  have hlog : 2 ^ num.log2 ≤ num := Nat.log2_self_le (Nat.ne_of_gt hnum)
  have hfull : ¬ (scale num 1 power (num.log2 + power - f.precision)).1 /
      (scale num 1 power (num.log2 + power - f.precision)).2 < 2 ^ f.precision := by
    rw [Nat.not_lt]
    unfold scale
    split
    · next h =>
      have hpower : (power - (num.log2 + power - f.precision)).toNat = f.precision - num.log2 := by omega
      rw [hpower, Nat.div_one]
      calc 2 ^ f.precision = 2 ^ num.log2 * 2 ^ (f.precision - num.log2) := by rw [← Nat.pow_add]; congr 1; omega
        _ ≤ num * 2 ^ (f.precision - num.log2) := Nat.mul_le_mul_right _ hlog
    rename_i h
    have hpower : ((num.log2 : Int) + power - f.precision - power).toNat = num.log2 - f.precision := by omega
    simp only [hpower, Nat.one_mul, Nat.pow_eq]
    rw [Nat.le_div_iff_mul_le (Nat.two_pow_pos _)]
    calc 2 ^ f.precision * 2 ^ (num.log2 - f.precision) = 2 ^ num.log2 := by rw [← Nat.pow_add]; congr 1; omega
      _ ≤ num := hlog
  have hguess : (num.log2 : Int) - (Nat.log2 1 : Nat) + power - f.precision = num.log2 + power - f.precision := by
    rfl
  unfold unitOf
  simp only [hguess, Nat.pow_eq]
  rw [if_neg hfull]

theorem nearest_mul (n : Nat) (hd : 0 < d) : nearest (n * d) d = n := by
  unfold nearest
  simp_all

/-- A number that needs no more than the precision is kept, however it is written. -/
theorem round_exact (f : Format) {shift : Nat} (hpos : 0 < significand)
    (hunit : max ((significand.log2 : Int) + power - f.precision + 1) f.least = power) :
    f.round (significand * 2 ^ shift) 1 (power - shift) =
      min f.infinity ((power - f.least).toNat * f.binade + significand) := by
  have hnum : 0 < significand * 2 ^ shift := Nat.mul_pos hpos (Nat.two_pow_pos _)
  have hlog : (significand * 2 ^ shift).log2 = significand.log2 + shift := by
    obtain ⟨hle, hlt⟩ := (Nat.log2_eq_iff (Nat.ne_of_gt hpos)).1 rfl
    refine (Nat.log2_eq_iff (Nat.ne_of_gt hnum)).2 ⟨?_, ?_⟩
    · simp [Nat.pow_add, *]
    · rw [Nat.add_right_comm, Nat.pow_add _ (_ + 1)]
      exact Nat.mul_lt_mul_of_pos_right hlt (Nat.two_pow_pos _)
  have hunit' : f.unitOf (significand * 2 ^ shift) 1 (power - shift) = power := by
    simp [unitOf_one f hnum, *]
  have hscale : scale (significand * 2 ^ shift) 1 (power - shift) power = (significand * 2 ^ shift, 2 ^ shift) := by
    unfold scale
    simp_all
  unfold round
  rw [if_neg (Nat.ne_of_gt hnum)]
  simp [hunit', hscale, nearest_mul _ (Nat.two_pow_pos shift)]

theorem round_fill (f : Format) (fill : Nat) (hpos : 0 < significand)
    (hunit : max ((significand.log2 : Int) + power - f.precision + 1) f.least = power - fill) :
    f.round significand 1 power =
      min f.infinity ((power - fill - f.least).toNat * f.binade + significand * 2 ^ fill) := by
  have hscale : scale significand 1 power (power - fill) = (significand * 2 ^ fill, 1) := by
    simp [scale]
  have hnearest (n : Nat) : nearest n 1 = n := by simpa using nearest_mul n Nat.one_pos
  unfold round
  rw [if_neg (Nat.ne_of_gt hpos)]
  simp [unitOf_one f hpos, hunit, hscale, hnearest]

/-- The number of a single precision pattern, and how it lies in the pattern. -/
theorem datum_single (h : single.datum pattern = .finite negative significand power) :
    pattern % 2 ^ 31 < 255 * 2 ^ 23 ∧ pattern % 2 ^ 31 = (power + 149).toNat * 2 ^ 23 + significand ∧
      -149 ≤ power ∧ significand < 2 ^ 24 ∧ (significand = 0 → power = -149) ∧
        (0 < significand → max ((significand.log2 : Int) + power - 24 + 1) (-149) = power) := by
  unfold datum at h
  simp only [show single.signBit = 2 ^ 31 from rfl, show single.binade = 2 ^ 23 from rfl,
    show single.least = -149 from rfl, show single.infinity = 255 * 2 ^ 23 from rfl] at h
  split at h
  · cases h
  split at h
  · cases h
  rename_i hnan hinfinite
  have hfinite : pattern % 2 ^ 31 < 255 * 2 ^ 23 := by omega
  split at h
  · next hexponent =>
    cases h
    refine ⟨hfinite, by omega, by omega, by omega, by omega, fun hpos => ?_⟩
    have : (pattern % 2 ^ 31 % 2 ^ 23).log2 < 23 := (Nat.log2_lt (Nat.ne_of_gt hpos)).2 (Nat.mod_lt _ (by decide))
    omega
  rename_i hexponent
  cases h
  refine ⟨hfinite, by omega, by omega, by omega, by omega, fun hpos => ?_⟩
  have : (2 ^ 23 + pattern % 2 ^ 31 % 2 ^ 23).log2 = 23 :=
    (Nat.log2_eq_iff (Nat.ne_of_gt hpos)).2 ⟨by omega, by omega⟩
  omega

end Format

namespace Binary64

variable {magnitude : Nat}

theorem toNat_ofMagnitude (negative : Bool) (h : magnitude < 2 ^ 63) :
    (ofMagnitude negative magnitude).bits.toNat = (if negative then 2 ^ 63 else 0) + magnitude := by
  refine UInt64.toNat_ofNat_of_lt' (?_ : (if negative then 2 ^ 63 else 0) + magnitude < 2 ^ 64)
  split <;> omega

theorem negative_ofMagnitude (negative : Bool) (h : magnitude < 2 ^ 63) :
    (ofMagnitude negative magnitude).negative = negative := by
  unfold Binary64.negative
  rw [toNat_ofMagnitude negative h, show Format.double.signBit = 2 ^ 63 from rfl]
  grind

theorem magnitude_ofMagnitude (negative : Bool) (h : magnitude < 2 ^ 63) :
    (ofMagnitude negative magnitude).magnitude = magnitude := by
  unfold Binary64.magnitude
  rw [toNat_ofMagnitude negative h, show Format.double.signBit = 2 ^ 63 from rfl]
  split <;> omega

theorem datum_ofMagnitude (negative : Bool) (hexponent : exponent < 2046)
    (hlow : 2 ^ 52 ≤ significand) (hhigh : significand < 2 ^ 53) :
    (ofMagnitude negative (exponent * 2 ^ 52 + significand)).datum = .finite negative significand
      (-1074 + exponent) := by
  have hsmall : exponent * 2 ^ 52 + significand < 2047 * 2 ^ 52 := by omega
  have hmagnitude := magnitude_ofMagnitude negative (hsmall.trans (by decide))
  have hnegative := negative_ofMagnitude negative (hsmall.trans (by decide))
  unfold Binary64.magnitude at hmagnitude
  unfold datum Format.datum
  simp only [show Format.double.infinity = 2047 * 2 ^ 52 from rfl, show Format.double.binade = 2 ^ 52 from rfl,
    show Format.double.least = -1074 from rfl]
  rw [if_neg (by omega), if_neg (by omega), if_neg (by omega)]
  congr 1 <;> omega

/-- A finite single precision number keeps its pattern. -/
theorem toSingle_ofSingle {pattern negative significand power}
    (h : Format.single.datum pattern.toNat = .finite negative significand power) :
    (ofSingle pattern).toSingle = pattern := by
  obtain ⟨hfinite, hpattern, hleast, hsignificand, hzero, hunit⟩ := Format.datum_single h
  have hsign : (if decide (Format.single.signBit ≤ pattern.toNat) = true then Format.single.signBit else 0) +
      pattern.toNat % 2 ^ 31 = pattern.toNat := by
    have := pattern.toNat_lt
    rw [show Format.single.signBit = 2 ^ 31 from rfl]
    grind
  -- the sign survives, and so does the magnitude
  suffices hmagnitude : (ofSingle pattern).negative = decide (Format.single.signBit ≤ pattern.toNat) ∧
      ∃ sign m p, (ofSingle pattern).datum = .finite sign m p ∧ Format.single.round m 1 p = pattern.toNat % 2 ^ 31 by
    obtain ⟨hnegative, sign, m, p, hdatum, hround⟩ := hmagnitude
    unfold toSingle
    simp_all
  unfold ofSingle
  simp only [h]
  generalize decide (Format.single.signBit ≤ pattern.toNat) = sign
  obtain rfl | hpos := Nat.eq_zero_or_pos significand
  · have hratio : ofRatio sign 0 1 power = ofMagnitude sign 0 := by rfl
    rw [hratio]
    refine ⟨by cases sign <;> rfl, sign, 0, -1074, by cases sign <;> rfl, ?_⟩
    rw [hpattern, hzero rfl]
    rfl
  have hunit := hunit hpos
  obtain ⟨hle, hlt⟩ := (Nat.log2_eq_iff (Nat.ne_of_gt hpos)).1 rfl
  have hlow : 2 ^ 52 ≤ significand * 2 ^ (52 - significand.log2) := by
    calc 2 ^ 52 = 2 ^ significand.log2 * 2 ^ (52 - significand.log2) := by rw [← Nat.pow_add]; congr 1; omega
      _ ≤ _ := Nat.mul_le_mul_right _ hle
  have hhigh : significand * 2 ^ (52 - significand.log2) < 2 ^ 53 := by
    calc _ < 2 ^ (significand.log2 + 1) * 2 ^ (52 - significand.log2) :=
          Nat.mul_lt_mul_of_pos_right hlt (Nat.two_pow_pos _)
      _ = 2 ^ 53 := by rw [← Nat.pow_add]; congr 1; omega
  have hdouble : Format.double.round significand 1 power =
      (power - (52 - significand.log2 : Nat) + 1074).toNat * 2 ^ 52 + significand * 2 ^ (52 - significand.log2) := by
    rw [Format.round_fill Format.double (52 - significand.log2) hpos (by
      simp only [show (Format.double.precision : Int) = 53 from rfl, show Format.double.least = -1074 from rfl]
      omega)]
    simp only [show Format.double.infinity = 2047 * 2 ^ 52 from rfl, show Format.double.binade = 2 ^ 52 from rfl,
      show Format.double.least = -1074 from rfl]
    rw [Nat.min_eq_right (by omega)]
    congr 3
  have hexponent : (power - (52 - significand.log2 : Nat) + 1074).toNat < 2046 := by omega
  rw [ofRatio, hdouble]
  refine ⟨negative_ofMagnitude sign (by omega), sign, _, _, datum_ofMagnitude sign hexponent hlow hhigh, ?_⟩
  rw [show -1074 + ((power - (52 - significand.log2 : Nat) + 1074).toNat : Int) =
    power - (52 - significand.log2 : Nat) by omega, Format.round_exact Format.single hpos hunit, hpattern]
  simp only [show Format.single.infinity = 255 * 2 ^ 23 from rfl, show Format.single.binade = 2 ^ 23 from rfl,
    show Format.single.least = -149 from rfl]
  rw [show power - -149 = power + 149 by omega]
  exact Nat.min_eq_right (by omega)

theorem or_quietBit (high : Nat) (h : low < 2 ^ 52) :
    (2 ^ 52 * high + low) ||| 2 ^ 51 = 2 ^ 52 * high + if low < 2 ^ 51 then low + 2 ^ 51 else low := by
  have hquiet (rest : Nat) (hrest : rest < 2 ^ 51) : rest + 2 ^ 51 = 2 ^ 51 ||| rest := by
    have := Nat.two_pow_add_eq_or_of_lt hrest 1
    grind
  split
  · next hlow =>
    rw [Nat.two_pow_add_eq_or_of_lt h, Nat.or_assoc, Nat.or_comm low, ← hquiet low hlow,
      Nat.two_pow_add_eq_or_of_lt (by omega)]
  rename_i hlow
  obtain ⟨rest, rfl⟩ : ∃ rest, low = rest + 2 ^ 51 := ⟨low - 2 ^ 51, by omega⟩
  rw [Nat.two_pow_add_eq_or_of_lt h, Nat.or_assoc, hquiet rest (by omega), Nat.or_comm (2 ^ 51 ||| rest),
    ← Nat.or_assoc (2 ^ 51), Nat.or_self]

theorem quiet_ofMagnitude (negative : Bool) (h : payload < 2 ^ 52) :
    (ofMagnitude negative (Format.double.infinity + payload)).quiet =
      ofMagnitude negative (Format.double.infinity + if payload < 2 ^ 51 then payload + 2 ^ 51 else payload) := by
  have hinfinity : Format.double.infinity = 2 ^ 52 * 2047 := rfl
  have hsmall : (if payload < 2 ^ 51 then payload + 2 ^ 51 else payload) < 2 ^ 52 := by split <;> omega
  suffices hbits : (ofMagnitude negative (Format.double.infinity + payload)).quiet.bits.toNat =
      (ofMagnitude negative
        (Format.double.infinity + if payload < 2 ^ 51 then payload + 2 ^ 51 else payload)).bits.toNat from
    congrArg Binary64.mk (UInt64.toNat_inj.1 hbits)
  rw [quiet, UInt64.toNat_or, toNat_ofMagnitude negative (by omega), toNat_ofMagnitude negative (by omega),
    show (UInt64.ofNat Format.double.quietBit).toNat = 2 ^ 51 from rfl, hinfinity]
  rcases negative with _ | _
  · simp only [Bool.false_eq_true, if_false, Nat.zero_add]
    exact or_quietBit 2047 h
  simp only [if_true]
  have := or_quietBit (2 ^ 11 + 2047) h
  grind

/-- A quiet NaN whose payload fits single precision is not changed by rounding. -/
theorem narrow_nan (negative : Bool) (hlow : 2 ^ 22 ≤ payload) (hhigh : payload < 2 ^ 23) :
    (ofMagnitude negative (Format.double.infinity + payload * 2 ^ 29)).narrow =
      ofMagnitude negative (Format.double.infinity + payload * 2 ^ 29) := by
  have hinfinity : Format.double.infinity = 2047 * 2 ^ 52 := rfl
  have hsmall : Format.double.infinity + payload * 2 ^ 29 < 2 ^ 63 := by omega
  have hquiet : (ofMagnitude negative (Format.double.infinity + payload * 2 ^ 29)).quiet =
      ofMagnitude negative (Format.double.infinity + payload * 2 ^ 29) := by
    rw [quiet_ofMagnitude negative (by omega), if_neg (by omega)]
  have hmagnitude := magnitude_ofMagnitude negative hsmall
  have hdatum : (ofMagnitude negative (Format.double.infinity + payload * 2 ^ 29)).datum = .nan := by
    unfold Binary64.magnitude at hmagnitude
    unfold datum Format.datum
    simp only [hmagnitude]
    rw [if_pos (by omega)]
  have hsingle : (ofMagnitude negative (Format.double.infinity + payload * 2 ^ 29)).toSingle =
      UInt32.ofNat ((if negative then 2 ^ 31 else 0) + (255 * 2 ^ 23 + payload)) := by
    unfold toSingle
    simp only [hdatum, hquiet, hmagnitude, negative_ofMagnitude negative hsmall,
      show Format.double.binade = 2 ^ 52 from rfl, show Nat.pow 2 extraBits = 2 ^ 29 from rfl,
      show Format.single.infinity = 255 * 2 ^ 23 from rfl, show Format.single.signBit = 2 ^ 31 from rfl]
    congr 3
    omega
  have hpattern : (UInt32.ofNat ((if negative then 2 ^ 31 else 0) + (255 * 2 ^ 23 + payload))).toNat =
      (if negative then 2 ^ 31 else 0) + (255 * 2 ^ 23 + payload) := by
    refine UInt32.toNat_ofNat_of_lt' (?_ : _ < 2 ^ 32)
    split <;> omega
  rw [narrow, hsingle]
  unfold ofSingle Format.datum
  simp only [hpattern, show Format.single.binade = 2 ^ 23 from rfl, show Nat.pow 2 extraBits = 2 ^ 29 from rfl,
    show Format.single.infinity = 255 * 2 ^ 23 from rfl, show Format.single.signBit = 2 ^ 31 from rfl]
  rcases negative with _ | _
  · simp only [Bool.false_eq_true, if_false, Nat.zero_add]
    rw [if_pos (by omega), decide_eq_false (by omega), show (255 * 2 ^ 23 + payload) % 2 ^ 23 = payload by omega]
    exact hquiet
  simp only [if_true]
  rw [if_pos (by omega), decide_eq_true (by omega),
    show (2 ^ 31 + (255 * 2 ^ 23 + payload)) % 2 ^ 23 = payload by omega]
  exact hquiet

/-- A single precision number is not changed by rounding to single precision. -/
theorem narrow_ofSingle (pattern : UInt32) : (ofSingle pattern).narrow = ofSingle pattern := by
  cases hdatum : Format.single.datum pattern.toNat with
  | finite => rw [narrow, toSingle_ofSingle hdatum]
  | infinite negative =>
    have hinfinity : ∀ sign, (infinity sign).narrow = infinity sign := by decide
    unfold ofSingle
    simp only [hdatum]
    exact hinfinity _
  | nan =>
    have hpayload : pattern.toNat % 2 ^ 23 * 2 ^ 29 < 2 ^ 52 := by omega
    unfold ofSingle
    simp only [hdatum, show Format.single.binade = 2 ^ 23 from rfl, show Nat.pow 2 extraBits = 2 ^ 29 from rfl]
    rw [quiet_ofMagnitude _ hpayload]
    split
    · next hlow =>
      rw [show pattern.toNat % 2 ^ 23 * 2 ^ 29 + 2 ^ 51 = (pattern.toNat % 2 ^ 23 + 2 ^ 22) * 2 ^ 29 by omega]
      exact narrow_nan _ (by omega) (by omega)
    · next hhigh => exact narrow_nan _ (by omega) (by omega)

/-- **Rounding to single precision is final.** -/
theorem narrow_narrow (x : Binary64) : x.narrow.narrow = x.narrow := narrow_ofSingle x.toSingle

end Binary64

end Lowering
