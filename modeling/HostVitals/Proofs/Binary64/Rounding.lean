import HostVitals.Binary64.Basic
import HostVitals.Text.Numeral
import Mathlib.Order.Monotone.Basic
import Mathlib.Tactic.Ring

/-! Rounding keeps the order of numbers. So the quotient of a natural number by one that is not less
is a number between zero and one, whatever is lost in the three roundings that it takes. -/
namespace HostVitals.Binary64
variable {num num' den : Nat}

theorem divideNearest_mono (den : Nat) (h : num ≤ num') :
    divideNearest num den ≤ divideNearest num' den := by
  have hq : num / den ≤ num' / den := Nat.div_le_div_right h
  rcases Nat.lt_or_eq_of_le hq with hlt | heq
  · unfold divideNearest
    simp only
    split <;> split <;> omega
  · -- with one quotient the remainders are in order, and so is whether they are rounded up
    have hmod : num % den ≤ num' % den := by
      have hsplit := Nat.mod_add_div num den
      have hsplit' := Nat.mod_add_div num' den
      rw [heq] at hsplit
      omega
    unfold divideNearest
    simp only [heq]
    split <;> split <;> omega

theorem le_divideNearest {k : Nat} (hden : 0 < den) (h : k * den ≤ num) :
    k ≤ divideNearest num den := by
  have hk : k ≤ num / den := (Nat.le_div_iff_mul_le hden).mpr h
  unfold divideNearest
  simp only
  split <;> omega

theorem divideNearest_le {k : Nat} (hden : 0 < den) (h : num < k * den) :
    divideNearest num den ≤ k := by
  have hk : num / den < k := (Nat.div_lt_iff_lt_mul hden).mpr h
  unfold divideNearest
  simp only
  split <;> omega

def stepOf (num den : Nat) : Nat :=
  let low := num.log2 - den.log2 - 53
  if 2 * leadingBit * (den * Nat.pow 2 low) ≤ num then low + 1 else low

theorem roundMagnitude_eq (num den : Nat) : roundMagnitude num den = min infinityWord
    (stepOf num den * leadingBit + divideNearest num (den * 2 ^ stepOf num den)) := rfl

theorem stepOf_cases (num den : Nat) : ∃ low, low = num.log2 - den.log2 - 53 ∧
    (2 * leadingBit * (den * 2 ^ low) ≤ num ∧ stepOf num den = low + 1 ∨
      num < 2 * leadingBit * (den * 2 ^ low) ∧ stepOf num den = low) := by
  refine ⟨_, rfl, ?_⟩
  by_cases h : 2 * leadingBit * (den * 2 ^ (num.log2 - den.log2 - 53)) ≤ num
  · exact .inl ⟨h, if_pos h⟩
  · exact .inr ⟨Nat.not_le.mp h, if_neg h⟩

theorem lt_of_stepOf (num : Nat) (hden : 0 < den) :
    num < 2 * leadingBit * (den * 2 ^ stepOf num den) := by
  obtain ⟨low, hlow, ⟨-, hstep⟩ | ⟨hlt, hstep⟩⟩ := stepOf_cases num den
  · have hnum : num < 2 ^ (num.log2 + 1) := Nat.lt_log2_self
    have hden' : 2 ^ den.log2 ≤ den := Nat.log2_self_le (Nat.ne_of_gt hden)
    rw [hstep]
    calc num < 2 ^ (den.log2 + (low + 1) + 53) :=
          Nat.lt_of_lt_of_le hnum (Nat.pow_le_pow_right (by decide) (by omega))
      _ = 2 * leadingBit * (2 ^ den.log2 * 2 ^ (low + 1)) := by
          rw [Nat.pow_add, Nat.pow_add]
          exact Nat.mul_comm _ _
      _ ≤ 2 * leadingBit * (den * 2 ^ (low + 1)) :=
          Nat.mul_le_mul_left _ (Nat.mul_le_mul_right _ hden')
  · rwa [hstep]

theorem le_of_stepOf_pos (h : 0 < stepOf num den) :
    leadingBit * (den * 2 ^ stepOf num den) ≤ num := by
  obtain ⟨low, hlow, ⟨hle, hstep⟩ | ⟨-, hstep⟩⟩ := stepOf_cases num den
  · calc leadingBit * (den * 2 ^ stepOf num den)
        = 2 * leadingBit * (den * 2 ^ low) := by rw [hstep]; ring
      _ ≤ num := hle
  · have hden : den < 2 ^ (den.log2 + 1) := Nat.lt_log2_self
    have hne : num ≠ 0 := by
      rintro rfl
      simp only [Nat.log2_zero] at hlow
      omega
    rw [hstep]
    calc leadingBit * (den * 2 ^ low)
        ≤ leadingBit * (2 ^ (den.log2 + 1) * 2 ^ low) :=
          Nat.mul_le_mul_left _ (Nat.mul_le_mul_right _ (Nat.le_of_lt hden))
      _ = 2 ^ (52 + (den.log2 + 1 + low)) := by
          rw [Nat.pow_add 2 52, Nat.pow_add 2 _ low]
          rfl
      _ ≤ 2 ^ num.log2 := Nat.pow_le_pow_right (by decide) (by omega)
      _ ≤ num := Nat.log2_self_le hne

/-- A step is known from the bounds of the quotient. -/
theorem stepOf_le {step : Nat} (h : num < 2 * leadingBit * (den * 2 ^ step)) :
    stepOf num den ≤ step := by
  by_contra hlt
  have hpow : 2 ^ (step + 1) ≤ 2 ^ stepOf num den :=
    Nat.pow_le_pow_right (by decide) (by omega)
  have hle : leadingBit * (den * 2 ^ (step + 1)) ≤ num :=
    Nat.le_trans (Nat.mul_le_mul_left _ (Nat.mul_le_mul_left _ hpow)) (le_of_stepOf_pos (by omega))
  have hsame : leadingBit * (den * 2 ^ (step + 1)) = 2 * leadingBit * (den * 2 ^ step) := by ring
  omega

theorem le_stepOf {step : Nat} (hden : 0 < den) (h : leadingBit * (den * 2 ^ step) ≤ num) :
    step ≤ stepOf num den := by
  by_contra hlt
  have hpow : 2 ^ (stepOf num den + 1) ≤ 2 ^ step :=
    Nat.pow_le_pow_right (by decide) (by omega)
  have hle : leadingBit * (den * 2 ^ (stepOf num den + 1)) ≤ num :=
    Nat.le_trans (Nat.mul_le_mul_left _ (Nat.mul_le_mul_left _ hpow)) h
  have hsame : leadingBit * (den * 2 ^ (stepOf num den + 1)) =
      2 * leadingBit * (den * 2 ^ stepOf num den) := by ring
  have hupper := lt_of_stepOf num hden
  omega

theorem stepOf_eq {step : Nat} (hden : 0 < den) (hle : leadingBit * (den * 2 ^ step) ≤ num)
    (hlt : num < 2 * leadingBit * (den * 2 ^ step)) : stepOf num den = step :=
  Nat.le_antisymm (stepOf_le hlt) (le_stepOf hden hle)

theorem roundMagnitude_mono (hden : 0 < den) (h : num ≤ num') :
    roundMagnitude num den ≤ roundMagnitude num' den := by
  have hupper := lt_of_stepOf num hden
  have hstep : stepOf num den ≤ stepOf num' den :=
    stepOf_le (Nat.lt_of_le_of_lt h (lt_of_stepOf num' hden))
  rw [roundMagnitude_eq, roundMagnitude_eq]
  refine min_le_min_left _ ?_
  rcases Nat.lt_or_eq_of_le hstep with hlt | heq
  · -- a quotient rounded up runs over into the next step at most
    have hfirst : divideNearest num (den * 2 ^ stepOf num den) ≤ 2 * leadingBit :=
      divideNearest_le (Nat.mul_pos hden (Nat.two_pow_pos _)) hupper
    have hsecond : leadingBit ≤ divideNearest num' (den * 2 ^ stepOf num' den) :=
      le_divideNearest (Nat.mul_pos hden (Nat.two_pow_pos _)) (le_of_stepOf_pos (by omega))
    have hsteps := Nat.mul_le_mul_right leadingBit (Nat.succ_le_of_lt hlt)
    rw [Nat.succ_mul] at hsteps
    omega
  · rw [← heq]
    exact Nat.add_le_add_left (divideNearest_mono _ h) _

theorem numerator_mono : Monotone numerator := by
  intro a b h
  have hstep : a / leadingBit ≤ b / leadingBit := Nat.div_le_div_right h
  have hmod : a % leadingBit < leadingBit := Nat.mod_lt _ (by decide)
  rcases Nat.lt_or_eq_of_le hstep with hlt | heq
  · have hb : numerator b =
        (b % leadingBit + leadingBit) * 2 ^ (b / leadingBit - 1) := if_neg (Nat.ne_zero_of_lt hlt)
    have hfirst : numerator a ≤ leadingBit * 2 ^ (a / leadingBit) := by
      unfold numerator
      simp only
      split
      · next hzero =>
        have ha : a < leadingBit := (Nat.div_eq_zero_iff_lt (by decide)).mp hzero
        rw [hzero]
        omega
      · next hzero =>
        calc (a % leadingBit + leadingBit) * 2 ^ (a / leadingBit - 1)
            ≤ (2 * leadingBit) * 2 ^ (a / leadingBit - 1) :=
              Nat.mul_le_mul_right _ (by omega)
          _ = leadingBit * 2 ^ (a / leadingBit - 1 + 1) := by ring
          _ = leadingBit * 2 ^ (a / leadingBit) := by
              rw [Nat.sub_add_cancel (Nat.pos_of_ne_zero hzero)]
    calc numerator a ≤ leadingBit * 2 ^ (a / leadingBit) := hfirst
      _ ≤ leadingBit * 2 ^ (b / leadingBit - 1) :=
          Nat.mul_le_mul_left _ (Nat.pow_le_pow_right (by decide) (Nat.le_sub_one_of_lt hlt))
      _ ≤ (b % leadingBit + leadingBit) * 2 ^ (b / leadingBit - 1) :=
          Nat.mul_le_mul_right _ (Nat.le_add_left _ _)
      _ = numerator b := hb.symm
  · have hmod : a % leadingBit ≤ b % leadingBit := by
      have hsplit := Nat.mod_add_div a leadingBit
      have hsplit' := Nat.mod_add_div b leadingBit
      rw [heq] at hsplit
      omega
    unfold numerator
    simp only [heq]
    split
    · exact h
    · exact Nat.mul_le_mul_right _ (Nat.add_le_add_right hmod _)

theorem divideNearest_mul (k : Nat) (hden : 0 < den) : divideNearest (k * den) den = k := by
  have hq : k * den / den = k := Nat.mul_div_cancel k hden
  have hr : k * den % den = 0 := Nat.mul_mod_left k den
  unfold divideNearest
  simp only [hq, hr]
  rw [if_neg (by omega)]

def oneWord : Nat := 1023 * leadingBit

theorem unit_eq : unit = leadingBit * 2 ^ 1022 := by decide +kernel

/-- A quotient of 53 binary places is kept as it is. -/
theorem roundMagnitude_mul {q step : Nat} (hden : 0 < den) (hle : leadingBit ≤ q)
    (hlt : q < 2 * leadingBit) : roundMagnitude (q * (den * 2 ^ step)) den =
      min infinityWord (step * leadingBit + q) := by
  have hpos : 0 < den * 2 ^ step := Nat.mul_pos hden (Nat.two_pow_pos _)
  have hstep : stepOf (q * (den * 2 ^ step)) den = step :=
    stepOf_eq hden (Nat.mul_le_mul_right _ hle) (Nat.mul_lt_mul_of_pos_right hlt hpos)
  rw [roundMagnitude_eq, hstep, divideNearest_mul _ hpos]

theorem roundMagnitude_self (hden : 0 < den) : roundMagnitude (den * unit) den = oneWord := by
  rw [unit_eq, Nat.mul_left_comm, roundMagnitude_mul hden (Nat.le_refl _) (by decide)]
  decide +kernel

theorem roundMagnitude_le_oneWord (hden : 0 < den) (h : num ≤ den) :
    roundMagnitude (num * unit) den ≤ oneWord := by
  rw [← roundMagnitude_self hden]
  exact roundMagnitude_mono hden (Nat.mul_le_mul_right _ h)

theorem numerator_pos {m : Nat} (h : 0 < m) : 0 < numerator m := by
  unfold numerator
  simp only
  split
  · exact h
  · exact Nat.mul_pos (Nat.add_pos_right _ (by decide)) (Nat.two_pow_pos _)

section Magnitudes
variable {m m' : Nat}

/-- The magnitude of a number that is not negative and not infinite. -/
theorem bits_ofMagnitude (h : m ≤ infinityWord) : (ofMagnitude false m).bits.toNat = m := by
  have hbound : infinityWord < UInt64.size := by decide
  exact Nat.mod_eq_of_lt (Nat.lt_of_le_of_lt h hbound)

theorem negative_ofMagnitude (h : m ≤ infinityWord) : (ofMagnitude false m).negative = false := by
  have hbound : infinityWord < signWord := by decide
  rw [negative, bits_ofMagnitude h]
  exact decide_eq_false (by omega)

theorem magnitude_ofMagnitude (h : m ≤ infinityWord) : (ofMagnitude false m).magnitude = m := by
  have hbound : infinityWord < signWord := by decide
  rw [magnitude, bits_ofMagnitude h]
  exact Nat.mod_eq_of_lt (by omega)

theorem isNaN_ofMagnitude (h : m ≤ infinityWord) : (ofMagnitude false m).isNaN = false := by
  rw [isNaN, magnitude_ofMagnitude h]
  exact decide_eq_false (by omega)

theorem rank_ofMagnitude (h : m ≤ infinityWord) : (ofMagnitude false m).rank = m := by
  simp [rank, negative_ofMagnitude h, magnitude_ofMagnitude h]

theorem lt_ofMagnitude (h : m ≤ infinityWord) (h' : m' ≤ infinityWord) :
    (ofMagnitude false m).lt (ofMagnitude false m') = decide (m < m') := by
  simp [lt, isNaN_ofMagnitude h, isNaN_ofMagnitude h', rank_ofMagnitude h, rank_ofMagnitude h']

end Magnitudes

def natWord (n : Nat) : Nat := roundMagnitude (n * unit) 1

theorem ofNat_eq (n : Nat) : ofNat n = ofMagnitude false (natWord n) := rfl

theorem natWord_mono {n n' : Nat} (h : n ≤ n') : natWord n ≤ natWord n' :=
  roundMagnitude_mono (by decide) (Nat.mul_le_mul_right _ h)

theorem natWord_one : natWord 1 = oneWord := roundMagnitude_self (by decide)

theorem natWord_lt {n : Nat} (h : n ≤ Text.maxU64) : natWord n < infinityWord :=
  Nat.lt_of_le_of_lt (natWord_mono h) (by decide +kernel)

def InUnit (x : Binary64) : Prop :=
  x.isNaN = false ∧ x.lt zero = false ∧ (ofNat 1).lt x = false

instance (x : Binary64) : Decidable x.InUnit := inferInstanceAs (Decidable (_ ∧ _))

theorem div_ofNat {n d : Nat} (hn : n ≤ Text.maxU64) (hd : d ≤ Text.maxU64) (hpos : 0 < d) :
    div (ofNat n) (ofNat d) = ofMagnitude false
      (roundMagnitude (numerator (natWord n) * unit) (numerator (natWord d))) := by
  have hn := natWord_lt hn
  have hd := natWord_lt hd
  have hzero : 0 < natWord d :=
    Nat.lt_of_lt_of_le (by rw [natWord_one]; decide) (natWord_mono hpos)
  rw [ofNat_eq, ofNat_eq, div]
  simp [isNaN_ofMagnitude hn.le, isNaN_ofMagnitude hd.le, isInfinite, isZero,
    magnitude_ofMagnitude hn.le, magnitude_ofMagnitude hd.le, negative_ofMagnitude hn.le,
    negative_ofMagnitude hd.le, hn.ne, hd.ne, hzero.ne']

/-- A part of a whole is rounded to a number between zero and one. -/
theorem inUnit_div_ofNat {n d : Nat} (h : n ≤ d) (hpos : 0 < d) (hd : d ≤ Text.maxU64) :
    (div (ofNat n) (ofNat d)).InUnit := by
  have hzero : 0 < natWord d :=
    Nat.lt_of_lt_of_le (by rw [natWord_one]; decide) (natWord_mono hpos)
  have hle : roundMagnitude (numerator (natWord n) * unit) (numerator (natWord d)) ≤ oneWord :=
    roundMagnitude_le_oneWord (numerator_pos hzero) (numerator_mono (natWord_mono h))
  have hone : oneWord ≤ infinityWord := by decide
  have hfinite := Nat.le_trans hle hone
  rw [div_ofNat (Nat.le_trans h hd) hd hpos]
  refine ⟨isNaN_ofMagnitude hfinite, ?_, ?_⟩
  · rw [zero, lt_ofMagnitude hfinite (Nat.zero_le _)]
    exact decide_eq_false (Nat.not_lt_zero _)
  · rw [ofNat_eq, natWord_one, lt_ofMagnitude hone hfinite]
    exact decide_eq_false (Nat.not_lt.mpr hle)

end HostVitals.Binary64
