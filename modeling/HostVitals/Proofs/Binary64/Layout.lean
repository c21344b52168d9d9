import HostVitals.Binary64.Layout
import HostVitals.Proofs.Binary64.Rounding
import HostVitals.Text.Blank
import Mathlib.Data.Nat.Digits.Defs
import Mathlib.Tactic.Ring

/-! The texts of numbers without exponents. Each is one word. Whole numbers up to `2 ^ 53` are kept as
they are, and so their texts are their decimal digits: the coarsest grid that reads back is the
greatest power of ten that divides the number, and the digits on it are set out with zeros up to the
point. -/
namespace HostVitals.Binary64
variable {n m e : Nat}

theorem unit_pos : 0 < unit := by decide +kernel

def wholeLimit : Nat := 2 * leadingBit

theorem numerator_step {q step : Nat} (hle : leadingBit ≤ q) (hlt : q < 2 * leadingBit) :
    numerator (step * leadingBit + q) = q * 2 ^ step := by
  have hpos : 0 < leadingBit := by decide
  have hsplit : step * leadingBit + q = (q - leadingBit) + (step + 1) * leadingBit := by
    rw [Nat.succ_mul]
    omega
  have hdiv : (step * leadingBit + q) / leadingBit = step + 1 := by
    rw [hsplit, Nat.add_mul_div_right _ _ hpos, Nat.div_eq_of_lt (by omega), Nat.zero_add]
  have hmod : (step * leadingBit + q) % leadingBit = q - leadingBit := by
    rw [hsplit, Nat.add_mul_mod_self_right, Nat.mod_eq_of_lt (by omega)]
  simp only [numerator, hdiv, hmod, Nat.succ_ne_zero, if_false, Nat.add_sub_cancel,
    Nat.sub_add_cancel hle]
  rfl

theorem numerator_natWord (h : n ≤ wholeLimit) : numerator (natWord n) = n * unit := by
  have hu64 : wholeLimit ≤ Text.maxU64 := by decide
  have hfinite : natWord n < infinityWord := natWord_lt (Nat.le_trans h hu64)
  rcases Nat.eq_zero_or_pos n with rfl | hpos
  · decide +kernel
  rcases Nat.lt_or_eq_of_le h with hlt | rfl
  · -- the first digit of the number moves to the leading bit
    have hlog : n.log2 ≤ 52 := Nat.lt_succ_iff.mp ((Nat.log2_lt (Nat.ne_of_gt hpos)).mpr hlt)
    have hbit : leadingBit = 2 ^ n.log2 * 2 ^ (52 - n.log2) := by
      rw [← Nat.pow_add, Nat.add_sub_cancel' hlog]
      rfl
    have hle : leadingBit ≤ n * 2 ^ (52 - n.log2) :=
      hbit ▸ Nat.mul_le_mul_right _ (Nat.log2_self_le (Nat.ne_of_gt hpos))
    have hlt : n * 2 ^ (52 - n.log2) < 2 * leadingBit := by
      rw [hbit, ← Nat.mul_assoc, Nat.mul_comm 2, ← Nat.pow_succ]
      exact Nat.mul_lt_mul_of_pos_right Nat.lt_log2_self (Nat.two_pow_pos _)
    have hnum : n * unit = n * 2 ^ (52 - n.log2) * (1 * 2 ^ (n.log2 + 1022)) := by
      have hmove (a b c : Nat) : n * (a * b * c) = n * b * (1 * (a * c)) := by ring
      rw [unit_eq, hbit, Nat.pow_add, hmove]
    have hword : natWord n = (n.log2 + 1022) * leadingBit + n * 2 ^ (52 - n.log2) := by
      rw [natWord, hnum, roundMagnitude_mul Nat.one_pos hle hlt] at hfinite ⊢
      exact Nat.min_eq_right (Nat.le_of_not_le fun hcap => by
        rw [Nat.min_eq_left hcap] at hfinite
        exact Nat.lt_irrefl _ hfinite)
    rw [hword, numerator_step hle hlt, hnum, Nat.one_mul]
  · decide +kernel

theorem natWord_inj (hn : n ≤ wholeLimit) (hm : m ≤ wholeLimit) (h : natWord n = natWord m) :
    n = m := by
  have hsame := congrArg numerator h
  rw [numerator_natWord hn, numerator_natWord hm] at hsame
  exact Nat.eq_of_mul_eq_mul_right unit_pos hsame

theorem natWord_lt_natWord (hn : n < wholeLimit) (h : n < m) : natWord n < natWord m := by
  have hle : natWord n ≤ natWord (n + 1) := natWord_mono (Nat.le_succ n)
  have hne : natWord n ≠ natWord (n + 1) := fun hsame =>
    Nat.succ_ne_self n (natWord_inj (Nat.le_of_lt hn) hn hsame).symm
  exact Nat.lt_of_lt_of_le (Nat.lt_of_le_of_ne hle hne) (natWord_mono h)

theorem magnitudeOfDecimal_natCast (digits e : Nat) :
    magnitudeOfDecimal digits (e : Int) = natWord (digits * 10 ^ e) :=
  if_pos (Int.natCast_nonneg e)

theorem floorAt_natWord (h : n ≤ wholeLimit) (e : Nat) :
    floorAt (numerator (natWord n)) unit (e : Int) = n / 10 ^ e := by
  rw [numerator_natWord h, Nat.mul_comm n, floorAt, if_pos (Int.natCast_nonneg e)]
  exact Nat.mul_div_mul_left n (10 ^ e) unit_pos

/-- A grid of whole numbers reads back those that are on it. -/
theorem readsBack_natWord (h : n < wholeLimit) (e : Nat) :
    readsBack (natWord n) (e : Int) = if 10 ^ e ∣ n then some ⟨n / 10 ^ e, e⟩ else none := by
  have hpow : 0 < 10 ^ e := Nat.pow_pos (by decide)
  have habove : n < (n / 10 ^ e + 1) * 10 ^ e := Nat.lt_mul_of_div_lt (Nat.lt_succ_self _) hpow
  have hhigh : ¬ natWord ((n / 10 ^ e + 1) * 10 ^ e) = natWord n :=
    Nat.ne_of_gt (natWord_lt_natWord h habove)
  have hlow : natWord (n / 10 ^ e * 10 ^ e) = natWord n ↔ 10 ^ e ∣ n := by
    have hle : n / 10 ^ e * 10 ^ e ≤ n := Nat.div_mul_le_self n (10 ^ e)
    rw [Nat.dvd_iff_div_mul_eq]
    exact ⟨natWord_inj (Nat.le_trans hle (Nat.le_of_lt h)) (Nat.le_of_lt h), congrArg natWord⟩
  simp only [readsBack, floorAt_natWord (Nat.le_of_lt h), magnitudeOfDecimal_natCast, hlow, hhigh]
  by_cases hdvd : 10 ^ e ∣ n <;> simp [hdvd]

def Decimal.IsWhole (d : Decimal) (n : Nat) : Prop :=
  ∃ e : Nat, d.exponent = e ∧ d.digits * 10 ^ e = n

theorem Decimal.IsWhole.normal {d : Decimal} (h : d.IsWhole n) (fuel : Nat) :
    (d.normal fuel).IsWhole n := by
  induction fuel generalizing d with
  | zero => exact h
  | succ fuel ih =>
    rw [Decimal.normal]
    split
    · next hzero =>
      obtain ⟨e, hexp, hdigits⟩ := h
      refine ih ⟨e + 1, by rw [hexp]; rfl, ?_⟩
      rw [← hdigits, Nat.pow_succ, Nat.mul_comm (10 ^ e), ← Nat.mul_assoc,
        Nat.div_mul_cancel (Nat.dvd_of_mod_eq_zero hzero.2)]
    · exact h

/-- The search goes down from a grid that is too coarse, and the grid of ones is not too coarse. -/
theorem isWhole_go (h : n < wholeLimit) {top count fuel : Nat} (hcount : count ≤ top)
    (hfuel : top < count + fuel) : (shortest.go (natWord n) top count fuel).IsWhole n := by
  induction fuel generalizing count with
  | zero => omega
  | succ fuel ih =>
    have hgrid : (top : Int) - count = ((top - count : Nat) : Int) := by omega
    rw [shortest.go, hgrid, readsBack_natWord h]
    by_cases hdvd : 10 ^ (top - count) ∣ n
    · rw [if_pos hdvd]
      exact ⟨top - count, rfl, Nat.div_mul_cancel hdvd⟩
    · rw [if_neg hdvd]
      have hnext : count ≠ top := by
        rintro rfl
        simp at hdvd
      exact ih (by omega) (by omega)

theorem isWhole_shortest (hpos : 0 < n) (h : n < wholeLimit) :
    (shortest (natWord n)).IsWhole n := by
  have hlength : (Nat.toDigits 10 n).length ≤ 16 :=
    (Nat.length_toDigits_le_iff (by decide) (by decide)).mpr (Nat.lt_trans h (by decide))
  have hnil : 0 < (Nat.toDigits 10 n).length := Nat.length_toDigits_pos
  have hplace : leadingPlace (n * unit) unit = (((Nat.toDigits 10 n).length - 1 : Nat) : Int) := by
    rw [leadingPlace, if_pos (Nat.le_mul_of_pos_left unit hpos), Nat.mul_div_cancel n unit_pos,
      digitCount, if_neg (Nat.ne_of_gt hpos)]
    omega
  rw [shortest, numerator_natWord (Nat.le_of_lt h), hplace]
  exact (isWhole_go h (Nat.zero_le _) (by omega)).normal 20

theorem toDigits_mul_pow {d : Nat} (hpos : 0 < d) (e : Nat) :
    Nat.toDigits 10 (d * 10 ^ e) = Nat.toDigits 10 d ++ List.replicate e '0' := by
  induction e with
  | zero => simp
  | succ e ih =>
    have hshift : d * 10 ^ (e + 1) = 10 * (d * 10 ^ e) + 0 := by ring
    rw [hshift, ← Nat.toDigits_append_toDigits (by decide) (Nat.mul_pos hpos (Nat.pow_pos (by decide)))
      (by decide), ih, List.replicate_succ', List.append_assoc]
    rfl

theorem toString_mul_pow {d : Nat} (hpos : 0 < d) (e : Nat) :
    toString (d * 10 ^ e) = toString d ++ zeros e := by
  rw [Nat.toString_eq_ofList_toDigits, Nat.toString_eq_ofList_toDigits, toDigits_mul_pow hpos,
    String.ofList_append, zeros]

theorem write_plain {digits : String} (h : 0 < digits.length) (e : Nat) :
    plain.write digits (e + digits.length) = digits ++ zeros e := by
  have hplace : ¬ (e : Int) + digits.length ≤ 0 := by omega
  have hwhole : (digits.length : Int) ≤ e + digits.length := by omega
  have hzeros : ((e : Int) + digits.length).toNat - digits.length = e := by omega
  simp [Layout.write, plain, hplace, hwhole, hzeros]

theorem length_toString_pos (d : Nat) : 0 < (toString d).length := by
  rw [Nat.toString_eq_ofList_toDigits, String.length_ofList]
  exact Nat.length_toDigits_pos

/-- A whole number that is not rounded is written as it is. -/
theorem render_ofNat (h : n ≤ wholeLimit) : plain.render (ofNat n) = toString n := by
  rcases Nat.eq_zero_or_pos n with rfl | hpos
  · decide +kernel
  rcases Nat.lt_or_eq_of_le h with hlt | rfl
  · have hu64 : wholeLimit ≤ Text.maxU64 := by decide
    have hfinite : natWord n < infinityWord := natWord_lt (Nat.le_trans h hu64)
    have hzero : natWord 0 < natWord n := natWord_lt_natWord (by decide) hpos
    obtain ⟨e, hexp, hdigits⟩ := isWhole_shortest hpos hlt
    have hdigit : 0 < (shortest (natWord n)).digits :=
      Nat.pos_of_ne_zero fun hnone => by
        rw [hnone, Nat.zero_mul] at hdigits
        omega
    have hle := Nat.le_of_lt hfinite
    simp only [Layout.render, ofNat_eq, negative_ofMagnitude hle, isNaN_ofMagnitude hle, isInfinite,
      isZero, magnitude_ofMagnitude hle, hexp, write_plain (length_toString_pos _)]
    rw [← toString_mul_pow hdigit, hdigits]
    simp [Nat.ne_of_lt hfinite, Nat.ne_of_gt (Nat.zero_lt_of_lt hzero)]
  · decide +kernel

def IsSolid (s : String) : Prop := ∀ c ∈ s.toList, Text.isBlank c = false

instance : DecidablePred IsSolid := fun s => List.decidableBAll _ s.toList

theorem isSolid_append {s t : String} : IsSolid (s ++ t) ↔ IsSolid s ∧ IsSolid t := by
  rw [IsSolid, String.toList_append, List.forall_mem_append]
  rfl

theorem isSolid_zeros (n : Nat) : IsSolid (zeros n) := by
  intro c hc
  rw [zeros, String.toList_ofList] at hc
  rw [List.eq_of_mem_replicate hc]
  rfl

theorem isSolid_toString (n : Nat) : IsSolid (toString n) := by
  intro c hc
  rw [Nat.toString_eq_ofList_toDigits, String.toList_ofList] at hc
  have hdigit : c.isDigit = true := Nat.isDigit_of_mem_toDigits (by decide) (by decide) hc
  obtain ⟨hlow, hhigh⟩ : 48 ≤ c.toNat ∧ c.toNat ≤ 57 := by
    simp only [Char.isDigit, Bool.and_eq_true, decide_eq_true_eq] at hdigit
    exact hdigit
  simp [Text.isBlank]
  omega

theorem isSolid_write {digits : String} (h : IsSolid digits) (place : Int) :
    IsSolid (plain.write digits place) := by
  simp only [Layout.write, plain, if_true]
  split
  · exact isSolid_append.mpr ⟨isSolid_append.mpr ⟨by decide, isSolid_zeros _⟩, h⟩
  split
  · exact isSolid_append.mpr ⟨isSolid_append.mpr ⟨h, isSolid_zeros _⟩, by decide⟩
  · have htake : IsSolid (String.ofList (digits.toList.take place.toNat)) := by
      rw [IsSolid, String.toList_ofList]
      exact fun c hc => h c (List.mem_of_mem_take hc)
    have hdrop : IsSolid (String.ofList (digits.toList.drop place.toNat)) := by
      rw [IsSolid, String.toList_ofList]
      exact fun c hc => h c (List.mem_of_mem_drop hc)
    exact isSolid_append.mpr ⟨isSolid_append.mpr ⟨htake, by decide⟩, hdrop⟩

/-- The text of a number is one word. -/
theorem isSolid_render (x : Binary64) : IsSolid (plain.render x) := by
  have hsign : IsSolid (if x.negative then "-" else "") := by
    cases x.negative <;> decide
  simp only [Layout.render]
  split
  · have hnan : IsSolid plain.nan := by decide
    exact hnan
  split
  · exact isSolid_append.mpr ⟨hsign, by decide⟩
  split
  · exact isSolid_append.mpr ⟨isSolid_append.mpr ⟨hsign, by decide⟩, by decide⟩
  · exact isSolid_append.mpr ⟨hsign, isSolid_write (isSolid_toString _) _⟩

end HostVitals.Binary64
