import HostVitals.Text.Numeral
import Mathlib.Tactic.IntervalCases

/-! Numbers as digits, read back. The digits of a number have its value in every base up to sixteen,
in small letters or capitals, and none of them is a needless zero. A text is as long at least as what it
is put together from. -/
namespace HostVitals.Text
open Nat (toDigits digitChar)
variable {b d n limit : Nat} {c : Char} {l : List Char}

theorem digitValue_digitChar (hd : d < b) (hb : b ≤ 16) : digitValue b (digitChar d) = some d := by
  have hd' : d < 16 := by omega
  interval_cases d <;> simp [digitValue, digitChar, hd]

theorem digitValue_toUpper_digitChar (hd : d < b) (hb : b ≤ 16) :
    digitValue b (digitChar d).toUpper = some d := by
  have hd' : d < 16 := by omega
  interval_cases d <;> simp [digitValue, digitChar, hd]

theorem exists_digitChar_of_mem_toDigits (hb : 1 < b) (hc : c ∈ toDigits b n) :
    ∃ d < b, c = digitChar d := by
  induction n using Nat.base_induction b hb with
  | single m hm =>
    rw [Nat.toDigits_of_lt_base hm, List.mem_singleton] at hc
    exact ⟨m, hm, hc⟩
  | digit m k hk hm ih =>
    rw [← Nat.toDigits_append_toDigits hb hm hk, List.mem_append, Nat.toDigits_of_lt_base hk,
      List.mem_singleton] at hc
    cases hc with
    | inl hc => exact ih hc
    | inr hc => exact ⟨k, hk, hc⟩

theorem digitValue_isSome_of_mem_toDigits (hb : 1 < b) (hb' : b ≤ 16) (hc : c ∈ toDigits b n) :
    (digitValue b c).isSome = true := by
  obtain ⟨d, hd, rfl⟩ := exists_digitChar_of_mem_toDigits hb hc
  rw [digitValue_digitChar hd hb']
  rfl

def valueAfter (base value : Nat) (l : List Char) : Nat :=
  l.foldl (fun n c => n * base + (digitValue base c).getD 0) value

theorem valueAfter_append (value : Nat) (l m : List Char) :
    valueAfter b value (l ++ m) = valueAfter b (valueAfter b value l) m := List.foldl_append

theorem valueAfter_zeros (k : Nat) (l : List Char) :
    valueAfter b 0 (List.replicate k '0' ++ l) = valueAfter b 0 l := by
  have hzero : (digitValue b '0').getD 0 = 0 := by
    cases b <;> simp [digitValue, Option.filter]
  induction k with
  | zero => rfl
  | succ k ih => simpa [List.replicate_succ, valueAfter, hzero] using ih

theorem valueAfter_toDigits (hb : 1 < b) (hb' : b ≤ 16) (n : Nat) :
    valueAfter b 0 (toDigits b n) = n := by
  induction n using Nat.base_induction b hb with
  | single m hm =>
    rw [Nat.toDigits_of_lt_base hm]
    simp [valueAfter, digitValue_digitChar hm hb']
  | digit m k hk hm ih =>
    rw [← Nat.toDigits_append_toDigits hb hm hk, valueAfter_append, ih,
      Nat.toDigits_of_lt_base hk]
    simp [valueAfter, digitValue_digitChar hk hb', Nat.mul_comm]

theorem valueAfter_toUpper (hl : ∀ c ∈ l, ∃ d < b, c = digitChar d) (hb : b ≤ 16) (value : Nat) :
    valueAfter b value (l.map Char.toUpper) = valueAfter b value l := by
  induction l generalizing value with
  | nil => rfl
  | cons c l ih =>
    obtain ⟨d, hd, rfl⟩ := hl c List.mem_cons_self
    simp only [valueAfter, List.map_cons, List.foldl_cons, digitValue_toUpper_digitChar hd hb,
      digitValue_digitChar hd hb]
    exact ih (fun c hc => hl c (List.mem_cons_of_mem _ hc)) _

theorem le_valueAfter (hb : 0 < b) (value : Nat) (l : List Char) : value ≤ valueAfter b value l := by
  induction l generalizing value with
  | nil => exact Nat.le_refl _
  | cons c l ih =>
    have hstep : value ≤ value * b + (digitValue b c).getD 0 :=
      Nat.le_trans (Nat.le_mul_of_pos_right _ hb) (Nat.le_add_right _ _)
    exact Nat.le_trans hstep (ih _)

theorem readDigits_of_le (hb : 0 < b) {excess : NumeralError} {value : Nat}
    (hl : ∀ c ∈ l, (digitValue b c).isSome = true) (hlimit : valueAfter b value l ≤ limit) :
    readDigits b limit excess value l = .ok (valueAfter b value l) := by
  induction l generalizing value with
  | nil => rfl
  | cons c l ih =>
    obtain ⟨d, hd⟩ := Option.isSome_iff_exists.mp (hl c List.mem_cons_self)
    have hnext : valueAfter b value (c :: l) = valueAfter b (value * b + d) l := by
      simp [valueAfter, hd]
    rw [hnext] at hlimit ⊢
    have hd' : value * b + d ≤ limit := Nat.le_trans (le_valueAfter hb _ l) hlimit
    simp only [readDigits, hd, if_pos hd']
    exact ih (fun c hc => hl c (List.mem_cons_of_mem _ hc)) hlimit

theorem readDigits_of_lt {excess : NumeralError} {value : Nat}
    (hl : ∀ c ∈ l, (digitValue b c).isSome = true) (hvalue : value ≤ limit)
    (hlimit : limit < valueAfter b value l) :
    readDigits b limit excess value l = .error excess := by
  induction l generalizing value with
  | nil => exact absurd hvalue (Nat.not_le.mpr hlimit)
  | cons c l ih =>
    obtain ⟨d, hd⟩ := Option.isSome_iff_exists.mp (hl c List.mem_cons_self)
    have hnext : valueAfter b value (c :: l) = valueAfter b (value * b + d) l := by
      simp [valueAfter, hd]
    rw [hnext] at hlimit
    simp only [readDigits, hd]
    split
    · exact ih (fun c hc => hl c (List.mem_cons_of_mem _ hc)) ‹_› hlimit
    · rfl

theorem head?_toDigits_ne_zero (hb : 1 < b) (hb' : b ≤ 16) (hn : 0 < n) :
    (toDigits b n).head? ≠ some '0' := by
  induction n using Nat.base_induction b hb with
  | single m hm =>
    rw [Nat.toDigits_of_lt_base hm]
    have hm' : m < 16 := by omega
    interval_cases m <;> simp [digitChar]
  | digit m k hk hm ih =>
    rw [← Nat.toDigits_append_toDigits hb hm hk, List.head?_append]
    cases hhead : (toDigits b m).head? with
    | none => exact absurd (List.head?_eq_none_iff.mp hhead) Nat.toDigits_ne_nil
    | some c =>
      rw [Option.some_or, ← hhead]
      exact ih hm

/-- Of several digits the first is no zero. -/
theorem length_toDigits_of_head? (hb : 1 < b) (hb' : b ≤ 16)
    (h : (toDigits b n).head? = some '0') : (toDigits b n).length = 1 := by
  cases n with
  | zero => simp
  | succ n => exact absurd h (head?_toDigits_ne_zero hb hb' n.succ_pos)

theorem toList_toString_natCast (n : Nat) : (toString (n : Int)).toList = toDigits 10 n := by
  simp [Int.repr_eq_if]

theorem ne_of_isDigit {d : Char} (hc : c.isDigit = true) (hd : d.isDigit = false) : c ≠ d := by
  rintro rfl
  exact Bool.false_ne_true (hd.symm.trans hc)

theorem exists_digit_toDigits (n : Nat) : ∃ c r, toDigits 10 n = c :: r ∧ c.isDigit = true := by
  cases h : toDigits 10 n with
  | nil => exact absurd h Nat.toDigits_ne_nil
  | cons c r =>
    exact ⟨c, r, rfl, Nat.isDigit_of_mem_toDigits (by decide) (by decide) (h ▸ List.mem_cons_self)⟩

/-- A number is read from its digits. -/
theorem readNatural_toDigits (hn : n ≤ limit) : readNatural 10 limit (toDigits 10 n) = .ok n := by
  obtain ⟨c, r, hcr, hc⟩ := exists_digit_toDigits n
  have hplus : c ≠ '+' := ne_of_isDigit hc (by decide)
  have hdigits : ∀ c ∈ toDigits 10 n, (digitValue 10 c).isSome = true := fun c hc =>
    digitValue_isSome_of_mem_toDigits (by decide) (by decide) hc
  have hvalue := valueAfter_toDigits (b := 10) (by decide) (by decide) n
  have hread : readDigits 10 limit .tooLarge 0 (toDigits 10 n) = .ok _ :=
    readDigits_of_le (by decide) hdigits (hvalue.trans_le hn)
  rw [hvalue, hcr] at hread
  rw [hcr]
  simpa [readNatural, hplus] using hread

theorem length_le_flatMap {α : Type} {xs : List α} {piece : α → List Char}
    (h : ∀ x ∈ xs, piece x ≠ []) : xs.length ≤ (xs.flatMap piece).length := by
  induction xs with
  | nil => exact Nat.zero_le _
  | cons x xs ih =>
    have hone := List.length_pos_iff.mpr (h x List.mem_cons_self)
    have hrest := ih fun x hx => h x (List.mem_cons_of_mem _ hx)
    rw [List.flatMap_cons, List.length_append, List.length_cons]
    omega

end HostVitals.Text
