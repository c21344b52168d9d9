import HostVitals.Address
import HostVitals.Proofs.Text.Numerals
import Mathlib.Data.List.TakeWhile

/-! Which addresses keep their meaning with a colon and a port behind them: those of four octets. An
address in groups loses it, for only brackets would keep the port apart from the groups. -/
namespace HostVitals
open Nat (toDigits)

namespace Address
variable {base most : Nat} {zeroPrefix : Bool} {c d : Char} {r s : List Char}

theorem takeWhile_append_cons {p : Char → Bool} (hc : p c = false) (s r : List Char) :
    (s ++ c :: r).takeWhile p = s.takeWhile p := by
  induction s with
  | nil => simp [hc]
  | cons d s ih => simp [List.takeWhile_cons, ih]

theorem takeNumber_append (hc : Text.digitValue base c = none) (s r : List Char) :
    takeNumber base most zeroPrefix (s ++ c :: r) =
      (takeNumber base most zeroPrefix s).map fun p => (p.1, p.2 ++ c :: r) := by
  have hdigits := takeWhile_append_cons (p := fun c => (Text.digitValue base c).isSome)
    (by rw [hc]; rfl) s r
  have hle : (s.takeWhile fun c => (Text.digitValue base c).isSome).length ≤ s.length :=
    (List.takeWhile_prefix _).length_le
  simp only [takeNumber, hdigits, List.drop_append_of_le_length hle]
  split
  · rfl
  · split <;> rfl

theorem takeNumber_toDigits {n : Nat} (hb : 1 < base) (hb' : base ≤ 16)
    (hmost : (toDigits base n).length ≤ most) :
    takeNumber base most zeroPrefix (toDigits base n) = some (n, []) := by
  have hall : (toDigits base n).takeWhile (fun c => (Text.digitValue base c).isSome) =
      toDigits base n :=
    List.takeWhile_eq_self_iff.mpr fun c hc => Text.digitValue_isSome_of_mem_toDigits hb hb' hc
  have hzero : ¬((toDigits base n).head? = some '0' ∧ 1 < (toDigits base n).length) := by
    rintro ⟨hhead, hlength⟩
    rw [Text.length_toDigits_of_head? hb hb' hhead] at hlength
    exact Nat.lt_irrefl 1 hlength
  have hvalue : (toDigits base n).foldl
      (fun n c => n * base + (Text.digitValue base c).getD 0) 0 = n :=
    Text.valueAfter_toDigits hb hb' n
  simp only [takeNumber, hall, hvalue, List.drop_length]
  rw [if_neg (by simp [Nat.toDigits_ne_nil, hmost]), if_neg fun h => hzero h.2]

theorem takeNumber_subset {p : Nat × List Char} (h : takeNumber base most zeroPrefix s = some p) :
    p.2 ⊆ s := by
  simp only [takeNumber] at h
  split at h
  · cases h
  · split at h
    · cases h
    · cases h
      exact List.drop_subset _ _

theorem takeChar_append (hcd : d ≠ c) (s r : List Char) :
    takeChar c (s ++ d :: r) = (takeChar c s).map (· ++ d :: r) := by
  cases s with
  | nil => simp [takeChar, hcd]
  | cons e s =>
    simp only [List.cons_append, takeChar]
    split <;> rfl

theorem takeChar_eq_some (h : takeChar c s = some r) : s = c :: r := by
  cases s with
  | nil => cases h
  | cons d s =>
    simp only [takeChar] at h
    split at h
    · cases h
      subst d
      rfl
    · cases h

theorem takeOctet_append (s r : List Char) :
    takeOctet (s ++ ':' :: r) = (takeOctet s).map fun p => (p.1, p.2 ++ ':' :: r) := by
  rw [takeOctet, takeNumber_append (by decide), takeOctet]
  cases takeNumber 10 3 false s with
  | none => rfl
  | some p => by_cases hp : p.1 ≤ 255 <;> simp [Option.filter, hp]

theorem takeOctet_toDigits {n : Nat} (hn : n ≤ 255) : takeOctet (toDigits 10 n) = some (n, []) := by
  have hlength : (toDigits 10 n).length ≤ 3 :=
    (Nat.length_toDigits_le_iff (by decide) (by decide)).mpr (by omega)
  rw [takeOctet, takeNumber_toDigits (by decide) (by decide) hlength]
  simp [Option.filter, hn]

/-- A point ends an octet. -/
theorem takeOctet_toDigits_point {n : Nat} (hn : n ≤ 255) (r : List Char) :
    takeOctet (toDigits 10 n ++ '.' :: r) = some (n, '.' :: r) := by
  have hpoint : takeNumber 10 3 false (toDigits 10 n ++ '.' :: r) =
      (takeNumber 10 3 false (toDigits 10 n)).map fun p => (p.1, p.2 ++ '.' :: r) :=
    takeNumber_append (by decide) _ _
  have hlength : (toDigits 10 n).length ≤ 3 :=
    (Nat.length_toDigits_le_iff (by decide) (by decide)).mpr (by omega)
  rw [takeNumber_toDigits (by decide) (by decide) hlength] at hpoint
  simp [takeOctet, hpoint, Option.filter, hn]

def takePointed (s : List Char) : Option (Nat × List Char) := (takeChar '.' s).bind takeOctet

theorem takeV4_eq (s : List Char) :
    takeV4 s = (takeOctet s).bind fun a => (takePointed a.2).bind fun b =>
      (takePointed b.2).bind fun c => (takePointed c.2).map fun d =>
        ((a.1, b.1, c.1, d.1), d.2) := by
  simp only [takeV4, takePointed, Option.bind_eq_bind, Option.pure_def, Option.bind_assoc,
    Option.map_eq_bind, Function.comp_def]

theorem takePointed_append (s r : List Char) :
    takePointed (s ++ ':' :: r) = (takePointed s).map fun p => (p.1, p.2 ++ ':' :: r) := by
  rw [takePointed, takeChar_append (by decide), takePointed]
  cases takeChar '.' s with
  | none => rfl
  | some t => exact takeOctet_append t r

/-- A colon behind four octets changes nothing of them. -/
theorem takeV4_append (s r : List Char) :
    takeV4 (s ++ ':' :: r) = (takeV4 s).map fun p => (p.1, p.2 ++ ':' :: r) := by
  simp only [takeV4_eq, takeOctet_append, takePointed_append, Option.bind_map, Option.map_bind,
    Option.map_map, Function.comp_def]

theorem takeOctet_le {p : Nat × List Char} (h : takeOctet s = some p) : p.1 ≤ 255 := by
  simpa using (Option.filter_eq_some_iff.mp h).2

theorem takeOctet_subset {p : Nat × List Char} (h : takeOctet s = some p) : p.2 ⊆ s :=
  takeNumber_subset (Option.filter_eq_some_iff.mp h).1

theorem takePointed_eq_some {p : Nat × List Char} (h : takePointed s = some p) :
    ∃ t, s = '.' :: t ∧ takeOctet t = some p := by
  obtain ⟨t, ht, hp⟩ := Option.bind_eq_some_iff.mp h
  exact ⟨t, takeChar_eq_some ht, hp⟩

/-- What four octets are made of. -/
theorem takeV4_eq_some {p : (Nat × Nat × Nat × Nat) × List Char} (h : takeV4 s = some p) :
    ∃ a b c d : Nat × List Char, takeOctet s = some a ∧ takePointed a.2 = some b ∧
      takePointed b.2 = some c ∧ takePointed c.2 = some d ∧
      p = ((a.1, b.1, c.1, d.1), d.2) := by
  rw [takeV4_eq] at h
  obtain ⟨a, ha, h⟩ := Option.bind_eq_some_iff.mp h
  obtain ⟨b, hb, h⟩ := Option.bind_eq_some_iff.mp h
  obtain ⟨c, hc, h⟩ := Option.bind_eq_some_iff.mp h
  obtain ⟨d, hd, rfl⟩ := Option.map_eq_some_iff.mp h
  exact ⟨a, b, c, d, ha, hb, hc, hd, rfl⟩

theorem takeV4_le {o : Nat × Nat × Nat × Nat} (h : takeV4 s = some (o, r)) :
    o.1 ≤ 255 ∧ o.2.1 ≤ 255 ∧ o.2.2.1 ≤ 255 ∧ o.2.2.2 ≤ 255 := by
  obtain ⟨a, b, c, d, ha, hb, hc, hd, hp⟩ := takeV4_eq_some h
  obtain ⟨_, -, hb⟩ := takePointed_eq_some hb
  obtain ⟨_, -, hc⟩ := takePointed_eq_some hc
  obtain ⟨_, -, hd⟩ := takePointed_eq_some hd
  cases hp
  exact ⟨takeOctet_le ha, takeOctet_le hb, takeOctet_le hc, takeOctet_le hd⟩

/-- Without a point there are no four octets. -/
theorem takeV4_eq_none (h : '.' ∉ s) : takeV4 s = none := by
  cases hs : takeV4 s with
  | none => rfl
  | some p =>
    obtain ⟨a, b, -, -, ha, hb, -⟩ := takeV4_eq_some hs
    obtain ⟨t, ht, -⟩ := takePointed_eq_some hb
    exact absurd (takeOctet_subset ha (ht ▸ List.mem_cons_self)) h

theorem takeV4_v4Text {a b c d : Nat} (ha : a ≤ 255) (hb : b ≤ 255) (hc : c ≤ 255) (hd : d ≤ 255) :
    takeV4 (v4Text a b c d).toList = some ((a, b, c, d), []) := by
  have htext : (v4Text a b c d).toList = toDigits 10 a ++ '.' :: (toDigits 10 b ++
      '.' :: (toDigits 10 c ++ '.' :: toDigits 10 d)) := by
    simp [v4Text, String.intercalate_cons_cons]
  rw [htext]
  simp [takeV4_eq, takePointed, takeChar, takeOctet_toDigits_point, takeOctet_toDigits, ha, hb, hc,
    hd]

/-- A text that is read as groups does not start with four octets, nor with a bracket. -/
theorem takeV4_eq_none_of_read {gs : List Nat} (h : read s = some (v6 gs)) :
    takeV4 s = none ∧ s.head? ≠ some '[' := by
  have hgroups : ∃ r, takeV6 s = some (gs, r) := by
    unfold read at h
    split at h
    · cases h
    · split at h
      · cases h
        exact ⟨[], ‹_›⟩
      · cases h
  obtain ⟨r, hgroups⟩ := hgroups
  constructor
  · cases hs : takeV4 s with
    | none => rfl
    | some p => simp [takeV6, takeGroups, hs] at hgroups
  · cases s with
    | nil => simp
    | cons c s =>
      rintro hc
      rw [List.head?_cons, Option.some_inj] at hc
      subst hc
      have hv4 : takeV4 ('[' :: s) = none := by
        simp [takeV4_eq, takeOctet, takeNumber, Text.digitValue, Option.filter]
      simp [takeV6, takeGroups, hv4, takeNumber, Text.digitValue, Option.filter, takeChar] at hgroups

theorem takeV4_of_read {a b c d : Nat} (h : read s = some (v4 a b c d)) :
    takeV4 s = some ((a, b, c, d), []) := by
  unfold read at h
  split at h
  · cases h
    assumption
  · split at h <;> cases h

theorem mem_groupsText {gs : List Nat} (hc : c ∈ (groupsText gs).toList) :
    c = ':' ∨ ∃ d < 16, c = Nat.digitChar d := by
  induction gs with
  | nil => simp [groupsText] at hc
  | cons g gs ih =>
    have hgroup : c ∈ toDigits 16 g → c = ':' ∨ ∃ d < 16, c = Nat.digitChar d := fun h =>
      .inr (Text.exists_digitChar_of_mem_toDigits (by decide) h)
    cases gs with
    | nil => exact hgroup (by simpa [groupsText, groupText] using hc)
    | cons g' gs =>
      have hc' : c ∈ toDigits 16 g ∨ c = ':' ∨ c ∈ (groupsText (g' :: gs)).toList := by
        simpa [groupsText, groupText, String.intercalate_cons_cons] using hc
      rcases hc' with hc' | hc' | hc'
      · exact hgroup hc'
      · exact .inl hc'
      · exact ih hc'

/-- Groups are written without points and brackets, but for those that stand for four octets: these
start with a colon. -/
theorem takeV4_text_v6 (gs : List Nat) :
    takeV4 (text (v6 gs)).toList = none ∧ (text (v6 gs)).toList.head? ≠ some '[' := by
  have hplain : ∀ s : List Char, (∀ c ∈ s, c = ':' ∨ ∃ d < 16, c = Nat.digitChar d) →
      takeV4 s = none ∧ s.head? ≠ some '[' := by
    intro s hs
    have hno : ∀ c ∈ s, c ≠ '.' ∧ c ≠ '[' := by
      intro c hc
      obtain rfl | ⟨d, hd, rfl⟩ := hs c hc
      · decide
      · interval_cases d <;> decide
    exact ⟨takeV4_eq_none fun h => (hno _ h).1 rfl,
      fun h => (hno _ (List.mem_of_mem_head? h)).2 rfl⟩
  unfold text
  split
  · simp at *
  · rename_i x y heq
    simp [takeV4_eq, takeOctet, takeNumber, Text.digitValue, Option.filter]
  · rename_i gs' _ heq
    cases heq
    split
    apply hplain
    split
    · simp only [String.toList_append, List.mem_append]
      rintro c ((hc | hc) | hc)
      · exact mem_groupsText hc
      · exact .inl (by simpa using hc)
      · exact mem_groupsText hc
    · exact fun c hc => mem_groupsText hc

end Address

namespace Endpoint

theorem readPort_toDigits {n : Nat} (hn : n ≤ Text.maxU16) :
    readPort (':' :: toDigits 10 n) = some n := by
  have hdigits : ∀ c ∈ toDigits 10 n, c.isDigit = true := fun c hc =>
    Nat.isDigit_of_mem_toDigits (by decide) (by decide) hc
  have hread : Text.readDigits 10 Text.maxU16 .tooLarge 0 (toDigits 10 n) = .ok n := by
    rw [Text.readDigits_of_le (by decide)
      (fun c hc => Text.digitValue_isSome_of_mem_toDigits (by decide) (by decide) hc)]
    all_goals rw [Text.valueAfter_toDigits (by decide) (by decide)]
    exact hn
  simpa [readPort, Address.takeChar, Nat.toDigits_ne_nil, hread, Except.toOption] using hdigits

/-- Four octets, a colon and a port are an address and a port. -/
theorem read_of_takeV4 {s : List Char} {a b c d n : Nat}
    (h : Address.takeV4 s = some ((a, b, c, d), [])) (hn : n ≤ Text.maxU16) :
    read (s ++ ':' :: toDigits 10 n) = some ⟨.v4 a b c d, n⟩ := by
  simp [read, Address.takeV4_append, h, readPort_toDigits hn]

/-- What starts with neither four octets nor a bracket is no address and port. -/
theorem read_eq_none {s : List Char} (hv4 : Address.takeV4 s = none) (hopen : s.head? ≠ some '[')
    (r : List Char) : read (s ++ ':' :: r) = none := by
  have hbracket : Address.takeChar '[' (s ++ ':' :: r) = none := by
    cases s with
    | nil => simp [Address.takeChar]
    | cons c s => simpa [Address.takeChar] using hopen
  simp [read, Address.takeV4_append, hv4, hbracket]

end Endpoint
end HostVitals
