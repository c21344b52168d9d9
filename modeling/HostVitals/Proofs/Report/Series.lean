import HostVitals.Report.Telemetry
import Mathlib.Data.List.Nodup

/-! Series by their labels. Each has its labels to itself, values taken in go to the series of their
labels only, and the text of a family does not depend on the order in which its series came up. -/
namespace HostVitals.Report

abbrev Labels := List (String × String)

namespace Series
variable {α β : Type} {s s' : Series α} {labels k : Labels}

theorem find?_cons (labels : Labels) (value : α) (s : Series α) (k : Labels) :
    find? ((labels, value) :: s) k = if k = labels then some value else s.find? k := by
  by_cases h : k = labels
  · simp [find?, h]
  · have hne : (k == labels) = false := by simpa using h
    simp only [find?, List.lookup_cons, hne, if_neg h]

theorem find?_set (s : Series α) (labels : Labels) (value : α) (k : Labels) :
    (s.set labels value).find? k = if k = labels then some value else s.find? k := by
  induction s with
  | nil => exact find?_cons labels value [] k
  | cons e rest ih =>
    obtain ⟨l, v⟩ := e
    by_cases hl : l = labels
    · subst hl
      simp only [set, if_true, find?_cons]
      split <;> rfl
    · simp only [set, hl, if_false, find?_cons, ih]
      by_cases hk : k = l
      · simp [hk, hl]
      · simp [hk]

def keys (s : Series α) : List Labels := s.map Prod.fst

theorem keys_cons (e : Labels × α) (s : Series α) : keys (e :: s) = e.1 :: keys s := rfl

theorem keys_set (s : Series α) (labels : Labels) (value : α) :
    (s.set labels value).keys = if labels ∈ s.keys then s.keys else s.keys ++ [labels] := by
  induction s with
  | nil => rfl
  | cons e rest ih =>
    obtain ⟨l, v⟩ := e
    by_cases hl : l = labels
    · simp [set, keys_cons, hl]
    · have hne : ¬ labels = l := fun h => hl h.symm
      simp only [set, keys_cons, hl, hne, if_false, List.mem_cons, false_or, ih]
      by_cases hmem : labels ∈ keys rest
      · rw [if_pos hmem, if_pos hmem]
      · rw [if_neg hmem, if_neg hmem, List.cons_append]

theorem mem_keys_set {value : α} : k ∈ (s.set labels value).keys ↔ k ∈ s.keys ∨ k = labels := by
  rw [keys_set]
  by_cases h : labels ∈ s.keys
  · rw [if_pos h]
    exact ⟨.inl, fun hk => hk.elim id fun heq => heq ▸ h⟩
  · simp [if_neg h]

theorem find?_eq_none_iff : s.find? k = none ↔ k ∉ s.keys := by
  induction s with
  | nil => simp [find?, keys]
  | cons e rest ih =>
    rw [find?_cons, keys_cons, List.mem_cons, not_or]
    by_cases hk : k = e.1
    · simp [hk]
    · rw [if_neg hk, ih, and_iff_right hk]

structure Proper (names : List String) (s : Series α) : Prop where
  nodup : s.keys.Nodup
  names : ∀ k ∈ s.keys, k.map Prod.fst = names

theorem Proper.set {names : List String} (h : s.Proper names) (hnames : labels.map Prod.fst = names)
    (value : α) : (s.set labels value).Proper names where
  nodup := by
    rw [keys_set]
    by_cases hmem : labels ∈ s.keys
    · rw [if_pos hmem]
      exact h.nodup
    · rw [if_neg hmem, List.nodup_append]
      refine ⟨h.nodup, List.nodup_singleton labels, fun a ha b hb hab => hmem ?_⟩
      rw [← List.mem_singleton.mp hb, ← hab]
      exact ha
  names k hk := by
    cases mem_keys_set.mp hk with
    | inl hold => exact h.names k hold
    | inr hnew => rw [hnew, hnames]

theorem Proper.map {names : List String} (h : s.Proper names) (f : α → β) :
    Proper names (s.map fun e => (e.1, f e.2)) := by
  have hkeys : keys (s.map fun e => (e.1, f e.2)) = s.keys := List.map_map
  exact ⟨hkeys ▸ h.nodup, hkeys ▸ h.names⟩

theorem find?_map (s : Series α) (f : α → β) (k : Labels) :
    find? (s.map fun e => (e.1, f e.2)) k = (s.find? k).map f := by
  induction s with
  | nil => rfl
  | cons e rest ih =>
    rw [List.map_cons, find?_cons, find?_cons, ih]
    by_cases hk : k = e.1 <;> simp [hk]

theorem mem_iff_find? (h : s.keys.Nodup) {value : α} :
    (k, value) ∈ s ↔ s.find? k = some value := by
  induction s with
  | nil => simp [find?]
  | cons e rest ih =>
    obtain ⟨l, v⟩ := e
    have hnodup := List.nodup_cons.mp h
    rw [find?_cons, List.mem_cons, ih hnodup.2]
    by_cases hk : k = l
    · have hrest : find? rest l = none := find?_eq_none_iff.mpr hnodup.1
      simp [hk, hrest, eq_comm]
    · simp [hk]

theorem find?_eq_of_perm (h : s.keys.Nodup) (hperm : s.Perm s') (k : Labels) :
    s.find? k = s'.find? k := by
  have h' : s'.keys.Nodup := (hperm.map Prod.fst).nodup h
  ext value
  rw [← mem_iff_find? h, ← mem_iff_find? h', hperm.mem_iff]

/-- Of all values the one under some labels is picked out. -/
theorem flatMap_ite_eq (h : s.keys.Nodup) (f : α → β) (k : Labels) :
    (s.flatMap fun e => if k = e.1 then [f e.2] else []) = ((s.find? k).map f).toList := by
  induction s with
  | nil => rfl
  | cons e rest ih =>
    obtain ⟨l, v⟩ := e
    have hnodup := List.nodup_cons.mp h
    rw [List.flatMap_cons, ih hnodup.2, find?_cons]
    by_cases hk : k = l
    · have hrest : find? rest k = none := find?_eq_none_iff.mpr (hk ▸ hnodup.1)
      simp [hk, hk ▸ hrest]
    · simp [hk]

/-- Series with the same values are the same but for their order. -/
theorem perm_of_find?_eq (h : s.keys.Nodup) (h' : s'.keys.Nodup)
    (hfind : ∀ k, s.find? k = s'.find? k) : s.Perm s' := by
  rw [List.perm_ext_iff_of_nodup h.of_map h'.of_map]
  intro e
  rw [mem_iff_find? h, mem_iff_find? h', hfind]

/-- And if they came up in the same order, they are the same. -/
theorem eq_of_find?_eq (h : s.keys.Nodup) (hkeys : s.keys = s'.keys)
    (hfind : ∀ k, s.find? k = s'.find? k) : s = s' := by
  induction s generalizing s' with
  | nil => exact (List.map_eq_nil_iff.mp hkeys.symm).symm
  | cons e rest ih =>
    cases s' with
    | nil => cases hkeys
    | cons e' rest' =>
      obtain ⟨l, v⟩ := e
      obtain ⟨l', v'⟩ := e'
      obtain ⟨rfl, hrest⟩ : l = l' ∧ keys rest = keys rest' := List.cons.inj hkeys
      have hnodup : l ∉ keys rest ∧ (keys rest).Nodup := List.nodup_cons.mp h
      have hv : v = v' := by simpa [find?_cons] using hfind l
      have htail : rest = rest' := by
        refine ih hnodup.2 hrest fun k => ?_
        by_cases hk : k = l
        · have hout : l ∉ keys rest' := hrest ▸ hnodup.1
          rw [hk, find?_eq_none_iff.mpr hnodup.1, find?_eq_none_iff.mpr hout]
        · simpa [find?_cons, hk] using hfind k
      rw [hv, htail]

/-! Values taken in one after the other, each by its labels and by what these showed before. -/

def takeIn (f : Option α → β → α) (s : Series α) (values : List (Labels × β)) : Series α :=
  values.foldl (fun s e => s.set e.1 (f (s.find? e.1) e.2)) s

def valuesOf (k : Labels) (values : List (Labels × β)) : List β :=
  (values.filter fun e => e.1 = k).map Prod.snd

theorem valuesOf_append (k : Labels) (values values' : List (Labels × β)) :
    valuesOf k (values ++ values') = valuesOf k values ++ valuesOf k values' := by
  rw [valuesOf, List.filter_append, List.map_append]
  rfl

section takeIn
variable (f : Option α → β → α) {values values' : List (Labels × β)}

theorem takeIn_append (s : Series α) (values values' : List (Labels × β)) :
    s.takeIn f (values ++ values') = (s.takeIn f values).takeIn f values' := List.foldl_append

theorem find?_takeIn (s : Series α) (values : List (Labels × β)) (k : Labels) :
    (s.takeIn f values).find? k =
      (valuesOf k values).foldl (fun o value => some (f o value)) (s.find? k) := by
  induction values generalizing s with
  | nil => rfl
  | cons e rest ih =>
    have hstep : (s.takeIn f (e :: rest)).find? k =
        ((s.set e.1 (f (s.find? e.1) e.2)).takeIn f rest).find? k := rfl
    rw [hstep, ih, find?_set]
    by_cases hk : e.1 = k
    · simp [valuesOf, hk]
    · simp [valuesOf, hk, Ne.symm hk]

theorem proper_takeIn {names : List String} (h : s.Proper names)
    (hnames : ∀ e ∈ values, e.1.map Prod.fst = names) : (s.takeIn f values).Proper names := by
  induction values generalizing s with
  | nil => exact h
  | cons e rest ih =>
    have hset := h.set (hnames e List.mem_cons_self) (f (s.find? e.1) e.2)
    exact ih hset fun e' he' => hnames e' (List.mem_cons_of_mem e he')

theorem mem_keys_takeIn : k ∈ (s.takeIn f values).keys ↔ k ∈ s.keys ∨ k ∈ values.map Prod.fst := by
  induction values generalizing s with
  | nil => simp [takeIn]
  | cons e rest ih =>
    have hrest := ih (s := s.set e.1 (f (s.find? e.1) e.2))
    rw [mem_keys_set, or_assoc] at hrest
    rw [List.map_cons, List.mem_cons]
    exact hrest

theorem keys_takeIn_of_subset (h : ∀ e ∈ values, e.1 ∈ s.keys) :
    (s.takeIn f values).keys = s.keys := by
  induction values generalizing s with
  | nil => rfl
  | cons e rest ih =>
    have hkeys : (s.set e.1 (f (s.find? e.1) e.2)).keys = s.keys := by
      rw [keys_set, if_pos (h e List.mem_cons_self)]
    have hrest := ih (s := s.set e.1 (f (s.find? e.1) e.2)) fun e' he' => by
      rw [hkeys]
      exact h e' (List.mem_cons_of_mem e he')
    exact hrest.trans hkeys

/-- Where the same values make no more difference to one series, they make none to all. -/
theorem takeIn_takeIn (hn : (s.takeIn f values).keys.Nodup)
    (hf : ∀ (l : List β) (o : Option α), l.foldl (fun o value => some (f o value))
      (l.foldl (fun o value => some (f o value)) o) = l.foldl (fun o value => some (f o value)) o) :
    (s.takeIn f values).takeIn f values = s.takeIn f values := by
  have hkeys : ((s.takeIn f values).takeIn f values).keys = (s.takeIn f values).keys :=
    keys_takeIn_of_subset f fun e he =>
      (mem_keys_takeIn f).mpr (.inr (List.mem_map_of_mem he))
  refine eq_of_find?_eq (hkeys ▸ hn) hkeys fun k => ?_
  rw [find?_takeIn, find?_takeIn, hf]

/-- Under labels of its own a value is the only one that goes to its series. -/
theorem valuesOf_eq_of_perm (hperm : values.Perm values') (hnodup : (values.map Prod.fst).Nodup)
    (k : Labels) : valuesOf k values = valuesOf k values' := by
  have hfilter : (values.filter fun e => e.1 = k).Perm (values'.filter fun e => e.1 = k) :=
    hperm.filter _
  have honly (a b : Labels × β) (ha : a ∈ values.filter fun e => e.1 = k)
      (hb : b ∈ values'.filter fun e => e.1 = k) : a = b := by
    have hb' := hfilter.mem_iff.mpr hb
    simp only [List.mem_filter, decide_eq_true_eq] at ha hb'
    exact List.inj_on_of_nodup_map hnodup ha.1 hb'.1 (ha.2.trans hb'.2.symm)
  have hall (l : List (Labels × β)) : l.Pairwise fun _ _ => True := by
    simp [List.pairwise_iff_getElem]
  rw [valuesOf, valuesOf,
    hfilter.eq_of_pairwise (fun a b ha hb _ _ => honly a b ha hb) (hall _) (hall _)]

theorem find?_takeIn_of_not_mem (s : Series α) (h : k ∉ values.map Prod.fst) :
    (s.takeIn f values).find? k = s.find? k := by
  have hnone : valuesOf k values = [] := by
    rw [valuesOf, List.map_eq_nil_iff, List.filter_eq_nil_iff]
    intro e he heq
    have hmem : e.1 ∈ values.map Prod.fst := List.mem_map_of_mem he
    rw [of_decide_eq_true heq] at hmem
    exact h hmem
  rw [find?_takeIn, hnone]
  rfl

theorem find?_takeIn_of_perm (s : Series α) (hperm : values.Perm values')
    (hnodup : (values.map Prod.fst).Nodup) (k : Labels) :
    (s.takeIn f values).find? k = (s.takeIn f values').find? k := by
  rw [find?_takeIn, find?_takeIn, valuesOf_eq_of_perm hperm hnodup]

end takeIn

end Series

namespace Telemetry
variable {α : Type} {a b c : Labels}

theorem labelsLe_total (a b : Labels) : labelsLe a b = true ∨ labelsLe b a = true := by
  induction a generalizing b with
  | nil => exact .inl rfl
  | cons x xs ih =>
    cases b with
    | nil => exact .inr rfl
    | cons y ys =>
      by_cases h : x.2 = y.2
      · simpa [labelsLe, h] using ih ys
      · by_cases hlt : x.2 < y.2
        · exact .inl (by simp [labelsLe, h, hlt])
        · have hgt : y.2 < x.2 := Std.lt_of_le_of_ne (String.not_lt.mp hlt) (Ne.symm h)
          exact .inr (by simp [labelsLe, Ne.symm h, hgt])

theorem labelsLe_trans (hab : labelsLe a b = true) (hbc : labelsLe b c = true) :
    labelsLe a c = true := by
  induction a generalizing b c with
  | nil => rfl
  | cons x xs ih =>
    cases b with
    | nil => cases hab
    | cons y ys =>
      cases c with
      | nil => cases hbc
      | cons z zs =>
        simp only [labelsLe] at hab hbc ⊢
        by_cases hxy : x.2 = y.2
        · by_cases hyz : y.2 = z.2
          · rw [if_pos hxy] at hab
            rw [if_pos hyz] at hbc
            rw [if_pos (hxy.trans hyz)]
            exact ih hab hbc
          · rw [if_neg hyz] at hbc
            rw [hxy, if_neg hyz]
            exact hbc
        · rw [if_neg hxy, decide_eq_true_eq] at hab
          by_cases hyz : y.2 = z.2
          · rw [← hyz, if_neg hxy]
            exact decide_eq_true hab
          · rw [if_neg hyz, decide_eq_true_eq] at hbc
            have hxz : x.2 < z.2 := String.lt_trans hab hbc
            have hne : x.2 ≠ z.2 := fun heq => String.lt_irrefl z.2 (heq ▸ hxz)
            rw [if_neg hne]
            exact decide_eq_true hxz

/-- Of two lists of labels with the same names neither comes before the other unless they are the
same. -/
theorem labelsLe_antisymm (hnames : a.map Prod.fst = b.map Prod.fst) (hab : labelsLe a b = true)
    (hba : labelsLe b a = true) : a = b := by
  induction a generalizing b with
  | nil => exact (List.map_eq_nil_iff.mp hnames.symm).symm
  | cons x xs ih =>
    cases b with
    | nil => cases hnames
    | cons y ys =>
      obtain ⟨hname, hrest⟩ := List.cons.inj hnames
      simp only [labelsLe] at hab hba
      by_cases h : x.2 = y.2
      · rw [if_pos h] at hab
        rw [if_pos h.symm] at hba
        rw [Prod.ext hname h, ih hrest hab hba]
      · rw [if_neg h, decide_eq_true_eq] at hab
        rw [if_neg (Ne.symm h), decide_eq_true_eq] at hba
        exact absurd hab (String.lt_asymm hba)

/-- The text of a family does not tell in which order its series came up. -/
theorem family_eq_of_perm {names : List String} {s s' : Series Binary64} (h : s.Proper names)
    (hperm : s.Perm s') (name help kind : String) :
    family name help kind s = family name help kind s' := by
  let le (e e' : Labels × Binary64) : Bool := labelsLe e.1 e'.1
  have htrans (e e' e'' : Labels × Binary64) : le e e' → le e' e'' → le e e'' := labelsLe_trans
  have htotal (e e' : Labels × Binary64) : (le e e' || le e' e) = true := by
    simpa using labelsLe_total e.1 e'.1
  have hkeys {e : Labels × Binary64} (he : e ∈ s) : e.1 ∈ s.keys := List.mem_map_of_mem he
  have hsame (e e' : Labels × Binary64) (he : e ∈ s.mergeSort le) (he' : e' ∈ s'.mergeSort le)
      (hle : le e e') (hge : le e' e) : e = e' := by
    have hmem := (s.mergeSort_perm le).mem_iff.mp he
    have hmem' := hperm.mem_iff.mpr ((s'.mergeSort_perm le).mem_iff.mp he')
    have hnames := (h.names e.1 (hkeys hmem)).trans (h.names e'.1 (hkeys hmem')).symm
    exact List.inj_on_of_nodup_map h.nodup hmem hmem' (labelsLe_antisymm hnames hle hge)
  have hsorted : s.mergeSort le = s'.mergeSort le :=
    List.Perm.eq_of_pairwise hsame (List.pairwise_mergeSort htrans htotal s)
      (List.pairwise_mergeSort htrans htotal s')
      ((s.mergeSort_perm le).trans (hperm.trans (s'.mergeSort_perm le).symm))
  simp only [family, hperm.isEmpty_eq]
  rw [hsorted]

end Telemetry
end HostVitals.Report
