import HostVitals.Proofs.Binary64.Layout
import HostVitals.Proofs.Report.Telemetry
import HostVitals.Proofs.Text.Cuts

/-! What the text of the families tells. The part of a line before its value names one series and no
other, whatever characters the keys have, and so whoever reads the lines of a series finds its value
there, and finds it once. -/
namespace HostVitals.Report.Telemetry
open Text

variable {s t : List Char} {a b labels : Labels} {name name' : String}

/-- Reads a value up to the quote that ends it. -/
def readValue : List Char → Option (List Char × List Char)
  | [] => none
  | '"' :: r => some ([], r)
  | '\\' :: 'n' :: r => (readValue r).map (Prod.map ('\n' :: ·) id)
  | '\\' :: c :: r => (readValue r).map (Prod.map (c :: ·) id)
  | c :: r => (readValue r).map (Prod.map (c :: ·) id)

theorem readValue_labelChar (c : Char) (s : List Char) :
    readValue ((labelChar c).toList ++ s) = (readValue s).map (Prod.map (c :: ·) id) := by
  unfold labelChar
  split
  · next h => rw [h]; rfl
  split
  · next h => rw [h]; rfl
  split
  · next h => rw [h]; rfl
  · next hback _ _ => simp [readValue, hback]

theorem toList_labelText (x : String) :
    (labelText x).toList = x.toList.flatMap fun c => (labelChar c).toList := by
  rw [labelText, String.toList_join, List.flatMap_map]

/-- Whatever follows, a value is read back as it was. -/
theorem readValue_labelText (x : String) (s : List Char) :
    readValue ((labelText x).toList ++ '"' :: s) = some (x.toList, s) := by
  rw [toList_labelText]
  induction x.toList with
  | nil => rfl
  | cons c l ih =>
    rw [List.flatMap_cons, List.append_assoc, readValue_labelChar, ih]
    rfl

theorem labelText_append_inj {x y : String}
    (h : (labelText x).toList ++ '"' :: s = (labelText y).toList ++ '"' :: t) : x = y ∧ s = t := by
  have hread := congrArg readValue h
  rw [readValue_labelText, readValue_labelText] at hread
  obtain ⟨hsame, hrest⟩ := Prod.mk.inj (Option.some.inj hread)
  exact ⟨String.toList_injective hsame, hrest⟩

theorem newline_not_mem_labelText (x : String) : '\n' ∉ (labelText x).toList := by
  rw [toList_labelText, List.mem_flatMap]
  rintro ⟨c, -, hc⟩
  unfold labelChar at hc
  split at hc
  · simp at hc
  split at hc
  · simp at hc
  split at hc
  · simp at hc
  · next hline _ => simp [Ne.symm hline] at hc

def labelEntry (l : String × String) : List Char :=
  l.1.toList ++ '=' :: '"' :: ((labelText l.2).toList ++ ['"'])

theorem toList_seriesText (name : String) (labels : Labels) : (seriesText name labels).toList =
    name.toList ++ '\x7b' :: ([','].intercalate (labels.map labelEntry) ++ ['\x7d', ' ']) := by
  have hentry : String.toList ∘ (fun l : String × String => l.1 ++ "=\"" ++ labelText l.2 ++ "\"") =
      labelEntry := by
    funext l
    simp [labelEntry]
  simp [seriesText, hentry]

theorem labelEntry_append_inj {l m : String × String} (hname : l.1 = m.1)
    (h : labelEntry l ++ s = labelEntry m ++ t) : l = m ∧ s = t := by
  simp only [labelEntry, hname, List.append_assoc, List.cons_append, List.append_cancel_left_eq,
    List.cons.injEq, true_and, List.nil_append] at h
  obtain ⟨hvalue, hrest⟩ := labelText_append_inj h
  exact ⟨Prod.ext hname hvalue, hrest⟩

/-- Labels of the same names are told apart by their text. -/
theorem entries_append_inj (hnames : a.map Prod.fst = b.map Prod.fst)
    (h : [','].intercalate (a.map labelEntry) ++ '\x7d' :: s =
      [','].intercalate (b.map labelEntry) ++ '\x7d' :: t) : a = b ∧ s = t := by
  induction a generalizing b with
  | nil =>
    obtain rfl : b = [] := List.map_eq_nil_iff.mp hnames.symm
    exact ⟨rfl, (List.cons.inj h).2⟩
  | cons l a ih =>
    cases b with
    | nil => cases hnames
    | cons m b =>
      obtain ⟨hname, hothers⟩ := List.cons.inj hnames
      cases a with
      | nil =>
        obtain rfl : b = [] := List.map_eq_nil_iff.mp hothers.symm
        simp only [List.map_cons, List.map_nil, List.intercalate_singleton] at h
        obtain ⟨rfl, hrest⟩ := labelEntry_append_inj hname h
        exact ⟨rfl, (List.cons.inj hrest).2⟩
      | cons l' a =>
        cases b with
        | nil => cases hothers
        | cons m' b =>
          simp only [List.map_cons, List.intercalate_cons_cons, List.append_assoc] at h
          obtain ⟨rfl, hrest⟩ := labelEntry_append_inj hname h
          obtain ⟨hsame, htail⟩ := ih hothers (List.cons.inj hrest).2
          exact ⟨by rw [hsame], htail⟩

def isPlain (x : String) : Bool := x.toList.all fun c => c != '\n' && c != '#' && c != '\x7b'

theorem isPlain_iff {x : String} :
    isPlain x = true ↔ ∀ c ∈ x.toList, c ≠ '\n' ∧ c ≠ '#' ∧ c ≠ '\x7b' := by
  simp [isPlain, and_assoc]

/-- What comes before the value is the text of one series only. -/
theorem seriesText_append_inj (hname : isPlain name = true) (hname' : isPlain name' = true)
    (hlabels : name = name' → a.map Prod.fst = b.map Prod.fst)
    (h : (seriesText name a).toList ++ s = (seriesText name' b).toList ++ t) :
    name = name' ∧ a = b ∧ s = t := by
  have hbrace {x : String} (hx : isPlain x = true) : '\x7b' ∉ x.toList :=
    fun hmem => (isPlain_iff.mp hx _ hmem).2.2 rfl
  simp only [toList_seriesText, List.append_assoc, List.cons_append, List.nil_append] at h
  have hcut := congrArg (cutAt '\x7b') h
  rw [cutAt_append (hbrace hname), cutAt_append (hbrace hname')] at hcut
  obtain ⟨hsame, hrest⟩ := Prod.mk.inj (Option.some.inj hcut)
  have hnames : name = name' := String.toList_injective hsame
  obtain ⟨hentries, hvalue⟩ := entries_append_inj (hlabels hnames) hrest
  exact ⟨hnames, hentries, (List.cons.inj hvalue).2⟩

theorem newline_not_mem_labelEntry {l : String × String} (h : '\n' ∉ l.1.toList) :
    '\n' ∉ labelEntry l := by
  simp [labelEntry, h, newline_not_mem_labelText]

theorem newline_not_mem_seriesText (hname : isPlain name = true)
    (hlabels : ∀ l ∈ labels, '\n' ∉ l.1.toList) : '\n' ∉ (seriesText name labels).toList := by
  have hname : '\n' ∉ name.toList := fun hmem => (isPlain_iff.mp hname _ hmem).1 rfl
  have hentries : '\n' ∉ [','].intercalate (labels.map labelEntry) := by
    induction labels with
    | nil => simp
    | cons l labels ih =>
      have hl := newline_not_mem_labelEntry (hlabels l List.mem_cons_self)
      have hrest := ih fun m hm => hlabels m (List.mem_cons_of_mem l hm)
      cases labels with
      | nil => simpa using hl
      | cons m labels =>
        rw [List.map_cons] at hrest
        simp [List.intercalate_cons_cons, hl, hrest]
  simp [toList_seriesText, hname, hentries]

/-! Reading. -/

/-- What a text tells of a series: the values on the lines that name it. -/
def valuesIn (text name : String) (labels : Labels) : List String :=
  (lines text.toList).filterMap fun line =>
    (stripStart (seriesText name labels).toList line).map String.ofList

theorem valuesIn_append {x : String} (h : IsEnded x.toList) (y name : String) (labels : Labels) :
    valuesIn (x ++ y) name labels = valuesIn x name labels ++ valuesIn y name labels := by
  rw [valuesIn, String.toList_append, lines_append h, List.filterMap_append]
  rfl

theorem isEnded_newline (x : String) : IsEnded (x ++ "\n").toList := by
  rw [String.toList_append]
  exact .inr List.getLast?_concat

theorem isEnded_append {x y : String} (hx : IsEnded x.toList) (hy : IsEnded y.toList) :
    IsEnded (x ++ y).toList := by
  rw [String.toList_append]
  rcases hy with hy | hy
  · rwa [hy, List.append_nil]
  · refine .inr ?_
    rw [List.getLast?_append, hy]
    rfl

theorem isEnded_join {xs : List String} (h : ∀ x ∈ xs, IsEnded x.toList) :
    IsEnded (String.join xs).toList := by
  induction xs with
  | nil => exact .inl rfl
  | cons x xs ih =>
    have hcons : String.join (x :: xs) = x ++ String.join xs := by simp [String.join_cons]
    rw [hcons]
    exact isEnded_append (h x List.mem_cons_self) (ih fun y hy => h y (List.mem_cons_of_mem x hy))

theorem valuesIn_join {xs : List String} (h : ∀ x ∈ xs, IsEnded x.toList) (name : String)
    (labels : Labels) :
    valuesIn (String.join xs) name labels = xs.flatMap fun x => valuesIn x name labels := by
  induction xs with
  | nil => rfl
  | cons x xs ih =>
    have hcons : String.join (x :: xs) = x ++ String.join xs := by simp [String.join_cons]
    rw [hcons, valuesIn_append (h x List.mem_cons_self), List.flatMap_cons,
      ih fun y hy => h y (List.mem_cons_of_mem x hy)]

theorem isEnded_sampleLine (name : String) (labels : Labels) (value : Binary64) :
    IsEnded (sampleLine name labels value).toList := isEnded_newline _

/-- Remarks name no series. -/
theorem valuesIn_remark {remark : String} (hline : '\n' ∉ remark.toList) (hname : isPlain name = true)
    (labels : Labels) : valuesIn ("#" ++ remark ++ "\n") name labels = [] := by
  have htext : ("#" ++ remark ++ "\n").toList = '#' :: remark.toList ++ '\n' :: [] := by simp
  have hlines : lines ("#" ++ remark ++ "\n").toList = ['#' :: chomp remark.toList] := by
    rw [htext, lines_cons (by simp [hline]), chomp_cons (by decide)]
    rfl
  have hother (rest : List Char) :
      '#' :: chomp remark.toList ≠ (seriesText name labels).toList ++ rest := by
    rw [toList_seriesText]
    cases hchars : name.toList with
    | nil => exact fun h => absurd (List.cons.inj h).1 (by decide)
    | cons c r =>
      have hc := (isPlain_iff.mp hname c (hchars ▸ List.mem_cons_self)).2.1
      exact fun h => hc (List.cons.inj h).1.symm
  have hnone : stripStart (seriesText name labels).toList ('#' :: chomp remark.toList) = none :=
    Option.eq_none_iff_forall_ne_some.mpr fun rest h => hother rest (stripStart_eq_some_iff.mp h)
  rw [valuesIn, hlines]
  simp [hnone]

theorem lines_sampleLine (hname : isPlain name = true) (hline : ∀ l ∈ a, '\n' ∉ l.1.toList)
    (value : Binary64) : lines (sampleLine name a value).toList =
      [(seriesText name a).toList ++ (Binary64.plain.render value).toList] := by
  have hvalue {c : Char} (hc : isBlank c = true) : c ∉ (Binary64.plain.render value).toList :=
    fun hmem => by simp [Binary64.isSolid_render value c hmem] at hc
  have htext : (sampleLine name a value).toList =
      ((seriesText name a).toList ++ (Binary64.plain.render value).toList) ++ '\n' :: [] := by
    simp [sampleLine]
  obtain ⟨head, hhead⟩ : ∃ head, (seriesText name a).toList = head ++ [' '] := by
    rw [toList_seriesText]
    exact ⟨name.toList ++ '\x7b' :: ([','].intercalate (a.map labelEntry) ++ ['\x7d']), by simp⟩
  have hno : '\n' ∉ (seriesText name a).toList ++ (Binary64.plain.render value).toList :=
    List.not_mem_append (newline_not_mem_seriesText hname hline) (hvalue (by decide))
  rw [htext, lines_cons hno, hhead, List.append_assoc, List.singleton_append,
    chomp_append (by decide) (hvalue (by decide))]
  rfl

/-- A line tells the value of its own series. -/
theorem valuesIn_sampleLine (hname : isPlain name = true) (hname' : isPlain name' = true)
    (hlabels : name = name' → labels.map Prod.fst = a.map Prod.fst)
    (hline : ∀ l ∈ a, '\n' ∉ l.1.toList) (value : Binary64) :
    valuesIn (sampleLine name' a value) name labels =
      if name = name' ∧ labels = a then [Binary64.plain.render value] else [] := by
  rw [valuesIn, lines_sampleLine hname' hline]
  by_cases hsame : name = name' ∧ labels = a
  · obtain ⟨rfl, rfl⟩ := hsame
    have hrest : stripStart (seriesText name labels).toList
        ((seriesText name labels).toList ++ (Binary64.plain.render value).toList) =
          some (Binary64.plain.render value).toList := stripStart_eq_some_iff.mpr rfl
    simp [hrest]
  · have hnone : stripStart (seriesText name labels).toList
        ((seriesText name' a).toList ++ (Binary64.plain.render value).toList) = none := by
      refine Option.eq_none_iff_forall_ne_some.mpr fun rest h => hsame ?_
      have hboth := (stripStart_eq_some_iff.mp h).symm
      obtain ⟨hn, hl, -⟩ := seriesText_append_inj hname hname' hlabels hboth
      exact ⟨hn, hl⟩
    simp [hnone, hsame]

/-! Families. -/

variable {help kind : String} {names : List String} {series : Series Binary64}

structure IsHeading (name help kind : String) (names : List String) : Prop where
  name : isPlain name = true
  help : isPlain help = true
  kind : isPlain kind = true
  names : names.all isPlain = true

theorem newline_not_mem_of_isPlain {x : String} (h : isPlain x = true) : '\n' ∉ x.toList :=
  fun hmem => (isPlain_iff.mp h _ hmem).1 rfl

theorem family_eq (h : series ≠ []) (name help kind : String) :
    family name help kind series =
      "#" ++ (" HELP " ++ name ++ " " ++ help) ++ "\n" ++
        ("#" ++ (" TYPE " ++ name ++ " " ++ kind) ++ "\n" ++
          String.join ((series.mergeSort fun a b => labelsLe a.1 b.1).map fun e =>
            sampleLine name e.1 e.2)) := by
  have hempty : series.isEmpty = false := by simpa using h
  apply String.toList_injective
  simp [family, hempty]

theorem isEnded_family (name help kind : String) (series : Series Binary64) :
    IsEnded (family name help kind series).toList := by
  rcases eq_or_ne series [] with rfl | hsome
  · exact .inl rfl
  · rw [family_eq hsome]
    refine isEnded_append (isEnded_newline _)
      (isEnded_append (isEnded_newline _) (isEnded_join fun x hx => ?_))
    obtain ⟨e, -, rfl⟩ := List.mem_map.mp hx
    exact isEnded_sampleLine name e.1 e.2

/-- The text of a family tells the values of its series. -/
theorem valuesIn_family (h : IsHeading name help kind names) (hseries : series.Proper names)
    (hname : isPlain name' = true) (hlabels : name' = name → labels.map Prod.fst = names) :
    valuesIn (family name help kind series) name' labels =
      if name' = name then ((series.find? labels).map Binary64.plain.render).toList else [] := by
  rcases eq_or_ne series [] with rfl | hsome
  · split <;> rfl
  let sorted := series.mergeSort fun a b => labelsLe a.1 b.1
  have hperm : sorted.Perm series := series.mergeSort_perm _
  have hhelp : '\n' ∉ (" HELP " ++ name ++ " " ++ help).toList := by
    simp [newline_not_mem_of_isPlain h.name, newline_not_mem_of_isPlain h.help]
  have hkind : '\n' ∉ (" TYPE " ++ name ++ " " ++ kind).toList := by
    simp [newline_not_mem_of_isPlain h.name, newline_not_mem_of_isPlain h.kind]
  have hlines : ∀ x ∈ sorted.map fun e => sampleLine name e.1 e.2, IsEnded x.toList := by
    intro x hx
    obtain ⟨e, -, rfl⟩ := List.mem_map.mp hx
    exact isEnded_sampleLine name e.1 e.2
  have hline (e : Labels × Binary64) (he : e ∈ sorted) :
      valuesIn (sampleLine name e.1 e.2) name' labels =
        if name' = name ∧ labels = e.1 then [Binary64.plain.render e.2] else [] := by
    have hnames := hseries.names e.1 (List.mem_map_of_mem (hperm.mem_iff.mp he))
    refine valuesIn_sampleLine hname h.name (fun heq => (hlabels heq).trans hnames.symm) ?_ e.2
    intro l hl
    have hmem : l.1 ∈ names := hnames ▸ List.mem_map_of_mem hl
    exact newline_not_mem_of_isPlain (List.all_eq_true.mp h.names l.1 hmem)
  rw [family_eq hsome, valuesIn_append (isEnded_newline _), valuesIn_append (isEnded_newline _),
    valuesIn_remark hhelp hname, valuesIn_remark hkind hname, valuesIn_join hlines,
    List.flatMap_map, List.flatMap_congr hline, List.nil_append, List.nil_append]
  by_cases hsame : name' = name
  · have hnodup : (Series.keys sorted).Nodup := (hperm.map Prod.fst).nodup_iff.mpr hseries.nodup
    simp only [hsame, true_and, if_true]
    rw [Series.flatMap_ite_eq hnodup, Series.find?_eq_of_perm hnodup hperm]
  · simp [hsame]

/-- The text of a family tells nothing of another one. -/
theorem valuesIn_other (h : IsHeading name help kind names) (hseries : series.Proper names)
    (hname : isPlain name' = true) (hother : name' ≠ name) :
    valuesIn (family name help kind series) name' labels = [] := by
  rw [valuesIn_family h hseries hname fun heq => absurd heq hother, if_neg hother]

theorem valuesIn_own (h : IsHeading name help kind names) (hseries : series.Proper names)
    (hlabels : labels.map Prod.fst = names) :
    valuesIn (family name help kind series) name labels =
      ((series.find? labels).map Binary64.plain.render).toList := by
  rw [valuesIn_family h hseries h.name fun _ => hlabels, if_pos rfl]

/-! What the text of all families tells of a job. -/

def countText (n : Nat) : String := Binary64.plain.render (.ofNat n)

theorem countText_of_le {n : Nat} (h : n ≤ Binary64.wholeLimit) : countText n = toString n :=
  Binary64.render_ofNat h

structure JobTexts where
  counter : Verdict → List String
  duration : List String
  interval : List String
  age : List String

def textsIn (text key : String) : JobTexts where
  counter v := valuesIn text "telemetry_agent_job_runs_total" (runLabels key v.name)
  duration := valuesIn text "telemetry_agent_job_duration_seconds" (keyLabel key)
  interval := valuesIn text "telemetry_agent_job_interval_seconds" (keyLabel key)
  age := valuesIn text "telemetry_agent_metric_age_seconds" (keyLabel key)

def JobNumbers.texts (n : JobNumbers) : JobTexts where
  counter v := ((n.counter v).map countText).toList
  duration := (n.duration.map Binary64.plain.render).toList
  interval := (n.interval.map Binary64.plain.render).toList
  age := (n.age.map Binary64.plain.render).toList

theorem JobNumbers.counter_texts (n : JobNumbers) (v : Verdict) :
    n.texts.counter v = ((n.counter v).map countText).toList := rfl

theorem isHeading_runs : IsHeading "telemetry_agent_job_runs_total"
    "Collector executions by outcome" "counter" ["key", "outcome"] := by
  constructor <;> decide

theorem isHeading_gauge {name help : String} (hname : isPlain name = true)
    (hhelp : isPlain help = true) : IsHeading name help "gauge" ["key"] :=
  ⟨hname, hhelp, by decide, by decide⟩

theorem valuesIn_encode (t : Telemetry) (name : String) (labels : Labels) :
    valuesIn t.encode name labels =
      valuesIn (family "telemetry_agent_job_duration_seconds"
          "Duration of the last collector execution" "gauge" t.durations) name labels ++
        valuesIn (family "telemetry_agent_job_interval_seconds" "Configured collector interval"
          "gauge" t.intervals) name labels ++
        valuesIn (family "telemetry_agent_job_runs_total" "Collector executions by outcome"
          "counter" (t.runs.map fun e => (e.1, .ofNat e.2))) name labels ++
        valuesIn (family "telemetry_agent_metric_age_seconds"
          "Seconds since the last successful sample" "gauge" t.ages) name labels := by
  have hended := isEnded_family
  rw [encode, valuesIn_append (isEnded_append (isEnded_append (hended _ _ _ _) (hended _ _ _ _))
    (hended _ _ _ _)), valuesIn_append (isEnded_append (hended _ _ _ _) (hended _ _ _ _)),
    valuesIn_append (hended _ _ _ _)]

/-- The text tells the numbers of each job, each once, and none of a job that has none. -/
theorem IsReached.textsIn_encode {t : Telemetry} (h : t.IsReached) (key : String) :
    textsIn t.encode key = (t.numbers key).texts := by
  have hdurations := h.proper feeds_durations
  have hintervals := h.proper feeds_intervals
  have hruns := (h.proper feeds_runs).map Binary64.ofNat
  have hages := h.proper feeds_ages
  have hgauge {name help : String} (hname : isPlain name = true) (hhelp : isPlain help = true) :=
    isHeading_gauge hname hhelp
  simp only [textsIn, JobNumbers.texts, JobTexts.mk.injEq, valuesIn_encode]
  refine ⟨funext fun v => ?_, ?_, ?_, ?_⟩
  · rw [valuesIn_other (hgauge (by decide) (by decide)) hdurations (by decide) (by decide),
      valuesIn_other (hgauge (by decide) (by decide)) hintervals (by decide) (by decide),
      valuesIn_own isHeading_runs hruns rfl,
      valuesIn_other (hgauge (by decide) (by decide)) hages (by decide) (by decide),
      Series.find?_map, Option.map_map]
    have hcount : Binary64.plain.render ∘ Binary64.ofNat = countText := by
      funext n
      rw [Function.comp_apply, countText]
    simp only [List.nil_append, List.append_nil, numbers, hcount]
  · rw [valuesIn_own (hgauge (by decide) (by decide)) hdurations rfl,
      valuesIn_other (hgauge (by decide) (by decide)) hintervals (by decide) (by decide),
      valuesIn_other isHeading_runs hruns (by decide) (by decide),
      valuesIn_other (hgauge (by decide) (by decide)) hages (by decide) (by decide)]
    simp only [List.append_nil, numbers]
  · rw [valuesIn_other (hgauge (by decide) (by decide)) hdurations (by decide) (by decide),
      valuesIn_own (hgauge (by decide) (by decide)) hintervals rfl,
      valuesIn_other isHeading_runs hruns (by decide) (by decide),
      valuesIn_other (hgauge (by decide) (by decide)) hages (by decide) (by decide)]
    simp only [List.nil_append, List.append_nil, numbers]
  · rw [valuesIn_other (hgauge (by decide) (by decide)) hdurations (by decide) (by decide),
      valuesIn_other (hgauge (by decide) (by decide)) hintervals (by decide) (by decide),
      valuesIn_other isHeading_runs hruns (by decide) (by decide),
      valuesIn_own (hgauge (by decide) (by decide)) hages rfl]
    simp only [List.nil_append, numbers]

end HostVitals.Report.Telemetry
