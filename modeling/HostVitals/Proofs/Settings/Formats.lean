import HostVitals.Proofs.Settings.RoundTrip
import HostVitals.Proofs.Yaml.Prose
import HostVitals.Proofs.Yaml.Remarks
import Mathlib.Data.Fintype.Pi

/-! Settings that are written in one format and read in another. Only a reader of YAML takes another
format than its own, which is JSON. -/
namespace HostVitals

variable {c : Char} {r : List Char} {ls : List (List Char)} {fuel : Nat} {k : String}

/-! A reader of JSON stops at the first letter or number sign. -/

theorem Json.read_of_head (hc : c = 'p' ∨ c = '#') (r : List Char) : Json.read (c :: r) = none := by
  rcases hc with rfl | rfl <;> simp [Json.read, Json.takeValue, Json.skipSpace, Json.isSpace,
    Json.takeNumber, Json.takeDigits]

/-! A reader of TOML stops at a brace, and at the colon behind a key. -/

namespace Toml

theorem read_brace (r : List Char) : read ('\x7b' :: r) = none := by
  simp [read, foldBreaks, readSections, skipLines, skipBlanks, isBlank, takeEntry, takePath,
    takeKey, takeBare, isBare]

theorem isShown_of_isAllowed (hc : Yaml.isAllowed c = true) (hbreak : Yaml.isBreak c = false) :
    isShown c = true := by
  simp only [Yaml.isBreak, Bool.or_eq_false_iff, decide_eq_false_iff_not] at hbreak
  obtain ⟨⟨⟨⟨hreturn, hnewline⟩, -⟩, -⟩, -⟩ := hbreak
  simp only [isShown, Bool.or_eq_true, decide_eq_true_eq]
  by_cases htab : c = '\t'
  · exact .inl htab
  · simp only [Yaml.isAllowed, htab, hreturn, hnewline, decide_false, Bool.false_or, Bool.or_eq_true,
      Bool.and_eq_true, decide_eq_true_eq, beq_iff_eq] at hc
    exact .inr (by omega)

theorem endLine_remark {line : List Char}
    (hline : ∀ c ∈ line, Yaml.isBreak c = false ∧ Yaml.isAllowed c = true) (r : List Char) :
    endLine ('#' :: (line ++ '\n' :: r)) = some r := by
  have hshown : ∀ c ∈ line, isShown c = true := fun c hc =>
    isShown_of_isAllowed (hline c hc).2 (hline c hc).1
  have hnewline : isShown '\n' = false := by decide
  simp [endLine, List.dropWhile_append_of_pos hshown, hnewline]

theorem skipLines_remarks (hls : ∀ line ∈ ls, Yaml.IsRemark line) (hc : isBare c = true) (r : List Char)
    (hfuel : ls.length < fuel) :
    skipLines fuel (Yaml.linesChars ls ++ c :: r) = some (c :: r) := by
  induction ls generalizing fuel with
  | nil =>
    obtain ⟨fuel, rfl⟩ := Nat.exists_eq_succ_of_ne_zero (Nat.ne_of_gt hfuel)
    exact skipLines_of_isBare hc fuel r
  | cons line ls ih =>
    obtain ⟨fuel, rfl⟩ := Nat.exists_eq_succ_of_ne_zero (Nat.ne_of_gt (Nat.zero_lt_of_lt hfuel))
    have hrest := ih (fun line hline => hls line (List.mem_cons_of_mem _ hline))
      (Nat.lt_of_succ_lt_succ hfuel)
    obtain ⟨hhead, hline⟩ := hls line List.mem_cons_self
    have htext : Yaml.linesChars (line :: ls) ++ c :: r =
        line ++ '\n' :: (Yaml.linesChars ls ++ c :: r) := by simp [Yaml.linesChars]
    rw [htext]
    cases line with
    | nil => simpa [skipLines, skipBlanks, isBlank] using hrest
    | cons d line =>
      obtain rfl : d = '#' := hhead d rfl
      have hend := endLine_remark (fun c hc => hline c (List.mem_cons_of_mem _ hc))
        (Yaml.linesChars ls ++ c :: r)
      rw [List.cons_append, skipLines, skipBlanks_of_head (by decide)]
      simpa [hend] using hrest

theorem takeEntry_colon (hk : IsBareKey k) (r : List Char) :
    takeEntry (k.toList ++ ':' :: r) = none := by
  have hpath : takePath ((k.toList ++ ':' :: r).length + 1) (k.toList ++ ':' :: r) =
      some ([k], ':' :: r) :=
    takePath_last hk (by simp [isBare]) (skipBlanks_of_head (by decide) r) (by decide)
  rw [takeEntry, hpath]
  rfl

theorem read_colon (hls : ∀ line ∈ ls, Yaml.IsRemark line) (hk : IsBareKey k) (r : List Char) :
    read (Yaml.linesChars ls ++ (k.toList ++ ':' :: r)) = none := by
  obtain ⟨c, cs, hcs, hc⟩ := exists_head_of_isBareKey hk
  have hne {d : Char} (hd : isBare d = false) : c ≠ d := by
    rintro rfl
    exact Bool.false_ne_true (hd.symm.trans hc)
  have hbreaks : '\r' ∉ Yaml.linesChars ls ++ (k.toList ++ [':']) := by
    simp [Yaml.not_mem_linesChars hls, not_mem_of_isBareKey hk (c := '\r') (by decide)]
  have hfold : foldBreaks (Yaml.linesChars ls ++ (k.toList ++ ':' :: r)) =
      Yaml.linesChars ls ++ (k.toList ++ ':' :: foldBreaks r) := by
    simpa using foldBreaks_append hbreaks r
  have hmark := Yaml.head?_linesChars_ne (r := k.toList ++ ':' :: foldBreaks r) hls
    (by simpa [hcs] using hne (by decide))
  have hlength := Yaml.length_le_linesChars ls
  have hskip := skipLines_remarks hls hc (cs ++ ':' :: foldBreaks r)
    (by simp only [List.length_append]; omega :
      ls.length < (Yaml.linesChars ls ++ (k.toList ++ ':' :: foldBreaks r)).length + 1)
  have hentry := takeEntry_colon hk (foldBreaks r)
  rw [hcs, List.cons_append] at hfold hmark hskip hentry
  simp only [read, hcs, List.cons_append, hfold, if_neg hmark, readSections, hskip, Option.bind_eq_bind,
    Option.bind_some]
  split
  next heq => exact absurd heq (List.cons_ne_nil _ _)
  next heq => exact absurd (List.cons.inj heq).1 (hne (d := '[') (by decide))
  next => rw [hentry]; rfl

end Toml

instance : Fintype MetricKind := ⟨⟨MetricKind.all, by decide⟩, fun k => by cases k <;> decide⟩

attribute [ext] Settings

namespace Settings

variable {s : Settings} {port : Nat} {text : String}

instance : DecidableEq Settings := fun _ _ => decidable_of_iff _ Settings.ext_iff.symm

/-! Settings in the three formats. -/

theorem toList_json (s : Settings) : ∃ r, (Json.pretty s.document).toList = '\x7b' :: r :=
  ⟨_, Json.prettyAt_table 0 _ _ _⟩

theorem toList_yaml (s : Settings) :
    ∃ r, (Yaml.render s.document).toList = "port".toList ++ ':' :: r := by
  have hkey : Yaml.keyChars 0 "port" = ("port".toList ++ [':'], true) :=
    Yaml.keyChars_eq (isKey_of_mem_keys (by decide)) 0
  rw [document, Yaml.render_table, Yaml.entriesChars, hkey]
  exact ⟨_, by simp [Yaml.Place.lead, Yaml.margin]; rfl⟩

theorem toList_toml (s : Settings) : (Toml.render s.document).toList =
    Toml.lines s.singles ++ Toml.tablesChars "collectors" false s.tables :=
  Toml.render_tables (isFlat_singles s) (fun t ht => (isFlat_tables s t ht).2) nofun

theorem head_toml (hport : s.port = some port) :
    ∃ r, (Toml.render s.document).toList = 'p' :: r := by
  rw [toList_toml, singles, hport, Document.opt, Toml.lines_single (isSingle_nat port)]
  exact ⟨_, rfl⟩

/-! Settings in YAML may have remarks before them. -/

theorem parse_yaml_remarks (hls : ∀ line ∈ ls, Yaml.IsRemark line) (hs : s.InRange)
    (htext : text.toList = Yaml.linesChars ls ++ (Yaml.render s.document).toList) :
    parse .yaml text = some s := by
  obtain ⟨l, hl, n, hn, hshows⟩ :=
    Yaml.read_remarks hls (simple_document (fun _ => isKey_of_mem_keys) hs)
  rw [parse, htext, document, hl]
  simp only [Option.bind_some, Yaml.Linked.rootShape, hn]
  exact ofShape_of_shows hs hshows

theorem parse_toml_remarks (hls : ∀ line ∈ ls, Yaml.IsRemark line)
    (htext : text.toList = Yaml.linesChars ls ++ (Yaml.render s.document).toList) :
    parse .toml text = none := by
  obtain ⟨r, hr⟩ := toList_yaml s
  rw [parse, htext, hr, Toml.read_colon hls (isBareKey_of_mem_keys (by decide))]
  rfl

theorem parse_json_of_head (hc : c = 'p' ∨ c = '#') (htext : text.toList = c :: r) :
    parse .json text = none := by
  rw [parse, htext, Json.read_of_head hc]
  rfl

theorem parse_json_toml (hport : s.port = some port) :
    parse .json (Toml.render s.document) = none := by
  obtain ⟨r, hr⟩ := head_toml hport
  exact parse_json_of_head (.inl rfl) hr

theorem parse_toml_json (s : Settings) : parse .toml (Json.pretty s.document) = none := by
  obtain ⟨r, hr⟩ := toList_json s
  rw [parse, hr, Toml.read_brace]
  rfl

/-! The standard settings. -/

theorem inRange_standard : standard.InRange :=
  ⟨by decide, by decide, by decide⟩

theorem parse_yaml_json : parse .yaml (Json.pretty standard.document) = some standard := by
  rw [parse, Json.pretty, document]
  simp only [Json.prettyAt_table, Json.moreEntries, MetricKind.all, List.map_cons, List.map_nil,
    collectorDocument]
  decide +kernel

/-- Without colons the text is no table. -/
theorem parse_yaml_toml : parse .yaml (Toml.render standard.document) = none := by
  obtain ⟨r, hr⟩ := head_toml (s := standard) rfl
  have hprose : Yaml.IsProse ('p' :: r) ∧ Yaml.AllAllowed ('p' :: r) := by
    rw [← hr, toList_toml]
    exact Yaml.isProse_of_tails (by decide +kernel)
  obtain ⟨l, t, hread, ht, hshape⟩ := Yaml.read_prose hprose.1 (by decide) hprose.2
  rw [parse, hr, hread, Option.bind_some, hshape]
  simp [ofShape, Shape.record, Yaml.Linked.scalarShape, ht]

end Settings
end HostVitals
