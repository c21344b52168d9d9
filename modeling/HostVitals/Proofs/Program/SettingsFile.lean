import HostVitals.Program.SettingsFile
import HostVitals.Proofs.Settings.Formats

/-! The file with the standard settings, loaded again. The text is in the format that was asked for, and
it is read in the format that the name of the file means: nothing keeps the two together. -/
namespace HostVitals.Program

open Settings (parse load formatOfPath file? standard standardPaths)

variable {files after : FileTree} {output : Option String} {format reader written : Format}
  {commented : Bool} {path : String}

/-! The explanation consists of remarks. -/

theorem isRemark_explanation :
    ∀ line ∈ Text.splitNewlines explanation.toList, Yaml.IsRemark line := by
  unfold explanation
  rw [String.toList_ofList]
  decide +kernel

theorem head_explanation : ∃ r, explanation.toList = '#' :: r := by
  unfold explanation
  rw [String.toList_ofList]
  exact ⟨_, rfl⟩

def remarks (commented : Bool) : List (List Char) :=
  if commented then Text.splitNewlines explanation.toList else []

theorem isRemark_remarks : ∀ line ∈ remarks commented, Yaml.IsRemark line := by
  cases commented with
  | false =>
    rw [remarks, if_neg Bool.false_ne_true]
    nofun
  | true =>
    rw [remarks, if_pos rfl]
    exact isRemark_explanation

/-- Nothing is explained unless this is asked for, and only in YAML. -/
theorem settingsText_plain (h : commented = false ∨ format ≠ .yaml) :
    settingsText format commented = format.render standard.document := by
  have hplain : ¬(commented && format = .yaml) = true := by
    rcases h with rfl | h
    · exact Bool.false_ne_true
    · simp [h]
  exact if_neg hplain

theorem toList_settingsText : (settingsText .yaml commented).toList =
    Yaml.linesChars (remarks commented) ++ (Yaml.render standard.document).toList := by
  cases commented with
  | false =>
    have hnone : Yaml.linesChars (remarks false) = [] := rfl
    rw [hnone, settingsText_plain (.inl rfl), List.nil_append, Format.render]
  | true =>
    rw [remarks, if_pos rfl, Yaml.linesChars_splitNewlines]
    simp [settingsText, Format.render]

theorem head_settingsText :
    ∃ c r, (settingsText .yaml commented).toList = c :: r ∧ (c = 'p' ∨ c = '#') := by
  cases commented with
  | false =>
    obtain ⟨r, hr⟩ := Settings.toList_yaml standard
    rw [settingsText_plain (.inl rfl)]
    exact ⟨'p', _, hr, .inl rfl⟩
  | true =>
    obtain ⟨r, hr⟩ := head_explanation
    exact ⟨'#', _, by simp [settingsText, Format.render, hr]; rfl, .inr rfl⟩

def IsReadBy (reader written : Format) : Prop := reader = written ∨ reader = .yaml ∧ written = .json

instance : Decidable (IsReadBy reader written) :=
  inferInstanceAs (Decidable (reader = written ∨ reader = .yaml ∧ written = .json))

theorem parse_settingsText :
    parse reader (settingsText written commented) =
      if IsReadBy reader written then some standard else none := by
  have hrange := Settings.inRange_standard
  cases written with
  | yaml =>
    cases reader with
    | yaml => exact Settings.parse_yaml_remarks isRemark_remarks hrange toList_settingsText
    | json =>
      obtain ⟨c, r, hr, hc⟩ := head_settingsText
      exact Settings.parse_json_of_head hc hr
    | toml => exact Settings.parse_toml_remarks isRemark_remarks toList_settingsText
  | json =>
    rw [settingsText_plain (.inr (by decide))]
    cases reader with
    | yaml => exact Settings.parse_yaml_json
    | json => exact Settings.parse_json hrange
    | toml => exact Settings.parse_toml_json standard
  | toml =>
    rw [settingsText_plain (.inr (by decide))]
    cases reader with
    | yaml => exact Settings.parse_yaml_toml
    | json => exact Settings.parse_json_toml rfl
    | toml => exact Settings.parse_toml hrange (by decide)

/-! The file. -/

def loaded (reader written : Format) : Except LoadFault Settings :=
  if IsReadBy reader written then .ok standard else .error (.malformed reader)

theorem load_settingsText (hread : (files.read path).1 = .ok (settingsText written commented)) :
    (load files (some path)).1 = loaded (formatOfPath path) written := by
  rw [Settings.load_of_read hread, parse_settingsText, loaded]
  by_cases h : IsReadBy (formatOfPath path) written
  · rw [if_pos h, if_pos h]
  · rw [if_neg h, if_neg h]

theorem exists_write (houtput : output ≠ some "-")
    (hwritten : (writeSettings files output format commented).result = .ok ()) :
    files.write (output.getD standardOutput) (settingsText format commented) =
      .ok (writeSettings files output format commented).files := by
  have hpath : output.getD standardOutput ≠ "-" := by
    cases output with
    | none => decide
    | some path => exact fun h => houtput (congrArg some h)
  unfold writeSettings at hwritten ⊢
  simp only [if_neg hpath] at hwritten ⊢
  split at hwritten
  next h => simp only [h]
  next => cases hwritten

/-- The standard name leads to the same place with and without a dot before it. -/
theorem find_standardOutput (files : FileTree) :
    files.find "./herakles-telemetry-agent.yaml" = files.find standardOutput := by
  have hname : FileTree.NamesFile standardOutput := ⟨by decide, by decide, by decide, by decide⟩
  have hdot : FileTree.NamesFile "./herakles-telemetry-agent.yaml" :=
    ⟨by decide, by decide, by decide, by decide⟩
  rw [FileTree.find_of_namesFile hname, FileTree.find_of_namesFile hdot]
  rfl

theorem load_of_file? (h : file? files none = some path) :
    load files none = load files (some path) := by
  have hthere : files.exists? path = true := List.find?_some h
  have hsame : file? files (some path) = some path := if_pos hthere
  rw [load, load, h, hsame]

/-- Settings that were written are loaded under the name of the file as that name asks for. The file
with the standard name is found from then on, where there is none in the directory of the system. -/
theorem load_written (houtput : output ≠ some "-")
    (hwritten : (writeSettings files output format commented).result = .ok ()) :
    let after := (writeSettings files output format commented).files
    let path := output.getD standardOutput
    (load after (some path)).1 = loaded (formatOfPath path) format ∧
      (output = none → (∀ p ∈ standardPaths.take 3, after.exists? p = false) →
        (load after none).1 = loaded .yaml format) := by
  intro after path
  have hfind : after.find path = .ok (.text (settingsText format commented)) :=
    FileTree.find_of_write (exists_write houtput hwritten)
  refine ⟨load_settingsText (FileTree.read_of_find hfind), fun hnone hsystem => ?_⟩
  have hpath : path = standardOutput := by simp [path, hnone]
  have hlocal : after.find "./herakles-telemetry-agent.yaml" =
      .ok (.text (settingsText format commented)) := by
    rw [find_standardOutput, ← hpath, hfind]
  have hthere : after.exists? "./herakles-telemetry-agent.yaml" = true := by
    rw [FileTree.exists?, hlocal]
  have hfile : file? after none = some "./herakles-telemetry-agent.yaml" := by
    simp only [standardPaths, List.take_succ_cons, List.take_zero, List.forall_mem_cons] at hsystem
    obtain ⟨hyaml, hyml, hjson, -⟩ := hsystem
    simp only [file?, standardPaths, List.find?_cons, hyaml, hyml, hjson]
    rw [hthere]
  rw [load_of_file? hfile]
  exact load_settingsText (FileTree.read_of_find hlocal)

/-- In an empty directory the file can be written under its standard name. -/
theorem writeSettings_empty : writeSettings {} none format commented = {
    out := "✅ Configuration written to: herakles-telemetry-agent.yaml\n"
    files := .holding {} standardOutput (settingsText format commented) } := by
  have hnew : ({} : FileTree).write standardOutput (settingsText format commented) =
      .ok (.holding {} standardOutput (settingsText format commented)) :=
    FileTree.write_empty (p := standardOutput) ⟨by decide, by decide, by decide, by decide⟩ rfl
      (by decide) (by decide) (by decide) _
  have hpath : (none : Option String).getD standardOutput ≠ "-" := by decide
  simp only [writeSettings, if_neg hpath]
  rw [Option.getD_none, hnew]
  rfl

/-- With explanations in an empty directory. -/
theorem load_written_in_empty_directory :
    let after := (writeSettings {} none .yaml true).files
    (load after (some standardOutput)).1 = .ok standard ∧ (load after none).1 = .ok standard := by
  intro after
  have hafter : after = .holding {} standardOutput (settingsText .yaml true) :=
    congrArg Effects.files writeSettings_empty
  have hsystem : ∀ p ∈ standardPaths.take 3, after.exists? p = false := by
    rw [hafter]
    decide +kernel
  have hresult : (writeSettings {} none .yaml true).result = .ok () :=
    congrArg Effects.result writeSettings_empty
  have hload := load_written (by decide) hresult
  exact ⟨hload.1, hload.2 rfl hsystem⟩

/-- A file in TOML gets a name that means YAML, unless it is given another one. -/
theorem not_loads_written : ¬∀ (files : FileTree) (output : Option String) (format : Format)
    (commented : Bool), output ≠ some "-" →
      (writeSettings files output format commented).result = .ok () →
        (load (writeSettings files output format commented).files
          (some (output.getD standardOutput))).1 = .ok standard := by
  intro h
  have hresult : (writeSettings {} none .toml false).result = .ok () :=
    congrArg Effects.result writeSettings_empty
  have hread := FileTree.read_of_write (exists_write (by decide) hresult)
  have hload := h {} none .toml false nofun hresult
  rw [load_settingsText hread] at hload
  cases hload

end HostVitals.Program
