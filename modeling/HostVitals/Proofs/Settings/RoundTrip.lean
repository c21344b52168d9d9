import HostVitals.Proofs.Host.Writing
import HostVitals.Proofs.Json.RoundTrip
import HostVitals.Proofs.Settings.Shown
import HostVitals.Proofs.Toml.RoundTrip
import HostVitals.Proofs.Yaml.RoundTrip
import HostVitals.Settings.Resolution

/-! Settings that are written in a format and loaded again. JSON and YAML keep every number; in TOML a
number that needs more than 63 bits is written, but no text with it can be loaded. -/
namespace HostVitals.Settings

open Document (Shows)

variable {s : Settings} {f : Format} {files : FileTree} {path text : String}

def seconds (s : Settings) : List Nat :=
  s.shutdownTimeout.toList ++ MetricKind.all.flatMap fun k => (s.collectors k).interval.toList

theorem parse_json (hs : s.InRange) : parse .json (Json.pretty s.document) = some s := by
  obtain ⟨n, hn, hshows⟩ := Json.read_pretty (simple_document (fun _ _ => trivial) hs)
  rw [parse, hn]
  exact ofShape_of_shows hs hshows

/-! YAML. -/

theorem isKey_of_mem_keys {k : String} (hk : k ∈ keys) : Yaml.IsKey k := by
  have hall : ∀ k ∈ keys, k.toList.head?.any Yaml.isLetter = true ∧
      k.toList.all (fun c => Yaml.isLetter c || c = '_') = true ∧ k.toList.length ≤ 1024 ∧
      Yaml.styleOf k = .plain ∧ Yaml.isSimpleKey k = true := by decide +kernel
  obtain ⟨hhead, hchars, hshort, hstyle, hsimple⟩ := hall k hk
  refine ⟨⟨?_, by simpa using hchars, hshort⟩, hstyle, hsimple⟩
  cases h : k.toList with
  | nil => simp [h] at hhead
  | cons c cs => exact ⟨c, cs, rfl, by simpa [h] using hhead⟩

theorem parse_yaml (hs : s.InRange) : parse .yaml (Yaml.render s.document) = some s := by
  have hread : ∃ l, Yaml.read (Yaml.render s.document).toList = some l ∧
      ∃ n, l.root = some n ∧ Shows l.shape s.document n :=
    Yaml.read_render (simple_document (fun _ => isKey_of_mem_keys) hs)
  obtain ⟨l, hl, n, hn, hshows⟩ := hread
  rw [parse, hl]
  simp only [Option.bind_some, Yaml.Linked.rootShape, hn]
  exact ofShape_of_shows hs hshows

/-! TOML. -/

def singles (s : Settings) : List (String × Document) :=
  [("port", .opt .nat s.port), ("bind", .opt .text s.bind), ("enable_health", .opt .bool s.health),
    ("enable_telemetry", .opt .bool s.telemetry), ("log_level", .opt .text s.logLevel),
    ("shutdown_timeout_seconds", .opt .nat s.shutdownTimeout), ("enable_tls", .opt .bool s.tls),
    ("tls_cert_path", .opt .text s.certificate), ("tls_key_path", .opt .text s.key)]

def collectorEntries (c : CollectorSettings) : List (String × Document) :=
  [("enabled", .opt .bool c.enabled), ("interval_seconds", .opt .nat c.interval)]

def tables (s : Settings) : List (String × List (String × Document)) :=
  MetricKind.all.map fun k => (k.name, collectorEntries (s.collectors k))

theorem document_eq (s : Settings) : s.document =
    .table (s.singles ++ [("collectors", .table (s.tables.map fun t => (t.1, .table t.2)))]) := rfl

theorem isBareKey_of_mem_keys {k : String} (hk : k ∈ keys) : Toml.IsBareKey k := by
  have hall : ∀ k ∈ keys, k ≠ "" ∧ k.toList.all Toml.isBareKeyChar = true := by decide +kernel
  exact hall k hk

/-- What is left out is null. -/
theorem null_or_isSingle {α : Type} {f : α → Document} (hf : ∀ a, Toml.IsSingle (f a)) (v : Option α) :
    Document.opt f v = .null ∨ Toml.IsSingle (.opt f v) := by
  cases v with
  | none => exact .inl rfl
  | some a => exact .inr (hf a)

theorem isSingle_nat (n : Nat) : Toml.IsSingle (.nat n) := Int.natCast_nonneg n

theorem isFlat_singles (s : Settings) : Toml.IsFlat s.singles := by
  have hkeys : s.singles.map Prod.fst = keys.take 9 := rfl
  intro e he
  have hkey : e.1 ∈ keys := List.mem_of_mem_take (hkeys ▸ List.mem_map_of_mem he)
  refine ⟨isBareKey_of_mem_keys hkey, ?_⟩
  have hbool (v) := null_or_isSingle (f := .bool) (fun _ => trivial) v
  have htext (v) := null_or_isSingle (f := .text) (fun _ => trivial) v
  have hnat (v) := null_or_isSingle isSingle_nat v
  simp only [singles, List.mem_cons, List.not_mem_nil, or_false] at he
  rcases he with rfl | rfl | rfl | rfl | rfl | rfl | rfl | rfl | rfl
  exacts [hnat _, htext _, hbool _, hbool _, htext _, hnat _, hbool _, htext _, htext _]

theorem isFlat_collectorEntries (c : CollectorSettings) : Toml.IsFlat (collectorEntries c) := by
  have hbool (v) := null_or_isSingle (f := .bool) (fun _ => trivial) v
  have hnat (v) := null_or_isSingle isSingle_nat v
  have hkeys : (collectorEntries c).map Prod.fst = (keys.drop 10).take 2 := rfl
  intro e he
  have hkey : e.1 ∈ keys :=
    List.mem_of_mem_drop (List.mem_of_mem_take (hkeys ▸ List.mem_map_of_mem he))
  refine ⟨isBareKey_of_mem_keys hkey, ?_⟩
  simp only [collectorEntries, List.mem_cons, List.not_mem_nil, or_false] at he
  rcases he with rfl | rfl
  exacts [hbool _, hnat _]

theorem isFlat_tables (s : Settings) : ∀ t ∈ s.tables, Toml.IsBareKey t.1 ∧ Toml.IsFlat t.2 := by
  have hkeys : s.tables.map Prod.fst = keys.drop 12 := rfl
  intro t ht
  have hkey : t.1 ∈ keys := List.mem_of_mem_drop (hkeys ▸ List.mem_map_of_mem ht)
  obtain ⟨k, -, rfl⟩ := List.mem_map.mp ht
  exact ⟨isBareKey_of_mem_keys hkey, isFlat_collectorEntries _⟩

theorem nodup_tables (s : Settings) : (s.tables.map Prod.fst).Nodup := by
  have hkeys : s.tables.map Prod.fst = keys.drop 12 := rfl
  rw [hkeys]
  decide

def IsSigned (s : Settings) : Prop := ∀ n ∈ s.seconds, n ≤ Text.maxI64

instance : Decidable s.IsSigned := inferInstanceAs (Decidable (∀ n ∈ s.seconds, n ≤ Text.maxI64))

theorem isSigned_nat (v : Option Nat) :
    (∀ i, Document.opt .nat v = .int i → i.toNat ≤ Text.maxI64) ↔ ∀ n ∈ v, n ≤ Text.maxI64 := by
  cases v with
  | none => exact ⟨nofun, nofun⟩
  | some n =>
    refine ⟨fun h m hm => ?_, fun h i hi => ?_⟩
    · obtain rfl := Option.some_inj.mp hm
      exact h n rfl
    · obtain rfl := Document.int.inj hi
      exact h n rfl

theorem isSigned_of_ne_int {d : Document} (hd : ∀ i, d ≠ .int i) :
    (∀ i, d = .int i → i.toNat ≤ Text.maxI64) ↔ True :=
  iff_true_intro fun i hi => absurd hi (hd i)

theorem opt_bool_ne_int (v : Option Bool) (i : Int) : Document.opt .bool v ≠ .int i := by
  cases v <;> nofun

theorem opt_text_ne_int (v : Option String) (i : Int) : Document.opt .text v ≠ .int i := by
  cases v <;> nofun

/-- A port is never that large. -/
theorem isSigned_iff (hs : s.InRange) :
    (Toml.IsSigned s.singles ∧ ∀ t ∈ s.tables, Toml.IsSigned t.2) ↔ s.IsSigned := by
  have hport : ∀ n ∈ s.port, n ≤ Text.maxI64 := fun n hn =>
    Nat.le_trans (hs.port n hn) (by decide)
  have hbool (v) := isSigned_of_ne_int (opt_bool_ne_int v)
  have htext (v) := isSigned_of_ne_int (opt_text_ne_int v)
  have hsingles : Toml.IsSigned s.singles ↔ ∀ n ∈ s.shutdownTimeout, n ≤ Text.maxI64 := by
    simp only [Toml.IsSigned, singles, List.forall_mem_cons, hbool, htext, isSigned_nat,
      true_and, List.not_mem_nil, false_implies, implies_true, and_true]
    exact and_iff_right hport
  have hcollector (c : CollectorSettings) :
      Toml.IsSigned (collectorEntries c) ↔ ∀ n ∈ c.interval, n ≤ Text.maxI64 := by
    simp only [Toml.IsSigned, collectorEntries, List.forall_mem_cons, hbool, isSigned_nat, true_and,
      List.not_mem_nil, false_implies, implies_true, and_true]
  simp only [hsingles, tables, List.forall_mem_map, hcollector, IsSigned, seconds,
    List.forall_mem_append, List.mem_flatMap, Option.mem_toList, forall_exists_index, and_imp]
  exact and_congr_right fun _ => ⟨fun h n k hk hn => h k hk n hn, fun h k hk n hn => h n k hk hn⟩

theorem parse_toml (hs : s.InRange) (hsigned : s.IsSigned) :
    parse .toml (Toml.render s.document) = some s := by
  have hname : Toml.IsBareKey "collectors" := isBareKey_of_mem_keys (by decide)
  obtain ⟨n, hn, hshows⟩ := Toml.read_render_shows hname (isFlat_singles s)
    (isFlat_tables s) nofun (nodup_tables s) ((isSigned_iff hs).mpr hsigned)
  rw [parse, document_eq, hn]
  exact ofShape_of_shows hs hshows

theorem parse_toml_of_not_isSigned (hs : s.InRange) (hsigned : ¬s.IsSigned) :
    parse .toml (Toml.render s.document) = none := by
  have hname : Toml.IsBareKey "collectors" := isBareKey_of_mem_keys (by decide)
  have hread := Toml.read_render_eq_none hname (isFlat_singles s) (isFlat_tables s) nofun
    (nodup_tables s) (mt (isSigned_iff hs).mp hsigned)
  rw [parse, document_eq, hread]
  rfl

/-! All formats. -/

/-- Whether a format keeps settings: TOML loses those with a length of time of more than 63 bits. -/
def IsKept (f : Format) (s : Settings) : Prop := f = .toml → s.IsSigned

instance : Decidable (IsKept f s) := inferInstanceAs (Decidable (f = .toml → s.IsSigned))

theorem parse_render (hs : s.InRange) :
    parse f (f.render s.document) = if IsKept f s then some s else none := by
  cases f with
  | yaml => rw [if_pos nofun, Format.render, parse_yaml hs]
  | json => rw [if_pos nofun, Format.render, parse_json hs]
  | toml =>
    rw [Format.render]
    split
    · next hkept => exact parse_toml hs (hkept rfl)
    · next hkept => exact parse_toml_of_not_isSigned hs fun hsigned => hkept fun _ => hsigned

theorem load_of_read (hread : (files.read path).1 = .ok text) :
    (load files (some path)).1 = match parse (formatOfPath path) text with
      | some s => .ok s
      | none => .error (.malformed (formatOfPath path)) := by
  have hthere : files.exists? path = true := by
    unfold FileTree.read at hread
    unfold FileTree.exists?
    split at hread
    · cases hread
    · rename_i h
      rw [h]
  cases hparse : parse (formatOfPath path) text with
  | none => simp [load, file?, hthere, hread, hparse]
  | some s => simp [load, file?, hthere, hread, hparse]

/-- A file whose name means a format and that holds the text of settings in this format gives these
settings when it is loaded, if the format keeps them. -/
theorem load_rendered (hs : s.InRange) (hpath : formatOfPath path = f)
    (hread : (files.read path).1 = .ok (f.render s.document)) :
    (load files (some path)).1 = if IsKept f s then .ok s else .error (.malformed f) := by
  rw [load_of_read hread, hpath, parse_render hs]
  by_cases hkept : IsKept f s
  · rw [if_pos hkept, if_pos hkept]
  · rw [if_neg hkept, if_neg hkept]

def lone (path text : String) : FileTree := .holding {} path text

theorem read_lone (text : String) : ((lone "agent.yml" text).read "agent.yml").1 = .ok text ∧
    ((lone "agent.toml" text).read "agent.toml").1 = .ok text :=
  ⟨FileTree.read_of_write (FileTree.write_empty (p := "agent.yml")
      ⟨by decide, by decide, by decide, by decide⟩ rfl (by decide) (by decide) (by decide) text),
    FileTree.read_of_write (FileTree.write_empty (p := "agent.toml")
      ⟨by decide, by decide, by decide, by decide⟩ rfl (by decide) (by decide) (by decide) text)⟩

def sparse : Settings := { shutdownTimeout := some 30, key := some "~: #'\n" }

theorem load_rendered_sparse :
    (load (lone "agent.yml" (Format.yaml.render sparse.document)) (some "agent.yml")).1 =
      .ok sparse :=
  load_rendered (f := .yaml) ⟨nofun, by decide, nofun⟩ rfl (read_lone _).1

/-- A file in TOML with more seconds than 63 bits can count is written and cannot be loaded. -/
theorem not_loads_rendered : ¬∀ (f : Format) (s : Settings) (files : FileTree) (path : String),
    s.InRange → formatOfPath path = f → (files.read path).1 = .ok (f.render s.document) →
      (load files (some path)).1 = .ok s := by
  intro h
  have hrange : ({ shutdownTimeout := some Text.maxU64 } : Settings).InRange :=
    ⟨nofun, by decide, nofun⟩
  have hload := h .toml _ _ "agent.toml" hrange rfl (read_lone _).2
  rw [load_of_read (read_lone _).2, show formatOfPath "agent.toml" = .toml from rfl, Format.render,
    parse_toml_of_not_isSigned hrange (by decide)] at hload
  cases hload

end HostVitals.Settings
