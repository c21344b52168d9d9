import HostVitals.Collect.Temperatures
import HostVitals.Proofs.Collect.Run
import HostVitals.Proofs.Host.Openings
import HostVitals.Proofs.Named
import Mathlib.Data.Finset.Card

/-! Which temperature sensors are told of. Each is read once, and its value stays under its name until
another sensor of the same name is read. -/
namespace HostVitals

inductive Sensor where
  | zone (name : String)
  | chip (chip file : String)
deriving DecidableEq, Repr

namespace Sensor
variable {s s' : Sensor}

def path : Sensor → String
  | zone z => Collecting.thermalBase ++ "/" ++ z ++ "/temp"
  | chip c f => Collecting.chipBase ++ "/" ++ c ++ "/" ++ f

def parts : Sensor → List String
  | zone z => ["sys", "class", "thermal", z, "temp"]
  | chip c f => ["sys", "class", "hwmon", c, f]

theorem path_eq (s : Sensor) : s.path = FileTree.pathOf s.parts := by
  rw [← String.toList_inj, FileTree.toList_pathOf]
  cases s <;> simp [path, parts, Collecting.thermalBase, Collecting.chipBase, List.intercalate]

theorem chipPath_eq (c : String) :
    Collecting.chipBase ++ "/" ++ c = FileTree.pathOf ["sys", "class", "hwmon", c] := by
  rw [← String.toList_inj, FileTree.toList_pathOf]
  simp [Collecting.chipBase, List.intercalate]

theorem eq_of_prefix (h : s.parts <+: s'.parts) : s = s' := by
  cases s <;> cases s' <;> simp_all [parts, List.cons_prefix_cons]

theorem length_parts (s : Sensor) : s.parts.length = 5 := by cases s <;> rfl

def IsProper (s : Sensor) : Prop := ∀ n ∈ s.parts, FileTree.IsName n

theorem isProper_zone {z : String} (h : FileTree.IsName z) : (zone z).IsProper := by
  have hrest : ∀ n ∈ ["sys", "class", "thermal", "temp"], FileTree.IsName n := by decide
  simp_all [IsProper, parts]

theorem isProper_chip {c f : String} (hc : FileTree.IsName c) (hf : FileTree.IsName f) :
    (chip c f).IsProper := by
  have hrest : ∀ n ∈ ["sys", "class", "hwmon"], FileTree.IsName n := by decide
  simp_all [IsProper, parts]

end Sensor

namespace FileTree
variable {t t' : FileTree} {visited : List Sensor} {s : Sensor} {c z : String}

def degreesAt (t : FileTree) (path : String) : Option Binary64 :=
  (t.read path).1.toOption.bind fun text =>
    (Text.i64? (Text.trim text.toList)).map fun n => Binary64.div (.ofInt n) (.ofNat 1000)

def zones (t : FileTree) : List String :=
  (t.listed Collecting.thermalBase).filter fun n => Text.startsWith "thermal_zone".toList n.toList

def chips (t : FileTree) : List String :=
  (t.listed Collecting.chipBase).filter fun n => Text.startsWith "hwmon".toList n.toList

def chipSensors (t : FileTree) (c : String) : List Sensor :=
  ((t.listed (Collecting.chipBase ++ "/" ++ c)).filter Collecting.isTemperature).map (.chip c)

def sensors (t : FileTree) : List Sensor := t.zones.map .zone ++ t.chips.flatMap t.chipSensors

def chipName (t : FileTree) (c : String) : String :=
  match (t.read (Collecting.chipBase ++ "/" ++ c ++ "/name")).1 with
  | .ok s => String.ofList (Text.trim s.toList)
  | .error _ => c

def sensorName (t : FileTree) : Sensor → String
  | .zone z => z
  | .chip c f => t.chipName c ++ "_" ++ f

def readings (t : FileTree) (l : List Sensor) : List (String × Binary64) :=
  l.filterMap fun s => (t.degreesAt s.path).map fun v => (t.sensorName s, v)

theorem readings_append (t : FileTree) (l l' : List Sensor) :
    t.readings (l ++ l') = t.readings l ++ t.readings l' := List.filterMap_append

theorem isName_of_mem_zones (h : z ∈ t.zones) : IsName z := by
  obtain ⟨hlisted, hstart⟩ := List.mem_filter.mp h
  exact isName_of_startsWith (by decide) hstart (noSlash_of_mem_listed hlisted)

theorem isName_of_mem_chips (h : c ∈ t.chips) : IsName c := by
  obtain ⟨hlisted, hstart⟩ := List.mem_filter.mp h
  exact isName_of_startsWith (by decide) hstart (noSlash_of_mem_listed hlisted)

theorem mem_chipSensors : s ∈ t.chipSensors c ↔ ∃ f, s = .chip c f ∧
    f ∈ t.listed (Collecting.chipBase ++ "/" ++ c) ∧ Collecting.isTemperature f = true := by
  rw [chipSensors, List.mem_map]
  simp only [List.mem_filter, and_comm, eq_comm (a := s)]

theorem isProper_of_mem_chipSensors (hc : IsName c) (h : s ∈ t.chipSensors c) : s.IsProper := by
  obtain ⟨f, rfl, hlisted, hfile⟩ := mem_chipSensors.mp h
  rw [Collecting.isTemperature, Bool.and_eq_true] at hfile
  have hf := isName_of_startsWith (by decide) hfile.1 (noSlash_of_mem_listed hlisted)
  exact Sensor.isProper_chip hc hf

theorem nodup_chipSensors (t : FileTree) (c : String) : (t.chipSensors c).Nodup :=
  ((nodup_listed t _).filter _).map fun _ _ h => (Sensor.chip.inj h).2

theorem nodup_sensors (t : FileTree) : t.sensors.Nodup := by
  have hzones : (t.zones.map Sensor.zone).Nodup :=
    ((nodup_listed t _).filter _).map fun _ _ h => Sensor.zone.inj h
  have hchips : (t.chips.flatMap t.chipSensors).Nodup := by
    rw [List.nodup_flatMap]
    refine ⟨fun c _ => t.nodup_chipSensors c, ((nodup_listed t _).filter _).imp fun hne => ?_⟩
    intro s hs hs'
    obtain ⟨f, rfl, -⟩ := mem_chipSensors.mp hs
    obtain ⟨f', hs', -⟩ := mem_chipSensors.mp hs'
    exact hne (Sensor.chip.inj hs').1
  refine List.Nodup.append hzones hchips fun s hs hs' => ?_
  obtain ⟨z, -, rfl⟩ := List.mem_map.mp hs
  obtain ⟨c, -, hs'⟩ := List.mem_flatMap.mp hs'
  obtain ⟨f, hs', -⟩ := mem_chipSensors.mp hs'
  cases hs'

/-- What the tree has become when some files have been read: the others are found as before, and the
directories. -/
structure After (t : FileTree) (visited : List Sensor) (t' : FileTree) : Prop where
  keys : t'.files.keys = t.files.keys
  sensor : ∀ s : Sensor, s.IsProper → s ∉ visited → t'.find s.path = t.find s.path
  above : ∀ qs, (∀ n ∈ qs, IsName n) → qs.length < 5 → t'.find (pathOf qs) = t.find (pathOf qs)

namespace After
variable (h : t.After visited t')
include h

theorem mono {visited' : List Sensor} (hsub : visited ⊆ visited') : t.After visited' t' :=
  ⟨h.keys, fun s hs hnew => h.sensor s hs fun hmem => hnew (hsub hmem), h.above⟩

theorem read (hs : s.IsProper) : t.After (s :: visited) (t'.read s.path).2 := by
  refine ⟨(keys_read t' _).trans h.keys, fun s' hs' hnew => ?_, fun qs hqs hlength => ?_⟩
  · rw [List.mem_cons, not_or] at hnew
    have hapart : ¬ s.parts <+: s'.parts := fun hprefix => hnew.1 (Sensor.eq_of_prefix hprefix).symm
    rw [← h.sensor s' hs' hnew.2, s.path_eq, s'.path_eq, find_read hs hs' hapart]
  · have hapart : ¬ s.parts <+: qs := by
      intro hprefix
      have hle := hprefix.length_le
      rw [s.length_parts] at hle
      omega
    rw [← h.above qs hqs hlength, s.path_eq, find_read hs hqs hapart]

theorem read_fst (hs : s.IsProper) (hnew : s ∉ visited) : (t'.read s.path).1 = (t.read s.path).1 := by
  rw [FileTree.read, FileTree.read, h.sensor s hs hnew]
  split <;> rfl

theorem list {qs : List String} (hqs : ∀ n ∈ qs, IsName n) (hlength : qs.length < 5) :
    t'.list (pathOf qs) = t.list (pathOf qs) := by
  rw [FileTree.list, FileTree.list, h.above qs hqs hlength]
  simp only [names, h.keys]

theorem list_chip (hc : IsName c) : t'.list (Collecting.chipBase ++ "/" ++ c) =
    t.list (Collecting.chipBase ++ "/" ++ c) := by
  have hrest : ∀ n ∈ ["sys", "class", "hwmon"], IsName n := by decide
  rw [Sensor.chipPath_eq]
  exact h.list (by simp_all) (by simp)

end After

theorem After.refl (t : FileTree) : t.After [] t := ⟨rfl, fun _ _ _ => rfl, fun _ _ _ => rfl⟩

end FileTree

namespace Collecting
variable {p : Probe} {t : FileTree} {visited : List Sensor} {found : Named Binary64}

theorem run_degrees (path : String) (p : Probe) : (degrees path).run p =
    (.ok (p.files.degreesAt path), { p with files := (p.files.read path).2 }) := by
  rw [degrees, fileOrNone, run_bind, run_bind, run_file?, FileTree.degreesAt]
  cases (p.files.read path).1 <;> rfl

theorem run_chipName (c : String) (p : Probe) : (chipName (chipBase ++ "/" ++ c) c).run p =
    (.ok (p.files.chipName c),
      { p with files := (p.files.read (chipBase ++ "/" ++ c ++ "/name")).2 }) := by
  rw [chipName, run_bind, run_file?, FileTree.chipName]
  cases (p.files.read (chipBase ++ "/" ++ c ++ "/name")).1 <;> rfl

theorem run_directory (path : String) (p : Probe) :
    (directory path).run p = (.ok (p.files.list path), p) := rfl

/-- Sensors that have not been visited yet are told as the tree has them. -/
theorem run_sensors {l : List Sensor} (h : t.After visited p.files) (hnodup : l.Nodup)
    (hproper : ∀ s ∈ l, s.IsProper) (hnew : ∀ s ∈ l, s ∉ visited) :
    ∃ q : Probe, (sensors found (l.map fun s => (t.sensorName s, s.path))).run p =
      (.ok (found.insertAll (t.readings l)), q) ∧ t.After (l ++ visited) q.files := by
  induction l generalizing found visited p with
  | nil => exact ⟨p, rfl, h⟩
  | cons s l ih =>
    rw [List.nodup_cons] at hnodup
    rw [List.forall_mem_cons] at hproper hnew
    let p' : Probe := { p with files := (p.files.read s.path).2 }
    have hread : t.After (s :: visited) p'.files := h.read hproper.1
    have hrest : ∀ s' ∈ l, s' ∉ s :: visited := by
      intro s' hs'
      rw [List.mem_cons, not_or]
      exact ⟨fun heq => hnodup.1 (heq ▸ hs'), hnew.2 s' hs'⟩
    have hvalue : p.files.degreesAt s.path = t.degreesAt s.path := by
      rw [FileTree.degreesAt, h.read_fst hproper.1 hnew.1, FileTree.degreesAt]
    have hstep : (sensors found ((s :: l).map fun s => (t.sensorName s, s.path))).run p =
        (sensors (found.insertAll (t.readings [s]))
          (l.map fun s => (t.sensorName s, s.path))).run p' := by
      rw [List.map_cons, sensors, run_bind, run_degrees, hvalue]
      cases hdegrees : t.degreesAt s.path <;> simp [FileTree.readings, hdegrees, Named.insertAll, p']
    obtain ⟨q, hrun, hq⟩ := ih hread hnodup.2 hproper.2 hrest
    rw [Named.insertAll_append, ← t.readings_append, List.singleton_append] at hrun
    exact ⟨q, hstep.trans hrun, hq.mono (by simp)⟩

theorem path_nameFile (c : String) :
    chipBase ++ "/" ++ c ++ "/name" = (Sensor.chip c "name").path := by
  simp [Sensor.path, String.append_assoc]

/-- A chip is asked for its name and then for its sensors. -/
theorem run_chipSensors_cons {c : String} (h : t.After visited p.files) (hc : FileTree.IsName c)
    (hnew : Sensor.chip c "name" ∉ visited) (cs : List String) :
    ∃ q : Probe, t.After (.chip c "name" :: visited) q.files ∧
      (chipSensors chipBase found (c :: cs)).run p =
        (sensors found ((t.chipSensors c).map fun s => (t.sensorName s, s.path)) >>=
          fun found => chipSensors chipBase found cs).run q := by
  have hproper : (Sensor.chip c "name").IsProper := Sensor.isProper_chip hc (by decide)
  have hread := h.read hproper
  have hname : p.files.chipName c = t.chipName c := by
    rw [FileTree.chipName, path_nameFile, h.read_fst hproper hnew, FileTree.chipName, path_nameFile]
  refine ⟨{ p with files := (p.files.read (Sensor.chip c "name").path).2 }, hread, ?_⟩
  rw [chipSensors, run_bind_of_ok (run_chipName c p), hname, path_nameFile,
    run_bind_of_ok (run_directory _ _), hread.list_chip hc]
  cases hlist : t.list (chipBase ++ "/" ++ c) with
  | error e => simp [FileTree.chipSensors, FileTree.listed, hlist, Except.toOption, sensors]
  | ok files =>
    have hsensors : (t.chipSensors c).map (fun s => (t.sensorName s, s.path)) =
        (files.filter isTemperature).map fun f =>
          (t.chipName c ++ "_" ++ f, chipBase ++ "/" ++ c ++ "/" ++ f) := by
      simp [FileTree.chipSensors, FileTree.listed, hlist, Except.toOption, FileTree.sensorName,
        Sensor.path]
    rw [hsensors]

/-- Chips of which no file has been visited yet are told with the sensors that the tree has. -/
theorem run_chipSensors {cs : List String} (h : t.After visited p.files) (hnodup : cs.Nodup)
    (hnames : ∀ c ∈ cs, FileTree.IsName c) (hnew : ∀ c ∈ cs, ∀ f, Sensor.chip c f ∉ visited) :
    ∃ q : Probe, (chipSensors chipBase found cs).run p =
      (.ok (found.insertAll (t.readings (cs.flatMap t.chipSensors))), q) := by
  induction cs generalizing found visited p with
  | nil => exact ⟨p, rfl⟩
  | cons c cs ih =>
    rw [List.nodup_cons] at hnodup
    rw [List.forall_mem_cons] at hnames hnew
    obtain ⟨p', hread, hstep⟩ := run_chipSensors_cons h hnames.1 (hnew.1 "name") cs
    have hfresh : ∀ s ∈ t.chipSensors c, s ∉ Sensor.chip c "name" :: visited := by
      intro s hs
      obtain ⟨f, rfl, -, hfile⟩ := FileTree.mem_chipSensors.mp hs
      rw [List.mem_cons, not_or]
      refine ⟨fun heq => ?_, hnew.1 f⟩
      rw [(Sensor.chip.inj heq).2] at hfile
      exact absurd hfile (by decide)
    obtain ⟨q, hrun, hq⟩ := run_sensors hread (t.nodup_chipSensors c)
      (fun s hs => FileTree.isProper_of_mem_chipSensors hnames.1 hs) hfresh
    have hrest : ∀ c' ∈ cs, ∀ f,
        Sensor.chip c' f ∉ t.chipSensors c ++ Sensor.chip c "name" :: visited := by
      intro c' hc' f
      have hne : c' ≠ c := fun heq => hnodup.1 (heq ▸ hc')
      simp [FileTree.mem_chipSensors, hne, hnew.2 c' hc' f]
    obtain ⟨q', hrun'⟩ := ih hq hnodup.2 hnames.2 hrest
    rw [hstep, run_bind_of_ok hrun, hrun', Named.insertAll_append, ← t.readings_append]
    exact ⟨q', rfl⟩

theorem run_namesFrom {base : String}
    (h : p.files.find base = .ok .directory ∨ p.files.exists? base = false) (what start : String) :
    (namesFrom what base start).run p =
      (.ok ((p.files.listed base).filter fun n => Text.startsWith start.toList n.toList), p) := by
  rw [namesFrom, run_bind_of_ok (run_get p)]
  cases hfind : p.files.find base with
  | error e => simp [FileTree.exists?, FileTree.listed, FileTree.list, hfind, Except.toOption]
  | ok e =>
    obtain rfl : e = .directory := by simpa [FileTree.exists?, hfind] using h
    simp [FileTree.exists?, FileTree.listed, FileTree.list, hfind, Except.toOption, run_bind,
      run_directory]

end Collecting

namespace FileTree
variable {t : FileTree}

def Browsable (t : FileTree) : Prop :=
  ∀ base ∈ [Collecting.thermalBase, Collecting.chipBase],
    t.find base = .ok .directory ∨ t.exists? base = false

instance (t : FileTree) : Decidable t.Browsable := inferInstanceAs (Decidable (∀ _ ∈ _, _))

theorem run_thermalZones {p : Probe} (h : p.files.Browsable) :
    ∃ q : Probe, (Collecting.thermalZones Collecting.thermalBase).run p =
      (.ok (Named.ofList (p.files.readings (p.files.zones.map .zone))), q) ∧
        p.files.After (p.files.zones.map .zone) q.files := by
  have hproper : ∀ s ∈ p.files.zones.map Sensor.zone, s.IsProper := by
    intro s hs
    obtain ⟨z, hz, rfl⟩ := List.mem_map.mp hs
    exact Sensor.isProper_zone (isName_of_mem_zones hz)
  have hnodup : (p.files.zones.map Sensor.zone).Nodup :=
    (List.nodup_append.mp p.files.nodup_sensors).1
  obtain ⟨q, hrun, hq⟩ := Collecting.run_sensors (After.refl p.files) hnodup hproper (by simp)
  rw [List.append_nil] at hq
  rw [List.map_map] at hrun
  refine ⟨q, ?_, hq⟩
  rw [Collecting.thermalZones, Collecting.run_bind_of_ok (Collecting.run_namesFrom (h _ (by simp)) _ _)]
  exact hrun

theorem run_chips {p : Probe} (h : t.Browsable) (hafter : t.After (t.zones.map .zone) p.files) :
    ∃ q : Probe, (Collecting.chips Collecting.chipBase).run p =
      (.ok (Named.ofList (t.readings (t.chips.flatMap t.chipSensors))), q) := by
  have hnames : ∀ n ∈ ["sys", "class", "hwmon"], IsName n := by decide
  have hfind : p.files.find Collecting.chipBase = t.find Collecting.chipBase :=
    hafter.above _ hnames (by decide)
  have hlisted : p.files.listed Collecting.chipBase = t.listed Collecting.chipBase := by
    rw [listed, listed]
    exact congrArg (fun r => (Except.toOption r).getD []) (hafter.list hnames (by decide))
  obtain ⟨q, hrun⟩ := Collecting.run_chipSensors hafter ((nodup_listed t _).filter _)
    (fun c hc => isName_of_mem_chips hc) (by simp)
  refine ⟨q, ?_⟩
  have hbase : p.files.find Collecting.chipBase = .ok .directory ∨
      p.files.exists? Collecting.chipBase = false := by
    rw [exists?, hfind]
    exact h _ (by simp)
  rw [Collecting.chips, Collecting.run_bind_of_ok (Collecting.run_namesFrom hbase _ _), hlisted]
  exact hrun

/-- All readings are told, the later of two under one name. -/
theorem run_temperatures {p : Probe} (h : p.files.Browsable) :
    ∃ told, (Collecting.temperatures.run p).1 = .ok told ∧
      ∀ n, told.find? n = (Named.ofList (p.files.readings p.files.sensors)).find? n := by
  obtain ⟨q, hzones, hafter⟩ := run_thermalZones h
  obtain ⟨q', hchips⟩ := run_chips h hafter
  rw [Collecting.temperatures, Collecting.run_bind_of_ok hzones, Collecting.run_bind_of_ok hchips]
  refine ⟨_, rfl, fun n => ?_⟩
  rw [sensors, readings_append, Named.ofList_append]

def IsReadable (t : FileTree) (s : Sensor) : Prop := (t.degreesAt s.path).isSome = true

instance (t : FileTree) : DecidablePred t.IsReadable := fun _ => inferInstanceAs (Decidable (_ = true))

def NamesApart (t : FileTree) (naming : Sensor → String) : Prop :=
  ∀ s ∈ t.sensors, ∀ s' ∈ t.sensors, t.IsReadable s → t.IsReadable s' → naming s = naming s' → s = s'

/-- Every sensor that can be read is told of under a name of its own, and nothing else is told. It
does not matter in which order the sensors are come upon. -/
structure TellsEach (t : FileTree) (told : Named Binary64) : Prop where
  entries : ∃ naming, t.NamesApart naming ∧ ∀ n v, told.find? n = some v ↔
    ∃ s ∈ t.sensors, naming s = n ∧ t.degreesAt s.path = some v
  order : ∀ l, l.Perm t.sensors → ∀ n, (Named.ofList (t.readings l)).find? n = told.find? n

theorem mem_readings {l : List Sensor} {n : String} {v : Binary64} : (n, v) ∈ t.readings l ↔
    ∃ s ∈ l, t.sensorName s = n ∧ t.degreesAt s.path = some v := by
  simp only [readings, List.mem_filterMap, Option.map_eq_some_iff, Prod.mk.injEq]
  constructor
  · rintro ⟨s, hs, _, hv, hname, rfl⟩
    exact ⟨s, hs, hname, hv⟩
  · rintro ⟨s, hs, hname, hv⟩
    exact ⟨s, hs, v, hv, hname, rfl⟩

theorem exists_reading_iff {l : List Sensor} {naming : Sensor → String} {n : String} :
    (∃ v, ∃ s ∈ l, naming s = n ∧ t.degreesAt s.path = some v) ↔
      ∃ s ∈ l, t.IsReadable s ∧ naming s = n := by
  simp only [IsReadable, Option.isSome_iff_exists]
  constructor
  · rintro ⟨v, s, hs, hname, hv⟩
    exact ⟨s, hs, ⟨v, hv⟩, hname⟩
  · rintro ⟨s, hs, ⟨v, hv⟩, hname⟩
    exact ⟨v, s, hs, hname, hv⟩

theorem nodup_readings (h : t.NamesApart t.sensorName) :
    ((t.readings t.sensors).map Prod.fst).Nodup := by
  rw [List.Nodup, List.pairwise_map, readings, List.pairwise_filterMap]
  refine t.nodup_sensors.imp_of_mem fun {s s'} hs hs' hne => ?_
  simp only [Option.map_eq_some_iff]
  rintro _ ⟨v, hv, rfl⟩ _ ⟨v', hv', rfl⟩ hname
  exact hne (h s hs s' hs' (by simp [IsReadable, hv]) (by simp [IsReadable, hv']) hname)

theorem tellsEach_of_namesApart {told : Named Binary64} (h : t.NamesApart t.sensorName)
    (htold : ∀ n, told.find? n = (Named.ofList (t.readings t.sensors)).find? n) : t.TellsEach told := by
  have hnodup := nodup_readings h
  refine ⟨⟨t.sensorName, h, fun n v => ?_⟩, fun l hl n => ?_⟩
  · rw [htold, Named.find?_ofList_eq_some_iff hnodup, mem_readings]
  · have hperm : (t.readings t.sensors).Perm (t.readings l) := hl.symm.filterMap _
    rw [htold, Named.find?_ofList_of_perm hperm hnodup]

/-- There are as many names as sensors that can be read, so none of the names is used twice. -/
theorem namesApart_of_naming {naming : Sensor → String} (h : t.NamesApart naming)
    (hsame : ∀ n, (∃ s ∈ t.sensors, t.IsReadable s ∧ naming s = n) ↔
      ∃ s ∈ t.sensors, t.IsReadable s ∧ t.sensorName s = n) : t.NamesApart t.sensorName := by
  let readable : Finset Sensor := (t.sensors.filter t.IsReadable).toFinset
  have himage : readable.image naming = readable.image t.sensorName := by
    ext n
    simpa [readable, and_assoc] using hsame n
  have hcard : (readable.image naming).card = readable.card := by
    refine Finset.card_image_iff.mpr fun s hs s' hs' => ?_
    rw [Finset.mem_coe, List.mem_toFinset, List.mem_filter, decide_eq_true_eq] at hs hs'
    exact h s hs.1 s' hs'.1 hs.2 hs'.2
  rw [himage, Finset.card_image_iff] at hcard
  intro s hs s' hs' hread hread'
  exact hcard (by simp [readable, hs, hread]) (by simp [readable, hs', hread'])

theorem namesApart_of_tellsEach {told : Named Binary64} (h : t.TellsEach told)
    (htold : ∀ n, told.find? n = (Named.ofList (t.readings t.sensors)).find? n) :
    t.NamesApart t.sensorName := by
  obtain ⟨naming, hnaming, hentries⟩ := h.entries
  refine namesApart_of_naming hnaming fun n => ?_
  have htells : (told.find? n).isSome ↔ ∃ s ∈ t.sensors, t.IsReadable s ∧ naming s = n := by
    rw [Option.isSome_iff_exists, ← exists_reading_iff]
    simp only [hentries]
  rw [← htells, htold, Named.isSome_find?_ofList, ← exists_reading_iff]
  simp only [mem_readings]

end FileTree

namespace Collecting
variable {p : Probe}

/-- Every sensor is told of if and only if no two that can be read have the same name. -/
theorem tellsEach_iff (h : p.files.Browsable) :
    (∃ told, (temperatures.run p).1 = .ok told ∧ p.files.TellsEach told) ↔
      p.files.NamesApart p.files.sensorName := by
  obtain ⟨told, hrun, htold⟩ := FileTree.run_temperatures h
  constructor
  · rintro ⟨told', hrun', htells⟩
    obtain rfl : told = told' := Except.ok.inj (hrun.symm.trans hrun')
    exact FileTree.namesApart_of_tellsEach htells htold
  · intro hnames
    exact ⟨told, hrun, FileTree.tellsEach_of_namesApart hnames htold⟩

/-- The sensors of a zone and of a chip, of which the chip has one more that cannot be read. -/
theorem tellsEach_of_zone_and_chip :
    let p : Probe := { files := ⟨⟨[("/sys", [.directory]), ("/sys/class", [.directory]),
      ("/sys/class/thermal", [.directory]), ("/sys/class/hwmon", [.directory]),
      ("/sys/class/hwmon/hwmon0", [.directory]),
      ("/sys/class/thermal/thermal_zone0/temp", [.text "45500"]),
      ("/sys/class/hwmon/hwmon0/name", [.text "nvme\n"]),
      ("/sys/class/hwmon/hwmon0/temp1_input", [.text "40000"]),
      ("/sys/class/hwmon/hwmon0/temp2_input", [.text ""])], by decide⟩⟩ }
    ∃ told, (temperatures.run p).1 = .ok told ∧ p.files.TellsEach told := by
  intro p
  have hzones : p.files.zones = ["thermal_zone0"] := by
    rw [FileTree.zones, FileTree.listed_of_sorted ["thermal_zone0"] (by decide +kernel)
      (by decide +kernel) (by decide +kernel)]
    rfl
  have hchips : p.files.chips = ["hwmon0"] := by
    rw [FileTree.chips, FileTree.listed_of_sorted ["hwmon0"] (by decide +kernel)
      (by decide +kernel) (by decide +kernel)]
    rfl
  have hchip : p.files.chipSensors "hwmon0" =
      [.chip "hwmon0" "temp1_input", .chip "hwmon0" "temp2_input"] := by
    rw [FileTree.chipSensors, FileTree.listed_of_sorted ["name", "temp1_input", "temp2_input"]
      (by decide +kernel) (by decide +kernel) (by decide +kernel)]
    rfl
  have hname : p.files.chipName "hwmon0" = "nvme" := by decide +kernel
  have hnames : p.files.sensors.map p.files.sensorName =
      ["thermal_zone0", "nvme_temp1_input", "nvme_temp2_input"] := by
    simp [FileTree.sensors, hzones, hchips, hchip, FileTree.sensorName, hname]
  refine (tellsEach_iff (by decide +kernel)).mpr fun s hs s' hs' _ _ hsame => ?_
  exact List.inj_on_of_nodup_map (by rw [hnames]; decide) hs hs' hsame

/-- Of two chips that call themselves the same the sensor of one is lost. -/
theorem not_tellsEach_of_same_name : ¬ ∀ p : Probe, p.files.Browsable →
    ∃ told, (temperatures.run p).1 = .ok told ∧ p.files.TellsEach told := by
  intro h
  let t : FileTree := ⟨⟨[("/sys", [.directory]), ("/sys/class", [.directory]),
    ("/sys/class/hwmon", [.directory]), ("/sys/class/hwmon/hwmon0", [.directory]),
    ("/sys/class/hwmon/hwmon1", [.directory]),
    ("/sys/class/hwmon/hwmon0/name", [.text "nvme\n"]),
    ("/sys/class/hwmon/hwmon0/temp1_input", [.text "40000"]),
    ("/sys/class/hwmon/hwmon1/name", [.text "nvme\n"]),
    ("/sys/class/hwmon/hwmon1/temp1_input", [.text "50000"])], by decide⟩⟩
  let p : Probe := { files := t }
  have hbrowsable : p.files.Browsable := by decide +kernel
  obtain ⟨told, hrun, htells⟩ := h p hbrowsable
  obtain ⟨told', hrun', htold⟩ := FileTree.run_temperatures hbrowsable
  obtain rfl : told = told' := Except.ok.inj (hrun.symm.trans hrun')
  have hnames := FileTree.namesApart_of_tellsEach htells htold
  have hbase : t.find chipBase = .ok .directory := by decide +kernel
  have hinside : ∀ c ∈ ["hwmon0", "hwmon1"], c ∈ t.inside (FileTree.normal chipBase) ∧
      Text.startsWith "hwmon".toList c.toList = true ∧
      t.find (chipBase ++ "/" ++ c) = .ok .directory ∧
      "temp1_input" ∈ t.inside (FileTree.normal (chipBase ++ "/" ++ c)) := by decide +kernel
  have hmem : ∀ c ∈ ["hwmon0", "hwmon1"], Sensor.chip c "temp1_input" ∈ t.sensors := by
    intro c hc
    obtain ⟨hchip, hstart, hfind, hfile⟩ := hinside c hc
    have hlisted := (FileTree.mem_listed_iff hbase).mpr hchip
    have hsensor := FileTree.mem_chipSensors.mpr
      ⟨"temp1_input", rfl, (FileTree.mem_listed_iff hfind).mpr hfile, by decide⟩
    exact List.mem_append_right _ (List.mem_flatMap.mpr ⟨c, List.mem_filter.mpr ⟨hlisted, hstart⟩,
      hsensor⟩)
  have hsame := hnames _ (hmem "hwmon0" (by simp)) _ (hmem "hwmon1" (by simp)) (by decide +kernel)
    (by decide +kernel) (by decide +kernel)
  simp at hsame

end Collecting
end HostVitals
