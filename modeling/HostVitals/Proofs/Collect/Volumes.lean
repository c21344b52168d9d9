import HostVitals.Proofs.Collect.Overflow
import HostVitals.Proofs.Host.Writing
import HostVitals.Proofs.Proc.MountTable

/-! Which of the mounted filesystems are reported. The host is asked about a mount point as it is
read, so a mount is reported under its own just if that stands in the table as it is. -/
namespace HostVitals

namespace VolumeUsage
variable {volumes : List (String × VolumeCounts)} {point : String} {m : Mount} {u : VolumeUsage}

def Counts (volumes : List (String × VolumeCounts)) (point : String) (u : VolumeUsage) : Prop :=
  ∃ v, volumes.lookup point = some v ∧ u.size = v.fragmentSize * v.blocks ∧ u.used ≤ u.size ∧
    (v.blocksFree ≤ v.blocks → u.used + v.fragmentSize * v.blocksFree = u.size)

theorem ofCounts_counts {v : VolumeCounts} (hv : volumes.lookup m.point = some v)
    (hfits : ¬ v.Overruns) : ∃ u, ofCounts m v = .ok u ∧ u.mount = m ∧ Counts volumes m.point u := by
  have hle : ∀ blocks ∈ [v.blocks, v.blocksFree, v.blocksAvailable],
      bytes v.fragmentSize blocks = .ok (v.fragmentSize * blocks) := by
    intro blocks hblocks
    exact bytes_of_le (Nat.not_lt.mp fun hlt => hfits ⟨blocks, hblocks, hlt⟩)
  simp only [List.forall_mem_cons] at hle
  obtain ⟨hsize, hfree, havailable, -⟩ := hle
  refine ⟨_, by rw [ofCounts, hsize, hfree, havailable]; rfl, rfl, v, hv, rfl, Nat.sub_le _ _, ?_⟩
  intro hblocks
  exact Nat.sub_add_cancel (Nat.mul_le_mul_left v.fragmentSize hblocks)

/-- A mount about which the host says nothing is left out, and no other one. -/
theorem ofMounts_counts (hfits : ∀ point v, volumes.lookup point = some v → ¬ v.Overruns)
    (mounts : List Mount) : ∃ told, ofMounts volumes mounts = .ok told ∧
      List.Forall₂ (fun m u => u.mount = m ∧ Counts volumes m.point u)
        (mounts.filter fun m => (volumes.lookup m.point).isSome) told := by
  induction mounts with
  | nil => exact ⟨[], rfl, .nil⟩
  | cons m rest ih =>
    obtain ⟨told, htold, hcounts⟩ := ih
    cases hv : volumes.lookup m.point with
    | none => exact ⟨told, by simp [ofMounts, hv, htold], by simpa [hv] using hcounts⟩
    | some v =>
      obtain ⟨u, hu, hcount⟩ := ofCounts_counts hv (hfits _ _ hv)
      exact ⟨u :: told, by rw [ofMounts, hv]; simp only [hu, htold]; rfl,
        by simpa [hv] using ⟨hcount, hcounts⟩⟩

end VolumeUsage

namespace MountTable
variable {rows : List Row} {r : Row} {p : Probe}

structure Shows (p : Probe) (rows : List Row) : Prop where
  table : (p.files.read "/proc/mounts").1 = .ok (String.ofList (Row.text rows))
  fits : ∀ point v, p.volumes.lookup point = some v → ¬ v.Overruns

structure Row.ToldBy (volumes : List (String × VolumeCounts)) (r : Row) (u : VolumeUsage) : Prop where
  point : u.mount.point = r.mount.point
  device : IsPlain r.mount.device → u.mount.device = r.mount.device
  fstype : IsPlain r.mount.fstype → u.mount.fstype = r.mount.fstype
  counts : VolumeUsage.Counts volumes r.mount.point u

/-- Every mount that is not skipped and about which the host answers is told once, in order. -/
def Tells (volumes : List (String × VolumeCounts)) (rows : List Row) (told : List VolumeUsage) :
    Prop :=
  List.Forall₂ (Row.ToldBy volumes)
    (rows.filter fun r => ¬ r.IsSkipped ∧ (volumes.lookup r.mount.point).isSome) told

theorem Shows.run (h : Shows p rows) : (Collecting.volumes.run p).1 =
    VolumeUsage.ofMounts p.volumes (rows.filterMap fun r => Mount.ofLine r.line) := by
  rw [Collecting.volumes, Collecting.run_bind, Collecting.run_file, h.table]
  simp only [mapError_ok, Except.map, String.toList_ofList, Row.parse_text, Collecting.run_bind,
    Collecting.run_get, Collecting.run_ofExcept]

theorem Shows.tells (hshows : Shows p rows) (hfields : ∀ r ∈ rows, r.HasFields)
    (h : ∀ r ∈ rows, r.Legible) :
    ∃ told, (Collecting.volumes.run p).1 = .ok told ∧ Tells p.volumes rows told := by
  obtain ⟨told, htold, hcounts⟩ := VolumeUsage.ofMounts_counts hshows.fits
    (rows.filterMap fun r => Mount.ofLine r.line)
  refine ⟨told, hshows.run.trans htold, ?_⟩
  rw [filterMap_ofLine fun r hr => (h r hr).ofLine_line (hfields r hr), List.filter_map,
    List.forall₂_map_left_iff, List.filter_filter] at hcounts
  have htold : (rows.filter fun r => ¬ r.IsSkipped ∧ (p.volumes.lookup r.mount.point).isSome) =
      rows.filter fun r => (p.volumes.lookup r.entry.point).isSome && decide (¬ r.IsSkipped) :=
    List.filter_congr fun r _ => by simp [Row.entry, Bool.and_comm]
  rw [Tells, htold]
  refine .imp (fun r u hru => ?_) hcounts
  obtain ⟨hmount, hcount⟩ := hru
  exact ⟨by rw [hmount]; rfl, fun hplain => by rw [hmount]; exact hplain.shown_eq,
    fun hplain => by rw [hmount]; exact hplain.shown_eq, hcount⟩

theorem map_eq_of_forall₂ {α β γ : Type} {R : α → β → Prop} {l : List α} {l' : List β} {f : α → γ}
    {g : β → γ} (h : List.Forall₂ R l l') (heq : ∀ a b, R a b → g b = f a) : l'.map g = l.map f := by
  induction h with
  | nil => rfl
  | cons hab _ ih => rw [List.map_cons, List.map_cons, heq _ _ hab, ih]

theorem Tells.points {volumes : List (String × VolumeCounts)} {told : List VolumeUsage}
    (h : Tells volumes rows told) : told.map (fun u => u.mount.point) =
      (rows.filter fun r => ¬ r.IsSkipped ∧ (volumes.lookup r.mount.point).isSome).map
        fun r => r.mount.point :=
  map_eq_of_forall₂ h fun _ _ hru => hru.point

theorem fits_of_mem {volumes : List (String × VolumeCounts)}
    (h : ∀ e ∈ volumes, ¬ e.2.Overruns) (point : String) (v : VolumeCounts)
    (hv : volumes.lookup point = some v) : ¬ v.Overruns := by
  obtain ⟨before, after, hvolumes, -⟩ := List.lookup_eq_some_iff.mp hv
  exact h (point, v) (by simp [hvolumes])

def bareHost (rows : List Row) (points : List String) : Probe where
  files := (FileTree.ofList [("/proc/mounts", [.text ""])]).holding (FileTree.normal "/proc/mounts")
    (String.ofList (Row.text rows))
  volumes := points.map fun point => (point, ⟨0, 0, 0, 0, 0, 0⟩)

theorem shows_bareHost (rows : List Row) (points : List String) :
    Shows (bareHost rows points) rows := by
  have hfind : (FileTree.ofList [("/proc/mounts", [.text ""])]).find "/proc/mounts" =
      .ok (.text "") := by decide +kernel
  refine ⟨FileTree.read_of_find (FileTree.find_of_write_found hfind (by simp)),
    fits_of_mem fun e he => ?_⟩
  obtain ⟨point, -, rfl⟩ := List.mem_map.mp he
  simp [VolumeCounts.Overruns]

theorem isSome_lookup_bareHost {points : List String} {point : String} (h : point ∈ points) :
    ((bareHost rows points).volumes.lookup point).isSome = true := by
  rw [bareHost, List.lookup_graph _ h]
  rfl

theorem points_eq_of_tells (h : ∀ p, Shows p rows → ∃ told,
    (Collecting.volumes.run p).1 = .ok told ∧ Tells p.volumes rows told) :
    (rows.filterMap fun r => Mount.ofLine r.line).map Mount.point =
      (rows.filter fun r => ¬ r.IsSkipped).map fun r => r.mount.point := by
  let mounts := rows.filterMap fun r => Mount.ofLine r.line
  let points := mounts.map Mount.point ++ rows.map fun r => r.mount.point
  have hshows := shows_bareHost rows points
  obtain ⟨told, htold, htells⟩ := h _ hshows
  obtain ⟨told', htold', hcounts⟩ := VolumeUsage.ofMounts_counts hshows.fits mounts
  obtain rfl : told = told' := by
    rw [hshows.run, htold'] at htold
    exact (Except.ok.inj htold).symm
  have hall : (mounts.filter fun m => ((bareHost rows points).volumes.lookup m.point).isSome) =
      mounts := List.filter_eq_self.mpr fun m hm =>
    isSome_lookup_bareHost (List.mem_append_left _ (List.mem_map_of_mem hm))
  have hkept : (rows.filter fun r => ¬ r.IsSkipped ∧
      ((bareHost rows points).volumes.lookup r.mount.point).isSome) =
        rows.filter fun r => ¬ r.IsSkipped := List.filter_congr fun r hr => by
    have hpoint : r.mount.point ∈ points :=
      List.mem_append_right _ (List.mem_map.mpr ⟨r, hr, rfl⟩)
    simp only [isSome_lookup_bareHost hpoint, and_true]
  have hpoints : told.map (fun u => u.mount.point) = mounts.map Mount.point := by
    rw [hall] at hcounts
    exact map_eq_of_forall₂ hcounts fun _ _ hmu => congrArg Mount.point hmu.1
  rw [← hpoints, htells.points, hkept]

/-- On every host that shows the table each of its mounts is told of at its own mount point if and only
if the table is legible. -/
theorem tells_iff_legible (hfields : ∀ r ∈ rows, r.HasFields) : (∀ p, Shows p rows → ∃ told,
    (Collecting.volumes.run p).1 = .ok told ∧ Tells p.volumes rows told) ↔
      ∀ r ∈ rows, r.Legible :=
  ⟨fun h => legible_of_points_eq hfields (points_eq_of_tells h),
    fun h _ hshows => hshows.tells hfields h⟩

/-- Of two mounts the host knows one; a third one is skipped, with a space in its mount point. -/
theorem tells_of_three_mounts :
    let rows : List Row := [⟨⟨"/dev/sda1", "/", "ext4"⟩, "rw"⟩, ⟨⟨"none", "/my tmp", "tmpfs"⟩, "rw"⟩,
      ⟨⟨"host:/a b", "/data", "nfs"⟩, "ro"⟩]
    let p : Probe := {
      files := .ofList [("/proc/mounts", [.text (String.ofList (Row.text rows))])]
      volumes := [("/data", ⟨4096, 1000, 500, 400, 100, 50⟩)] }
    ∃ told, (Collecting.volumes.run p).1 = .ok told ∧ Tells p.volumes rows told := by
  intro rows p
  refine (tells_iff_legible (by decide +kernel)).mpr (by decide +kernel) p ⟨by decide +kernel, ?_⟩
  exact fits_of_mem (by simp [p, VolumeCounts.Overruns, Text.maxU64])

/-- The host is asked about a mount point that it does not have. -/
theorem not_tells_of_space : ¬ ∀ rows : List Row, (∀ r ∈ rows, r.HasFields) → ∀ p, Shows p rows →
    ∃ told, (Collecting.volumes.run p).1 = .ok told ∧ Tells p.volumes rows told := by
  intro h
  let rows : List Row := [⟨⟨"/dev/sdb1", "/mnt/my disk", "ext4"⟩, "rw"⟩]
  have hfields : ∀ r ∈ rows, r.HasFields := by decide +kernel
  have hlegible := legible_of_points_eq hfields (points_eq_of_tells (h rows hfields))
  revert hlegible
  decide +kernel

end MountTable
end HostVitals
