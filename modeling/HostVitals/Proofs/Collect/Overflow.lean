import HostVitals.Proofs.Collect.CpuCall
import HostVitals.Proofs.Collect.Reporting
import HostVitals.Proofs.Proc.MemoryFields

/-! When a collection breaks off. Three of the metrics add or multiply counters of the host in 64
bits without looking first; what does not fit ends the collection in the middle. -/
namespace HostVitals

def VolumeCounts.Overruns (v : VolumeCounts) : Prop :=
  ∃ blocks ∈ [v.blocks, v.blocksFree, v.blocksAvailable], Text.maxU64 < v.fragmentSize * blocks

namespace VolumeUsage
variable {mount : Mount} {v : VolumeCounts} {volumes : List (String × VolumeCounts)}

theorem bytes_of_le {fragmentSize blocks : Nat} (h : fragmentSize * blocks ≤ Text.maxU64) :
    bytes fragmentSize blocks = .ok (fragmentSize * blocks) := if_pos h

theorem bytes_of_lt {fragmentSize blocks : Nat} (h : Text.maxU64 < fragmentSize * blocks) :
    bytes fragmentSize blocks = .error (.overflow .multiply) := if_neg (Nat.not_le.mpr h)

theorem ofCounts_of_not_overruns (mount : Mount) (h : ¬ v.Overruns) :
    ∃ usage, ofCounts mount v = .ok usage := by
  have hle : ∀ blocks ∈ [v.blocks, v.blocksFree, v.blocksAvailable],
      bytes v.fragmentSize blocks = .ok (v.fragmentSize * blocks) := by
    intro blocks hblocks
    exact bytes_of_le (Nat.not_lt.mp fun hlt => h ⟨blocks, hblocks, hlt⟩)
  simp [ofCounts, hle, bind, Except.bind, pure, Except.pure]

theorem ofCounts_of_overruns (h : v.Overruns) :
    ofCounts mount v = .error (.overflow .multiply) := by
  unfold ofCounts
  by_cases hsize : Text.maxU64 < v.fragmentSize * v.blocks
  · rw [bytes_of_lt hsize]
    rfl
  · by_cases hfree : Text.maxU64 < v.fragmentSize * v.blocksFree
    · rw [bytes_of_le (Nat.not_lt.mp hsize), bytes_of_lt hfree]
      rfl
    · have havailable : Text.maxU64 < v.fragmentSize * v.blocksAvailable := by
        simpa [VolumeCounts.Overruns, hsize, hfree] using h
      rw [bytes_of_le (Nat.not_lt.mp hsize), bytes_of_le (Nat.not_lt.mp hfree),
        bytes_of_lt havailable]
      rfl

theorem breaksOff_ofMounts_iff (mounts : List Mount) : BreaksOff (ofMounts volumes mounts) ↔
    ∃ m ∈ mounts, ∃ v, volumes.lookup m.point = some v ∧ v.Overruns := by
  induction mounts with
  | nil => simp [ofMounts]
  | cons m rest ih =>
    cases hv : volumes.lookup m.point with
    | none => simp [ofMounts, hv, ih]
    | some v =>
      simp only [ofMounts, hv, List.exists_mem_cons_iff, Option.some.injEq, exists_eq_left']
      by_cases h : v.Overruns
      · rw [ofCounts_of_overruns h]
        exact iff_of_true ⟨.multiply, rfl⟩ (.inl h)
      · obtain ⟨usage, husage⟩ := ofCounts_of_not_overruns m h
        simp [husage, h, BreaksOff.bind_iff, BreaksOff.fmap_iff, ih]

end VolumeUsage

namespace CpuBaseline
variable {b : CpuBaseline} {t : FileTree}

def Overruns (b : CpuBaseline) (t : FileTree) : Prop :=
  b.poisoned = false ∧ ∃ before now, b.Compares t before now ∧ ¬ CoreShares.Tells before now

theorem Call.breaksOff_iff {b' : CpuBaseline} {r : Except Fault (Named CoreShares)}
    (h : b.Call t r b') : BreaksOff r ↔ b.Overruns t := by
  constructor
  · intro hr
    obtain ⟨before, now, hfree, hcompares, huntold, -⟩ := h.broken_of_breaksOff hr
    exact ⟨hfree, before, now, hcompares, huntold⟩
  · rintro ⟨hfree, before, now, hcompares, huntold⟩
    cases h with
    | unread unread =>
      obtain ⟨s, hs⟩ := hcompares.first
      simp [hs] at unread
    | locked poisoned => simp [hfree] at poisoned
    | unreread free bare read unreread => simp [hcompares.second bare] at unreread
    | told free compares told =>
      obtain ⟨rfl, rfl⟩ := hcompares.unique compares
      cases (CoreShares.ofSnapshots_of_not_tells huntold).symm.trans told
    | broken free compares untold => exact ⟨.add, rfl⟩

end CpuBaseline

namespace MetricKind
open Collecting

def Overruns (p : Probe) : MetricKind → Prop
  | cpu => p.baseline.Overruns p.files
  | memory => ∃ s, (p.files.read "/proc/meminfo").1 = .ok s ∧
      MemoryInfo.Overruns [] (Text.lines s.toList)
  | filesystem => ∃ s, (p.files.read "/proc/mounts").1 = .ok s ∧
      ∃ m ∈ Mount.parse s.toList, ∃ v, p.volumes.lookup m.point = some v ∧ v.Overruns
  | _ => False

theorem collect_breaksOff_iff (k : MetricKind) (p : Probe) :
    BreaksOff (k.collect.run p).1 ↔ k.Overruns p := by
  cases k with
  | cpu =>
    rw [collect, breaksOff_map_iff]
    exact (call_cpuShares p).breaksOff_iff
  | memory =>
    rw [collect, breaksOff_file_bind_iff]
    simp only [breaksOff_bind_iff, run_ofExcept, run_pure, BreaksOff.ok, and_false, exists_false,
      or_false, MemoryInfo.breaksOff_parse_iff]
    rfl
  | filesystem =>
    rw [collect, breaksOff_map_iff, Collecting.volumes, breaksOff_file_bind_iff]
    simp only [run_bind, run_get, run_ofExcept, VolumeUsage.breaksOff_ofMounts_iff]
    rfl
  | load => exact iff_of_false (closed_reports.collect (by decide) p) id
  | network => exact iff_of_false (closed_reports.collect (by decide) p) id
  | disk => exact iff_of_false (closed_reports.collect (by decide) p) id
  | thermal => exact iff_of_false (closed_reports.collect (by decide) p) id
  | system => exact iff_of_false (closed_reports.collect (by decide) p) id
  | pressure => exact iff_of_false (closed_reports.collect (by decide) p) id

/-- A collection ends with a sample or with a fault that is reported, unless its numbers overrun. -/
theorem reports_iff (k : MetricKind) (p : Probe) :
    ((∃ s, (k.collect.run p).1 = .ok s) ∨
      ∃ f, (k.collect.run p).1 = .error f ∧ f.breaksOff = false) ↔ ¬ k.Overruns p := by
  rw [← BreaksOff.not_iff, collect_breaksOff_iff]

/-- A core that has not gone on, and so has no shares, still breaks the call off. -/
theorem not_reports_of_large_counters : ¬ ∀ (k : MetricKind) (p : Probe),
    (∃ s, (k.collect.run p).1 = .ok s) ∨
      ∃ f, (k.collect.run p).1 = .error f ∧ f.breaksOff = false := by
  intro h
  let core := "cpu0 18446744073709551615 1 0 0 0 0 0 0\n"
  let p : Probe := { files := .ofList [(FileTree.statPath,
    [.text ("cpu 10 0 0 10 0 0 0 0\n" ++ core), .text ("cpu 20 0 0 20 0 0 0 0\n" ++ core)])] }
  have hbreaks : BreaksOff (cpu.collect.run p).1 := by decide +kernel
  exact BreaksOff.not_iff.mpr (h cpu p) hbreaks

end MetricKind
end HostVitals
