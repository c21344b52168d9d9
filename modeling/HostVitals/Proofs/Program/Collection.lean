import HostVitals.Program.Collection
import HostVitals.Proofs.Agent.Jobs
import HostVitals.Proofs.Collect.Steadiness

/-! What the command prints that takes one sample of each metric, on a host that stays as it is. -/
namespace HostVitals.Program
open MetricKind
variable {p q : Probe} {kinds : List MetricKind} {told : MetricKind → Except Fault Sample}

/-- One collection does not disturb the next. -/
theorem sampleAll_of_unchanged (hfiles : p.files.Constant) (hp : p.baseline.Repeats p.files)
    (hreports : ∀ k ∈ kinds, ¬ BreaksOff (k.collect.run p).1) (hq : Unchanged p q) :
    sampleAll kinds q = .ok (kinds.map fun k => (k, (k.collect.run p).1)) := by
  -- on the metrics that are left; the host as they find it differs in the kept snapshot only
  induction kinds generalizing q with
  | nil => rfl
  | cons k rest ih =>
    have hk := hreports k List.mem_cons_self
    obtain ⟨hsame, hnext⟩ := collect_of_unchanged k hfiles hp hq hk
    rw [← hsame] at hk
    rw [sampleAll, List.map_cons, ← hsame]
    cases hrun : k.collect.run q with
    | mk r q' =>
      rw [hrun] at hk hnext
      have hrest : sampleAll rest q' = _ :=
        ih (fun k hk => hreports k (List.mem_cons_of_mem _ hk)) hnext
      cases r with
      | ok s => simp [hrest, Except.map]
      | error f => simp [hrest, BreaksOff.error_iff.not.mp hk, Except.map]

def entriesOf (told : MetricKind → Except Fault Sample) (kinds : List MetricKind) :
    List (String × Document) :=
  (kinds.filterMap fun k => (told k).toOption.map fun s => (k.name, s.document)).mergeSort
    fun a b => decide (a.1 ≤ b.1)

theorem samplesDocument_eq (told : MetricKind → Except Fault Sample) (kinds : List MetricKind) :
    samplesDocument (kinds.map fun k => (k, told k)) = .table (entriesOf told kinds) := by
  rw [samplesDocument, List.filterMap_map]
  rfl

theorem mem_entriesOf {name : String} {d : Document} : (name, d) ∈ entriesOf told kinds ↔
    ∃ k ∈ kinds, ∃ s, told k = .ok s ∧ k.name = name ∧ s.document = d := by
  rw [entriesOf, List.mem_mergeSort, List.mem_filterMap]
  refine exists_congr fun k => and_congr_right fun _ => ?_
  cases told k <;> simp [Except.toOption]

theorem not_mem_entriesOf {k : MetricKind} {f : Fault} (h : told k = .error f) :
    k.name ∉ (entriesOf told kinds).map Prod.fst := by
  intro hmem
  obtain ⟨⟨name, d⟩, hentry, hname⟩ := List.mem_map.mp hmem
  obtain ⟨k', -, s, hs, hname', -⟩ := mem_entriesOf.mp hentry
  rw [name_inj (hname'.trans hname)] at hs
  cases hs.symm.trans h

theorem nodup_entriesOf (hkinds : kinds.Nodup) : ((entriesOf told kinds).map Prod.fst).Nodup := by
  refine ((List.mergeSort_perm _ _).map Prod.fst).nodup_iff.mpr ?_
  rw [List.map_filterMap]
  refine hkinds.filterMap fun k k' name hk hk' => ?_
  simp only [Option.mem_def, Option.map_map, Option.map_eq_some_iff] at hk hk'
  obtain ⟨s, -, rfl⟩ := hk
  obtain ⟨s', -, hname⟩ := hk'
  exact (name_inj hname).symm

theorem allFailed_iff (told : MetricKind → Except Fault Sample) (kinds : List MetricKind) :
    allFailed (kinds.map fun k => (k, told k)) = true ↔
      kinds ≠ [] ∧ ∀ k ∈ kinds, (told k).toOption = none := by
  have hfails (k : MetricKind) : (told k).isOk = false ↔ (told k).toOption = none := by
    cases told k <;> simp [Except.isOk, Except.toBool, Except.toOption]
  simp [allFailed, hfails]

theorem collect_of_sampleAll {s : Settings} (took : MetricKind → String)
    (h : sampleAll s.enabled p = .ok (s.enabled.map fun k => (k, told k))) :
    collect took p s none .json = {
      out := Format.json.render (.table (entriesOf told s.enabled)) ++ "\n"
      err := String.join (s.enabled.map fun k => note took k (told k))
      files := p.files
      result := if allFailed (s.enabled.map fun k => (k, told k)) then .error .nothingCollected
        else .ok () } := by
  simp only [collect, wanted, h, samplesDocument_eq, List.map_map]
  rfl

end HostVitals.Program
