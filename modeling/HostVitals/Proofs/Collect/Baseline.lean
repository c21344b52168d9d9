import HostVitals.Proofs.Collect.Recovery
import Mathlib.Data.List.Induction

/-! What is kept between calls is the last snapshot that was read. Every good reading takes its place,
also in a call that fails afterwards, and a bad one leaves it alone. So the shares that a call tells
are those between its last reading and the good one before, never those since an older one. -/
namespace HostVitals

namespace CpuSnapshot
variable {before now : CpuSnapshot}

def Countable (s : CpuSnapshot) : Prop := ∀ e ∈ s.entries, e.2.Fits

instance (s : CpuSnapshot) : Decidable s.Countable := inferInstanceAs (Decidable (∀ e ∈ _, _))

theorem Countable.tells (hbefore : before.Countable) (hnow : now.Countable) :
    CoreShares.Tells before now := fun name b c hb hc =>
  ⟨hbefore (name, b) (Named.mem_entries_iff.mpr hb), hnow (name, c) (Named.mem_entries_iff.mpr hc)⟩

def Elapses (before now : CpuSnapshot) : Prop :=
  ∃ name b c, before.find? name = some b ∧ now.find? name = some c ∧ b.sum < c.sum

theorem isEmpty_shares_iff {shares : Named CoreShares}
    (h : CoreShares.ofSnapshots before now = .ok shares) :
    shares.isEmpty = false ↔ before.Elapses now := by
  have hfind := CoreShares.find?_of_ok h
  constructor
  · intro hsome
    obtain ⟨⟨name, s⟩, hmem⟩ := List.exists_mem_of_ne_nil shares.entries
      (by simpa [Named.isEmpty] using hsome)
    have hs := Named.mem_entries_iff.mp hmem
    simp only [hfind, Option.bind_eq_some_iff, CoreShares.since_eq_some_iff] at hs
    obtain ⟨b, hb, c, hc, hpass, -⟩ := hs
    exact ⟨name, b, c, hb, hc, hpass⟩
  · rintro ⟨name, b, c, hb, hc, hpass⟩
    have hs : shares.find? name = some (CoreShares.gone b c) := by
      simp only [hfind, hb, hc, Option.bind_some]
      exact CoreShares.since_eq_some_iff.mpr ⟨hpass, rfl⟩
    exact Named.isEmpty_of_find? hs

end CpuSnapshot

namespace CpuBaseline
variable {b b' : CpuBaseline} {t : FileTree} {before now : CpuSnapshot} {f : Fault}
  {seen : List CpuSnapshot} {r : Except Fault (Named CoreShares)}

def fresh (b : CpuBaseline) (t : FileTree) : List CpuSnapshot :=
  (b.readings t).filterMap Except.toOption

def parsed : CpuBaseline → List FileTree → List CpuSnapshot
  | _, [] => []
  | b, t :: calls => b.fresh t ++ (b.next t).parsed calls

def filesAfter (b : CpuBaseline) (t : FileTree) : FileTree :=
  (Collecting.cpuShares.run { files := t, baseline := b }).2.files

theorem parsed_snoc (b : CpuBaseline) (calls : List FileTree) (t : FileTree) :
    b.parsed (calls ++ [t]) = b.parsed calls ++ (b.after calls).fresh t := by
  induction calls generalizing b with
  | nil => simp [parsed, after]
  | cons u calls ih => simp [parsed, ih, after]

theorem filesAfter_eq (b : CpuBaseline) (t : FileTree) :
    b.filesAfter t = t.reopened FileTree.statPath (b.readings t).length := by
  rw [filesAfter, Collecting.files_cpuShares, readings, List.length_map, List.length_range]

theorem readings_of_unread (h : t.cpuReading 0 = .error f) : b.readings t = [.error f] := by
  simp [readings, openings, h, Except.isOk, Except.toBool]

theorem readings_of_free (h : b.poisoned = false) : b.readings t = t.cpuReading 0 ::
    if b.previous = none ∧ (t.cpuReading 0).isOk then [t.cpuReading 1] else [] := by
  unfold readings openings
  simp only [h, true_and]
  split <;> simp [List.range_succ]

/-- A call that cannot read the file does not open it again. -/
theorem getLast?_of_error_mem (hfree : b.poisoned = false) (h : .error f ∈ b.readings t) :
    (b.readings t).getLast? = some (.error f) := by
  cases hread : t.cpuReading 0 with
  | error g =>
    rw [readings_of_unread hread] at h ⊢
    rw [List.mem_singleton.mp h]
    rfl
  | ok s =>
    rw [readings_of_free hfree, hread] at h ⊢
    split at h
    · next htwo =>
      have hsecond : t.cpuReading 1 = .error f := by simpa [eq_comm] using h
      rw [if_pos htwo, hsecond]
      rfl
    · simp at h

theorem Compares.latest (h : b.Compares t before now) (hfree : b.poisoned = false)
    (hkept : b.previous = seen.getLast?) : ∃ earlier, seen ++ b.fresh t = earlier ++ [before, now] := by
  cases hprevious : b.previous with
  | some kept =>
    simp only [Compares, hprevious] at h
    obtain ⟨rfl, hnow⟩ := h
    obtain ⟨earlier, rfl⟩ := List.getLast?_eq_some_iff.mp (hkept.symm.trans hprevious)
    exact ⟨earlier, by simp [fresh, readings_of_kept hprevious, hnow, Except.toOption]⟩
  | none =>
    simp only [Compares, hprevious] at h
    obtain rfl := List.getLast?_eq_none_iff.mp (hkept.symm.trans hprevious)
    exact ⟨[], by simp [fresh, readings_of_bare hfree hprevious h.1, h.1, h.2, Except.toOption]⟩

/-- What a call does that begins with the last of the snapshots so far. -/
theorem Call.step (h : b.Call t r b') (hb : b = { previous := seen.getLast? })
    (hfits : ∀ s ∈ seen ++ b.fresh t, s.Countable) :
    b' = { previous := (seen ++ b.fresh t).getLast? } ∧
    ((∃ f, (b.readings t).getLast? = some (.error f) ∧ r = .error f) ∨
      ∃ earlier before now shares, seen ++ b.fresh t = earlier ++ [before, now] ∧
        (b.readings t).getLast? = some (.ok now) ∧
        CoreShares.ofSnapshots before now = .ok shares ∧
        r = if shares.isEmpty then .error .noElapsed else .ok shares) := by
  have hkept : b.previous = seen.getLast? := by rw [hb]
  cases h with
  | @unread f unread =>
    have hread := readings_of_unread (b := b) unread
    have hfresh : b.fresh t = [] := by simp [fresh, hread, Except.toOption]
    exact ⟨by rw [hfresh, List.append_nil, ← hb], .inl ⟨f, by simp [hread], rfl⟩⟩
  | locked poisoned => simp [hb] at poisoned
  | @unreread f before free bare read unreread =>
    have hread := readings_of_bare free bare read
    rw [read, unreread] at hread
    have hfresh : b.fresh t = [before] := by simp [fresh, hread, Except.toOption]
    exact ⟨by simp [hfresh], .inl ⟨f, by simp [hread], rfl⟩⟩
  | @told before now shares free compares told =>
    obtain ⟨earlier, hlatest⟩ := compares.latest free hkept
    exact ⟨by simp [hlatest], .inr ⟨earlier, before, now, shares, hlatest,
      compares.getLast?_readings free, told, rfl⟩⟩
  | @broken before now free compares untold =>
    obtain ⟨earlier, hlatest⟩ := compares.latest free hkept
    rw [hlatest] at hfits
    exact absurd ((hfits before (by simp)).tells (hfits now (by simp))) untold

/-- What a call does after some snapshots have been read, of which it keeps the last. -/
structure KeepsLatest (seen : List CpuSnapshot) (b : CpuBaseline) (t : FileTree) : Prop where
  kept : b = { previous := seen.getLast? }
  once : seen ≠ [] → b.readings t = [t.cpuReading 0]
  twice : seen = [] → b.readings t =
    t.cpuReading 0 :: if (t.cpuReading 0).isOk then [t.cpuReading 1] else []
  opened : b.filesAfter t = t.reopened FileTree.statPath (b.readings t).length
  failed : ∀ f, .error f ∈ b.readings t → b.result t = .error f
  unread : ∀ f, t.cpuReading 0 = .error f → b.next t = b
  renewed : b.next t = { previous := (seen ++ b.fresh t).getLast? }
  told : ∀ shares, b.result t = .ok shares ↔ ∃ earlier before now,
    seen ++ b.fresh t = earlier ++ [before, now] ∧
    (b.readings t).getLast? = some (.ok now) ∧ before.Elapses now ∧
    CoreShares.ofSnapshots before now = .ok shares
  stalled : ∀ now, (b.readings t).getLast? = some (.ok now) →
    (∃ shares, b.result t = .ok shares) ∨ b.result t = .error .noElapsed

theorem keepsLatest (hb : b = { previous := seen.getLast? })
    (hfits : ∀ s ∈ seen ++ b.fresh t, s.Countable) : KeepsLatest seen b t := by
  have hfree : b.poisoned = false := by rw [hb]
  have hprevious : b.previous = seen.getLast? := by rw [hb]
  obtain ⟨hnext, hresult⟩ := (b.call_next t).step hb hfits
  constructor
  case kept => exact hb
  case once =>
    intro hseen
    have hsome : ¬ b.previous = none := by simpa [hprevious] using hseen
    simp [readings_of_free hfree, hsome]
  case twice =>
    rintro rfl
    have hnone : b.previous = none := hprevious
    simp [readings_of_free hfree, hnone]
  case opened => exact b.filesAfter_eq t
  case failed =>
    intro f hf
    have hlast := getLast?_of_error_mem hfree hf
    rcases hresult with ⟨g, hg, hr⟩ | ⟨earlier, before, now, shares, -, hnow, -, -⟩
    · cases hlast.symm.trans hg
      exact hr
    · cases hlast.symm.trans hnow
  case unread =>
    intro f hf
    rw [hnext, fresh, readings_of_unread hf, hb]
    simp [Except.toOption]
  case renewed => exact hnext
  case told =>
    intro shares
    rcases hresult with ⟨f, hf, hr⟩ | ⟨earlier, before, now, shares', hlatest, hnow, htold, hr⟩
    · rw [hr]
      constructor
      · nofun
      · rintro ⟨-, -, now, -, hnow, -⟩
        cases hf.symm.trans hnow
    · constructor
      · intro hok
        rw [hr] at hok
        split at hok
        · cases hok
        · next hempty =>
          cases hok
          exact ⟨earlier, before, now, hlatest, hnow,
            (CpuSnapshot.isEmpty_shares_iff htold).mp (by simpa using hempty), htold⟩
      · rintro ⟨earlier', before', now', hlatest', -, helapses, htold'⟩
        obtain ⟨-, hpair⟩ := List.append_inj' (hlatest.symm.trans hlatest') rfl
        cases hpair
        cases htold.symm.trans htold'
        rw [hr, (CpuSnapshot.isEmpty_shares_iff htold).mpr helapses]
        rfl
  case stalled =>
    intro now hnow
    rcases hresult with ⟨f, hf, hr⟩ | ⟨-, -, -, shares, -, -, -, hr⟩
    · cases hf.symm.trans hnow
    · cases hempty : shares.isEmpty with
      | true => exact .inr (by rw [hr, hempty]; rfl)
      | false => exact .inl ⟨shares, by rw [hr, hempty]; rfl⟩

theorem after_eq (calls : List FileTree)
    (h : ∀ s ∈ ({} : CpuBaseline).parsed calls, s.Countable) :
    ({} : CpuBaseline).after calls = { previous := (({} : CpuBaseline).parsed calls).getLast? } := by
  induction calls using List.reverseRecOn with
  | nil => rfl
  | append_singleton calls t ih =>
    rw [parsed_snoc] at h
    have hkept := ih fun s hs => h s (List.mem_append_left _ hs)
    rw [after_snoc, parsed_snoc]
    exact (keepsLatest hkept h).renewed

/-- Whatever calls have seen before, what a call begins with is the last snapshot that they read. -/
theorem keepsLatest_after (calls : List FileTree) (t : FileTree)
    (h : ∀ s ∈ ({} : CpuBaseline).parsed (calls ++ [t]), s.Countable) :
    KeepsLatest (({} : CpuBaseline).parsed calls) (({} : CpuBaseline).after calls) t := by
  rw [parsed_snoc] at h
  exact keepsLatest (after_eq calls fun s hs => h s (List.mem_append_left _ hs)) h

theorem keepsLatest_after_of_failing_call :
    let calls : List FileTree := [{},
      statFile ["cpu 10 0 0 10 0 0 0 0\n", "intr 1\n"],
      statFile ["cpu 10 0 0 10 0 0 0 0\n"]]
    let t := statFile ["cpu 30 0 0 20 0 0 0 0\n"]
    (∀ s ∈ ({} : CpuBaseline).parsed (calls ++ [t]), s.Countable) ∧
      KeepsLatest (({} : CpuBaseline).parsed calls) (({} : CpuBaseline).after calls) t ∧
      (({} : CpuBaseline).after calls).result t = .ok (.ofList [("cpu", ⟨30, 20, 10, 0, 0⟩)]) := by
  intro calls t
  have hfits : ∀ s ∈ ({} : CpuBaseline).parsed (calls ++ [t]), s.Countable := by decide +kernel
  exact ⟨hfits, keepsLatest_after calls t hfits, by decide +kernel⟩

end CpuBaseline
end HostVitals
