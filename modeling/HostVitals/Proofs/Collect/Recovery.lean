import HostVitals.Proofs.Collect.CpuCall
import HostVitals.Proofs.Proc.CpuParts
import Mathlib.Data.List.Chain

/-! What a bad reading of the processor counters leaves behind. Calls share what is kept: as long as
none has broken off, two calls with good readings end with shares. One that has broken off leaves
the lock poisoned, and no later call gives shares. -/
namespace HostVitals

namespace CoreTicks
variable {b c : CoreTicks}

def GoesOn (b c : CoreTicks) : Prop :=
  (b.user ≤ c.user ∧ b.nice ≤ c.nice ∧ b.system ≤ c.system ∧ b.idle ≤ c.idle ∧
    b.iowait ≤ c.iowait ∧ b.irq ≤ c.irq ∧ b.softirq ≤ c.softirq ∧ b.steal ≤ c.steal) ∧
  b.sum < c.sum

instance : Decidable (GoesOn b c) := inferInstanceAs (Decidable (_ ∧ _))

end CoreTicks

namespace CoreShares
variable {b c : CoreTicks}

def AddsUp (s : CoreShares) : Prop := 0 < s.elapsed ∧ s.usage + s.idle + s.iowait = s.elapsed

theorem since_of_goesOn (h : b.GoesOn c) : ∃ s, since b c = some s ∧ s.AddsUp :=
  ⟨gone b c, since_eq_some_iff.mpr ⟨h.2, rfl⟩, Nat.sub_pos_of_lt h.2,
    usage_add (CoreTicks.grows_iff.mpr h.1)⟩

end CoreShares

namespace CpuSnapshot

def GoesOn (before now : CpuSnapshot) : Prop :=
  ∃ b c, before.find? "cpu" = some b ∧ now.find? "cpu" = some c ∧ b.GoesOn c

instance (before now : CpuSnapshot) : Decidable (before.GoesOn now) :=
  match hb : before.find? "cpu", hc : now.find? "cpu" with
  | none, _ => isFalse (by simp [GoesOn, hb])
  | some _, none => isFalse (by simp [GoesOn, hc])
  | some b, some c => decidable_of_iff (b.GoesOn c) (by simp [GoesOn, hb, hc])

structure Steady (readings : List CpuSnapshot) : Prop where
  fits : ∀ s ∈ readings, ∀ e ∈ s.entries, e.2.Fits
  goesOn : readings.IsChain GoesOn

end CpuSnapshot

namespace CpuBaseline
variable {b : CpuBaseline} {t t' : FileTree} {before now : CpuSnapshot} {l : List CpuSnapshot}

def result (b : CpuBaseline) (t : FileTree) : Except Fault (Named CoreShares) :=
  (Collecting.cpuShares.run { files := t, baseline := b }).1

def next (b : CpuBaseline) (t : FileTree) : CpuBaseline :=
  (Collecting.cpuShares.run { files := t, baseline := b }).2.baseline

def readings (b : CpuBaseline) (t : FileTree) : List (Except Fault CpuSnapshot) :=
  (List.range (b.openings t)).map t.cpuReading

theorem call_next (b : CpuBaseline) (t : FileTree) : b.Call t (b.result t) (b.next t) :=
  Collecting.call_cpuShares { files := t, baseline := b }

def after (b : CpuBaseline) (calls : List FileTree) : CpuBaseline := calls.foldl next b

def results : CpuBaseline → List FileTree → List (Except Fault (Named CoreShares))
  | _, [] => []
  | b, t :: calls => b.result t :: (b.next t).results calls

/-- A call that breaks off leaves the lock poisoned, and it stays so. -/
theorem Call.poisoned_iff {b b' : CpuBaseline} {r : Except Fault (Named CoreShares)}
    (h : b.Call t r b') : b'.poisoned = true ↔ b.poisoned = true ∨ BreaksOff r := by
  constructor
  · intro hpoisoned
    cases h with
    | unread unread => exact .inl hpoisoned
    | locked poisoned read => exact .inl poisoned
    | unreread free bare read unreread => cases hpoisoned
    | told free compares told => cases hpoisoned
    | broken free compares untold => exact .inr ⟨.add, rfl⟩
  · rintro (hpoisoned | hr)
    · cases h with
      | unread unread => exact hpoisoned
      | locked poisoned read => exact poisoned
      | unreread free => simp [hpoisoned] at free
      | told free => simp [hpoisoned] at free
      | broken free => rfl
    · obtain ⟨-, -, -, -, -, hpoisoned⟩ := h.broken_of_breaksOff hr
      exact hpoisoned

theorem poisoned_after_iff (b : CpuBaseline) (calls : List FileTree) :
    (b.after calls).poisoned = true ↔
      b.poisoned = true ∨ ∃ r ∈ b.results calls, BreaksOff r := by
  induction calls generalizing b with
  | nil => simp [after, results]
  | cons t calls ih =>
    show ((b.next t).after calls).poisoned = true ↔ _
    rw [ih, (b.call_next t).poisoned_iff, results]
    simp [or_assoc]

theorem Call.eq_lockPoisoned {b b' : CpuBaseline} {r : Except Fault (Named CoreShares)}
    (h : b.Call t r b') (hpoisoned : b.poisoned = true) (hread : t.cpuReading 0 = .ok now) :
    r = .error .lockPoisoned := by
  cases h with
  | unread unread => simp [hread] at unread
  | locked poisoned read => rfl
  | unreread free => simp [hpoisoned] at free
  | told free => simp [hpoisoned] at free
  | broken free => simp [hpoisoned] at free

theorem first_mem_readings (b : CpuBaseline) (t : FileTree) : t.cpuReading 0 ∈ b.readings t := by
  have hpos : 0 < b.openings t := by
    unfold openings
    split <;> omega
  exact List.mem_map.mpr ⟨0, List.mem_range.mpr hpos, rfl⟩

theorem readings_of_kept (h : b.previous = some before) : b.readings t = [t.cpuReading 0] := by
  simp [readings, openings, h]

theorem readings_of_bare (hfree : b.poisoned = false) (hbare : b.previous = none)
    (hread : t.cpuReading 0 = .ok before) :
    b.readings t = [t.cpuReading 0, t.cpuReading 1] := by
  simp [readings, openings, hfree, hbare, hread, Except.isOk, Except.toBool, List.range_succ]

/-- The later of the snapshots that are compared is the last reading. -/
theorem Compares.getLast?_readings (h : b.Compares t before now) (hfree : b.poisoned = false) :
    (b.readings t).getLast? = some (.ok now) := by
  cases hprevious : b.previous with
  | some kept =>
    simp only [Compares, hprevious] at h
    simp [readings_of_kept hprevious, h.2]
  | none =>
    simp only [Compares, hprevious] at h
    simp [readings_of_bare hfree hprevious h.1, h.2]

theorem Compares.getLast? (h : b.Compares t before now) (hfree : b.poisoned = false)
    (hread : b.readings t = l.map .ok) : l.getLast? = some now := by
  have hlast := h.getLast?_readings hfree
  rw [hread, List.getLast?_map] at hlast
  cases hl : l.getLast? with
  | none => simp [hl] at hlast
  | some s => simpa [hl] using hlast

/-- After good readings the last one is kept, unless the call breaks off. -/
theorem Call.kept {b b' : CpuBaseline} {r : Except Fault (Named CoreShares)} (h : b.Call t r b')
    (hfree : b.poisoned = false) (hread : b.readings t = l.map .ok) (hr : ¬ BreaksOff r) :
    ∃ s, l.getLast? = some s ∧ b' = { previous := some s } := by
  have hgood : ∀ f, .error f ∉ b.readings t := by simp [hread]
  cases h with
  | @unread f unread => exact absurd (unread ▸ b.first_mem_readings t) (hgood f)
  | locked poisoned read => simp [hfree] at poisoned
  | @unreread f before free bare read unreread =>
    refine absurd ?_ (hgood f)
    simp [readings_of_bare free bare read, unreread]
  | @told before now shares free compares told =>
    exact ⟨now, compares.getLast? hfree hread, rfl⟩
  | broken free compares untold => exact absurd ⟨.add, rfl⟩ hr

def GivesShares (r : Except Fault (Named CoreShares)) : Prop :=
  ∃ shares s, r = .ok shares ∧ shares.find? "cpu" = some s ∧ s.AddsUp

theorem Call.givesShares {b' : CpuBaseline} {r : Except Fault (Named CoreShares)}
    (h : Call { previous := some before } t r b') (hread : t.cpuReading 0 = .ok now)
    (htells : CoreShares.Tells before now) (hgo : before.GoesOn now) : GivesShares r := by
  cases h with
  | unread unread => simp [hread] at unread
  | locked poisoned => cases poisoned
  | unreread free bare => cases bare
  | @told before' now' shares free compares told =>
    obtain ⟨hbefore, hnow⟩ := compares
    cases hbefore
    cases hread.symm.trans hnow
    obtain ⟨shares', hshares, hfind⟩ := CoreShares.ofSnapshots_of_tells htells
    cases hshares.symm.trans told
    obtain ⟨b, c, hb, hc, hticks⟩ := hgo
    obtain ⟨s, hs, hadds⟩ := CoreShares.since_of_goesOn hticks
    have hcpu := (hfind "cpu" s).mpr ⟨b, c, hb, hc, hs⟩
    exact ⟨shares, s, by simp [Named.isEmpty_of_find? hcpu], hcpu, hadds⟩
  | @broken before' now' free compares untold =>
    obtain ⟨hbefore, hnow⟩ := compares
    cases hbefore
    cases hread.symm.trans hnow
    exact absurd htells untold

theorem after_snoc (b : CpuBaseline) (calls : List FileTree) (t : FileTree) :
    b.after (calls ++ [t]) = (b.after calls).next t := by
  simp [after]

theorem results_snoc (b : CpuBaseline) (calls : List FileTree) (t : FileTree) :
    b.results (calls ++ [t]) = b.results calls ++ [(b.after calls).result t] := by
  induction calls generalizing b with
  | nil => rfl
  | cons u calls ih => simp [results, ih, after]

def ReadsWell (calls : List FileTree) (t t' : FileTree) : Prop :=
  ∃ l, (({} : CpuBaseline).after calls).readings t ++
    (({} : CpuBaseline).after (calls ++ [t])).readings t' = l.map .ok ∧ CpuSnapshot.Steady l

/-- Whatever the calls before have seen, the second of two calls with good readings gives shares,
as long as none has broken off; otherwise all it reports is the poisoned lock. -/
theorem recovers_after (calls : List FileTree) (t t' : FileTree) (h : ReadsWell calls t t') :
    ((∀ r ∈ ({} : CpuBaseline).results (calls ++ [t]), ¬ BreaksOff r) →
      GivesShares ((({} : CpuBaseline).after (calls ++ [t])).result t')) ∧
    ((∃ r ∈ ({} : CpuBaseline).results (calls ++ [t]), BreaksOff r) →
      (({} : CpuBaseline).after (calls ++ [t])).result t' = .error .lockPoisoned) := by
  obtain ⟨l, hl, hfits, hchain⟩ := h
  obtain ⟨l₁, l₂, rfl, hread₁, hread₂⟩ := List.append_eq_map_iff.mp hl
  have hcall := (({} : CpuBaseline).after (calls ++ [t])).call_next t'
  constructor
  · intro hnone
    -- the first call leaves its last reading behind, which the second is compared with
    rw [results_snoc] at hnone
    have hfree : ¬ (({} : CpuBaseline).after calls).poisoned = true := by
      rw [poisoned_after_iff]
      rintro (hp | ⟨r, hr, hbreaks⟩)
      · cases hp
      · exact hnone r (List.mem_append_left _ hr) hbreaks
    obtain ⟨before, hbefore, hkept⟩ := (call_next (after {} calls) t).kept
      (Bool.eq_false_iff.mpr hfree) hread₁.symm (hnone _ (by simp))
    rw [after_snoc, hkept] at hcall hread₂ ⊢
    rw [readings_of_kept rfl] at hread₂
    obtain ⟨now, rfl, hnow⟩ := List.map_eq_singleton_iff.mp hread₂
    obtain ⟨-, -, hgo⟩ := List.isChain_append.mp hchain
    refine hcall.givesShares hnow.symm ?_ (hgo before hbefore now rfl)
    intro name b c hb hc
    have hmem := List.mem_append_left [now] (List.mem_of_getLast? hbefore)
    exact ⟨hfits before hmem (name, b) (Named.mem_entries_iff.mpr hb),
      hfits now (by simp) (name, c) (Named.mem_entries_iff.mpr hc)⟩
  · intro hbroken
    have hpoisoned := (poisoned_after_iff {} _).mpr (.inr hbroken)
    have hfirst := first_mem_readings (after {} (calls ++ [t])) t'
    rw [← hread₂] at hfirst
    obtain ⟨now, -, hnow⟩ := List.mem_map.mp hfirst
    exact hcall.eq_lockPoisoned hpoisoned hnow.symm

def statFile (texts : List String) : FileTree :=
  .ofList [(FileTree.statPath, texts.map .text)]

theorem recovers_after_of_unreadable_file :
    let calls : List FileTree := [{}]
    let t := statFile ["cpu 30 0 0 30 0 0 0 0\n", "cpu 40 0 0 40 0 0 0 0\n"]
    let t' := statFile ["cpu 50 0 0 50 0 0 0 0\n"]
    ReadsWell calls t t' ∧
      (∀ r ∈ ({} : CpuBaseline).results (calls ++ [t]), ¬ BreaksOff r) ∧
      GivesShares ((({} : CpuBaseline).after (calls ++ [t])).result t') := by
  intro calls t t'
  have hwell : ReadsWell calls t t' := by
    refine ⟨[CpuSnapshot.read "cpu 30 0 0 30 0 0 0 0\n".toList,
      CpuSnapshot.read "cpu 40 0 0 40 0 0 0 0\n".toList,
      CpuSnapshot.read "cpu 50 0 0 50 0 0 0 0\n".toList], ?_, ?_, ?_⟩
    all_goals decide +kernel
  have hnone : ∀ r ∈ ({} : CpuBaseline).results (calls ++ [t]), ¬ BreaksOff r := by
    decide +kernel
  exact ⟨hwell, hnone, (recovers_after calls t t' hwell).1 hnone⟩

/-- A reading with a core whose ticks cannot be counted breaks a call off, and no good reading after
it helps. -/
theorem not_recovers_of_poisoned_lock : ¬ ∀ calls t t', ReadsWell calls t t' →
    ∃ shares, (({} : CpuBaseline).after (calls ++ [t])).result t' = .ok shares ∧
      (shares.find? "cpu").isSome := by
  intro h
  let core := "cpu0 18446744073709551615 1 0 0 0 0 0 0\n"
  let calls := [statFile ["cpu 10 0 0 10 0 0 0 0\n" ++ core, "cpu 20 0 0 20 0 0 0 0\n" ++ core]]
  let t := statFile ["cpu 30 0 0 30 0 0 0 0\n"]
  let t' := statFile ["cpu 40 0 0 40 0 0 0 0\n"]
  have hwell : ReadsWell calls t t' := by
    refine ⟨[CpuSnapshot.read "cpu 30 0 0 30 0 0 0 0\n".toList,
      CpuSnapshot.read "cpu 40 0 0 40 0 0 0 0\n".toList], ?_, ?_, ?_⟩
    all_goals decide +kernel
  have hlocked : (({} : CpuBaseline).after (calls ++ [t])).result t' = .error .lockPoisoned := by
    decide +kernel
  obtain ⟨shares, hshares, -⟩ := h calls t t' hwell
  cases hlocked.symm.trans hshares

end CpuBaseline
end HostVitals
