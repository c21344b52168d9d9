import HostVitals.Collect.CpuUsage
import HostVitals.Proofs.Proc.CpuShares

/-! One call for the processor shares. It compares two snapshots: the one that is kept and a new
one, or two new ones if none is kept. What it reports and what it keeps follows from these two. -/
namespace HostVitals

theorem CpuSnapshot.not_breaksOff_parse (text : List Char) : ¬ BreaksOff (parse text) := by
  by_cases h : (read text).isEmpty
  · simp [parse, h, BreaksOff.error_iff, Fault.breaksOff]
  · simp [parse, h]

namespace FileTree

def reopened (t : FileTree) (path : String) : Nat → FileTree
  | 0 => t
  | n + 1 => ((t.reopened path n).read path).2

def reading (t : FileTree) (path : String) (n : Nat) : Except IoError String :=
  ((t.reopened path n).read path).1

def statPath : String := "/proc/stat"

def cpuReading (t : FileTree) (n : Nat) : Except Fault CpuSnapshot :=
  ((t.reading statPath n).mapError (.unreadable statPath)).bind fun s => CpuSnapshot.parse s.toList

theorem not_breaksOff_cpuReading (t : FileTree) (n : Nat) : ¬ BreaksOff (t.cpuReading n) := by
  intro h
  rcases BreaksOff.bind_iff.mp h with hread | ⟨s, -, hparse⟩
  · exact BreaksOff.not_mapError (fun _ => rfl) hread
  · exact CpuSnapshot.not_breaksOff_parse _ hparse

theorem breaksOff_of_cpuReading {t : FileTree} {n : Nat} {f : Fault}
    (h : t.cpuReading n = .error f) : f.breaksOff = false := by
  have hnot := t.not_breaksOff_cpuReading n
  rw [h, BreaksOff.error_iff] at hnot
  simpa using hnot

end FileTree

namespace CpuBaseline
variable {b : CpuBaseline} {t : FileTree} {before before' now now' : CpuSnapshot}

def Compares (b : CpuBaseline) (t : FileTree) (before now : CpuSnapshot) : Prop :=
  match b.previous with
  | some kept => kept = before ∧ t.cpuReading 0 = .ok now
  | none => t.cpuReading 0 = .ok before ∧ t.cpuReading 1 = .ok now

theorem Compares.first (h : b.Compares t before now) : ∃ s, t.cpuReading 0 = .ok s := by
  unfold Compares at h
  cases hprevious : b.previous with
  | none => exact ⟨before, by simp only [hprevious] at h; exact h.1⟩
  | some kept => exact ⟨now, by simp only [hprevious] at h; exact h.2⟩

theorem Compares.second (h : b.Compares t before now) (hbare : b.previous = none) :
    t.cpuReading 1 = .ok now := by
  simp only [Compares, hbare] at h
  exact h.2

theorem Compares.unique (h : b.Compares t before now) (h' : b.Compares t before' now') :
    before = before' ∧ now = now' := by
  unfold Compares at h h'
  cases hprevious : b.previous with
  | none =>
    simp only [hprevious] at h h'
    cases h.1.symm.trans h'.1
    cases h.2.symm.trans h'.2
    exact ⟨rfl, rfl⟩
  | some kept =>
    simp only [hprevious] at h h'
    cases h.2.symm.trans h'.2
    exact ⟨h.1.symm.trans h'.1, rfl⟩

def openings (b : CpuBaseline) (t : FileTree) : Nat :=
  if b.poisoned = false ∧ b.previous = none ∧ (t.cpuReading 0).isOk then 2 else 1

/-- What a call reports and what is kept after it. -/
inductive Call (b : CpuBaseline) (t : FileTree) :
    Except Fault (Named CoreShares) → CpuBaseline → Prop where
  | unread {f : Fault} (unread : t.cpuReading 0 = .error f) : Call b t (.error f) b
  | locked {now : CpuSnapshot} (poisoned : b.poisoned = true) (read : t.cpuReading 0 = .ok now) :
    Call b t (.error .lockPoisoned) b
  | unreread {f : Fault} {before : CpuSnapshot} (free : b.poisoned = false)
    (bare : b.previous = none) (read : t.cpuReading 0 = .ok before)
    (unreread : t.cpuReading 1 = .error f) : Call b t (.error f) { previous := some before }
  | told {before now : CpuSnapshot} {shares : Named CoreShares} (free : b.poisoned = false)
    (compares : b.Compares t before now)
    (told : CoreShares.ofSnapshots before now = .ok shares) :
    Call b t (if shares.isEmpty then .error .noElapsed else .ok shares) { previous := some now }
  | broken {before now : CpuSnapshot} (free : b.poisoned = false)
    (compares : b.Compares t before now) (untold : ¬ CoreShares.Tells before now) :
    Call b t (.error (.overflow .add)) { previous := some before, poisoned := true }

/-- A call breaks off in the middle of telling the shares. -/
theorem Call.broken_of_breaksOff {b' : CpuBaseline} {r : Except Fault (Named CoreShares)}
    (h : b.Call t r b') (hr : BreaksOff r) : ∃ before now, b.poisoned = false ∧
      b.Compares t before now ∧ ¬ CoreShares.Tells before now ∧ b'.poisoned = true := by
  cases h with
  | unread unread =>
    simp [BreaksOff.error_iff, FileTree.breaksOff_of_cpuReading unread] at hr
  | locked poisoned read => simp [BreaksOff.error_iff, Fault.breaksOff] at hr
  | unreread free bare read unreread =>
    simp [BreaksOff.error_iff, FileTree.breaksOff_of_cpuReading unreread] at hr
  | @told before now shares free compares told =>
    cases hempty : shares.isEmpty <;> simp [hempty, BreaksOff.error_iff, Fault.breaksOff] at hr
  | @broken before now free compares untold => exact ⟨before, now, free, compares, untold, rfl⟩

theorem update_of_shares (h : b.poisoned = false) (hb : b.previous = some before)
    {shares : Named CoreShares} (hs : CoreShares.ofSnapshots before now = .ok shares) :
    b.update now = (.ok (if shares.isEmpty then none else some shares),
      { previous := some now }) := by
  simp [update, h, hb, hs]

theorem update_of_not_tells (h : b.poisoned = false) (hb : b.previous = some before)
    (ht : ¬ CoreShares.Tells before now) : b.update now =
      (.error (.overflow .add), { previous := some before, poisoned := true }) := by
  simp [update, h, hb, CoreShares.ofSnapshots_of_not_tells ht]

end CpuBaseline

namespace Collecting
variable {p : Probe} {before now : CpuSnapshot} {f : Fault}

theorem run_cpuSnapshot (p : Probe) : cpuSnapshot.run p =
    (p.files.cpuReading 0, { p with files := p.files.reopened FileTree.statPath 1 }) := by
  rw [cpuSnapshot, run_bind, run_file]
  show _ = (((p.files.read FileTree.statPath).1.mapError (.unreadable FileTree.statPath)).bind
    fun s => CpuSnapshot.parse s.toList, _)
  cases h : (p.files.read "/proc/stat").1 with
  | error e => simp [FileTree.statPath, h, Except.map, Except.bind]; rfl
  | ok s => simp [FileTree.statPath, h, Except.map, Except.bind]; rfl

theorem run_updateBaseline (now : CpuSnapshot) (p : Probe) : (updateBaseline now).run p =
    ((p.baseline.update now).1, { p with baseline := (p.baseline.update now).2 }) := by
  rw [updateBaseline, run_bind_of_ok (run_get p), run_bind_of_ok (run_set p _), run_ofExcept]

theorem run_takeBaseline_of_error (h : p.files.cpuReading 0 = .error f) : takeBaseline.run p =
    (.error f, { p with files := p.files.reopened FileTree.statPath 1 }) := by
  rw [takeBaseline, run_bind_of_error (by rw [run_cpuSnapshot, h])]

theorem run_takeBaseline_of_ok (h : p.files.cpuReading 0 = .ok now) : takeBaseline.run p =
    ((p.baseline.update now).1.map fun _ => (),
      { p with
        files := p.files.reopened FileTree.statPath 1
        baseline := (p.baseline.update now).2 }) := by
  rw [takeBaseline, run_bind_of_ok (by rw [run_cpuSnapshot, h])]
  show Collecting.run (updateBaseline now >>= fun _ => pure ()) _ = _
  rw [run_bind, run_updateBaseline]
  obtain ⟨r, b⟩ := p.baseline.update now
  cases r <;> rfl

theorem run_takeBaseline_of_poisoned (hread : p.files.cpuReading 0 = .ok now)
    (h : p.baseline.poisoned = true) : takeBaseline.run p =
      (.error .lockPoisoned, { p with files := p.files.reopened FileTree.statPath 1 }) := by
  simp [run_takeBaseline_of_ok hread, CpuBaseline.update, h, Except.map]

theorem run_takeBaseline_of_bare (hread : p.files.cpuReading 0 = .ok now)
    (hfree : p.baseline.poisoned = false) (hbare : p.baseline.previous = none) :
    takeBaseline.run p = (.ok (),
      { p with
        files := p.files.reopened FileTree.statPath 1
        baseline := { previous := some now } }) := by
  simp [run_takeBaseline_of_ok hread, CpuBaseline.update, hfree, hbare, Except.map]

def nextShares : Collecting (Named CoreShares) := do
  match ← updateBaseline (← cpuSnapshot) with
  | some shares => return shares
  | none => throw .noElapsed

theorem cpuShares_of_isSet (h : p.baseline.isSet = true) : cpuShares.run p = nextShares.run p := by
  rw [cpuShares, run_bind_of_ok (run_get p), if_pos h]
  rfl

theorem cpuShares_of_not_isSet (h : p.baseline.isSet = false) : cpuShares.run p =
    (do takeBaseline; nextShares : Collecting _).run p := by
  rw [cpuShares, run_bind_of_ok (run_get p), if_neg (by simp [h])]
  rfl

theorem run_nextShares_of_error (h : p.files.cpuReading 0 = .error f) :
    (nextShares.run p).1 = .error f ∧ (nextShares.run p).2.baseline = p.baseline := by
  rw [nextShares, run_bind_of_error (by rw [run_cpuSnapshot, h])]
  exact ⟨rfl, rfl⟩

theorem run_nextShares_of_ok (h : p.files.cpuReading 0 = .ok now) :
    ((nextShares.run p).1 = match (p.baseline.update now).1 with
      | .error f => .error f
      | .ok none => .error .noElapsed
      | .ok (some shares) => .ok shares) ∧
    (nextShares.run p).2.baseline = (p.baseline.update now).2 := by
  rw [nextShares, run_bind_of_ok (by rw [run_cpuSnapshot, h]), run_bind, run_updateBaseline]
  obtain ⟨r, b⟩ := p.baseline.update now
  cases r with
  | error f => exact ⟨rfl, rfl⟩
  | ok shares => cases shares <;> exact ⟨rfl, rfl⟩

theorem files_nextShares (p : Probe) :
    (nextShares.run p).2.files = p.files.reopened FileTree.statPath 1 := by
  cases hread : p.files.cpuReading 0 with
  | error f => rw [nextShares, run_bind_of_error (by rw [run_cpuSnapshot, hread])]
  | ok now =>
    rw [nextShares, run_bind_of_ok (by rw [run_cpuSnapshot, hread]), run_bind, run_updateBaseline]
    obtain ⟨r, b⟩ := p.baseline.update now
    cases r with
    | error f => rfl
    | ok shares => cases shares <;> rfl

/-- The second half compares what is kept with the next reading. -/
theorem call_nextShares {b : CpuBaseline} {t : FileTree} (hfree : b.poisoned = false)
    (hkept : p.baseline = { previous := some before })
    (hcompares : ∀ {now}, p.files.cpuReading 0 = .ok now → b.Compares t before now)
    (hunread : ∀ {f}, p.files.cpuReading 0 = .error f →
      b.Call t (.error f) { previous := some before }) :
    b.Call t (nextShares.run p).1 (nextShares.run p).2.baseline := by
  cases hread : p.files.cpuReading 0 with
  | error f =>
    obtain ⟨hr, hb⟩ := run_nextShares_of_error hread
    rw [hr, hb, hkept]
    exact hunread hread
  | ok now =>
    obtain ⟨hr, hb⟩ := run_nextShares_of_ok hread
    rw [hr, hb, hkept]
    -- the new snapshot is kept only once the shares have been told
    by_cases htells : CoreShares.Tells before now
    · obtain ⟨shares, hshares, -⟩ := CoreShares.ofSnapshots_of_tells htells
      have := CpuBaseline.Call.told hfree (hcompares hread) hshares
      rw [CpuBaseline.update_of_shares rfl rfl hshares]
      cases h : shares.isEmpty <;> simpa [h] using this
    · rw [CpuBaseline.update_of_not_tells rfl rfl htells]
      exact .broken hfree (hcompares hread) htells

theorem call_cpuShares (p : Probe) :
    p.baseline.Call p.files (cpuShares.run p).1 (cpuShares.run p).2.baseline := by
  obtain ⟨files, volumes, uname, ⟨previous, poisoned⟩, window⟩ := p
  cases poisoned with
  | true =>
    rw [cpuShares_of_not_isSet rfl]
    cases hread : files.cpuReading 0 with
    | error f =>
      rw [run_bind_of_error (run_takeBaseline_of_error hread)]
      exact .unread hread
    | ok now =>
      rw [run_bind_of_error (run_takeBaseline_of_poisoned hread rfl)]
      exact .locked rfl hread
  | false =>
    cases previous with
    | some before =>
      rw [cpuShares_of_isSet rfl]
      exact call_nextShares rfl rfl (fun h => ⟨rfl, h⟩) .unread
    | none =>
      rw [cpuShares_of_not_isSet rfl]
      cases hread : files.cpuReading 0 with
      | error f =>
        rw [run_bind_of_error (run_takeBaseline_of_error hread)]
        exact .unread hread
      | ok before =>
        let p : Probe := ⟨files, volumes, uname, {}, window⟩
        rw [run_bind_of_ok (run_takeBaseline_of_bare (p := p) hread rfl rfl)]
        exact call_nextShares rfl rfl (fun h => ⟨hread, h⟩) (.unreread rfl rfl hread)

theorem files_cpuShares (p : Probe) : (cpuShares.run p).2.files =
    p.files.reopened FileTree.statPath (p.baseline.openings p.files) := by
  obtain ⟨files, volumes, uname, ⟨previous, poisoned⟩, window⟩ := p
  cases hread : files.cpuReading 0 with
  | error f =>
    have hone : CpuBaseline.openings { previous, poisoned } files = 1 := by
      simp [CpuBaseline.openings, hread, Except.isOk, Except.toBool]
    cases hset : CpuBaseline.isSet { previous, poisoned } with
    | true => rw [cpuShares_of_isSet hset, files_nextShares, hone]
    | false =>
      rw [cpuShares_of_not_isSet hset, run_bind_of_error (run_takeBaseline_of_error hread), hone]
  | ok now =>
    cases poisoned with
    | true =>
      rw [cpuShares_of_not_isSet rfl, run_bind_of_error (run_takeBaseline_of_poisoned hread rfl)]
      rfl
    | false =>
      cases previous with
      | some before => rw [cpuShares_of_isSet rfl, files_nextShares]; rfl
      | none =>
        have htwo : CpuBaseline.openings {} files = 2 := by
          simp [CpuBaseline.openings, hread, Except.isOk, Except.toBool]
        let p : Probe := ⟨files, volumes, uname, {}, window⟩
        rw [cpuShares_of_not_isSet rfl,
          run_bind_of_ok (run_takeBaseline_of_bare (p := p) hread rfl rfl), htwo]
        exact files_nextShares _

/-- A call waits between its two looks at the processors, if there are two. -/
theorem cpuPause_eq (p : Probe) :
    cpuPause p = if p.baseline.openings p.files = 2 then p.window else 0 := by
  obtain ⟨files, volumes, uname, ⟨previous, poisoned⟩, window⟩ := p
  unfold cpuPause CpuBaseline.openings
  cases hread : files.cpuReading 0 with
  | error f =>
    rw [run_takeBaseline_of_error hread]
    simp [Except.isOk, Except.toBool]
  | ok now =>
    rw [run_takeBaseline_of_ok hread]
    cases poisoned <;> cases previous <;>
      simp [CpuBaseline.isSet, CpuBaseline.update, Except.isOk, Except.toBool, Except.map]

end Collecting
end HostVitals
