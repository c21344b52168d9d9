import HostVitals.Proofs.Agent.Views
import HostVitals.Proofs.Program.Collection
import HostVitals.Proofs.Schedule.Repeating
import HostVitals.Proofs.Settings.Registration

/-! One sample of each metric can be had in two ways: from the command that takes them and prints
them, and from an agent that has just been started. On a host that stays as it is, both tell the
same. -/
namespace HostVitals
open MetricKind

namespace Agent
variable {s : Settings} {p : Probe} {a : Agent} {uptime : Nat}

def outcomeFor (p : Probe) (key : String) : Outcome Sample :=
  match MetricKind.ofName? key with
  | some k => outcomeOf (k.collect.run p).1
  | none => .crash

theorem outcomeFor_name (p : Probe) (k : MetricKind) :
    outcomeFor p k.name = outcomeOf (k.collect.run p).1 := by
  rw [outcomeFor, ofName?_name]

theorem pause_le_window (k : MetricKind) (q : Probe) : pause k q ≤ q.window := by
  cases k with
  | cpu =>
    rw [pause, Collecting.cpuPause]
    split
    · exact Nat.zero_le _
    · split
      · exact Nat.le_refl _
      · exact Nat.zero_le _
  | _ => exact Nat.zero_le _

theorem repeating_new (h : new s p uptime = .ok a) (hfiles : p.files.Constant)
    (hp : p.baseline.Repeats p.files)
    (hreports : ∀ k ∈ s.enabled, ¬ BreaksOff (k.collect.run p).1) :
    ∃ r, a.scheduler = Scheduler.withStore r {} p ∧
      (Scheduler.withStore r {} p).Repeating (Unchanged p) (outcomeFor p) p.window := by
  cases hr : s.registry producer with
  | error e =>
    rw [new, hr] at h
    cases h
  | ok r =>
    rw [new, hr] at h
    cases h
    refine ⟨r, rfl, ⟨rfl, hp⟩, fun l hl n around haround => ?_, fun l hl => ?_⟩
    · have hjob : (l.key, l.job) ∈ r.jobs.entries := by
        rw [← Scheduler.jobs_after r {} p []]
        exact List.mem_map_of_mem hl
      obtain ⟨k, hk, hkey, hproducer⟩ :=
        Settings.producer_of_registry hr (Named.mem_entries_iff.mp hjob)
      have hproducer' : l.producer = producer k := hproducer
      obtain ⟨hsame, hnext⟩ := collect_of_unchanged k hfiles hp haround (hreports k hk)
      have hwindow : around.window = p.window := by rw [haround.host]
      rw [hproducer', hkey, outcomeFor_name, ← hsame]
      exact ⟨⟨_, hwindow ▸ pause_le_window k around, rfl⟩, hnext⟩
    · simp [Loop.Repeats, (Scheduler.fresh_withStore r {} p l hl).history]

theorem outcomeOf_of_reports {e : Except Fault Sample} (h : ¬ BreaksOff e) :
    (outcomeOf e).value? = e.toOption ∧
      ∀ f, e = .error f → (outcomeOf e).error? = some f.message := by
  cases e with
  | ok smp => exact ⟨rfl, nofun⟩
  | error f =>
    rw [BreaksOff.error_iff] at h
    simp [outcomeOf, h, Outcome.value?, Outcome.error?, Except.toOption]

def sample? (a : Agent) (key : String) : Option Sample :=
  (a.scheduler.world.store.state? key).map (·.value)

def lastError? (a : Agent) (key : String) : Option String :=
  (a.scheduler.find? key).bind (·.stats.lastError)

def runsOver (a : Agent) (key : String) : Nat :=
  ((a.scheduler.find? key).map (·.stats.totalRuns)).getD 0

theorem runsOver_of_find? {key : String} {l : Loop Probe Sample}
    (h : a.scheduler.find? key = some l) : a.runsOver key = l.stats.totalRuns := by
  simp [runsOver, h]

end Agent

def AgentStep.schedule? : AgentStep → Option (Step Sample)
  | .schedule x => some x
  | _ => none

def AgentStep.isInside : AgentStep → Bool
  | .schedule x => !x.isOutside
  | .host _ _ _ => false
  | .ask _ => true

namespace Agent
variable {s : Settings} {p : Probe} {a : Agent} {uptime : Nat} (clock : Nat → String)
  {steps : List AgentStep}

theorem scheduler_after (hsteps : ∀ x ∈ steps, x.isInside = true) :
    (a.after clock steps).scheduler = a.scheduler.after (steps.filterMap AgentStep.schedule?) := by
  induction steps generalizing a with
  | nil => rfl
  | cons x rest ih =>
    have hrest := fun y hy => hsteps y (List.mem_cons_of_mem x hy)
    cases x with
    | schedule x => exact ih hrest
    | host files volumes uname => cases hsteps _ List.mem_cons_self
    | ask path =>
      show ((a.serve clock path).2.after clock rest).scheduler = _
      rw [ih hrest, serve_snd]
      rfl

/-- An agent that has been started on a host that stays as it is. -/
theorem told_after_run (h : new s p uptime = .ok a) (hfiles : p.files.Constant)
    (hp : p.baseline.Repeats p.files)
    (hreports : ∀ k ∈ s.enabled, ¬ BreaksOff (k.collect.run p).1)
    (hsteps : ∀ x ∈ steps, x.isInside = true)
    (hschedules : a.Schedules s.intervals) {k : MetricKind} (hk : k ∈ s.enabled) :
    let b := a.after clock (.schedule .run :: steps)
    ∃ l, b.scheduler.find? k.name = some l ∧ l.key = k.name ∧
      l.interval = Span.ofSeconds (s.interval k) ∧
      b.scheduler.Told l (outcomeOf (k.collect.run p).1) p.window none := by
  intro b
  obtain ⟨r, hr, hrepeating⟩ := repeating_new h hfiles hp hreports
  have hscheduler : b.scheduler = (Scheduler.withStore r {} p).after
      (.run :: steps.filterMap AgentStep.schedule?) := by
    rw [← hr]
    exact scheduler_after clock (List.forall_mem_cons.mpr ⟨rfl, hsteps⟩)
  -- requests leave the schedule alone, so that the rest is about the schedule
  have hinside : ∀ x ∈ steps.filterMap AgentStep.schedule?, x.isOutside = false := by
    intro x hx
    obtain ⟨y, hy, hyx⟩ := List.mem_filterMap.mp hx
    have hinside := hsteps y hy
    cases y with
    | schedule z =>
      cases hyx
      simpa [AgentStep.isInside] using hinside
    | host files volumes uname => cases hyx
    | ask path => cases hyx
  have hafter : b.Schedules s.intervals := hschedules.after clock (.schedule .run :: steps)
  obtain ⟨l, hfind, hlk, hinterval⟩ := hafter.exists_find? hk
  have htold := Scheduler.told_after_run r {} p hrepeating hinside l
    (hscheduler ▸ Scheduler.mem_of_find? hfind)
  rw [← hscheduler, hlk, outcomeFor_name] at htold
  exact ⟨l, hfind, hlk, hinterval, htold⟩

/-- What there is of a metric once a run of it is over. -/
theorem told_of_runsOver {b : Agent} {k : MetricKind} {l : Loop Probe Sample} {bound : Nat}
    (hreports : ¬ BreaksOff (k.collect.run p).1) (hfind : b.scheduler.find? k.name = some l)
    (htold : b.scheduler.Told l (outcomeOf (k.collect.run p).1) bound none)
    (hran : 0 < b.runsOver k.name) : b.sample? k.name = (k.collect.run p).1.toOption ∧
      ∀ f, (k.collect.run p).1 = .error f → b.lastError? k.name = some f.message := by
  obtain ⟨hvalue, herror⟩ := outcomeOf_of_reports hreports
  have hkey := Scheduler.key_of_find? hfind
  obtain ⟨hlast, hstate⟩ := htold.told (runsOver_of_find? hfind ▸ hran)
  constructor
  · rw [sample?, ← hkey, hstate, hvalue]
    exact Option.or_none
  · intro f hf
    rw [lastError?, hfind, ← herror f hf]
    exact hlast

def CanTell (a : Agent) (s : Settings) (k : MetricKind) : Prop :=
  InRange (Span.ofSeconds (s.interval k)) (a.scheduler.world.store.state? k.name)

instance (a : Agent) (s : Settings) (k : MetricKind) : Decidable (a.CanTell s k) :=
  inferInstanceAs (Decidable (InRange _ _))

def Replies (a : Agent) (k : MetricKind) (status : Nat) (value : Option Document) : Prop :=
  ∃ reply, (a.serve clock (Page.metric k.name).path).1 = .ok reply ∧ reply.status = status ∧
    reply.field? "value" = value

theorem ofCurrent_value (key : String) {c : Current Sample} {interval : Nat}
    {shown : Option (State Sample)} (hc : c.Shows interval shown) (hrange : InRange interval shown) :
    ∃ reply, Reply.ofCurrent clock key c = .ok reply ∧
      reply.status = (if shown.isSome then 200 else 503) ∧
      reply.field? "value" = shown.map (·.value.document) := by
  cases shown with
  | some st =>
    exact ⟨_, by rw [Reply.ofCurrent, hc.scheduleExists, hc.state]; rfl, rfl, rfl⟩
  | none =>
    obtain ⟨n, hn⟩ := Reply.retrySeconds_of_le hrange
    rw [← hc.retryAfter rfl] at hn
    exact ⟨_, by simp only [Reply.ofCurrent, hc.scheduleExists, hc.state, hn]; rfl, rfl, rfl⟩

theorem replies_of_canTell (h : a.Schedules s.intervals) {k : MetricKind} (hk : k ∈ s.enabled)
    (hrange : a.CanTell s k) : a.Replies clock k (if (a.sample? k.name).isSome then 200 else 503)
      ((a.sample? k.name).map (·.document)) := by
  obtain ⟨l, hfind, -, hinterval⟩ := h.exists_find? hk
  rw [CanTell, ← hinterval] at hrange
  obtain ⟨c, hc, hshows⟩ := Current.ofState_shows a.scheduler.now hrange
  obtain ⟨reply, hreply, hstatus, hvalue⟩ := ofCurrent_value clock k.name hshows hrange
  have hcurrent : a.scheduler.current k.name = .ok c :=
    (Scheduler.current_of_find? h.wired hfind).trans hc
  have hpage : Page.metric k.name ≠ .metric "" := fun he => k.name_ne_empty (Page.metric.inj he)
  have hget : (a.serve clock (Page.metric k.name).path).1 =
      (a.scheduler.current k.name).bind (Reply.ofCurrent clock k.name) := by
    rw [serve_path clock hpage rfl]
    rfl
  rw [hcurrent] at hget
  refine ⟨reply, hget.trans hreply, ?_, ?_⟩
  · rw [hstatus, sample?, Option.isSome_map]
  · rw [hvalue, sample?, Option.map_map]
    rfl

/-- What the command prints and what the agent shows tell the same of each metric that is enabled,
once a run of it is over: the sample of each that gave one, the failure of each other. The first
run is over after one look at the processors at the latest, if the clock has room for a second
tick; if not, there is no run. -/
structure TellsSame (took : MetricKind → String) (s : Settings) (window : Nat) (a : Agent)
    (e : Program.Effects) (told : MetricKind → Except Fault Sample)
    (entries : List (String × Document)) : Prop where
  out : e.out = Format.json.render (.table entries) ++ "\n"
  err : e.err = String.join (s.enabled.map fun k => Program.note took k (told k))
  nodup : (entries.map Prod.fst).Nodup
  names : ∀ entry ∈ entries, ∃ k ∈ s.enabled, entry.1 = k.name
  taken : ∀ k ∈ s.enabled, ∀ smp, told k = .ok smp → (k.name, smp.document) ∈ entries ∧
    (0 < a.runsOver k.name → a.CanTell s k → a.Replies clock k 200 (some smp.document))
  failed : ∀ k ∈ s.enabled, ∀ f, told k = .error f → k.name ∉ entries.map Prod.fst ∧
    (0 < a.runsOver k.name → a.lastError? k.name = some f.message ∧
      (a.CanTell s k → a.Replies clock k 503 none))
  nothing : (∀ k ∈ s.enabled, 0 < a.runsOver k.name ∧ a.CanTell s k) →
    (e.result = .error .nothingCollected ↔
      ∃ rows, (a.serve clock Page.metrics.path).1 = .ok (Reply.json 200 (.list rows)) ∧
        ∀ row ∈ rows, row.flag? "available" ≠ some true)
  untold : ∀ k ∈ s.enabled, a.runsOver k.name = 0 → a.lastError? k.name = none ∧
    (a.CanTell s k → a.Replies clock k 503 none)
  finished : ∀ k ∈ s.enabled, Span.ofSeconds (s.interval k) < instantLimit →
    window ≤ a.scheduler.now → 0 < a.runsOver k.name
  never : ∀ k ∈ s.enabled, instantLimit ≤ Span.ofSeconds (s.interval k) →
    a.runsOver k.name = 0

/-- The list of metrics shows no sample. -/
theorem no_row_available_iff (h : a.Schedules s.intervals)
    (hrange : ∀ k ∈ s.enabled, a.CanTell s k) :
    (∃ rows, (a.serve clock Page.metrics.path).1 = .ok (Reply.json 200 (.list rows)) ∧
      ∀ row ∈ rows, row.flag? "available" ≠ some true) ↔
    ∀ k ∈ s.enabled, a.sample? k.name = none := by
  have hanswerable := answerable_of_inRange h hrange
  have hlisting := (agrees clock h hanswerable s.empty_not_mem_intervals).listing
  have hkeys : a.scheduler.keys = s.enabled.map MetricKind.name := by
    rw [h.keys_eq, Settings.names_intervals]
  have hflag : ∀ k ∈ s.enabled, ((a.row clock k.name).flag? "available" ≠ some true ↔
      a.sample? k.name = none) := by
    intro k hk
    have hkey : k.name ∈ a.scheduler.keys := hkeys ▸ List.mem_map_of_mem hk
    rw [flag_row clock h hanswerable hkey, sample?]
    cases a.scheduler.world.store.state? k.name <;> simp
  rw [hlisting, hkeys, List.map_map]
  constructor
  · intro hrows k hk
    obtain ⟨rows, heq, hnone⟩ := hrows
    cases heq
    exact (hflag k hk).mp (hnone _ (List.mem_map_of_mem hk))
  · intro hnone
    refine ⟨_, rfl, fun row hrow => ?_⟩
    obtain ⟨k, hk, rfl⟩ := List.mem_map.mp hrow
    exact (hflag k hk).mpr (hnone k hk)

/-- On a host that stays as it is and breaks no collection off, the command and an agent tell the
same as soon as the first runs of the agent are over, as long as nothing that the agent tells goes
out of range. -/
theorem tellsSame_after_run {files : FileTree} (hvalid : s.validate files = .ok ())
    (hfiles : p.files.Constant) (hnew : p.baseline = {})
    (hreports : ∀ k ∈ s.enabled, ¬ BreaksOff (k.collect.run p).1)
    (hsteps : ∀ x ∈ steps, x.isInside = true) (took : MetricKind → String) (uptime : Nat) :
    ∃ a entries, new s p uptime = .ok a ∧
      (a.after clock (.schedule .run :: steps)).TellsSame clock took s p.window
        (Program.collect took p s none .json) (fun k => (k.collect.run p).1) entries := by
  let told (k : MetricKind) := (k.collect.run p).1
  have hp : p.baseline.Repeats p.files := hnew ▸ CpuBaseline.repeats_new p.files
  obtain ⟨a, ha, hschedules⟩ := schedules_new hvalid p uptime
  have hafter := hschedules.after clock (.schedule .run :: steps)
  have hloop (k : MetricKind) (hk : k ∈ s.enabled) :=
    told_after_run clock ha hfiles hp hreports hsteps hschedules hk
  have hsamples (k : MetricKind) (hk : k ∈ s.enabled)
      (hran : 0 < (a.after clock (.schedule .run :: steps)).runsOver k.name) :
      (a.after clock (.schedule .run :: steps)).sample? k.name = (told k).toOption ∧
        ∀ f, told k = .error f →
          (a.after clock (.schedule .run :: steps)).lastError? k.name = some f.message := by
    obtain ⟨l, hfind, -, -, htold⟩ := hloop k hk
    exact told_of_runsOver (hreports k hk) hfind htold hran
  have hresults : Program.sampleAll s.enabled p = .ok (s.enabled.map fun k => (k, told k)) :=
    Program.sampleAll_of_unchanged hfiles hp hreports ⟨rfl, hp⟩
  have hcollect := Program.collect_of_sampleAll took hresults
  rw [hcollect]
  refine ⟨a, Program.entriesOf told s.enabled, ha, ?_⟩
  constructor
  case out => rfl
  case err => rfl
  case nodup => exact Program.nodup_entriesOf s.nodup_enabled
  case names =>
    intro entry hentry
    obtain ⟨k, hk, -, -, hname, -⟩ := Program.mem_entriesOf.mp hentry
    exact ⟨k, hk, hname.symm⟩
  case taken =>
    intro k hk smp (hsmp : told k = .ok smp)
    refine ⟨Program.mem_entriesOf.mpr ⟨k, hk, smp, hsmp, rfl, rfl⟩, fun hran hrange => ?_⟩
    have hreplies := replies_of_canTell clock hafter hk hrange
    rw [(hsamples k hk hran).1, hsmp] at hreplies
    exact hreplies
  case failed =>
    intro k hk f (hf : told k = .error f)
    refine ⟨Program.not_mem_entriesOf hf, fun hran => ⟨(hsamples k hk hran).2 f hf,
      fun hrange => ?_⟩⟩
    have hreplies := replies_of_canTell clock hafter hk hrange
    rw [(hsamples k hk hran).1, hf] at hreplies
    exact hreplies
  case nothing =>
    intro hall
    have hfailed := Program.allFailed_iff told s.enabled
    rw [and_iff_right (Settings.enabled_ne_nil_of_validate hvalid)] at hfailed
    have hsame : (∀ k ∈ s.enabled, (told k).toOption = none) ↔ ∀ k ∈ s.enabled,
        (a.after clock (.schedule .run :: steps)).sample? k.name = none :=
      forall₂_congr fun k hk => by rw [(hsamples k hk (hall k hk).1).1]
    rw [no_row_available_iff clock hafter fun k hk => (hall k hk).2, ← hsame, ← hfailed]
    cases Program.allFailed (s.enabled.map fun k => (k, told k)) <;> simp
  case untold =>
    intro k hk hnone
    obtain ⟨l, hfind, hkey, -, htold⟩ := hloop k hk
    rw [runsOver_of_find? hfind] at hnone
    obtain ⟨hlast, hstate⟩ := htold.untold hnone
    refine ⟨by rw [lastError?, hfind]; exact hlast, fun hrange => ?_⟩
    have hreplies := replies_of_canTell clock hafter hk hrange
    rw [sample?, ← hkey, hstate] at hreplies
    exact hreplies
  case finished =>
    intro k hk hlimit hlong
    obtain ⟨l, hfind, -, hinterval, htold⟩ := hloop k hk
    rw [runsOver_of_find? hfind]
    exact htold.finished (hinterval ▸ hlimit) hlong
  case never =>
    intro k hk hlimit
    obtain ⟨l, hfind, -, hinterval, htold⟩ := hloop k hk
    rw [runsOver_of_find? hfind]
    exact htold.never (hinterval ▸ hlimit)

/-- One metric that can be read and one that cannot. -/
theorem tellsSame_after_run_of_two_metrics :
    let s : Settings := { collectors := fun k => { enabled := some (k == .load || k == .memory) } }
    let p : Probe := { files := .ofList [("/proc/loadavg", [.text "0.5 0.25 0.125 1/2 3\n"])] }
    let clock : Nat → String := fun _ => ""
    let steps : List AgentStep := [.ask "/metrics", .schedule (.advance (Span.ofSeconds 7))]
    s.validate {} = .ok () ∧ p.files.Constant ∧ p.baseline = {} ∧
      (∀ k ∈ s.enabled, ¬ BreaksOff (k.collect.run p).1) ∧ (∀ x ∈ steps, x.isInside = true) ∧
      ∃ a entries, new s p 0 = .ok a ∧
        (∀ k ∈ s.enabled, 0 < (a.after clock (.schedule .run :: steps)).runsOver k.name ∧
          (a.after clock (.schedule .run :: steps)).CanTell s k) ∧
        (a.after clock (.schedule .run :: steps)).TellsSame clock (fun _ => "0.10") s p.window
          (Program.collect (fun _ => "0.10") p s none .json) (fun k => (k.collect.run p).1)
          entries := by
  intro s p clock steps
  have hvalid : s.validate {} = .ok () := by decide +kernel
  have hfiles : p.files.Constant := by decide +kernel
  have hreports : ∀ k ∈ s.enabled, ¬ BreaksOff (k.collect.run p).1 := by decide +kernel
  have hsteps : ∀ x ∈ steps, x.isInside = true := by decide
  obtain ⟨a, entries, ha, hsame⟩ :=
    tellsSame_after_run clock hvalid hfiles rfl hreports hsteps (fun _ => "0.10") 0
  have hrange : (new s p 0).toOption.all fun a => decide
      (∀ k ∈ s.enabled, 0 < (a.after clock (.schedule .run :: steps)).runsOver k.name ∧
        (a.after clock (.schedule .run :: steps)).CanTell s k) := by
    decide +kernel
  rw [ha] at hrange
  exact ⟨hvalid, hfiles, rfl, hreports, hsteps, a, entries, ha, of_decide_eq_true hrange, hsame⟩

/-- An interval of more seconds than an instant can count, which settings may have: the command
prints the sample, and the agent has none, however long it runs. -/
theorem not_tellsSame_of_long_interval :
    let s : Settings := { collectors := fun k =>
      { enabled := some (k == .load), interval := some 10000000000000000000 } }
    let p : Probe := { files := .ofList [("/proc/loadavg", [.text "0.5 0.25 0.125 1/2 3\n"])] }
    s.validate {} = .ok () ∧ p.files.Constant ∧
      (∀ k ∈ s.enabled, ¬ BreaksOff (k.collect.run p).1) ∧
      ∃ a d, new s p 0 = .ok a ∧
        (Program.collect (fun _ => "0.10") p s none .json).out =
          Format.json.render (.table [("load", d)]) ++ "\n" ∧
        ∀ steps : List AgentStep, (∀ x ∈ steps, x.isInside = true) →
          (a.after (fun _ => "") (.schedule .run :: steps)).Replies (fun _ => "") .load 503
            none := by
  intro s p
  have hvalid : s.validate {} = .ok () := by decide +kernel
  have hfiles : p.files.Constant := by decide +kernel
  have hreports : ∀ k ∈ s.enabled, ¬ BreaksOff (k.collect.run p).1 := by decide +kernel
  have hp : p.baseline.Repeats p.files := CpuBaseline.repeats_new p.files
  have hcollect := Program.collect_of_sampleAll (fun _ => "0.10")
    (Program.sampleAll_of_unchanged hfiles hp hreports ⟨rfl, hp⟩)
  have henabled : s.enabled = [load] := by decide
  have hload : load ∈ s.enabled := by simp [henabled]
  have hsample : (load.collect.run p).1.toOption.isSome := by decide +kernel
  obtain ⟨smp, hsmp⟩ := Option.isSome_iff_exists.mp hsample
  obtain ⟨a, ha, hschedules⟩ := schedules_new hvalid p 0
  refine ⟨hvalid, hfiles, hreports, a, smp.document, ha, ?_, fun steps hsteps => ?_⟩
  · rw [hcollect, henabled]
    simp [Program.entriesOf, hsmp, MetricKind.name]
  · obtain ⟨l, -, hkey, hinterval, htold⟩ := told_after_run (fun _ => "") ha hfiles hp hreports
      hsteps hschedules hload
    have hlimit : instantLimit ≤ l.interval := by
      rw [hinterval]
      decide
    obtain ⟨-, hstate⟩ := htold.untold (htold.never hlimit)
    rw [hkey] at hstate
    have hafter := hschedules.after (fun _ => "") (.schedule .run :: steps)
    have hrange : (a.after (fun _ => "") (.schedule .run :: steps)).CanTell s load := by
      rw [CanTell, hstate]
      decide
    have hreplies := replies_of_canTell (fun _ => "") hafter hload hrange
    rw [sample?, hstate] at hreplies
    exact hreplies

end Agent
end HostVitals
