import HostVitals.Proofs.Agent.Jobs
import HostVitals.Proofs.Report.SeriesText
import HostVitals.Proofs.Schedule.Tally

/-! A schedule whose numbers are asked for now and then. What a counter shows was a count of the job
when somebody asked, and counts of a job never go back, so that the next to ask sees the count of
that instant, whoever has asked before. -/
namespace HostVitals
open Report

namespace Report.Telemetry
variable {t : Telemetry}

structure Mirrors (t : Telemetry) (lists : List (List JobSummary)) : Prop where
  once : t.runs.keys.Nodup
  told : ∀ key, textsIn t.encode key = (t.numbers key).texts
  counter : ∀ key (v : Verdict), (t.numbers key).counter v =
    ((lists.flatten.filter (·.key == key)).map v.total).max?
  grows : ∀ jobs key v n, (t.numbers key).counter v = some n →
    ∃ m, ((t.refresh jobs).numbers key).counter v = some m ∧ n ≤ m
  fits : (∀ j ∈ lists.flatten, ∀ v : Verdict, v.total j ≤ Text.maxU64) →
    ∀ key v n, (t.numbers key).counter v = some n → n ≤ Text.maxU64
  again : ∀ jobs, (t.refresh jobs).refresh jobs = t.refresh jobs
  order : ∀ jobs jobs', jobs.Perm jobs' → (jobs.map (·.key)).Nodup →
    (t.refresh jobs).encode = (t.refresh jobs').encode ∧
      ∀ key, (t.refresh jobs).numbers key = (t.refresh jobs').numbers key
  others : ∀ jobs key, key ∉ jobs.map (·.key) → (t.refresh jobs).numbers key = t.numbers key

theorem mirrors_after (lists : List (List JobSummary)) :
    (({} : Telemetry).after lists).Mirrors lists := by
  have hreached : (({} : Telemetry).after lists).IsReached := IsReached.after ⟨[], rfl⟩ lists
  have hcounter (key : String) (v : Verdict) :
      ((({} : Telemetry).after lists).numbers key).counter v =
        ((lists.flatten.filter (·.key == key)).map v.total).max? := by
    rw [after_eq_refresh, counter_refresh]
    rfl
  constructor
  case once => exact (hreached.proper feeds_runs).nodup
  case told => exact hreached.textsIn_encode
  case counter => exact hcounter
  case grows =>
    intro jobs key v n hn
    let totals := n :: (jobs.filter (·.key == key)).map v.total
    obtain ⟨m, hm⟩ : ∃ m, totals.max? = some m := ⟨_, rfl⟩
    rw [counter_refresh, hn]
    exact ⟨m, hm, (List.max?_eq_some_iff.mp hm).2 n List.mem_cons_self⟩
  case fits =>
    intro hfits key v n hn
    rw [hcounter] at hn
    obtain ⟨j, hj, rfl⟩ := List.mem_map.mp (List.max?_eq_some_iff.mp hn).1
    exact hfits j (List.mem_of_mem_filter hj) v
  case again => exact hreached.again
  case order =>
    exact fun jobs jobs' hperm hkeys =>
      ⟨hreached.encode_eq hperm hkeys, numbers_of_perm hperm hkeys _⟩
  case others => exact fun jobs key hkey => numbers_of_not_mem hkey _

end Report.Telemetry

namespace Loop
variable {σ α : Type} {now : Nat} {cancelled : Bool} {l l' : Loop σ α} {w w' : World σ α}

theorem Turn.count_le (t : l.Turn now cancelled w l' w') (v : Verdict) :
    v.count l.stats ≤ v.count l'.stats := by
  cases t with
  | stop waits off => exact Nat.le_refl _
  | start waits on ripe => exact Nat.le_refl _
  | spend waits on ripe => exact Nat.le_refl _
  | @finish due started r runs isOver =>
    cases v with
    | success =>
      have hcount := finish_successes l due 0 started now r w
      simp only [Verdict.count]
      omega
    | failure =>
      have hcount := finish_failures l due 0 started now r w
      simp only [Verdict.count]
      omega

end Loop

namespace Scheduler
variable {σ α : Type} {s : Scheduler σ α} {shown : String → Verdict → Option Nat}

def Ahead (shown : String → Verdict → Option Nat) (s : Scheduler σ α) : Prop :=
  ∀ key v n, shown key v = some n → ∃ l ∈ s.loops, l.key = key ∧ n ≤ v.count l.stats

theorem invariant_ahead : Invariant (Ahead (σ := σ) (α := α) shown) where
  turn s i l l' w' h hl ht key v n hn := by
    obtain ⟨x, hx, hkey, hle⟩ := h key v n hn
    obtain ⟨hmem, hsame⟩ := mem_turned_of_mem l' w' hl hx
    cases hsame with
    | inl hsame =>
      subst hsame
      exact ⟨l', hmem, ht.key_eq.trans hkey, Nat.le_trans hle (ht.count_le v)⟩
    | inr hkept => exact ⟨x, hkept, hkey, hle⟩
  pass s h _ := h
  arm s h _ key v n hn := by
    obtain ⟨x, hx, hkey, hle⟩ := h key v n hn
    exact ⟨_, List.mem_map_of_mem hx, hkey, hle⟩
  cancel s h _ := h

theorem Ahead.step (h : s.Ahead shown) (hs : s.Still) (x : Step α) : (s.step x).Ahead shown :=
  invariant_ahead.after_of_ignores h hs [x] fun _ _ h => h

theorem key_summaries (s : Scheduler σ α) : s.summaries.map (·.key) = s.keys := by
  rw [summaries, keys, List.map_map]
  rfl

theorem filter_summaries (h : s.Wired) (key : String) :
    s.summaries.filter (·.key == key) = ((s.find? key).map s.summaryOf).toList := by
  cases hf : s.find? key with
  | none =>
    refine List.filter_eq_nil_iff.mpr fun j hj => ?_
    obtain ⟨l, hl, rfl⟩ := List.mem_map.mp hj
    exact List.find?_eq_none.mp hf l hl
  | some l =>
    have hkeys : (s.summaries.map (·.key)).Nodup := s.key_summaries ▸ h.nodup
    have hj : s.summaryOf l ∈ s.summaries := List.mem_map_of_mem (mem_of_find? hf)
    have hkey : (s.summaryOf l).key = key := key_of_find? hf
    rw [← hkey]
    exact Telemetry.filter_key_of_mem hkeys hj

/-- What is shown after the numbers have been asked for. -/
theorem counter_refresh_summaries (h : s.Wired) {t : Telemetry}
    (hahead : s.Ahead fun key => (t.numbers key).counter) (key : String) (v : Verdict) :
    ((t.refresh s.summaries).numbers key).counter v =
      (s.find? key).map fun l => v.count l.stats := by
  rw [Telemetry.counter_refresh, filter_summaries h]
  cases hf : s.find? key with
  | none =>
    -- a counter without a job was never shown
    cases hn : (t.numbers key).counter v with
    | none => rfl
    | some n =>
      obtain ⟨l, hl, hkey, -⟩ := hahead key v n hn
      exact absurd (beq_iff_eq.mpr hkey) (List.find?_eq_none.mp hf l hl)
  | some l =>
    have htotal : v.total (s.summaryOf l) = v.count l.stats := v.total_summary _ _ _ _
    cases hn : (t.numbers key).counter v with
    | none => simp [htotal]
    | some n =>
      obtain ⟨x, hx, hkey, hle⟩ := hahead key v n hn
      have hsame : x = l := by
        have hfind := h.find?_of_mem hx
        rw [hkey, hf] at hfind
        exact (Option.some.inj hfind).symm
      subst hsame
      simp [htotal, Nat.max_eq_right hle]

/-- A text tells how often the jobs of a schedule have been run. A count is written as the nearest
double, and so as it is unless it is large. -/
structure CountedIn (s : Scheduler σ α) (text : String) : Prop where
  counts : ∀ key v, (Telemetry.textsIn text key).counter v =
    ((s.find? key).map fun l => Telemetry.countText (v.count l.stats)).toList
  exact : ∀ key l, s.find? key = some l → ∀ v : Verdict, v.count l.stats ≤ Binary64.wholeLimit →
    (Telemetry.textsIn text key).counter v = [toString (v.count l.stats)]

end Scheduler

inductive Watch (α : Type) where
  | schedule (x : Step α)
  | scrape

def Watch.schedule? {α : Type} : Watch α → Option (Step α)
  | .schedule x => some x
  | .scrape => none

structure Watched (σ α : Type) where
  scheduler : Scheduler σ α
  telemetry : Telemetry := {}

namespace Watched
variable {σ α : Type} {w : Watched σ α}

def scrape (w : Watched σ α) : Watched σ α :=
  { w with telemetry := w.telemetry.refresh w.scheduler.summaries }

def step (w : Watched σ α) : Watch α → Watched σ α
  | .schedule x => { w with scheduler := w.scheduler.step x }
  | .scrape => w.scrape

def after (w : Watched σ α) (turns : List (Watch α)) : Watched σ α := turns.foldl step w

def counter (w : Watched σ α) (key : String) : Verdict → Option Nat :=
  (w.telemetry.numbers key).counter

/-- Whoever asks leaves the schedule alone. -/
theorem scheduler_after (w : Watched σ α) (turns : List (Watch α)) :
    (w.after turns).scheduler = w.scheduler.after (turns.filterMap Watch.schedule?) := by
  induction turns generalizing w with
  | nil => rfl
  | cons turn rest ih =>
    cases turn with
    | schedule x => exact ih { w with scheduler := w.scheduler.step x }
    | scrape => exact ih w.scrape

structure Sound (w : Watched σ α) : Prop where
  wired : w.scheduler.Wired
  still : w.scheduler.Still
  reached : w.telemetry.IsReached
  ahead : w.scheduler.Ahead w.counter

theorem Sound.counter_scrape (h : w.Sound) (key : String) (v : Verdict) :
    w.scrape.counter key v = (w.scheduler.find? key).map fun l => v.count l.stats :=
  Scheduler.counter_refresh_summaries h.wired h.ahead key v

theorem Sound.countedIn (h : w.Sound) :
    w.scheduler.CountedIn w.scrape.telemetry.encode := by
  have hcounts (key : String) (v : Verdict) :
      (Telemetry.textsIn w.scrape.telemetry.encode key).counter v =
        ((w.scheduler.find? key).map fun l => Telemetry.countText (v.count l.stats)).toList := by
    have hcounter : (w.scrape.telemetry.numbers key).counter v = _ := h.counter_scrape key v
    have hreached : w.scrape.telemetry.IsReached := h.reached.refresh w.scheduler.summaries
    rw [hreached.textsIn_encode, Telemetry.JobNumbers.counter_texts, hcounter, Option.map_map,
      Function.comp_def]
  refine ⟨hcounts, fun key l hl v hle => ?_⟩
  rw [hcounts, hl, Option.map_some, Telemetry.countText_of_le hle]
  rfl

theorem Sound.step (h : w.Sound) (turn : Watch α) : (w.step turn).Sound := by
  cases turn with
  | schedule x =>
    exact ⟨Scheduler.wired_after h.wired h.still [x], Scheduler.still_step h.still x, h.reached,
      h.ahead.step h.still x⟩
  | scrape =>
    -- what is shown now is a count of this instant, and so no count is behind it
    refine ⟨h.wired, h.still, h.reached.refresh w.scheduler.summaries, fun key v n hn => ?_⟩
    have hscrape : w.scrape.counter key v = some n := hn
    rw [h.counter_scrape] at hscrape
    obtain ⟨l, hl, rfl⟩ := Option.map_eq_some_iff.mp hscrape
    exact ⟨l, Scheduler.mem_of_find? hl, Scheduler.key_of_find? hl, Nat.le_refl _⟩

theorem Sound.after (h : w.Sound) (turns : List (Watch α)) : (w.after turns).Sound := by
  induction turns generalizing w with
  | nil => exact h
  | cons turn rest ih => exact ih (h.step turn)

theorem sound_withStore (r : Registry (Producer σ α)) (store : Store α) (around : σ) :
    Sound { scheduler := .withStore r store around } where
  wired := Scheduler.wired_withStore r store around
  still := Scheduler.still_withStore r store around
  reached := ⟨[], rfl⟩
  ahead _ _ _ hn := nomatch hn

end Watched

namespace Agent
variable {a : Agent}

def watched (a : Agent) : Watched Probe Sample := ⟨a.scheduler, a.telemetry⟩

theorem sound_new {s : Settings} {probe : Probe} {uptime : Nat} (h : new s probe uptime = .ok a) :
    a.watched.Sound := by
  unfold new at h
  cases hr : s.registry producer with
  | error e =>
    rw [hr] at h
    cases h
  | ok r =>
    rw [hr] at h
    cases h
    exact Watched.sound_withStore r {} probe

/-- A request is at most a scrape. -/
theorem watched_serve (clock : Nat → String) (a : Agent) (path : String) :
    (a.serve clock path).2.watched = a.watched ∨
      (a.serve clock path).2.watched = a.watched.scrape := by
  unfold serve
  split
  · split
    · next page _ _ =>
      cases page with
      | telemetry => exact .inr rfl
      | _ => exact .inl rfl
    · exact .inl rfl
  · exact .inl rfl
  · exact .inl rfl

theorem sound_step (h : a.watched.Sound) (clock : Nat → String) (x : AgentStep) :
    (a.step clock x).watched.Sound := by
  cases x with
  | schedule x => exact h.step (.schedule x)
  | host files volumes uname =>
    exact ⟨⟨h.wired.nodup, h.wired.leads⟩, h.still, h.reached, h.ahead⟩
  | ask path =>
    have hask : (a.step clock (.ask path)).watched = (a.serve clock path).2.watched := rfl
    rw [hask]
    rcases a.watched_serve clock path with hsame | hscrape
    · exact hsame ▸ h
    · exact hscrape ▸ h.step .scrape

theorem sound_after (h : a.watched.Sound) (clock : Nat → String) (steps : List AgentStep) :
    (a.after clock steps).watched.Sound := by
  induction steps generalizing a with
  | nil => exact h
  | cons x steps ih => exact ih (sound_step h clock x)

/-- Where the page is served, whoever asks for it reads the counts of that instant. -/
theorem countedIn_serve (h : a.watched.Sound) (hon : a.settings.serves .telemetry = true)
    (clock : Nat → String) : ∃ text, (a.serve clock Page.telemetry.path).1 =
        .ok { status := 200, contentType := "text/plain; version=0.0.4", body := .text text } ∧
      a.scheduler.CountedIn text := by
  have hserve : a.serve clock Page.telemetry.path = a.get clock .telemetry :=
    serve_path clock (by simp) hon
  exact ⟨a.watched.scrape.telemetry.encode, by rw [hserve]; rfl, h.countedIn⟩

end Agent

namespace Watched

/-- Counters follow the greatest totals on the lists that they have been shown. Whoever asks a
schedule reads the counts that its jobs have then, and all that others have asked before has no part
in it; the same goes for whoever asks an agent for the page that shows them. -/
theorem counters_after {σ α : Type} (lists : List (List JobSummary))
    (r : Registry (Producer σ α)) (store : Store α) (around : σ) (turns : List (Watch α))
    (clock : Nat → String) (settings : Settings) (probe : Probe) (uptime : Nat)
    (steps : List AgentStep) :
    (({} : Telemetry).after lists).Mirrors lists ∧
      (let start : Watched σ α := { scheduler := .withStore r store around }
        let s := (Scheduler.withStore r store around).after (turns.filterMap Watch.schedule?)
        (start.after turns).scheduler = s ∧
        (∀ key v, (start.after turns).scrape.counter key v =
          (s.find? key).map fun l => v.count l.stats) ∧
        s.CountedIn (start.after turns).scrape.telemetry.encode ∧
        ∀ turns', turns'.filterMap Watch.schedule? = turns.filterMap Watch.schedule? →
          (∀ key v, (start.after turns').scrape.counter key v =
            (start.after turns).scrape.counter key v) ∧
          s.CountedIn (start.after turns').scrape.telemetry.encode) ∧
      ∀ a, Agent.new settings probe uptime = .ok a → settings.serves .telemetry = true →
        let b := a.after clock steps
        ∃ text, (b.serve clock Page.telemetry.path).1 =
            .ok { status := 200, contentType := "text/plain; version=0.0.4", body := .text text } ∧
          b.scheduler.CountedIn text := by
  refine ⟨Telemetry.mirrors_after lists, ?_, ?_⟩
  · intro start s
    have hsound (turns : List (Watch α)) : (start.after turns).Sound :=
      (sound_withStore r store around).after turns
    have hcounted {turns' : List (Watch α)}
        (hturns : turns'.filterMap Watch.schedule? = turns.filterMap Watch.schedule?) :
        s.CountedIn (start.after turns').scrape.telemetry.encode := by
      have hsame : (start.after turns').scheduler = s := by
        rw [scheduler_after, hturns]
      exact hsame ▸ (hsound turns').countedIn
    refine ⟨start.scheduler_after turns, fun key v => ?_, hcounted rfl, fun turns' hturns =>
      ⟨fun key v => ?_, hcounted hturns⟩⟩
    · rw [(hsound turns).counter_scrape, scheduler_after]
    · rw [(hsound turns).counter_scrape, (hsound turns').counter_scrape, scheduler_after,
        scheduler_after, hturns]
  · intro a ha hon b
    have hsettings : b.settings = settings :=
      (Agent.settings_after clock a steps).trans (Agent.settings_new ha)
    exact Agent.countedIn_serve (Agent.sound_after (Agent.sound_new ha) clock steps)
      (hsettings ▸ hon) clock

/-- A count beyond the numbers that doubles tell apart is shown as one that is less. -/
theorem not_exact_of_large_count :
    let job := ({ successes := Binary64.wholeLimit + 1 } : RunStats).summary "load" 1 none
    let t := ({} : Telemetry).after [[job]]
    (t.numbers "load").counter .success = some 9007199254740993 ∧
      (Telemetry.textsIn t.encode "load").counter .success = ["9007199254740992"] := by
  intro job t
  have hmirrors : t.Mirrors [[job]] := Telemetry.mirrors_after [[job]]
  have hcounter : (t.numbers "load").counter .success = some 9007199254740993 :=
    (hmirrors.counter "load" .success).trans (by decide +kernel)
  refine ⟨hcounter, ?_⟩
  rw [hmirrors.told, Telemetry.JobNumbers.counter_texts, hcounter]
  decide +kernel

end Watched
end HostVitals
