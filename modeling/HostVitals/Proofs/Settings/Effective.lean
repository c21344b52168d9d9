import HostVitals.Program.Start
import HostVitals.Report.Pages

/-! The settings in effect. Of the command line, the file and the standard settings the first that
gives a setting decides it, and whoever uses settings sees no more of them than what is in effect. -/
namespace HostVitals

structure EffectiveSettings where
  bind : String
  port : Nat
  health : Bool
  telemetry : Bool
  logLevel : String
  shutdownTimeout : Nat
  tls : Bool
  certificate : Option String
  key : Option String
  enabled : MetricKind → Bool
  interval : MetricKind → Nat

namespace Settings
open CommandLine

def effective (s : Settings) : EffectiveSettings where
  bind := s.bind.getD "0.0.0.0"
  port := s.port.getD 9216
  health := s.health.getD true
  telemetry := s.telemetry.getD true
  logLevel := s.logLevel.getD "info"
  shutdownTimeout := s.shutdownTimeout.getD 10
  tls := s.tls.getD false
  certificate := s.certificate
  key := s.key
  enabled k := (s.collectors k).enabled.getD true
  interval k := (s.collectors k).interval.getD k.defaultInterval

def orElse (s t : Settings) : Settings where
  port := s.port.or t.port
  bind := s.bind.or t.bind
  health := s.health.or t.health
  telemetry := s.telemetry.or t.telemetry
  logLevel := s.logLevel.or t.logLevel
  shutdownTimeout := s.shutdownTimeout.or t.shutdownTimeout
  tls := s.tls.or t.tls
  certificate := s.certificate.or t.certificate
  key := s.key.or t.key
  collectors k := {
    enabled := (s.collectors k).enabled.or (t.collectors k).enabled
    interval := (s.collectors k).interval.or (t.collectors k).interval }

def ofArguments (a : Arguments) : Settings where
  port := a.port
  bind := a.bind.map Address.text
  health := if a.disableHealth then some false else none
  telemetry := if a.disableTelemetry then some false else none
  logLevel := a.logLevel.map LogLevel.name
  shutdownTimeout := a.shutdownTimeout
  tls := if a.enableTls then some true else none
  certificate := a.tlsCert
  key := a.tlsKey

def ofFile (files : FileTree) (path : String) : Except LoadFault Settings :=
  match (files.read path).1 with
  | .error e => .error (.unreadable e)
  | .ok text => (parse (formatOfPath path) text).elim (.error (.malformed (formatOfPath path))) .ok

def inFile (files : FileTree) (a : Arguments) : Except LoadFault Settings :=
  if a.noConfig then .ok {} else (file? files a.config).elim (.ok {}) (ofFile files)

variable {s s' : Settings}

theorem override_eq_orElse (s : Settings) (a : Arguments) :
    s.override a = (ofArguments a).orElse s := by
  have hflag (given : Bool) (value : Bool) (o : Option Bool) :
      (if given then some value else o) = (if given then some value else none).or o := by
    cases given <;> rfl
  simp [override, orElse, ofArguments, ← hflag]

theorem effective_orElse_standard (s : Settings) : (s.orElse standard).effective = s.effective := by
  simp [effective, orElse, standard, defaultBind, defaultPort, defaultShutdown]

theorem effective_orElse_congr (t : Settings) (h : s.effective = s'.effective) :
    (t.orElse s).effective = (t.orElse s').effective := by
  have hlayer {α : Type} (o : Option α) {u v : Option α} {d : α} (h : u.getD d = v.getD d) :
      (o.or u).getD d = (o.or v).getD d := by
    cases o
    · exact h
    · rfl
  simp only [effective, EffectiveSettings.mk.injEq, funext_iff] at h
  obtain ⟨hbind, hport, hhealth, htelemetry, hlevel, hshutdown, htls, hcertificate, hkey, henabled,
    hinterval⟩ := h
  simp only [effective, orElse, EffectiveSettings.mk.injEq, funext_iff]
  exact ⟨hlayer _ hbind, hlayer _ hport, hlayer _ hhealth, hlayer _ htelemetry, hlayer _ hlevel,
    hlayer _ hshutdown, hlayer _ htls, congrArg _ hcertificate, congrArg _ hkey,
    fun k => hlayer _ (henabled k), fun k => hlayer _ (hinterval k)⟩

theorem load_fst (files : FileTree) (given : Option String) :
    (load files given).1 = (file? files given).elim (.ok standard) (ofFile files) := by
  unfold load
  cases file? files given with
  | none => rfl
  | some path =>
    simp only [Option.elim, ofFile]
    cases (files.read path).1 with
    | error e => rfl
    | ok text =>
      dsimp only
      cases parse (formatOfPath path) text <;> rfl

/-- What is in effect after a start, as far as its file can be read. -/
theorem effective_resolve (files : FileTree) (a : Arguments) :
    (resolve files a).1.map effective = (inFile files a).map fun file =>
      ((ofArguments a).orElse (file.orElse standard)).effective := by
  have hresolve : (resolve files a).1 =
      (if a.noConfig then .ok standard else (load files a.config).1).map (·.override a) := by
    unfold resolve
    cases a.noConfig <;> rfl
  have hstandard : (({} : Settings).orElse standard) = standard := rfl
  rw [hresolve, inFile]
  cases a.noConfig with
  | true => simp [Except.map, override_eq_orElse, hstandard]
  | false =>
    rw [load_fst]
    cases file? files a.config with
    | none => simp [Except.map, override_eq_orElse, hstandard]
    | some path =>
      simp only [Option.elim, Bool.false_eq_true, if_false]
      cases ofFile files path with
      | error f => rfl
      | ok file =>
        have hfile := effective_orElse_congr (ofArguments a) file.effective_orElse_standard
        simp [Except.map, override_eq_orElse, hfile]

section congr
variable (h : s.effective = s'.effective)
include h

theorem enabled_congr : s.enabled = s'.enabled := by
  have henabled : s.isEnabled = s'.isEnabled := congrArg EffectiveSettings.enabled h
  rw [enabled, henabled, enabled]

theorem interval_congr : s.interval = s'.interval := congrArg EffectiveSettings.interval h

theorem shutdownTimeout_congr : s.shutdownTimeout = some 0 ↔ s'.shutdownTimeout = some 0 := by
  have hshutdown : s.shutdownTimeout.getD 10 = s'.shutdownTimeout.getD 10 :=
    congrArg EffectiveSettings.shutdownTimeout h
  have hzero (o : Option Nat) : o = some 0 ↔ o.getD 10 = 0 := by
    cases o <;> simp
  rw [hzero, hzero, hshutdown]

theorem checkTls_congr (files : FileTree) : s.checkTls files = s'.checkTls files := by
  have htls : s.tls.getD false = s'.tls.getD false := congrArg EffectiveSettings.tls h
  have hcertificate : s.certificate = s'.certificate := congrArg EffectiveSettings.certificate h
  have hkey : s.key = s'.key := congrArg EffectiveSettings.key h
  simp only [checkTls, htls, hcertificate, hkey]

theorem validate_congr (files : FileTree) : s.validate files = s'.validate files := by
  have hlevel : s.logLevel.getD "info" = s'.logLevel.getD "info" :=
    congrArg EffectiveSettings.logLevel h
  have hinfo : (LogLevel.ofName? "info").isSome = true := by decide
  simp only [validate, enabled_congr h, interval_congr h, shutdownTimeout_congr h,
    checkTls_congr h]
  -- a level that is left out passes as the standard one does
  cases hs : s.logLevel with
  | none =>
    cases hs' : s'.logLevel with
    | none => rfl
    | some level =>
      have hstandard : level = "info" := by simpa [hs, hs'] using hlevel.symm
      simp only [hstandard, hinfo, if_true]
  | some level =>
    cases hs' : s'.logLevel with
    | none =>
      have hstandard : level = "info" := by simpa [hs, hs'] using hlevel
      simp only [hstandard, hinfo, if_true]
    | some level' =>
      have hsame : level = level' := by simpa [hs, hs'] using hlevel
      rw [hsame]

end congr

structure ActsAs (s s' : Settings) : Prop where
  validate : ∀ files, s.validate files = s'.validate files
  registry : ∀ (π : Type) (producer : MetricKind → π), s.registry producer = s'.registry producer
  shutdown : s.shutdownSeconds = s'.shutdownSeconds
  endpoint : Program.endpointText s = Program.endpointText s'
  root : ∀ uptime jobs, Report.rootPage s uptime jobs = Report.rootPage s' uptime jobs

theorem actsAs_of_effective_eq (h : s.effective = s'.effective) : s.ActsAs s' where
  validate := validate_congr h
  registry π producer := by
    rw [Settings.registry, Settings.registry, enabled_congr h, interval_congr h]
  shutdown := congrArg EffectiveSettings.shutdownTimeout h
  endpoint := by
    have hbind : s.bind.getD defaultBind = s'.bind.getD defaultBind :=
      congrArg EffectiveSettings.bind h
    have hport : s.port.getD defaultPort = s'.port.getD defaultPort :=
      congrArg EffectiveSettings.port h
    rw [Program.endpointText, Program.endpointText, hbind, hport]
  root uptime jobs := by
    have hhealth : s.health.getD true = s'.health.getD true := congrArg EffectiveSettings.health h
    have htelemetry : s.telemetry.getD true = s'.telemetry.getD true :=
      congrArg EffectiveSettings.telemetry h
    unfold Report.rootPage
    rw [hhealth, htelemetry]

/-- A setting in effect is that of the command line, else that of the file, else the standard one.
Without files there is nothing to read, collectors are not asked for on the command line, and
nothing but what is in effect shows in what is done with settings. -/
theorem in_effect (files : FileTree) (a : Arguments) :
    (resolve files a).1.map effective = (inFile files a).map (fun file =>
      ((ofArguments a).orElse (file.orElse standard)).effective) ∧
    (a.noConfig = true → ∀ other, (resolve other a).1 = (resolve files a).1) ∧
    (∀ s : Settings, (s.override a).collectors = s.collectors) ∧
    (∀ s s' : Settings, s.effective = s'.effective →
      s.ActsAs s' ∧ (s.override a).ActsAs (s'.override a)) ∧
    ∀ s : Settings, s.ActsAs (s.orElse standard) := by
  refine ⟨effective_resolve files a, fun hno other => ?_, fun s => rfl, fun s s' h => ?_,
    fun s => ?_⟩
  · simp [resolve, hno]
  · refine ⟨actsAs_of_effective_eq h, actsAs_of_effective_eq ?_⟩
    rw [override_eq_orElse, override_eq_orElse]
    exact effective_orElse_congr (ofArguments a) h
  · exact actsAs_of_effective_eq s.effective_orElse_standard.symm

/-- The command line, the file and the standard settings each decide something. -/
theorem in_effect_of_partial_file :
    let files : FileTree := .ofList
      [("a.json", [.text "\x7b\"port\": 9300, \"log_level\": \"warn\"\x7d"])]
    let a : Arguments := { config := some "a.json", port := some 9400 }
    ∃ e, (resolve files a).1.map effective = .ok e ∧ e.port = 9400 ∧ e.logLevel = "warn" ∧
      e.shutdownTimeout = 10 := by
  intro files a
  obtain ⟨hlayers, -⟩ := in_effect files a
  have hfile : (inFile files a).toOption.map (fun s => (s.logLevel, s.shutdownTimeout)) =
      some (some "warn", none) := by
    decide +kernel
  cases hin : inFile files a with
  | error f => simp [hin, Except.toOption] at hfile
  | ok file =>
    rw [hin] at hlayers hfile
    obtain ⟨hlevel, hshutdown⟩ := Prod.mk.inj (Option.some.inj hfile)
    refine ⟨_, hlayers, rfl, ?_, ?_⟩
    · simp [effective, orElse, ofArguments, a, hlevel]
    · simp [effective, orElse, ofArguments, a, hshutdown, standard, defaultShutdown]

end Settings
end HostVitals
