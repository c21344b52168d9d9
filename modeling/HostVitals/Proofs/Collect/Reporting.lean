import HostVitals.Collect.Sample
import HostVitals.Proofs.Collect.Run

/-! What collections are made of. A property of single steps that lasts when steps follow each other
is one of all collections but those that count beyond 64 bits, such as that they never break off:
whatever the host shows, they end with a sample or a fault that is reported. -/
namespace HostVitals

theorem LoadAverage.not_breaksOff_readAverage (window : String) (field : List Char) :
    ¬ BreaksOff (readAverage window field) :=
  BreaksOff.not_mapError fun _ => rfl

theorem LoadAverage.not_breaksOff_parse (text : List Char) : ¬ BreaksOff (parse text) := by
  unfold parse
  split
  · simp [BreaksOff.bind_iff, BreaksOff.fmap_iff, not_breaksOff_readAverage]
  · simp [BreaksOff.error_iff, Fault.breaksOff]

theorem HostCounters.not_breaksOff_parse (text : List Char) : ¬ BreaksOff (parse text) := by
  unfold parse
  split
  · exact BreaksOff.ok
  · simp [BreaksOff.error_iff, Fault.breaksOff]

theorem not_breaksOff_parseUptime (text : List Char) : ¬ BreaksOff (parseUptime text) := by
  unfold parseUptime
  split
  · simp [BreaksOff.error_iff, Fault.breaksOff]
  · exact BreaksOff.not_mapError fun _ => rfl

namespace Collecting
variable {P : ∀ {α : Type}, Collecting α → Prop} {α β : Type}

structure Closed (P : ∀ {α : Type}, Collecting α → Prop) : Prop where
  pure : ∀ {α : Type} (a : α), P (pure a : Collecting α)
  throw : ∀ {α : Type} (f : Fault), f.breaksOff = false → P (throw f : Collecting α)
  file? : ∀ path, P (Collecting.file? path)
  bind : ∀ {α β : Type} {c : Collecting α} {g : α → Collecting β},
    P c → (∀ a, P (g a)) → P (c >>= g)
  get_bind : ∀ {α : Type} {g : Probe → Collecting α}, (∀ p, P (g p)) →
    (∀ p b, g { p with baseline := b } = g p) → P (get >>= g)

theorem closed_reports : Closed Reports where
  pure _ _ := BreaksOff.ok
  throw f hf p := by simp [BreaksOff.error_iff, hf]
  file? _ _ := BreaksOff.ok
  bind := Reports.bind
  get_bind hg _ := Reports.bind (fun _ => BreaksOff.ok) hg

namespace Closed
variable (h : Closed P)
include h

theorem map {c : Collecting α} (hc : P c) (g : α → β) : P (g <$> c) :=
  h.bind hc fun a => h.pure (g a)

theorem ofExcept {e : Except Fault α} (he : ¬ BreaksOff e) : P (ofExcept e : Collecting α) := by
  cases e with
  | ok a => exact h.pure a
  | error f => exact h.throw f (by simpa [BreaksOff.error_iff] using he)

theorem file (path : String) : P (Collecting.file path) := by
  apply h.bind (h.file? path)
  intro r
  cases r with
  | ok s => exact h.pure _
  | error e => exact h.throw _ rfl

theorem fileOrNone (path : String) : P (Collecting.fileOrNone path) :=
  h.bind (h.file? path) fun _ => h.pure _

theorem directory (path : String) : P (Collecting.directory path) :=
  h.get_bind (fun _ => h.pure _) fun _ _ => rfl

theorem degrees (path : String) : P (Collecting.degrees path) :=
  h.bind (h.fileOrNone path) fun _ => h.pure _

theorem sensors (found : Named Binary64) (l : List (String × String)) :
    P (Collecting.sensors found l) := by
  induction l generalizing found with
  | nil => exact h.pure found
  | cons e rest ih =>
    apply h.bind (h.degrees e.2)
    intro t
    cases t with
    | none => exact ih found
    | some t => exact ih (found.insert e.1 t)

theorem namesFrom (what path start : String) : P (Collecting.namesFrom what path start) := by
  refine h.get_bind (fun p => ?_) fun _ _ => rfl
  split
  · exact h.pure []
  · apply h.bind (h.directory path)
    intro r
    cases r with
    | ok names => exact h.pure _
    | error e => exact h.throw _ rfl

theorem thermalZones (base : String) : P (Collecting.thermalZones base) :=
  h.bind (h.namesFrom _ _ _) fun _ => h.sensors _ _

theorem chipName (directory name : String) : P (Collecting.chipName directory name) := by
  apply h.bind (h.file? _)
  intro r
  cases r with
  | ok s => exact h.pure _
  | error e => exact h.pure _

theorem chipSensors (base : String) (found : Named Binary64) (chips : List String) :
    P (Collecting.chipSensors base found chips) := by
  induction chips generalizing found with
  | nil => exact h.pure found
  | cons chip rest ih =>
    apply h.bind (h.chipName _ chip)
    intro name
    apply h.bind (h.directory _)
    intro r
    cases r with
    | error e => exact ih found
    | ok files => exact h.bind (h.sensors _ _) fun found => ih found

theorem temperatures : P Collecting.temperatures := by
  apply h.bind (h.thermalZones _)
  intro zones
  apply h.bind (h.bind (h.namesFrom _ _ _) fun _ => h.chipSensors _ _ _)
  intro chips
  exact h.pure _

theorem openFiles : P Collecting.openFiles := by
  apply h.bind (h.directory _)
  intro r
  cases r with
  | error e => exact h.pure none
  | ok names =>
    apply h.bind (h.fileOrNone _)
    intro text
    cases text with
    | none => exact h.pure none
    | some text => exact h.pure _

theorem facts : P Collecting.facts := by
  apply h.bind (h.file _)
  intro uptimeText
  apply h.bind (h.file _)
  intro statText
  apply h.bind (h.ofExcept (HostCounters.not_breaksOff_parse statText))
  intro counters
  apply h.bind (h.fileOrNone _)
  intro entropy
  apply h.bind h.openFiles
  intro fds
  apply h.bind (h.ofExcept (not_breaksOff_parseUptime uptimeText))
  intro uptime
  exact h.get_bind (fun _ => h.pure _) fun _ _ => rfl

theorem pressureOf (resource : String) : P (Collecting.pressureOf resource) :=
  h.bind (h.fileOrNone _) fun _ => h.pure _

theorem pressure : P Collecting.pressure := by
  apply h.bind (h.pressureOf _)
  intro cpu
  apply h.bind (h.pressureOf _)
  intro memory
  apply h.bind (h.pressureOf _)
  intro io
  split
  · exact h.throw _ rfl
  · exact h.pure _

/-- The metrics that do not count beyond 64 bits. -/
theorem collect {k : MetricKind} (hk : k ∉ [.cpu, .memory, .filesystem]) : P k.collect := by
  cases k with
  | cpu => simp at hk
  | memory => simp at hk
  | filesystem => simp at hk
  | load =>
    apply h.bind (h.file _)
    intro text
    exact h.bind (h.ofExcept (LoadAverage.not_breaksOff_parse text)) fun _ => h.pure _
  | network => exact h.bind (h.file _) fun _ => h.pure _
  | disk => exact h.bind (h.file _) fun _ => h.pure _
  | thermal => exact h.map h.temperatures _
  | system => exact h.map h.facts _
  | pressure => exact h.map h.pressure _

end Closed

end Collecting
end HostVitals
