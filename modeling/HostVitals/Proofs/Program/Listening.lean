import HostVitals.Program.Start
import HostVitals.Proofs.Address

/-! What becomes of the address that settings bind to: the start of the program writes it in front of
the port and reads both again. Four octets come back as they were; groups do not come back. -/
namespace HostVitals.Program

open CommandLine

variable {took : MetricKind → String} {probe : Probe} {args : List String} {a : Arguments}
  {s : Settings} {files : FileTree} {address : Address} {u : String}

def BindsTo (u : String) : Address → Prop
  | .v4 a b c d => Address.takeV4 u.toList = some ((a, b, c, d), [])
  | .v6 _ => Address.takeV4 u.toList = none ∧ u.toList.head? ≠ some '['

theorem bindsTo_of_read (h : Address.read u.toList = some address) : BindsTo u address := by
  cases address with
  | v4 a b c d => exact Address.takeV4_of_read h
  | v6 gs => exact Address.takeV4_eq_none_of_read h

/-- The text of an address that was read leads to it no less than the text that it was read from. -/
theorem bindsTo_text (h : Address.read u.toList = some address) :
    BindsTo address.text address := by
  cases address with
  | v4 a b c d =>
    obtain ⟨ha, hb, hc, hd⟩ := Address.takeV4_le (Address.takeV4_of_read h)
    exact Address.takeV4_v4Text ha hb hc hd
  | v6 gs => exact Address.takeV4_text_v6 gs

def listening (files : FileTree) (s : Settings) (port : Nat) : Address → Start
  | .v4 a b c d => .listens ⟨.v4 a b c d, port⟩ s
  | .v6 _ => .ended { code := 1, err := errorLine "AddrParseError(Socket)", files }

/-- The command line decides about the address before anything else does. -/
theorem bind_of_resolve {start : FileTree} (h : Settings.resolve start a = (.ok s, files))
    (hbind : a.bind = some address) : s.bind = some address.text := by
  unfold Settings.resolve at h
  generalize (if a.noConfig then (Except.ok Settings.standard, start)
    else Settings.load start a.config) = found at h
  obtain ⟨found, left⟩ := found
  cases found with
  | error f => cases h
  | ok t =>
    cases h
    simp [Settings.override, hbind]

theorem listen_of_bindsTo (hvalid : s.validate files = .ok ())
    (htext : BindsTo (s.bind.getD Settings.defaultBind) address)
    (hport : s.port.getD Settings.defaultPort ≤ Text.maxU16) :
    listen files s = listening files s (s.port.getD Settings.defaultPort) address := by
  have hlist : (endpointText s).toList = (s.bind.getD Settings.defaultBind).toList ++
      ':' :: Nat.toDigits 10 (s.port.getD Settings.defaultPort) := by simp [endpointText]
  simp only [listen, hvalid, hlist]
  cases address with
  | v4 a b c d => rw [Endpoint.read_of_takeV4 htext hport, listening]
  | v6 gs => rw [Endpoint.read_eq_none htext.1 htext.2, listening]

/-- With settings that can be used and an address that can be read, the program listens exactly if
the address has four octets, and then on that address and port. The address may come from the command
line or, as it is written there, from a file. -/
theorem start_of_address (hargs : Arguments.read args = .ok a) (hcheck : a.checkConfig = false)
    (hshow : a.showConfig = false) (hcommand : a.command = none)
    (hsettings : Settings.resolve probe.files a = (.ok s, files))
    (hvalid : s.validate files = .ok ()) (hread : Address.read u.toList = some address)
    (hbind : a.bind = some address ∨ a.bind = none ∧ s.bind.getD Settings.defaultBind = u)
    (hport : s.port.getD Settings.defaultPort ≤ Text.maxU16) :
    start took probe args =
      listening files s (s.port.getD Settings.defaultPort) address := by
  have hlisten : start took probe args = listen files s := by
    simp [start, hargs, hcheck, hshow, hcommand, hsettings]
  have htext : BindsTo (s.bind.getD Settings.defaultBind) address := by
    cases hbind with
    | inl hbind =>
      rw [bind_of_resolve hsettings hbind]
      exact bindsTo_text hread
    | inr hbind =>
      rw [hbind.2]
      exact bindsTo_of_read hread
  rw [hlisten, listen_of_bindsTo hvalid htext hport]

/-- An address of octets from the command line, and one in groups from nowhere else. -/
theorem start_of_two_addresses :
    let took : MetricKind → String := fun _ => "0.10"
    let octets := Address.v4 127 0 0 1
    let groups := Address.v6 [0x2001, 0xDB8, 0, 0, 0, 0, 0, 1]
    let settings (a : Address) : Settings := { Settings.standard with bind := some a.text }
    start took {} ["--no-config", "--bind", "127.0.0.1"] =
        listening {} (settings octets) 9216 octets ∧
      start took {} ["--no-config", "--bind", "2001:db8::1"] =
        listening {} (settings groups) 9216 groups := by
  intro took octets groups settings
  constructor
  · exact start_of_address (a := { noConfig := true, bind := some octets }) (u := "127.0.0.1")
      (by rfl) rfl rfl rfl (by rfl) (by rfl) (by decide +kernel) (.inl rfl) (by decide)
  · exact start_of_address (a := { noConfig := true, bind := some groups }) (u := "2001:db8::1")
      (by rfl) rfl rfl rfl (by rfl) (by rfl) (by decide +kernel) (.inl rfl) (by decide)

/-- An address in groups that can be read, in settings that can be used: the start ends there. -/
theorem not_listens_on_groups :
    let groups := Address.v6 [0x2001, 0xDB8, 0, 0, 0, 0, 0, 1]
    let settings : Settings := { Settings.standard with bind := some groups.text }
    Address.read "2001:db8::1".toList = some groups ∧ settings.validate {} = .ok () ∧
      start (fun _ => "0.10") {} ["--no-config", "--bind", "2001:db8::1"] =
        .ended { code := 1, err := "Error: AddrParseError(Socket)\n", files := {} } := by
  exact ⟨by decide +kernel, by rfl, by rfl⟩

end HostVitals.Program
