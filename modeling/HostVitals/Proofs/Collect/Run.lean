import HostVitals.Host.Probe

/-! Running the steps of a collection one after the other, and whether a run breaks off: it ends
with a fault that is not reported but stops the work in the middle. -/
namespace HostVitals

@[simp] theorem mapError_error {ε ε' α : Type} (x : ε) (g : ε → ε') :
    (.error x : Except ε α).mapError g = .error (g x) := rfl

@[simp] theorem mapError_ok {ε ε' α : Type} (a : α) (g : ε → ε') :
    (.ok a : Except ε α).mapError g = .ok a := rfl

theorem bind_eq_ok_iff {ε α β : Type} {e : Except ε α} {g : α → Except ε β} {b : β} :
    e >>= g = .ok b ↔ ∃ a, e = .ok a ∧ g a = .ok b := by
  cases e <;> simp [bind, Except.bind]

def BreaksOff {α : Type} (e : Except Fault α) : Prop := ∃ what, e = .error (.overflow what)

namespace BreaksOff
variable {α β : Type} {e : Except Fault α} {f : Fault}

@[simp] theorem ok {a : α} : ¬ BreaksOff (.ok a : Except Fault α) := by
  rintro ⟨what, h⟩
  cases h

theorem error_iff : BreaksOff (.error f : Except Fault α) ↔ f.breaksOff = true := by
  cases f <;> simp [BreaksOff, Fault.breaksOff]

instance (e : Except Fault α) : Decidable (BreaksOff e) :=
  match e with
  | .ok _ => isFalse ok
  | .error _ => decidable_of_iff _ error_iff.symm

theorem not_iff : ¬ BreaksOff e ↔
    (∃ a, e = .ok a) ∨ ∃ f, e = .error f ∧ f.breaksOff = false := by
  cases e with
  | error f => simp [error_iff]
  | ok a => simp

/-- The first part breaks off, or the rest does once the first part is done. -/
theorem bind_iff {g : α → Except Fault β} :
    BreaksOff (e >>= g) ↔ BreaksOff e ∨ ∃ a, e = .ok a ∧ BreaksOff (g a) := by
  cases e with
  | error f => simp [bind, Except.bind, error_iff]
  | ok a => simp [bind, Except.bind]

theorem map_iff {g : α → β} : BreaksOff (e.map g) ↔ BreaksOff e := by
  cases e with
  | error f => simp [Except.map, error_iff]
  | ok a => simp [Except.map]

theorem fmap_iff {g : α → β} : BreaksOff (g <$> e) ↔ BreaksOff e := map_iff

theorem not_mapError {ε : Type} {e : Except ε α} {g : ε → Fault}
    (h : ∀ x, (g x).breaksOff = false) : ¬ BreaksOff (e.mapError g) := by
  cases e with
  | error x => simp [error_iff, h]
  | ok a => simp

end BreaksOff

namespace Collecting
variable {α β : Type} {c : Collecting α} {g : α → Collecting β} {p q : Probe}

@[simp] theorem run_pure (a : α) (p : Probe) : (pure a : Collecting α).run p = (.ok a, p) := rfl

@[simp] theorem run_throw (f : Fault) (p : Probe) :
    (throw f : Collecting α).run p = (.error f, p) := rfl

@[simp] theorem run_get (p : Probe) : (get : Collecting Probe).run p = (.ok p, p) := rfl

@[simp] theorem run_set (p q : Probe) : (set q : Collecting PUnit).run p = (.ok ⟨⟩, q) := rfl

@[simp] theorem run_ofExcept (e : Except Fault α) (p : Probe) :
    (ofExcept e : Collecting α).run p = (e, p) := by
  cases e <;> rfl

theorem run_bind (c : Collecting α) (g : α → Collecting β) (p : Probe) :
    (c >>= g).run p = match c.run p with
      | (.ok a, q) => (g a).run q
      | (.error f, q) => (.error f, q) := by
  show ExceptT.bindCont g (c.run p).1 (c.run p).2 = _
  obtain ⟨r, q⟩ := c.run p
  cases r <;> rfl

theorem run_bind_of_ok {a : α} (h : c.run p = (.ok a, q)) : (c >>= g).run p = (g a).run q := by
  rw [run_bind, h]

theorem run_bind_of_error {f : Fault} (h : c.run p = (.error f, q)) :
    (c >>= g).run p = (.error f, q) := by
  rw [run_bind, h]

theorem run_map (g : α → β) (c : Collecting α) (p : Probe) :
    (g <$> c).run p = ((c.run p).1.map g, (c.run p).2) := by
  show (c >>= fun a => pure (g a)).run p = _
  rw [run_bind]
  obtain ⟨r, q⟩ := c.run p
  cases r <;> rfl

theorem run_file? (path : String) (p : Probe) : (file? path).run p =
    (.ok (p.files.read path).1, { p with files := (p.files.read path).2 }) := rfl

theorem run_file (path : String) (p : Probe) : (file path).run p =
    (((p.files.read path).1.mapError (.unreadable path)).map String.toList,
      { p with files := (p.files.read path).2 }) := by
  rw [file, run_bind_of_ok (run_file? path p)]
  cases (p.files.read path).1 <;> rfl

theorem breaksOff_bind_iff : BreaksOff ((c >>= g).run p).1 ↔
    BreaksOff (c.run p).1 ∨ ∃ a, (c.run p).1 = .ok a ∧ BreaksOff ((g a).run (c.run p).2).1 := by
  rw [run_bind]
  obtain ⟨r, q⟩ := c.run p
  cases r with
  | error f => simp [BreaksOff.error_iff]
  | ok a => simp

theorem breaksOff_map_iff {g : α → β} : BreaksOff ((g <$> c).run p).1 ↔ BreaksOff (c.run p).1 := by
  rw [run_map, BreaksOff.map_iff]

/-- After a file is read the rest may break off. -/
theorem breaksOff_file_bind_iff {path : String} {g : List Char → Collecting β} :
    BreaksOff ((file path >>= g).run p).1 ↔ ∃ s, (p.files.read path).1 = .ok s ∧
      BreaksOff ((g s.toList).run { p with files := (p.files.read path).2 }).1 := by
  rw [run_bind, run_file]
  cases (p.files.read path).1 with
  | error e => simp [Except.map, BreaksOff.error_iff, Fault.breaksOff]
  | ok s => simp [Except.map]

def Reports (c : Collecting α) : Prop := ∀ p, ¬ BreaksOff (c.run p).1

theorem Reports.bind (hc : c.Reports) (hg : ∀ a, (g a).Reports) : (c >>= g).Reports := by
  intro p h
  rcases breaksOff_bind_iff.mp h with hfirst | ⟨a, -, hrest⟩
  · exact hc p hfirst
  · exact hg a _ hrest

end Collecting
end HostVitals
