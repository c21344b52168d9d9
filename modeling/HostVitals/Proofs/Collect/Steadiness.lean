import HostVitals.Proofs.Collect.CpuCall
import HostVitals.Proofs.Collect.Reporting

/-! Collections on a host that stays as it is. Nothing but the processor snapshot is kept from one
call to the next, and there a kept snapshot says the same as a new one: so a collection gives at
every call what it gave at the first. -/
namespace HostVitals

namespace FileTree
variable {t : FileTree}

def Constant (t : FileTree) : Prop := ∀ e ∈ t.files.entries, e.2.length ≤ 1

instance (t : FileTree) : Decidable t.Constant := inferInstanceAs (Decidable (∀ e ∈ _, _))

theorem Constant.opened_eq (h : t.Constant) (path : String) : t.opened path = t := by
  unfold opened
  split
  · next hfind =>
    have hlength := h _ (Named.mem_entries_iff.mpr hfind)
    simp at hlength
  · rfl

theorem Constant.read_snd (h : t.Constant) (path : String) : (t.read path).2 = t := by
  unfold read
  cases t.find path with
  | error e => rfl
  | ok e => exact h.opened_eq (normal path)

theorem Constant.reopened_eq (h : t.Constant) (path : String) (n : Nat) :
    t.reopened path n = t := by
  induction n with
  | zero => rfl
  | succ n ih => rw [reopened, ih, h.read_snd]

theorem Constant.cpuReading_eq (h : t.Constant) (n : Nat) : t.cpuReading n = t.cpuReading 0 := by
  rw [cpuReading, cpuReading, reading, reading, h.reopened_eq, h.reopened_eq]

def steadyShares (t : FileTree) : Except Fault (Named CoreShares) :=
  match t.cpuReading 0 with
  | .error f => .error f
  | .ok now =>
    match CoreShares.ofSnapshots now now with
    | .error f => .error f
    | .ok shares => if shares.isEmpty then .error .noElapsed else .ok shares

end FileTree

namespace CpuBaseline
variable {b b' : CpuBaseline} {t : FileTree} {r : Except Fault (Named CoreShares)}

structure Repeats (b : CpuBaseline) (t : FileTree) : Prop where
  free : b.poisoned = false
  kept : ∀ s, b.previous = some s → t.cpuReading 0 = .ok s

theorem repeats_new (t : FileTree) : Repeats {} t := ⟨rfl, nofun⟩

theorem Repeats.of_reading {s : CpuSnapshot} (h : t.cpuReading 0 = .ok s) :
    Repeats { previous := some s } t where
  free := rfl
  kept s' hs' := by
    cases hs'
    exact h

theorem Repeats.compares (h : b.Repeats t) (ht : t.Constant) {before now : CpuSnapshot}
    (hcompares : b.Compares t before now) : t.cpuReading 0 = .ok now ∧ before = now := by
  unfold Compares at hcompares
  cases hprevious : b.previous with
  | none =>
    simp only [hprevious, ht.cpuReading_eq 1] at hcompares
    cases hcompares.1.symm.trans hcompares.2
    exact ⟨hcompares.1, rfl⟩
  | some kept =>
    simp only [hprevious] at hcompares
    obtain ⟨rfl, hnow⟩ := hcompares
    cases (h.kept kept hprevious).symm.trans hnow
    exact ⟨hnow, rfl⟩

/-- A call gives the same whether a snapshot is kept or not. -/
theorem Call.eq_steadyShares (hcall : b.Call t r b') (h : b.Repeats t) (ht : t.Constant) :
    r = t.steadyShares := by
  unfold FileTree.steadyShares
  -- the lock is free and the second reading is the first again: two of the cases do not occur
  cases hcall with
  | unread unread => rw [unread]
  | locked poisoned read => cases h.free.symm.trans poisoned
  | unreread free bare read unreread =>
    rw [ht.cpuReading_eq] at unreread
    cases read.symm.trans unreread
  | told free compares told =>
    obtain ⟨hread, rfl⟩ := h.compares ht compares
    rw [hread]
    simp only [told]
  | broken free compares untold =>
    obtain ⟨hread, rfl⟩ := h.compares ht compares
    rw [hread]
    simp only [CoreShares.ofSnapshots_of_not_tells untold]

theorem Call.repeats (hcall : b.Call t r b') (h : b.Repeats t) (ht : t.Constant)
    (hr : ¬ BreaksOff r) : b'.Repeats t := by
  cases hcall with
  | unread unread => exact h
  | locked poisoned read => exact h
  | unreread free bare read unreread => exact .of_reading read
  | told free compares told => exact .of_reading (h.compares ht compares).1
  | broken free compares untold => exact absurd ⟨.add, rfl⟩ hr

end CpuBaseline

namespace Collecting
variable {α β : Type} {c : Collecting α} {g : α → Collecting β}

def ReadsHost (c : Collecting α) : Prop := ∀ p b, p.files.Constant →
  c.run { p with baseline := b } = ((c.run p).1, { p with baseline := b })

theorem ReadsHost.bind (hc : c.ReadsHost) (hg : ∀ a, (g a).ReadsHost) : (c >>= g).ReadsHost := by
  intro p b h
  have hkept : (c.run p).2 = p := congrArg Prod.snd (hc p p.baseline h)
  rw [run_bind, run_bind, hc p b h]
  cases hrun : c.run p with
  | mk r q =>
    rw [hrun] at hkept
    subst hkept
    cases r with
    | error f => rfl
    | ok a => exact hg a q b h

theorem readsHost_get_bind {g : Probe → Collecting α} (hg : ∀ p, (g p).ReadsHost)
    (hblind : ∀ p b, g { p with baseline := b } = g p) : (get >>= g).ReadsHost := by
  intro p b h
  rw [run_bind_of_ok (run_get _), run_bind_of_ok (run_get _), hblind p b]
  exact hg p p b h

theorem closed_readsHost : Closed ReadsHost where
  pure _ _ _ _ := rfl
  throw _ _ _ _ _ := rfl
  file? path p b h := by rw [run_file?, run_file?, h.read_snd]
  bind := ReadsHost.bind
  get_bind := readsHost_get_bind

theorem readsHost_ofExcept (e : Except Fault α) : (ofExcept e : Collecting α).ReadsHost := by
  intro p b _
  rw [run_ofExcept, run_ofExcept]

theorem readsHost_collect {k : MetricKind} (hk : k ≠ .cpu) : k.collect.ReadsHost := by
  have hfile := closed_readsHost.file
  by_cases hcounts : k ∈ [.cpu, .memory, .filesystem]
  · cases k with
    | cpu => exact absurd rfl hk
    | memory =>
      apply (hfile _).bind
      intro text
      exact (readsHost_ofExcept _).bind fun _ => closed_readsHost.pure _
    | filesystem =>
      have hvolumes : volumes.ReadsHost := (hfile _).bind fun _ =>
        readsHost_get_bind (fun _ => readsHost_ofExcept _) fun _ _ => rfl
      exact closed_readsHost.map hvolumes _
    | _ => simp at hcounts
  · exact closed_readsHost.collect hcounts

def KeepsHost (c : Collecting α) : Prop := ∀ p, p.files.Constant →
  (c.run p).2 = { p with baseline := (c.run p).2.baseline }

theorem KeepsHost.bind (hc : c.KeepsHost) (hg : ∀ a, (g a).KeepsHost) : (c >>= g).KeepsHost := by
  intro p h
  have hkept := hc p h
  rw [run_bind]
  cases hrun : c.run p with
  | mk r q =>
    rw [hrun] at hkept
    cases r with
    | error f => exact hkept
    | ok a =>
      have hq : q = { p with baseline := q.baseline } := hkept
      have hrest := hg a q (by rw [hq]; exact h)
      rw [hq] at hrest
      rw [hq]
      exact hrest

theorem KeepsHost.map {g : α → β} (hc : c.KeepsHost) : (g <$> c).KeepsHost := by
  intro p h
  rw [run_map]
  exact hc p h

theorem keepsHost_cpuSnapshot : cpuSnapshot.KeepsHost := by
  intro p h
  rw [run_cpuSnapshot, h.reopened_eq]

theorem keepsHost_updateBaseline (now : CpuSnapshot) : (updateBaseline now).KeepsHost := by
  intro p _
  rw [run_updateBaseline]

theorem keepsHost_takeBaseline : takeBaseline.KeepsHost :=
  keepsHost_cpuSnapshot.bind fun now => (keepsHost_updateBaseline now).map

theorem keepsHost_nextShares : nextShares.KeepsHost := by
  apply keepsHost_cpuSnapshot.bind
  intro now
  apply (keepsHost_updateBaseline now).bind
  intro shares
  cases shares with
  | none => exact fun _ _ => rfl
  | some shares => exact fun _ _ => rfl

theorem keepsHost_cpuShares : cpuShares.KeepsHost := by
  intro p h
  cases hset : p.baseline.isSet with
  | true =>
    rw [cpuShares_of_isSet hset]
    exact keepsHost_nextShares p h
  | false =>
    rw [cpuShares_of_not_isSet hset]
    exact (keepsHost_takeBaseline.bind fun _ => keepsHost_nextShares) p h

end Collecting

namespace MetricKind
open Collecting
variable {p q : Probe}

structure Unchanged (p q : Probe) : Prop where
  host : q = { p with baseline := q.baseline }
  repeats : q.baseline.Repeats p.files

/-- What a collection gives at first, it gives whenever the host is unchanged. -/
theorem collect_of_unchanged (k : MetricKind) (hfiles : p.files.Constant)
    (hp : p.baseline.Repeats p.files) (hq : Unchanged p q)
    (hreports : ¬ BreaksOff (k.collect.run p).1) :
    (k.collect.run q).1 = (k.collect.run p).1 ∧ Unchanged p (k.collect.run q).2 := by
  by_cases hk : k = .cpu
  · subst hk
    have hsame : q.files = p.files := by
      rw [hq.host]
    have hcall := call_cpuShares q
    rw [hsame] at hcall
    have hshares : (cpuShares.run q).1 = (cpuShares.run p).1 :=
      (hcall.eq_steadyShares hq.repeats hfiles).trans
        ((call_cpuShares p).eq_steadyShares hp hfiles).symm
    have hkept := keepsHost_cpuShares q (hsame ▸ hfiles)
    rw [collect, breaksOff_map_iff, ← hshares] at hreports
    rw [collect, run_map, run_map, hshares]
    refine ⟨rfl, ?_, hcall.repeats hq.repeats hfiles hreports⟩
    rw [hq.host] at hkept
    rw [hq.host]
    exact hkept
  · have hrun := readsHost_collect hk p q.baseline hfiles
    rw [← hq.host] at hrun
    rw [hrun]
    exact ⟨rfl, hq⟩

end MetricKind
end HostVitals
