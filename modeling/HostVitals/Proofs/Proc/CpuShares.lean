import HostVitals.Proofs.Collect.Run

/-! The shares between two snapshots. They can be told as long as the ticks of every core that both
snapshots know can be counted; a core that has not gone on in between has none. -/
namespace HostVitals

namespace CoreTicks
variable {n : Nat} {c : CoreTicks}

def Fits (c : CoreTicks) : Prop := c.sum ≤ Text.maxU64

instance (c : CoreTicks) : Decidable c.Fits := inferInstanceAs (Decidable (_ ≤ _))

theorem checked_of_le (h : n ≤ Text.maxU64) : checked n = .ok n := if_pos h

theorem checked_of_lt (h : Text.maxU64 < n) : checked n = .error (.overflow .add) :=
  if_neg (Nat.not_le.mpr h)

theorem idleSum_le_sum (c : CoreTicks) : c.idleSum ≤ c.sum := by
  unfold idleSum sum
  omega

theorem Fits.total (h : c.Fits) : c.total = .ok c.sum := checked_of_le h

theorem Fits.idleTotal (h : c.Fits) : c.idleTotal = .ok c.idleSum :=
  checked_of_le (Nat.le_trans c.idleSum_le_sum h)

theorem total_of_not_fits (h : ¬ c.Fits) : c.total = .error (.overflow .add) :=
  checked_of_lt (Nat.not_le.mp h)

end CoreTicks

namespace CoreShares
variable {b c : CoreTicks} {before now : CpuSnapshot} {l : List (String × CoreTicks)}

def since (b c : CoreTicks) : Option CoreShares :=
  if c.sum - b.sum = 0 then none
  else some {
    elapsed := c.sum - b.sum
    usage := c.sum - b.sum - (c.idleSum - b.idleSum)
    idle := c.idle - b.idle
    iowait := c.iowait - b.iowait
    steal := c.steal - b.steal }

theorem between_of_fits (hb : b.Fits) (hc : c.Fits) : between b c = .ok (since b c) := by
  simp only [between, since, hb.total, hc.total, hb.idleTotal, hc.idleTotal, bind, Except.bind]
  split <;> rfl

theorem between_of_not_fits (h : ¬ (b.Fits ∧ c.Fits)) : between b c = .error (.overflow .add) := by
  by_cases hc : c.Fits
  · have hb : ¬ b.Fits := fun hb => h ⟨hb, hc⟩
    simp [between, hc.total, CoreTicks.total_of_not_fits hb, bind, Except.bind]
  · simp [between, CoreTicks.total_of_not_fits hc, bind, Except.bind]

def Comparable (before : CpuSnapshot) (l : List (String × CoreTicks)) : Prop :=
  ∀ name c, (name, c) ∈ l → ∀ b, before.find? name = some b → b.Fits ∧ c.Fits

theorem comparable_cons {name : String} : Comparable before ((name, c) :: l) ↔
    (∀ b, before.find? name = some b → b.Fits ∧ c.Fits) ∧ Comparable before l := by
  constructor
  · intro h
    exact ⟨h name c List.mem_cons_self, fun n d hd => h n d (List.mem_cons_of_mem _ hd)⟩
  · rintro ⟨hfirst, hrest⟩ n d hd
    cases hd with
    | head => exact hfirst
    | tail _ hd => exact hrest n d hd

def sharesOf (before : CpuSnapshot) (l : List (String × CoreTicks)) :
    List (String × CoreShares) :=
  l.filterMap fun e => ((before.find? e.1).bind (since · e.2)).map (e.1, ·)

theorem ofCores_of_comparable (h : Comparable before l) :
    ofCores before l = .ok (sharesOf before l) := by
  induction l with
  | nil => rfl
  | cons e rest ih =>
    obtain ⟨name, c⟩ := e
    obtain ⟨hfirst, hrest⟩ := comparable_cons.mp h
    cases hb : before.find? name with
    | none => simp [ofCores, sharesOf, ih hrest, hb, bind, Except.bind, pure, Except.pure]
    | some b =>
      obtain ⟨hfits, hfits'⟩ := hfirst b hb
      simp only [ofCores, hb, between_of_fits hfits hfits', ih hrest, bind, Except.bind]
      cases hs : since b c with
      | none => simp [sharesOf, hb, hs, pure, Except.pure]
      | some s => simp [sharesOf, hb, hs, pure, Except.pure]

theorem ofCores_of_not_comparable (h : ¬ Comparable before l) :
    ofCores before l = .error (.overflow .add) := by
  induction l with
  | nil => exact absurd (by simp [Comparable]) h
  | cons e rest ih =>
    obtain ⟨name, c⟩ := e
    by_cases hfirst : ∀ b, before.find? name = some b → b.Fits ∧ c.Fits
    · have hrest := ih fun hrest => h (comparable_cons.mpr ⟨hfirst, hrest⟩)
      cases hb : before.find? name with
      | none => simp [ofCores, hb, hrest, bind, Except.bind, pure, Except.pure]
      | some b =>
        obtain ⟨hfits, hfits'⟩ := hfirst b hb
        simp [ofCores, hb, between_of_fits hfits hfits', hrest, bind, Except.bind]
    · obtain ⟨b, hboth⟩ := Classical.not_forall.mp hfirst
      obtain ⟨hb, hnot⟩ := Classical.not_imp.mp hboth
      simp [ofCores, hb, between_of_not_fits hnot, bind, Except.bind]

def Tells (before now : CpuSnapshot) : Prop :=
  ∀ name b c, before.find? name = some b → now.find? name = some c → b.Fits ∧ c.Fits

instance (before now : CpuSnapshot) : Decidable (Tells before now) :=
  decidable_of_iff' _ Named.forall_find?_iff

theorem comparable_entries_iff : Comparable before now.entries ↔ Tells before now := by
  constructor
  · intro h name b c hb hc
    exact h name c (Named.mem_entries_iff.mpr hc) b hb
  · intro h name c hc b hb
    exact h name b c hb (Named.mem_entries_iff.mp hc)

theorem keys_sharesOf_sublist (before : CpuSnapshot) (l : List (String × CoreTicks)) :
    List.Sublist ((sharesOf before l).map Prod.fst) (l.map Prod.fst) := by
  induction l with
  | nil => exact .slnil
  | cons e rest ih =>
    rw [sharesOf, List.filterMap_cons, List.map_cons]
    cases (before.find? e.1).bind (since · e.2) with
    | none => exact ih.cons e.1
    | some s => exact ih.cons_cons e.1

theorem mem_sharesOf {name : String} {s : CoreShares} : (name, s) ∈ sharesOf before now.entries ↔
    ∃ b c, before.find? name = some b ∧ now.find? name = some c ∧ since b c = some s := by
  simp only [sharesOf, List.mem_filterMap, Option.map_eq_some_iff, Option.bind_eq_some_iff,
    Prod.mk.injEq]
  constructor
  · rintro ⟨⟨n, c⟩, hc, s', ⟨b, hb, hs⟩, rfl, rfl⟩
    exact ⟨b, c, hb, Named.mem_entries_iff.mp hc, hs⟩
  · rintro ⟨b, c, hb, hc, hs⟩
    exact ⟨(name, c), Named.mem_entries_iff.mpr hc, s, ⟨b, hb, hs⟩, rfl, rfl⟩

/-- A core has shares if both snapshots know it and it has gone on. -/
theorem ofSnapshots_of_tells (h : Tells before now) : ∃ shares,
    ofSnapshots before now = .ok shares ∧ ∀ name s, shares.find? name = some s ↔
      ∃ b c, before.find? name = some b ∧ now.find? name = some c ∧ since b c = some s := by
  have hnodup := now.nodup_keys.sublist (keys_sharesOf_sublist before now.entries)
  refine ⟨Named.ofList (sharesOf before now.entries), ?_, fun name s => ?_⟩
  · rw [ofSnapshots, ofCores_of_comparable (comparable_entries_iff.mpr h)]
    rfl
  · rw [Named.find?_ofList hnodup, ← mem_iff_lookup_eq_some hnodup, mem_sharesOf]

theorem ofSnapshots_of_not_tells (h : ¬ Tells before now) :
    ofSnapshots before now = .error (.overflow .add) := by
  rw [ofSnapshots, ofCores_of_not_comparable (mt comparable_entries_iff.mp h)]
  rfl

theorem tells_of_ok {shares : Named CoreShares} (h : ofSnapshots before now = .ok shares) :
    Tells before now := by
  refine Classical.byContradiction fun hnot => ?_
  cases h.symm.trans (ofSnapshots_of_not_tells hnot)

theorem find?_of_ok {shares : Named CoreShares} (h : ofSnapshots before now = .ok shares)
    (name : String) : shares.find? name =
      (before.find? name).bind fun b => (now.find? name).bind fun c => since b c := by
  obtain ⟨shares', hshares, hfind⟩ := ofSnapshots_of_tells (tells_of_ok h)
  cases h.symm.trans hshares
  apply Option.ext
  intro s
  simp [hfind, Option.bind_eq_some_iff]

end CoreShares
end HostVitals
