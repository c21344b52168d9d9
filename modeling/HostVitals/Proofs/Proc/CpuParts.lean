import HostVitals.Proofs.Binary64.Rounding
import HostVitals.Proofs.Proc.CpuShares
import Mathlib.Algebra.Order.BigOperators.Group.List
import Mathlib.Algebra.Order.Field.Rat
import Mathlib.Order.Interval.Set.Defs

/-! How the ticks between two snapshots divide. As long as no counter goes back, a core is in use,
idle or waiting at each of them, and the parts of a time are the means of the parts of its pieces.
Where a counter goes back, the ticks that pass are fewer than those of the counters that go on, and
only the use of a core stays a part of them. -/
namespace HostVitals

namespace CoreTicks
variable {b m c : CoreTicks} {f : CoreTicks → Nat}

def counters : List (CoreTicks → Nat) := [user, nice, system, idle, iowait, irq, softirq, steal]

def Grows (b c : CoreTicks) : Prop := ∀ f ∈ counters, f b ≤ f c

def Advances (b c : CoreTicks) : Prop := ∃ f ∈ counters, f b < f c

theorem sum_eq (c : CoreTicks) : c.sum = (counters.map (· c)).sum := by
  simp [counters, sum, Nat.add_assoc]

theorem le_sum (c : CoreTicks) (hf : f ∈ counters) : f c ≤ c.sum := by
  rw [sum_eq]
  exact List.single_le_sum (fun _ _ => Nat.zero_le _) _ (List.mem_map_of_mem hf)

theorem grows_iff : b.Grows c ↔ b.user ≤ c.user ∧ b.nice ≤ c.nice ∧ b.system ≤ c.system ∧
    b.idle ≤ c.idle ∧ b.iowait ≤ c.iowait ∧ b.irq ≤ c.irq ∧ b.softirq ≤ c.softirq ∧
    b.steal ≤ c.steal := by
  simp [Grows, counters]

instance (b c : CoreTicks) : Decidable (b.Grows c) := decidable_of_iff' _ grows_iff

theorem Grows.sum_lt_iff (h : b.Grows c) : b.sum < c.sum ↔ b.Advances c := by
  rw [sum_eq, sum_eq]
  constructor
  · exact List.exists_lt_of_sum_lt (fun f : CoreTicks → Nat => f b) fun f => f c
  · exact List.sum_lt_sum (fun f : CoreTicks → Nat => f b) (fun f => f c) h

end CoreTicks

namespace CoreShares
variable {b m c : CoreTicks} {s : CoreShares} {f : CoreShares → Nat}

def figures : List (CoreShares → Nat) := [usage, idle, iowait, steal]

def gone (b c : CoreTicks) : CoreShares where
  elapsed := c.sum - b.sum
  usage := c.sum - b.sum - (c.idleSum - b.idleSum)
  idle := c.idle - b.idle
  iowait := c.iowait - b.iowait
  steal := c.steal - b.steal

theorem since_eq_some_iff : since b c = some s ↔ b.sum < c.sum ∧ gone b c = s := by
  by_cases h : b.sum < c.sum
  · have hpass : ¬ c.sum - b.sum = 0 := by omega
    simp [since, hpass, h, gone]
  · have hpass : c.sum - b.sum = 0 := by omega
    simp [since, hpass, h]

theorem usage_le_elapsed (b c : CoreTicks) : (gone b c).usage ≤ (gone b c).elapsed :=
  Nat.sub_le _ _

/-- The ticks of a core that is not in use are those of two counters. -/
theorem usage_add (h : b.Grows c) :
    (gone b c).usage + (gone b c).idle + (gone b c).iowait = (gone b c).elapsed := by
  obtain ⟨huser, hnice, hsystem, hidle, hiowait, hirq, hsoftirq, hsteal⟩ := CoreTicks.grows_iff.mp h
  simp only [gone, CoreTicks.sum, CoreTicks.idleSum]
  omega

theorem steal_le_usage (h : b.Grows c) : (gone b c).steal ≤ (gone b c).usage := by
  obtain ⟨huser, hnice, hsystem, hidle, hiowait, hirq, hsoftirq, hsteal⟩ := CoreTicks.grows_iff.mp h
  simp only [gone, CoreTicks.sum, CoreTicks.idleSum]
  omega

theorem figure_le_elapsed (h : b.Grows c) (hf : f ∈ figures) :
    f (gone b c) ≤ (gone b c).elapsed := by
  have hadd := usage_add h
  have hsteal := steal_le_usage h
  simp only [figures, List.mem_cons, List.not_mem_nil, or_false] at hf
  rcases hf with rfl | rfl | rfl | rfl <;> omega

theorem figure_add (h : b.Grows m) (h' : m.Grows c) (hf : f ∈ elapsed :: figures) :
    f (gone b c) = f (gone b m) + f (gone m c) := by
  obtain ⟨huser, hnice, hsystem, hidle, hiowait, hirq, hsoftirq, hsteal⟩ := CoreTicks.grows_iff.mp h
  obtain ⟨huser', hnice', hsystem', hidle', hiowait', hirq', hsoftirq', hsteal'⟩ :=
    CoreTicks.grows_iff.mp h'
  simp only [figures, List.mem_cons, List.not_mem_nil, or_false] at hf
  rcases hf with rfl | rfl | rfl | rfl | rfl
  all_goals
    simp only [gone, CoreTicks.sum, CoreTicks.idleSum]
    omega

def part (s : CoreShares) (ticks : Nat) : ℚ := ticks / s.elapsed

theorem part_mem_iff {ticks : Nat} (h : 0 < s.elapsed) :
    s.part ticks ∈ Set.Icc (0 : ℚ) 1 ↔ ticks ≤ s.elapsed := by
  have hpos : (0 : ℚ) < s.elapsed := Nat.cast_pos.mpr h
  rw [part, Set.mem_Icc, div_le_one₀ hpos, Nat.cast_le]
  exact and_iff_right (div_nonneg (Nat.cast_nonneg _) hpos.le)

/-- The elapsed ticks divide into those in use, idle and waiting, and those that were stolen are
among the first. -/
structure Divides (s : CoreShares) : Prop where
  whole : s.part s.usage + s.part s.idle + s.part s.iowait = 1
  steal_le_usage : s.part s.steal ≤ s.part s.usage
  part_mem : ∀ f ∈ figures, s.part (f s) ∈ Set.Icc (0 : ℚ) 1
  ratio_inUnit : ∀ f ∈ figures, (s.ratio (f s)).InUnit

theorem divides_gone (h : b.Grows c) (hc : c.Fits) (hpass : b.sum < c.sum) :
    (gone b c).Divides := by
  have hpos : 0 < (gone b c).elapsed := Nat.sub_pos_of_lt hpass
  have hpos' : (0 : ℚ) < (gone b c).elapsed := Nat.cast_pos.mpr hpos
  have hfits : (gone b c).elapsed ≤ Text.maxU64 := Nat.le_trans (Nat.sub_le _ _) hc
  constructor
  case whole =>
    rw [part, part, part, ← add_div, ← add_div, div_eq_one_iff_eq hpos'.ne']
    exact_mod_cast usage_add h
  case steal_le_usage =>
    exact div_le_div_of_nonneg_right (Nat.cast_le.mpr (steal_le_usage h)) hpos'.le
  case part_mem => exact fun f hf => (part_mem_iff hpos).mpr (figure_le_elapsed h hf)
  case ratio_inUnit =>
    exact fun f hf => Binary64.inUnit_div_ofNat (figure_le_elapsed h hf) hpos hfits

def weight (told : Option CoreShares) : ℚ := told.elim 0 (·.elapsed)

def quota (f : CoreShares → Nat) (told : Option CoreShares) : ℚ :=
  told.elim 0 fun s => s.part (f s)

def MeanOf (s : CoreShares) (first second : Option CoreShares) : Prop :=
  s.elapsed = weight first + weight second ∧ ∀ f ∈ figures, s.part (f s) =
    (weight first * quota f first + weight second * quota f second) / (weight first + weight second)

theorem weight_since (b c : CoreTicks) : weight (since b c) = (gone b c).elapsed := by
  by_cases h : b.sum < c.sum
  · rw [since_eq_some_iff.mpr ⟨h, rfl⟩]
    rfl
  · have hpass : c.sum - b.sum = 0 := by omega
    simp [since, gone, weight, hpass]

theorem weight_mul_quota (h : b.Grows c) (hf : f ∈ figures) :
    weight (since b c) * quota f (since b c) = f (gone b c) := by
  by_cases hpass : b.sum < c.sum
  · have hpos : (0 : ℚ) < (gone b c).elapsed := Nat.cast_pos.mpr (Nat.sub_pos_of_lt hpass)
    rw [since_eq_some_iff.mpr ⟨hpass, rfl⟩]
    exact mul_div_cancel₀ _ hpos.ne'
  · -- a counter of a growing core stays if the ticks stay
    have hnone : (gone b c).elapsed = 0 := by
      simp only [gone]
      omega
    have hzero : f (gone b c) = 0 := Nat.le_zero.mp (hnone ▸ figure_le_elapsed h hf)
    rw [weight_since, hnone, hzero]
    simp

theorem meanOf_gone (h : b.Grows m) (h' : m.Grows c) :
    (gone b c).MeanOf (since b m) (since m c) := by
  have helapsed : ((gone b c).elapsed : ℚ) = weight (since b m) + weight (since m c) := by
    rw [weight_since, weight_since, figure_add h h' List.mem_cons_self, Nat.cast_add]
  refine ⟨helapsed, fun f hf => ?_⟩
  rw [weight_mul_quota h hf, weight_mul_quota h' hf, ← helapsed, ← Nat.cast_add,
    ← figure_add h h' (List.mem_cons_of_mem _ hf)]
  rfl

end CoreShares

namespace CpuSnapshot

def Grows (before now : CpuSnapshot) : Prop :=
  ∀ name b c, before.find? name = some b → now.find? name = some c → b.Grows c

instance (before now : CpuSnapshot) : Decidable (before.Grows now) :=
  decidable_of_iff' _ Named.forall_find?_iff

end CpuSnapshot

namespace CoreShares
variable {b c : CoreTicks} {before now : CpuSnapshot} {s : CoreShares}

structure Partition (before now : CpuSnapshot) (shares : Named CoreShares) : Prop where
  reported : ∀ name, (∃ s, shares.find? name = some s) ↔
    ∃ b c, before.find? name = some b ∧ now.find? name = some c ∧ b.Advances c
  divides : ∀ name s, shares.find? name = some s →
    ∃ b c, before.find? name = some b ∧ now.find? name = some c ∧
      b.sum + s.elapsed = c.sum ∧ s.Divides
  own : ∀ before' now' shares', ofSnapshots before' now' = .ok shares' →
    ∀ name, before'.find? name = before.find? name → now'.find? name = now.find? name →
      shares'.find? name = shares.find? name
  mean : ∀ mid first second, ofSnapshots before mid = .ok first →
    ofSnapshots mid now = .ok second →
    ∀ name b m c, before.find? name = some b → mid.find? name = some m →
      now.find? name = some c → b.Grows m → m.Grows c →
      ∀ s, shares.find? name = some s → s.MeanOf (first.find? name) (second.find? name)

/-- The cores that both snapshots know and that go on in between divide the ticks that pass. -/
theorem partition_of_grows (htells : Tells before now) (hgrows : before.Grows now) :
    ∃ shares, ofSnapshots before now = .ok shares ∧ Partition before now shares := by
  obtain ⟨shares, hshares, hfind⟩ := ofSnapshots_of_tells htells
  refine ⟨shares, hshares, ?_⟩
  constructor
  case reported =>
    intro name
    simp only [hfind, since_eq_some_iff]
    constructor
    · rintro ⟨s, b, c, hb, hc, hpass, -⟩
      exact ⟨b, c, hb, hc, (hgrows name b c hb hc).sum_lt_iff.mp hpass⟩
    · rintro ⟨b, c, hb, hc, hadvances⟩
      exact ⟨_, b, c, hb, hc, (hgrows name b c hb hc).sum_lt_iff.mpr hadvances, rfl⟩
  case divides =>
    intro name s hs
    obtain ⟨b, c, hb, hc, hsince⟩ := (hfind name s).mp hs
    obtain ⟨hpass, rfl⟩ := since_eq_some_iff.mp hsince
    exact ⟨b, c, hb, hc, Nat.add_sub_of_le hpass.le,
      divides_gone (hgrows name b c hb hc) (htells name b c hb hc).2 hpass⟩
  case own =>
    intro before' now' shares' hshares' name hbefore hnow
    rw [find?_of_ok hshares', find?_of_ok hshares, hbefore, hnow]
  case mean =>
    intro mid first second hfirst hsecond name b m c hb hm hc h h' s hs
    obtain ⟨b', c', hb', hc', hsince⟩ := (hfind name s).mp hs
    cases hb.symm.trans hb'
    cases hc.symm.trans hc'
    obtain ⟨-, rfl⟩ := since_eq_some_iff.mp hsince
    rw [find?_of_ok hfirst, find?_of_ok hsecond, hb, hm, hc]
    exact meanOf_gone h h'

theorem partition_of_two_cores :
    let before := CpuSnapshot.read "cpu 7 0 2 20 1 0 0 0\ncpu0 5 0 0 9 0 0 0 0\n".toList
    let now := CpuSnapshot.read "cpu 9 0 2 24 3 0 0 2\ncpu0 5 0 0 9 0 0 0 0\n".toList
    Tells before now ∧ before.Grows now ∧ ∃ shares, ofSnapshots before now = .ok shares ∧
      shares.entries = [("cpu", ⟨10, 4, 4, 2, 2⟩)] ∧ Partition before now shares := by
  intro before now
  have htells : Tells before now := by decide +kernel
  have hgrows : before.Grows now := by decide +kernel
  obtain ⟨shares, hshares, hpartition⟩ := partition_of_grows htells hgrows
  have hentries : ofSnapshots before now = .ok (Named.ofList [("cpu", ⟨10, 4, 4, 2, 2⟩)]) := by
    decide +kernel
  cases hshares.symm.trans hentries
  exact ⟨htells, hgrows, _, hentries, rfl, hpartition⟩

def singles : List ((CoreTicks → Nat) × (CoreShares → Nat)) :=
  [(CoreTicks.idle, idle), (CoreTicks.iowait, iowait), (CoreTicks.steal, steal)]

theorem single_gone {e : (CoreTicks → Nat) × (CoreShares → Nat)} (he : e ∈ singles)
    (b c : CoreTicks) : e.1 ∈ CoreTicks.counters ∧ e.2 (gone b c) = e.1 c - e.1 b := by
  simp only [singles, List.mem_cons, List.not_mem_nil, or_false] at he
  rcases he with rfl | rfl | rfl <;> simp [CoreTicks.counters, gone]

def Covered (f : CoreTicks → Nat) (b c : CoreTicks) : Prop :=
  f c ≤ f b ∨ b.sum - f b ≤ c.sum - f c

theorem single_le_elapsed_iff {e : (CoreTicks → Nat) × (CoreShares → Nat)} (he : e ∈ singles)
    (hpass : b.sum < c.sum) :
    e.2 (gone b c) ≤ (gone b c).elapsed ↔ Covered e.1 b c := by
  obtain ⟨hcounter, hsingle⟩ := single_gone he b c
  have hb := b.le_sum hcounter
  have hc := c.le_sum hcounter
  rw [hsingle]
  show e.1 c - e.1 b ≤ c.sum - b.sum ↔ _
  unfold Covered
  omega

/-- What of the shares is a part of the elapsed ticks, however the counters go. -/
structure Bounded (b c : CoreTicks) (s : CoreShares) : Prop where
  usage : s.part s.usage ∈ Set.Icc (0 : ℚ) 1
  single : ∀ e ∈ singles, s.part (e.2 s) ∈ Set.Icc (0 : ℚ) 1 ↔ Covered e.1 b c
  rounded : ∀ f ∈ figures, s.part (f s) ∈ Set.Icc (0 : ℚ) 1 → (s.ratio (f s)).InUnit

theorem bounded_gone (hc : c.Fits) (hpass : b.sum < c.sum) : Bounded b c (gone b c) := by
  have hpos : 0 < (gone b c).elapsed := Nat.sub_pos_of_lt hpass
  constructor
  case usage => exact (part_mem_iff hpos).mpr (usage_le_elapsed b c)
  case single => exact fun e he => (part_mem_iff hpos).trans (single_le_elapsed_iff he hpass)
  case rounded =>
    exact fun f _ hf => Binary64.inUnit_div_ofNat ((part_mem_iff hpos).mp hf) hpos
      (Nat.le_trans (Nat.sub_le _ _) hc)

/-- The use of a core is a part of the elapsed ticks; a single counter is one unless it goes on
while the others together go back. -/
theorem bounded_of_tells (htells : Tells before now) :
    ∃ shares, ofSnapshots before now = .ok shares ∧ ∀ name s, shares.find? name = some s →
      ∃ b c, before.find? name = some b ∧ now.find? name = some c ∧ s.Bounded b c := by
  obtain ⟨shares, hshares, hfind⟩ := ofSnapshots_of_tells htells
  refine ⟨shares, hshares, fun name s hs => ?_⟩
  obtain ⟨b, c, hb, hc, hsince⟩ := (hfind name s).mp hs
  obtain ⟨hpass, rfl⟩ := since_eq_some_iff.mp hsince
  exact ⟨b, c, hb, hc, bounded_gone (htells name b c hb hc).2 hpass⟩

theorem bounded_of_falling_idle :
    let before := CpuSnapshot.read "cpu 10 0 0 50 4 0 0 0\n".toList
    let now := CpuSnapshot.read "cpu 30 0 0 40 8 0 0 0\n".toList
    Tells before now ∧ ∃ shares s, ofSnapshots before now = .ok shares ∧
      shares.find? "cpu" = some s ∧ s.idle = 0 ∧
      ∃ b c, before.find? "cpu" = some b ∧ now.find? "cpu" = some c ∧ s.Bounded b c := by
  intro before now
  have htells : Tells before now := by decide +kernel
  have hentries : ofSnapshots before now = .ok (Named.ofList [("cpu", ⟨14, 14, 0, 4, 0⟩)]) := by
    decide +kernel
  obtain ⟨shares, hshares, hbounded⟩ := bounded_of_tells htells
  cases hshares.symm.trans hentries
  exact ⟨htells, _, _, hentries, rfl, rfl, hbounded "cpu" _ rfl⟩

/-- A core that waited for less time than was told before has more idle ticks than elapsed ones. -/
theorem not_bounded_of_falling_iowait :
    let before := CpuSnapshot.read "cpu 100 0 100 1000 50 0 0 0\n".toList
    let now := CpuSnapshot.read "cpu 100 0 100 1100 40 0 0 0\n".toList
    Tells before now ∧ ∃ shares s, ofSnapshots before now = .ok shares ∧
      shares.find? "cpu" = some s ∧ s.elapsed < s.idle ∧
      (Binary64.ofNat 1).lt (s.ratio s.idle) = true := by
  intro before now
  have htells : Tells before now := by decide +kernel
  have hentries : ofSnapshots before now = .ok (Named.ofList [("cpu", ⟨90, 0, 100, 0, 0⟩)]) := by
    decide +kernel
  exact ⟨htells, _, _, hentries, rfl, by decide, by decide +kernel⟩

end CoreShares
end HostVitals
