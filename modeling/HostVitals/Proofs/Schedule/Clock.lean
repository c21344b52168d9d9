import HostVitals.Proofs.Schedule.Turn
import HostVitals.Schedule.Step
import Mathlib.Logic.Function.Iterate

/-! The clock of a schedule. It stops only where a loop has something to do, yet every step of it
comes to the same as nanosecond after nanosecond with all due work done at each. -/
namespace HostVitals.Scheduler
variable {σ α : Type} {s : Scheduler σ α}

def Still (s : Scheduler σ α) : Prop := ∀ l ∈ s.loops, l.Still s.now s.cancelled

def pass (s : Scheduler σ α) : Scheduler σ α := settle { s with now := s.now + 1 }

@[simp] theorem pass_now (s : Scheduler σ α) : s.pass.now = s.now + 1 := rfl

theorem still_settleLoops (now : Nat) (cancelled : Bool) (ls : List (Loop σ α)) (w : World σ α) :
    ∀ l ∈ (settleLoops now cancelled ls w).1, l.Still now cancelled := by
  induction ls generalizing w with
  | nil => simp [settleLoops]
  | cons l ls ih =>
    intro x hx
    simp only [settleLoops, List.mem_cons] at hx
    rcases hx with rfl | hx
    · exact Loop.still_settle l w now cancelled
    · exact ih _ x hx

theorem still_settle (s : Scheduler σ α) : s.settle.Still :=
  still_settleLoops s.now s.cancelled s.loops s.world

theorem settleLoops_of_still {now : Nat} {cancelled : Bool} {ls : List (Loop σ α)}
    (h : ∀ l ∈ ls, l.Still now cancelled) (w : World σ α) :
    settleLoops now cancelled ls w = (ls, w) := by
  induction ls with
  | nil => rfl
  | cons l ls ih =>
    have hl := Loop.settle_of_still (h l (by simp)) (w := w) (Loop.turnsAt now)
    have hls := ih fun x hx => h x (List.mem_cons_of_mem l hx)
    simp [settleLoops, hl, hls]

theorem settle_of_still (h : s.Still) : s.settle = s := by
  simp only [settle, settleLoops_of_still h]

theorem lt_next?_iff {u : Nat} : (∀ t, s.next? = some t → u < t) ↔
    ∀ l ∈ s.loops, ∀ t, l.next? s.cancelled = some t → u < t := by
  unfold next?
  constructor
  · intro h l hl t ht
    have hm : t ∈ s.loops.filterMap (·.next? s.cancelled) :=
      List.mem_filterMap.mpr ⟨l, hl, ht⟩
    cases hn : (s.loops.filterMap (·.next? s.cancelled)).min? with
    | none => simp [List.min?_eq_none_iff.mp hn] at hm
    | some m => exact Nat.lt_of_lt_of_le (h m hn) ((List.min?_eq_some_iff.mp hn).2 t hm)
  · intro h t ht
    obtain ⟨l, hl, hlt⟩ := List.mem_filterMap.mp (List.min?_eq_some_iff.mp ht).1
    exact h l hl t hlt

/-- Once still, a schedule stays so until one of its loops has something to do. -/
theorem still_iff_next? (h : s.Still) (later : Nat) :
    ({ s with now := later } : Scheduler σ α).Still ↔ ∀ t, s.next? = some t → later < t := by
  rw [lt_next?_iff]
  exact forall₂_congr fun l hl => Loop.still_iff_next? (h l hl) later

theorem pass_of_lt_next? (h : s.Still) (hn : ∀ t, s.next? = some t → s.now + 1 < t) :
    s.pass = { s with now := s.now + 1 } :=
  settle_of_still ((still_iff_next? h (s.now + 1)).mpr hn)

theorem iterate_pass_of_lt_next? (h : s.Still) (n : Nat)
    (hn : ∀ t, s.next? = some t → s.now + n < t) :
    pass^[n] s = { s with now := s.now + n } := by
  induction n generalizing s with
  | zero => rfl
  | succ n ih =>
    have hone : ∀ t, s.next? = some t → s.now + 1 < t := by
      intro t ht
      have := hn t ht
      omega
    rw [Function.iterate_succ_apply, pass_of_lt_next? h hone,
      ih ((still_iff_next? h _).mpr hone) (fun t ht => by
        have := hn t ht
        show s.now + 1 + n < t
        omega)]
    simp only [Nat.add_assoc, Nat.add_comm 1 n]

/-- Up to the next thing to do, and that done. -/
theorem iterate_pass_to_next? (h : s.Still) {t : Nat} (ht : s.next? = some t) :
    pass^[t - s.now] s = settle { s with now := t } := by
  have hlt : s.now < t := (still_iff_next? h s.now).mp h t ht
  obtain ⟨n, rfl⟩ := Nat.exists_eq_add_of_lt hlt
  rw [show s.now + n + 1 - s.now = n + 1 by omega, Function.iterate_succ_apply',
    iterate_pass_of_lt_next? h n (fun u hu => by
      have : u = s.now + n + 1 := Option.some.inj (hu.symm.trans ht)
      omega)]
  rfl

theorem still_iterate_pass (h : s.Still) (n : Nat) : (pass^[n] s).Still := by
  cases n with
  | zero => exact h
  | succ n =>
    rw [Function.iterate_succ_apply']
    exact still_settle _

@[simp] theorem iterate_pass_now (s : Scheduler σ α) (n : Nat) :
    (pass^[n] s).now = s.now + n := by
  induction n with
  | zero => rfl
  | succ n ih => rw [Function.iterate_succ_apply', pass_now, ih, Nat.add_assoc]

theorem advanceTo_eq_iterate {target fuel : Nat} (h : s.Still) (hle : s.now ≤ target)
    (hfuel : target - s.now < fuel) :
    advanceTo target fuel s = pass^[target - s.now] s := by
  induction fuel generalizing s with
  | zero => omega
  | succ fuel ih =>
    have hrest (hn : ∀ t, s.next? = some t → target < t) :
        pass^[target - s.now] s = { s with now := target } := by
      have hsum : s.now + (target - s.now) = target := by omega
      rw [iterate_pass_of_lt_next? h _ (by rwa [hsum]), hsum]
    unfold advanceTo
    cases hn : s.next? with
    | none => exact (hrest (by simp [hn])).symm
    | some t =>
      have hlt : s.now < t := (still_iff_next? h s.now).mp h t hn
      by_cases ht : t ≤ target
      · simp only [ht, if_true, Nat.max_eq_right (Nat.le_of_lt hlt)]
        have hstill := still_settle ({ s with now := t } : Scheduler σ α)
        rw [ih hstill ht (by show target - t < fuel; omega),
          show target - s.now = (target - t) + (t - s.now) by omega,
          Function.iterate_add_apply, iterate_pass_to_next? h hn]
        rfl
      · simp only [ht, if_false]
        exact (hrest (by rw [hn]; rintro u ⟨⟩; omega)).symm

/-- To let time pass is to let each nanosecond of it pass. -/
theorem advance_eq_iterate (h : s.Still) (span : Nat) : s.advance span = pass^[span] s := by
  have hspan : s.now + span - s.now = span := by omega
  unfold advance
  rw [advanceTo_eq_iterate h (Nat.le_add_right _ _) (by omega), hspan]

theorem advance_now (h : s.Still) (span : Nat) : (s.advance span).now = s.now + span := by
  rw [advance_eq_iterate h, iterate_pass_now]

theorem advance_add (h : s.Still) (m n : Nat) : (s.advance m).advance n = s.advance (m + n) := by
  have hm : (s.advance m).Still := by
    rw [advance_eq_iterate h]
    exact still_iterate_pass h m
  rw [advance_eq_iterate hm, advance_eq_iterate h, advance_eq_iterate h, Nat.add_comm,
    Function.iterate_add_apply]

theorem advance_of_lt_next? (h : s.Still) (n : Nat) (hn : ∀ t, s.next? = some t → s.now + n < t) :
    s.advance n = { s with now := s.now + n } := by
  rw [advance_eq_iterate h, iterate_pass_of_lt_next? h n hn]

theorem advance_to_next? (h : s.Still) {t : Nat} (ht : s.next? = some t) :
    s.advance (t - s.now) = settle { s with now := t } := by
  rw [advance_eq_iterate h, iterate_pass_to_next? h ht]

/-- Where no loop has anything to do before an instant, all that happens up to then happens at it. -/
theorem advance_to_limit {t limit : Nat} (h : s.Still) (ht : s.next? = some t) (hle : s.now ≤ limit)
    (hlimit : limit ≤ t) : s.advance (limit - s.now) = settle { s with now := limit } := by
  by_cases he : t = limit
  · rw [← he, advance_to_next? h ht]
  · have hsum : s.now + (limit - s.now) = limit := by omega
    have hlater : ∀ u, s.next? = some u → limit < u := by
      rw [ht]
      rintro u ⟨⟩
      omega
    rw [settle_of_still ((still_iff_next? h limit).mpr hlater),
      advance_of_lt_next? h _ (by rwa [hsum]), hsum]

/-- As long as no loop has anything to do, the schedule is no more done than it was. -/
theorem isDone_advance_of_lt_next? (h : s.Still) {n : Nat}
    (hn : ∀ t, s.next? = some t → s.now + n < t) : (s.advance n).isDone = s.isDone := by
  rw [advance_of_lt_next? h n hn]
  rfl

/-- What waiting comes to: it ends at the first instant before the limit at which the schedule is
done, and otherwise at the limit. What is done at once is done before any limit. -/
inductive Waited (s : Scheduler σ α) (span : Nat) : Scheduler σ α × Bool → Prop where
  | done {n : Nat} (before : n ≤ span - 1) (now : (s.advance n).isDone = true)
    (first : ∀ m < n, (s.advance m).isDone = false) : Waited s span (s.advance n, true)
  | timeout (never : ∀ n ≤ span - 1, (s.advance n).isDone = false) :
    Waited s span (s.advance span, false)

/-- Up to an instant before which the schedule was not done, and on from there. -/
theorem Waited.of_advance {d span : Nat} {p : Scheduler σ α × Bool} (hs : s.Still)
    (hquiet : ∀ m < d, (s.advance m).isDone = false) (hd : d < span)
    (h : (s.advance d).Waited (span - d) p) : s.Waited span p := by
  have hsplit (m : Nat) (hm : d ≤ m) : s.advance m = (s.advance d).advance (m - d) := by
    rw [advance_add hs, Nat.add_sub_cancel' hm]
  cases h with
  | @done n before now first =>
    rw [advance_add hs] at now ⊢
    refine .done (by omega) now fun m hm => ?_
    by_cases hlt : m < d
    · exact hquiet m hlt
    · rw [hsplit m (Nat.le_of_not_lt hlt)]
      exact first (m - d) (by omega)
  | timeout never =>
    rw [advance_add hs, Nat.add_sub_cancel' (Nat.le_of_lt hd)]
    refine .timeout fun m hm => ?_
    by_cases hlt : m < d
    · exact hquiet m hlt
    · rw [hsplit m (Nat.le_of_not_lt hlt)]
      exact never (m - d) (by omega)

theorem waited_waitUntil {limit fuel : Nat} (h : s.Still) (hle : s.now ≤ limit)
    (hfuel : limit - s.now < fuel) : s.Waited (limit - s.now) (waitUntil limit fuel s) := by
  induction fuel generalizing s with
  | zero => omega
  | succ fuel ih =>
    unfold waitUntil
    cases hd : s.isDone with
    | true =>
      have hzero : s.advance 0 = s := advance_eq_iterate h 0
      have hdone : s.Waited (limit - s.now) (s.advance 0, true) :=
        .done (Nat.zero_le _) (hzero.symm ▸ hd) (by simp)
      rw [hzero] at hdone
      simpa using hdone
    | false =>
      simp only [Bool.false_eq_true, if_false]
      have hquiet {n : Nat} (hn : ∀ t, s.next? = some t → s.now + n < t) :
          (s.advance n).isDone = false := (isDone_advance_of_lt_next? h hn).trans hd
      cases hn : s.next? with
      | none =>
        have hnever (n : Nat) : ∀ t, s.next? = some t → s.now + n < t := by simp [hn]
        have hall := advance_of_lt_next? h _ (hnever (limit - s.now))
        rw [Nat.add_sub_cancel' hle] at hall
        simp only [← hall]
        exact .timeout fun n _ => hquiet (hnever n)
      | some t =>
        have hlt : s.now < t := (still_iff_next? h s.now).mp h t hn
        have hbefore {n : Nat} (hnt : s.now + n < t) : ∀ u, s.next? = some u → s.now + n < u := by
          rw [hn]
          rintro u ⟨⟩
          exact hnt
        by_cases ht : t < limit
        · simp only [ht, if_true, Nat.max_eq_right (Nat.le_of_lt hlt)]
          have hrest := ih (still_settle ({ s with now := t } : Scheduler σ α))
            (Nat.le_of_lt ht) (by
              show limit - t < fuel
              omega)
          rw [← advance_to_next? h hn] at hrest ⊢
          have hsoon : t - s.now < limit - s.now := by omega
          refine .of_advance h (fun m hm => hquiet (hbefore (by omega))) hsoon ?_
          rwa [advance_now h, Nat.add_sub_cancel' (Nat.le_of_lt hlt),
            show limit - t = limit - s.now - (t - s.now) by omega] at hrest
        · -- nothing happens before the limit, and what happens at it comes too late
          simp only [ht, if_false]
          rw [← advance_to_limit h hn hle (Nat.le_of_not_lt ht)]
          exact .timeout fun n hn => hquiet (hbefore (by omega))

theorem waited_wait (h : s.Still) (span : Nat) : s.Waited span (s.wait span) := by
  have hspan : s.now + span - s.now = span := by omega
  have hwaited := waited_waitUntil h (Nat.le_add_right s.now span)
    (show s.now + span - s.now < span + 1 by omega)
  rwa [hspan] at hwaited

theorem Waited.snd_iff {span : Nat} {p : Scheduler σ α × Bool} (h : s.Waited span p) :
    p.2 = true ↔ ∃ n ≤ span - 1, (s.advance n).isDone = true := by
  cases h with
  | @done n before now first => exact iff_of_true rfl ⟨n, before, now⟩
  | timeout never =>
    refine iff_of_false (by simp) ?_
    rintro ⟨n, hn, hd⟩
    simp [never n hn] at hd

theorem Waited.isDone {span : Nat} {p : Scheduler σ α × Bool} (h : s.Waited span p)
    (hp : p.2 = true) : p.1.isDone = true := by
  cases h with
  | done before now first => exact now
  | timeout never => cases hp

/-- To wait is to let some part of the time pass. -/
theorem wait_eq_iterate (h : s.Still) (span : Nat) :
    ∃ n, n ≤ span ∧ (s.wait span).1 = pass^[n] s := by
  have hwaited := waited_wait h span
  generalize s.wait span = p at hwaited ⊢
  cases hwaited with
  | @done n before now first => exact ⟨n, by omega, advance_eq_iterate h n⟩
  | timeout never => exact ⟨span, Nat.le_refl span, advance_eq_iterate h span⟩

end HostVitals.Scheduler
