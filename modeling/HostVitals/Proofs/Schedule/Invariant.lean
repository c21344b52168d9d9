import HostVitals.Proofs.Schedule.Clock

/-! How to show that something holds of a schedule whatever is done with it: it is enough to look
at one turn of one loop, one quiet nanosecond, and the few things done from outside. -/
namespace HostVitals.Scheduler
variable {σ α : Type} {P : Scheduler σ α → Prop} {s : Scheduler σ α}

def armed (s : Scheduler σ α) : Scheduler σ α :=
  { s with
    running := true
    loops := s.loops.map fun l => { l with phase := some (.idle s.now) } }

theorem run_eq_settle_armed (h : s.running = false) : s.run = s.armed.settle := by
  simp [run, h, armed]

def turned (s : Scheduler σ α) (i : Nat) (l : Loop σ α) (w : World σ α) : Scheduler σ α :=
  { s with loops := s.loops.set i l, world := w }

structure Kept (P : Scheduler σ α → Prop) : Prop where
  turn : ∀ s i l l' w', P s → s.loops[i]? = some l →
    l.Turn s.now s.cancelled s.world l' w' → P (s.turned i l' w')
  pass : ∀ s, P s → s.Still → P { s with now := s.now + 1 }

namespace Kept

theorem settleLoops (h : Kept P) (s : Scheduler σ α) (done ls : List (Loop σ α)) (w : World σ α)
    (hp : P { s with loops := done ++ ls, world := w }) :
    P { s with
      loops := done ++ (settleLoops s.now s.cancelled ls w).1
      world := (Scheduler.settleLoops s.now s.cancelled ls w).2 } := by
  -- on the loops that have not had their turns at this instant
  induction ls generalizing done w with
  | nil => exact hp
  | cons l ls ih =>
    let Q (l : Loop σ α) (w : World σ α) : Prop :=
      P { s with loops := done ++ l :: ls, world := w }
    have turn : ∀ l w l' w', Q l w → l.Turn s.now s.cancelled w l' w' → Q l' w' := by
      intro l w l' w' hq ht
      have := h.turn _ done.length l l' w' hq (by simp) ht
      simpa [Q, turned, List.set_append_right] using this
    have hl : Q _ _ := Loop.settle_keeps turn (Loop.turnsAt s.now) hp
    have := ih (done ++ [(Loop.settle s.now s.cancelled (Loop.turnsAt s.now) l w).1])
      (Loop.settle s.now s.cancelled (Loop.turnsAt s.now) l w).2 (by simpa [Q] using hl)
    simpa [Scheduler.settleLoops] using this

theorem settle (h : Kept P) (hp : P s) : P s.settle := h.settleLoops s [] s.loops s.world hp

theorem iterate (h : Kept P) (hp : P s) (hs : s.Still) (n : Nat) : P (Scheduler.pass^[n] s) := by
  induction n with
  | zero => exact hp
  | succ n ih =>
    rw [Function.iterate_succ_apply']
    exact h.settle (h.pass _ ih (still_iterate_pass hs n))

theorem advance (h : Kept P) (hp : P s) (hs : s.Still) (span : Nat) : P (s.advance span) := by
  rw [advance_eq_iterate hs]
  exact h.iterate hp hs span

theorem wait (h : Kept P) (hp : P s) (hs : s.Still) (span : Nat) : P (s.wait span).1 := by
  obtain ⟨n, -, hn⟩ := wait_eq_iterate hs span
  rw [hn]
  exact h.iterate hp hs n

theorem step (h : Kept P) (hp : P s) (hs : s.Still) (x : Step α) (run : x = .run → P s.run)
    (cancel : x = .cancel → P s.cancel) (outside : x.isOutside = true → P (s.step x)) :
    P (s.step x) := by
  cases x with
  | run => exact run rfl
  | advance span => exact h.advance hp hs span
  | cancel => exact cancel rfl
  | wait span => exact h.wait hp hs span
  | query key => exact hp
  | save key value => exact outside rfl
  | clear key => exact outside rfl

end Kept

/-- What does not look at the store is kept when the store is changed from outside. -/
theorem step_of_ignores (ignores : ∀ s f, P s → P (s.withStoreChanged f)) (hp : P s)
    {x : Step α} (hx : x.isOutside = true) : P (s.step x) := by
  cases x with
  | save key value => exact ignores s (·.save key ⟨value, s.now⟩) hp
  | clear key => exact ignores s (·.clear key) hp
  | _ => simp [Step.isOutside] at hx

/-- What neither time nor the start nor a cancellation changes. -/
structure Invariant (P : Scheduler σ α → Prop) : Prop extends Kept P where
  arm : ∀ s, P s → s.running = false → P s.armed
  cancel : ∀ s, P s → s.Still → P { s with cancelled := true }

/-- What holds of each of several things is kept if it is kept for every one of them. -/
theorem Invariant.forall {ι : Type} {Q : ι → Scheduler σ α → Prop} (h : ∀ k, Invariant (Q k)) :
    Invariant fun s => ∀ k, Q k s where
  turn s i l l' w' hq hl ht k := (h k).turn s i l l' w' (hq k) hl ht
  pass s hq hs k := (h k).pass s (hq k) hs
  arm s hq hr k := (h k).arm s (hq k) hr
  cancel s hq hs k := (h k).cancel s (hq k) hs

theorem Invariant.run (h : Invariant P) (hp : P s) : P s.run := by
  cases hr : s.running with
  | true => simpa [Scheduler.run, hr] using hp
  | false =>
    rw [run_eq_settle_armed hr]
    exact h.settle (h.arm s hp hr)

theorem still_step (h : s.Still) (x : Step α) : (s.step x).Still := by
  cases x with
  | run =>
    cases hr : s.running with
    | true => simpa [step, run, hr] using h
    | false =>
      show s.run.Still
      rw [run_eq_settle_armed hr]
      exact still_settle _
  | advance span =>
    show (s.advance span).Still
    rw [advance_eq_iterate h]
    exact still_iterate_pass h span
  | cancel => exact still_settle _
  | wait span =>
    obtain ⟨n, -, hn⟩ := wait_eq_iterate h span
    show (s.wait span).1.Still
    rw [hn]
    exact still_iterate_pass h n
  | query key => exact h
  | save key value => exact h
  | clear key => exact h

theorem still_after (h : s.Still) (steps : List (Step α)) : (s.after steps).Still := by
  induction steps generalizing s with
  | nil => exact h
  | cons x xs ih => exact ih (still_step h x)

/-- An invariant that the changes from outside keep as well holds to the end. -/
theorem Invariant.after (h : Invariant P) (hp : P s) (hs : s.Still) (steps : List (Step α))
    (outside : ∀ x ∈ steps, x.isOutside = true → ∀ s, P s → P (s.step x)) :
    P (s.after steps) := by
  induction steps generalizing s with
  | nil => exact hp
  | cons x xs ih =>
    have hx : P (s.step x) := h.step hp hs x (fun _ => h.run hp)
      (fun _ => h.settle (h.cancel s hp hs)) fun hx => outside x (by simp) hx s hp
    exact ih hx (still_step hs x) fun y hy => outside y (List.mem_cons_of_mem x hy)

theorem Invariant.after_of_ignores (h : Invariant P) (hp : P s) (hs : s.Still)
    (steps : List (Step α)) (ignores : ∀ s f, P s → P (s.withStoreChanged f)) :
    P (s.after steps) :=
  h.after hp hs steps fun _ _ hx _ hp => step_of_ignores ignores hp hx

theorem Invariant.after_of_untouched (h : Invariant P) (hp : P s)
    (hs : s.Still) {steps : List (Step α)} (hsteps : ∀ x ∈ steps, x.isOutside = false) :
    P (s.after steps) :=
  h.after hp hs steps fun x hx ho => by simp [hsteps x hx] at ho

theorem instantOf?_cons_of_not {kind : Step α → Bool} {x : Step α} (h : kind x = false)
    (s : Scheduler σ α) (xs : List (Step α)) :
    s.instantOf? kind (x :: xs) = (s.step x).instantOf? kind xs := by
  simp [instantOf?, h]

theorem instantOf?_eq_none {kind : Step α → Bool} {steps : List (Step α)}
    (h : ∀ x ∈ steps, kind x = false) (s : Scheduler σ α) : s.instantOf? kind steps = none := by
  induction steps generalizing s with
  | nil => rfl
  | cons x xs ih =>
    rw [List.forall_mem_cons] at h
    rw [instantOf?_cons_of_not h.1]
    exact ih h.2 (s.step x)

theorem after_append (s : Scheduler σ α) (xs ys : List (Step α)) :
    s.after (xs ++ ys) = (s.after xs).after ys := List.foldl_append

end HostVitals.Scheduler
