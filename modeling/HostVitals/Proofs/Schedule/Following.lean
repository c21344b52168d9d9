import HostVitals.Proofs.Schedule.Wiring
import Mathlib.Logic.Function.Basic

/-! A loop among others does what it would do alone, as long as each producer keeps what it
remembers to itself: its own turns are the same, and it notices nothing of the turns of others. -/
namespace HostVitals
variable {τ α : Type}

namespace Producer

def keeping (key : String) (p : Producer τ α) : Producer (String → τ) α := fun n around =>
  let (called, own) := p n (around key)
  (called, Function.update around key own)

def Spares (p : Producer (String → τ) α) (key : String) : Prop :=
  ∀ n around k, k ≠ key → (p n around).2 k = around k

theorem spares_keeping (key : String) (p : Producer τ α) : (keeping key p).Spares key :=
  fun _ _ _ hk => Function.update_of_ne hk _ _

end Producer

namespace Loop
variable {now : Nat} {cancelled : Bool} {l x x' : Loop (String → τ) α} {l' : Loop τ α}
  {w w₁ : World (String → τ) α} {w' : World τ α}

structure Follows (l : Loop (String → τ) α) (w : World (String → τ) α) (l' : Loop τ α)
    (w' : World τ α) : Prop where
  key : l.key = l'.key
  interval : l.interval = l'.interval
  producer : l.producer = .keeping l.key l'.producer
  phase : l.phase = l'.phase
  calls : l.calls = l'.calls
  stats : l.stats = l'.stats
  history : l.history = l'.history
  own : w.around l.key = w'.around
  state : w.store.state? l.key = w'.store.state? l.key
  leads : w.store.Leads l.key l.slot
  leads' : w'.store.Leads l.key l'.slot

namespace Follows

theorem call (h : l.Follows w l' w') : l.call w = l'.call w' := by
  unfold Loop.call
  rw [h.producer, h.calls, ← h.own]
  rfl

theorem leave (h : l.Follows w l' w') (p : Phase α) :
    ({ l with phase := some p } : Loop (String → τ) α).Follows w { l' with phase := some p } w' :=
  { h with phase := rfl }

theorem start (h : l.Follows w l' w') (due now : Nat) :
    (l.start due now w).1.Follows (l.start due now w).2 (l'.start due now w').1
      (l'.start due now w').2 where
  key := h.key
  interval := h.interval
  producer := h.producer
  phase := by rw [start_phase, start_phase, h.call, h.interval]
  calls := congrArg (· + 1) h.calls
  stats := h.stats
  history := by rw [start_history, start_history, h.call, h.history]
  own := by
    show (l.producer l.calls w.around).2 l.key = (l'.producer l'.calls w'.around).2
    rw [h.producer, h.calls, ← h.own]
    exact Function.update_self _ _ _
  state := h.state
  leads := h.leads
  leads' := h.leads'

theorem finish (h : l.Follows w l' w') (due started now : Nat) (o : Outcome α) :
    (l.finish due started now o w).1.Follows (l.finish due started now o w).2
      (l'.finish due started now o w').1 (l'.finish due started now o w').2 where
  key := h.key
  interval := h.interval
  producer := h.producer
  phase := rfl
  calls := h.calls
  stats := by simp only [Loop.finish, h.stats]
  history := by rw [finish_history, finish_history, h.history]
  own := by
    rw [finish_around, finish_around]
    exact h.own
  state := by
    show _ = (l'.finish due started now o w').2.store.state? l.key
    rw [finish_key, state?_finish l due started now o w h.leads,
      state?_finish l' due started now o w' (h.key ▸ h.leads'), h.key, if_pos rfl, if_pos rfl,
      ← h.key, h.state]
  leads := leads_finish l due started now o w h.leads
  leads' := leads_finish l' due started now o w' h.leads'

theorem turn? (h : l.Follows w l' w') (now : Nat) (cancelled : Bool) :
    (l.turn? now cancelled w = none ∧ l'.turn? now cancelled w' = none) ∨
      ∃ p p', l.turn? now cancelled w = some p ∧ l'.turn? now cancelled w' = some p' ∧
        p.1.Follows p.2 p'.1 p'.2 := by
  unfold Loop.turn?
  rw [h.phase]
  cases l'.phase with
  | none => exact .inl ⟨rfl, rfl⟩
  | some p =>
    cases p with
    | idle due =>
      cases cancelled with
      | true => exact .inr ⟨_, _, rfl, rfl, h.leave .ended⟩
      | false =>
        by_cases hd : due ≤ now
        · have hnext := congrArg (Cadence.hasNext · due now) h.interval
          simp only [hd, if_true, Bool.false_eq_true, if_false, hnext]
          cases Cadence.hasNext l'.interval due now with
          | true => exact .inr ⟨_, _, rfl, rfl, h.start due now⟩
          | false => exact .inr ⟨_, _, rfl, rfl, h.leave .spent⟩
        · simp [hd]
    | busy due started r =>
      cases ho : r.isOver started now cancelled with
      | true =>
        simp only [ho, if_true]
        exact .inr ⟨_, _, rfl, rfl, h.finish due started now r.outcome⟩
      | false => simp [ho]
    | ended => exact .inl ⟨rfl, rfl⟩
    | spent => exact .inl ⟨rfl, rfl⟩

theorem settle (h : l.Follows w l' w') (now : Nat) (cancelled : Bool) (fuel : Nat) :
    (Loop.settle now cancelled fuel l w).1.Follows (Loop.settle now cancelled fuel l w).2
      (Loop.settle now cancelled fuel l' w').1 (Loop.settle now cancelled fuel l' w').2 := by
  induction fuel generalizing l w l' w' with
  | zero => exact h
  | succ fuel ih =>
    rcases h.turn? now cancelled with ⟨hn, hn'⟩ | ⟨p, p', hp, hp', hfollows⟩
    · simpa only [Loop.settle, hn, hn'] using h
    · rw [settle_succ_of_turn? hp, settle_succ_of_turn? hp']
      exact ih hfollows

/-- A turn of another loop goes unnoticed. -/
theorem turn_of_ne (h : l.Follows w l' w') (hk : x.key ≠ l.key)
    (hleads : w.store.Leads x.key x.slot) (hspares : x.producer.Spares x.key)
    (t : x.Turn now cancelled w x' w₁) : l.Follows w₁ l' w' :=
  { h with
    own := by
      cases t with
      | stop waits off => exact h.own
      | start waits on ripe => exact (hspares _ _ _ hk.symm).trans h.own
      | spend waits on ripe => exact h.own
      | finish runs isOver =>
        rw [finish_around]
        exact h.own
    state := (t.state?_of_ne hleads hk.symm).trans h.state
    leads := t.leads h.leads }

theorem save (h : l.Follows w l' w') (st : State α) :
    l.Follows { w with store := w.store.save l.key st } l'
      { w' with store := w'.store.save l.key st } :=
  { h with
    state := by rw [Store.state?_save, Store.state?_save, if_pos rfl, if_pos rfl]
    leads := h.leads.save l.key st
    leads' := h.leads'.save l.key st }

theorem save_of_ne (h : l.Follows w l' w') {k : String} (hk : k ≠ l.key) (st : State α) :
    l.Follows { w with store := w.store.save k st } l' w' :=
  { h with
    state := by rw [Store.state?_save, if_neg hk.symm, h.state]
    leads := h.leads.save k st }

theorem clear (h : l.Follows w l' w') : l.Follows { w with store := w.store.clear l.key } l'
    { w' with store := w'.store.clear l.key } :=
  { h with
    state := by rw [Store.state?_clear, Store.state?_clear, if_pos rfl, if_pos rfl]
    leads := h.leads.clear l.key
    leads' := h.leads'.clear l.key }

theorem clear_of_ne (h : l.Follows w l' w') {k : String} (hk : k ≠ l.key) :
    l.Follows { w with store := w.store.clear k } l' w' :=
  { h with
    state := by rw [Store.state?_clear, if_neg hk.symm, h.state]
    leads := h.leads.clear k }

end Follows

structure Confined (x : Loop (String → τ) α) (w : World (String → τ) α) : Prop where
  leads : w.store.Leads x.key x.slot
  spares : x.producer.Spares x.key

theorem Turn.confined (t : x.Turn now cancelled w x' w₁) {y : Loop (String → τ) α}
    (h : y.Confined w) : y.Confined w₁ := ⟨t.leads h.leads, h.spares⟩

theorem Turn.confined_self (t : x.Turn now cancelled w x' w₁) (h : x.Confined w) :
    x'.Confined w₁ where
  leads := by
    rw [t.key_eq, t.slot_eq]
    exact t.leads h.leads
  spares := by
    have hp : x'.producer = x.producer := congrArg (·.2.2.producer) t.identity_eq
    rw [hp, t.key_eq]
    exact h.spares

theorem Confined.settle {y : Loop (String → τ) α} (h : y.Confined w) (now : Nat)
    (cancelled : Bool) (fuel : Nat) (x : Loop (String → τ) α) :
    y.Confined (Loop.settle now cancelled fuel x w).2 :=
  settle_keeps (P := fun _ v => y.Confined v) (fun _ _ _ _ hy t => t.confined hy) fuel h

theorem Follows.settle_of_ne (h : l.Follows w l' w') (hk : x.key ≠ l.key) (hx : x.Confined w)
    (now : Nat) (cancelled : Bool) (fuel : Nat) :
    l.Follows (Loop.settle now cancelled fuel x w).2 l' w' := by
  let P (y : Loop (String → τ) α) (v : World (String → τ) α) : Prop :=
    y.key ≠ l.key ∧ y.Confined v ∧ l.Follows v l' w'
  have turn : ∀ y v y' v', P y v → y.Turn now cancelled v y' v' → P y' v' := by
    intro y v y' v' hp t
    obtain ⟨hne, hy, hl⟩ := hp
    exact ⟨t.key_eq ▸ hne, t.confined_self hy, hl.turn_of_ne hne hy.leads hy.spares t⟩
  have hp : P _ _ := settle_keeps turn fuel ⟨hk, hx, h⟩
  exact hp.2.2

end Loop

namespace Scheduler
variable {now : Nat} {cancelled : Bool} {l : Loop (String → τ) α} {l' : Loop τ α}
  {ls : List (Loop (String → τ) α)} {w : World (String → τ) α} {w' : World τ α}

theorem follows_settleLoops_of_ne (h : l.Follows w l' w') (hne : ∀ x ∈ ls, x.key ≠ l.key)
    (hc : ∀ x ∈ ls, x.Confined w) (now : Nat) (cancelled : Bool) :
    l.Follows (settleLoops now cancelled ls w).2 l' w' := by
  induction ls generalizing w with
  | nil => exact h
  | cons x xs ih =>
    rw [List.forall_mem_cons] at hne hc
    exact ih (h.settle_of_ne hne.1 hc.1 now cancelled (Loop.turnsAt now)) hne.2 fun y hy =>
      (hc.2 y hy).settle now cancelled (Loop.turnsAt now) x

/-- Among all loops of an instant the one under the key does what it would do alone. -/
theorem follows_settleLoops (h : l.Follows w l' w') (hn : (ls.map (·.key)).Nodup)
    (hf : ls.find? (·.key == l.key) = some l) (hc : ∀ x ∈ ls, x.Confined w) (now : Nat)
    (cancelled : Bool) :
    ∃ l₁, (settleLoops now cancelled ls w).1.find? (·.key == l.key) = some l₁ ∧
      l₁.Follows (settleLoops now cancelled ls w).2
        (Loop.settle now cancelled (Loop.turnsAt now) l' w').1
        (Loop.settle now cancelled (Loop.turnsAt now) l' w').2 := by
  induction ls generalizing w with
  | nil => simp at hf
  | cons x xs ih =>
    rw [List.map_cons, List.nodup_cons] at hn
    rw [List.forall_mem_cons] at hc
    have hrest : ∀ y ∈ xs, y.Confined (Loop.settle now cancelled (Loop.turnsAt now) x w).2 :=
      fun y hy => (hc.2 y hy).settle now cancelled _ x
    have hkey := Loop.key_settle now cancelled (Loop.turnsAt now) x w
    by_cases hk : x.key = l.key
    · -- its own turn, and those behind it go unnoticed
      obtain rfl : x = l := by simpa [hk] using hf
      have hown := h.settle now cancelled (Loop.turnsAt now)
      have hne : ∀ y ∈ xs, y.key ≠ (Loop.settle now cancelled (Loop.turnsAt now) x w).1.key := by
        intro y hy hyk
        exact hn.1 (List.mem_map.mpr ⟨y, hy, hyk.trans hkey⟩)
      exact ⟨_, by simp [settleLoops, hkey],
        follows_settleLoops_of_ne hown hne hrest now cancelled⟩
    · -- the turn of another, and its own is still to come
      have hskip : xs.find? (·.key == l.key) = some l := by simpa [hk] using hf
      obtain ⟨l₁, hf₁, hfollows⟩ := ih (h.settle_of_ne hk hc.1 now cancelled _) hn.2 hskip hrest
      exact ⟨l₁, by simpa [settleLoops, hkey, hk] using hf₁, hfollows⟩

end Scheduler
end HostVitals
