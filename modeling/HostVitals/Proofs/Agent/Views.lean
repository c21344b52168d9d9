import HostVitals.Proofs.Agent.Jobs
import HostVitals.Proofs.Report.Reply

/-! What an agent shows in one place agrees with what it shows in another: the list of metrics, the
reply for each of them, the health page and the number of states in the store. -/
namespace HostVitals

theorem mapM_eq_ok {α β ε : Type} {f : α → Except ε β} {g : α → β} {l : List α}
    (h : ∀ x ∈ l, f x = .ok (g x)) : l.mapM f = .ok (l.map g) := by
  induction l with
  | nil => rfl
  | cons x rest ih =>
    rw [List.mapM_cons, h x List.mem_cons_self, ih fun y hy => h y (List.mem_cons_of_mem x hy)]
    rfl

namespace Store
variable {α : Type}

theorem populated_eq_countP (s : Store α) :
    s.populated = s.slots.keys.countP fun key => (s.state? key).isSome := by
  rw [populated, Named.keys, List.countP_map]
  apply List.countP_congr
  intro e he
  have hfind : s.slots.find? e.1 = some e.2 := Named.mem_entries_iff.mp he
  simp [state?, hfind, Cell.isPresent, Cell.value?]

/-- Some keys and all others make up the store. -/
theorem populated_eq_add (s : Store α) {names : List String} (hnodup : names.Nodup)
    (hnames : names ⊆ s.slots.keys) : s.populated =
      (names.countP fun key => (s.state? key).isSome) +
      (s.slots.keys.filter fun key => key ∉ names).countP fun key => (s.state? key).isSome := by
  have hstore : s.slots.keys.Nodup := s.slots.nodup_keys
  have hperm : (s.slots.keys.filter fun key => key ∈ names).Perm names := by
    rw [List.perm_ext_iff_of_nodup (hstore.filter _) hnodup]
    intro key
    simpa using @hnames key
  rw [populated_eq_countP, List.countP_eq_countP_filter_add _ _ fun key => decide (key ∈ names),
    hperm.countP_eq]
  simp

end Store

namespace Scheduler
variable {σ : Type} {s : Scheduler σ Sample} {key : String}

def Answerable (s : Scheduler σ Sample) : Prop :=
  ∀ l ∈ s.loops, InRange l.interval (s.world.store.state? l.key)

def answer (s : Scheduler σ Sample) (key : String) : Current Sample :=
  match s.current key with
  | .ok c => c
  | .error _ => {}

theorem answer_of_unknown (h : key ∉ s.keys) :
    s.current key = .ok (s.answer key) ∧ s.answer key = {} := by
  have hnone : s.find? key = none := by
    simpa [find?, keys] using h
  have hcurrent : s.current key = .ok {} := by simp [current, hnone]
  simp [answer, hcurrent]

theorem answer_of_key (h : s.Wired) (hanswerable : s.Answerable) (hkey : key ∈ s.keys) :
    ∃ l ∈ s.loops, l.key = key ∧ s.current key = .ok (s.answer key) ∧
      (s.answer key).Shows l.interval (s.world.store.state? key) := by
  obtain ⟨l, hl, rfl⟩ := List.mem_map.mp hkey
  obtain ⟨c, hc, hshows⟩ := Current.ofState_shows s.now (hanswerable l hl)
  have hcurrent : s.current l.key = .ok c :=
    (current_of_find? h (h.find?_of_mem hl)).trans hc
  have hanswer : s.answer l.key = c := by simp [answer, hcurrent]
  rw [hanswer]
  exact ⟨l, hl, rfl, hcurrent, hshows⟩

theorem missingCount_summaries (h : s.Wired) : Report.missingCount s.summaries =
    s.keys.countP fun key => (s.world.store.state? key).isNone := by
  rw [Report.missingCount, ← List.countP_eq_length_filter, summaries, keys, List.countP_map,
    List.countP_map]
  apply List.countP_congr
  intro l hl
  simp [summaryOf, RunStats.summary, Store.stateAt_eq_state? (h.leads l hl)]

end Scheduler

namespace Agent
variable {a : Agent} {jobs : List (String × Nat)} (clock : Nat → String)

def row (a : Agent) (key : String) : Document :=
  Reply.listingRow clock key ((a.scheduler.interval? key).getD 0) (a.scheduler.answer key)

/-- The list of metrics has these rows, for these metrics in this order, and all else that is shown
agrees with them. -/
structure Agrees (a : Agent) (names : List String) (rows : List Document) : Prop where
  listing : (a.serve clock Page.metrics.path).1 = .ok (Reply.json 200 (.list rows))
  names_eq : rows.map (·.field? "key") = names.map fun name => some (.text name)
  replies : ∀ path key, Request.target path = Request.target (Page.metric key).path →
    ∃ reply, (a.serve clock path).1 = .ok reply ∧
      (reply.status = 404 ↔ ∀ row ∈ rows, row.field? "key" ≠ some (.text key)) ∧
      ∀ row ∈ rows, row.field? "key" = some (.text key) → reply.Repeats row
  health : ∃ reply, (a.get clock .health).1 = .ok reply ∧ reply.TellsHealth rows
  /-- What is said of a page is said at its path, unless the settings have the page left out. -/
  served : ∀ page, page ≠ .metric "" → a.settings.serves page = true →
    a.serve clock page.path = a.get clock page
  left_out : ∀ page, a.settings.serves page = false →
    a.serve clock page.path = (.ok Reply.notFound, a)
  populated : a.scheduler.world.store.populated =
    (rows.countP fun row => row.flag? "available" == some true) +
    (a.scheduler.world.store.slots.keys.filter fun key => !a.scheduler.contains key).countP
      fun key => (a.scheduler.world.store.state? key).isSome

theorem Schedules.keys_eq (h : a.Schedules jobs) : a.scheduler.keys = jobs.map Prod.fst := by
  rw [← h.jobs_eq, List.map_map]
  rfl

section agrees
variable (h : a.Schedules jobs) (hanswerable : a.scheduler.Answerable)
include h hanswerable

theorem listing_eq : a.listing clock = .ok (a.scheduler.keys.map (a.row clock)) := by
  apply mapM_eq_ok
  intro key hkey
  obtain ⟨l, -, -, hcurrent, -⟩ := Scheduler.answer_of_key h.wired hanswerable hkey
  rw [hcurrent]
  rfl

theorem flag_row {key : String} (hkey : key ∈ a.scheduler.keys) :
    (a.row clock key).flag? "available" =
      some (a.scheduler.world.store.state? key).isSome := by
  obtain ⟨l, -, -, -, hshows⟩ := Scheduler.answer_of_key h.wired hanswerable hkey
  rw [row, Reply.available_listingRow, hshows.stateExists]

theorem countP_rows (available : Bool) :
    ((a.scheduler.keys.map (a.row clock)).countP fun row =>
      row.flag? "available" == some available) =
    a.scheduler.keys.countP fun key =>
      (a.scheduler.world.store.state? key).isSome == available := by
  rw [List.countP_map]
  apply List.countP_congr
  intro key hkey
  simp [flag_row clock h hanswerable hkey]

theorem reply_of_key {key : String} (hkey : key ∈ a.scheduler.keys) :
    ∃ reply, (a.get clock (.metric key)).1 = .ok reply ∧ reply.Repeats (a.row clock key) := by
  obtain ⟨l, hl, rfl, hcurrent, hshows⟩ := Scheduler.answer_of_key h.wired hanswerable hkey
  show ∃ reply, (a.scheduler.current l.key).bind (Reply.ofCurrent clock l.key) = .ok reply ∧ _
  rw [hcurrent]
  exact Reply.ofCurrent_repeats clock l.key _ hshows (hanswerable l hl)

/-- What a page says of a key, the empty one included. -/
theorem reply_to_key (key : String) : ∃ reply, (a.get clock (.metric key)).1 = .ok reply ∧
    (reply.status = 404 ↔ key ∉ a.scheduler.keys) ∧
    (key ∈ a.scheduler.keys → reply.Repeats (a.row clock key)) := by
  by_cases hkey : key ∈ a.scheduler.keys
  · obtain ⟨reply, hreply, hrepeats⟩ := reply_of_key clock h hanswerable hkey
    refine ⟨reply, hreply, iff_of_false ?_ (not_not_intro hkey), fun _ => hrepeats⟩
    obtain ⟨available, -, hstatus⟩ := hrepeats.status
    cases available <;> simp [hstatus]
  · obtain ⟨hcurrent, hanswer⟩ := Scheduler.answer_of_unknown hkey
    obtain ⟨reply, hreply, hstatus⟩ := Reply.ofCurrent_of_unknown clock key
      (c := a.scheduler.answer key) (by rw [hanswer])
    refine ⟨reply, ?_, iff_of_true hstatus hkey, fun hmem => absurd hmem hkey⟩
    show (a.scheduler.current key).bind _ = _
    rw [hcurrent]
    exact hreply

theorem agrees (hnames : "" ∉ jobs.map Prod.fst) :
    a.Agrees clock (jobs.map Prod.fst) (a.scheduler.keys.map (a.row clock)) where
  listing := by
    show (a.listing clock).map _ = _
    rw [listing_eq clock h hanswerable]
    rfl
  names_eq := by
    rw [← h.keys_eq, List.map_map]
    rfl
  replies path key hpath := by
    have hrow : (∀ row ∈ a.scheduler.keys.map (a.row clock),
        row.field? "key" ≠ some (.text key)) ↔ key ∉ a.scheduler.keys := by
      simp only [List.forall_mem_map, row, Reply.key_listingRow, ne_eq, Option.some.injEq,
        Document.text.injEq]
      exact ⟨fun hall hkey => hall key hkey rfl, fun hkey name hname he => hkey (he ▸ hname)⟩
    have hserve : a.serve clock path = a.serve clock (Page.metric key).path := by
      rw [serve, serve, hpath]
    rw [hserve, hrow]
    by_cases hempty : key = ""
    · -- no path leads to the empty key, and no metric has it
      subst hempty
      have hkey : "" ∉ a.scheduler.keys := h.keys_eq ▸ hnames
      refine ⟨Reply.notFound, by rw [serve, Request.target_path_of_empty], iff_of_true rfl hkey,
        fun row hmem hname => absurd hname (hrow.mpr hkey row hmem)⟩
    · obtain ⟨reply, hreply, hstatus, hrepeats⟩ := reply_to_key clock h hanswerable key
      have hpage : Page.metric key ≠ .metric "" := fun he => hempty (Page.metric.inj he)
      refine ⟨reply, by rw [serve_path clock hpage rfl]; exact hreply, hstatus,
        fun row hmem hname => ?_⟩
      obtain ⟨key', hkey', rfl⟩ := List.mem_map.mp hmem
      cases hname
      exact hrepeats hkey'
  health := by
    refine ⟨_, rfl, Reply.healthReply_tells ?_ ?_ ?_⟩
    · intro row hrow
      obtain ⟨key, hkey, rfl⟩ := List.mem_map.mp hrow
      exact ⟨_, flag_row clock h hanswerable hkey⟩
    · simp [Scheduler.summaries, Scheduler.keys]
    · rw [Scheduler.missingCount_summaries h.wired, countP_rows clock h hanswerable]
      simp
  served _ hpage hon := serve_path clock hpage hon
  left_out _ hoff := serve_path_of_off clock hoff
  populated := by
    have hsub : a.scheduler.keys ⊆ a.scheduler.world.store.slots.keys := by
      intro key hkey
      obtain ⟨l, hl, rfl⟩ := List.mem_map.mp hkey
      exact List.mem_of_getElem? (Named.position?_eq_some_iff.mp (h.wired.leads l hl))
    have hcontains : ∀ key, a.scheduler.contains key = decide (key ∈ a.scheduler.keys) := by
      intro key
      rw [Bool.eq_iff_iff]
      simp [Scheduler.contains, Scheduler.find?, Scheduler.keys]
    rw [Store.populated_eq_add _ h.wired.nodup hsub, countP_rows clock h hanswerable]
    simp [hcontains]

end agrees

theorem answerable_of_inRange {s : Settings} (h : a.Schedules s.intervals)
    (hrange : ∀ k ∈ s.enabled, InRange (Span.ofSeconds (s.interval k))
      (a.scheduler.world.store.state? k.name)) : a.scheduler.Answerable := by
  intro l hl
  have hjob : (l.key, l.interval) ∈ s.intervals := by
    rw [← h.jobs_eq]
    exact List.mem_map_of_mem hl
  obtain ⟨k, hk, hkey⟩ := List.mem_map.mp hjob
  obtain ⟨hname, hinterval⟩ := Prod.mk.inj hkey
  rw [← hname, ← hinterval]
  exact hrange k hk

end Agent
end HostVitals
