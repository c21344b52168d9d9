import HostVitals.Cell
import Mathlib.Data.List.Induction
import Mathlib.Data.List.Nodup

/-! Who has a publication of a cell: it is current, or readers hold it, or it has been handed back
to the writer. A publication is handed back only when nobody else has it, and then once and for
all. -/
namespace HostVitals

namespace CellStep
variable {α : Type}

def published? : CellStep α → Option α
  | .save value | .saveReclaim value => some value
  | _ => none

def sets? : CellStep α → Option (Option α)
  | .save value | .saveReclaim value => some (some value)
  | .clear => some none
  | _ => none

end CellStep

namespace SharedCell
variable {α : Type} {s : SharedCell α} {log : List α} {returned : List (Publication α)}
  {reader : String} {p : Publication α} {x : CellStep α}

def Holds (s : SharedCell α) (number : Nat) : Prop :=
  ∃ reader p, s.readers.find? reader = some p ∧ p.number = number

def InUse (s : SharedCell α) (number : Nat) : Prop :=
  (∃ p, s.cell.current = some p ∧ p.number = number) ∨ s.Holds number

theorem isHeld_iff {number : Nat} : s.isHeld number = true ↔ s.Holds number := by
  unfold isHeld Holds
  rw [List.any_eq_true]
  constructor
  · rintro ⟨⟨reader, p⟩, hm, hn⟩
    exact ⟨reader, p, Named.mem_entries_iff.mp hm, by simpa using hn⟩
  · rintro ⟨reader, p, hf, rfl⟩
    exact ⟨(reader, p), Named.mem_entries_iff.mpr hf, by simp⟩

/-- The replaced value goes back exactly if no reader has that very publication. -/
theorem saveReclaim_snd_eq_some_iff (s : SharedCell α) (value back : α) :
    (s.saveReclaim value).2 = some back ↔
      ∃ p, s.cell.current = some p ∧ p.value = back ∧ ¬ s.Holds p.number := by
  have hheld (n : Nat) : (!s.isHeld n) = true ↔ ¬ s.Holds n := by
    rw [← isHeld_iff, Bool.not_eq_true', Bool.not_eq_true]
  show ((s.cell.current.filter fun p => !s.isHeld p.number).map (·.value)) = some back ↔ _
  rw [Option.map_eq_some_iff]
  simp only [Option.filter_eq_some_iff, hheld]
  exact exists_congr fun p => and_right_comm.trans and_assoc

def handedBack? (s : SharedCell α) : CellStep α → Option (Publication α)
  | .saveReclaim value => if (s.saveReclaim value).2.isSome then s.cell.current else none
  | _ => none

def handedBack (s : SharedCell α) : List (CellStep α) → List (Publication α)
  | [] => []
  | x :: xs => (s.handedBack? x).toList ++ handedBack (s.step x) xs

theorem handedBack_append (s : SharedCell α) (xs ys : List (CellStep α)) :
    s.handedBack (xs ++ ys) = s.handedBack xs ++ (s.after xs).handedBack ys := by
  induction xs generalizing s with
  | nil => rfl
  | cons x xs ih =>
    rw [List.cons_append, handedBack, handedBack, ih, List.append_assoc]
    rfl

theorem handedBack?_saveReclaim {value : α} :
    s.handedBack? (.saveReclaim value) = some p ↔
      s.cell.current = some p ∧ ¬ s.Holds p.number := by
  show (if (s.saveReclaim value).2.isSome then s.cell.current else none) = some p ↔ _
  constructor
  · intro h
    split at h
    · next hsome =>
      obtain ⟨back, hback⟩ := Option.isSome_iff_exists.mp hsome
      obtain ⟨q, hq, -, hfree⟩ := (s.saveReclaim_snd_eq_some_iff value back).mp hback
      obtain rfl : q = p := Option.some.inj (hq.symm.trans h)
      exact ⟨h, hfree⟩
    · cases h
  · rintro ⟨hp, hfree⟩
    have hback := (s.saveReclaim_snd_eq_some_iff value p.value).mpr ⟨p, hp, rfl, hfree⟩
    rw [hback]
    exact (if_pos rfl).trans hp

/-- The publications are numbered in the order of `log`. Those in `returned` have been handed back,
each once, and nobody else has one of them. -/
structure Owned (s : SharedCell α) (log : List α) (returned : List (Publication α)) : Prop where
  published : s.cell.published = log.length
  current : ∀ p, s.cell.current = some p → log[p.number]? = some p.value
  held : ∀ reader p, s.readers.find? reader = some p → log[p.number]? = some p.value
  handed : ∀ p ∈ returned, log[p.number]? = some p.value
  once : (returned.map (·.number)).Nodup
  free : ∀ p ∈ returned, ¬ s.InUse p.number

namespace Owned

theorem init : ({} : SharedCell α).Owned [] [] where
  published := rfl
  current := nofun
  held := nofun
  handed := nofun
  once := List.nodup_nil
  free := nofun

theorem lt_of_getElem? {n : Nat} {v : α} (h : log[n]? = some v) : n < log.length :=
  (List.getElem?_eq_some_iff.mp h).1

theorem getElem?_snoc {n : Nat} {v : α} (h : log[n]? = some v) (value : α) :
    (log ++ [value])[n]? = some v := by
  rw [List.getElem?_append_left (lt_of_getElem? h), h]

/-- A new publication has a number of its own. -/
theorem not_inUse_save {n : Nat} (hs : s.cell.published = log.length) (hn : n < log.length)
    (hfree : ¬ s.Holds n) (value : α) : ¬ (s.save value).InUse n := by
  rintro (⟨p, hp, rfl⟩ | hheld)
  · obtain rfl : ⟨s.cell.published, value⟩ = p := Option.some.inj hp
    exact absurd hs (Nat.ne_of_lt hn)
  · exact hfree hheld

theorem save (h : s.Owned log returned) (value : α) :
    (s.save value).Owned (log ++ [value]) returned where
  published := by
    show s.cell.published + 1 = _
    rw [h.published, List.length_append, List.length_singleton]
  current p hp := by
    obtain rfl : ⟨s.cell.published, value⟩ = p := Option.some.inj hp
    simp [h.published]
  held reader p hp := getElem?_snoc (h.held reader p hp) value
  handed p hp := getElem?_snoc (h.handed p hp) value
  once := h.once
  free p hp := not_inUse_save h.published (lt_of_getElem? (h.handed p hp))
    (fun hheld => h.free p hp (.inr hheld)) value

theorem saveReclaim (h : s.Owned log returned) (value : α) :
    (s.saveReclaim value).1.Owned (log ++ [value])
      (returned ++ (s.handedBack? (.saveReclaim value)).toList) := by
  have hsave := h.save value
  show (s.save value).Owned _ _
  cases hp : s.handedBack? (.saveReclaim value) with
  | none => simpa using hsave
  | some p =>
    obtain ⟨hcurrent, hfree⟩ := handedBack?_saveReclaim.mp hp
    have hnew : p.number ∉ returned.map (·.number) := by
      intro hm
      obtain ⟨q, hq, hn⟩ := List.mem_map.mp hm
      exact h.free q hq (.inl ⟨p, hcurrent, hn.symm⟩)
    have hlogged := h.current p hcurrent
    rw [Option.toList_some]
    refine ⟨hsave.published, hsave.current, hsave.held, ?_, ?_, ?_⟩
    · intro q hq
      rcases List.mem_append.mp hq with hq | hq
      · exact hsave.handed q hq
      · rw [List.mem_singleton.mp hq]
        exact getElem?_snoc hlogged value
    · rw [List.map_append, List.nodup_append_comm]
      exact List.nodup_cons.mpr ⟨hnew, h.once⟩
    · intro q hq
      rcases List.mem_append.mp hq with hq | hq
      · exact hsave.free q hq
      · rw [List.mem_singleton.mp hq]
        exact not_inUse_save h.published (lt_of_getElem? hlogged) hfree value

theorem clear (h : s.Owned log returned) : s.clear.Owned log returned :=
  { h with
    current := by rintro p ⟨⟩
    free := by
      rintro p hp (⟨q, ⟨⟩, -⟩ | hheld)
      exact h.free p hp (.inr hheld) }

/-- A reader can only get hold of what is current. -/
theorem of_readers {t : SharedCell α} (h : s.Owned log returned) (hcell : t.cell = s.cell)
    (hfrom : ∀ r p, t.readers.find? r = some p →
      s.cell.current = some p ∨ s.readers.find? r = some p) : t.Owned log returned := by
  refine ⟨hcell ▸ h.published, hcell ▸ h.current, fun r p hp => ?_, h.handed, h.once, ?_⟩
  · exact (hfrom r p hp).elim (h.current p) (h.held r p)
  · rintro p hp (hcurrent | ⟨r, q, hq, hn⟩)
    · exact h.free p hp (.inl (hcell ▸ hcurrent))
    · rcases hfrom r q hq with hq | hq
      · exact h.free p hp (.inl ⟨q, hq, hn⟩)
      · exact h.free p hp (.inr ⟨r, q, hq, hn⟩)

theorem hold (h : s.Owned log returned) (reader : String) :
    (s.hold reader).1.Owned log returned := by
  unfold SharedCell.hold
  split
  · next p hp =>
    refine h.of_readers rfl fun r q hq => ?_
    rw [Named.find?_insert] at hq
    split at hq
    · exact .inl (hp.trans hq)
    · exact .inr hq
  · exact h

theorem drop (h : s.Owned log returned) (reader : String) :
    (s.drop reader).1.Owned log returned := by
  refine h.of_readers rfl fun r p hp => .inr ?_
  rw [SharedCell.drop, Named.find?_erase] at hp
  split at hp
  · cases hp
  · exact hp

theorem step (h : s.Owned log returned) (x : CellStep α) :
    (s.step x).Owned (log ++ x.published?.toList) (returned ++ (s.handedBack? x).toList) := by
  cases x with
  | save value => simpa [handedBack?, CellStep.published?, SharedCell.step] using h.save value
  | saveReclaim value => exact h.saveReclaim value
  | clear => simpa [handedBack?, CellStep.published?, SharedCell.step] using h.clear
  | hold reader => simpa [handedBack?, CellStep.published?, SharedCell.step] using h.hold reader
  | drop reader => simpa [handedBack?, CellStep.published?, SharedCell.step] using h.drop reader

theorem after (h : s.Owned log returned) (steps : List (CellStep α)) :
    (s.after steps).Owned (log ++ steps.filterMap CellStep.published?)
      (returned ++ s.handedBack steps) := by
  induction steps generalizing s log returned with
  | nil => simpa [SharedCell.after, handedBack] using h
  | cons x xs ih =>
    rw [List.filterMap_eq_flatMap_toList, List.flatMap_cons, handedBack, ← List.append_assoc,
      ← List.append_assoc, ← List.filterMap_eq_flatMap_toList]
    exact ih (h.step x)

end Owned

theorem after_append (s : SharedCell α) (xs ys : List (CellStep α)) :
    s.after (xs ++ ys) = (s.after xs).after ys := List.foldl_append

theorem after_snoc (s : SharedCell α) (steps : List (CellStep α)) (x : CellStep α) :
    s.after (steps ++ [x]) = (s.after steps).step x := s.after_append steps [x]

theorem value?_step (s : SharedCell α) (x : CellStep α) :
    (s.step x).cell.value? = x.sets?.getD s.cell.value? := by
  cases x with
  | save value => rfl
  | saveReclaim value => rfl
  | clear => rfl
  | hold reader =>
    show (s.hold reader).1.cell.value? = _
    unfold hold
    split <;> rfl
  | drop reader => rfl

theorem value?_after (s : SharedCell α) (steps : List (CellStep α)) :
    (s.after steps).cell.value? =
      (steps.filterMap CellStep.sets?).getLast?.getD s.cell.value? := by
  induction steps using List.reverseRecOn with
  | nil => rfl
  | append_singleton xs x ih =>
    rw [after_snoc, value?_step, ih, List.filterMap_append]
    cases hx : x.sets? <;> simp [hx]

def Leaves (s : SharedCell α) (reader : String) (x : CellStep α) : Prop :=
  x ≠ .drop reader ∧ (x = .hold reader → s.cell.current = none)

def LeavesAll (s : SharedCell α) (reader : String) : List (CellStep α) → Prop
  | [] => True
  | x :: xs => s.Leaves reader x ∧ LeavesAll (s.step x) reader xs

theorem leavesAll_append {xs ys : List (CellStep α)} :
    s.LeavesAll reader (xs ++ ys) ↔ s.LeavesAll reader xs ∧ (s.after xs).LeavesAll reader ys := by
  induction xs generalizing s with
  | nil => exact (and_iff_right trivial).symm
  | cons x xs ih => rw [List.cons_append, LeavesAll, LeavesAll, ih, and_assoc]; rfl

/-- A hold takes what is current, and without that it keeps what the reader has. -/
theorem find?_hold (s : SharedCell α) (reader : String) :
    (s.hold reader).1.readers.find? reader = s.cell.current.or (s.readers.find? reader) := by
  unfold hold
  split
  · next p hp => simp [hp, Named.find?_insert]
  · next hp => simp [hp]

theorem find?_hold_of_ne {other : String} (h : reader ≠ other) :
    (s.hold other).1.readers.find? reader = s.readers.find? reader := by
  unfold hold
  split
  · rw [Named.find?_insert, if_neg h]
  · rfl

theorem Leaves.find?_eq (h : s.Leaves reader x) :
    (s.step x).readers.find? reader = s.readers.find? reader := by
  cases x with
  | save value => rfl
  | saveReclaim value => rfl
  | clear => rfl
  | hold other =>
    by_cases hr : reader = other
    · subst hr
      show (s.hold reader).1.readers.find? reader = _
      rw [find?_hold, h.2 rfl, Option.none_or]
    · exact find?_hold_of_ne hr
  | drop other =>
    have hr : reader ≠ other := fun hr => h.1 (congrArg CellStep.drop hr.symm)
    show (s.readers.erase other).find? reader = _
    rw [Named.find?_erase, if_neg hr]

theorem LeavesAll.find?_eq {steps : List (CellStep α)} (h : s.LeavesAll reader steps) :
    (s.after steps).readers.find? reader = s.readers.find? reader := by
  induction steps generalizing s with
  | nil => rfl
  | cons x xs ih => exact (ih h.2).trans h.1.find?_eq

/-- The one way to get hold of a publication. -/
theorem find?_step_of_not_leaves (h : ¬ s.Leaves reader x)
    (hp : (s.step x).readers.find? reader = some p) :
    x = .hold reader ∧ s.cell.current = some p := by
  rw [Leaves, not_and_or, not_not, Classical.not_imp] at h
  rcases h with rfl | ⟨rfl, hcurrent⟩
  · have herase := Named.find?_erase s.readers reader reader
    rw [if_pos rfl] at herase
    exact absurd (herase.symm.trans hp) nofun
  · obtain ⟨q, hq⟩ := Option.ne_none_iff_exists'.mp hcurrent
    have hhold : some q = some p := by
      have h := (s.find?_hold reader).symm.trans hp
      rwa [hq, Option.some_or] at h
    exact ⟨rfl, hq.trans hhold⟩

theorem find?_after_iff (steps : List (CellStep α)) :
    (({} : SharedCell α).after steps).readers.find? reader = some p ↔
      ∃ pre post, steps = pre ++ .hold reader :: post ∧
        (({} : SharedCell α).after pre).cell.current = some p ∧
        (({} : SharedCell α).after (pre ++ [.hold reader])).LeavesAll reader post := by
  constructor
  · intro h
    -- back to the last step that gave the reader something
    induction steps using List.reverseRecOn with
    | nil => cases h
    | append_singleton xs x ih =>
      rw [after_snoc] at h
      by_cases hx : (({} : SharedCell α).after xs).Leaves reader x
      · rw [hx.find?_eq] at h
        obtain ⟨pre, post, rfl, hcurrent, hpost⟩ := ih h
        refine ⟨pre, post ++ [x], by simp, hcurrent, leavesAll_append.mpr ⟨hpost, ?_, trivial⟩⟩
        rwa [← after_append, List.append_assoc, List.singleton_append]
      · obtain ⟨rfl, hcurrent⟩ := find?_step_of_not_leaves hx h
        exact ⟨xs, [], rfl, hcurrent, trivial⟩
  · rintro ⟨pre, post, rfl, hcurrent, hpost⟩
    rw [← List.singleton_append, ← List.append_assoc, after_append, hpost.find?_eq, after_snoc]
    show ((({} : SharedCell α).after pre).hold reader).1.readers.find? reader = some p
    rw [find?_hold, hcurrent, Option.some_or]

structure Custody (s : SharedCell α) (steps : List (CellStep α)) : Prop where
  /-- The last publication shows, unless the cell was cleared since. -/
  current : s.cell.value? = (steps.filterMap CellStep.sets?).getLast?.join
  /-- A number stands for one publication, whatever the values are, and the next one is new. -/
  next : s.cell.published = (steps.filterMap CellStep.published?).length
  numbered : ∀ p, s.cell.current = some p ∨ (∃ reader, s.readers.find? reader = some p) ∨
      p ∈ handedBack {} steps →
    (steps.filterMap CellStep.published?)[p.number]? = some p.value
  /-- The next publication gets the current value back unless a reader has just that one. -/
  reclaims : ∀ value back, (s.saveReclaim value).2 = some back ↔
    ∃ p, s.cell.current = some p ∧ p.value = back ∧ ¬ s.Holds p.number
  once : ((handedBack {} steps).map (·.number)).Nodup
  /-- What was handed back is the writer's alone, whatever is done later. -/
  released : ∀ p ∈ handedBack {} steps, ∀ more, ¬ (s.after more).InUse p.number
  /-- A reader has what was current at its last hold that found something. -/
  held_iff : ∀ reader p, s.readers.find? reader = some p ↔
    ∃ pre post, steps = pre ++ .hold reader :: post ∧
      (({} : SharedCell α).after pre).cell.current = some p ∧
      (({} : SharedCell α).after (pre ++ [.hold reader])).LeavesAll reader post
  stays : ∀ reader x, x ≠ .hold reader → x ≠ .drop reader →
    (s.step x).readers.find? reader = s.readers.find? reader

theorem custody_after (steps : List (CellStep α)) :
    (({} : SharedCell α).after steps).Custody steps := by
  have owned (steps : List (CellStep α)) : (({} : SharedCell α).after steps).Owned
      (steps.filterMap CellStep.published?) (handedBack {} steps) :=
    Owned.init.after steps
  refine ⟨?_, (owned steps).published, ?_, saveReclaim_snd_eq_some_iff _, (owned steps).once, ?_,
    fun reader p => find?_after_iff steps,
    fun reader x hhold hdrop => Leaves.find?_eq ⟨hdrop, fun h => absurd h hhold⟩⟩
  · rw [value?_after]
    cases (steps.filterMap CellStep.sets?).getLast? <;> rfl
  · rintro p (hp | ⟨reader, hp⟩ | hp)
    · exact (owned steps).current p hp
    · exact (owned steps).held reader p hp
    · exact (owned steps).handed p hp
  · intro p hp more
    have hmore : p ∈ handedBack {} (steps ++ more) := by
      rw [handedBack_append]
      exact List.mem_append_left _ hp
    have hfree := (owned (steps ++ more)).free p hmore
    rwa [after_append] at hfree

/-- Here a reader has a publication of the value that comes back. -/
example :
    let s := ({} : SharedCell Nat).after [.save 7, .hold "r", .saveReclaim 7]
    (s.readers.find? "r").map (·.value) = some 7 ∧ (s.saveReclaim 8).2 = some 7 := by
  decide +kernel

end SharedCell
end HostVitals
