import HostVitals.Proc.Cpu
import HostVitals.Proc.Disk
import HostVitals.Proc.Mounts
import HostVitals.Proc.Network
import HostVitals.Proofs.Named
import HostVitals.Proofs.Text.Cuts

/-! Tables of the kernel that are read line by line. A text can be cut behind an ended line and its
parts be read on their own: the mounts of both come one after the other, and of two entries of one
name the later counts. So a line speaks for the name on it and for no other. -/
namespace HostVitals

structure ListsByLine {β : Type} (entryOf : List Char → Option β) (unfit : List Char → Prop)
    (list : List Char → List β) : Prop where
  append : ∀ a b, Text.IsEnded a → list (a ++ b) = list a ++ list b
  unfit : ∀ line, unfit line → entryOf line = none
  /-- Lines without an entry can be left out, wherever they stand. -/
  apart : ∀ a between b, Text.IsEnded a → Text.IsEnded between →
    (∀ line ∈ Text.lines between, entryOf line = none) → list (a ++ between ++ b) = list (a ++ b)

structure MapsByLine {α : Type} (entryOf : List Char → Option (String × α))
    (unfit : List Char → Prop) (table : List Char → Named α) : Prop where
  append : ∀ a b, Text.IsEnded a → table (a ++ b) = (table a).union (table b)
  later : ∀ a b, Text.IsEnded a → ∀ name,
    (table (a ++ b)).find? name = ((table b).find? name).or ((table a).find? name)
  unfit : ∀ line, unfit line → entryOf line = none
  /-- Lines without an entry for a name can be left out for this name, wherever they stand. -/
  apart : ∀ a between b name, Text.IsEnded a → Text.IsEnded between →
    (∀ line ∈ Text.lines between, ∀ value, entryOf line ≠ some (name, value)) →
    (table (a ++ between ++ b)).find? name = (table (a ++ b)).find? name
  /-- The order of lines with different names does not matter. -/
  reorder : ∀ a b, (Text.lines a).Perm (Text.lines b) →
    (((Text.lines a).filterMap entryOf).map Prod.fst).Nodup →
    ∀ name, (table a).find? name = (table b).find? name

section ByLine
variable {unfit : List Char → Prop}

theorem listsByLine {β : Type} {entryOf : List Char → Option β}
    (hunfit : ∀ line, unfit line → entryOf line = none) :
    ListsByLine entryOf unfit fun text => (Text.lines text).filterMap entryOf where
  append a b ha := by rw [Text.lines_append ha, List.filterMap_append]
  unfit := hunfit
  apart a between b ha hbetween hnone := by
    have hskipped : (Text.lines between).filterMap entryOf = [] :=
      List.filterMap_eq_nil_iff.mpr hnone
    rw [List.append_assoc, Text.lines_append ha, Text.lines_append hbetween, Text.lines_append ha,
      List.filterMap_append, List.filterMap_append, List.filterMap_append, hskipped, List.nil_append]

variable {α : Type} {entryOf : List Char → Option (String × α)} {table : List Char → Named α}

theorem find?_eq_none_of_lines {lines : List (List Char)} {name : String}
    (h : ∀ line ∈ lines, ∀ value, entryOf line ≠ some (name, value)) :
    (Named.ofList (lines.filterMap entryOf)).find? name = none := by
  refine Named.find?_ofList_eq_none fun value hmem => ?_
  obtain ⟨line, hline, hentry⟩ := List.mem_filterMap.mp hmem
  exact h line hline value hentry

theorem mapsByLine (hunfit : ∀ line, unfit line → entryOf line = none)
    (h : ∀ text, table text = Named.ofList ((Text.lines text).filterMap entryOf)) :
    MapsByLine entryOf unfit table := by
  have happend : ∀ a b, Text.IsEnded a → table (a ++ b) = (table a).union (table b) := by
    intro a b ha
    rw [h, h, h, Text.lines_append ha, List.filterMap_append, Named.ofList_append]
  have hlater : ∀ a b, Text.IsEnded a → ∀ name,
      (table (a ++ b)).find? name = ((table b).find? name).or ((table a).find? name) := by
    intro a b ha name
    rw [happend a b ha, Named.find?_union]
  refine ⟨happend, hlater, hunfit, ?_, ?_⟩
  · intro a between b name ha hbetween hnone
    have hskipped : (table between).find? name = none := by
      rw [h]
      exact find?_eq_none_of_lines hnone
    rw [List.append_assoc, hlater a _ ha, hlater between b hbetween, hlater a b ha, hskipped,
      Option.or_none]
  · intro a b hperm hnodup name
    rw [h, h]
    exact Named.find?_ofList_of_perm (hperm.filterMap entryOf) hnodup name

end ByLine

/-! Lines that give no entry. -/

def Mount.Unfit (line : List Char) : Prop := (Text.words line).length < 3

theorem Mount.ofLine_of_unfit (line : List Char) (h : Unfit line) : ofLine line = none := by
  unfold ofLine
  split
  next hwords =>
    rw [Unfit, hwords] at h
    simp only [List.length_cons] at h
    omega
  next => rfl

def DiskStats.Unfit (line : List Char) : Prop := (Text.words line).length < 14

theorem DiskStats.ofLine_of_unfit (line : List Char) (h : Unfit line) : ofLine line = none := by
  unfold ofLine
  split
  next hwords =>
    rw [Unfit, hwords] at h
    simp only [List.length_cons] at h
    omega
  next => rfl

def CoreTicks.Unfit (line : List Char) : Prop :=
  Text.startsWith "cpu".toList line = false ∨ (Text.words line).length < 8

theorem CoreTicks.ofLine_of_unfit (line : List Char) (h : Unfit line) : ofLine line = none := by
  refine if_neg fun hfit => ?_
  rw [Bool.and_eq_true, decide_eq_true_eq] at hfit
  cases h with
  | inl hforeign => exact Bool.noConfusion (hfit.1.symm.trans hforeign)
  | inr hshort => exact Nat.not_le.mpr hshort hfit.2

def InterfaceStats.Unfit (line : List Char) : Prop :=
  ∀ name rest, Text.cutAt ':' line = some (name, rest) → (Text.words rest).length < 16

theorem InterfaceStats.ofLine_of_unfit (line : List Char) (h : Unfit line) :
    ofLine line = none := by
  unfold ofLine
  cases hcut : Text.cutAt ':' line with
  | none => rfl
  | some cut =>
    have hshort := h cut.1 cut.2 hcut
    simp only [Option.bind_eq_bind, Option.bind_some]
    split
    next hvalues =>
      have hlength := congrArg List.length hvalues
      simp only [List.length_map, List.length_cons] at hlength
      omega
    next => rfl

namespace CpuSnapshot
variable {text : List Char}

def known (text : List Char) : CpuSnapshot := (parse text).toOption.getD {}

theorem known_eq_read (text : List Char) : known text = read text := by
  unfold known parse
  by_cases h : (read text).isEmpty = true
  · have hnone : (read text).entries = [] := List.isEmpty_iff.mp h
    rw [if_pos h]
    exact (Named.eq_of_entries hnone).symm
  · rw [if_neg h]
    rfl

theorem toOption_parse_eq_none_iff :
    (parse text).toOption = none ↔ (Text.lines text).filterMap CoreTicks.ofLine = [] := by
  rw [← Named.isEmpty_ofList_iff, parse]
  show (if (read text).isEmpty then _ else _ : Except Fault CpuSnapshot).toOption = none ↔
    (read text).isEmpty = true
  by_cases h : (read text).isEmpty = true
  · simp [h, Except.toOption]
  · simp [h, Except.toOption]

end CpuSnapshot

theorem InterfaceStats.parse_below {head : List Char} (hended : Text.IsEnded head)
    (hlines : (Text.lines head).length = 2) (text : List Char) :
    parse (head ++ text) = Named.ofList ((Text.lines text).filterMap ofLine) := by
  rw [parse, Text.lines_append hended, List.drop_left' hlines]

namespace LineTables

/-- The tables are read line by line; that of the interfaces below any two lines of headings, and
that of the processors so that a text that cannot be read has no cores. -/
theorem composes :
    ListsByLine Mount.ofLine Mount.Unfit Mount.parse ∧
    MapsByLine DiskStats.ofLine DiskStats.Unfit DiskStats.parse ∧
    MapsByLine CoreTicks.ofLine CoreTicks.Unfit CpuSnapshot.known ∧
    (∀ a b, Text.IsEnded a → ((CpuSnapshot.parse (a ++ b)).toOption = none ↔
      (CpuSnapshot.parse a).toOption = none ∧ (CpuSnapshot.parse b).toOption = none)) ∧
    ∀ head, Text.IsEnded head → (Text.lines head).length = 2 →
      MapsByLine InterfaceStats.ofLine InterfaceStats.Unfit
        fun text => InterfaceStats.parse (head ++ text) := by
  refine ⟨listsByLine Mount.ofLine_of_unfit,
    mapsByLine DiskStats.ofLine_of_unfit fun _ => rfl,
    mapsByLine CoreTicks.ofLine_of_unfit CpuSnapshot.known_eq_read, ?_, ?_⟩
  · intro a b ha
    rw [CpuSnapshot.toOption_parse_eq_none_iff, CpuSnapshot.toOption_parse_eq_none_iff,
      CpuSnapshot.toOption_parse_eq_none_iff, Text.lines_append ha, List.filterMap_append,
      List.append_eq_nil_iff]
  · intro head hended hlines
    exact mapsByLine InterfaceStats.ofLine_of_unfit (InterfaceStats.parse_below hended hlines)

/-- A disk that both texts tell of, and one that only the second does. -/
theorem composes_of_two_disks :
    let a := "8 0 sda 1 2 3 4 5 6 7 8 9 10 11\n".toList
    let b := "8 16 sdb 1 0 0 0 0 0 0 0 0 0 0\nsdc\r\n8 0 sda 2 0 0 0 0 0 0 0 0 0 0".toList
    Text.IsEnded a ∧ DiskStats.parse (a ++ b) = (DiskStats.parse a).union (DiskStats.parse b) ∧
      (DiskStats.parse (a ++ b)).keys = ["sda", "sdb"] ∧
      ((DiskStats.parse (a ++ b)).find? "sda").map DiskStats.readsCompleted = some 2 := by
  intro a b
  have hended : Text.IsEnded a := by decide +kernel
  exact ⟨hended, composes.2.1.append a b hended, by decide +kernel, by decide +kernel⟩

end LineTables
end HostVitals
