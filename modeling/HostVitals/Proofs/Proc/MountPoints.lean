import HostVitals.Proc.Mounts
import HostVitals.Proofs.Text.Cuts

/-! Which mounts of the table are dropped. Those of the system are, by their type or because they lie
in one of its directories; so are, though they lie in none, those whose mount point only begins with
the name of one. -/
namespace HostVitals.Mount

variable {text line : List Char} {m : Mount} {directory point fstype : String}

def ofFields (line : List Char) : Option Mount :=
  match Text.words line with
  | device :: point :: fstype :: _ =>
    some ⟨String.ofList device, String.ofList point, String.ofList fstype⟩
  | _ => none

def entries (text : List Char) : List Mount := (Text.lines text).filterMap ofFields

def IsWithin (directory point : String) : Prop :=
  point = directory ∨ ∃ rest, point.toList = directory.toList ++ '/' :: rest

/-- What follows the directory in the path ends it or begins with a slash. -/
theorem isWithin_iff : IsWithin directory point ↔
    (Text.stripStart directory.toList point.toList).any (fun rest => rest.head?.all (· = '/')) =
      true := by
  rw [Option.any_eq_true]
  simp only [Text.stripStart_eq_some_iff]
  constructor
  · rintro (rfl | ⟨rest, hrest⟩)
    · exact ⟨[], by simp, rfl⟩
    · exact ⟨'/' :: rest, hrest, rfl⟩
  · rintro ⟨rest, hrest, hhead⟩
    cases rest with
    | nil => exact .inl (String.toList_inj.mp (by simpa using hrest))
    | cons c rest =>
      obtain rfl : c = '/' := by simpa using hhead
      exact .inr ⟨rest, hrest⟩

instance (directory point : String) : Decidable (IsWithin directory point) :=
  decidable_of_iff' _ isWithin_iff

def IsSystem (m : Mount) : Prop :=
  m.fstype ∈ pseudoTypes ∨ ∃ directory ∈ systemPoints, IsWithin directory m.point

instance (m : Mount) : Decidable m.IsSystem := inferInstanceAs (Decidable (_ ∨ _))

theorem isSkipped_iff : isSkipped fstype point = true ↔ fstype ∈ pseudoTypes ∨
    ∃ directory ∈ systemPoints, ∃ rest, point.toList = directory.toList ++ rest := by
  simp [isSkipped, Text.startsWith_iff]

def IsLookalike (m : Mount) : Prop := ¬ m.IsSystem ∧
  ∃ directory ∈ systemPoints, ∃ rest, m.point.toList = directory.toList ++ rest

theorem isLookalike_iff : m.IsLookalike ↔ ¬ m.IsSystem ∧ isSkipped m.fstype m.point = true := by
  rw [IsLookalike, isSkipped_iff]
  exact and_congr_right fun hforeign =>
    ⟨.inr, fun h => h.resolve_left fun htype => hforeign (.inl htype)⟩

theorem IsSystem.isSkipped (h : m.IsSystem) : isSkipped m.fstype m.point = true := by
  rw [isSkipped_iff]
  rcases h with htype | ⟨directory, hsystem, hwithin⟩
  · exact .inl htype
  · refine .inr ⟨directory, hsystem, ?_⟩
    rcases hwithin with hsame | ⟨rest, hrest⟩
    · exact ⟨[], by simp [hsame]⟩
    · exact ⟨'/' :: rest, hrest⟩

theorem ofLine_eq (line : List Char) :
    ofLine line = (ofFields line).filter fun m => !isSkipped m.fstype m.point := by
  unfold ofLine ofFields
  cases Text.words line with
  | nil => rfl
  | cons device rest =>
    cases rest with
    | nil => rfl
    | cons point rest =>
      cases rest with
      | nil => rfl
      | cons fstype rest =>
        cases hskip : isSkipped (String.ofList fstype) (String.ofList point) <;>
          simp [Option.filter, hskip]

theorem parse_eq_filter (text : List Char) :
    parse text = (entries text).filter fun m => !isSkipped m.fstype m.point := by
  rw [parse, entries, funext ofLine_eq, List.filter_filterMap]

/-- Just the mounts of the system are dropped, unless the table has one that only looks like one. -/
theorem parse_eq_iff (text : List Char) :
    parse text = (entries text).filter (fun m => ¬ m.IsSystem) ↔
      ∀ m ∈ entries text, ¬ m.IsLookalike := by
  rw [parse_eq_filter]
  constructor
  · intro h m hm hlookalike
    obtain ⟨hforeign, hskipped⟩ := isLookalike_iff.mp hlookalike
    have hkept : m ∈ (entries text).filter fun m => ¬ m.IsSystem :=
      List.mem_filter.mpr ⟨hm, by simpa using hforeign⟩
    rw [← h, List.mem_filter, hskipped] at hkept
    simp at hkept
  · intro h
    refine List.filter_congr fun m hm => ?_
    by_cases hsystem : m.IsSystem
    · simp [hsystem, hsystem.isSkipped]
    · have hkept : isSkipped m.fstype m.point = false :=
        Bool.not_eq_true _ ▸ fun hskipped => h m hm (isLookalike_iff.mpr ⟨hsystem, hskipped⟩)
      simp [hsystem, hkept]

/-- Below the name of a directory of the system goes on another name. -/
theorem not_parse_eq_of_sysroot : ¬ ∀ text, parse text =
    (entries text).filter (fun m => ¬ m.IsSystem) := by
  intro h
  have hdropped := h "/dev/sda1 /sysroot ext4 rw 0 0\n".toList
  revert hdropped
  decide +kernel

end HostVitals.Mount
