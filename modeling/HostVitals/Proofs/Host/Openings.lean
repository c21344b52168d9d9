import HostVitals.Proofs.Host.Writing
import HostVitals.Proofs.Text.Cuts
import Mathlib.Data.List.Nodup

/-! What an opening changes. The next content of a file is due then; nothing else is found to be
other than before, but what stands at the path of the file or below it. -/
namespace HostVitals.FileTree

variable {t : FileTree} {k n p : String} {ps qs : List String} {absolute : Bool}

/-! Paths that are told by the names on them. -/

structure IsName (n : String) : Prop where
  noSlash : '/' ∉ n.toList
  nonempty : n ≠ ""
  noDot : n.toList.head? ≠ some '.'

instance : DecidablePred IsName := fun n =>
  decidable_of_iff ('/' ∉ n.toList ∧ n ≠ "" ∧ n.toList.head? ≠ some '.')
    ⟨fun h => ⟨h.1, h.2.1, h.2.2⟩, fun h => ⟨h.1, h.2, h.3⟩⟩

theorem IsName.ne (h : IsName n) : n ≠ "" ∧ n ≠ "." ∧ n ≠ ".." := by
  refine ⟨h.nonempty, ?_, ?_⟩
  · rintro rfl
    exact h.noDot rfl
  · rintro rfl
    exact h.noDot rfl

def pathOf (ps : List String) : String := joinParts true ps

theorem toList_pathOf (ps : List String) :
    (pathOf ps).toList = '/' :: List.intercalate ['/'] (ps.map String.toList) := by
  simp [pathOf, joinParts]

theorem splitSlashes_of_not_mem {s : List Char} (h : '/' ∉ s) : splitSlashes s = [s] := by
  induction s with
  | nil => rfl
  | cons c s ih =>
    rw [List.mem_cons, not_or] at h
    rw [splitSlashes, if_neg (Ne.symm h.1), ih h.2]

theorem splitSlashes_append {s : List Char} (h : '/' ∉ s) (r : List Char) :
    splitSlashes (s ++ '/' :: r) = s :: splitSlashes r := by
  induction s with
  | nil => rfl
  | cons c s ih =>
    rw [List.mem_cons, not_or] at h
    rw [List.cons_append, splitSlashes, if_neg (Ne.symm h.1), ih h.2]

theorem splitSlashes_intercalate {l : List (List Char)} (hl : l ≠ []) (h : ∀ s ∈ l, '/' ∉ s) :
    splitSlashes (List.intercalate ['/'] l) = l := by
  induction l with
  | nil => exact absurd rfl hl
  | cons s l ih =>
    rw [List.forall_mem_cons] at h
    cases l with
    | nil => simpa using splitSlashes_of_not_mem h.1
    | cons s' l =>
      rw [List.intercalate_cons_cons, List.append_assoc, List.singleton_append,
        splitSlashes_append h.1, ih (List.cons_ne_nil s' l) h.2]

theorem not_mem_of_mem_splitSlashes {s w : List Char} (h : w ∈ splitSlashes s) : '/' ∉ w := by
  induction s generalizing w with
  | nil => simp_all [splitSlashes]
  | cons c s ih =>
    rw [splitSlashes] at h
    split at h
    · rcases List.mem_cons.mp h with rfl | h
      · simp
      · exact ih h
    · next hc =>
      split at h
      · rw [List.mem_singleton] at h
        simp [h, Ne.symm hc]
      · next w' ws hs =>
        rw [hs] at ih
        rcases List.mem_cons.mp h with rfl | h
        · simpa [Ne.symm hc] using ih List.mem_cons_self
        · exact ih (List.mem_cons_of_mem w' h)

theorem steps_pathOf (h : ∀ p ∈ ps, IsName p) : steps (pathOf ps) = ps := by
  cases ps with
  | nil => rfl
  | cons p ps =>
    have hsplit : splitSlashes (List.intercalate ['/'] ((p :: ps).map String.toList)) =
        (p :: ps).map String.toList :=
      splitSlashes_intercalate (by simp) (by simpa using fun q hq => (h q hq).noSlash)
    have hparts : parts (pathOf (p :: ps)) = "" :: p :: ps := by
      rw [parts, toList_pathOf, splitSlashes, if_pos rfl, hsplit]
      simp
    rw [steps, hparts, List.filter_cons_of_neg (by simp)]
    exact List.filter_eq_self.mpr fun q hq => by simp [(h q hq).ne]

theorem isAbsolute_pathOf (ps : List String) : isAbsolute (pathOf ps) = true := by
  rw [isAbsolute, toList_pathOf]
  rfl

theorem placeOf_of_isName (absolute : Bool) (h : ∀ p ∈ ps, IsName p) : placeOf absolute ps = ps := by
  have hfold : ∀ stack, ps.foldl (push absolute) stack = ps.reverse ++ stack := by
    induction ps with
    | nil => exact fun _ => rfl
    | cons p ps ih =>
      rw [List.forall_mem_cons] at h
      intro stack
      have hpush : push absolute stack p = p :: stack := by simp [push.eq_def, h.1.ne]
      rw [List.foldl_cons, hpush, ih h.2]
      simp
  rw [placeOf, resolveParts_eq, hfold, List.append_nil, List.reverse_reverse]

theorem normal_pathOf (h : ∀ p ∈ ps, IsName p) : normal (pathOf ps) = pathOf ps := by
  rw [normal_eq, steps_pathOf h, isAbsolute_pathOf, placeOf_of_isName true h, pathOf]

theorem pathOf_inj (hps : ∀ p ∈ ps, IsName p) (hqs : ∀ q ∈ qs, IsName q) :
    pathOf ps = pathOf qs ↔ ps = qs := by
  constructor
  · intro h
    rw [← steps_pathOf hps, h, steps_pathOf hqs]
  · exact congrArg pathOf

/-! Openings. -/

theorem keys_opened (t : FileTree) (k : String) : (t.opened k).files.keys = t.files.keys := by
  unfold opened
  split
  · next hfind =>
    have hmem : k ∈ t.files.entries.map Prod.fst :=
      List.mem_map.mpr ⟨_, Named.mem_entries_iff.mpr hfind, rfl⟩
    rw [Named.keys, Named.insert, keys_setEntry, if_pos hmem, Named.keys]
  · rfl

theorem names_opened (t : FileTree) (k q : String) : (t.opened k).names q = t.names q := by
  simp only [names, keys_opened]

theorem lookup_opened (h : p ≠ k) : (t.opened k).lookup p = t.lookup p := by
  have hfind : (t.opened k).files.find? p = t.files.find? p := by
    unfold opened
    split
    · rw [Named.find?_insert, if_neg h]
    · rfl
  simp only [lookup, hfind, names_opened]

theorem walk_opened
    (h : ∀ rs, rs <+: ps → joinParts absolute (placeOf absolute (qs ++ rs)) ≠ k) :
    (t.opened k).walk absolute (placeOf absolute qs) ps = t.walk absolute (placeOf absolute qs) ps := by
  have hhere : (t.opened k).lookup (joinParts absolute (placeOf absolute qs)) =
      t.lookup (joinParts absolute (placeOf absolute qs)) :=
    lookup_opened (by simpa using h [] List.nil_prefix)
  induction ps generalizing qs with
  | nil => rw [walk, walk, hhere]
  | cons p ps ih =>
    have hrest : ∀ rs, rs <+: ps →
        joinParts absolute (placeOf absolute (qs ++ [p] ++ rs)) ≠ k := by
      intro rs hrs
      simpa using h (p :: rs) (List.cons_prefix_cons.mpr ⟨rfl, hrs⟩)
    have hnext := ih hrest (lookup_opened (by simpa using hrest [] List.nil_prefix))
    rw [walk, walk, hhere, placeOf_concat, hnext]

theorem find_opened {path : String} (h : ∀ rs, rs <+: steps path →
    joinParts (isAbsolute path) (placeOf (isAbsolute path) rs) ≠ k) :
    (t.opened k).find path = t.find path := by
  have hstart : ∀ rs, rs <+: steps path →
      joinParts (isAbsolute path) (placeOf (isAbsolute path) ([] ++ rs)) ≠ k := h
  have hwalk : (t.opened k).walk (isAbsolute path) [] (steps path) =
      t.walk (isAbsolute path) [] (steps path) := walk_opened hstart
  rw [find, find]
  simp only [← steps.eq_def, hwalk]

theorem keys_read (t : FileTree) (path : String) : (t.read path).2.files.keys = t.files.keys := by
  rw [read]
  split
  · rfl
  · exact keys_opened t _

/-- Reading a file leaves alone what is neither at its path nor below. -/
theorem find_read (hps : ∀ p ∈ ps, IsName p) (hqs : ∀ q ∈ qs, IsName q) (h : ¬ ps <+: qs) :
    (t.read (pathOf ps)).2.find (pathOf qs) = t.find (pathOf qs) := by
  rw [read]
  split
  · rfl
  · refine find_opened fun rs hrs hplace => h ?_
    rw [steps_pathOf hqs] at hrs
    have hnames : ∀ r ∈ rs, IsName r := fun r hr => hqs r (hrs.subset hr)
    rw [isAbsolute_pathOf, placeOf_of_isName true hnames, normal_pathOf hps] at hplace
    exact (pathOf_inj hnames hps).mp hplace ▸ hrs

/-! The names in a directory. -/

theorem nodup_eraseDups (l : List String) : l.eraseDups.Nodup := by
  cases l with
  | nil => simp
  | cons n l =>
    rw [List.eraseDups_cons, List.nodup_cons]
    exact ⟨by simp, nodup_eraseDups _⟩
termination_by l.length
decreasing_by
  exact Nat.lt_succ_of_le (List.length_filter_le _ _)

theorem nodup_names (t : FileTree) (directory : String) : (t.names directory).Nodup := by
  rw [names]
  exact (List.mergeSort_perm _ _).nodup_iff.mpr (nodup_eraseDups _)

theorem isName_of_startsWith {pre : String} (hpre : IsName pre)
    (h : Text.startsWith pre.toList n.toList = true) (hslash : '/' ∉ n.toList) : IsName n := by
  obtain ⟨rest, hrest⟩ := Text.startsWith_iff.mp h
  have hne : pre.toList ≠ [] := mt String.toList_eq_nil_iff.mp hpre.nonempty
  refine ⟨hslash, ?_, ?_⟩
  · rintro rfl
    exact hne (List.append_eq_nil_iff.mp hrest.symm).1
  · rw [hrest, List.head?_append_of_ne_nil _ hne]
    exact hpre.noDot

theorem noSlash_of_mem_names {directory : String} (h : n ∈ t.names directory) :
    '/' ∉ n.toList := by
  simp only [names, List.mem_mergeSort, List.mem_eraseDups, List.mem_filterMap] at h
  obtain ⟨k, -, h⟩ := h
  obtain ⟨rest, -, h⟩ := Option.bind_eq_some_iff.mp h
  split at h
  · cases h
  · split at h
    · cases h
    · cases h
      rw [String.toList_ofList]
      cases hsplit : splitSlashes rest with
      | nil => simp
      | cons w ws => exact not_mem_of_mem_splitSlashes (hsplit ▸ List.mem_cons_self)

def listed (t : FileTree) (path : String) : List String := (t.list path).toOption.getD []

theorem listed_eq (t : FileTree) (path : String) :
    t.listed path = [] ∨ t.listed path = t.names (normal path) := by
  rw [listed, list]
  split
  · exact .inl rfl
  · exact .inr rfl
  · exact .inl rfl

def inside (t : FileTree) (directory : String) : List String :=
  t.files.keys.filterMap fun k => do
    let rest ← Text.stripStart (below directory).toList k.toList
    if directory = "" ∧ isAbsolute k then none
    let name := (splitSlashes rest).headD []
    if name.isEmpty then none else some (String.ofList name)

theorem listed_of_find {path : String} (h : t.find path = .ok .directory) : t.listed path =
    (t.inside (normal path)).eraseDups.mergeSort fun a b => decide (a ≤ b) := by
  rw [listed, list, h]
  rfl

theorem mem_listed_iff {path : String} (h : t.find path = .ok .directory) :
    n ∈ t.listed path ↔ n ∈ t.inside (normal path) := by
  rw [listed_of_find h, List.mem_mergeSort, List.mem_eraseDups]

theorem listed_of_sorted {path : String} (l : List String) (hfind : t.find path = .ok .directory)
    (hinside : (t.inside (normal path)).eraseDups = l) (hsorted : l.Pairwise (· ≤ ·)) :
    t.listed path = l := by
  rw [listed_of_find hfind, hinside]
  exact List.mergeSort_of_pairwise (hsorted.imp fun hle => by simpa using hle)

theorem nodup_listed (t : FileTree) (path : String) : (t.listed path).Nodup := by
  rcases t.listed_eq path with h | h
  · simp [h]
  · exact h ▸ nodup_names t _

theorem noSlash_of_mem_listed {path : String} (h : n ∈ t.listed path) : '/' ∉ n.toList := by
  rcases t.listed_eq path with hlisted | hlisted
  · simp [hlisted] at h
  · exact noSlash_of_mem_names (hlisted ▸ h)

end HostVitals.FileTree
