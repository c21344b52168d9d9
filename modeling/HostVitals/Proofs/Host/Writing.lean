import HostVitals.Host.FileTree
import Mathlib.Tactic.ByContra

/-! A text that is written to a file is what the file then holds. The path is walked part by part: all
directories on the way were there before and still are, and the file stands at the end. -/
namespace HostVitals.FileTree

variable {t t' : FileTree} {absolute : Bool} {path content key p : String} {ps qs stack : List String}
  {e : FileEntry}

/-! The place that a path leads to. -/

def push (absolute : Bool) (stack : List String) (p : String) : List String :=
  if p = "" ∨ p = "." then stack
  else if p = ".." then
    match stack with
    | [] => if absolute then [] else [".."]
    | ".." :: _ => ".." :: stack
    | _ :: up => up
  else p :: stack

theorem resolveParts_eq (absolute : Bool) (ps stack : List String) :
    resolveParts absolute ps stack = (ps.foldl (push absolute) stack).reverse := by
  fun_induction resolveParts absolute ps stack <;> simp_all [push]

def Resolved (absolute : Bool) : List String → Prop
  | [] => True
  | p :: up => p ≠ "" ∧ p ≠ "." ∧ (p = ".." → absolute = false ∧ ∀ q ∈ up.head?, q = "..") ∧
      Resolved absolute up

theorem Resolved.push (h : Resolved absolute stack) (p : String) :
    Resolved absolute (push absolute stack p) := by
  unfold FileTree.push
  split
  · exact h
  · next hskip =>
    split
    · split
      · cases absolute with
        | true => trivial
        | false => exact ⟨by decide, by decide, fun _ => ⟨rfl, nofun⟩, trivial⟩
      · exact ⟨by decide, by decide, fun _ => ⟨(h.2.2.1 rfl).1, by simp⟩, h⟩
      · exact h.2.2.2
    · next hup =>
      exact ⟨fun hp => hskip (.inl hp), fun hp => hskip (.inr hp), fun hp => absurd hp hup, h⟩

theorem resolved_foldl (h : Resolved absolute stack) (ps : List String) :
    Resolved absolute (ps.foldl (push absolute) stack) := by
  induction ps generalizing stack with
  | nil => exact h
  | cons p ps ih => exact ih (h.push p)

theorem Resolved.foldl_reverse (h : Resolved absolute stack) :
    stack.reverse.foldl (FileTree.push absolute) [] = stack := by
  induction stack with
  | nil => rfl
  | cons p up ih =>
    obtain ⟨hempty, hdot, hup, hrest⟩ := h
    rw [List.reverse_cons, List.foldl_append, ih hrest]
    by_cases hp : p = ".."
    · obtain ⟨habsolute, hhead⟩ := hup hp
      subst hp
      cases up with
      | nil => simp [FileTree.push, habsolute]
      | cons q up =>
        obtain rfl := hhead q rfl
        rfl
    · simp [FileTree.push, hempty, hdot, hp]

def placeOf (absolute : Bool) (ps : List String) : List String := resolveParts absolute ps []

theorem placeOf_concat (absolute : Bool) (ps : List String) (p : String) :
    resolveParts absolute (placeOf absolute ps ++ [p]) [] = placeOf absolute (ps ++ [p]) := by
  have hstart : Resolved absolute [] := trivial
  have hresolved := resolved_foldl hstart ps
  simp only [placeOf, resolveParts_eq, List.foldl_append, hresolved.foldl_reverse]

theorem placeOf_filter (absolute : Bool) (ps : List String) :
    placeOf absolute (ps.filter fun p => p ≠ "" ∧ p ≠ ".") = placeOf absolute ps := by
  have hskip : (fun stack p => if (decide (p ≠ "" ∧ p ≠ ".")) = true then push absolute stack p
      else stack) = push absolute := by
    funext stack p
    split
    · rfl
    · next h =>
      have hp : p = "" ∨ p = "." := by
        by_contra hp
        exact h (by simpa using hp)
      exact (if_pos hp).symm
  simp only [placeOf, resolveParts_eq, List.foldl_filter, hskip]

/-! The way to a place. -/

theorem names_subset (h : t.files.keys ⊆ t'.files.keys) (q : String) : t.names q ⊆ t'.names q := by
  intro n hn
  simp only [names, List.mem_mergeSort, List.mem_eraseDups, List.mem_filterMap] at hn ⊢
  obtain ⟨k, hk, hn⟩ := hn
  exact ⟨k, h hk, hn⟩

def holding (t : FileTree) (key content : String) : FileTree :=
  { t with files := t.files.insert key [.text content] }

theorem lookup_holding (t : FileTree) (key content : String) :
    (t.holding key content).lookup key = some (.text content) := by
  simp [lookup, holding, Named.find?_insert]

/-- A directory stays one, also when a file in it is new. -/
theorem lookup_holding_directory (ht : t.lookup p = some .directory) (hp : p ≠ key) :
    (t.holding key content).lookup p = some .directory := by
  have hnames : t.names p ⊆ (t.holding key content).names p :=
    names_subset (fun _ hk => Named.mem_keys_insert.mpr (.inl hk)) p
  simp only [lookup, holding, Named.find?_insert, if_neg hp] at ht ⊢
  split at ht
  · exact ht
  · split at ht
    · next hdirectory =>
      refine if_pos ?_
      rcases Bool.or_eq_true _ _ ▸ hdirectory with habove | hbelow
      · simp [habove]
      · obtain ⟨n, hn⟩ := List.exists_mem_of_ne_nil (t.names p) (by simpa using hbelow)
        have hsome := List.ne_nil_of_mem (hnames hn)
        simp only [holding] at hsome
        simp [hsome]
    · cases ht

def Passes (t : FileTree) (absolute : Bool) : List String → List String → Prop
  | _, [] => True
  | qs, p :: ps => t.lookup (joinParts absolute (placeOf absolute qs)) = some .directory ∧
      p.utf8ByteSize ≤ 255 ∧ Passes t absolute (qs ++ [p]) ps

theorem walk_of_passes (h : Passes t absolute qs ps) : t.walk absolute (placeOf absolute qs) ps =
    match t.lookup (joinParts absolute (placeOf absolute (qs ++ ps))) with
    | some e => .ok e
    | none => .error .notFound := by
  induction ps generalizing qs with
  | nil =>
    rw [List.append_nil]
    rfl
  | cons p ps ih =>
    obtain ⟨hthere, hshort, hrest⟩ := h
    have hnext := ih hrest
    rw [List.append_assoc, List.singleton_append] at hnext
    simp only [walk, hthere, if_neg (Nat.not_lt.mpr hshort), placeOf_concat, hnext]

theorem passes_of_walk (h : t.walk absolute (placeOf absolute qs) ps = .ok e) :
    Passes t absolute qs ps := by
  induction ps generalizing qs with
  | nil => trivial
  | cons p ps ih =>
    rw [walk] at h
    split at h
    · cases h
    · next hthere =>
      split at h
      · cases h
      · next hshort =>
        rw [placeOf_concat] at h
        exact ⟨hthere, Nat.le_of_not_lt hshort, ih h⟩
    · cases h

/-- In a directory a name that is not too long may be missing. -/
theorem passes_concat (h : t.walk absolute (placeOf absolute qs) ps = .ok .directory)
    (hnew : t.walk absolute (placeOf absolute qs) (ps ++ [p]) = .error .notFound) :
    Passes t absolute qs (ps ++ [p]) := by
  induction ps generalizing qs with
  | nil =>
    have hthere : t.lookup (joinParts absolute (placeOf absolute qs)) = some .directory := by
      rw [walk] at h
      split at h
      · next hthere => rw [hthere, Except.ok.inj h]
      · cases h
    rw [List.nil_append, walk, hthere] at hnew
    refine ⟨hthere, ?_, trivial⟩
    by_contra hlong
    rw [if_pos (Nat.lt_of_not_le hlong)] at hnew
    cases hnew
  | cons q ps ih =>
    obtain ⟨hthere, hshort, -⟩ := passes_of_walk h
    rw [walk, hthere] at h
    rw [List.cons_append, walk, hthere] at hnew
    simp only [if_neg (Nat.not_lt.mpr hshort), placeOf_concat] at h hnew
    exact ⟨hthere, hshort, ih h hnew⟩

theorem passes_holding (h : Passes t absolute qs ps)
    (hkey : t.lookup key ≠ some .directory) : Passes (t.holding key content) absolute qs ps := by
  induction ps generalizing qs with
  | nil => trivial
  | cons p ps ih =>
    obtain ⟨hthere, hshort, hrest⟩ := h
    refine ⟨lookup_holding_directory hthere ?_, hshort, ih hrest⟩
    rintro rfl
    exact hkey hthere

/-! Files. -/

def steps (path : String) : List String := (parts path).filter fun p => p ≠ "" ∧ p ≠ "."

theorem normal_eq (path : String) :
    normal path = joinParts (isAbsolute path) (placeOf (isAbsolute path) (steps path)) := by
  rw [steps, placeOf_filter]
  rfl

structure NamesFile (path : String) : Prop where
  noNul : path.toList.contains '\x00' = false
  ne_empty : path ≠ ""
  noSlash : (parts path).getLast? ≠ some ""
  noDot : (parts path).getLast? ≠ some "."

theorem find_of_namesFile (h : NamesFile path) :
    t.find path = t.walk (isAbsolute path) [] (steps path) := by
  have hplain : ¬((parts path).getLast? = some "" ∨ (parts path).getLast? = some ".") := by
    rintro (hslash | hdot)
    · exact h.noSlash hslash
    · exact h.noDot hdot
  rw [find, h.noNul]
  simp only [Bool.false_eq_true, if_false, if_neg h.ne_empty, if_neg hplain, ← steps.eq_def]
  cases t.walk (isAbsolute path) [] (steps path) with
  | error e => rfl
  | ok e => cases e <;> rfl

theorem find_holding (h : NamesFile path) (hpasses : Passes t (isAbsolute path) [] (steps path))
    (hkey : t.lookup (normal path) ≠ some .directory) :
    (t.holding (normal path) content).find path = .ok (.text content) := by
  have hthere : Passes (t.holding (normal path) content) (isAbsolute path) [] (steps path) :=
    passes_holding hpasses hkey
  have hwalk := walk_of_passes hthere
  rw [List.nil_append, ← normal_eq, lookup_holding] at hwalk
  rw [find_of_namesFile h]
  exact hwalk

theorem noNul_of_find (h : t.find path ≠ .error .nulInName) : path.toList.contains '\x00' = false := by
  by_contra hnul
  rw [Bool.not_eq_false] at hnul
  exact h (by rw [find, if_pos hnul])

/-- What is found under a path and is no directory stands at its end. -/
theorem namesFile_of_find (h : t.find path = .ok e) (he : e ≠ .directory) : NamesFile path := by
  have hnul : path.toList.contains '\x00' = false := noNul_of_find (by rw [h]; nofun)
  have hempty : path ≠ "" := by
    rintro rfl
    cases h
  rw [find, hnul] at h
  simp only [Bool.false_eq_true, if_false, if_neg hempty] at h
  split at h
  · cases h
  · exact absurd (Except.ok.inj h).symm he
  · split at h
    · cases h
    · next hplain =>
      rw [not_or] at hplain
      exact ⟨hnul, hempty, hplain.1, hplain.2⟩

/-- A dot at the end of a path is its last part that is not empty. -/
theorem noDot_of_filter (h : ((parts path).filter (· ≠ "")).getLast? ≠ some ".") :
    (parts path).getLast? ≠ some "." := by
  intro hdot
  obtain ⟨ps, hps⟩ := List.getLast?_eq_some_iff.mp hdot
  exact h (by simp [hps])

theorem find_of_write_found (hfind : t.find path = .ok e) (he : e ≠ .directory) :
    (t.holding (normal path) content).find path = .ok (.text content) := by
  have hname := namesFile_of_find hfind he
  rw [find_of_namesFile hname] at hfind
  have hpasses : Passes t (isAbsolute path) [] (steps path) := passes_of_walk hfind
  have hwalk := (walk_of_passes hpasses).symm.trans hfind
  rw [List.nil_append, ← normal_eq] at hwalk
  refine find_holding hname hpasses fun hkey => ?_
  rw [hkey] at hwalk
  exact he (Except.ok.inj hwalk).symm

theorem find_of_write_new (hname : NamesFile path) (hsteps : steps path ≠ [])
    (hfind : t.find path = .error .notFound)
    (hparent : t.walk (isAbsolute path) [] (steps path).dropLast = .ok .directory) :
    (t.holding (normal path) content).find path = .ok (.text content) := by
  rw [find_of_namesFile hname, ← List.dropLast_concat_getLast hsteps] at hfind
  have hpasses : Passes t (isAbsolute path) [] _ := passes_concat hparent hfind
  have hwalk := (walk_of_passes hpasses).symm.trans hfind
  rw [List.dropLast_concat_getLast hsteps] at hpasses hwalk
  rw [List.nil_append, ← normal_eq] at hwalk
  refine find_holding hname hpasses fun hkey => ?_
  rw [hkey] at hwalk
  cases hwalk

theorem find_of_write (h : t.write path content = .ok t') : t'.find path = .ok (.text content) := by
  unfold write at h
  split at h
  case h_1 => cases h
  case h_2 e he hfind =>
    cases h
    exact find_of_write_found hfind he
  case h_3 hfind =>
    dsimp only at h
    split at h
    · cases h
    · next hplain =>
      rw [not_or, decide_eq_true_eq] at hplain
      split at h
      · next hparent =>
        split at h
        · cases h
        · next hslash =>
          cases h
          have hempty : path ≠ "" := by
            rintro rfl
            exact hplain.1 rfl
          have hname : NamesFile path := ⟨noNul_of_find (by rw [hfind]; nofun), hempty,
            by simpa using hslash, noDot_of_filter hplain.2⟩
          exact find_of_write_new hname hplain.1 hfind hparent
      · cases h
      · cases h
  case h_4 =>
    dsimp only at h
    split at h
    · cases h
    · cases h
  case h_5 => cases h

/-- A new file can be written in any directory. -/
theorem write_new (hname : NamesFile path) (hsteps : steps path ≠ [])
    (hdot : ((parts path).filter (· ≠ "")).getLast? ≠ some ".")
    (hfind : t.find path = .error .notFound)
    (hparent : t.walk (isAbsolute path) [] (steps path).dropLast = .ok .directory)
    (content : String) : t.write path content = .ok (t.holding (normal path) content) := by
  have hplain : ¬(steps path = [] ∨ ((parts path).filter (· ≠ "")).getLast? = some ".") :=
    not_or.mpr ⟨hsteps, hdot⟩
  rw [write, hfind]
  simp only [← steps.eq_def, decide_eq_true_eq, if_neg hplain, hparent, if_neg hname.noSlash]
  rfl

theorem find_empty (hname : NamesFile path) (hsteps : steps path = [p])
    (hshort : p.utf8ByteSize ≤ 255)
    (hbelow : (parts (normal path)).all (fun p => p = "" || p = "..") = false) :
    ({} : FileTree).find path = .error .notFound := by
  have hnames : ({} : FileTree).names (normal path) = [] := by simp [names, Named.keys]
  have hnew : ({} : FileTree).lookup (normal path) = none := by
    rw [lookup, hbelow, hnames]
    rfl
  have hroot : ({} : FileTree).lookup (joinParts (isAbsolute path) []) = some .directory := by
    cases isAbsolute path <;> rfl
  have hpasses : Passes {} (isAbsolute path) [] (steps path) := by
    rw [hsteps]
    exact ⟨hroot, hshort, trivial⟩
  have hwalk := walk_of_passes hpasses
  rw [List.nil_append, ← normal_eq, hnew] at hwalk
  rw [find_of_namesFile hname]
  exact hwalk

/-- Where nothing is listed, a file can be written to the working directory or the root. -/
theorem write_empty (hname : NamesFile path) (hsteps : steps path = [p])
    (hdot : ((parts path).filter (· ≠ "")).getLast? ≠ some ".") (hshort : p.utf8ByteSize ≤ 255)
    (hbelow : (parts (normal path)).all (fun p => p = "" || p = "..") = false) (content : String) :
    ({} : FileTree).write path content = .ok (holding {} (normal path) content) := by
  refine write_new hname (by simp [hsteps]) hdot (find_empty hname hsteps hshort hbelow) ?_ content
  rw [hsteps]
  cases isAbsolute path <;> rfl

theorem read_of_find (h : t.find path = .ok (.text content)) : (t.read path).1 = .ok content := by
  rw [read, h]

/-- What has been written is read. -/
theorem read_of_write (h : t.write path content = .ok t') : (t'.read path).1 = .ok content :=
  read_of_find (find_of_write h)

end HostVitals.FileTree
