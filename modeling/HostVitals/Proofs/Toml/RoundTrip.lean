import HostVitals.Proofs.Toml.Lines

/-! A document written as TOML is read back: single values first, then tables of single values, each
under a header of its own. A number that does not fit into 64 bits with a sign makes the whole text
unreadable. -/
namespace HostVitals.Toml

open Document (Shows ShowsAll)

variable {c : Char} {r s : List Char} {k name start : String} {d : Document} {written spaced : Bool}
  {entries : List (String × Document)} {path : List String} {current : Section}
  {tables : List (String × List (String × Document))}

/-! What is written. -/

def IsFlat (entries : List (String × Document)) : Prop :=
  ∀ e ∈ entries, IsBareKey e.1 ∧ (e.2 = .null ∨ IsSingle e.2)

def lines : List (String × Document) → List Char
  | [] => []
  | (_, .null) :: entries => lines entries
  | (k, d) :: entries => lineChars k d ++ lines entries

def tablesChars (name : String) : Bool → List (String × List (String × Document)) → List Char
  | _, [] => []
  | spaced, (k, entries) :: tables =>
    (header spaced false [name, k]).toList ++ (lines entries ++ tablesChars name true tables)

theorem IsFlat.tail {e : String × Document} (h : IsFlat (e :: entries)) : IsFlat entries :=
  fun e' he => h e' (List.mem_cons_of_mem _ he)

theorem lines_single (hd : IsSingle d) (k : String) (entries : List (String × Document)) :
    lines ((k, d) :: entries) = lineChars k d ++ lines entries := by
  cases d with
  | bool | int | text => rfl
  | null | number | list | table => cases hd

theorem entriesText_single (hk : IsBareKey k) (hd : IsSingle d) (path : List String)
    (start : String) (written : Bool) (entries : List (String × Document)) :
    (entriesText path start written ((k, d) :: entries)).toList =
      (if written then [] else start.toList) ++
        (lineChars k d ++ (entriesText path start true entries).toList) := by
  cases d with
  | bool | int | text => cases written <;> simp [entriesText, keyText_of_isBareKey hk, lineChars]
  | null | number | list | table => cases hd

theorem entriesText_lines (hflat : IsFlat entries) :
    (entriesText path start written entries).toList =
      (if written then [] else start.toList) ++ lines entries := by
  induction entries generalizing written with
  | nil => cases written <;> simp [entriesText, lines]
  | cons e entries ih =>
    obtain ⟨k, d⟩ := e
    obtain ⟨hk, rfl | hd⟩ := hflat _ List.mem_cons_self
    · rw [entriesText, ih hflat.tail, lines]
    · rw [entriesText_single hk hd, ih hflat.tail, lines_single hd]
      rfl

/-- Behind the lines of single values the other entries follow. -/
theorem entriesText_append (path : List String) (hflat : IsFlat entries) (written : Bool)
    (rest : List (String × Document)) :
    ∃ written', (entriesText path "" written (entries ++ rest)).toList =
      lines entries ++ (entriesText path "" written' rest).toList := by
  induction entries generalizing written with
  | nil => exact ⟨written, rfl⟩
  | cons e entries ih =>
    obtain ⟨k, d⟩ := e
    obtain ⟨hk, rfl | hd⟩ := hflat _ List.mem_cons_self
    · obtain ⟨written', h⟩ := ih hflat.tail written
      exact ⟨written', by rw [List.cons_append, entriesText, h, lines]⟩
    · obtain ⟨written', h⟩ := ih hflat.tail true
      refine ⟨written', ?_⟩
      rw [List.cons_append, entriesText_single hk hd, h, lines_single hd]
      cases written <;> simp

theorem entriesText_tables (hflat : ∀ t ∈ tables, IsFlat t.2)
    (hsome : written = true ∨ tables ≠ []) :
    (entriesText [name] start written (tables.map fun t => (t.1, .table t.2))).toList =
      tablesChars name written tables := by
  induction tables generalizing written with
  | nil =>
    rw [hsome.resolve_right (· rfl)]
    simp [entriesText, tablesChars]
  | cons t tables ih =>
    have hrest := ih (fun t ht => hflat t (List.mem_cons_of_mem _ ht)) (.inl rfl)
    simp [entriesText, tablesChars, entriesText_lines (hflat t List.mem_cons_self), hrest]

theorem render_tables (hflat : IsFlat entries) (htables : ∀ t ∈ tables, IsFlat t.2)
    (hsome : tables ≠ []) :
    (render (.table (entries ++
        [(name, .table (tables.map fun t => (t.1, .table t.2)))]))).toList =
      lines entries ++ tablesChars name false tables := by
  obtain ⟨written, h⟩ := entriesText_append [] hflat false
    [(name, .table (tables.map fun t => (t.1, .table t.2)))]
  rw [render, h]
  simp [entriesText, entriesText_tables htables (.inr hsome)]

/-! What is read. -/

def nodesOf? : List (String × Document) → Option (List (String × Node))
  | [] => some []
  | (_, .null) :: entries => nodesOf? entries
  | (k, d) :: entries => do
    let n ← nodeOf? d
    return (k, n) :: (← nodesOf? entries)

def tablesOf? (tables : List (String × List (String × Document))) :
    Option (List (String × List (String × Node))) :=
  tables.mapM fun t => (nodesOf? t.2).map (t.1, ·)

def tableSection (name : String) (t : String × List (String × Node)) : Section :=
  { path := [name, t.1], entries := t.2 }

theorem nodesOf?_single (hd : IsSingle d) (k : String) (entries : List (String × Document)) :
    nodesOf? ((k, d) :: entries) =
      (nodeOf? d).bind fun n => (nodesOf? entries).map fun ns => (k, n) :: ns := by
  cases d with
  | bool | int | text => simp [nodesOf?, Option.map_eq_bind]
  | null | number | list | table => cases hd

def Reads (current : Section) (s : List Char) (sections : Option (List Section)) : Prop :=
  ∀ fuel, s.length < fuel → readSections fuel current s = sections

theorem reads_nil (current : Section) : Reads current [] (some [current]) := by
  intro fuel hfuel
  obtain ⟨fuel, rfl⟩ := Nat.exists_eq_succ_of_ne_zero (Nat.ne_of_gt hfuel)
  rfl

theorem skipLines_of_isBare (hc : isBare c = true) (fuel : Nat) (r : List Char) :
    skipLines (fuel + 1) (c :: r) = some (c :: r) := by
  have hne {d : Char} (hd : isBare d = false) : c ≠ d := by
    rintro rfl
    exact Bool.false_ne_true (hd.symm.trans hc)
  rw [skipLines, skipBlanks_of_head (not_isBlank_of_isBare hc)]
  split
  · exact absurd (List.cons.inj ‹_›).1 (hne (by decide))
  · exact absurd (List.cons.inj ‹_›).1 (hne (by decide))
  · rfl

theorem reads_line {sections : Node → Option (List Section)} (hk : IsBareKey k) (hd : IsSingle d)
    (hr : ∀ n, nodeOf? d = some n →
      Reads { current with entries := current.entries ++ [(k, n)] } r (sections n)) :
    Reads current (lineChars k d ++ r) ((nodeOf? d).bind sections) := by
  intro fuel hfuel
  obtain ⟨fuel, rfl⟩ : ∃ f, fuel = f + 1 := ⟨fuel - 1, by omega⟩
  obtain ⟨c, cs, hcs, hc⟩ := exists_head_of_isBareKey hk
  have hentry := takeEntry_lineChars hk hd r
  have hlength : r.length < fuel := by
    simp only [lineChars, List.length_append, List.length_cons] at hfuel
    omega
  have hbracket : c ≠ '[' := by
    rintro rfl
    cases hc
  obtain ⟨s, hs⟩ : ∃ s, lineChars k d ++ r = c :: s := by
    rw [lineChars, hcs]
    exact ⟨_, rfl⟩
  rw [hs] at hentry ⊢
  rw [readSections, skipLines_of_isBare hc]
  simp only [Option.bind_eq_bind, Option.bind_some]
  split
  · cases ‹_›
  · exact absurd (List.cons.inj ‹_›).1 hbracket
  · rw [hentry]
    cases hn : nodeOf? d with
    | none => rfl
    | some n => simpa [Node.addDotted] using hr n hn fuel hlength

theorem reads_lines {sections : List (String × Node) → Option (List Section)} (current : Section)
    (hflat : IsFlat entries) (hr : ∀ ns, nodesOf? entries = some ns →
      Reads { current with entries := current.entries ++ ns } r (sections ns)) :
    Reads current (lines entries ++ r) ((nodesOf? entries).bind sections) := by
  induction entries generalizing current sections with
  | nil => simpa [nodesOf?, lines] using hr
  | cons e entries ih =>
    obtain ⟨k, d⟩ := e
    obtain ⟨hk, rfl | hd⟩ := hflat _ List.mem_cons_self
    · exact ih current hflat.tail hr
    · rw [lines_single hd, nodesOf?_single hd, List.append_assoc, Option.bind_assoc]
      refine reads_line hk hd fun n hn => ?_
      rw [Option.bind_map]
      refine ih _ hflat.tail fun ns hns => ?_
      have h := hr ((k, n) :: ns) (by rw [nodesOf?_single hd, hn, hns]; rfl)
      simpa using h

theorem length_le_pathText (hpath : ∀ k ∈ path, IsBareKey k) :
    path.length ≤ (pathText path).toList.length := by
  induction path with
  | nil => exact Nat.zero_le _
  | cons k path ih =>
    have hk : IsBareKey k := hpath k List.mem_cons_self
    have hrest := ih fun k hk => hpath k (List.mem_cons_of_mem _ hk)
    obtain ⟨c, cs, hcs, -⟩ := exists_head_of_isBareKey hk
    cases path with
    | nil => simp [pathText, keyText_of_isBareKey hk, hcs]
    | cons k' path =>
      rw [pathText_cons hk (by simp), hcs]
      simp only [List.length_append, List.length_cons] at hrest ⊢
      omega

/-- A header behind its opening bracket. -/
theorem takeHeader_pathText (hpath : ∀ k ∈ path, IsBareKey k) (hsome : path ≠ []) (r : List Char) :
    takeHeader ((pathText path).toList ++ ']' :: '\n' :: r) = some ((false, path), r) := by
  have hread (fuel : Nat) (hfuel : path.length ≤ fuel) :=
    takePath_pathText hpath hsome hfuel ('\n' :: r)
  have hlength := length_le_pathText hpath
  obtain ⟨c, cs, hcs, hc⟩ := exists_head_pathText hpath hsome
  rw [hcs, List.cons_append] at hread
  have hbracket : c ≠ '[' := by
    rintro rfl
    cases hc
  rw [hcs] at hlength ⊢
  rw [List.cons_append, takeHeader]
  · simp only [skipBlanks_of_head (not_isBlank_of_isBare hc)]
    rw [hread _ (by simp only [List.length_cons, List.length_append] at hlength ⊢; omega)]
    simp [skipBlanks_of_head (c := '\n') (by decide), endLine]
  · exact fun t h => hbracket (List.cons.inj h).1

theorem reads_header {sections : Option (List Section)} (hpath : ∀ k ∈ path, IsBareKey k)
    (hsome : path ≠ []) (hr : Reads { path } r sections) (spaced : Bool) :
    Reads current ((header spaced false path).toList ++ r) (sections.map (current :: ·)) := by
  intro fuel hfuel
  have htext : (header spaced false path).toList ++ r = (if spaced then ['\n'] else []) ++
      '[' :: ((pathText path).toList ++ ']' :: '\n' :: r) := by
    cases spaced <;> simp [header]
  rw [htext] at hfuel ⊢
  simp only [List.length_append, List.length_cons] at hfuel
  obtain ⟨fuel, rfl⟩ : ∃ f, fuel = f + 1 := ⟨fuel - 1, by omega⟩
  have hskip (n : Nat) : skipLines (n + 2) ((if spaced then ['\n'] else []) ++
      '[' :: ((pathText path).toList ++ ']' :: '\n' :: r)) =
        some ('[' :: ((pathText path).toList ++ ']' :: '\n' :: r)) := by
    cases spaced <;> simp [skipLines, skipBlanks, isBlank]
  rw [readSections, List.length_append, List.length_cons, ← Nat.add_assoc, hskip]
  simp only [Option.bind_eq_bind, Option.bind_some, takeHeader_pathText hpath hsome,
    hr fuel (by omega)]
  rw [Option.map_eq_bind]
  rfl

theorem reads_tables (current : Section) (spaced : Bool) (hname : IsBareKey name)
    (htables : ∀ t ∈ tables, IsBareKey t.1 ∧ IsFlat t.2) :
    Reads current (tablesChars name spaced tables)
      ((tablesOf? tables).map fun ts => current :: ts.map (tableSection name)) := by
  induction tables generalizing current spaced with
  | nil => exact reads_nil current
  | cons t tables ih =>
    obtain ⟨k, entries⟩ := t
    obtain ⟨hk, hflat⟩ := htables _ List.mem_cons_self
    have hpath : ∀ j ∈ [name, k], IsBareKey j := by simp [hname, hk]
    have hrest := reads_lines { path := [name, k] } hflat fun ns _ =>
      ih (tableSection name (k, ns)) true fun t ht => htables t (List.mem_cons_of_mem _ ht)
    have hsections : (tablesOf? ((k, entries) :: tables)).map
          (fun ts => current :: ts.map (tableSection name)) =
        ((nodesOf? entries).bind fun ns => (tablesOf? tables).map fun ts =>
          tableSection name (k, ns) :: ts.map (tableSection name)).map (current :: ·) := by
      simp [tablesOf?, List.mapM_cons, Option.map_eq_bind, Option.bind_assoc]
    rw [hsections]
    exact reads_header hpath (by simp) hrest spaced

/-! The tree of headers. -/

variable {values : List (String × Node)} {done ts : List (String × List (String × Node))}

def tableOutline (name : String) (values : List (String × Node))
    (tables : List (String × List (String × Node))) : Outline :=
  .table true values (if tables.isEmpty then []
    else [(name, .table false [] (tables.map fun t => (t.1, .table true t.2 [])))])

theorem add_new {below : List (String × Outline)} (hnew : below.lookup k = none) (named : Bool)
    (inner own : List (String × Node)) :
    Outline.add false own [k] (.table named inner below) =
      some (.table named inner (below ++ [(k, .table true own [])])) := by
  simp [Outline.add, hnew]

theorem add_table (hk : k ∉ done.map Prod.fst) (own : List (String × Node)) :
    Outline.add false own [name, k] (tableOutline name values done) =
      some (tableOutline name values (done ++ [(k, own)])) := by
  have hnew : (done.map fun t => (t.1, Outline.table true t.2 [])).lookup k = none := by
    rw [List.lookup_eq_none_iff]
    intro e he
    obtain ⟨t, ht, rfl⟩ := List.mem_map.mp he
    have hne : k ≠ t.1 := fun h => hk (List.mem_map.mpr ⟨t, ht, h.symm⟩)
    simpa using hne
  cases done with
  | nil => simp [tableOutline, Outline.add, Outline.empty, Outline.add.replace]
  | cons t done =>
    simp only [tableOutline, Outline.add, List.isEmpty_cons, Bool.false_eq_true, if_false,
      List.lookup_cons_self, Option.getD_some, add_new hnew]
    simp [Outline.add.replace]

/-- Tables of different names stand side by side. -/
theorem outline_tables (name : String) (values : List (String × Node))
    (done ts : List (String × List (String × Node))) (hnodup : ((done ++ ts).map Prod.fst).Nodup) :
    (ts.map (tableSection name)).foldlM (fun o s => Outline.add s.array s.entries s.path o)
      (tableOutline name values done) = some (tableOutline name values (done ++ ts)) := by
  induction ts generalizing done with
  | nil => simp
  | cons t ts ih =>
    obtain ⟨k, own⟩ := t
    have hk : k ∉ done.map Prod.fst := by
      intro hk
      rw [List.map_append, List.nodup_append] at hnodup
      exact hnodup.2.2 k hk k (by simp) rfl
    have hrest := ih (done ++ [(k, own)]) (by simpa using hnodup)
    simp only [List.map_cons, List.foldlM_cons, tableSection, add_table hk, Option.bind_eq_bind,
      Option.bind_some]
    simpa using hrest

theorem node_tables (hsome : done ≠ []) :
    (tableOutline name values done).node = .table false (values ++
      [(name, .table false (done.map fun t => (t.1, .table false t.2)))]) := by
  have hbelow : Outline.nodesBelow (done.map fun t => (t.1, .table true t.2 [])) =
      done.map fun t => (t.1, .table false t.2) := by
    clear hsome
    induction done with
    | nil => rfl
    | cons t done ih => simp [Outline.nodesBelow, Outline.node, ih]
  simp [tableOutline, hsome, Outline.node, Outline.nodesBelow, hbelow]

/-! Whole texts. -/

theorem foldBreaks_append (hs : '\r' ∉ s) (r : List Char) :
    foldBreaks (s ++ r) = s ++ foldBreaks r := by
  induction s with
  | nil => rfl
  | cons c s ih =>
    have hc : c ≠ '\r' := fun h => hs (h ▸ List.mem_cons_self)
    rw [List.cons_append, foldBreaks, ih fun h => hs (List.mem_cons_of_mem _ h), List.cons_append]
    exact fun r h => absurd h hc

theorem foldBreaks_of_not_mem (hs : '\r' ∉ s) : foldBreaks s = s := by
  have h := foldBreaks_append hs []
  rwa [List.append_nil, foldBreaks, List.append_nil] at h

theorem not_mem_of_isBareKey (hk : IsBareKey k) (hc : isBare c = false) : c ∉ k.toList :=
  fun h => Bool.false_ne_true (hc.symm.trans (isBare_of_mem hk c h))

theorem not_mem_valueText (hd : IsSingle d) : '\r' ∉ (valueText d).toList := by
  cases d with
  | bool b => cases b <;> simp [valueText]
  | int i =>
    obtain ⟨n, rfl⟩ := Int.eq_ofNat_of_zero_le hd
    rw [valueText, Text.toList_toString_natCast]
    exact not_mem_toDigits (by decide)
  | text t => simpa [valueText] using not_mem_textChars t
  | null | number | list | table => cases hd

theorem not_mem_lineChars (hk : IsBareKey k) (hd : IsSingle d) : '\r' ∉ lineChars k d := by
  simp [lineChars, not_mem_of_isBareKey hk (c := '\r') (by decide), not_mem_valueText hd]

theorem not_mem_lines (hflat : IsFlat entries) : '\r' ∉ lines entries := by
  induction entries with
  | nil => simp [lines]
  | cons e entries ih =>
    obtain ⟨k, d⟩ := e
    obtain ⟨hk, rfl | hd⟩ := hflat _ List.mem_cons_self
    · exact ih hflat.tail
    · rw [lines_single hd, List.mem_append, not_or]
      exact ⟨not_mem_lineChars hk hd, ih hflat.tail⟩

theorem not_mem_pathText (path : List String) (hpath : ∀ k ∈ path, IsBareKey k) :
    '\r' ∉ (pathText path).toList := by
  induction path with
  | nil => simp [pathText]
  | cons k path ih =>
    have hk : IsBareKey k := hpath k List.mem_cons_self
    have hrest := ih fun k hk => hpath k (List.mem_cons_of_mem _ hk)
    have hkey := not_mem_of_isBareKey hk (c := '\r') (by decide)
    cases path with
    | nil => simpa [pathText, keyText_of_isBareKey hk] using hkey
    | cons k' path => simp [pathText_cons hk, hkey, hrest]

theorem not_mem_tablesChars (hname : IsBareKey name)
    (htables : ∀ t ∈ tables, IsBareKey t.1 ∧ IsFlat t.2) (spaced : Bool) :
    '\r' ∉ tablesChars name spaced tables := by
  induction tables generalizing spaced with
  | nil => simp [tablesChars]
  | cons t tables ih =>
    obtain ⟨hk, hflat⟩ := htables _ List.mem_cons_self
    have hpath := not_mem_pathText [name, t.1] (by simp [hname, hk])
    have hrest := ih (fun t ht => htables t (List.mem_cons_of_mem _ ht)) true
    cases spaced <;> simp [tablesChars, header, hpath, not_mem_lines hflat, hrest]

/-- No byte order mark stands at the start. -/
theorem head?_lines_ne (hflat : IsFlat entries) (hr : r.head? ≠ some '\uFEFF') :
    (lines entries ++ r).head? ≠ some '\uFEFF' := by
  induction entries with
  | nil => exact hr
  | cons e entries ih =>
    obtain ⟨k, d⟩ := e
    obtain ⟨hk, rfl | hd⟩ := hflat _ List.mem_cons_self
    · exact ih hflat.tail
    · obtain ⟨c, cs, hcs, hc⟩ := exists_head_of_isBareKey hk
      rw [lines_single hd, lineChars, hcs]
      rintro h
      rw [Option.some_inj.mp h] at hc
      cases hc

/-- What the text of a document is read as: nothing if one number of it is too large. -/
theorem tablesOf?_names (hts : tablesOf? tables = some ts) :
    ts.map Prod.fst = tables.map Prod.fst := by
  induction tables generalizing ts with
  | nil =>
    cases hts
    rfl
  | cons t tables ih =>
    simp only [tablesOf?, List.mapM_cons, Option.bind_eq_bind, Option.bind_eq_some_iff,
      Option.map_eq_some_iff] at hts
    obtain ⟨_, ⟨ns, -, rfl⟩, rest, hrest, hts⟩ := hts
    cases hts
    simp [ih hrest]

theorem read_render (hname : IsBareKey name) (hflat : IsFlat entries)
    (htables : ∀ t ∈ tables, IsBareKey t.1 ∧ IsFlat t.2) (hsome : tables ≠ [])
    (hnodup : (tables.map Prod.fst).Nodup) :
    read (render (.table (entries ++
        [(name, .table (tables.map fun t => (t.1, .table t.2)))]))).toList =
      (nodesOf? entries).bind fun ns => (tablesOf? tables).map fun ts =>
        .table false (ns ++ [(name, .table false (ts.map fun t => (t.1, .table false t.2)))]) := by
  rw [render_tables hflat (fun t ht => (htables t ht).2) hsome]
  have hbreaks : '\r' ∉ lines entries ++ tablesChars name false tables := by
    rw [List.mem_append, not_or]
    exact ⟨not_mem_lines hflat, not_mem_tablesChars hname htables false⟩
  have hmark : (lines entries ++ tablesChars name false tables).head? ≠ some '\uFEFF' := by
    refine head?_lines_ne hflat ?_
    cases tables with
    | nil => exact absurd rfl hsome
    | cons t tables => simp [tablesChars, header]
  have hread := reads_lines {} hflat fun ns _ => reads_tables { entries := ns } false hname htables
  simp only [read, foldBreaks_of_not_mem hbreaks, if_neg hmark, hread _ (Nat.lt_succ_self _)]
  cases hns : nodesOf? entries with
  | none => rfl
  | some ns =>
    cases hts : tablesOf? tables with
    | none => rfl
    | some ts =>
      have hnames := tablesOf?_names hts
      have hts' : ts ≠ [] := by
        rintro rfl
        exact hsome (List.map_eq_nil_iff.mp hnames.symm)
      have houtline := outline_tables name ns [] ts (by rwa [List.nil_append, hnames])
      simp only [Option.bind_eq_bind, Option.bind_some, Option.map_some, outline]
      rw [show Outline.table true ns [] = tableOutline name ns [] from rfl, houtline]
      simp [node_tables hts']

/-! What the values show. -/

def IsSigned (entries : List (String × Document)) : Prop :=
  ∀ e ∈ entries, ∀ i, e.2 = .int i → i.toNat ≤ Text.maxI64

theorem nodeOf?_shows (hd : IsSingle d) (hsigned : ∀ i, d = .int i → i.toNat ≤ Text.maxI64) :
    ∃ n, nodeOf? d = some n ∧ Shows Node.shape d n := by
  cases d with
  | bool b => exact ⟨.bool b, rfl, .bool rfl rfl rfl⟩
  | int i =>
    have hi : 0 ≤ i := hd
    exact ⟨.integer i, if_pos (hsigned i rfl), .int rfl rfl (if_pos hi) (Int.toNat_of_nonneg hi).symm⟩
  | text t => exact ⟨.text t, rfl, .text rfl rfl rfl⟩
  | null | number | list | table => cases hd

theorem nodeOf?_eq_none (hd : IsSingle d) (hsigned : ¬∀ i, d = .int i → i.toNat ≤ Text.maxI64) :
    nodeOf? d = none := by
  push Not at hsigned
  obtain ⟨i, rfl, hi⟩ := hsigned
  exact if_neg (Nat.not_le.mpr hi)

theorem nodesOf?_shows (hflat : IsFlat entries) (hsigned : IsSigned entries) :
    ∃ ns, nodesOf? entries = some ns ∧
      ShowsAll Node.shape entries (ns.map fun e => (some e.1, e.2)) := by
  induction entries with
  | nil => exact ⟨[], rfl, .nil⟩
  | cons e entries ih =>
    obtain ⟨k, d⟩ := e
    obtain ⟨ns, hns, hshows⟩ := ih hflat.tail fun e he => hsigned e (List.mem_cons_of_mem _ he)
    obtain ⟨-, rfl | hd⟩ := hflat _ List.mem_cons_self
    · exact ⟨ns, hns, .skip hshows⟩
    · obtain ⟨n, hn, hshow⟩ := nodeOf?_shows hd (hsigned _ List.mem_cons_self)
      exact ⟨(k, n) :: ns, by rw [nodesOf?_single hd, hn, hns]; rfl, .cons hshow hshows⟩

theorem nodesOf?_eq_none (hflat : IsFlat entries) (hsigned : ¬IsSigned entries) :
    nodesOf? entries = none := by
  induction entries with
  | nil => exact absurd (fun e he => absurd he List.not_mem_nil) hsigned
  | cons e entries ih =>
    obtain ⟨k, d⟩ := e
    obtain ⟨-, rfl | hd⟩ := hflat _ List.mem_cons_self
    · refine ih hflat.tail fun h => hsigned fun e he i hi => ?_
      cases List.mem_cons.mp he with
      | inl he => rw [he] at hi; cases hi
      | inr he => exact h e he i hi
    · rw [nodesOf?_single hd]
      by_cases hone : ∀ i, d = .int i → i.toNat ≤ Text.maxI64
      · rw [ih hflat.tail fun h => hsigned ?_]
        · cases nodeOf? d <;> rfl
        · intro e he
          cases List.mem_cons.mp he with
          | inl he => rw [he]; exact hone
          | inr he => exact h e he
      · rw [nodeOf?_eq_none hd hone]
        rfl

theorem tablesOf?_shows (htables : ∀ t ∈ tables, IsBareKey t.1 ∧ IsFlat t.2)
    (hsigned : ∀ t ∈ tables, IsSigned t.2) :
    ∃ ts, tablesOf? tables = some ts ∧
      ShowsAll Node.shape (tables.map fun t => (t.1, .table t.2))
        (ts.map fun t => (some t.1, .table false t.2)) := by
  induction tables with
  | nil => exact ⟨[], rfl, .nil⟩
  | cons t tables ih =>
    obtain ⟨k, entries⟩ := t
    obtain ⟨ts, hts, hshows⟩ := ih (fun t ht => htables t (List.mem_cons_of_mem _ ht))
      fun t ht => hsigned t (List.mem_cons_of_mem _ ht)
    obtain ⟨ns, hns, hshow⟩ := nodesOf?_shows (htables _ List.mem_cons_self).2
      (hsigned _ List.mem_cons_self)
    refine ⟨(k, ns) :: ts, ?_, .cons (.table rfl hshow) hshows⟩
    rw [tablesOf?] at hts ⊢
    simp [List.mapM_cons, hns, hts]

theorem tablesOf?_eq_none {t : String × List (String × Document)} (ht : t ∈ tables)
    (hflat : IsFlat t.2) (hsigned : ¬IsSigned t.2) : tablesOf? tables = none := by
  induction tables with
  | nil => cases ht
  | cons t' tables ih =>
    rw [tablesOf?, List.mapM_cons]
    cases List.mem_cons.mp ht with
    | inl ht =>
      rw [← ht, nodesOf?_eq_none hflat hsigned]
      rfl
    | inr ht =>
      have hrest := ih ht
      rw [tablesOf?] at hrest
      rw [hrest]
      cases nodesOf? t'.2 <;> rfl

section Whole
variable (hname : IsBareKey name) (hflat : IsFlat entries)
  (htables : ∀ t ∈ tables, IsBareKey t.1 ∧ IsFlat t.2) (hsome : tables ≠ [])
  (hnodup : (tables.map Prod.fst).Nodup)
include hname hflat htables hsome hnodup

/-- Without large numbers, the text of a document leads to a value that shows the document. -/
theorem read_render_shows (hsigned : IsSigned entries ∧ ∀ t ∈ tables, IsSigned t.2) :
    ∃ n, read (render (.table (entries ++
        [(name, .table (tables.map fun t => (t.1, .table t.2)))]))).toList = some n ∧
      Shows Node.shape (.table (entries ++
        [(name, .table (tables.map fun t => (t.1, .table t.2)))])) n := by
  obtain ⟨ns, hns, hshows⟩ := nodesOf?_shows hflat hsigned.1
  obtain ⟨ts, hts, hshowts⟩ := tablesOf?_shows htables hsigned.2
  rw [read_render hname hflat htables hsome hnodup, hns, hts]
  refine ⟨_, rfl, .table rfl ?_⟩
  rw [List.map_append]
  refine hshows.append (.cons (.table rfl ?_) .nil)
  simpa [Function.comp_def] using hshowts

/-- A large number makes the text unreadable. -/
theorem read_render_eq_none (hsigned : ¬(IsSigned entries ∧ ∀ t ∈ tables, IsSigned t.2)) :
    read (render (.table (entries ++
      [(name, .table (tables.map fun t => (t.1, .table t.2)))]))).toList = none := by
  rw [read_render hname hflat htables hsome hnodup]
  by_cases hentries : IsSigned entries
  · obtain ⟨t, ht, hlarge⟩ : ∃ t ∈ tables, ¬IsSigned t.2 := by
      by_contra h
      push Not at h
      exact hsigned ⟨hentries, h⟩
    rw [tablesOf?_eq_none ht (htables t ht).2 hlarge]
    cases nodesOf? entries <;> rfl
  · rw [nodesOf?_eq_none hflat hentries]
    rfl

end Whole

end HostVitals.Toml
