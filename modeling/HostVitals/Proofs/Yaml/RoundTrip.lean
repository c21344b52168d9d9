import HostVitals.Proofs.Yaml.Characters
import HostVitals.Proofs.Yaml.Scalars

/-! A document written as YAML is read back: its text is the tokens of its entries, and the tokens are
the entries. -/
namespace HostVitals.Yaml

open Document (Shows ShowsAll Simple SimpleAll)

variable {k : String} {d : Document} {entries : List (String × Document)} {column c : Nat}
  {r : List Char} {tokens all ts : List Token} {columns : List Nat} {limit : Nat}

structure IsKey (k : String) : Prop where
  word : Scanner.IsWord k.toList
  style : styleOf k = .plain
  simple : isSimpleKey k = true

theorem keyChars_eq (hk : IsKey k) (column : Nat) :
    keyChars column k = (k.toList ++ [':'], true) := by
  rw [keyChars, textChars_eq, hk.style]
  simp only [hk.simple, if_true]

theorem atKey_word {word : List Char} (hword : Scanner.IsWord word) (r : List Char) :
    AtKey (word ++ r) := by
  obtain ⟨d, ds, rfl, hd⟩ := hword.head
  simpa [AtKey] using hd

/-! The tokens of a document. -/

mutual
def tokensOf : Document → List Token
  | .table entries => .openBlockTable :: entryTokens entries ++ [.closeBlock]
  | d => [.scalar (scalarOf d).1 (scalarOf d).2]

def entryTokens : List (String × Document) → List Token
  | [] => []
  | (k, d) :: entries =>
    .key :: .scalar .plain k :: .value :: (tokensOf d ++ entryTokens entries)
end

def ScansBack (d : Document) : Prop :=
  ∀ (c column : Nat) (columns : List Nat) (tokens all : List Token) (r : List Char), AtKey r →
    column ≤ c → Scanner.Scans r column ((tokensOf d).reverse ++ tokens) (c :: columns) all →
    Scanner.ScansOn
      ((valueChars c true d).1 ++ ((valueChars c true d).2.lead column ++ r)) tokens (c :: columns) all

theorem scansBack_null : ScansBack .null := fun _ _ _ _ _ _ hr hcolumn h =>
  Scanner.scansOn_plainScalar "null" (isPlain_of_plainFits (by decide) (by decide)) hr hcolumn h

theorem scansBack_bool (b : Bool) : ScansBack (.bool b) := fun _ _ _ _ _ _ hr hcolumn h => by
  refine Scanner.scansOn_plainScalar _ ?_ hr hcolumn h
  cases b <;> exact isPlain_of_plainFits (by decide) (by decide)

theorem scansBack_int (n : Nat) : ScansBack (.int n) := fun _ _ _ _ _ _ hr hcolumn h => by
  refine Scanner.scansOn_plainScalar (toString (n : Int)) ?_ hr hcolumn h
  rw [Text.toList_toString_natCast]
  exact isPlain_of_isDigit (fun c hc => Nat.isDigit_of_mem_toDigits (by decide) (by decide) hc)
    Nat.toDigits_ne_nil

theorem scansBack_text (t : String) : ScansBack (.text t) := fun _ _ _ _ _ _ hr hcolumn h =>
  Scanner.scansOn_text t hr hcolumn h

/-- Behind a colon a blank follows, or the next line. -/
theorem gapAhead_valueChars (hd : Simple limit IsKey d) (c : Nat) (r : List Char) :
    gapAhead ((valueChars c true d).1 ++ r) = true := by
  cases d with
  | table entries =>
    cases entries with
    | nil => exact absurd rfl hd.1
    | cons e entries => simp [valueChars, entriesChars, Place.lead, gapAhead, isGap, isBreak]
  | list _ => exact absurd hd id
  | number _ => exact absurd hd id
  | _ => simp [valueChars, gapAhead, isGap, isBlank]

/-- The value of an entry and the entries behind it, in a table that is open. -/
theorem scansOn_entries (hentries : ∀ e ∈ (k, d) :: entries,
      IsKey e.1 ∧ Simple limit IsKey e.2 ∧ ScansBack e.2) (hr : AtKey r) (hcolumn : column ≤ c)
    (h : Scanner.Scans r column ((entryTokens ((k, d) :: entries)).reverse ++ tokens) (c :: columns)
      all) :
    Scanner.ScansOn ((valueChars c true d).1 ++
        ((entriesChars c (valueChars c true d).2 entries).1 ++
          ((entriesChars c (valueChars c true d).2 entries).2.lead column ++ r)))
      (.value :: .scalar .plain k :: .key :: tokens) (c :: columns) all := by
  induction entries generalizing k d tokens with
  | nil =>
    refine (hentries _ List.mem_cons_self).2.2 c column columns _ all r hr hcolumn ?_
    simpa [entryTokens] using h
  | cons e entries ih =>
    obtain ⟨k', d'⟩ := e
    obtain ⟨hk', hd', -⟩ := hentries (k', d') (by simp)
    have hrest : Scanner.ScansOn _ (.value :: .scalar .plain k' :: .key ::
        ((tokensOf d).reverse ++ .value :: .scalar .plain k :: .key :: tokens)) (c :: columns) all :=
      ih (fun e he => hentries e (List.mem_cons_of_mem _ he)) (by simpa [entryTokens] using h)
    have hkey := Scanner.scans_key (c := c)
      ((tokensOf d).reverse ++ .value :: .scalar .plain k :: .key :: tokens) (c :: columns) hk'.word
      (gapAhead_valueChars hd' c _) (Int.le_refl _)
      (by simpa [Scanner.innermost, String.ofList_toList] using hrest)
    have hback := (hentries _ List.mem_cons_self).2.2 c c columns _ all _ (atKey_word hk'.word _)
      (Nat.le_refl c) hkey
    simpa [entriesChars, keyChars_eq hk'] using hback

/-- A table further in is opened by its first key, and closed by whatever follows its last entry. -/
theorem scansBack_table (hentries : ∀ e ∈ (k, d) :: entries,
      IsKey e.1 ∧ Simple limit IsKey e.2 ∧ ScansBack e.2) :
    ScansBack (.table ((k, d) :: entries)) := by
  intro c column columns tokens all r hr hcolumn h
  obtain ⟨hk, hd, -⟩ := hentries (k, d) List.mem_cons_self
  have hclose : Scanner.Scans r column
      ((entryTokens ((k, d) :: entries)).reverse ++ .openBlockTable :: tokens)
      ((c + 2) :: c :: columns) all := by
    refine Scanner.scans_close hr (by omega) ?_
    simpa [tokensOf] using h
  have hrest := scansOn_entries hentries hr (by omega) hclose
  have hopens : ¬((c + 2 : Nat) : Int) ≤ Scanner.innermost (c :: columns) := by
    simp only [Scanner.innermost]
    omega
  have hkey := Scanner.scans_key (c := c + 2) tokens (c :: columns) hk.word
    (gapAhead_valueChars hd (c + 2) _) (Int.le_of_lt (Int.not_le.mp hopens))
    (by simpa only [String.ofList_toList, if_neg hopens] using hrest)
  have hline := Scanner.scansOn_newline (atKey_word hk.word _) hkey
  simpa [valueChars, entriesChars, keyChars_eq hk, Place.lead] using hline

theorem scansBack (hd : Simple limit IsKey d) : ScansBack d :=
  Simple.elim scansBack_null scansBack_bool (fun n _ => scansBack_int n) scansBack_text
    (fun _ _ _ => scansBack_table) d hd

/-! The whole text. -/

def lastBreak (place : Place) : List Char := if place = .fresh then [] else ['\n']

theorem lead_zero_end {place : Place} (hplace : place ≠ .inside) :
    place.lead 0 ++ [] = lastBreak place := by
  cases place with
  | fresh => rfl
  | ended => rfl
  | inside => exact absurd rfl hplace

theorem render_table (k : String) (d : Document) (entries : List (String × Document)) :
    (render (.table ((k, d) :: entries))).toList =
      (entriesChars 0 .fresh ((k, d) :: entries)).1 ++
        lastBreak (entriesChars 0 .fresh ((k, d) :: entries)).2 := String.toList_ofList

/-- The outermost table is opened by its first key and closed at the end. -/
theorem scans_render (hd : Simple limit IsKey (.table ((k, d) :: entries))) :
    Scanner.Scans (render (.table ((k, d) :: entries))).toList 0 [] []
      (tokensOf (.table ((k, d) :: entries))) := by
  have hentries : ∀ e ∈ (k, d) :: entries, IsKey e.1 ∧ Simple limit IsKey e.2 ∧ ScansBack e.2 :=
    fun e he => ⟨(hd.2.mem he).1, (hd.2.mem he).2, scansBack (hd.2.mem he).2⟩
  obtain ⟨hk, hvalue, -⟩ := hentries (k, d) List.mem_cons_self
  have hplace := (isProper_entriesChars (fun e he => shownProperly (hd.2.mem he).2) 0 .fresh).2
  have hend := Scanner.scans_end 0
    ((entryTokens ((k, d) :: entries)).reverse ++ [.openBlockTable])
  have hrest := scansOn_entries hentries (r := []) nofun (Nat.le_refl 0) hend
  have hkey := Scanner.scans_key (c := 0) [] [] hk.word (gapAhead_valueChars hvalue 0 _)
    (by decide)
    (by simpa [Scanner.innermost, String.ofList_toList] using hrest)
  rw [render_table, ← lead_zero_end hplace]
  simpa [entriesChars, keyChars_eq hk, tokensOf, Place.lead, margin] using hkey

theorem ofText?_of_scans {s : List Char} (hhead : s.head? ≠ some '\uFEFF') (hs : AllAllowed s)
    (h : Scanner.Scans s 0 [] [] all) : Token.ofText? s = some all := by
  have hread := h { text := s } (s.length + 1) rfl rfl (Nat.lt_succ_self _)
  have hallowed : s.all isAllowed = true := List.all_eq_true.mpr hs
  simp only [Token.ofText?, if_neg hhead, hallowed, if_true]
  exact hread

theorem allAllowed_render (hd : Simple limit IsKey (.table ((k, d) :: entries))) :
    AllAllowed (render (.table ((k, d) :: entries))).toList := by
  have hshown := (isProper_entriesChars (fun e he => shownProperly (hd.2.mem he).2) 0 .fresh).1
  rw [render_table]
  refine hshown.append ?_
  unfold lastBreak
  split
  · exact allAllowed_nil
  · exact .cons (by decide) allAllowed_nil

theorem atKey_render (hd : Simple limit IsKey (.table ((k, d) :: entries))) :
    AtKey (render (.table ((k, d) :: entries))).toList := by
  have hk := (hd.2.mem List.mem_cons_self).1
  rw [render_table]
  simpa [entriesChars, keyChars_eq hk, Place.lead, margin] using atKey_word hk.word _

theorem AtKey.head?_ne (hr : AtKey r) : r.head? ≠ some '\uFEFF' :=
  fun h => absurd (hr _ h) (by decide)

/-! The nodes of a document. -/

mutual
def nodeOf {ρ : Type} : Document → Node ρ
  | .table entries => .table none (nodesOf entries)
  | d => .scalar none none (scalarOf d).1 (scalarOf d).2

def nodesOf {ρ : Type} : List (String × Document) → List (Node ρ × Node ρ)
  | [] => []
  | (k, d) :: entries => (.scalar none none .plain k, nodeOf d) :: nodesOf entries
end

def TakesBack (d : Document) : Prop :=
  ∀ (handles : Handles) (fuel : Nat) (setting : Setting) (ts : List Token), setting ≠ .bracket →
    (tokensOf d).length < fuel → Node.take handles fuel setting (tokensOf d ++ ts) = some (nodeOf d, ts)

theorem not_missing_tokensOf (d : Document) (ts : List Token) :
    Node.missing (tokensOf d ++ ts) = false := by
  cases d <;> simp [tokensOf, Node.missing]

theorem takeBlockEntries_entryTokens (hentries : ∀ e ∈ entries, TakesBack e.2) (handles : Handles)
    {fuel : Nat} (hfuel : (entryTokens entries).length < fuel) (ts : List Token) :
    Node.takeBlockEntries handles fuel (entryTokens entries ++ .closeBlock :: ts) =
      some (nodesOf entries, ts) := by
  induction entries generalizing fuel with
  | nil =>
    obtain ⟨fuel, rfl⟩ := Nat.exists_eq_succ_of_ne_zero (Nat.ne_of_gt hfuel)
    simp [entryTokens, nodesOf, Node.takeBlockEntries]
  | cons e entries ih =>
    obtain ⟨k, d⟩ := e
    simp only [entryTokens, List.length_cons, List.length_append] at hfuel
    obtain ⟨fuel, rfl⟩ : ∃ f, fuel = f + 2 := ⟨fuel - 2, by omega⟩
    have hvalue := hentries _ List.mem_cons_self handles (fuel + 1) .blockEntry
      (entryTokens entries ++ .closeBlock :: ts) nofun (by simp only; omega)
    have hrest : Node.takeBlockEntries handles (fuel + 1) (entryTokens entries ++ .closeBlock :: ts) =
        some (nodesOf entries, ts) :=
      ih (fun e he => hentries e (List.mem_cons_of_mem _ he)) (by omega)
    have hkey : Node.take handles (fuel + 1) .blockEntry (.scalar .plain k :: .value ::
        (tokensOf d ++ (entryTokens entries ++ .closeBlock :: ts))) =
      some (.scalar none none .plain k, .value ::
        (tokensOf d ++ (entryTokens entries ++ .closeBlock :: ts))) := by
      simp [Node.take, takeGiven]
    have hthere : Node.missing (.scalar .plain k :: .value ::
        (tokensOf d ++ (entryTokens entries ++ .closeBlock :: ts))) = false := by
      simp [Node.missing]
    rw [entryTokens, List.cons_append, List.cons_append, List.cons_append, List.append_assoc,
      Node.takeBlockEntries]
    simp only [hthere, not_missing_tokensOf, Bool.false_eq_true, if_false, hkey, hvalue, hrest,
      nodesOf, Option.bind_eq_bind, Option.bind_some]
    rfl

theorem takesBack_scalar (htokens : tokensOf d = [.scalar (scalarOf d).1 (scalarOf d).2])
    (hnode : (nodeOf d : Node String) = .scalar none none (scalarOf d).1 (scalarOf d).2) :
    TakesBack d := by
  intro handles fuel setting ts hsetting hfuel
  obtain ⟨fuel, rfl⟩ := Nat.exists_eq_succ_of_ne_zero (Nat.ne_of_gt (Nat.zero_lt_of_lt hfuel))
  rw [htokens, hnode]
  simp [Node.take, takeGiven]

theorem takesBack_table (hentries : ∀ e ∈ entries, TakesBack e.2) : TakesBack (.table entries) := by
  intro handles fuel setting ts hsetting hfuel
  simp only [tokensOf, List.length_cons, List.length_append] at hfuel
  obtain ⟨fuel, rfl⟩ := Nat.exists_eq_succ_of_ne_zero (Nat.ne_of_gt (Nat.zero_lt_of_lt hfuel))
  have hlength : (entryTokens entries).length < fuel := by omega
  have hrest := takeBlockEntries_entryTokens hentries handles hlength ts
  simp [tokensOf, Node.take, takeGiven, nodeOf, hsetting, hrest]

theorem takesBack (hd : Simple limit IsKey d) : TakesBack d :=
  Simple.elim (takesBack_scalar rfl rfl) (fun _ => takesBack_scalar rfl rfl)
    (fun _ _ => takesBack_scalar rfl rfl) (fun _ => takesBack_scalar rfl rfl)
    (fun _ _ _ hentries => takesBack_table fun e he => (hentries e he).2.2) d hd

/-- The document is alone in its text. -/
theorem ofTokens?_tokensOf (hd : Simple limit IsKey (.table entries)) :
    Node.ofTokens? (tokensOf (.table entries)) = some (some (nodeOf (.table entries))) := by
  have hroot := takesBack hd standardHandles (3 * (tokensOf (.table entries)).length + 3) .block []
    nofun (by omega)
  rw [List.append_nil] at hroot
  have hdirectives : Node.takeDirectives false [] (tokensOf (.table entries)) =
      some (standardHandles, tokensOf (.table entries)) := by
    simp [tokensOf, Node.takeDirectives]
  simp only [tokensOf, List.cons_append] at hroot hdirectives ⊢
  simp only [Node.ofTokens?, hdirectives, Option.bind_eq_bind, Option.bind_some, Bool.false_eq_true,
    if_false, hroot, Node.onlyFinished, if_true]
  rfl

/-! Without references a node is linked to nothing. -/

theorem linkEntries_nodesOf (hentries : ∀ e ∈ entries, ∀ l : Links,
      Node.link l (nodeOf e.2) = some (nodeOf e.2, l)) (l : Links) :
    linkEntries l (nodesOf entries) = some (nodesOf entries, l) := by
  induction entries with
  | nil => rfl
  | cons e entries ih =>
    obtain ⟨k, d⟩ := e
    have hvalue := hentries _ List.mem_cons_self l
    have hrest := ih fun e he => hentries e (List.mem_cons_of_mem _ he)
    simp [nodesOf, linkEntries, Node.link, Links.start, Links.keep, hvalue, hrest]

theorem link_nodeOf (hd : Simple limit IsKey d) :
    ∀ l : Links, Node.link l (nodeOf d) = some (nodeOf d, l) :=
  Simple.elim (motive := fun d => ∀ l : Links, Node.link l (nodeOf d) = some (nodeOf d, l))
    (fun _ => rfl) (fun _ _ => rfl) (fun _ _ _ => rfl) (fun _ _ => rfl)
    (fun k d entries hentries l => by
      have hrest := linkEntries_nodesOf (fun e he => (hentries e he).2.2) l
      rw [nodeOf, Node.link]
      simp [Links.start, Links.keep, hrest, nodeOf]) d hd

/-! What a node can be taken for. -/

theorem shows_null (l : Linked) : Shows l.shape .null (nodeOf .null) := .null rfl (by decide)

theorem shows_bool (l : Linked) (b : Bool) : Shows l.shape (.bool b) (nodeOf (.bool b)) := by
  refine .bool rfl ?_ ?_ <;> cases b <;> decide

theorem shows_int (l : Linked) {n : Nat} (hn : n ≤ Text.maxU64) :
    Shows l.shape (.int n) (nodeOf (.int n)) := by
  obtain ⟨c, r, hcr, hc⟩ := Text.exists_digit_toDigits n
  have hne {t : String} (ht : t.toList.head?.all (!Char.isDigit ·) = true) :
      toString (n : Int) ≠ t := by
    rintro rfl
    rw [Text.toList_toString_natCast, hcr] at ht
    simp [hc] at ht
  have hnull : Plain.isNull (toString (n : Int)) = false := by
    simp only [Plain.isNull, Bool.or_eq_false_iff, decide_eq_false_iff_not]
    exact ⟨⟨⟨hne (by decide), hne (by decide)⟩, hne (by decide)⟩, hne (by decide)⟩
  have hempty : toString (n : Int) ≠ "" := hne (by decide)
  refine .int (n := n) rfl ?_ ?_ rfl
  · simpa [scalarOf, Linked.scalarShape] using And.intro hempty hnull
  · simpa [scalarOf, Linked.scalarShape] using natural?_toString hn

/-- A text that would be taken for nothing stands in quotes. -/
theorem shows_text (l : Linked) (t : String) : Shows l.shape (.text t) (nodeOf (.text t)) := by
  refine .text (t := t) rfl ?_ (by simp [scalarOf, Linked.scalarShape])
  by_cases hstyle : styleOf t = .plain
  · have htaken := (plainFits_of_styleOf hstyle).1
    simp only [Plain.isTaken, Bool.or_eq_false_iff, decide_eq_false_iff_not] at htaken
    simp [scalarOf, Linked.scalarShape, htaken]
  · simp [scalarOf, Linked.scalarShape, hstyle]

theorem showsAll_nodesOf (l : Linked) (hentries : ∀ e ∈ entries, Shows l.shape e.2 (nodeOf e.2)) :
    ShowsAll l.shape entries ((nodesOf entries).map fun e => (l.key? e.1, e.2)) := by
  induction entries with
  | nil => exact .nil
  | cons e entries ih =>
    exact .cons (hentries _ List.mem_cons_self) (ih fun e he => hentries e (List.mem_cons_of_mem _ he))

theorem shows_nodeOf (hd : Simple Text.maxU64 IsKey d) (l : Linked) : Shows l.shape d (nodeOf d) :=
  Simple.elim (motive := fun d => Shows l.shape d (nodeOf d)) (shows_null l) (shows_bool l)
    (fun _ => shows_int l) (shows_text l)
    (fun _ _ _ hentries => .table rfl (showsAll_nodesOf l fun e he => (hentries e he).2.2)) d hd

/-- A text whose tokens are those of a document leads to a value that shows the document. -/
theorem read_of_ofText? {s : List Char} (hd : Simple Text.maxU64 IsKey (.table entries))
    (hs : Token.ofText? s = some (tokensOf (.table entries))) :
    ∃ l, read s = some l ∧ ∃ n, l.root = some n ∧ Shows l.shape (.table entries) n := by
  refine ⟨⟨some (nodeOf (.table entries)), [], []⟩, ?_, _, rfl, shows_nodeOf hd _⟩
  rw [read, hs]
  simp only [Option.bind_eq_bind, Option.bind_some, ofTokens?_tokensOf hd, link_nodeOf hd]
  rfl

theorem read_render (hd : Simple Text.maxU64 IsKey (.table entries)) :
    ∃ l, read (render (.table entries)).toList = some l ∧
      ∃ n, l.root = some n ∧ Shows l.shape (.table entries) n := by
  cases entries with
  | nil => exact absurd rfl hd.1
  | cons e entries =>
    exact read_of_ofText? hd (ofText?_of_scans (atKey_render hd).head?_ne (allAllowed_render hd)
      (scans_render hd))

end HostVitals.Yaml
