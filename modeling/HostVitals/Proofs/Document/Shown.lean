import HostVitals.Document

/-! When a value of some text format offers what a document says, and that a record which takes its
fields from such a value gets the values of the document. -/
namespace HostVitals.Document
variable {α ρ : Type} (shape : α → Shape α)

mutual
inductive Shows : Document → α → Prop
  | null {a : α} {s : ScalarShape} (ha : shape a = .scalar s) (habsent : s.absent = true) :
    Shows .null a
  | bool {a : α} {s : ScalarShape} {b : Bool} (ha : shape a = .scalar s)
    (hthere : s.absent = false) (hb : s.truth = some b) : Shows (.bool b) a
  | int {a : α} {s : ScalarShape} {i : Int} {n : Nat} (ha : shape a = .scalar s)
    (hthere : s.absent = false) (hn : s.natural = some n) (hi : i = n) : Shows (.int i) a
  | text {a : α} {s : ScalarShape} {t : String} (ha : shape a = .scalar s)
    (hthere : s.absent = false) (ht : s.text = some t) : Shows (.text t) a
  | table {a : α} {entries : List (String × Document)} {found : List (Option String × α)}
    (ha : shape a = .table found) (hfound : ShowsAll entries found) : Shows (.table entries) a

inductive ShowsAll : List (String × Document) → List (Option String × α) → Prop
  | nil : ShowsAll [] []
  | cons {k : String} {d : Document} {a : α} {entries : List (String × Document)}
    {found : List (Option String × α)} (ha : Shows d a) (hfound : ShowsAll entries found) :
    ShowsAll ((k, d) :: entries) ((some k, a) :: found)
  | skip {k : String} {entries : List (String × Document)} {found : List (Option String × α)}
    (hfound : ShowsAll entries found) : ShowsAll ((k, .null) :: entries) found
end

mutual
def Simple (limit : Nat) (isKey : String → Prop) : Document → Prop
  | .null | .bool _ | .text _ => True
  | .int i => ∃ n : Nat, n ≤ limit ∧ i = n
  | .table entries => entries ≠ [] ∧ SimpleAll limit isKey entries
  | .number _ | .list _ => False

def SimpleAll (limit : Nat) (isKey : String → Prop) : List (String × Document) → Prop
  | [] => True
  | (k, d) :: entries => isKey k ∧ Simple limit isKey d ∧ SimpleAll limit isKey entries
end

theorem SimpleAll.mem {limit : Nat} {isKey : String → Prop} {entries : List (String × Document)}
    (h : SimpleAll limit isKey entries) {e : String × Document} (he : e ∈ entries) :
    isKey e.1 ∧ Simple limit isKey e.2 := by
  induction entries with
  | nil => cases he
  | cons e' entries ih =>
    cases List.mem_cons.mp he with
    | inl he => exact he ▸ ⟨h.1, h.2.1⟩
    | inr he => exact ih h.2.2 he

/-- What holds of single values, and of a table whose values have it, holds of all these documents. -/
theorem Simple.elim {limit : Nat} {isKey : String → Prop} {motive : Document → Prop}
    (null : motive .null) (bool : ∀ b, motive (.bool b))
    (int : ∀ n : Nat, n ≤ limit → motive (.int n)) (text : ∀ t, motive (.text t))
    (table : ∀ k d entries, (∀ e ∈ (k, d) :: entries,
      isKey e.1 ∧ Simple limit isKey e.2 ∧ motive e.2) → motive (.table ((k, d) :: entries))) :
    ∀ d, Simple limit isKey d → motive d
  | .null, _ => null
  | .bool b, _ => bool b
  | .int i, ⟨n, hn, hi⟩ => hi ▸ int n hn
  | .text t, _ => text t
  | .table [], h => absurd rfl h.1
  | .table ((k, d) :: entries), h => table k d entries fun e he =>
    have hlt : sizeOf e.2 < sizeOf (Document.table ((k, d) :: entries)) := by
      have hmem := List.sizeOf_lt_of_mem he
      have hpair : sizeOf e = 1 + sizeOf e.1 + sizeOf e.2 := rfl
      simp only [Document.table.sizeOf_spec, List.cons.sizeOf_spec] at hmem ⊢
      omega
    ⟨(h.2.mem he).1, (h.2.mem he).2, Simple.elim null bool int text table e.2 (h.2.mem he).2⟩
  termination_by d => sizeOf d
  decreasing_by exact hlt

variable {shape} {a : α} {i : Nat} {seen : List Nat} {f : Field α ρ} {fields : List (Field α ρ)}
  {entries : List (String × Document)} {found : List (Option String × α)} {start r r' r'' : ρ}

theorem ShowsAll.append {entries' : List (String × Document)} {found' : List (Option String × α)}
    (h : ShowsAll shape entries found) (h' : ShowsAll shape entries' found') :
    ShowsAll shape (entries ++ entries') (found ++ found') := by
  induction entries generalizing found with
  | nil =>
    cases h
    exact h'
  | cons e entries ih =>
    cases h with
    | cons ha hfound => exact .cons ha (ih hfound)
    | skip hfound => exact .skip (ih hfound)

theorem Shows.truth? {v : Option Bool} (h : Shows shape (.opt .bool v) a) :
    (shape a).truth? = some v := by
  cases v with
  | none =>
    cases h with
    | null ha habsent => simp [ha, Shape.truth?, Shape.optional, habsent]
  | some b =>
    cases h with
    | bool ha hthere hb => simp [ha, Shape.truth?, Shape.optional, hthere, hb]

theorem Shows.text? {v : Option String} (h : Shows shape (.opt .text v) a) :
    (shape a).text? = some v := by
  cases v with
  | none =>
    cases h with
    | null ha habsent => simp [ha, Shape.text?, Shape.optional, habsent]
  | some t =>
    cases h with
    | text ha hthere ht => simp [ha, Shape.text?, Shape.optional, hthere, ht]

theorem Shows.natural? {v : Option Nat} {limit : Nat} (h : Shows shape (.opt .nat v) a)
    (hv : ∀ n ∈ v, n ≤ limit) : (shape a).natural? limit = some v := by
  cases v with
  | none =>
    cases h with
    | null ha habsent => simp [ha, Shape.natural?, Shape.optional, habsent]
  | some n =>
    cases h with
    | int ha hthere hn hi =>
      obtain rfl := Int.ofNat.inj hi
      simp [ha, Shape.natural?, Shape.optional, hthere, hn, Option.filter, hv n rfl]

variable (shape) in
structure Fits (f : Field α ρ) (d : Document) (before after : ρ) : Prop where
  take : ∀ a, Shows shape d a → f.take a before = some after
  keep : d = .null → after = before

variable (shape) in
inductive Fills (fields : List (Field α ρ)) : Nat → List (String × Document) → ρ → ρ → Prop
  | nil {i : Nat} {r : ρ} : Fills fields i [] r r
  | cons {i : Nat} {f : Field α ρ} {k : String} {d : Document}
    {entries : List (String × Document)} {r r' r'' : ρ} (hf : fields[i]? = some f)
    (hk : fields.findIdx? (·.names.contains k) = some i) (hfits : Fits shape f d r r')
    (hrest : Fills fields (i + 1) entries r' r'') : Fills fields i ((k, d) :: entries) r r''

theorem Fills.takeEntries (h : Fills shape fields i entries r r') (hseen : ∀ j ∈ seen, j < i)
    (hfound : ShowsAll shape entries found) :
    Shape.takeEntries fields seen found r = some r' := by
  induction h generalizing seen found with
  | nil =>
    cases hfound
    rfl
  | @cons i f k d entries r r' r'' hf hk hfits hrest ih =>
    cases hfound with
    | skip hfound =>
      obtain rfl := hfits.keep rfl
      exact ih (fun j hj => Nat.lt_succ_of_lt (hseen j hj)) hfound
    | cons ha hfound =>
      have hnew : seen.contains i = false := by
        simpa using fun hi => Nat.lt_irrefl i (hseen i hi)
      have hseen' : ∀ j ∈ i :: seen, j < i + 1 := by
        intro j hj
        cases List.mem_cons.mp hj with
        | inl hj => exact hj ▸ Nat.lt_succ_self i
        | inr hj => exact Nat.lt_succ_of_lt (hseen j hj)
      simp only [Shape.takeEntries, Option.bind_eq_bind, Option.bind_some, hk, hnew, hf,
        hfits.take _ ha, Bool.false_eq_true, if_false]
      exact ih hseen' hfound

/-- A record is read from a value that shows a table with its fields. -/
theorem Fills.record (h : Fills shape fields 0 entries start r)
    (ha : Shows shape (.table entries) a) : (shape a).record fields start = some r := by
  cases ha with
  | table ha hfound =>
    rw [ha]
    exact h.takeEntries (by simp) hfound

end HostVitals.Document
