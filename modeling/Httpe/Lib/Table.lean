/-
Httpe.Lib.Table — tables with a primary key and row checks.

A table is a list of rows in which no two have the same key and each
passes the check. SELECT, UPDATE and INSERT are stated on the rows, with
no regard to keys: a SELECT filters, an UPDATE writes every row that
meets its condition and tells how many there were, and either is refused
as a whole when a row it would leave fails the check.

* `find` is the row with a given key. What each statement does to it
  (`find_insert`, `find_update`) is what a program that keeps one row
  for each key needs to know.
* A condition that asks for one key meets one row at most:
  `select_of_key`, `update_of_key`.
-/
import Mathlib.Data.List.Nodup

namespace Httpe

variable {ρ κ : Type*}

structure Table (key : ρ → κ) (check : ρ → Bool) where
  rows : List ρ
  /-- PRIMARY KEY. -/
  primaryKey : (rows.map key).Nodup
  /-- NOT NULL, CHECK and the types of the columns. -/
  checked : ∀ row ∈ rows, check row = true

/-- What a SET makes of a row; the key is not assigned to. -/
structure Assignment (key : ρ → κ) where
  set : ρ → ρ
  key_set : ∀ row, key (set row) = key row

namespace Table

variable {key : ρ → κ} {check : ρ → Bool}

def empty : Table key check := ⟨[], List.nodup_nil, by simp⟩

/-- `SELECT … WHERE p`. -/
def select (table : Table key check) (p : ρ → Bool) : List ρ := table.rows.filter p

/-- The row as `UPDATE … SET … WHERE p` leaves it. -/
def assign (p : ρ → Bool) (f : Assignment key) (row : ρ) : ρ := if p row then f.set row else row

theorem key_assign (p : ρ → Bool) (f : Assignment key) (row : ρ) :
    key (assign p f row) = key row := by
  unfold assign
  split
  · exact f.key_set row
  · rfl

/-- `UPDATE … SET … WHERE p`, with the number of rows updated; `none` is
an error, and the table stays as it was. -/
def update (table : Table key check) (p : ρ → Bool) (f : Assignment key) :
    Option (ℕ × Table key check) :=
  if h : ∀ row ∈ table.rows, check (assign p f row) = true then
    some (table.rows.countP p,
      { rows := table.rows.map (assign p f)
        primaryKey := by
          rw [List.map_map, show key ∘ assign p f = key from funext (key_assign p f)]
          exact table.primaryKey
        checked := by
          intro row hrow
          obtain ⟨old, hold, rfl⟩ := List.mem_map.mp hrow
          exact h old hold })
  else none

variable [DecidableEq κ]

/-- `INSERT`; `none` is an error. -/
def insert (table : Table key check) (row : ρ) : Option (Table key check) :=
  if h : check row = true ∧ key row ∉ table.rows.map key then
    some
      { rows := table.rows ++ [row]
        primaryKey := by
          rw [List.map_append]
          exact List.nodup_append.mpr ⟨table.primaryKey, List.nodup_singleton _,
            fun k hk k' hk' heq => h.2 (List.mem_singleton.mp hk' ▸ heq ▸ hk)⟩
        checked := by
          intro q hq
          rcases List.mem_append.mp hq with hq | hq
          · exact table.checked q hq
          · rw [List.mem_singleton.mp hq]
            exact h.1 }
  else none

/-- An INSERT and whether it was accepted; a refused one leaves the
table. -/
def insertInto (table : Table key check) (row : ρ) : Bool × Table key check :=
  match table.insert row with
  | some table => (true, table)
  | none => (false, table)

/-- An INSERT of a row that its types may already have refused. -/
def insertRow (table : Table key check) : Option ρ → Bool × Table key check
  | none => (false, table)
  | some row => table.insertInto row

theorem rows_insert {table table' : Table key check} {row : ρ}
    (h : table.insert row = some table') : table'.rows = table.rows ++ [row] := by
  unfold insert at h
  split at h
  · cases h
    rfl
  · cases h

/-- The row with the key `k`. -/
def find (table : Table key check) (k : κ) : Option ρ := table.rows.find? fun row => key row = k

variable {table table' : Table key check} {p : ρ → Bool} {f : Assignment key} {row : ρ} {k : κ}

omit [DecidableEq κ] in
/-- Rows with one key are one row. -/
theorem eq_of_key {q : ρ} (hrow : row ∈ table.rows) (hq : q ∈ table.rows)
    (hkey : key row = key q) : row = q :=
  List.inj_on_of_nodup_map table.primaryKey hrow hq hkey

theorem find_eq_some : table.find k = some row ↔ row ∈ table.rows ∧ key row = k := by
  constructor
  · intro hfind
    exact ⟨List.mem_of_find?_eq_some hfind, by simpa using List.find?_some hfind⟩
  · rintro ⟨hrow, hkey⟩
    cases hfind : table.find k with
    | none =>
        have hno := List.find?_eq_none.mp hfind row hrow
        simp [hkey] at hno
    | some q =>
        have hq : key q = k := by simpa using List.find?_some hfind
        rw [eq_of_key hrow (List.mem_of_find?_eq_some hfind) (hkey.trans hq.symm)]

theorem find_eq_none : table.find k = none ↔ k ∉ table.rows.map key := by
  unfold find
  rw [List.find?_eq_none]
  simp

theorem check_of_find {t : Table key check} (h : t.find k = some row) : check row = true :=
  t.checked row (find_eq_some.mp h).1

theorem key_of_find {t : Table key check} (h : t.find k = some row) : key row = k :=
  (find_eq_some.mp h).2

/-- An INSERT is refused exactly when the row fails the check or its key
is taken. -/
theorem insert_eq_none : table.insert row = none ↔
    check row = false ∨ table.find (key row) ≠ none := by
  unfold insert
  split
  · rename_i h
    simp [h.1, find_eq_none.mpr h.2]
  · rename_i h
    rw [not_and_or] at h
    simpa [find_eq_none] using h

theorem find_insert (h : table.insert row = some table') (k : κ) :
    table'.find k = if key row = k then some row else table.find k := by
  unfold find
  rw [rows_insert h, List.find?_append]
  by_cases hk : key row = k
  · have hnew : ¬ (table.insert row = none) := by simp [h]
    rw [insert_eq_none, not_or, not_not, hk] at hnew
    have hnone := hnew.2
    unfold find at hnone
    simp [hnone, hk]
  · simp [hk]

theorem find_update {n : ℕ} (h : table.update p f = some (n, table')) (k : κ) :
    table'.find k = (table.find k).map (assign p f) := by
  unfold update at h
  split at h
  · cases h
    unfold find
    rw [List.find?_map]
    simp only [Function.comp_def, key_assign]
  · cases h

/-- An UPDATE is refused exactly when a row it would leave fails the
check. -/
theorem update_eq_none : table.update p f = none ↔
    ∃ k row, table.find k = some row ∧ p row = true ∧ check (f.set row) = false := by
  unfold update
  split
  · rename_i h
    simp only [reduceCtorEq, false_iff]
    rintro ⟨k, row, hfind, hp, hcheck⟩
    have hrow := h row (find_eq_some.mp hfind).1
    simp [assign, hp, hcheck] at hrow
  · rename_i h
    simp only [true_iff]
    push Not at h
    obtain ⟨row, hrow, hcheck⟩ := h
    refine ⟨key row, row, find_eq_some.mpr ⟨hrow, rfl⟩, ?_⟩
    by_cases hp : p row = true
    · simpa [assign, hp] using hcheck
    · exact absurd (table.checked row hrow) (by simpa [assign, hp] using hcheck)

/-! ## Conditions on the key -/

/-- The rows that meet a condition which asks for the key `k`. -/
theorem select_of_key {t : Table key check} (hp : ∀ row, p row = true → key row = k) :
    t.select p = ((t.find k).filter p).toList := by
  unfold select
  cases hfind : t.find k with
  | none =>
      have hno := find_eq_none.mp hfind
      show t.rows.filter p = []
      rw [List.filter_eq_nil_iff]
      exact fun row hrow hmeets => hno (hp row hmeets ▸ List.mem_map_of_mem hrow)
  | some row =>
      obtain ⟨hrow, hkey⟩ := find_eq_some.mp hfind
      obtain ⟨l, r, hsplit⟩ := List.append_of_mem hrow
      have hnodup := t.primaryKey
      rw [hsplit, List.map_append, List.map_cons] at hnodup
      have hothers : ∀ q, q ∈ l ∨ q ∈ r → ¬ p q = true := by
        intro q hq hmeets
        have hsame : key q = key row := (hp q hmeets).trans hkey.symm
        rcases hq with hq | hq
        · exact (List.nodup_append.mp hnodup).2.2 _ (List.mem_map_of_mem hq) _
            List.mem_cons_self hsame
        · exact (List.nodup_cons.mp (List.nodup_append.mp hnodup).2.1).1
            (hsame ▸ List.mem_map_of_mem hq)
      rw [hsplit, List.filter_append, List.filter_cons,
        List.filter_eq_nil_iff.mpr fun q hq => hothers q (.inl hq),
        List.filter_eq_nil_iff.mpr fun q hq => hothers q (.inr hq)]
      by_cases hmeets : p row = true
      · simp [hmeets, Option.filter]
      · simp [hmeets, Option.filter]

/-- An UPDATE under such a condition writes one row or none. -/
theorem update_of_key {n : ℕ} (hp : ∀ row, p row = true → key row = k)
    (h : table.update p f = some (n, table')) : n = if (table.find k).any p then 1 else 0 := by
  unfold update at h
  split at h
  · cases h
    have hselect : table.rows.filter p = ((table.find k).filter p).toList := select_of_key hp
    rw [List.countP_eq_length_filter, hselect]
    cases table.find k with
    | none => rfl
    | some row =>
        by_cases hmeets : p row = true
        · simp [hmeets, Option.filter]
        · simp [hmeets, Option.filter]
  · cases h

end Table

end Httpe
