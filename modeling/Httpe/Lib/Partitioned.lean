/-
Httpe.Lib.Partitioned — a table cut into partitions.

A row is routed to one partition, and an INSERT tests the primary key
there and nowhere else. Where the key decides the route, that is enough
(`Represents.insertInto`): the INSERT is answered as by one table, and
each partition has the rows of that table that are routed to it, in their
order. What is summed over all partitions is then the sum over the one
table.
-/
import Httpe.Lib.Simulation
import Httpe.Lib.Table
import Mathlib.Algebra.BigOperators.Group.Finset.Piecewise

namespace Httpe

variable {ρ κ π : Type*} [DecidableEq κ] [DecidableEq π] {key : ρ → κ} {check : ρ → Bool}
  {route : ρ → π}

/-- The partitions, each with rows that belong there. -/
structure Partitioned (key : ρ → κ) (check : ρ → Bool) (route : ρ → π) where
  part : π → Table key check
  routed : ∀ p, ∀ row ∈ (part p).rows, route row = p

namespace Partitioned

def empty : Partitioned key check route := ⟨fun _ => Table.empty, by simp [Table.empty]⟩

/-- The row is inserted into its partition. -/
def insertInto (table : Partitioned key check route) (row : ρ) :
    Bool × Partitioned key check route :=
  match h : (table.part (route row)).insert row with
  | none => (false, table)
  | some target =>
      (true,
        { part := Function.update table.part (route row) target
          routed := by
            intro p q hq
            by_cases hp : p = route row
            · subst hp
              rw [Function.update_self, Table.rows_insert h] at hq
              rcases List.mem_append.mp hq with hq | hq
              · exact table.routed _ q hq
              · rw [List.mem_singleton.mp hq]
            · rw [Function.update_of_ne hp] at hq
              exact table.routed p q hq })

def insertRow (table : Partitioned key check route) :
    Option ρ → Bool × Partitioned key check route
  | none => (false, table)
  | some row => table.insertInto row

/-- The partitions are what the routes make of one table. -/
def Represents (table : Partitioned key check route) (flat : Table key check) : Prop :=
  ∀ p, (table.part p).rows = flat.rows.filter fun row => route row = p

variable {table : Partitioned key check route} {flat : Table key check} {row : ρ}

omit [DecidableEq κ] in
/-- A key is taken in its partition exactly when it is taken anywhere. -/
theorem Represents.mem_key (h : table.Represents flat)
    (hroute : ∀ q row, key q = key row → route q = route row) :
    key row ∈ (table.part (route row)).rows.map key ↔ key row ∈ flat.rows.map key := by
  rw [h (route row)]
  simp only [List.mem_map, List.mem_filter, decide_eq_true_eq]
  constructor
  · rintro ⟨q, ⟨hq, -⟩, hkey⟩
    exact ⟨q, hq, hkey⟩
  · rintro ⟨q, hq, hkey⟩
    exact ⟨q, ⟨hq, hroute q row hkey⟩, hkey⟩

theorem Represents.insertInto (h : table.Represents flat)
    (hroute : ∀ q row, key q = key row → route q = route row) (row : ρ) :
    (table.insertInto row).1 = (flat.insertInto row).1 ∧
      (table.insertInto row).2.Represents (flat.insertInto row).2 := by
  have hkey : (table.part (route row)).insert row = none ↔ flat.insert row = none := by
    rw [Table.insert_eq_none, Table.insert_eq_none, ne_eq, ne_eq, Table.find_eq_none,
      Table.find_eq_none, h.mem_key hroute]
  unfold Partitioned.insertInto Table.insertInto
  split
  · rename_i hnone
    rw [hkey.mp hnone]
    exact ⟨rfl, h⟩
  · rename_i target hsome
    cases hflat : flat.insert row with
    | none => rw [hkey.mpr hflat] at hsome; cases hsome
    | some flat' =>
        refine ⟨rfl, ?_⟩
        intro p
        show (Function.update table.part (route row) target p).rows
          = flat'.rows.filter fun q => route q = p
        rw [Table.rows_insert hflat, List.filter_append, ← h p]
        by_cases hp : p = route row
        · subst hp
          rw [Function.update_self, Table.rows_insert hsome]
          simp
        · rw [Function.update_of_ne hp]
          simp [Ne.symm hp]

theorem Represents.insertRow (h : table.Represents flat)
    (hroute : ∀ q row, key q = key row → route q = route row) (row : Option ρ) :
    (table.insertRow row).1 = (flat.insertRow row).1 ∧
      (table.insertRow row).2.Represents (flat.insertRow row).2 := by
  cases row with
  | none => exact ⟨rfl, h⟩
  | some row => exact h.insertInto hroute row

/-- After any INSERTs the partitions are those of one table, which has
accepted the same INSERTs. -/
theorem represents_after {ε : Type*} (hroute : ∀ q row, key q = key row → route q = route row)
    (row : ε → Option ρ) (es : List ε) :
    outputs (fun (table : Partitioned key check route) e => table.insertRow (row e)) .empty es
        = outputs (fun (flat : Table key check) e => flat.insertRow (row e)) .empty es ∧
      (after (fun (table : Partitioned key check route) e => table.insertRow (row e)) .empty
        es).Represents (after (fun flat e => flat.insertRow (row e)) .empty es) :=
  outputs_eq_of_simulation
    (fun (table : Partitioned key check route) (flat : Table key check) => table.Represents flat)
    (fun _ _ e h => h.insertRow hroute (row e)) es fun _ => rfl

omit [DecidableEq κ] in
theorem Represents.mem (h : table.Represents flat) :
    (∃ p, row ∈ (table.part p).rows) ↔ row ∈ flat.rows := by
  simp [h _]

omit [DecidableEq κ] in
/-- Rows of any partitions with one key are one row. -/
theorem Represents.eq_of_key (h : table.Represents flat) {p p' : π} {row' : ρ}
    (hrow : row ∈ (table.part p).rows) (hrow' : row' ∈ (table.part p').rows)
    (hkey : key row = key row') : row = row' := by
  rw [h] at hrow hrow'
  exact Table.eq_of_key (List.mem_of_mem_filter hrow) (List.mem_of_mem_filter hrow') hkey

omit [DecidableEq κ] in
/-- What is summed partition by partition. -/
theorem Represents.sum_eq [Fintype π] {M : Type*} [AddCommMonoid M] (h : table.Represents flat)
    (f : ρ → M) : ∑ p, ((table.part p).rows.map f).sum = (flat.rows.map f).sum := by
  have hparts : ∀ p, ((table.part p).rows.map f).sum
      = ((flat.rows.filter fun row => route row = p).map f).sum := fun p => by rw [h p]
  simp only [hparts]
  induction flat.rows with
  | nil => simp
  | cons row rows ih =>
      have hhead : ∀ p, (((row :: rows).filter fun q => route q = p).map f).sum
          = (if route row = p then f row else 0)
            + ((rows.filter fun q => route q = p).map f).sum := by
        intro p
        by_cases hp : route row = p
        · simp [hp]
        · simp [hp]
      simp only [hhead, Finset.sum_add_distrib, ih, List.map_cons, List.sum_cons]
      simp

omit [DecidableEq κ] in
/-- What is counted partition by partition. -/
theorem Represents.countP_eq [Fintype π] (h : table.Represents flat) (f : ρ → Bool) :
    ∑ p, (table.part p).rows.countP f = flat.rows.countP f := by
  have hone : ∀ rows : List ρ, rows.countP f = (rows.map fun row => [row].countP f).sum := by
    intro rows
    have hflat := List.countP_flatMap (p := f) (l := rows) (f := fun row => [row])
    rwa [List.flatMap_singleton'] at hflat
  rw [hone flat.rows, ← h.sum_eq]
  exact Finset.sum_congr rfl fun p _ => hone (table.part p).rows

end Partitioned

end Httpe
