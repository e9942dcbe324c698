/-
Httpe.Schema.Columns — the column types of `schemas/ddl`.

A column holds what PostgreSQL stores after coercing the given value to
its type. A UUID is read from its text: hexadecimal digits in either case,
a hyphen after every second byte or not, braces around it or not. It is
printed in one way only, which reads back (`uuid_uuidText`).
VARCHAR(n) and CHAR(n) refuse a longer text unless the excess is blanks,
and no text has a NUL in it. NUMERIC(18, 4) rounds half away from zero,
refuses what does not fit and takes NaN, which compares above every
number. A missing value takes the column's default.
-/
import Mathlib.Algebra.Order.Field.Rat
import Mathlib.Data.Rat.Floor
import Mathlib.Tactic.Ring

namespace Httpe.Schema

/-! ## Cells -/

/-- What an INSERT gives for a column; `default` also stands for a column
it does not name. -/
inductive Cell (α : Type) where
  | default
  | null
  | value (a : α)
  deriving DecidableEq

/-- The value to store, `none` for NULL. -/
def Cell.resolve {α : Type} (columnDefault : Option α) : Cell α → Option α
  | default => columnDefault
  | null => none
  | value a => some a

/-- A column without NOT NULL. -/
def nullable {α β : Type} (column : α → Option β) : Option α → Option (Option β)
  | none => some none
  | some a => (column a).map some

/-! ## UUID -/

abbrev Uuid := BitVec 128

def hexDigit (c : Char) : Option ℕ :=
  if '0' ≤ c ∧ c ≤ '9' then some (c.toNat - 48)
  else if 'a' ≤ c ∧ c ≤ 'f' then some (c.toNat - 87)
  else if 'A' ≤ c ∧ c ≤ 'F' then some (c.toNat - 55)
  else none

/-- The bytes still to be read, on top of `value`, and the text after
them. A hyphen may follow every second byte but the last. -/
def uuidBytes : ℕ → ℕ → List Char → Option (ℕ × List Char)
  | 0, value, cs => some (value, cs)
  | left + 1, value, c :: d :: cs => do
      let high ← hexDigit c
      let low ← hexDigit d
      uuidBytes left (256 * value + 16 * high + low)
        (if left % 2 = 0 ∧ left ≠ 0 ∧ cs.head? = some '-' then cs.tail else cs)
  | _ + 1, _, _ => none

/-- The text of a UUID, with the texts its braces are. -/
def uuidWithin (opening closing : List Char) (s : String) : Option Uuid :=
  if opening.isPrefixOf s.toList then
    (uuidBytes 16 0 (s.toList.drop opening.length)).bind fun (value, rest) =>
      if rest = closing then some (BitVec.ofNat 128 value) else none
  else none

/-- UUID, from a text. -/
def uuid (s : String) : Option Uuid :=
  (uuidWithin [Char.ofNat 123] [Char.ofNat 125] s).or (uuidWithin [] [] s)

def hexChar (d : ℕ) : Char := if d < 10 then Char.ofNat (48 + d) else Char.ofNat (87 + d)

/-- The last bytes of a value, two digits each, with the hyphens of
8-4-4-4-12. -/
def uuidChars : ℕ → ℕ → List Char
  | 0, _ => []
  | left + 1, value =>
      hexChar (value / 256 ^ left / 16 % 16) :: hexChar (value / 256 ^ left % 16) ::
        if left ∈ [12, 10, 8, 6] then '-' :: uuidChars left value else uuidChars left value

/-- A UUID as PostgreSQL prints it. -/
def uuidText (u : Uuid) : String := String.ofList (uuidChars 16 u.toNat)

theorem hexDigit_hexChar {d : ℕ} (h : d < 16) : hexDigit (hexChar d) = some d := by
  revert d
  decide

/-- No digit is a hyphen or a brace. -/
theorem hexChar_ne {d : ℕ} (h : d < 16) : hexChar d ≠ '-' ∧ hexChar d ≠ Char.ofNat 123 := by
  revert d
  decide

theorem head_uuidChars_ne (left value : ℕ) : (uuidChars left value).head? ≠ some '-' := by
  cases left with
  | zero => simp [uuidChars]
  | succ left => simpa [uuidChars] using (hexChar_ne (Nat.mod_lt _ (by decide))).1

/-- What is printed of the last bytes is read back. -/
theorem uuidBytes_uuidChars (value : ℕ) :
    ∀ left high, uuidBytes left high (uuidChars left value)
      = some (high * 256 ^ left + value % 256 ^ left, []) := by
  intro left
  induction left with
  | zero => intro high; simp [uuidChars, uuidBytes, Nat.mod_one]
  | succ left ih =>
      intro high
      -- the reader is at the same byte as the printer, with its hyphen
      have hrest : (if left % 2 = 0 ∧ left ≠ 0 ∧
          (if left ∈ [12, 10, 8, 6] then '-' :: uuidChars left value
            else uuidChars left value).head? = some '-' then
          (if left ∈ [12, 10, 8, 6] then '-' :: uuidChars left value
            else uuidChars left value).tail
        else if left ∈ [12, 10, 8, 6] then '-' :: uuidChars left value
          else uuidChars left value) = uuidChars left value := by
        by_cases hhyphen : left ∈ [12, 10, 8, 6]
        · have heven : left % 2 = 0 ∧ left ≠ 0 := by
            simp only [List.mem_cons, List.not_mem_nil, or_false] at hhyphen
            omega
          simp [hhyphen, heven]
        · simp [hhyphen, head_uuidChars_ne]
      simp only [uuidChars, uuidBytes, hexDigit_hexChar (Nat.mod_lt _ (by decide : 0 < 16)),
        Option.bind_eq_bind, Option.bind_some, hrest, ih, Option.some.injEq, Prod.mk.injEq,
        and_true]
      have hbyte : value / 256 ^ left % 256
          = 16 * (value / 256 ^ left / 16 % 16) + value / 256 ^ left % 16 := by omega
      rw [Nat.mod_pow_succ, hbyte, pow_succ]
      ring

theorem uuid_uuidText (u : Uuid) : uuid (uuidText u) = some u := by
  have hread := uuidBytes_uuidChars u.toNat 16 0
  have hlt : u.toNat % 256 ^ 16 = u.toNat := Nat.mod_eq_of_lt u.isLt
  rw [hlt, Nat.zero_mul, Nat.zero_add] at hread
  have hbrace : [Char.ofNat 123].isPrefixOf (uuidChars 16 u.toNat) = false := by
    have hne := (hexChar_ne (Nat.mod_lt (u.toNat / 256 ^ 15 / 16) (by decide : 0 < 16))).2
    simp only [uuidChars, List.isPrefixOf, Bool.and_true, beq_eq_false_iff_ne]
    exact hne.symm
  simp [uuid, uuidWithin, uuidText, hbrace, hread]

theorem uuidText_injective {u v : Uuid} (h : uuidText u = uuidText v) : u = v := by
  have hread := uuid_uuidText u
  rw [h, uuid_uuidText] at hread
  exact (Option.some.inj hread).symm

example : uuid "a0eebc99-9c0b-4ef8-bb6d-6bb9bd380a11" = some 0xa0eebc999c0b4ef8bb6d6bb9bd380a11 :=
  by decide +kernel

/-! ## Texts -/

/-- VARCHAR(n). -/
def varchar (n : ℕ) (s : String) : Option String :=
  if s.toList.any (· = Char.ofNat 0) then none
  else if s.length ≤ n then some s
  else if (s.toList.drop n).all (· = ' ') then some (String.ofList (s.toList.take n))
  else none

/-- CHAR(n). -/
def bpchar (n : ℕ) (s : String) : Option String :=
  (varchar n s).map fun s => s ++ String.ofList (List.replicate (n - s.length) ' ')

def nulFree (s : String) : Bool := s.toList.all fun c => decide (c ≠ Char.ofNat 0)

/-- JSONB, of an object with one text in it. -/
def jsonb (s : String) : Option String := if nulFree s then some s else none

theorem nulFree_append {s t : String} :
    nulFree (s ++ t) = true ↔ nulFree s = true ∧ nulFree t = true := by
  simp [nulFree, String.toList_append, List.all_append]

theorem varchar_isSome {n : ℕ} {s : String} : (varchar n s).isSome = true ↔
    nulFree s = true ∧ (s.length ≤ n ∨ (s.toList.drop n).all (· = ' ') = true) := by
  unfold varchar
  split
  · rename_i hnul
    have hfree : nulFree s = false := by
      rw [← Bool.not_eq_true]
      intro hfree
      obtain ⟨c, hc, heq⟩ := List.any_eq_true.mp hnul
      exact of_decide_eq_true (List.all_eq_true.mp hfree c hc) (of_decide_eq_true heq)
    simp [hfree]
  · rename_i hnul
    have hfree : nulFree s = true := by
      refine List.all_eq_true.mpr fun c hc => decide_eq_true fun heq => hnul ?_
      exact List.any_eq_true.mpr ⟨c, hc, decide_eq_true heq⟩
    by_cases hlength : s.length ≤ n
    · simp [hfree, hlength]
    · by_cases hblank : (s.toList.drop n).all (· = ' ') = true
      · simp [hfree, hlength, hblank]
      · simp [hfree, hlength, hblank]

/-! ## Numbers and times -/

/-- A NUMERIC value before it is stored. -/
inductive Numeric where
  | finite (x : ℚ)
  | nan
  | infinity
  | negInfinity
  deriving DecidableEq

def roundHalfAway (x : ℚ) : ℤ := if 0 ≤ x then ⌊x + 1 / 2⌋ else ⌈x - 1 / 2⌉

/-- NUMERIC(18, 4). -/
def Numeric.column : Numeric → Option Numeric
  | finite x =>
      if |(roundHalfAway (x * 10 ^ 4) : ℚ)| < 10 ^ 18 then
        some (finite (roundHalfAway (x * 10 ^ 4) / 10 ^ 4))
      else none
  | nan => some nan
  | infinity | negInfinity => none

/-- INTEGER. -/
def integer (n : ℤ) : Option ℤ := if -2 ^ 31 ≤ n ∧ n < 2 ^ 31 then some n else none

def Numeric.gtZero : Numeric → Bool
  | finite x => decide (0 < x)
  | nan | infinity => true
  | negInfinity => false

def Numeric.geZero : Numeric → Bool
  | finite x => decide (0 ≤ x)
  | nan | infinity => true
  | negInfinity => false

/-- A TIMESTAMPTZ, in microseconds from 1970-01-01 00:00:00+00. -/
inductive Timestamptz where
  | negInfinity
  | at (microseconds : ℤ)
  | infinity
  deriving DecidableEq, Repr

/-- `FOR VALUES FROM (lo) TO (hi)`: the lower bound belongs to it. -/
def Timestamptz.within (lo hi : ℤ) : Timestamptz → Bool
  | .at t => decide (lo ≤ t ∧ t < hi)
  | negInfinity | infinity => false

end Httpe.Schema
