/-
Httpe.Occ.Statements — the mock shard against the statements it stands
for.

`MockDatabaseShard` keeps one record for each account id and each of its
methods quotes the statement it simulates. Here both are driven by the
same operations, in whatever order any number of clients issue them. A
read answers with the rows selected and an update with the number of rows
updated, which the shard reports as `True` and `False`. A record has no
`shard_key`; whoever inserts one computes it from the account id, and
`shardKey` is that computation.

The shard's ids are texts and the table's are UUIDs, which have one text
each that PostgreSQL prints; ids are given in that spelling (`Plain`).
As long as every operation `Fits`, nobody can tell the two apart, and the
rows of the table are the records of the shard. The first operation that
does not fit is the first one PostgreSQL refuses: an id that is no UUID,
an account id that is taken, a row the DDL does not accept, a balance that
leaves its column or its CHECK, a version at the end of BIGINT. The shard
carries it out.
-/
import Httpe.Lib.Decimal
import Httpe.Lib.Simulation
import Httpe.Occ.Snapshot
import Httpe.Schema.Accounts

namespace Httpe.Occ

open Decimal Schema

def AccountStatus.toEnum : AccountStatus → AccountStatusEnum
  | active => .active
  | frozen => .frozen
  | suspended => .suspended

/-- The INSERT of a record. -/
def AccountRecord.toInsert (shardKey : String → ℤ) (account : AccountRecord) : AccountInsert where
  accountId := account.accountId
  userId := account.userId
  availableBalance := account.availableBalance
  ledgerBalance := account.ledgerBalance
  version := account.version
  status := account.status.toEnum
  shardKey := shardKey account.accountId

/-- The row a record is, if a table can hold its ids. -/
def AccountRecord.toRow (shardKey : String → ℤ) (account : AccountRecord) : Option AccountRow := do
  let accountId ← uuid account.accountId
  let userId ← uuid account.userId
  let shardKey ← integer (shardKey account.accountId)
  some { accountId, userId, availableBalance := account.availableBalance,
         ledgerBalance := account.ledgerBalance, version := account.version,
         status := account.status.toEnum, shardKey }

def AccountRecord.view (account : AccountRecord) : AccountView :=
  ⟨account.accountId, account.availableBalance, account.version, account.status.toEnum⟩

def StoreOp.accountId : StoreOp → String
  | insertAccount account => account.accountId
  | getAccountForRead a => a
  | cas c => c.accountId

inductive StoreAnswer where
  | inserted
  | selected (rows : List AccountView)
  | updated (count : ℕ)
  | raised (e : DecimalException)
  deriving DecidableEq, Repr

/-- An operation on the shard, and what the caller learns from it. -/
def MockDatabaseShard.answer (db : MockDatabaseShard) : StoreOp → StoreAnswer × MockDatabaseShard
  | .insertAccount account => (.inserted, db.insertAccount account)
  | .getAccountForRead a =>
      (.selected ((db.getAccountForRead a).toList.map AccountRecord.view), db)
  | .cas c =>
      match c.execute decimalContext.rounding db with
      | (.ok success, db') => (.updated (if success then 1 else 0), db')
      | (.error e, db') => (.raised e, db')

/-- The statement of an operation; `none` is an error. -/
def statement (shardKey : String → ℤ) (table : AccountsTable) :
    StoreOp → Option (StoreAnswer × AccountsTable)
  | .insertAccount account =>
      (AccountsTable.insertAccount table (account.toInsert shardKey)).map
        fun table => (.inserted, table)
  | .getAccountForRead a =>
      (AccountsTable.selectAccount table a).map fun rows => (.selected rows, table)
  | .cas (.debit a x v) =>
      (AccountsTable.updateDebit table a x v).map fun (count, table) => (.updated count, table)
  | .cas (.credit a x v) =>
      (AccountsTable.updateCredit table a x v).map fun (count, table) => (.updated count, table)

/-- A statement that is refused leaves the table. -/
def execute (shardKey : String → ℤ) (table : AccountsTable) (op : StoreOp) :
    Option StoreAnswer × AccountsTable :=
  match statement shardKey table op with
  | some (answer, table) => (some answer, table)
  | none => (none, table)

/-- The rows of the table are the records of the shard, each kept under
its own id. -/
structure Corresponds (shardKey : String → ℤ) (db : MockDatabaseShard) (table : AccountsTable) :
    Prop where
  rows : ∀ u, (table.find u).map some = (db.store (uuidText u)).map (AccountRecord.toRow shardKey)
  own : ∀ a account, db.store a = some account → account.accountId = a

/-- The account id of the operation is spelled as PostgreSQL spells it, if
it is a UUID, and the amounts have at most four decimals. -/
def Plain (op : StoreOp) : Prop :=
  (∀ u, uuid op.accountId = some u → op.accountId = uuidText u) ∧
    match op with
    | .insertAccount account =>
        HasScale 4 account.availableBalance ∧ HasScale 4 account.ledgerBalance
    | .getAccountForRead _ => True
    | .cas c => HasScale 4 c.amount

/-- The account id is a UUID, and what the operation would write is a new
row, or a new balance and version, that the table has a place for. -/
def Fits (shardKey : String → ℤ) (db : MockDatabaseShard) : StoreOp → Prop
  | .insertAccount account =>
      db.store account.accountId = none ∧ ∃ row, account.toRow shardKey = some row ∧ row.Valid
  | .getAccountForRead a => (uuid a).isSome
  | .cas c => (uuid c.accountId).isSome ∧
      ∀ row, db.store c.accountId = some row → c.Admits row →
        0 ≤ row.availableBalance + c.delta ∧ row.availableBalance + c.delta < 10 ^ 14 ∧
          row.version + 1 < 2 ^ 63

/-! ## Rounding -/

theorem roundHalfAway_intCast (n : ℤ) : roundHalfAway n = n := by
  unfold roundHalfAway
  split
  · rw [Int.floor_eq_iff]
    constructor <;> linarith
  · rw [Int.ceil_eq_iff]
    constructor <;> linarith

/-- A number of at most four decimals is stored as it is. -/
theorem scaled_eq_iff {x : ℚ} : scaled x = x ↔ HasScale 4 x := by
  unfold scaled HasScale
  constructor
  · intro h
    refine ⟨roundHalfAway (x * 10 ^ 4), ?_⟩
    rw [zpow_neg, ← div_eq_mul_inv]
    exact h.symm
  · rintro ⟨n, hn⟩
    have hx : x * 10 ^ 4 = n := by
      rw [hn]
      norm_num
      ring
    rw [hx, roundHalfAway_intCast, ← hx]
    norm_num

/-- A balance the column takes is one the decimal context computes. -/
theorem newBalance_of_fits {c : CasCall} {account : AccountRecord}
    (hbalance : HasScale 4 account.availableBalance) (hdelta : HasScale 4 c.delta)
    (hnonneg : 0 ≤ account.availableBalance + c.delta)
    (hlt : account.availableBalance + c.delta < 10 ^ 14) :
    c.newBalance decimalContext.rounding account = some (account.availableBalance + c.delta) := by
  refine decimalContext_round_of_scale (hbalance.add hdelta) ?_
  rw [abs_of_nonneg hnonneg]
  exact hlt.trans (by norm_num)

/-! ## Records and rows -/

variable {shardKey : String → ℤ} {db : MockDatabaseShard} {table table' : AccountsTable}
  {op : StoreOp} {ops : List StoreOp} {c : CasCall} {account : AccountRecord} {row : AccountRow}
  {u : Uuid}

theorem toRow_eq_some (h : account.toRow shardKey = some row) :
    uuid account.accountId = some row.accountId ∧
      row.availableBalance = account.availableBalance ∧ row.version = account.version ∧
      row.status = account.status.toEnum := by
  simp only [AccountRecord.toRow, Option.bind_eq_bind, Option.bind_eq_some_iff,
    Option.some.injEq] at h
  obtain ⟨id, hid, _, -, _, -, rfl⟩ := h
  exact ⟨hid, rfl, rfl, rfl⟩

/-- The INSERT of a record makes its row. -/
theorem row_toInsert (havailable : HasScale 4 account.availableBalance)
    (hledger : HasScale 4 account.ledgerBalance) :
    (account.toInsert shardKey).row = account.toRow shardKey := by
  simp only [AccountInsert.row, AccountRecord.toInsert, AccountRecord.toRow,
    scaled_eq_iff.mpr havailable, scaled_eq_iff.mpr hledger]

theorem toRow_updated (balance : ℚ) :
    (account.updated balance).toRow shardKey
      = (account.toRow shardKey).map fun row =>
          { row with availableBalance := balance, version := row.version + 1 } := by
  simp only [AccountRecord.toRow, AccountRecord.updated]
  cases uuid account.accountId with
  | none => rfl
  | some id =>
      cases uuid account.userId with
      | none => rfl
      | some userId => cases integer (shardKey account.accountId) <;> rfl

theorem toEnum_eq_active {status : AccountStatus} : status.toEnum = .active ↔ status = .active := by
  cases status <;> simp [AccountStatus.toEnum]

theorem view_of_toRow (h : account.toRow shardKey = some row)
    (hid : account.accountId = uuidText row.accountId) : account.view = row.view := by
  obtain ⟨-, hbalance, hversion, hstatus⟩ := toRow_eq_some h
  simp [AccountRecord.view, AccountRow.view, hid, hbalance, hversion, hstatus]

/-! ## One operation -/

/-- The WHERE of an update, with the account id read. -/
def casWhere (c : CasCall) (id : Uuid) : AccountRow → Bool :=
  match c with
  | .debit _ x v => fun row =>
      row.accountId = id ∧ row.version = v ∧ x ≤ row.availableBalance ∧ row.status = .active
  | .credit _ _ v => fun row => row.accountId = id ∧ row.version = v ∧ row.status = .active

theorem statement_cas (hid : uuid c.accountId = some u) :
    statement shardKey table (.cas c)
      = (table.update (casWhere c u) (AccountsTable.addToBalance c.delta)).map
          fun (count, table) => (.updated count, table) := by
  cases c with
  | debit a x v =>
      have ha : uuid a = some u := hid
      simp only [statement, AccountsTable.updateDebit, ha, Option.bind_some]
      rfl
  | credit a x v =>
      have ha : uuid a = some u := hid
      simp only [statement, AccountsTable.updateCredit, ha, Option.bind_some]
      rfl

theorem execute_cas_of_none (hid : uuid c.accountId = some u)
    (h : table.update (casWhere c u) (AccountsTable.addToBalance c.delta) = none) :
    execute shardKey table (.cas c) = (none, table) := by
  simp only [execute, statement_cas hid, h, Option.map_none]

theorem execute_cas_of_some {count : ℕ} (hid : uuid c.accountId = some u)
    (h : table.update (casWhere c u) (AccountsTable.addToBalance c.delta)
      = some (count, table')) :
    execute shardKey table (.cas c) = (some (.updated count), table') := by
  simp only [execute, statement_cas hid, h, Option.map_some]

/-- A text that is no UUID is an error in every statement. -/
theorem execute_of_uuid_none (hid : uuid op.accountId = none) :
    (execute shardKey table op).1 = none := by
  cases op with
  | insertAccount account =>
      have ha : uuid account.accountId = none := hid
      simp [execute, statement, AccountsTable.insertAccount, AccountInsert.row,
        AccountRecord.toInsert, ha]
  | getAccountForRead a =>
      have ha : uuid a = none := hid
      simp [execute, statement, AccountsTable.selectAccount, ha]
  | cas c =>
      cases c with
      | debit a x v =>
          have ha : uuid a = none := hid
          simp [execute, statement, AccountsTable.updateDebit, ha]
      | credit a x v =>
          have ha : uuid a = none := hid
          simp [execute, statement, AccountsTable.updateCredit, ha]

theorem not_fits_of_uuid_none (hid : uuid op.accountId = none) : ¬ Fits shardKey db op := by
  cases op with
  | insertAccount account =>
      rintro ⟨-, row, hrow, -⟩
      have hsome := (toRow_eq_some hrow).1
      rw [show uuid account.accountId = none from hid] at hsome
      cases hsome
  | getAccountForRead a =>
      have ha : uuid a = none := hid
      simp [Fits, ha]
  | cas c =>
      have ha : uuid c.accountId = none := hid
      simp [Fits, ha]

theorem accountId_of_casWhere (h : casWhere c u row = true) : row.accountId = u := by
  cases c with
  | debit a x v => exact (of_decide_eq_true h).1
  | credit a x v => exact (of_decide_eq_true h).1

/-- The WHERE of an update is what the shard tests. -/
theorem casWhere_of_toRow (h : account.toRow shardKey = some row) :
    casWhere c u row = true ↔ row.accountId = u ∧ c.Admits account := by
  obtain ⟨-, hbalance, hversion, hstatus⟩ := toRow_eq_some h
  cases c with
  | debit a x v =>
      simp only [casWhere, decide_eq_true_eq, hbalance, hversion, hstatus, toEnum_eq_active,
        CasCall.Admits]
      tauto
  | credit a x v =>
      simp only [casWhere, decide_eq_true_eq, hversion, hstatus, toEnum_eq_active, CasCall.Admits]
      tauto

/-- A record stored under a UUID has a row in the table. -/
theorem Corresponds.find (h : Corresponds shardKey db table)
    (hrow : db.store (uuidText u) = some account) :
    ∃ row, table.find u = some row ∧ account.toRow shardKey = some row := by
  have hrows := h.rows u
  rw [hrow, Option.map_some, Option.map_eq_some_iff] at hrows
  obtain ⟨row, hfind, hsome⟩ := hrows
  exact ⟨row, hfind, hsome.symm⟩

/-- And a row is a record of the shard. -/
theorem Corresponds.store (h : Corresponds shardKey db table) (hfind : table.find u = some row) :
    ∃ account, db.store (uuidText u) = some account ∧ account.toRow shardKey = some row := by
  have hrows := h.rows u
  rw [hfind, Option.map_some, eq_comm, Option.map_eq_some_iff] at hrows
  exact hrows

theorem valid_of_find (h : table.find u = some row) : row.Valid := by
  have hchecked := Table.check_of_find h
  exact of_decide_eq_true hchecked

/-- Records and rows stay the same if one is written on both sides. -/
theorem Corresponds.put (h : Corresponds shardKey db table)
    (hid : account.accountId = uuidText u) (hrow : account.toRow shardKey = some row)
    (hfind : ∀ v, table'.find v = if v = u then some row else table.find v) :
    Corresponds shardKey (db.put (uuidText u) account) table' := by
  constructor
  · intro v
    rw [hfind v]
    by_cases hv : v = u
    · subst hv
      rw [if_pos rfl, MockDatabaseShard.put_store_self, Option.map_some, Option.map_some, hrow]
    · have hne : uuidText v ≠ uuidText u := fun heq => hv (uuidText_injective heq)
      rw [if_neg hv, MockDatabaseShard.put_store_of_ne _ hne]
      exact h.rows v
  · intro b stored hstored
    by_cases hb : b = uuidText u
    · rw [hb, MockDatabaseShard.put_store_self] at hstored
      cases hstored
      rw [hid, hb]
    · rw [MockDatabaseShard.put_store_of_ne _ hb] at hstored
      exact h.own b stored hstored

/-- Shard and table answer the operation alike and stay alike, or the
table refuses what does not fit. -/
def Matched (shardKey : String → ℤ) (db : MockDatabaseShard) (table : AccountsTable)
    (op : StoreOp) : Prop :=
  (Fits shardKey db op ∧ (execute shardKey table op).1 = some (db.answer op).1 ∧
      Corresponds shardKey (db.answer op).2 (execute shardKey table op).2) ∨
    (¬ Fits shardKey db op ∧ (execute shardKey table op).1 = none)

theorem matched_of_uuid_none (hid : uuid op.accountId = none) : Matched shardKey db table op :=
  .inr ⟨not_fits_of_uuid_none hid, execute_of_uuid_none hid⟩

theorem Corresponds.insertAccount (h : Corresponds shardKey db table)
    (hplain : Plain (.insertAccount account)) :
    Matched shardKey db table (.insertAccount account) := by
  obtain ⟨hspelled, havailable, hledger⟩ := hplain
  have hrow : (account.toInsert shardKey).row = account.toRow shardKey :=
    row_toInsert havailable hledger
  cases htoRow : account.toRow shardKey with
  | none =>
      refine .inr ⟨?_, ?_⟩
      · rintro ⟨-, row, hsome, -⟩
        rw [htoRow] at hsome
        cases hsome
      · simp [execute, statement, AccountsTable.insertAccount, hrow, htoRow]
  | some row =>
      have hid : account.accountId = uuidText row.accountId :=
        hspelled row.accountId (toRow_eq_some htoRow).1
      have hfree : table.find row.accountId = none ↔ db.store account.accountId = none := by
        rw [hid, ← Option.map_eq_none_iff (f := some), h.rows row.accountId,
          Option.map_eq_none_iff]
      cases hinsert : table.insert row with
      | none =>
          refine .inr ⟨?_, ?_⟩
          · rintro ⟨hnew, row', hsome, hvalid⟩
            rw [htoRow] at hsome
            cases hsome
            rcases Table.insert_eq_none.mp hinsert with hcheck | htaken
            · exact of_decide_eq_false hcheck hvalid
            · exact htaken (hfree.mpr hnew)
          · simp [execute, statement, AccountsTable.insertAccount, hrow, htoRow, hinsert]
      | some table' =>
          have hexecute : execute shardKey table (.insertAccount account)
              = (some .inserted, table') := by
            simp [execute, statement, AccountsTable.insertAccount, hrow, htoRow, hinsert]
          have hnone : ¬ (table.insert row = none) := by simp [hinsert]
          rw [Table.insert_eq_none, not_or, not_not, Bool.not_eq_false, decide_eq_true_eq] at hnone
          refine .inl ⟨⟨hfree.mp hnone.2, row, htoRow, hnone.1⟩, congrArg Prod.fst hexecute, ?_⟩
          rw [hexecute]
          show Corresponds shardKey (db.put account.accountId account) table'
          rw [hid]
          refine h.put hid htoRow fun v => ?_
          rw [Table.find_insert hinsert v]
          simp only [eq_comm (a := v)]

theorem Corresponds.getAccountForRead (h : Corresponds shardKey db table) {a : String}
    (hid : uuid a = some u) (ha : a = uuidText u) :
    Matched shardKey db table (.getAccountForRead a) := by
  subst ha
  refine .inl ⟨by simp [Fits, hid], ?_, ?_⟩
  · have hselect := Table.select_of_key (t := table) (p := fun row => row.accountId = u)
      fun row hrow => of_decide_eq_true hrow
    simp only [execute, statement, AccountsTable.selectAccount, hid, Option.map_some, hselect,
      MockDatabaseShard.answer, MockDatabaseShard.getAccountForRead_eq]
    cases hrow : db.store (uuidText u) with
    | none =>
        have hnone : table.find u = none := by
          rw [← Option.map_eq_none_iff (f := some), h.rows u, hrow, Option.map_none]
        simp [hnone]
    | some account =>
        obtain ⟨row, hfind, htoRow⟩ := h.find hrow
        have hkey : row.accountId = u := Table.key_of_find (t := table) hfind
        have hview : account.view = row.view :=
          view_of_toRow htoRow (by rw [h.own _ _ hrow, hkey])
        simp [hfind, Option.filter, hkey, hview]
  · simp only [execute, statement, AccountsTable.selectAccount, hid, Option.map_some]
    exact h

/-- An update whose guards fail meets no row. -/
theorem Corresponds.cas_of_not_admits (h : Corresponds shardKey db table)
    (hid : uuid c.accountId = some u) (hc : c.accountId = uuidText u)
    (hno : ∀ row, db.store c.accountId = some row → ¬ c.Admits row) :
    Matched shardKey db table (.cas c) := by
  have hmeets : ∀ v row, table.find v = some row → casWhere c u row = false := by
    intro v row hfind
    obtain ⟨account, hstore, htoRow⟩ := h.store hfind
    rw [← Bool.not_eq_true, casWhere_of_toRow htoRow]
    rintro ⟨hrow, hadm⟩
    have hv : v = u := (Table.key_of_find (t := table) hfind).symm.trans hrow
    exact hno account (by rw [hc, ← hv]; exact hstore) hadm
  cases hupdate : table.update (casWhere c u) (AccountsTable.addToBalance c.delta) with
  | none =>
      obtain ⟨v, row, hfind, hmeet, -⟩ := Table.update_eq_none.mp hupdate
      rw [hmeets v row hfind] at hmeet
      cases hmeet
  | some result =>
      obtain ⟨count, table'⟩ := result
      have hcount : count = 0 := by
        rw [Table.update_of_key (fun row hrow => accountId_of_casWhere hrow) hupdate]
        cases hfind : table.find u with
        | none => rfl
        | some row => simp [hmeets _ row hfind]
      have hsame : ∀ v, table'.find v = table.find v := by
        intro v
        rw [Table.find_update hupdate v]
        cases hfind : table.find v with
        | none => rfl
        | some row => simp [Table.assign, hmeets v row hfind]
      have hanswer : db.answer (.cas c) = (.updated 0, db) := by
        simp [MockDatabaseShard.answer, CasCall.execute_of_not_admits hno]
      refine .inl ⟨⟨by simp [hid], fun row hrow hadm => absurd hadm (hno row hrow)⟩, ?_, ?_⟩
      · rw [execute_cas_of_some hid hupdate, hanswer, hcount]
      · rw [execute_cas_of_some hid hupdate, hanswer]
        exact ⟨fun v => by rw [hsame v]; exact h.rows v, h.own⟩

/-- What an update whose guards pass makes of the row, and when the table
takes it. -/
theorem valid_addToBalance_iff (hvalid : row.Valid) {delta : ℚ} (hscale : HasScale 4 delta) :
    (AccountsTable.addToBalance delta).set row
        = { row with availableBalance := row.availableBalance + delta
                     version := row.version + 1 } ∧
      (((AccountsTable.addToBalance delta).set row).Valid ↔ 0 ≤ row.availableBalance + delta ∧
        row.availableBalance + delta < 10 ^ 14 ∧ row.version + 1 < 2 ^ 63) := by
  obtain ⟨⟨hround, -⟩, hledger, hversion, -, hpositive⟩ := hvalid
  have hsum : scaled (row.availableBalance + delta) = row.availableBalance + delta :=
    scaled_eq_iff.mpr ((scaled_eq_iff.mp hround).add hscale)
  have hset : (AccountsTable.addToBalance delta).set row
      = { row with availableBalance := row.availableBalance + delta
                   version := row.version + 1 } := by
    simp only [AccountsTable.addToBalance, hsum]
  refine ⟨hset, ?_⟩
  rw [hset]
  constructor
  · rintro ⟨⟨-, hlt⟩, -, ⟨-, hbig⟩, hnonneg, -⟩
    exact ⟨hnonneg, (abs_lt.mp hlt).2, hbig⟩
  · rintro ⟨hnonneg, hlt, hbig⟩
    refine ⟨⟨hsum, ?_⟩, hledger, ⟨?_, hbig⟩, hnonneg, hpositive⟩
    · show |row.availableBalance + delta| < 10 ^ 14
      rwa [abs_of_nonneg hnonneg]
    · exact hversion.1.trans (by simp)

/-- An update whose guards pass meets the one row. -/
theorem Corresponds.cas_of_admits (h : Corresponds shardKey db table)
    (hid : uuid c.accountId = some u) (hc : c.accountId = uuidText u)
    (hscale : HasScale 4 c.amount) (hrow : db.store c.accountId = some account)
    (hadm : c.Admits account) : Matched shardKey db table (.cas c) := by
  obtain ⟨row, hfind, htoRow⟩ := h.find (hc ▸ hrow)
  have hvalid := valid_of_find hfind
  obtain ⟨-, hbalance, hversion, -⟩ := toRow_eq_some htoRow
  obtain ⟨hset, hbounds⟩ := valid_addToBalance_iff hvalid (CasCall.hasScale_delta hscale)
  have hkey : row.accountId = u := Table.key_of_find (t := table) hfind
  have hmeet : casWhere c u row = true := (casWhere_of_toRow htoRow).mpr ⟨hkey, hadm⟩
  have honly : ∀ v q, table.find v = some q → casWhere c u q = true → v = u := by
    intro v q hfound hmeets
    rw [← accountId_of_casWhere hmeets]
    exact (Table.key_of_find (t := table) hfound).symm
  have hfits : Fits shardKey db (.cas c) ↔
      ((AccountsTable.addToBalance c.delta).set row).Valid := by
    rw [hbounds, hbalance, hversion]
    constructor
    · exact fun hall => hall.2 account hrow hadm
    · intro hbounds
      refine ⟨by simp [hid], fun account' hrow' _ => ?_⟩
      rw [hrow] at hrow'
      cases hrow'
      exact hbounds
  cases hupdate : table.update (casWhere c u) (AccountsTable.addToBalance c.delta) with
  | none =>
      obtain ⟨v, q, hfound, hmeets, hcheck⟩ := Table.update_eq_none.mp hupdate
      obtain rfl := honly v q hfound hmeets
      rw [hfind] at hfound
      cases hfound
      refine .inr ⟨fun hfit => of_decide_eq_false hcheck (hfits.mp hfit), ?_⟩
      rw [execute_cas_of_none hid hupdate]
  | some result =>
      obtain ⟨count, table'⟩ := result
      have hcount : count = 1 := by
        rw [Table.update_of_key (fun row hrow => accountId_of_casWhere hrow) hupdate, hfind]
        simp [hmeet]
      have hwritten : ∀ v, table'.find v
          = if v = u then some ((AccountsTable.addToBalance c.delta).set row)
            else table.find v := by
        intro v
        rw [Table.find_update hupdate v]
        by_cases hv : v = u
        · rw [if_pos hv, hv, hfind]
          simp [Table.assign, hmeet]
        · rw [if_neg hv]
          cases hother : table.find v with
          | none => rfl
          | some q =>
              have hmiss : ¬ casWhere c u q = true := fun hmeets => hv (honly v q hother hmeets)
              simp [Table.assign, hmiss]
      have hnew : ((AccountsTable.addToBalance c.delta).set row).Valid :=
        valid_of_find (u := u) (by rw [hwritten, if_pos rfl])
      -- what the column takes the context computes exactly
      obtain ⟨hnonneg, hlt, -⟩ := hbounds.mp hnew
      have hexact := newBalance_of_fits (hbalance ▸ scaled_eq_iff.mp hvalid.1.1)
        (CasCall.hasScale_delta hscale) (hbalance ▸ hnonneg) (hbalance ▸ hlt)
      have hanswer : db.answer (.cas c) = (.updated 1,
          db.put (uuidText u) (account.updated (account.availableBalance + c.delta))) := by
        simp only [MockDatabaseShard.answer, CasCall.execute_of_commits hrow ⟨hadm, hexact⟩]
        rw [hc]
        rfl
      refine .inl ⟨hfits.mpr hnew, ?_, ?_⟩
      · rw [execute_cas_of_some hid hupdate, hanswer, hcount]
      · rw [execute_cas_of_some hid hupdate, hanswer]
        refine h.put ((h.own _ _ hrow).trans hc) ?_ hwritten
        rw [toRow_updated, htoRow, hset, hbalance]
        rfl

theorem Corresponds.matched (h : Corresponds shardKey db table) (hplain : Plain op) :
    Matched shardKey db table op := by
  cases hid : uuid op.accountId with
  | none => exact matched_of_uuid_none hid
  | some u =>
      have hspelled := hplain.1 u hid
      cases op with
      | insertAccount account => exact h.insertAccount hplain
      | getAccountForRead a => exact h.getAccountForRead hid hspelled
      | cas c =>
          by_cases hadm : ∃ row, db.store c.accountId = some row ∧ c.Admits row
          · obtain ⟨row, hrow, hadm⟩ := hadm
            exact h.cas_of_admits hid hspelled hplain.2 hrow hadm
          · push Not at hadm
            exact h.cas_of_not_admits hid hspelled hadm

theorem shard_simulation (shardKey : String → ℤ) :
    RefusingSimulation MockDatabaseShard.answer (execute shardKey) (Fits shardKey) Plain
      (Corresponds shardKey) :=
  fun _ _ _ h hplain => h.matched hplain

/-- **The shard does what it simulates.** Whatever operations come, with
amounts of at most four decimals and account ids in PostgreSQL's spelling:
the table refuses none of them exactly when each fits the shard it is
issued to, and then every answer is the table's and so are the records. -/
theorem shard_answers_as_table (h : Corresponds shardKey db table) (hplain : ∀ op ∈ ops, Plain op) :
    (none ∉ outputs (execute shardKey) table ops ↔
      Along MockDatabaseShard.answer (Fits shardKey) db ops) ∧
    (Along MockDatabaseShard.answer (Fits shardKey) db ops →
      outputs (execute shardKey) table ops = (outputs MockDatabaseShard.answer db ops).map some ∧
        Corresponds shardKey (after MockDatabaseShard.answer db ops)
          (after (execute shardKey) table ops)) :=
  ⟨(shard_simulation shardKey).refuses_none hplain h,
    (shard_simulation shardKey).outputs_eq hplain h⟩

/-- An account as in the source's self-test. -/
def opened : AccountRecord where
  accountId := "3f0a1c52-8d4e-4b7a-9c61-2e5d7f8a9b10"
  userId := "b7c9d2e4-1a3f-4c5d-8e6f-0a1b2c3d4e5f"
  availableBalance := 1500
  ledgerBalance := 1500
  version := 1
  status := .active

/-- It is opened, read and debited, debited again at the version just
spent, and credited. -/
def openedOps : List StoreOp :=
  [.insertAccount opened, .getAccountForRead opened.accountId,
    .cas (.debit opened.accountId 500 1), .cas (.debit opened.accountId 500 1),
    .cas (.credit opened.accountId (5001 / 20) 2)]

theorem openedOps_plain : ∀ op ∈ openedOps, Plain op := by
  have hwhole : ∀ n : ℤ, HasScale 4 (n : ℚ) := hasScale_intCast 4
  have hcredit : HasScale 4 (5001 / 20) := ⟨2500500, by norm_num⟩
  have hspelled : ∀ u, uuid opened.accountId = some u → opened.accountId = uuidText u := by
    have hread : uuid opened.accountId = some 0x3f0a1c528d4e4b7a9c612e5d7f8a9b10 := by
      decide +kernel
    intro u hu
    rw [hread] at hu
    cases hu
    decide +kernel
  intro op hop
  simp only [openedOps, List.mem_cons, List.not_mem_nil, or_false] at hop
  rcases hop with rfl | rfl | rfl | rfl | rfl
  · exact ⟨hspelled, hwhole 1500, hwhole 1500⟩
  · exact ⟨hspelled, trivial⟩
  · exact ⟨hspelled, hwhole 500⟩
  · exact ⟨hspelled, hwhole 500⟩
  · exact ⟨hspelled, hcredit⟩

/-- The table refuses none of them, and would refuse the account a second
time and the self-test's user id, which is no UUID. -/
theorem shard_answers_as_table_opened :
    let shardKey : String → ℤ := fun _ => 3
    let view : AccountView := ⟨opened.accountId, 1500, 1, .active⟩
    outputs (execute shardKey) Table.empty openedOps
      = [some .inserted, some (.selected [view]), some (.updated 1), some (.updated 0),
          some (.updated 1)] ∧
    outputs MockDatabaseShard.answer .empty openedOps
      = [.inserted, .selected [view], .updated 1, .updated 0, .updated 1] ∧
    (execute shardKey (after (execute shardKey) Table.empty openedOps)
      (.insertAccount opened)).1 = none ∧
    (execute shardKey Table.empty
      (.insertAccount { opened with userId := "usr-101" })).1 = none := by
  intro shardKey view
  have hempty : Corresponds shardKey .empty Table.empty := ⟨fun _ => rfl, nofun⟩
  have hanswers := shard_answers_as_table hempty openedOps_plain
  have htable : outputs (execute shardKey) Table.empty openedOps
      = [some .inserted, some (.selected [view]), some (.updated 1), some (.updated 0),
          some (.updated 1)] := by decide +kernel
  have hnone : none ∉ outputs (execute shardKey) Table.empty openedOps := by
    rw [htable]
    simp
  refine ⟨htable, ?_, by decide +kernel, by decide +kernel⟩
  have halike := (hanswers.2 (hanswers.1.mp hnone)).1
  rw [htable] at halike
  exact List.map_injective_iff.mpr (Option.some_injective _) halike.symm

end Httpe.Occ
