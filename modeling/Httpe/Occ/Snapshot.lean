/-
Httpe.Occ.Snapshot — commits on stale snapshots, over all four operations
of `MockDatabaseShard`.

Any number of clients insert accounts, read them and issue the two
updates, in any order. Comparing versions tells a client that its
snapshot is current as long as no version comes back, and the two updates
only count up. `insert_account` replaces a row without looking at the one
it finds, so it can bring an old version back with another balance.

`noStaleCommit_of_freshInserts` is the exact discipline that rules it out:
an ACTIVE row may be inserted under an id only with a version above every
version of that id read so far. The invariant (`Current`) says of every
read so far that either nobody has written the row since and it still is
the snapshot, or no ACTIVE row under that id carries the snapshot's
version any more.
-/
import Httpe.Lib.Run
import Httpe.Occ.Shard

namespace Httpe.Occ

open Decimal

inductive StoreOp where
  | insertAccount (account : AccountRecord)
  | getAccountForRead (accountId : String)
  | cas (c : CasCall)
  deriving DecidableEq, Repr

structure StoreEvent (ι : Type*) where
  client : ι
  op : StoreOp
  deriving DecidableEq

variable {ι : Type*}

def storeStep (rd : Rounding) (db : MockDatabaseShard) (e : StoreEvent ι) :
    Option MockDatabaseShard :=
  match e.op with
  | .insertAccount account => some (db.insertAccount account)
  | .getAccountForRead _ => some db
  | .cas c => some (c.execute rd db).2

abbrev StoreTransition (ι : Type*) := Transition MockDatabaseShard (StoreEvent ι)

/-- Client `i` reads account `a` and gets the snapshot `snap`. -/
def Reads (i : ι) (a : String) (snap : AccountRecord) (t : StoreTransition ι) : Prop :=
  t.event = ⟨i, .getAccountForRead a⟩ ∧ t.pre.getAccountForRead a = some snap

/-- The operation writes the row of account `a`. -/
def Writes (rd : Rounding) (a : String) (t : StoreTransition ι) : Prop :=
  match t.event.op with
  | .insertAccount account => account.accountId = a
  | .getAccountForRead _ => False
  | .cas c => c.accountId = a ∧ (c.execute rd t.pre).1 = .ok true

/-- An update that names the version of its client's own earlier read
returns `True` only if nobody wrote the row since, and then the row is
the snapshot. -/
def NoStaleCommit (rd : Rounding) (tr : List (StoreTransition ι)) : Prop :=
  ∀ l u mid t r i a snap c, tr = l ++ u :: (mid ++ t :: r) → Reads i a snap u →
    t.event = ⟨i, .cas c⟩ → c.accountId = a → c.expectedVersion = snap.version →
    (c.execute rd t.pre).1 = .ok true →
    (∀ v ∈ mid, ¬ Writes rd a v) ∧ t.pre.store a = some snap

/-- An insertion of an ACTIVE row brings back no version that has been
read under its id. -/
def FreshInsert (l : List (StoreTransition ι)) (t : StoreTransition ι) : Prop :=
  ∀ account, t.event.op = .insertAccount account → account.status = .active →
    ∀ u ∈ l, ∀ i snap, Reads i account.accountId snap u → snap.version < account.version

def FreshInserts (tr : List (StoreTransition ι)) : Prop :=
  ∀ l t r, tr = l ++ t :: r → FreshInsert l t

/-- What has become of a snapshot of `a` after the operations `since`. -/
def Current (rd : Rounding) (a : String) (snap : AccountRecord) (since : List (StoreTransition ι))
    (db : MockDatabaseShard) : Prop :=
  ((∀ v ∈ since, ¬ Writes rd a v) ∧ db.store a = some snap) ∨
    ∀ row, db.store a = some row → row.status = .active → snap.version < row.version

variable {rd : Rounding} {db db₀ db' : MockDatabaseShard} {e : StoreEvent ι}
  {tr : List (StoreTransition ι)} {t : StoreTransition ι} {a : String} {snap : AccountRecord}

/-- Everything one operation does to the row of `a`. -/
theorem row_of_storeStep (hstep : storeStep rd t.pre t.event = some t.post) (a : String) :
    (¬ Writes rd a t ∧ t.post.store a = t.pre.store a) ∨
    (∃ account, t.event.op = .insertAccount account ∧ account.accountId = a ∧
      t.post.store a = some account) ∨
    ∃ c row balance, t.event.op = .cas c ∧ c.accountId = a ∧ t.pre.store a = some row ∧
      c.Commits rd row balance ∧ t.post.store a = some (row.updated balance) := by
  obtain ⟨pre, ⟨i, op⟩, post⟩ := t
  cases op with
  | insertAccount account =>
      obtain rfl : pre.insertAccount account = post := Option.some.inj hstep
      by_cases ha : account.accountId = a
      · subst ha
        exact .inr (.inl ⟨account, rfl, rfl, MockDatabaseShard.put_store_self _ _ _⟩)
      · exact .inl ⟨ha, MockDatabaseShard.put_store_of_ne _ (Ne.symm ha) _⟩
  | getAccountForRead b =>
      obtain rfl : pre = post := Option.some.inj hstep
      exact .inl ⟨id, rfl⟩
  | cas c =>
      obtain rfl : (c.execute rd pre).2 = post := Option.some.inj hstep
      rcases c.execute_commits_or_keeps rd pre with
        ⟨row, balance, hrow, hcommits, hex⟩ | ⟨hno, hkept⟩
      · by_cases ha : c.accountId = a
        · subst ha
          refine .inr (.inr ⟨c, row, balance, rfl, rfl, hrow, hcommits, ?_⟩)
          show (c.execute rd pre).2.store c.accountId = some (row.updated balance)
          rw [hex]
          exact MockDatabaseShard.put_store_self _ _ _
        · refine .inl ⟨fun hw => ha hw.1, ?_⟩
          show (c.execute rd pre).2.store a = pre.store a
          rw [hex]
          exact MockDatabaseShard.put_store_of_ne _ (Ne.symm ha) _
      · exact .inl ⟨fun hw => hno hw.2, by simp only [hkept]⟩

theorem Current.step {since : List (StoreTransition ι)} (h : Current rd a snap since t.pre)
    (hstep : storeStep rd t.pre t.event = some t.post)
    (hfresh : ∀ account, t.event.op = .insertAccount account → account.accountId = a →
      account.status = .active → snap.version < account.version) :
    Current rd a snap (since ++ [t]) t.post := by
  rcases row_of_storeStep hstep a with ⟨hno, hpost⟩ | ⟨account, hop, ha, hpost⟩ |
    ⟨c, row, balance, -, -, hrow, hcommits, hpost⟩
  · unfold Current
    rw [hpost]
    exact h.imp_left fun ⟨hquiet, hsnap⟩ => ⟨forall_mem_snoc hquiet hno, hsnap⟩
  · refine .inr fun row hrow hactive => ?_
    rw [hpost] at hrow
    cases hrow
    exact hfresh _ hop ha hactive
  · refine .inr fun row' hrow' _ => ?_
    rw [hpost] at hrow'
    cases hrow'
    rw [AccountRecord.updated_version]
    rcases h with ⟨-, hsnap⟩ | hold
    · rw [hrow] at hsnap
      cases hsnap
      omega
    · have hlt := hold row hrow hcommits.admits.active
      omega

/-- Under fresh insertions every snapshot ever read is current or its
version is gone. -/
theorem current_of_run (hrun : Run (storeStep rd) db₀ tr db) (hfresh : FreshInserts tr) :
    ∀ l u since i a snap, tr = l ++ u :: since → Reads i a snap u → Current rd a snap since db := by
  induction hrun with
  | refl => intro l u since i a snap h; simp at h
  | @tail tr s s' e hr hs ih =>
      intro l u since i a snap hsplit hread
      obtain ⟨hfresh', hlast⟩ := forall_split_snoc.mp hfresh
      rcases snoc_eq_append_cons hsplit with ⟨rfl, rfl, rfl⟩ | ⟨since, rfl, rfl⟩
      · -- the read is the last operation
        obtain ⟨he, hsnap⟩ := hread
        rw [MockDatabaseShard.getAccountForRead_eq] at hsnap
        simp only at he hsnap
        subst he
        obtain rfl : s = s' := Option.some.inj hs
        exact .inl ⟨by simp, hsnap⟩
      · refine Current.step (t := ⟨s, e, s'⟩) (ih hfresh' l u since i a snap rfl hread) hs ?_
        rintro account hop rfl hactive
        exact hlast account hop hactive u (by simp) i snap hread

/-! ## Bringing a version back -/

/-- The debit of all that a row holds. -/
def drain (a : String) (row : AccountRecord) : CasCall := .debit a row.availableBalance row.version

theorem drain_commits {row : AccountRecord} (hactive : row.status = .active) :
    (drain a row).Commits rd row 0 := by
  refine ⟨⟨hactive, rfl, le_rfl⟩, ?_⟩
  simp [drain, CasCall.newBalance, CasCall.delta, rd.round_zero]

variable (rd) in
theorem storeStep_drain {row : AccountRecord} (j : ι) (hrow : db.store a = some row)
    (hactive : row.status = .active) :
    storeStep rd db ⟨j, .cas (drain a row)⟩ = some (db.put a (row.updated 0)) := by
  simp only [storeStep, CasCall.execute_of_commits (c := drain a row) hrow (drain_commits hactive)]
  rfl

/-- `n` debits raise an ACTIVE row's version by `n`. -/
theorem debits_climb (j : ι) (a : String) (n : ℕ) :
    ∀ (db : MockDatabaseShard) (row : AccountRecord), db.store a = some row →
      row.status = .active → ∃ tr db' row', Run (storeStep rd) db tr db' ∧
        (∀ v ∈ tr, ∃ c, v.event = ⟨j, .cas c⟩) ∧ db'.store a = some row' ∧
        row'.status = .active ∧ row'.version = row.version + n := by
  induction n with
  | zero =>
      intro db row hrow hactive
      exact ⟨[], db, row, .refl, by simp, hrow, hactive, by simp⟩
  | succ n ih =>
      intro db row hrow hactive
      obtain ⟨tr, db', row', hrun, hcas, hrow', hactive', hver⟩ :=
        ih (db.put a (row.updated 0)) (row.updated 0) (MockDatabaseShard.put_store_self _ _ _)
          hactive
      refine ⟨_, db', row', hrun.head (storeStep_drain rd j hrow hactive), fun v hv => ?_, hrow',
        hactive', ?_⟩
      · rcases List.mem_cons.mp hv with rfl | hv
        · exact ⟨_, rfl⟩
        · exact hcas v hv
      · rw [hver, AccountRecord.updated_version]
        push_cast
        ring

/-- After an insertion that is not fresh, updates alone lead to a commit
on a stale snapshot. -/
theorem stale_commit_of_not_fresh {l : List (StoreTransition ι)}
    (hrun : Run (storeStep rd) db₀ l t.pre) (hstep : storeStep rd t.pre t.event = some t.post)
    (hstale : ¬ FreshInsert l t) :
    ∃ tr' db', Run (storeStep rd) db₀ (l ++ t :: tr') db' ∧ (∀ v ∈ tr', ∃ c, v.event.op = .cas c) ∧
      ¬ NoStaleCommit rd (l ++ t :: tr') := by
  unfold FreshInsert at hstale
  push Not at hstale
  obtain ⟨account, hop, hactive, u, hu, i, snap, hread, hle⟩ := hstale
  obtain ⟨before, since, rfl⟩ := List.append_of_mem hu
  obtain ⟨pre, ⟨j, op⟩, post⟩ := t
  simp only at hop hrun hstep
  subst hop
  obtain rfl : pre.insertAccount account = post := Option.some.inj hstep
  -- raise the inserted row to the version that was read, then swap
  obtain ⟨tr, db', row, hclimb, hcas, hrow, hrowactive, hver⟩ :=
    debits_climb i account.accountId (snap.version - account.version).toNat
      (pre.insertAccount account) account (MockDatabaseShard.put_store_self _ _ _) hactive
  have hexpected : row.version = snap.version := by omega
  have hswap := storeStep_drain rd i hrow hrowactive
  generalize hdb : db'.put account.accountId (row.updated 0) = db'' at hswap
  refine ⟨tr ++ [⟨db', ⟨i, .cas (drain account.accountId row)⟩, db''⟩], _,
    hrun.append ((hclimb.tail hswap).head hstep), forall_mem_snoc (fun v hv => ?_) ⟨_, rfl⟩,
    fun hno => ?_⟩
  · obtain ⟨d, hd⟩ := hcas v hv
    exact ⟨d, by rw [hd]⟩
  · have htrue : ((drain account.accountId row).execute rd db').1 = .ok true := by
      rw [CasCall.execute_of_commits (c := drain account.accountId row) hrow
        (drain_commits hrowactive)]
    have hquiet := (hno before u (since ++ ⟨pre, ⟨j, .insertAccount account⟩,
      pre.insertAccount account⟩ :: tr) ⟨db', ⟨i, .cas (drain account.accountId row)⟩, db''⟩ []
      i account.accountId snap _ (by simp) hread rfl rfl hexpected htrue).1
    exact hquiet ⟨pre, ⟨j, .insertAccount account⟩, pre.insertAccount account⟩ (by simp) rfl

/-- **When a commit is never on a stale snapshot.** Over any run of the
four operations by any clients from any store: fresh insertions suffice,
and after any insertion that is not fresh, updates alone lead to a commit
on a stale snapshot. -/
theorem noStaleCommit_of_freshInserts (hrun : Run (storeStep rd) db₀ tr db) :
    (FreshInserts tr → NoStaleCommit rd tr) ∧
    ∀ l t r, tr = l ++ t :: r → ¬ FreshInsert l t →
      ∃ tr' db', Run (storeStep rd) db₀ (l ++ t :: tr') db' ∧
        (∀ v ∈ tr', ∃ c, v.event.op = .cas c) ∧ ¬ NoStaleCommit rd (l ++ t :: tr') := by
  refine ⟨?_, ?_⟩
  · rintro hfresh l u mid t r i a snap c rfl hread hevent hac hexpected htrue
    have hassoc : l ++ u :: (mid ++ t :: r) = (l ++ u :: mid) ++ t :: r := by simp
    rw [hassoc] at hrun hfresh
    have hprefix : FreshInserts (l ++ u :: mid) := forall_split_left hfresh
    have hcurrent := current_of_run hrun.split.1 hprefix l u mid i a snap rfl hread
    rcases c.execute_commits_or_keeps rd t.pre with ⟨row, _, hrow, hcommits, -⟩ | ⟨hno, -⟩
    · rw [hac] at hrow
      refine hcurrent.resolve_right fun hgone => ?_
      have hlt := hgone row hrow hcommits.admits.active
      rw [hcommits.admits.version_eq, hexpected] at hlt
      exact lt_irrefl _ hlt
    · exact absurd htrue hno
  · rintro l t r rfl hstale
    exact stale_commit_of_not_fresh hrun.split.1 hrun.split.2.1 hstale

/-- The self-test's account again, with INR 600.00. -/
def reinserted : AccountRecord := ⟨"acc-1", "usr-101", 600, 600, 1, .active⟩

def reinsertedShard : MockDatabaseShard := MockDatabaseShard.selfTest.insertAccount reinserted

/-- The account is read, inserted again under the version that was read,
and debited by its reader. -/
def reinsertSchedule : List (StoreEvent Bool) :=
  [⟨false, .getAccountForRead "acc-1"⟩, ⟨true, .insertAccount reinserted⟩,
   ⟨false, .cas (.debit "acc-1" 500 1)⟩]

/-- The debit returns `True` on a row its client never saw. -/
theorem not_noStaleCommit_reinsert :
    let rd := decimalContext.rounding
    let run := exec (storeStep rd) MockDatabaseShard.selfTest reinsertSchedule
    Run (storeStep rd) MockDatabaseShard.selfTest run.1 run.2 ∧
    (run.2.store "acc-1").map (·.availableBalance) = some 100 ∧
    ¬ NoStaleCommit rd run.1 := by
  intro rd run
  refine ⟨run_exec _ _ _, by decide +kernel, fun hno => ?_⟩
  have hstale := (hno [] ⟨.selfTest, ⟨false, .getAccountForRead "acc-1"⟩, .selfTest⟩
    [⟨.selfTest, ⟨true, .insertAccount reinserted⟩, reinsertedShard⟩]
    ⟨reinsertedShard, ⟨false, .cas (.debit "acc-1" 500 1)⟩,
      (reinsertedShard.executeOccDebit rd "acc-1" 500 1).2⟩ []
    false "acc-1" ⟨"acc-1", "usr-101", 1500, 1500, 1, .active⟩ (.debit "acc-1" 500 1)
    rfl ⟨rfl, by decide +kernel⟩ rfl rfl rfl (by decide +kernel)).1
  exact hstale _ (List.mem_singleton.mpr rfl) rfl

theorem noStaleCommit_of_freshInserts_reinsert :
    let rd := decimalContext.rounding
    let read : StoreTransition Bool :=
      ⟨.selfTest, ⟨false, .getAccountForRead "acc-1"⟩, .selfTest⟩
    let insert : StoreTransition Bool :=
      ⟨.selfTest, ⟨true, .insertAccount reinserted⟩, reinsertedShard⟩
    ∃ tr' db', Run (storeStep rd) .selfTest ([read] ++ insert :: tr') db' ∧
      (∀ v ∈ tr', ∃ c, v.event.op = .cas c) ∧ ¬ NoStaleCommit rd ([read] ++ insert :: tr') := by
  intro rd read insert
  have hrun : Run (storeStep rd) .selfTest [read, insert] reinsertedShard :=
    run_exec (storeStep rd) (reinsertSchedule.take 2) .selfTest
  refine (noStaleCommit_of_freshInserts hrun).2 [read] insert [] rfl fun hfresh => ?_
  have hlt : (1 : ℤ) < 1 := hfresh reinserted rfl rfl read (List.mem_singleton.mpr rfl) false
    ⟨"acc-1", "usr-101", 1500, 1500, 1, .active⟩ ⟨rfl, by decide +kernel⟩
  exact absurd hlt (by decide)

end Httpe.Occ
