import WebKit.Foundation.Runs

/-!
The transaction queue of `UniqueIDBDatabase`. Enqueued read-only and read-write
transactions wait in a deque; each firing of the operation timer takes the first
one that is not deferred and starts it. Conflicts are tracked through a counted
set of the object stores in use and a set of the stores being written.
Started transactions are always compatible. Creation order is kept exactly when
no started read-write transaction overtakes a deferred read-only one, because a
deferred read-only transaction does not reserve its scope during the pass.
-/

namespace WebKit.TransactionScheduler

open List Runs

inductive TransactionMode where
  | readOnly
  | readWrite
  | versionChange
  deriving DecidableEq, Repr

structure Transaction where
  identifier : ℕ
  mode : TransactionMode
  objectStoreIdentifiers : List ℕ
  mode_ne : mode ≠ .versionChange
  scope_nodup : objectStoreIdentifiers.Nodup
  deriving DecidableEq

namespace Transaction

def isReadOnly (t : Transaction) : Bool := t.mode == .readOnly

def Overlap (t u : Transaction) : Prop :=
  ∃ store ∈ t.objectStoreIdentifiers, store ∈ u.objectStoreIdentifiers

def Conflict (t u : Transaction) : Prop :=
  (t.mode = .readWrite ∨ u.mode = .readWrite) ∧ t.Overlap u

theorem Overlap.symm {t u : Transaction} (h : t.Overlap u) : u.Overlap t := by
  obtain ⟨store, ht, hu⟩ := h
  exact ⟨store, hu, ht⟩

theorem Conflict.symm {t u : Transaction} (h : t.Conflict u) : u.Conflict t :=
  ⟨h.1.symm, h.2.symm⟩

theorem Conflict.readWrite {t u : Transaction} (h : t.Conflict u) (hmode : t.mode = .readOnly) :
    u.mode = .readWrite := by
  refine h.1.resolve_left fun hwrite => ?_
  rw [hmode] at hwrite
  cases hwrite

theorem mode_cases (t : Transaction) : t.mode = .readOnly ∨ t.mode = .readWrite := by
  cases h : t.mode with
  | readOnly => exact .inl rfl
  | readWrite => exact .inr rfl
  | versionChange => exact absurd h t.mode_ne

end Transaction

/-- The scheduling state. `enqueued` remembers every `enqueueTransaction` call in
order; the code does not store it and no operation below reads it except to keep
identifiers unique. -/
structure Database where
  backingStoreSupportsSimultaneousTransactions : Bool
  pendingTransactions : List Transaction := []
  inProgressTransactions : List Transaction := []
  finishingTransactions : List Transaction := []
  objectStoreTransactionCounts : Multiset ℕ := 0
  objectStoreWriteTransactions : Finset ℕ := ∅
  enqueued : List Transaction := []
  deriving DecidableEq

def scopesOverlap (contains : ℕ → Bool) (scopes : List ℕ) : Bool := scopes.any contains

variable (db : Database)

def hasUnfinishedTransactions : Bool :=
  !db.inProgressTransactions.isEmpty || !db.finishingTransactions.isEmpty

def isDeferred (deferredReadWriteScopes : List ℕ) (t : Transaction) : Bool :=
  match h : t.mode with
  | .readOnly =>
    scopesOverlap (deferredReadWriteScopes.contains ·) t.objectStoreIdentifiers ||
      scopesOverlap (· ∈ db.objectStoreWriteTransactions) t.objectStoreIdentifiers
  | .readWrite =>
    scopesOverlap (· ∈ db.objectStoreTransactionCounts) t.objectStoreIdentifiers ||
      scopesOverlap (deferredReadWriteScopes.contains ·) t.objectStoreIdentifiers
  | .versionChange => absurd h t.mode_ne

/-- The scheduling pass. Returns the runnable transaction, the pending deque with
the deferred transactions put back in front, and whether any was deferred. -/
def takeLoop (deferred : List Transaction) (deferredReadWriteScopes : List ℕ) :
    List Transaction → Option Transaction × List Transaction × Bool
  | [] => (none, deferred, !deferred.isEmpty)
  | current :: rest =>
    if isDeferred db deferredReadWriteScopes current then
      takeLoop (deferred ++ [current])
        (if current.isReadOnly then deferredReadWriteScopes
          else deferredReadWriteScopes ++ current.objectStoreIdentifiers) rest
    else
      (some current, deferred ++ rest, !deferred.isEmpty)

def takeNextRunnableTransaction : Option Transaction × List Transaction × Bool :=
  if db.pendingTransactions.isEmpty then (none, [], false)
  else if !db.backingStoreSupportsSimultaneousTransactions && hasUnfinishedTransactions db then
    (none, db.pendingTransactions, false)
  else takeLoop db [] [] db.pendingTransactions

variable (t : Transaction)

def addScopes (db : Database) : Database :=
  t.objectStoreIdentifiers.foldl (fun db store =>
    { db with
      objectStoreTransactionCounts := store ::ₘ db.objectStoreTransactionCounts
      objectStoreWriteTransactions :=
        if t.isReadOnly then db.objectStoreWriteTransactions
        else insert store db.objectStoreWriteTransactions }) db

def removeScopes (db : Database) : Database :=
  t.objectStoreIdentifiers.foldl (fun db store =>
    { db with
      objectStoreTransactionCounts := db.objectStoreTransactionCounts.erase store
      objectStoreWriteTransactions :=
        if t.isReadOnly then db.objectStoreWriteTransactions
        else db.objectStoreWriteTransactions.erase store }) db

def enqueueTransaction : Option Database :=
  if t.identifier ∈ db.enqueued.map (·.identifier) then none
  else some { db with
    pendingTransactions := db.pendingTransactions ++ [t]
    enqueued := db.enqueued ++ [t] }

/-- The scheduling part of the timer; the timer may fire at any time. -/
def operationAndTransactionTimerFired : Database :=
  match takeNextRunnableTransaction db with
  | (none, pending, _) => { db with pendingTransactions := pending }
  | (some t, pending, _) =>
    addScopes t { db with
      pendingTransactions := pending
      inProgressTransactions := t :: db.inProgressTransactions }

def prepareToFinishTransaction (identifier : ℕ) : Option Database :=
  (db.inProgressTransactions.find? (·.identifier == identifier)).map fun t =>
    { db with
      inProgressTransactions := db.inProgressTransactions.erase t
      finishingTransactions := t :: db.finishingTransactions }

def transactionCompleted (identifier : ℕ) : Option Database :=
  (db.finishingTransactions.find? (·.identifier == identifier)).map fun t =>
    removeScopes t { db with finishingTransactions := db.finishingTransactions.erase t }

inductive Event where
  | enqueue (t : Transaction)
  | timerFired
  | prepareToFinish (identifier : ℕ)
  | complete (identifier : ℕ)

def step : Event → Option Database
  | .enqueue t => enqueueTransaction db t
  | .timerFired => some (operationAndTransactionTimerFired db)
  | .prepareToFinish identifier => prepareToFinishTransaction db identifier
  | .complete identifier => transactionCompleted db identifier

variable (supportsSimultaneous : Bool)

def fresh : Database :=
  { backingStoreSupportsSimultaneousTransactions := supportsSimultaneous }

def unfinished : List Transaction :=
  db.inProgressTransactions ++ db.finishingTransactions

def Exclusive : Prop :=
  (unfinished db).Pairwise (fun t u => ¬ t.Conflict u)

def ScopesExact : Prop :=
  db.objectStoreTransactionCounts =
      ((unfinished db).map fun t => (t.objectStoreIdentifiers : Multiset ℕ)).sum ∧
    ∀ store, store ∈ db.objectStoreWriteTransactions ↔
      ∃ t ∈ unfinished db, t.mode = .readWrite ∧ store ∈ t.objectStoreIdentifiers

def RespectsCreationOrder : Prop :=
  ∀ u, [u, t].Sublist db.enqueued → (u ∈ db.pendingTransactions ∨ u ∈ unfinished db) →
    ¬ u.Conflict t

def started : Option Transaction := (takeNextRunnableTransaction db).1

variable (transactions : List Transaction)

def readWriteScopes : List ℕ :=
  transactions.flatMap fun t => if t.isReadOnly then [] else t.objectStoreIdentifiers

def HeldBack (earlier : List Transaction) (t : Transaction) : Prop :=
  isDeferred db (readWriteScopes earlier) t = true

def AllHeldBack : Prop :=
  ∀ earlier t later, transactions = earlier ++ t :: later → HeldBack db earlier t

/-- The first queued transaction that is not held back is a writer that overlaps a
read-only transaction queued before it, and the backing store lets it start. -/
def Overtakes : Prop :=
  (db.backingStoreSupportsSimultaneousTransactions = true ∨
      hasUnfinishedTransactions db = false) ∧
    ∃ earlier t later, db.pendingTransactions = earlier ++ t :: later ∧
      AllHeldBack db earlier ∧ ¬ HeldBack db earlier t ∧ t.mode = .readWrite ∧
      ∃ u ∈ earlier, u.mode = .readOnly ∧ u.Overlap t

theorem scopesOverlap_iff (contains : ℕ → Bool) (scopes : List ℕ) :
    scopesOverlap contains scopes ↔ ∃ store ∈ scopes, contains store := by
  simp [scopesOverlap]

theorem mem_readWriteScopes (store : ℕ) : store ∈ readWriteScopes transactions ↔
      ∃ t ∈ transactions, t.mode = .readWrite ∧ store ∈ t.objectStoreIdentifiers := by
  simp only [readWriteScopes, mem_flatMap]
  constructor
  · rintro ⟨t, ht, hstore⟩
    rcases t.mode_cases with hmode | hmode
    · simp [Transaction.isReadOnly, hmode] at hstore
    · exact ⟨t, ht, hmode, by simpa [Transaction.isReadOnly, hmode] using hstore⟩
  · rintro ⟨t, ht, hmode, hstore⟩
    exact ⟨t, ht, by simpa [Transaction.isReadOnly, hmode] using hstore⟩

variable {db : Database} {earlier : List Transaction} {t : Transaction}

/-- A transaction waits for earlier writers and for the running ones that it is checked against. -/
theorem heldBack_iff {p : ℕ → Bool} (hdefer : isDeferred db (readWriteScopes earlier) t =
      (scopesOverlap ((readWriteScopes earlier).contains ·) t.objectStoreIdentifiers ||
        scopesOverlap p t.objectStoreIdentifiers)) : HeldBack db earlier t ↔
      (∃ u ∈ earlier, u.mode = .readWrite ∧ u.Overlap t) ∨
        ∃ store ∈ t.objectStoreIdentifiers, p store := by
  simp only [HeldBack, hdefer, Bool.or_eq_true, scopesOverlap_iff, contains_iff_mem,
    mem_readWriteScopes, Transaction.Overlap]
  refine or_congr_left ⟨?_, ?_⟩
  · rintro ⟨store, hstore, u, hu, hw, hmem⟩
    exact ⟨u, hu, hw, store, hmem, hstore⟩
  · rintro ⟨u, hu, hw, store, hmem, hstore⟩
    exact ⟨store, hstore, u, hu, hw, hmem⟩

theorem heldBack_readOnly (hmode : t.mode = .readOnly) : HeldBack db earlier t ↔
      (∃ u ∈ earlier, u.mode = .readWrite ∧ u.Overlap t) ∨
        ∃ store ∈ t.objectStoreIdentifiers, store ∈ db.objectStoreWriteTransactions := by
  simpa using heldBack_iff (p := (· ∈ db.objectStoreWriteTransactions))
    (by unfold isDeferred; split <;> simp_all)

theorem heldBack_readWrite (hmode : t.mode = .readWrite) : HeldBack db earlier t ↔
      (∃ u ∈ earlier, u.mode = .readWrite ∧ u.Overlap t) ∨
        ∃ store ∈ t.objectStoreIdentifiers, store ∈ db.objectStoreTransactionCounts := by
  simpa using heldBack_iff (p := (· ∈ db.objectStoreTransactionCounts))
    (by unfold isDeferred; split <;> simp_all [Bool.or_comm])

theorem allHeldBack_snoc {transactions : List Transaction} (h : AllHeldBack db transactions)
    (ht : HeldBack db transactions t) : AllHeldBack db (transactions ++ [t]) := by
  intro earlier u later heq
  rcases eq_nil_or_concat later with rfl | ⟨init, last, rfl⟩
  · obtain ⟨rfl, hu⟩ := append_inj' heq rfl
    exact (singleton_inj.mp hu) ▸ ht
  · have hinit : transactions = earlier ++ u :: init := by
      have heq' : transactions ++ [t] = (earlier ++ u :: init) ++ [last] := by
        simpa using heq
      exact (append_inj' heq' rfl).1
    exact h earlier u init hinit

/-- What the scheduling pass can do: it puts everything back, or it takes the first
transaction that is not held back and keeps the order of the others. -/
theorem takeLoop_cases (db : Database) (rest deferred : List Transaction)
    (hheld : AllHeldBack db deferred) :
    ((takeLoop db deferred (readWriteScopes deferred) rest).1 = none ∧
        (takeLoop db deferred (readWriteScopes deferred) rest).2.1 = deferred ++ rest ∧
        AllHeldBack db (deferred ++ rest)) ∨
      ∃ middle t later, rest = middle ++ t :: later ∧
        (takeLoop db deferred (readWriteScopes deferred) rest).1 = some t ∧
        (takeLoop db deferred (readWriteScopes deferred) rest).2.1 = deferred ++ middle ++ later ∧
        AllHeldBack db (deferred ++ middle) ∧ ¬ HeldBack db (deferred ++ middle) t := by
  induction rest generalizing deferred with
  | nil => exact .inl ⟨rfl, by simp [takeLoop], by simpa using hheld⟩
  | cons current rest ih =>
    by_cases hcur : isDeferred db (readWriteScopes deferred) current
    · have hscopes : (if current.isReadOnly then readWriteScopes deferred
          else readWriteScopes deferred ++ current.objectStoreIdentifiers) =
            readWriteScopes (deferred ++ [current]) := by
        by_cases hro : current.isReadOnly <;> simp [readWriteScopes, hro]
      have hloop : takeLoop db deferred (readWriteScopes deferred) (current :: rest) =
          takeLoop db (deferred ++ [current]) (readWriteScopes (deferred ++ [current])) rest := by
        rw [takeLoop, if_pos hcur, hscopes]
      rw [hloop]
      rcases ih (deferred ++ [current]) (allHeldBack_snoc hheld hcur) with
        ⟨hnone, hpend, hall⟩ | ⟨middle, t, later, hrest, hsome, hpend, hall, hfree⟩
      · exact .inl ⟨hnone, by simpa using hpend, by simpa using hall⟩
      · refine .inr ⟨current :: middle, t, later, by simp [hrest], hsome, ?_, ?_, ?_⟩
        · simpa using hpend
        · simpa using hall
        · simpa using hfree
    · refine .inr ⟨[], current, rest, rfl, ?_, ?_, by simpa using hheld, ?_⟩
      · rw [takeLoop, if_neg hcur]
      · rw [takeLoop, if_neg hcur]
        simp
      · simpa [HeldBack] using hcur

/-- What a timer firing can do, in terms of the queue before it. -/
theorem takeNextRunnableTransaction_cases (db : Database) :
    ((takeNextRunnableTransaction db).1 = none ∧
        (takeNextRunnableTransaction db).2.1 = db.pendingTransactions ∧
        ∀ earlier t later, db.pendingTransactions = earlier ++ t :: later →
          (db.backingStoreSupportsSimultaneousTransactions = true ∨
            hasUnfinishedTransactions db = false) → HeldBack db earlier t) ∨
      ∃ earlier t later, db.pendingTransactions = earlier ++ t :: later ∧
        (takeNextRunnableTransaction db).1 = some t ∧
        (takeNextRunnableTransaction db).2.1 = earlier ++ later ∧
        AllHeldBack db earlier ∧ ¬ HeldBack db earlier t ∧
        (db.backingStoreSupportsSimultaneousTransactions = true ∨
          hasUnfinishedTransactions db = false) := by
  unfold takeNextRunnableTransaction
  split_ifs with hempty hblocked
  · rw [isEmpty_iff.mp hempty]
    exact .inl ⟨rfl, rfl, fun earlier t later heq => absurd heq.symm (by simp)⟩
  · refine .inl ⟨rfl, rfl, fun earlier t later _ hopen => ?_⟩
    rcases hopen with hopen | hopen <;> simp [hopen] at hblocked
  · have hopen : db.backingStoreSupportsSimultaneousTransactions = true ∨
        hasUnfinishedTransactions db = false := by
      cases hs : db.backingStoreSupportsSimultaneousTransactions <;> simp_all
    rcases takeLoop_cases db db.pendingTransactions [] (by intro a b c h; simp at h) with
      ⟨hnone, hpend, hall⟩ | ⟨middle, t, later, heq, hsome, hpend, hall, hfree⟩
    · exact .inl ⟨hnone, hpend, fun earlier t later heq _ => hall earlier t later heq⟩
    · exact .inr ⟨middle, t, later, heq, hsome, hpend, hall, hfree, hopen⟩

theorem addScopes_eq (t : Transaction) (db : Database) : addScopes t db = { db with
      objectStoreTransactionCounts :=
        (t.objectStoreIdentifiers : Multiset ℕ) + db.objectStoreTransactionCounts
      objectStoreWriteTransactions :=
        if t.isReadOnly then db.objectStoreWriteTransactions
        else t.objectStoreIdentifiers.toFinset ∪ db.objectStoreWriteTransactions } := by
  unfold addScopes
  generalize t.objectStoreIdentifiers = stores
  induction stores generalizing db with
  | nil => by_cases hro : t.isReadOnly <;> simp [hro]
  | cons store stores ih =>
    rw [foldl_cons, ih]
    by_cases hro : t.isReadOnly <;>
      simp [hro, ← Multiset.cons_coe, Finset.insert_union, Finset.union_insert]

theorem removeScopes_eq (t : Transaction) (db : Database) : removeScopes t db = { db with
      objectStoreTransactionCounts :=
        db.objectStoreTransactionCounts - (t.objectStoreIdentifiers : Multiset ℕ)
      objectStoreWriteTransactions :=
        if t.isReadOnly then db.objectStoreWriteTransactions
        else db.objectStoreWriteTransactions \ t.objectStoreIdentifiers.toFinset } := by
  unfold removeScopes
  generalize t.objectStoreIdentifiers = stores
  induction stores generalizing db with
  | nil => simp
  | cons store stores ih =>
    rw [foldl_cons, ih]
    by_cases hro : t.isReadOnly
    · simp [hro, ← Multiset.cons_coe, Multiset.sub_cons]
    · have hwrite : db.objectStoreWriteTransactions.erase store \ stores.toFinset =
          db.objectStoreWriteTransactions \ (store :: stores).toFinset := by
        ext o
        simp only [Finset.mem_sdiff, Finset.mem_erase, toFinset_cons, Finset.mem_insert]
        tauto
      simp [hro, ← Multiset.cons_coe, Multiset.sub_cons, hwrite]

structure Tracks (transactions : List Transaction) (counts : Multiset ℕ) (writes : Finset ℕ) :
    Prop where
  exclusive : transactions.Pairwise (fun t u => ¬ t.Conflict u)
  counts_eq : counts = (transactions.map fun t => (t.objectStoreIdentifiers : Multiset ℕ)).sum
  mem_writes : ∀ store, store ∈ writes ↔
    ∃ t ∈ transactions, t.mode = .readWrite ∧ store ∈ t.objectStoreIdentifiers

namespace Tracks

variable {transactions : List Transaction} {counts : Multiset ℕ} {writes : Finset ℕ}
  {t : Transaction}

section

variable (h : Tracks transactions counts writes)

include h

theorem perm {other : List Transaction}
    (hperm : transactions.Perm other) : Tracks other counts writes := by
  refine ⟨?_, ?_, ?_⟩
  · exact h.exclusive.perm hperm fun hconf hsymm => hconf hsymm.symm
  · rw [h.counts_eq]
    exact (hperm.map _).sum_eq
  · intro store
    rw [h.mem_writes]
    simp only [hperm.mem_iff]

theorem mem_counts (store : ℕ) :
    store ∈ counts ↔ ∃ t ∈ transactions, store ∈ t.objectStoreIdentifiers := by
  rw [h.counts_eq]
  clear h
  induction transactions with
  | nil => simp
  | cons u rest ih => simp [ih]

theorem cons (hfree : ∀ u ∈ transactions, ¬ t.Conflict u) :
    Tracks (t :: transactions) (t.objectStoreIdentifiers + counts)
      (if t.isReadOnly then writes else t.objectStoreIdentifiers.toFinset ∪ writes) := by
  refine ⟨pairwise_cons.mpr ⟨hfree, h.exclusive⟩, ?_, ?_⟩
  · simp [h.counts_eq]
  · intro store
    rcases t.mode_cases with hmode | hmode <;> simp [Transaction.isReadOnly, hmode, h.mem_writes]

end

theorem uncons (h : Tracks (t :: transactions) counts writes) :
    Tracks transactions (counts - (t.objectStoreIdentifiers : Multiset ℕ))
      (if t.isReadOnly then writes else writes \ t.objectStoreIdentifiers.toFinset) := by
  obtain ⟨hfree, hexcl⟩ := pairwise_cons.mp h.exclusive
  refine ⟨hexcl, ?_, ?_⟩
  · rw [h.counts_eq, map_cons, sum_cons, add_tsub_cancel_left]
  · intro store
    rcases t.mode_cases with hmode | hmode
    · simp [Transaction.isReadOnly, hmode, h.mem_writes]
    · have hwriter : t.isReadOnly = false := by simp [Transaction.isReadOnly, hmode]
      simp only [hwriter, Bool.false_eq_true, if_false, Finset.mem_sdiff, h.mem_writes,
        mem_cons, mem_toFinset]
      constructor
      · rintro ⟨⟨u, rfl | hu, huw, hstore⟩, hnot⟩
        · exact absurd hstore hnot
        · exact ⟨u, hu, huw, hstore⟩
      · rintro ⟨u, hu, huw, hstore⟩
        refine ⟨⟨u, .inr hu, huw, hstore⟩, fun hmem => ?_⟩
        exact hfree u hu ⟨.inl hmode, store, hmem, hstore⟩

/-- A transaction that is not held back is compatible with every unfinished one. -/
theorem compatible {db : Database} {earlier : List Transaction}
    (h : Tracks transactions db.objectStoreTransactionCounts db.objectStoreWriteTransactions)
    (hfree : ¬ HeldBack db earlier t) : ∀ u ∈ transactions, ¬ t.Conflict u := by
  intro u hu hconf
  obtain ⟨store, ht, hstore⟩ := hconf.2
  apply hfree
  rcases t.mode_cases with hmode | hmode
  · exact (heldBack_readOnly hmode).mpr
      (.inr ⟨store, ht, (h.mem_writes store).mpr ⟨u, hu, hconf.readWrite hmode, hstore⟩⟩)
  · exact (heldBack_readWrite hmode).mpr
      (.inr ⟨store, ht, (h.mem_counts store).mpr ⟨u, hu, hstore⟩⟩)

end Tracks

structure Invariant (db : Database) : Prop where
  tracks : Tracks (unfinished db) db.objectStoreTransactionCounts
    db.objectStoreWriteTransactions
  pending_sublist : db.pendingTransactions.Sublist db.enqueued
  enqueued_nodup : (db.enqueued.map (·.identifier)).Nodup

theorem fresh_invariant (supports : Bool) : Invariant (fresh supports) := by
  refine ⟨⟨?_, ?_, ?_⟩, ?_, ?_⟩ <;> simp [fresh, unfinished]

variable {db' : Database}

theorem enqueue_invariant (h : Invariant db) (hstep : enqueueTransaction db t = some db') :
    Invariant db' := by
  unfold enqueueTransaction at hstep
  split at hstep
  · cases hstep
  · rename_i hfresh
    cases hstep
    refine ⟨h.tracks, ?_, ?_⟩
    · exact h.pending_sublist.append (List.Sublist.refl [t])
    · rw [map_append, nodup_append]
      refine ⟨h.enqueued_nodup, by simp, ?_⟩
      intro a ha b hb
      rw [map_singleton, mem_singleton] at hb
      exact fun hab => hfresh (hb ▸ hab ▸ ha)

theorem timerFired_eq_of_some (h : (takeNextRunnableTransaction db).1 = some t) :
    operationAndTransactionTimerFired db = addScopes t { db with
        pendingTransactions := (takeNextRunnableTransaction db).2.1
        inProgressTransactions := t :: db.inProgressTransactions } := by
  unfold operationAndTransactionTimerFired
  split <;> simp_all

theorem timer_invariant (h : Invariant db) : Invariant (operationAndTransactionTimerFired db) := by
  rcases takeNextRunnableTransaction_cases db with
    ⟨hnone, hpend, -⟩ | ⟨earlier, t, later, heq, hsome, hpend, -, hfree, -⟩
  · have heq : operationAndTransactionTimerFired db =
        { db with pendingTransactions := (takeNextRunnableTransaction db).2.1 } := by
      unfold operationAndTransactionTimerFired
      split <;> simp_all
    rw [heq, hpend]
    exact { h with }
  · rw [timerFired_eq_of_some hsome, hpend, addScopes_eq]
    refine ⟨h.tracks.cons (h.tracks.compatible hfree), ?_, h.enqueued_nodup⟩
    have hsub : (earlier ++ later).Sublist db.pendingTransactions := by
      rw [heq]
      exact (List.Sublist.refl earlier).append (sublist_cons_self t later)
    exact hsub.trans h.pending_sublist

theorem prepareToFinish_invariant {identifier : ℕ} (h : Invariant db)
    (hstep : prepareToFinishTransaction db identifier = some db') : Invariant db' := by
  unfold prepareToFinishTransaction at hstep
  obtain ⟨t, hfind, rfl⟩ := Option.map_eq_some_iff.mp hstep
  have hmem : t ∈ db.inProgressTransactions := mem_of_find?_eq_some hfind
  refine ⟨h.tracks.perm ?_, h.pending_sublist, h.enqueued_nodup⟩
  calc unfinished db
      |>.Perm ((t :: db.inProgressTransactions.erase t) ++ db.finishingTransactions) :=
        (perm_cons_erase hmem).append_right _
    _ |>.Perm (db.inProgressTransactions.erase t ++ t :: db.finishingTransactions) :=
        perm_middle.symm

theorem complete_invariant {identifier : ℕ} (h : Invariant db)
    (hstep : transactionCompleted db identifier = some db') : Invariant db' := by
  unfold transactionCompleted at hstep
  obtain ⟨t, hfind, rfl⟩ := Option.map_eq_some_iff.mp hstep
  have hmem : t ∈ db.finishingTransactions := mem_of_find?_eq_some hfind
  have hperm : (unfinished db).Perm
      (t :: (db.inProgressTransactions ++ db.finishingTransactions.erase t)) :=
    ((perm_cons_erase hmem).append_left _).trans perm_middle
  rw [removeScopes_eq]
  exact ⟨(h.tracks.perm hperm).uncons, h.pending_sublist, h.enqueued_nodup⟩

theorem step_invariant (db : Database) (event : Event) (db' : Database) (h : Invariant db)
    (hstep : step db event = some db') : Invariant db' := by
  cases event with
  | enqueue t => exact enqueue_invariant h hstep
  | timerFired => exact Option.some.inj hstep ▸ timer_invariant h
  | prepareToFinish identifier => exact prepareToFinish_invariant h hstep
  | complete identifier => exact complete_invariant h hstep

private theorem not_sublist_of_pair_sublist {α : Type*} {xs : List α} (hnodup : xs.Nodup)
    {a b : α} (hab : [a, b].Sublist xs) : ¬ [b, a].Sublist xs := by
  intro hba
  obtain ⟨front, back, rfl, ha, hb⟩ := cons_sublist_iff.mp hab
  obtain ⟨front', back', heq, hb', ha'⟩ := cons_sublist_iff.mp hba
  rw [singleton_sublist] at hb ha'
  rcases append_eq_append_iff.mp heq with ⟨middle, rfl, -⟩ | ⟨middle, rfl, -⟩
  · rw [heq] at hnodup
    exact disjoint_of_nodup_append hnodup (mem_append_left _ ha) ha'
  · exact disjoint_of_nodup_append hnodup (mem_append_left _ hb') hb

/-- An earlier enqueued transaction that is still queued stands in front. -/
theorem mem_earlier_of_sublist (h : Invariant db) {later : List Transaction} {u : Transaction}
    (heq : db.pendingTransactions = earlier ++ t :: later) (hsub : [u, t].Sublist db.enqueued)
    (hu : u ∈ db.pendingTransactions) : u ∈ earlier := by
  have hnodup : db.enqueued.Nodup := h.enqueued_nodup.of_map _
  rw [heq, mem_append, mem_cons] at hu
  rcases hu with hu | rfl | hu
  · exact hu
  · exact absurd (hnodup.sublist hsub) (by simp)
  · have hback : [t, u].Sublist db.enqueued := by
      refine List.Sublist.trans ?_ h.pending_sublist
      rw [heq]
      exact sublist_append_of_sublist_right
        ((singleton_sublist.mpr hu).cons_cons t)
    exact absurd hback (not_sublist_of_pair_sublist hnodup hsub)

/-- A timer firing keeps creation order exactly when the first queued transaction
that is not held back does not overtake an overlapping reader. -/
theorem respectsCreationOrder_iff (h : Invariant db) :
    (∀ t, started db = some t → RespectsCreationOrder db t) ↔ ¬ Overtakes db := by
  constructor
  · rintro hord ⟨hopen, earlier, t, later, heq, hall, hfree, hmode, u, hu, hread, hlap⟩
    have hstart : started db = some t := by
      rcases takeNextRunnableTransaction_cases db with
        ⟨-, -, hheld⟩ | ⟨earlier', t', later', heq', hsome, -, hall', hfree', -⟩
      · exact absurd (hheld earlier t later heq hopen) hfree
      · have hsplit := heq'.symm.trans heq
        rcases append_eq_append_iff.mp hsplit with
          ⟨middle, hm, hm'⟩ | ⟨middle, hm, hm'⟩
        · cases middle with
          | nil =>
            obtain ⟨rfl, -⟩ := cons.inj hm'
            exact hsome
          | cons c middle =>
            obtain ⟨rfl, -⟩ := cons.inj hm'
            exact absurd (hall earlier' t' middle hm) hfree'
        · cases middle with
          | nil =>
            obtain ⟨rfl, -⟩ := cons.inj hm'
            exact hsome
          | cons c middle =>
            obtain ⟨rfl, -⟩ := cons.inj hm'
            exact absurd (hall' earlier t middle hm) hfree
    refine hord t hstart u (Sublist.trans ?_ h.pending_sublist) (.inl ?_)
      ⟨.inr hmode, hlap⟩
    · rw [heq]
      exact (singleton_sublist.mpr hu).append (singleton_sublist.mpr mem_cons_self)
    · rw [heq]
      exact mem_append_left _ hu
  · intro hnot t hstart u hsub hunfinished hconf
    rcases takeNextRunnableTransaction_cases db with
      ⟨hnone, -, -⟩ | ⟨earlier, t', later, heq, hsome, -, hall, hfree, hopen⟩
    · rw [started, hnone] at hstart
      cases hstart
    · obtain rfl : t' = t := Option.some.inj (hsome.symm.trans hstart)
      rcases hunfinished with hpend | hrunning
      · have hu : u ∈ earlier := mem_earlier_of_sublist h heq hsub hpend
        rcases u.mode_cases with hread | hwrite
        · exact hnot ⟨hopen, earlier, t', later, heq, hall, hfree, hconf.readWrite hread, u, hu,
            hread, hconf.2⟩
        · apply hfree
          rcases t'.mode_cases with hmode | hmode
          · exact (heldBack_readOnly hmode).mpr (.inl ⟨u, hu, hwrite, hconf.2⟩)
          · exact (heldBack_readWrite hmode).mpr (.inl ⟨u, hu, hwrite, hconf.2⟩)
      · exact h.tracks.compatible hfree u hrunning hconf.symm

/-- Along a run, the started transactions exclude each other, the bookkeeping is
exact in every state, and every start respects creation order. -/
def ScheduledCorrectly (events : List Event) : Prop :=
  ∀ before after db, events = before ++ after →
    run step (fresh supportsSimultaneous) before = some db →
    Exclusive db ∧ ScopesExact db ∧
      (after.head? = some .timerFired → ∀ t, started db = some t → RespectsCreationOrder db t)

/-- Mutual exclusion and exact bookkeeping hold in every reachable state. -/
theorem exclusive_and_exact (events : List Event) (db : Database)
    (hrun : run step (fresh supportsSimultaneous) events = some db) :
    Exclusive db ∧ ScopesExact db := by
  have h := Runs.invariant step step_invariant (fresh_invariant supportsSimultaneous) hrun
  exact ⟨h.tracks.exclusive, h.tracks.counts_eq, h.tracks.mem_writes⟩

/-- A run schedules correctly exactly when its timer never fires in a state whose
first free queued transaction is a writer overtaking an overlapping reader. -/
theorem scheduledCorrectly_iff (supportsSimultaneous : Bool) (events : List Event) :
    ScheduledCorrectly supportsSimultaneous events ↔
      Guarded step (fun db event => event = .timerFired → ¬ Overtakes db)
        (fresh supportsSimultaneous) events := by
  have hinv : ∀ {before db}, run step (fresh supportsSimultaneous) before = some db →
      Invariant db := fun hrun =>
    Runs.invariant step step_invariant (fresh_invariant supportsSimultaneous) hrun
  constructor
  · intro h before event after db heq hrun hevent
    obtain ⟨-, -, hord⟩ := h before (event :: after) db heq hrun
    exact (respectsCreationOrder_iff (hinv hrun)).mp (hord (by rw [hevent]; rfl))
  · intro h before after db heq hrun
    obtain ⟨hexcl, hexact⟩ := exclusive_and_exact supportsSimultaneous before db hrun
    refine ⟨hexcl, hexact, fun hhead => ?_⟩
    obtain ⟨event, rest, rfl, rfl⟩ : ∃ event rest, after = event :: rest ∧
        event = Event.timerFired := by
      cases after with
      | nil => cases hhead
      | cons event rest => exact ⟨event, rest, rfl, Option.some.inj hhead⟩
    exact (respectsCreationOrder_iff (hinv hrun)).mpr (h before _ rest db heq hrun rfl)

/-- A writer of store 2 starts while an earlier reader of stores 1 and 2 waits for
a running writer of store 1. -/
theorem not_scheduledCorrectly_overtaken_reader : ¬ ScheduledCorrectly true
      [.enqueue ⟨1, .readWrite, [1], by decide, by decide⟩, .timerFired,
        .enqueue ⟨2, .readOnly, [1, 2], by decide, by decide⟩,
        .enqueue ⟨3, .readWrite, [2], by decide, by decide⟩, .timerFired] := by
  intro h
  obtain ⟨-, -, hord⟩ := h
    [.enqueue ⟨1, .readWrite, [1], by decide, by decide⟩, .timerFired,
      .enqueue ⟨2, .readOnly, [1, 2], by decide, by decide⟩,
      .enqueue ⟨3, .readWrite, [2], by decide, by decide⟩] [.timerFired] _ rfl rfl
  refine hord rfl ⟨3, .readWrite, [2], by decide, by decide⟩ (by decide)
    ⟨2, .readOnly, [1, 2], by decide, by decide⟩ (by decide) (.inl (by decide)) ?_
  exact ⟨.inr rfl, 2, by decide, by decide⟩

/-- In no run is the queue stuck: whenever nothing runs, the timer starts the oldest transaction. -/
theorem always_started_of_idle (events : List Event) :
    Always step (fun db => unfinished db = [] → started db = db.pendingTransactions.head?)
      (fun _ _ => True) (fresh supportsSimultaneous) events := by
  intro before after db _ hrun
  have h := Runs.invariant step step_invariant (fresh_invariant _) hrun
  refine ⟨fun hidle => ?_, fun _ _ _ => trivial⟩
  have hopen : hasUnfinishedTransactions db = false := by
    simpa [hasUnfinishedTransactions, unfinished] using hidle
  have hfree (t : Transaction) : ¬ HeldBack db [] t := by
    rcases t.mode_cases with hmode | hmode
    · simp [heldBack_readOnly hmode, h.tracks.mem_writes, hidle]
    · simp [heldBack_readWrite hmode, h.tracks.mem_counts, hidle]
  rcases takeNextRunnableTransaction_cases db with
    ⟨hnone, -, hheld⟩ | ⟨earlier, t, later, heq, hsome, -, hall, -⟩
  · rw [started, hnone]
    cases hqueue : db.pendingTransactions with
    | nil => rfl
    | cons t rest => exact absurd (hheld [] t rest hqueue (.inr hopen)) (hfree t)
  · rw [started, hsome, heq]
    cases earlier with
    | nil => rfl
    | cons first earlier => exact absurd (hall [] first earlier rfl) (hfree first)

/-- In no run is a transaction started that overlaps an earlier writer which is not finished. -/
theorem always_behind_writers (events : List Event) :
    Always step (fun db => ∀ t ∈ started db, ∀ u, [u, t].Sublist db.enqueued →
        u ∈ db.pendingTransactions ∨ u ∈ unfinished db → u.mode = .readWrite → ¬ u.Overlap t)
      (fun _ _ => True) (fresh supportsSimultaneous) events := by
  intro before after db _ hrun
  have h := Runs.invariant step step_invariant (fresh_invariant _) hrun
  refine ⟨fun t ht u hsub hunfinished hwrite hlap => ?_, fun _ _ _ => trivial⟩
  rcases takeNextRunnableTransaction_cases db with
    ⟨hnone, -⟩ | ⟨earlier, t', later, heq, hsome, -, -, hfree, -⟩
  · cases hnone.symm.trans ht
  · obtain rfl : t' = t := Option.some.inj (hsome.symm.trans ht)
    rcases hunfinished with hpend | hrunning
    · have hu := mem_earlier_of_sublist h heq hsub hpend
      rcases t'.mode_cases with hmode | hmode
      · exact hfree ((heldBack_readOnly hmode).mpr (.inl ⟨u, hu, hwrite, hlap⟩))
      · exact hfree ((heldBack_readWrite hmode).mpr (.inl ⟨u, hu, hwrite, hlap⟩))
    · exact h.tracks.compatible hfree u hrunning ⟨.inr hwrite, hlap.symm⟩

end WebKit.TransactionScheduler
