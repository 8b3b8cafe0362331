import Mathlib

/-!
# The mempool's transactions pool

Model of `TransactionsPool::add_mempool_transaction` and
`TransactionsPool::remove_transaction`
(`mining/src/mempool/model/transactions_pool.rs` lines 100–188), of the parts of
the ready `Frontier` they touch (`frontier.rs` lines 164–198) and of
`MempoolUtxoSet::add_transaction` / `remove_transaction` (`utxo_set.rs` lines
26–73). A call either panics (`none`: a failed `assert!`, an `unwrap` of `None`,
a `usize` subtraction below zero) or leaves the pool in a new state, also when
`remove_transaction` returns its `RuleError`: the edges are cut before the
transaction is looked up.

The pool records a parent/child edge only from the child's side, when the child
is added: `add_mempool_transaction` looks up the added transaction's parents in
the pool and never its children, since in a pool that only grows those would be
orphans.

Results:
* `estimatedSize_run`: over every run of calls that does not panic,
  `estimated_size` is the sum of `mempool_estimated_bytes()` over the pool;
  `finishRemoval_ne_none` shows that then the subtraction and the
  "empty pool has zero size" assertion of `remove_transaction` never fail.

**Defect.** Removing a transaction while a child spends its outputs, then adding
it again, leaves the child's recorded parents empty and the child's key in the
ready frontier while its parent is in the pool
(`removeTransaction_readd_leaves_child_ready`): the case the `TODO` in
`remove_transaction` describes.
-/

namespace RustyKaspa.Mempool

/-- `TransactionOutpoint`. -/
structure TransactionOutpoint (Id : Type) where
  transactionId : Id
  index : ℕ
  deriving DecidableEq

/-- The fields of a `MutableTransaction` the pool reads. The calculated fee and
masses are taken as present: the pool only holds fully populated transactions. -/
structure MutableTransaction (Id E : Type) where
  id : Id
  /-- The `previous_outpoint` of each input. -/
  inputs : List (TransactionOutpoint Id)
  /-- The UTXO entry of each input, once populated. -/
  entries : List (Option E)
  /-- The UTXO entry each output creates. -/
  outputs : List E
  calculatedFee : ℕ
  mempoolEstimatedBytes : ℕ

/-- `MutableTransaction::is_fully_populated`: every input's entry is known. -/
def MutableTransaction.isFullyPopulated {Id E : Type} (mtx : MutableTransaction Id E) : Bool :=
  mtx.entries.all Option.isSome

/-- The transaction spends an output of the transaction `p`. -/
def MutableTransaction.Spends {Id E : Type} (mtx : MutableTransaction Id E) (p : Id) : Prop :=
  ∃ input ∈ mtx.inputs, input.transactionId = p

/-- `MempoolTransaction`: a transaction with one entry slot per input, the
assertion of `MempoolTransaction::new`. -/
structure MempoolTransaction (Id E : Type) where
  mtx : MutableTransaction Id E
  addedAtDaaScore : ℕ
  entries_length : mtx.entries.length = mtx.inputs.length

/-- `MempoolTransaction::new`; `none` is its failed assertion. -/
def MempoolTransaction.new {Id E : Type} (mtx : MutableTransaction Id E) (addedAtDaaScore : ℕ) :
    Option (MempoolTransaction Id E) :=
  if h : mtx.entries.length = mtx.inputs.length then some ⟨mtx, addedAtDaaScore, h⟩ else none

/-- `FeerateTransactionKey`: fee, mass and the transaction, compared by id. The
search tree orders keys by weight, fee and id, and the weight is a function of
fee and mass, so two keys of one transaction with one mass are the same key. -/
structure FeerateTransactionKey (Id : Type) where
  fee : ℕ
  mass : ℕ
  id : Id
  deriving DecidableEq

section

variable {Id E : Type} [DecidableEq Id]
variable (normalizedMass : MutableTransaction Id E → ℕ → ℕ)

/-- `FeerateTransactionKey::from_tx(tx, cofactors at tx.added_at_daa_score)`;
`normalizedMass mtx daa` is `Mass::new(..).normalized_max(..)` of the
transaction's masses under the configured cofactors at `daa`. -/
def FeerateTransactionKey.fromTx (tx : MempoolTransaction Id E) : FeerateTransactionKey Id :=
  ⟨tx.mtx.calculatedFee, normalizedMass tx.mtx tx.addedAtDaaScore, tx.mtx.id⟩

end

/-- The ready `Frontier`: its search tree as a set of keys, and `total_mass`. -/
structure Frontier (Id : Type) where
  searchTree : List (FeerateTransactionKey Id)
  totalMass : ℕ

/-- `MempoolUtxoSet`. -/
structure MempoolUtxoSet (Id E : Type) where
  poolUnspentOutputs : TransactionOutpoint Id → Option E
  outpointOwnerId : TransactionOutpoint Id → Option Id

/-- `TransactionsPool`, without its configuration and expiry bookkeeping. The
map `all_transactions` is the list of its values, each keyed by its id. -/
structure TransactionsPool (Id E : Type) where
  allTransactions : List (MempoolTransaction Id E)
  parentTransactions : Id → Option (List Id)
  chainedTransactions : Id → Option (List Id)
  readyTransactions : Frontier Id
  estimatedSize : ℕ
  utxoSet : MempoolUtxoSet Id E

/-- The `RuleError` of `remove_transaction`. -/
inductive RuleError (Id : Type) where
  | rejectMissingTransaction (transactionId : Id)

variable {Id E : Type} [DecidableEq Id]
variable (normalizedMass : MutableTransaction Id E → ℕ → ℕ)

namespace Frontier

/-- `Frontier::insert`: a key already in the search tree is left alone. -/
def insert (frontier : Frontier Id) (key : FeerateTransactionKey Id) : Frontier Id :=
  if key ∈ frontier.searchTree then frontier
  else ⟨key :: frontier.searchTree, frontier.totalMass + key.mass⟩

/-- `Frontier::remove`: a key not in the search tree is left alone. -/
def remove (frontier : Frontier Id) (key : FeerateTransactionKey Id) : Frontier Id :=
  if key ∈ frontier.searchTree then ⟨frontier.searchTree.erase key, frontier.totalMass - key.mass⟩
  else frontier

end Frontier

namespace MempoolUtxoSet

/-- `MempoolUtxoSet::add_transaction` (lines 26–51). The first loop removes the
outpoint `(transaction_id, i)` of the `i`-th input, and records the transaction
as the owner of the outpoint the input spends; the second adds its outputs. -/
def addTransaction (utxoSet : MempoolUtxoSet Id E) (transaction : MutableTransaction Id E) :
    MempoolUtxoSet Id E :=
  let utxoSet := transaction.inputs.zipIdx.foldl (fun utxoSet (input, i) =>
    ⟨Function.update utxoSet.poolUnspentOutputs ⟨transaction.id, i⟩ none,
      Function.update utxoSet.outpointOwnerId input (some transaction.id)⟩) utxoSet
  transaction.outputs.zipIdx.foldl (fun utxoSet (output, i) =>
    { utxoSet with poolUnspentOutputs := Function.update utxoSet.poolUnspentOutputs ⟨transaction.id, i⟩ (some output) })
    utxoSet

/-- `MempoolUtxoSet::remove_transaction` (lines 53–73): an input's entry goes back
when its parent is in the pool, its outpoint loses its owner, and the outputs go. -/
def removeTransaction (utxoSet : MempoolUtxoSet Id E) (transaction : MutableTransaction Id E)
    (parentIdsInPool : List Id) : MempoolUtxoSet Id E :=
  let utxoSet := (transaction.inputs.zip transaction.entries).foldl (fun utxoSet (input, entry) =>
    let unspent := match entry with
      | some entry =>
        if input.transactionId ∈ parentIdsInPool then Function.update utxoSet.poolUnspentOutputs input (some entry)
        else utxoSet.poolUnspentOutputs
      | none => utxoSet.poolUnspentOutputs
    ⟨unspent, Function.update utxoSet.outpointOwnerId input none⟩) utxoSet
  (List.range transaction.outputs.length).foldl (fun utxoSet i =>
    { utxoSet with poolUnspentOutputs := Function.update utxoSet.poolUnspentOutputs ⟨transaction.id, i⟩ none })
    utxoSet

end MempoolUtxoSet

namespace TransactionsPool

/-- `TransactionsPool::new`. -/
def new : TransactionsPool Id E :=
  ⟨[], fun _ => none, fun _ => none, ⟨[], 0⟩, 0, ⟨fun _ => none, fun _ => none⟩⟩

/-- `all_transactions.get(id)`. -/
def get (pool : TransactionsPool Id E) (transactionId : Id) : Option (MempoolTransaction Id E) :=
  pool.allTransactions.find? fun tx => tx.mtx.id = transactionId

/-- `Pool::has`. -/
def has (pool : TransactionsPool Id E) (transactionId : Id) : Bool :=
  pool.allTransactions.any fun tx => tx.mtx.id = transactionId

/-- `Pool::get_parent_transaction_ids_in_pool`: the ids of the transactions of
the pool whose outputs the transaction spends. -/
def getParentTransactionIdsInPool (pool : TransactionsPool Id E) (transaction : MutableTransaction Id E) :
    List Id :=
  transaction.inputs.foldl (fun parents input =>
    if pool.has input.transactionId then parents.insert input.transactionId else parents) []

/-- `add_mempool_transaction` (lines 113–139); `none` is one of its two
assertions failing. -/
def addMempoolTransaction (pool : TransactionsPool Id E) (transaction : MempoolTransaction Id E)
    (transactionSize : ℕ) : Option (TransactionsPool Id E) :=
  let id := transaction.mtx.id
  if pool.has id || !transaction.mtx.isFullyPopulated then none
  else
    let parents := pool.getParentTransactionIdsInPool transaction.mtx
    let readyTransactions := if parents.isEmpty then
        pool.readyTransactions.insert (FeerateTransactionKey.fromTx normalizedMass transaction)
      else pool.readyTransactions
    let chainedTransactions := parents.foldl (fun chained parentId =>
      Function.update chained parentId (some (((chained parentId).getD []).insert id))) pool.chainedTransactions
    some ⟨pool.allTransactions ++ [transaction], Function.update pool.parentTransactions id (some parents),
      chainedTransactions, readyTransactions, pool.estimatedSize + transactionSize,
      pool.utxoSet.addTransaction transaction.mtx⟩

/-- `add_transaction` (lines 100–111). -/
def addTransaction (pool : TransactionsPool Id E) (transaction : MutableTransaction Id E)
    (virtualDaaScore transactionSize : ℕ) : Option (TransactionsPool Id E) := do
  let transaction ← MempoolTransaction.new transaction virtualDaaScore
  pool.addMempoolTransaction normalizedMass transaction transactionSize

/-- Lines 143–149: the removed transaction leaves the chained sets of its parents. -/
def unchainFromParents (pool : TransactionsPool Id E) (transactionId : Id) : Id → Option (List Id) :=
  match pool.parentTransactions transactionId with
  | none => pool.chainedTransactions
  | some parents => parents.foldl (fun chained parent =>
      match chained parent with
      | some chains => Function.update chained parent (some (chains.erase transactionId))
      | none => chained) pool.chainedTransactions

/-- One iteration of lines 151–160: the child `chain` loses the removed parent,
and becomes ready when it has no parent left; the `unwrap` of its lookup panics
when it is not in the pool. -/
def releaseChain (transactionId : Id) (pool : TransactionsPool Id E) (chain : Id) :
    Option (TransactionsPool Id E) :=
  match pool.parentTransactions chain with
  | none => some pool
  | some parents =>
    let parents := parents.erase transactionId
    let pool := { pool with parentTransactions := Function.update pool.parentTransactions chain (some parents) }
    if parents.isEmpty then
      match pool.get chain with
      | none => none
      | some tx => some { pool with
          readyTransactions := pool.readyTransactions.insert (FeerateTransactionKey.fromTx normalizedMass tx) }
    else some pool

/-- Lines 166–186, once the transaction has been taken out of `all_transactions`:
its key leaves the frontier, its inputs and outputs the UTXO set, and its bytes
the estimated size. -/
def finishRemoval (pool : TransactionsPool Id E) (removedTx : MempoolTransaction Id E) :
    Option (TransactionsPool Id E) :=
  let readyTransactions := pool.readyTransactions.remove (FeerateTransactionKey.fromTx normalizedMass removedTx)
  let parentIds := pool.getParentTransactionIdsInPool removedTx.mtx
  let utxoSet := pool.utxoSet.removeTransaction removedTx.mtx parentIds
  if pool.estimatedSize < removedTx.mtx.mempoolEstimatedBytes then none
  else
    let estimatedSize := pool.estimatedSize - removedTx.mtx.mempoolEstimatedBytes
    if pool.allTransactions.isEmpty && estimatedSize != 0 then none
    else some { pool with readyTransactions, estimatedSize, utxoSet }

/-- `remove_transaction` (lines 142–188): the pool after the call, with the
removed transaction or the error it returns; `none` is a panic. -/
def removeTransaction (pool : TransactionsPool Id E) (transactionId : Id) :
    Option (TransactionsPool Id E × Except (RuleError Id) (MempoolTransaction Id E)) := do
  let pool := { pool with chainedTransactions := pool.unchainFromParents transactionId }
  let pool ← ((pool.chainedTransactions transactionId).getD []).foldlM
    (releaseChain normalizedMass transactionId) pool
  let pool := { pool with
    parentTransactions := Function.update pool.parentTransactions transactionId none
    chainedTransactions := Function.update pool.chainedTransactions transactionId none }
  match pool.get transactionId with
  | none => some (pool, .error (.rejectMissingTransaction transactionId))
  | some removedTx =>
    let pool := { pool with allTransactions := pool.allTransactions.eraseP fun tx => tx.mtx.id = transactionId }
    let pool ← finishRemoval normalizedMass pool removedTx
    some (pool, .ok removedTx)

end TransactionsPool

/-- The calls a run of the pool is made of: `add_transaction(tx, daa, priority,
tx.mempool_estimated_bytes())` and `remove_transaction(id)`. -/
inductive PoolCall (Id E : Type) where
  | addTransaction (transaction : MutableTransaction Id E) (virtualDaaScore : ℕ)
  | removeTransaction (transactionId : Id)

namespace TransactionsPool

/-- One call of a run; its result value is dropped. -/
def apply (pool : TransactionsPool Id E) : PoolCall Id E → Option (TransactionsPool Id E)
  | .addTransaction transaction virtualDaaScore =>
    pool.addTransaction normalizedMass transaction virtualDaaScore transaction.mempoolEstimatedBytes
  | .removeTransaction transactionId => (pool.removeTransaction normalizedMass transactionId).map Prod.fst

/-- A run of calls; `none` when one of them panics. -/
def run (pool : TransactionsPool Id E) (calls : List (PoolCall Id E)) : Option (TransactionsPool Id E) :=
  calls.foldlM (apply normalizedMass) pool

/-- The conditions under which a call is made: an added transaction is fully
populated, not in the pool, and spends no outpoint a pool transaction spends. -/
def Admissible (pool : TransactionsPool Id E) : PoolCall Id E → Prop
  | .addTransaction transaction _ =>
    transaction.isFullyPopulated ∧ pool.has transaction.id = false ∧
      ∀ tx ∈ pool.allTransactions, ∀ input ∈ transaction.inputs, input ∉ tx.mtx.inputs
  | .removeTransaction _ => True

/-- Every call of the run is made under its conditions. -/
def AdmissibleRun : TransactionsPool Id E → List (PoolCall Id E) → Prop
  | _, [] => True
  | pool, call :: calls =>
    pool.Admissible call ∧ ∀ pool', pool.apply normalizedMass call = some pool' → AdmissibleRun pool' calls

/-- Part (a) of the bookkeeping: the recorded parents of a pool transaction are
the pool transactions it spends from, and the chained sets are the inverse
relation over the pool. -/
def EdgesExact (pool : TransactionsPool Id E) : Prop :=
  (∀ c ∈ pool.allTransactions, ∀ p,
    p ∈ (pool.parentTransactions c.mtx.id).getD [] ↔ pool.has p = true ∧ c.mtx.Spends p) ∧
  (∀ p c, pool.has p = true → pool.has c = true →
    (c ∈ (pool.chainedTransactions p).getD [] ↔ p ∈ (pool.parentTransactions c).getD []))

/-- Part (b): the frontier holds the key of a pool transaction exactly when it
has no parent in the pool, it holds no other key, and its total mass is that of
its keys. -/
def ReadyExact (pool : TransactionsPool Id E) : Prop :=
  (∀ c ∈ pool.allTransactions, FeerateTransactionKey.fromTx normalizedMass c ∈ pool.readyTransactions.searchTree ↔
    ∀ p, pool.has p = true → ¬c.mtx.Spends p) ∧
  (∀ key ∈ pool.readyTransactions.searchTree,
    ∃ c ∈ pool.allTransactions, key = FeerateTransactionKey.fromTx normalizedMass c) ∧
  pool.readyTransactions.totalMass = (pool.readyTransactions.searchTree.map FeerateTransactionKey.mass).sum

/-- Part (c): `estimated_size` is the sum of the pool's estimated bytes. -/
def SizeExact (pool : TransactionsPool Id E) : Prop :=
  pool.estimatedSize = (pool.allTransactions.map fun tx => tx.mtx.mempoolEstimatedBytes).sum

/-! ## The estimated size -/

/-- Erasing the element `find?` returns takes its value out of a sum. -/
theorem sum_map_eraseP_of_find? {α : Type*} {p : α → Bool} {l : List α} {x : α} (f : α → ℕ)
    (h : l.find? p = some x) : (l.map f).sum = ((l.eraseP p).map f).sum + f x := by
  obtain ⟨hx, l₁, l₂, rfl, hl₁⟩ := List.find?_eq_some_iff_append.mp h
  rw [List.eraseP_append_right _ (fun b hb => by simpa using hl₁ b hb), List.eraseP_cons_of_pos hx]
  simp only [List.map_append, List.map_cons, List.sum_append, List.sum_cons]
  omega

omit [DecidableEq Id] in
theorem new_sizeExact : (new : TransactionsPool Id E).SizeExact := rfl

theorem addMempoolTransaction_frame {pool pool' : TransactionsPool Id E} {transaction : MempoolTransaction Id E}
    {transactionSize : ℕ} (h : pool.addMempoolTransaction normalizedMass transaction transactionSize = some pool') :
    pool'.allTransactions = pool.allTransactions ++ [transaction] ∧
      pool'.estimatedSize = pool.estimatedSize + transactionSize := by
  unfold addMempoolTransaction at h
  dsimp only at h
  split at h
  · cases h
  · cases h
    exact ⟨rfl, rfl⟩

theorem releaseChain_frame {transactionId chain : Id} {pool pool' : TransactionsPool Id E}
    (h : releaseChain normalizedMass transactionId pool chain = some pool') :
    pool'.allTransactions = pool.allTransactions ∧ pool'.estimatedSize = pool.estimatedSize := by
  unfold releaseChain at h
  dsimp only at h
  split at h
  · cases h
    exact ⟨rfl, rfl⟩
  · split at h
    · split at h
      · cases h
      · cases h
        exact ⟨rfl, rfl⟩
    · cases h
      exact ⟨rfl, rfl⟩

/-- The loop of lines 151–160 leaves the transactions and the size alone. -/
theorem foldlM_releaseChain_frame {transactionId : Id} (chains : List Id) {pool pool' : TransactionsPool Id E}
    (h : chains.foldlM (releaseChain normalizedMass transactionId) pool = some pool') :
    pool'.allTransactions = pool.allTransactions ∧ pool'.estimatedSize = pool.estimatedSize := by
  induction chains generalizing pool with
  | nil =>
    cases h
    exact ⟨rfl, rfl⟩
  | cons chain chains ih =>
    rw [List.foldlM_cons] at h
    obtain ⟨pool₁, h₁, h₂⟩ := Option.bind_eq_some_iff.mp h
    obtain ⟨hall₁, hsize₁⟩ := releaseChain_frame normalizedMass h₁
    obtain ⟨hall₂, hsize₂⟩ := ih h₂
    exact ⟨hall₂.trans hall₁, hsize₂.trans hsize₁⟩

theorem finishRemoval_frame {pool pool' : TransactionsPool Id E} {removedTx : MempoolTransaction Id E}
    (h : finishRemoval normalizedMass pool removedTx = some pool') :
    pool'.allTransactions = pool.allTransactions ∧
      pool'.estimatedSize = pool.estimatedSize - removedTx.mtx.mempoolEstimatedBytes := by
  unfold finishRemoval at h
  dsimp only at h
  split at h
  · cases h
  · split at h
    · cases h
    · cases h
      exact ⟨rfl, rfl⟩

/-- With the size kept exact, the subtraction of line 183 and the assertion of
line 186 hold whenever the transaction is found. -/
theorem finishRemoval_ne_none {pool : TransactionsPool Id E} {transactionId : Id}
    {removedTx : MempoolTransaction Id E} (hsize : pool.SizeExact) (hget : pool.get transactionId = some removedTx) :
    finishRemoval normalizedMass
      { pool with allTransactions := pool.allTransactions.eraseP fun tx => tx.mtx.id = transactionId }
      removedTx ≠ none := by
  have hsum := sum_map_eraseP_of_find? (fun tx => tx.mtx.mempoolEstimatedBytes) hget
  rw [← hsize] at hsum
  unfold finishRemoval
  dsimp only
  rw [if_neg (by omega)]
  split
  · -- an emptied pool had exactly the removed transaction's bytes
    rename_i hempty
    simp only [Bool.and_eq_true, List.isEmpty_iff, bne_iff_ne, ne_eq] at hempty
    rw [hempty.1, List.map_nil, List.sum_nil] at hsum
    omega
  · exact Option.some_ne_none _

theorem removeTransaction_sizeExact {pool pool' : TransactionsPool Id E} {transactionId : Id}
    {r : Except (RuleError Id) (MempoolTransaction Id E)} (hsize : pool.SizeExact)
    (h : pool.removeTransaction normalizedMass transactionId = some (pool', r)) : pool'.SizeExact := by
  unfold removeTransaction at h
  obtain ⟨pool₁, h₁, h₂⟩ := Option.bind_eq_some_iff.mp h
  obtain ⟨hall₁, hsize₁⟩ := foldlM_releaseChain_frame normalizedMass _ h₁
  have hexact₁ : pool₁.SizeExact := by
    rw [SizeExact, hall₁, hsize₁]
    exact hsize
  dsimp only at h₂
  split at h₂
  · cases h₂
    exact hexact₁
  · rename_i removedTx hget
    obtain ⟨pool₂, h₃, h₄⟩ := Option.bind_eq_some_iff.mp h₂
    cases h₄
    obtain ⟨hall₂, hsize₂⟩ := finishRemoval_frame normalizedMass h₃
    have hsum := sum_map_eraseP_of_find? (fun tx => tx.mtx.mempoolEstimatedBytes) hget
    dsimp only at hall₂ hsize₂ hsum
    rw [SizeExact, hall₂, hsize₂]
    rw [SizeExact] at hexact₁
    omega

theorem apply_sizeExact {pool pool' : TransactionsPool Id E} {call : PoolCall Id E} (hsize : pool.SizeExact)
    (h : pool.apply normalizedMass call = some pool') : pool'.SizeExact := by
  cases call with
  | addTransaction transaction virtualDaaScore =>
    obtain ⟨tx, hnew, hadd⟩ := Option.bind_eq_some_iff.mp h
    obtain ⟨hall, hsize'⟩ := addMempoolTransaction_frame normalizedMass hadd
    have hmtx : tx.mtx = transaction := by
      unfold MempoolTransaction.new at hnew
      split at hnew
      · cases hnew
        rfl
      · cases hnew
    rw [SizeExact, hall, hsize', hsize, List.map_append, List.sum_append, List.map_singleton,
      List.sum_singleton, hmtx]
  | removeTransaction transactionId =>
    obtain ⟨⟨pool₁, r⟩, hremove, rfl⟩ := Option.map_eq_some_iff.mp h
    exact removeTransaction_sizeExact normalizedMass hsize hremove

/-- Over every run that does not panic, `estimated_size` stays the sum of the
pool's estimated bytes. -/
theorem estimatedSize_run {pool pool' : TransactionsPool Id E} (calls : List (PoolCall Id E))
    (hsize : pool.SizeExact) (h : pool.run normalizedMass calls = some pool') : pool'.SizeExact := by
  induction calls generalizing pool with
  | nil =>
    cases h
    exact hsize
  | cons call calls ih =>
    rw [run, List.foldlM_cons] at h
    obtain ⟨pool₁, h₁, h₂⟩ := Option.bind_eq_some_iff.mp h
    exact ih (apply_sizeExact normalizedMass hsize h₁) h₂

/-! ## Violations of the bookkeeping -/

/-- A pool transaction whose parent in the pool is not among its recorded
parents breaks part (a). -/
theorem not_edgesExact_of_unrecorded_parent {pool : TransactionsPool Id E} {c : MempoolTransaction Id E} {p : Id}
    (hc : c ∈ pool.allTransactions) (hp : pool.has p = true) (hs : c.mtx.Spends p)
    (hmiss : p ∉ (pool.parentTransactions c.mtx.id).getD []) : ¬pool.EdgesExact := fun h =>
  hmiss ((h.1 c hc p).mpr ⟨hp, hs⟩)

/-- A pool transaction with a parent in the pool whose key is in the frontier
breaks part (b). -/
theorem not_readyExact_of_ready_child {pool : TransactionsPool Id E} {c : MempoolTransaction Id E} {p : Id}
    (hc : c ∈ pool.allTransactions) (hp : pool.has p = true) (hs : c.mtx.Spends p)
    (hk : FeerateTransactionKey.fromTx normalizedMass c ∈ pool.readyTransactions.searchTree) :
    ¬pool.ReadyExact normalizedMass := fun h =>
  (h.1 c hc).mp hk p hp hs

end TransactionsPool

/-- A transaction spending an outpoint from outside the pool. -/
def parentTx : MutableTransaction ℕ ℕ := ⟨0, [⟨7, 0⟩], [some 50], [40], 1, 100⟩

/-- A transaction spending the output of `parentTx`. -/
def childTx : MutableTransaction ℕ ℕ := ⟨1, [⟨0, 0⟩], [some 40], [30], 2, 120⟩

/-- Add the parent, add its child, remove the parent alone, add it again. -/
def readdCalls : List (PoolCall ℕ ℕ) :=
  [.addTransaction parentTx 0, .addTransaction childTx 0, .removeTransaction 0, .addTransaction parentTx 0]

open TransactionsPool in
/-- Under every mass configuration, the four calls of `readdCalls` are made under
their conditions and do not panic, and they leave `childTx` with no recorded
parent and its key in the frontier while `parentTx` is in the pool. -/
theorem removeTransaction_readd_leaves_child_ready (normalizedMass : MutableTransaction ℕ ℕ → ℕ → ℕ) :
    (new : TransactionsPool ℕ ℕ).AdmissibleRun normalizedMass readdCalls ∧
      ∃ pool, new.run normalizedMass readdCalls = some pool ∧
        ¬pool.EdgesExact ∧ ¬pool.ReadyExact normalizedMass := by
  constructor
  · simp [AdmissibleRun, Admissible, readdCalls, apply, addTransaction, MempoolTransaction.new,
      addMempoolTransaction, removeTransaction, new, has, parentTx, childTx, MutableTransaction.isFullyPopulated,
      getParentTransactionIdsInPool, Frontier.insert, Frontier.remove, unchainFromParents, releaseChain,
      TransactionsPool.get, finishRemoval]
  · have hs : childTx.Spends 0 := ⟨⟨0, 0⟩, List.mem_singleton_self _, rfl⟩
    obtain ⟨pool, hrun, hc, hp, hmiss, hk⟩ : ∃ pool, new.run normalizedMass readdCalls = some pool ∧
        (⟨childTx, 0, rfl⟩ : MempoolTransaction ℕ ℕ) ∈ pool.allTransactions ∧ pool.has 0 = true ∧
        0 ∉ (pool.parentTransactions 1).getD [] ∧
        FeerateTransactionKey.fromTx normalizedMass ⟨childTx, 0, rfl⟩ ∈ pool.readyTransactions.searchTree := by
      simp [run, readdCalls, apply, addTransaction, MempoolTransaction.new, addMempoolTransaction,
        removeTransaction, new, has, parentTx, childTx, MutableTransaction.isFullyPopulated,
        getParentTransactionIdsInPool, Frontier.insert, Frontier.remove, unchainFromParents, releaseChain,
        TransactionsPool.get, finishRemoval, FeerateTransactionKey.fromTx]
    exact ⟨pool, hrun, not_edgesExact_of_unrecorded_parent hc hp hs hmiss,
      not_readyExact_of_ready_child normalizedMass hc hp hs hk⟩

end RustyKaspa.Mempool
