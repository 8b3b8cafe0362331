import RustyKaspa.Hashes
import RustyKaspa.Lib.AListFold

/-!
# UTXO collections

Model of `UtxoCollection` and its helpers
(`consensus/core/src/utxo/utxo_collection.rs`): a map from outpoints to UTXO
entries, the DAA-score aware membership test, and the in-place set operations
the diff algebra is built from.

The `HashMap` is an `AList`, whose entry order stands for the unspecified
iteration order. The loops of the source insert every entry of one collection
at most once, so what they compute at an outpoint depends only on the
collections at that outpoint (the `lookup_*` lemmas); `intersects_with_rule`
returns an outpoint that depends on the order, and only whether it returns
one is used.
-/

namespace RustyKaspa.Utxo

open AListFold

/-- `TransactionOutpoint` (`tx.rs` lines 50–54). -/
structure TransactionOutpoint where
  transactionId : Hash
  index : ℕ
  deriving DecidableEq, Repr

/-- `ScriptPublicKey`: its version and script bytes. -/
structure ScriptPublicKey where
  version : ℕ
  script : List ℕ
  deriving DecidableEq, Repr

/-- `UtxoEntry` (`utxo_entry.rs` lines 20–31). -/
structure UtxoEntry where
  amount : ℕ
  scriptPublicKey : ScriptPublicKey
  blockDaaScore : ℕ
  isCoinbase : Bool
  covenantId : Option Hash
  deriving DecidableEq, Repr

/-- `UtxoCollection` (`utxo_collection.rs` line 5). -/
abbrev UtxoCollection := AList fun _ : TransactionOutpoint => UtxoEntry

namespace UtxoCollection

/-- `contains_with_daa_score` (`utxo_collection.rs` lines 35–37). -/
def containsWithDaaScore (c : UtxoCollection) (outpoint : TransactionOutpoint) (daaScore : ℕ) :
    Bool :=
  match c.lookup outpoint with
  | some entry => entry.blockDaaScore == daaScore
  | none => false

/-- `add_collection` (`utxo_collection.rs` lines 39–43): every entry of
`other`, overwriting. -/
def addCollection (c other : UtxoCollection) : UtxoCollection :=
  insertFiltered (fun _ _ => true) other.entries c

/-- `remove_collection` (`utxo_collection.rs` lines 45–49). -/
def removeCollection (c other : UtxoCollection) : UtxoCollection :=
  eraseAll other.keys c

/-- `intersects` (`utxo_collection.rs` lines 51–62): whether the two share a
key, iterating the smaller one. -/
def intersects (c other : UtxoCollection) : Bool :=
  if c.keys.length ≤ other.keys.length then c.keys.any fun k => (other.lookup k).isSome
  else other.keys.any fun k => (c.lookup k).isSome

/-- `intersects_with_rule` (`utxo_collection.rs` lines 64–88): a shared key
whose two entries satisfy the rule, iterating the smaller collection; the rule
always gets the entry of `c` first. -/
def intersectsWithRule (c other : UtxoCollection)
    (rule : TransactionOutpoint → UtxoEntry → UtxoEntry → Bool) : Option TransactionOutpoint :=
  if c.keys.length ≤ other.keys.length then
    (c.entries.find? fun e =>
      match other.lookup e.1 with
      | some v2 => rule e.1 e.2 v2
      | none => false).map (·.1)
  else
    (other.entries.find? fun e =>
      match c.lookup e.1 with
      | some v1 => rule e.1 v1 e.2
      | none => false).map (·.1)

end UtxoCollection

open UtxoCollection

/-- `intersection_with_remainder_having_daa_score_in_place`
(`utxo_collection.rs` lines 105–119): the entries of `this` that `other` holds
with the same DAA score go into `result`, the others into `remainder`. -/
def intersectionWithRemainderHavingDaaScoreInPlace (this other result remainder : UtxoCollection) :
    UtxoCollection × UtxoCollection :=
  (insertFiltered (fun o e => other.containsWithDaaScore o e.blockDaaScore) this.entries result,
    insertFiltered (fun o e => !other.containsWithDaaScore o e.blockDaaScore) this.entries remainder)

/-- `subtraction_having_daa_score_in_place` (`utxo_collection.rs` lines
121–134): the entries of `this` that `other` does not hold with the same DAA
score go into `result`. -/
def subtractionHavingDaaScoreInPlace (this other result : UtxoCollection) : UtxoCollection :=
  insertFiltered (fun o e => !other.containsWithDaaScore o e.blockDaaScore) this.entries result

/-- `subtraction_with_remainder_having_daa_score_in_place`
(`utxo_collection.rs` lines 136–152): the entries of `this` that `other` does
not hold with the same DAA score go into `result`, the others into `remainder`. -/
def subtractionWithRemainderHavingDaaScoreInPlace (this other result remainder : UtxoCollection) :
    UtxoCollection × UtxoCollection :=
  (insertFiltered (fun o e => !other.containsWithDaaScore o e.blockDaaScore) this.entries result,
    insertFiltered (fun o e => other.containsWithDaaScore o e.blockDaaScore) this.entries remainder)

/-! ## What the operations compute at an outpoint -/

namespace UtxoCollection

/-- `contains_with_daa_score` reads only the entry at the outpoint. -/
def containsAt (x : Option UtxoEntry) (daaScore : ℕ) : Bool :=
  match x with
  | some entry => entry.blockDaaScore == daaScore
  | none => false

@[simp] theorem containsAt_none (daaScore : ℕ) : containsAt none daaScore = false :=
  rfl

@[simp] theorem containsAt_some (e : UtxoEntry) (daaScore : ℕ) :
    containsAt (some e) daaScore = (e.blockDaaScore == daaScore) :=
  rfl

theorem containsWithDaaScore_eq (c : UtxoCollection) (o : TransactionOutpoint) (daaScore : ℕ) :
    c.containsWithDaaScore o daaScore = containsAt (c.lookup o) daaScore :=
  rfl

/-- A filtered copy of a collection's entries, at one outpoint. -/
theorem lookup_insertFiltered (p : TransactionOutpoint → UtxoEntry → Bool) (this m : UtxoCollection)
    (o : TransactionOutpoint) :
    (insertFiltered p this.entries m).lookup o = filteredAt p o (this.lookup o) (m.lookup o) :=
  AListFold.lookup_insertFiltered p this.nodupKeys m o

theorem lookup_addCollection (c other : UtxoCollection) (o : TransactionOutpoint) :
    (c.addCollection other).lookup o = (other.lookup o).or (c.lookup o) := by
  rw [addCollection, lookup_insertFiltered]
  cases other.lookup o <;> rfl

theorem lookup_removeCollection (c other : UtxoCollection) (o : TransactionOutpoint) :
    (c.removeCollection other).lookup o = if (other.lookup o).isSome then none else c.lookup o := by
  rw [removeCollection, lookup_eraseAll]
  simp only [AList.lookup_isSome, AList.mem_keys]

/-- The loop of `intersects_with_rule` over one side finds nothing exactly
when no shared key satisfies the rule. -/
theorem find?_shared_eq_none_iff (c other : UtxoCollection)
    (rule : TransactionOutpoint → UtxoEntry → UtxoEntry → Bool) :
    (c.entries.find? fun e =>
      match other.lookup e.1 with
      | some v2 => rule e.1 e.2 v2
      | none => false) = none ↔
      ∀ o v1 v2, c.lookup o = some v1 → other.lookup o = some v2 → rule o v1 v2 = false := by
  rw [List.find?_eq_none]
  constructor
  · intro h o v1 v2 h1 h2
    have := h ⟨o, v1⟩ (AList.mem_lookup_iff.mp h1)
    simpa [h2] using this
  · intro h e he
    have h1 : c.lookup e.1 = some e.2 := AList.mem_lookup_iff.mpr he
    cases h2 : other.lookup e.1 with
    | none => simp
    | some v2 => simp [h e.1 e.2 v2 h1 h2]

theorem intersectsWithRule_eq_none_iff (c other : UtxoCollection)
    (rule : TransactionOutpoint → UtxoEntry → UtxoEntry → Bool) :
    c.intersectsWithRule other rule = none ↔
      ∀ o v1 v2, c.lookup o = some v1 → other.lookup o = some v2 → rule o v1 v2 = false := by
  unfold intersectsWithRule
  split_ifs
  · rw [Option.map_eq_none_iff, find?_shared_eq_none_iff]
  · -- iterating `other`: the same condition with the two sides swapped
    rw [Option.map_eq_none_iff, find?_shared_eq_none_iff other c fun o v2 v1 => rule o v1 v2]
    exact ⟨fun h o v1 v2 h1 h2 => h o v2 v1 h2 h1, fun h o v2 v1 h2 h1 => h o v1 v2 h1 h2⟩

theorem intersects_iff (c other : UtxoCollection) :
    c.intersects other = true ↔ ∃ o, o ∈ c ∧ o ∈ other := by
  unfold intersects
  split_ifs
  · simp only [List.any_eq_true, AList.mem_keys, AList.lookup_isSome]
  · simp only [List.any_eq_true, AList.mem_keys, AList.lookup_isSome]
    exact ⟨fun ⟨o, h1, h2⟩ => ⟨o, h2, h1⟩, fun ⟨o, h1, h2⟩ => ⟨o, h2, h1⟩⟩

end UtxoCollection

end RustyKaspa.Utxo
