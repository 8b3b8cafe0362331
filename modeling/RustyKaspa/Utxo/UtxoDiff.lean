import RustyKaspa.Utxo.UtxoCollection

/-!
# The UTXO diff algebra

Model of `UtxoDiff` (`consensus/core/src/utxo/utxo_diff.rs`): a pair of
collections, the entries a block (or a chain of blocks) adds and removes, with
`with_diff` (composition), `diff_from` (the diff between two diffs of one base)
and `add_transaction`.

Against set semantics: a UTXO set `S` is a collection, a diff `D` is valid for
`S` (`Valid S D`) when what it removes is in `S`, what it adds is not in `S`
minus what it removes, and no outpoint is added and removed at one DAA score;
it leads to `applyDiff S D`, `S` minus the keys of `D.remove` plus `D.add`.
The code assumes that two entries at one outpoint with one DAA score are
equal; the results assume it of the collections whose entries they compare
(`Coherent`).

Every operation computes, at each outpoint, a function of what its arguments
hold at that outpoint (`withDiffAt`, `diffFromAt`, ...), and its sanity checks
fail exactly when one outpoint fails them. The results are proved outpoint by
outpoint:
* `withDiff_apply`: `D1.with_diff(D2)` succeeds on diffs valid in sequence, and
  its result is valid for `S` and leads where `D1` then `D2` lead.
* `diffFrom_apply`: `D1.diff_from(D2)` succeeds on two diffs valid for `S`, and
  its result is valid after `D1` and leads from there where `D2` leads.
* `addTransaction_apply`: adding a transaction whose inputs are available and
  whose outputs are new succeeds, keeps the diff valid, and leads to the set
  minus the inputs plus the outputs.
-/

namespace RustyKaspa.Utxo

open AListFold UtxoCollection

/-- `UtxoDiff` (`utxo_diff.rs` lines 15–19). -/
structure UtxoDiff where
  add : UtxoCollection
  remove : UtxoCollection

/-- `UtxoAlgebraError` (`utxo_error.rs` lines 5–24), with the descriptions
`diff_from` attaches. -/
inductive UtxoAlgebraError where
  | duplicateRemovePoint (outpoint : TransactionOutpoint)
  | duplicateAddPoint (outpoint : TransactionOutpoint)
  | doubleRemoveCall (outpoint : TransactionOutpoint)
  | doubleAddCall (outpoint : TransactionOutpoint)
  | diffIntersectionPoint (outpoint : TransactionOutpoint) (description : String)
  | general (description : String)
  deriving DecidableEq, Repr

namespace UtxoDiff

/-- The two passes of `with_diff_in_place` after its sanity checks
(`utxo_diff.rs` lines 101–113): what `other` removes leaves `add` if it is
there with its score and joins `remove` otherwise; then what `other` adds
leaves `remove` if it is there with its score and joins `add` otherwise. -/
def withDiffPasses (self other : UtxoDiff) : UtxoDiff :=
  let (intersection, remove) :=
    intersectionWithRemainderHavingDaaScoreInPlace other.remove self.add ∅ self.remove
  let add := self.add.removeCollection intersection
  let (intersection, add) := intersectionWithRemainderHavingDaaScoreInPlace other.add remove ∅ add
  ⟨add, remove.removeCollection intersection⟩

/-- `with_diff_in_place` (`utxo_diff.rs` lines 84–114). -/
def withDiffInPlace (self other : UtxoDiff) : Except UtxoAlgebraError UtxoDiff :=
  match other.remove.intersectsWithRule self.remove (fun outpoint entryToAdd _ =>
      !self.add.containsWithDaaScore outpoint entryToAdd.blockDaaScore) with
  | some offendingOutpoint => .error (.duplicateRemovePoint offendingOutpoint)
  | none =>
    match other.add.intersectsWithRule self.add (fun outpoint _ existingEntry =>
        !other.remove.containsWithDaaScore outpoint existingEntry.blockDaaScore) with
    | some offendingOutpoint => .error (.duplicateAddPoint offendingOutpoint)
    | none => .ok (withDiffPasses self other)

/-- `with_diff` (`utxo_diff.rs` lines 76–80): the same on a clone. -/
def withDiff (self other : UtxoDiff) : Except UtxoAlgebraError UtxoDiff :=
  withDiffInPlace self other

/-- `diff_from` (`utxo_diff.rs` lines 150–222). -/
def diffFrom (self other : UtxoDiff) : Except UtxoAlgebraError UtxoDiff :=
  let ruleNotAddedOutputRemovedWithDaaScore := fun outpoint (thisEntry otherEntry : UtxoEntry) =>
    !(otherEntry.blockDaaScore != thisEntry.blockDaaScore &&
      (self.add.containsWithDaaScore outpoint otherEntry.blockDaaScore ||
        other.remove.containsWithDaaScore outpoint thisEntry.blockDaaScore))
  let ruleNotRemovedOutputAddedWithDaaScore := fun outpoint (thisEntry otherEntry : UtxoEntry) =>
    !(otherEntry.blockDaaScore != thisEntry.blockDaaScore &&
      (self.remove.containsWithDaaScore outpoint otherEntry.blockDaaScore ||
        other.add.containsWithDaaScore outpoint thisEntry.blockDaaScore))
  match self.remove.intersectsWithRule other.add ruleNotAddedOutputRemovedWithDaaScore with
  | some o => .error (.diffIntersectionPoint o "both in self.add and in other.remove")
  | none =>
  match self.add.intersectsWithRule other.remove ruleNotRemovedOutputAddedWithDaaScore with
  | some o => .error (.diffIntersectionPoint o "both in self.remove and in other.add")
  | none =>
  match self.remove.intersectsWithRule other.remove (fun _ thisEntry otherEntry =>
      otherEntry.blockDaaScore != thisEntry.blockDaaScore) with
  | some o => .error (.diffIntersectionPoint o
      "both in self.remove and other.remove with different DAA scores, with no corresponding entry in self.add")
  | none =>
    let (resultRemove, inBothToAdd) :=
      subtractionWithRemainderHavingDaaScoreInPlace self.add other.add ∅ ∅
    if inBothToAdd.intersects self.remove != inBothToAdd.intersects other.remove then
      .error (.general
        "diff_from: outpoint both in self.add, other.add, and only one of self.remove and other.remove")
    else
      let resultRemove := subtractionHavingDaaScoreInPlace other.remove self.remove resultRemove
      let resultAdd := subtractionHavingDaaScoreInPlace self.remove other.remove ∅
      let resultAdd := subtractionHavingDaaScoreInPlace other.add self.add resultAdd
      .ok ⟨resultAdd, resultRemove⟩

/-- `remove_entry` (`utxo_diff.rs` lines 245–254). -/
def removeEntry (self : UtxoDiff) (outpoint : TransactionOutpoint) (entry : UtxoEntry) :
    Except UtxoAlgebraError UtxoDiff :=
  if self.add.containsWithDaaScore outpoint entry.blockDaaScore then
    .ok { self with add := self.add.erase outpoint }
  else if outpoint ∉ self.remove then .ok { self with remove := self.remove.insert outpoint entry }
  else .error (.doubleRemoveCall outpoint)

/-- `add_entry` (`utxo_diff.rs` lines 256–265). -/
def addEntry (self : UtxoDiff) (outpoint : TransactionOutpoint) (entry : UtxoEntry) :
    Except UtxoAlgebraError UtxoDiff :=
  if self.remove.containsWithDaaScore outpoint entry.blockDaaScore then
    .ok { self with remove := self.remove.erase outpoint }
  else if outpoint ∉ self.add then .ok { self with add := self.add.insert outpoint entry }
  else .error (.doubleAddCall outpoint)

end UtxoDiff

/-- `TransactionOutput` (`tx.rs` lines 174–178); of its covenant binding only
the covenant id is read. -/
structure TransactionOutput where
  value : ℕ
  scriptPublicKey : ScriptPublicKey
  covenantId : Option Hash
  deriving DecidableEq, Repr

/-- What `add_transaction` reads of a `VerifiableTransaction`: its id, whether
it is a coinbase, its populated inputs (previous outpoint and entry) and its
outputs. -/
structure PopulatedTransaction where
  id : Hash
  isCoinbase : Bool
  populatedInputs : List (TransactionOutpoint × UtxoEntry)
  outputs : List TransactionOutput

/-- The entry `add_transaction` creates for output `i` (`utxo_diff.rs` lines
232–240). -/
def PopulatedTransaction.outputEntry (tx : PopulatedTransaction) (output : TransactionOutput)
    (blockDaaScore : ℕ) : UtxoEntry :=
  ⟨output.value, output.scriptPublicKey, blockDaaScore, tx.isCoinbase, output.covenantId⟩

/-- The outpoints and entries a transaction creates, `(tx.id(), i)` for its
output `i`. -/
def PopulatedTransaction.created (tx : PopulatedTransaction) (blockDaaScore : ℕ) :
    List (Σ _ : TransactionOutpoint, UtxoEntry) :=
  tx.outputs.zipIdx.map fun output => ⟨⟨tx.id, output.2⟩, tx.outputEntry output.1 blockDaaScore⟩

namespace UtxoDiff

/-- `add_transaction` (`utxo_diff.rs` lines 224–243): remove every input, then
add every output at `(tx.id(), i)`. -/
def addTransaction (self : UtxoDiff) (tx : PopulatedTransaction) (blockDaaScore : ℕ) :
    Except UtxoAlgebraError UtxoDiff := do
  let self ← tx.populatedInputs.foldlM (fun d input => d.removeEntry input.1 input.2) self
  tx.outputs.zipIdx.foldlM (fun d output =>
    d.addEntry ⟨tx.id, output.2⟩ (tx.outputEntry output.1 blockDaaScore)) self

end UtxoDiff

/-! ## Set semantics -/

/-- Where a diff leads from a UTXO set: `S` minus the keys of `D.remove`, plus
`D.add`. -/
def applyDiff (S : UtxoCollection) (D : UtxoDiff) : UtxoCollection :=
  (S.removeCollection D.remove).addCollection D.add

/-- The standing assumption of the diff algebra between two collections: entries
at one outpoint with one DAA score are equal. -/
def Coherent (c c' : UtxoCollection) : Prop :=
  ∀ o e e', c.lookup o = some e → c'.lookup o = some e' → e.blockDaaScore = e'.blockDaaScore →
    e = e'

/-- `D` is valid for `S`: what it removes is in `S`, what it adds is absent
from `S` minus what it removes, and nothing is added and removed at one DAA
score. -/
structure Valid (S : UtxoCollection) (D : UtxoDiff) : Prop where
  remove_mem : ∀ o e, D.remove.lookup o = some e → S.lookup o = some e
  add_absent : ∀ o e, D.add.lookup o = some e → S.lookup o = none ∨ o ∈ D.remove
  add_remove_daa : ∀ o e e', D.add.lookup o = some e → D.remove.lookup o = some e' →
    e.blockDaaScore ≠ e'.blockDaaScore

/-! ## At one outpoint -/

/-- `x` if it is an entry that passes `test`, and `y` otherwise: what a loop
that copies the entries passing `test` leaves at an outpoint. -/
def pick (test : UtxoEntry → Bool) (x y : Option UtxoEntry) : Option UtxoEntry :=
  (x.filter test).or y

@[simp] theorem pick_none (test : UtxoEntry → Bool) (y : Option UtxoEntry) : pick test none y = y :=
  rfl

@[simp] theorem pick_some (test : UtxoEntry → Bool) (e : UtxoEntry) (y : Option UtxoEntry) :
    pick test (some e) y = if test e then some e else y := by
  by_cases h : test e <;> simp [pick, Option.filter, h]

theorem filteredAt_eq_pick (p : TransactionOutpoint → UtxoEntry → Bool) (o : TransactionOutpoint)
    (x y : Option UtxoEntry) : filteredAt p o x y = pick (p o) x y := by
  cases x <;> simp

/-- `applyDiff` at one outpoint. -/
def applyAt (s a r : Option UtxoEntry) : Option UtxoEntry :=
  a.or (if r.isSome then none else s)

/-- `Valid` at one outpoint. -/
structure ValidAt (s a r : Option UtxoEntry) : Prop where
  remove_eq : ∀ e, r = some e → s = some e
  add_absent : ∀ e, a = some e → s = none ∨ r.isSome
  add_remove_daa : ∀ e e', a = some e → r = some e' → e.blockDaaScore ≠ e'.blockDaaScore

theorem lookup_applyDiff (S : UtxoCollection) (D : UtxoDiff) (o : TransactionOutpoint) :
    (applyDiff S D).lookup o = applyAt (S.lookup o) (D.add.lookup o) (D.remove.lookup o) := by
  rw [applyDiff, lookup_addCollection, lookup_removeCollection, applyAt]

theorem Valid.at {S : UtxoCollection} {D : UtxoDiff} (h : Valid S D) (o : TransactionOutpoint) :
    ValidAt (S.lookup o) (D.add.lookup o) (D.remove.lookup o) :=
  ⟨h.remove_mem o, fun e he => (h.add_absent o e he).imp id AList.lookup_isSome.mpr,
    h.add_remove_daa o⟩

theorem valid_of_at {S : UtxoCollection} {D : UtxoDiff}
    (h : ∀ o, ValidAt (S.lookup o) (D.add.lookup o) (D.remove.lookup o)) : Valid S D :=
  ⟨fun o => (h o).remove_eq, fun o e he => ((h o).add_absent e he).imp id AList.lookup_isSome.mp,
    fun o => (h o).add_remove_daa⟩

theorem validAt_iff {s a r : Option UtxoEntry} : ValidAt s a r ↔
    (∀ e, r = some e → s = some e) ∧ (∀ e, a = some e → s = none ∨ r.isSome) ∧
      (∀ e e', a = some e → r = some e' → e.blockDaaScore ≠ e'.blockDaaScore) :=
  ⟨fun h => ⟨h.1, h.2, h.3⟩, fun h => ⟨h.1, h.2.1, h.2.2⟩⟩

/-! ## `with_diff` at one outpoint -/

/-- The two passes of `with_diff_in_place` at one outpoint, from the entries
of `self.add`, `self.remove`, `other.add` and `other.remove` there. -/
def withDiffAt (a1 r1 a2 r2 : Option UtxoEntry) : Option UtxoEntry × Option UtxoEntry :=
  let intersection := pick (fun e => containsAt a1 e.blockDaaScore) r2 none
  let remove := pick (fun e => !containsAt a1 e.blockDaaScore) r2 r1
  let add := if intersection.isSome then none else a1
  let intersection := pick (fun e => containsAt remove e.blockDaaScore) a2 none
  (pick (fun e => !containsAt remove e.blockDaaScore) a2 add,
    if intersection.isSome then none else remove)

/-- The first check of `with_diff_in_place` fires at the outpoint: both
remove it, and `self.add` does not hold it at the score `other` removes. -/
def withDiffCheck1At (a1 r1 r2 : Option UtxoEntry) : Bool :=
  match r2, r1 with
  | some e2, some _ => !containsAt a1 e2.blockDaaScore
  | _, _ => false

/-- The second check of `with_diff_in_place` fires at the outpoint: both add
it, and `other.remove` does not hold it at the score `self` added. -/
def withDiffCheck2At (a1 a2 r2 : Option UtxoEntry) : Bool :=
  match a2, a1 with
  | some _, some e1 => !containsAt r2 e1.blockDaaScore
  | _, _ => false

/-- `with_diff` at one outpoint: on diffs valid in sequence, and with entries
of one score equal where the second diff adds what the first removed, no check
fires, and the result is valid and leads where the two diffs lead. -/
theorem withDiffAt_spec {s a1 r1 a2 r2 : Option UtxoEntry}
    (hco : ∀ e e', r1 = some e → a2 = some e' → e.blockDaaScore = e'.blockDaaScore → e = e')
    (h1 : ValidAt s a1 r1) (h2 : ValidAt (applyAt s a1 r1) a2 r2) :
    withDiffCheck1At a1 r1 r2 = false ∧ withDiffCheck2At a1 a2 r2 = false ∧
      ValidAt s (withDiffAt a1 r1 a2 r2).1 (withDiffAt a1 r1 a2 r2).2 ∧
      applyAt s (withDiffAt a1 r1 a2 r2).1 (withDiffAt a1 r1 a2 r2).2 =
        applyAt (applyAt s a1 r1) a2 r2 := by
  rw [validAt_iff] at h1 h2
  obtain ⟨h1r, h1a, h1d⟩ := h1
  obtain ⟨h2r, h2a, h2d⟩ := h2
  -- by what the second diff does at the outpoint
  rcases a2 with _ | a2 <;> rcases r2 with _ | r2
  · -- untouched: the first diff's entries stay
    simp_all [withDiffAt, withDiffCheck1At, withDiffCheck2At, applyAt, validAt_iff]
  · -- removed: it was there after the first diff, so the first diff did not remove it
    rcases s with _ | s <;> rcases a1 with _ | a1 <;> rcases r1 with _ | r1 <;>
      simp_all [withDiffAt, withDiffCheck1At, withDiffCheck2At, applyAt, validAt_iff]
  · -- added: it was absent after the first diff; a removal by the first diff at the
    -- same score cancels it, which needs the two entries equal
    rcases s with _ | s <;> rcases a1 with _ | a1 <;> rcases r1 with _ | r1 <;>
      simp_all [withDiffAt, withDiffCheck1At, withDiffCheck2At, applyAt, validAt_iff]
    all_goals grind
  · -- replaced: removed at one score and added at another
    rcases s with _ | s <;> rcases a1 with _ | a1 <;> rcases r1 with _ | r1 <;>
      simp_all [withDiffAt, withDiffCheck1At, withDiffCheck2At, applyAt, validAt_iff]
    all_goals grind

/-! ## `diff_from` at one outpoint -/

/-- `diff_from`'s result at one outpoint, from the entries of `self.add`,
`self.remove`, `other.add` and `other.remove` there: `self.add` minus
`other.add` and then `other.remove` minus `self.remove` go to `remove`;
`self.remove` minus `other.remove` and then `other.add` minus `self.add`
go to `add`. -/
def diffFromAt (a1 r1 a2 r2 : Option UtxoEntry) : Option UtxoEntry × Option UtxoEntry :=
  let resultRemove := pick (fun e => !containsAt a2 e.blockDaaScore) a1 none
  let resultRemove := pick (fun e => !containsAt r1 e.blockDaaScore) r2 resultRemove
  let resultAdd := pick (fun e => !containsAt r2 e.blockDaaScore) r1 none
  (pick (fun e => !containsAt a1 e.blockDaaScore) a2 resultAdd, resultRemove)

/-- `in_both_to_add` at one outpoint: what both diffs add at one score. -/
def inBothToAddAt (a1 a2 : Option UtxoEntry) : Option UtxoEntry :=
  pick (fun e => containsAt a2 e.blockDaaScore) a1 none

/-- The first check of `diff_from` fires at the outpoint. -/
def diffFromCheck1At (a1 r1 a2 r2 : Option UtxoEntry) : Bool :=
  match r1, a2 with
  | some thisEntry, some otherEntry =>
    !(otherEntry.blockDaaScore != thisEntry.blockDaaScore &&
      (containsAt a1 otherEntry.blockDaaScore || containsAt r2 thisEntry.blockDaaScore))
  | _, _ => false

/-- The second check of `diff_from` fires at the outpoint. -/
def diffFromCheck2At (a1 r1 a2 r2 : Option UtxoEntry) : Bool :=
  match a1, r2 with
  | some thisEntry, some otherEntry =>
    !(otherEntry.blockDaaScore != thisEntry.blockDaaScore &&
      (containsAt r1 otherEntry.blockDaaScore || containsAt a2 thisEntry.blockDaaScore))
  | _, _ => false

/-- The third check of `diff_from` fires at the outpoint: both remove it, at
different scores. -/
def diffFromCheck3At (r1 r2 : Option UtxoEntry) : Bool :=
  match r1, r2 with
  | some thisEntry, some otherEntry => otherEntry.blockDaaScore != thisEntry.blockDaaScore
  | _, _ => false

/-- `diff_from` at one outpoint: on two diffs valid for one set, with the
entries both add at one score equal, no check fires, an outpoint both add is
removed by both or by neither, and the result is valid after the first diff
and leads from there where the second one leads. -/
theorem diffFromAt_spec {s a1 r1 a2 r2 : Option UtxoEntry}
    (hco : ∀ e e', a1 = some e → a2 = some e' → e.blockDaaScore = e'.blockDaaScore → e = e')
    (h1 : ValidAt s a1 r1) (h2 : ValidAt s a2 r2) :
    diffFromCheck1At a1 r1 a2 r2 = false ∧ diffFromCheck2At a1 r1 a2 r2 = false ∧
      diffFromCheck3At r1 r2 = false ∧ ((inBothToAddAt a1 a2).isSome → r1.isSome = r2.isSome) ∧
      ValidAt (applyAt s a1 r1) (diffFromAt a1 r1 a2 r2).1 (diffFromAt a1 r1 a2 r2).2 ∧
      applyAt (applyAt s a1 r1) (diffFromAt a1 r1 a2 r2).1 (diffFromAt a1 r1 a2 r2).2 =
        applyAt s a2 r2 := by
  rw [validAt_iff] at h1 h2
  obtain ⟨h1r, h1a, h1d⟩ := h1
  obtain ⟨h2r, h2a, h2d⟩ := h2
  -- by whether the base holds the outpoint: both diffs can only remove what it holds
  rcases s with _ | s
  · -- absent: neither diff removes it
    rcases a1 with _ | a1 <;> rcases r1 with _ | r1 <;> rcases a2 with _ | a2 <;>
      rcases r2 with _ | r2 <;>
      simp_all [diffFromAt, inBothToAddAt, diffFromCheck1At, diffFromCheck2At, diffFromCheck3At,
        applyAt, validAt_iff]
    all_goals grind
  · -- present: what either diff removes is the base's entry
    rcases a1 with _ | a1 <;> rcases r1 with _ | r1 <;> rcases a2 with _ | a2 <;>
      rcases r2 with _ | r2 <;>
      simp_all [diffFromAt, inBothToAddAt, diffFromCheck1At, diffFromCheck2At, diffFromCheck3At,
        applyAt, validAt_iff]
    all_goals grind

namespace UtxoDiff

/-- What `with_diff_in_place`'s passes leave at an outpoint is `withDiffAt`
of what the two diffs hold there. -/
theorem lookup_withDiffPasses (self other : UtxoDiff) (o : TransactionOutpoint) :
    (withDiffPasses self other).add.lookup o =
        (withDiffAt (self.add.lookup o) (self.remove.lookup o) (other.add.lookup o)
          (other.remove.lookup o)).1 ∧
      (withDiffPasses self other).remove.lookup o =
        (withDiffAt (self.add.lookup o) (self.remove.lookup o) (other.add.lookup o)
          (other.remove.lookup o)).2 := by
  simp only [withDiffPasses, intersectionWithRemainderHavingDaaScoreInPlace, lookup_removeCollection,
    UtxoCollection.lookup_insertFiltered, filteredAt_eq_pick, containsWithDaaScore_eq,
    AList.lookup_empty, withDiffAt, and_self]

/-- With no check firing at any outpoint, `with_diff_in_place` runs its passes. -/
theorem withDiffInPlace_eq_ok {self other : UtxoDiff}
    (h1 : ∀ o, withDiffCheck1At (self.add.lookup o) (self.remove.lookup o) (other.remove.lookup o) =
      false)
    (h2 : ∀ o, withDiffCheck2At (self.add.lookup o) (other.add.lookup o) (other.remove.lookup o) =
      false) :
    withDiffInPlace self other = .ok (withDiffPasses self other) := by
  have hc1 : other.remove.intersectsWithRule self.remove (fun outpoint entryToAdd _ =>
      !self.add.containsWithDaaScore outpoint entryToAdd.blockDaaScore) = none := by
    rw [intersectsWithRule_eq_none_iff]
    intro o v1 v2 hv1 hv2
    simpa [withDiffCheck1At, hv1, hv2, containsWithDaaScore_eq] using h1 o
  have hc2 : other.add.intersectsWithRule self.add (fun outpoint _ existingEntry =>
      !other.remove.containsWithDaaScore outpoint existingEntry.blockDaaScore) = none := by
    rw [intersectsWithRule_eq_none_iff]
    intro o v1 v2 hv1 hv2
    simpa [withDiffCheck2At, hv1, hv2, containsWithDaaScore_eq] using h2 o
  rw [withDiffInPlace, hc1]
  simp only [hc2]

/-- `D1.with_diff(D2)` on a diff valid for `S` and one valid after it succeeds,
and its result is valid for `S` and leads where `D1` then `D2` lead. -/
theorem withDiff_apply {S : UtxoCollection} {D1 D2 : UtxoDiff} (hco : Coherent D1.remove D2.add)
    (h1 : Valid S D1) (h2 : Valid (applyDiff S D1) D2) :
    ∃ D, D1.withDiff D2 = .ok D ∧ Valid S D ∧
      ∀ o, (applyDiff S D).lookup o = (applyDiff (applyDiff S D1) D2).lookup o := by
  have hat := fun o => withDiffAt_spec (hco o) (h1.at o) (lookup_applyDiff S D1 o ▸ h2.at o)
  refine ⟨withDiffPasses D1 D2, withDiffInPlace_eq_ok (fun o => (hat o).1) (fun o => (hat o).2.1),
    valid_of_at fun o => ?_, fun o => ?_⟩
  · rw [(lookup_withDiffPasses D1 D2 o).1, (lookup_withDiffPasses D1 D2 o).2]
    exact (hat o).2.2.1
  · rw [lookup_applyDiff, lookup_applyDiff, lookup_applyDiff, (lookup_withDiffPasses D1 D2 o).1,
      (lookup_withDiffPasses D1 D2 o).2]
    exact (hat o).2.2.2

/-- With no check firing at any outpoint, and every outpoint both diffs add
removed by both or by neither, `diff_from` returns the diff that is
`diffFromAt` at every outpoint. -/
theorem diffFrom_eq_ok {self other : UtxoDiff}
    (h1 : ∀ o, diffFromCheck1At (self.add.lookup o) (self.remove.lookup o) (other.add.lookup o)
      (other.remove.lookup o) = false)
    (h2 : ∀ o, diffFromCheck2At (self.add.lookup o) (self.remove.lookup o) (other.add.lookup o)
      (other.remove.lookup o) = false)
    (h3 : ∀ o, diffFromCheck3At (self.remove.lookup o) (other.remove.lookup o) = false)
    (h4 : ∀ o, (inBothToAddAt (self.add.lookup o) (other.add.lookup o)).isSome →
      (self.remove.lookup o).isSome = (other.remove.lookup o).isSome) :
    ∃ D, diffFrom self other = .ok D ∧ ∀ o,
      D.add.lookup o = (diffFromAt (self.add.lookup o) (self.remove.lookup o) (other.add.lookup o)
          (other.remove.lookup o)).1 ∧
        D.remove.lookup o = (diffFromAt (self.add.lookup o) (self.remove.lookup o)
          (other.add.lookup o) (other.remove.lookup o)).2 := by
  have hc1 : self.remove.intersectsWithRule other.add (fun outpoint thisEntry otherEntry =>
      !(otherEntry.blockDaaScore != thisEntry.blockDaaScore &&
        (self.add.containsWithDaaScore outpoint otherEntry.blockDaaScore ||
          other.remove.containsWithDaaScore outpoint thisEntry.blockDaaScore))) = none := by
    rw [intersectsWithRule_eq_none_iff]
    intro o v1 v2 hv1 hv2
    simpa [diffFromCheck1At, hv1, hv2, containsWithDaaScore_eq] using h1 o
  have hc2 : self.add.intersectsWithRule other.remove (fun outpoint thisEntry otherEntry =>
      !(otherEntry.blockDaaScore != thisEntry.blockDaaScore &&
        (self.remove.containsWithDaaScore outpoint otherEntry.blockDaaScore ||
          other.add.containsWithDaaScore outpoint thisEntry.blockDaaScore))) = none := by
    rw [intersectsWithRule_eq_none_iff]
    intro o v1 v2 hv1 hv2
    simpa [diffFromCheck2At, hv1, hv2, containsWithDaaScore_eq] using h2 o
  have hc3 : self.remove.intersectsWithRule other.remove (fun _ thisEntry otherEntry =>
      otherEntry.blockDaaScore != thisEntry.blockDaaScore) = none := by
    rw [intersectsWithRule_eq_none_iff]
    intro o v1 v2 hv1 hv2
    simpa [diffFromCheck3At, hv1, hv2] using h3 o
  -- the key-only test sees the same answer on both sides
  set inBoth := (subtractionWithRemainderHavingDaaScoreInPlace self.add other.add ∅ ∅).2
  have hinBoth : ∀ o, inBoth.lookup o = inBothToAddAt (self.add.lookup o) (other.add.lookup o) := by
    intro o
    simp only [inBoth, subtractionWithRemainderHavingDaaScoreInPlace,
      UtxoCollection.lookup_insertFiltered, filteredAt_eq_pick, containsWithDaaScore_eq,
      AList.lookup_empty, inBothToAddAt]
  have hc4 : inBoth.intersects self.remove = inBoth.intersects other.remove := by
    rw [Bool.eq_iff_iff, intersects_iff, intersects_iff]
    refine exists_congr fun o => and_congr_right fun hmem => ?_
    have h := h4 o (by rw [← hinBoth]; exact AList.lookup_isSome.mpr hmem)
    rw [← AList.lookup_isSome, ← AList.lookup_isSome, h]
  refine ⟨⟨subtractionHavingDaaScoreInPlace other.add self.add
      (subtractionHavingDaaScoreInPlace self.remove other.remove ∅),
    subtractionHavingDaaScoreInPlace other.remove self.remove
      (subtractionWithRemainderHavingDaaScoreInPlace self.add other.add ∅ ∅).1⟩, ?_, fun o => ?_⟩
  · have hc4' : (subtractionWithRemainderHavingDaaScoreInPlace self.add other.add ∅ ∅).2.intersects
        self.remove = (subtractionWithRemainderHavingDaaScoreInPlace self.add other.add ∅ ∅).2.intersects
        other.remove := hc4
    rw [diffFrom]
    simp only [hc1, hc2, hc3]
    rw [if_neg (by rw [hc4']; simp)]
  · simp only [subtractionHavingDaaScoreInPlace, subtractionWithRemainderHavingDaaScoreInPlace,
      UtxoCollection.lookup_insertFiltered, filteredAt_eq_pick, containsWithDaaScore_eq,
      AList.lookup_empty, diffFromAt, and_self]

/-- `D1.diff_from(D2)` on two diffs valid for `S` succeeds, and its result is
valid after `D1` and leads from there where `D2` leads from `S`. -/
theorem diffFrom_apply {S : UtxoCollection} {D1 D2 : UtxoDiff} (hco : Coherent D1.add D2.add)
    (h1 : Valid S D1) (h2 : Valid S D2) :
    ∃ D, D1.diffFrom D2 = .ok D ∧ Valid (applyDiff S D1) D ∧
      ∀ o, (applyDiff (applyDiff S D1) D).lookup o = (applyDiff S D2).lookup o := by
  have hat := fun o => diffFromAt_spec (hco o) (h1.at o) (h2.at o)
  obtain ⟨D, hD, hlookup⟩ := diffFrom_eq_ok (fun o => (hat o).1) (fun o => (hat o).2.1)
    (fun o => (hat o).2.2.1) (fun o => (hat o).2.2.2.1)
  refine ⟨D, hD, valid_of_at fun o => ?_, fun o => ?_⟩
  · rw [lookup_applyDiff, (hlookup o).1, (hlookup o).2]
    exact (hat o).2.2.2.2.1
  · rw [lookup_applyDiff, lookup_applyDiff, lookup_applyDiff, (hlookup o).1, (hlookup o).2]
    exact (hat o).2.2.2.2.2

end UtxoDiff

/-! ## `add_transaction` -/

/-- A UTXO set after a transaction: its inputs spent, then its outputs created. -/
def applyTransaction (T : UtxoCollection) (tx : PopulatedTransaction) (blockDaaScore : ℕ) :
    UtxoCollection :=
  insertFiltered (fun _ _ => true) (tx.created blockDaaScore)
    (eraseAll (tx.populatedInputs.map (·.1)) T)

/-- Output `i` is created at `(tx.id(), i)`: the created outpoints are distinct. -/
theorem nodupKeys_created (tx : PopulatedTransaction) (blockDaaScore : ℕ) :
    (tx.created blockDaaScore).NodupKeys := by
  have hidx : (tx.outputs.zipIdx.map Prod.snd).Nodup := by
    rw [List.zipIdx_map_snd]
    exact List.nodup_range'
  have hkeys : (tx.created blockDaaScore).keys =
      (tx.outputs.zipIdx.map Prod.snd).map (TransactionOutpoint.mk tx.id) := by
    simp only [List.keys, PopulatedTransaction.created, List.map_map, Function.comp_def]
  rw [List.NodupKeys, hkeys]
  exact hidx.map fun _ _ h => (TransactionOutpoint.mk.inj h).2

theorem lookup_applyTransaction (T : UtxoCollection) (tx : PopulatedTransaction)
    (blockDaaScore : ℕ) (o : TransactionOutpoint) :
    (applyTransaction T tx blockDaaScore).lookup o =
      ((tx.created blockDaaScore).dlookup o).or
        (if o ∈ tx.populatedInputs.map (·.1) then none else T.lookup o) := by
  rw [applyTransaction, AListFold.lookup_insertFiltered _ (nodupKeys_created tx blockDaaScore),
    filteredAt_true, lookup_eraseAll]

namespace UtxoDiff

/-- A diff that differs from a valid one only at `o`, where it is valid, is
valid, and leads elsewhere where the other one leads. -/
theorem valid_update {S : UtxoCollection} {D D' : UtxoDiff} {o : TransactionOutpoint}
    {x : Option UtxoEntry} (hv : Valid S D)
    (hne : ∀ o', o' ≠ o → D'.add.lookup o' = D.add.lookup o' ∧ D'.remove.lookup o' = D.remove.lookup o')
    (hat : ValidAt (S.lookup o) (D'.add.lookup o) (D'.remove.lookup o))
    (hres : applyAt (S.lookup o) (D'.add.lookup o) (D'.remove.lookup o) = x) :
    Valid S D' ∧ ∀ o', (applyDiff S D').lookup o' = if o' = o then x else (applyDiff S D).lookup o' := by
  refine ⟨valid_of_at fun o' => ?_, fun o' => ?_⟩
  · by_cases h : o' = o
    · subst h
      exact hat
    · rw [(hne o' h).1, (hne o' h).2]
      exact hv.at o'
  · rw [lookup_applyDiff, lookup_applyDiff]
    split_ifs with h
    · subst h
      exact hres
    · rw [(hne o' h).1, (hne o' h).2]

/-- Removing an entry of the set a valid diff leads to keeps the diff valid and
spends the entry. -/
theorem removeEntry_spec {S : UtxoCollection} {D : UtxoDiff} (hv : Valid S D)
    {o : TransactionOutpoint} {e : UtxoEntry} (he : (applyDiff S D).lookup o = some e) :
    ∃ D', D.removeEntry o e = .ok D' ∧ Valid S D' ∧
      ∀ o', (applyDiff S D').lookup o' = if o' = o then none else (applyDiff S D).lookup o' := by
  have hat := validAt_iff.mp (hv.at o)
  rw [lookup_applyDiff] at he
  unfold removeEntry
  split_ifs with hc hr
  · -- `D.add` holds the entry at its score: it is the entry, and erasing it spends it
    refine ⟨_, rfl, valid_update hv (fun o' h => ⟨AList.lookup_erase_ne h, rfl⟩) ?_ ?_⟩
    all_goals
      rw [containsWithDaaScore_eq] at hc
      cases ha : D.add.lookup o <;> cases hr : D.remove.lookup o <;> cases hs : S.lookup o <;>
        simp_all [applyAt, validAt_iff]
  · -- `D` removed it and does not add it back at this score: it was not there
    exfalso
    rw [containsWithDaaScore_eq] at hc
    rw [← AList.lookup_isSome] at hr
    cases ha : D.add.lookup o <;> simp_all [applyAt]
  · -- the entry is the base's, which `D` has not removed: `D` now removes it
    refine ⟨_, rfl, valid_update hv (fun o' h => ⟨rfl, AList.lookup_insert_ne h⟩) ?_ ?_⟩
    all_goals
      rw [containsWithDaaScore_eq] at hc
      rw [← AList.lookup_isSome, Option.not_isSome_iff_eq_none] at hr
      cases ha : D.add.lookup o <;> cases hs : S.lookup o <;> simp_all [applyAt, validAt_iff]

/-- Adding an entry absent from the set a valid diff leads to keeps the diff
valid and creates the entry, when the base's entry at its outpoint and score is
that entry. -/
theorem addEntry_spec {S : UtxoCollection} {D : UtxoDiff} (hv : Valid S D)
    {o : TransactionOutpoint} {e : UtxoEntry} (habs : (applyDiff S D).lookup o = none)
    (hco : ∀ e', S.lookup o = some e' → e'.blockDaaScore = e.blockDaaScore → e' = e) :
    ∃ D', D.addEntry o e = .ok D' ∧ Valid S D' ∧
      ∀ o', (applyDiff S D').lookup o' = if o' = o then some e else (applyDiff S D).lookup o' := by
  have hat := validAt_iff.mp (hv.at o)
  rw [lookup_applyDiff] at habs
  unfold addEntry
  split_ifs with hc ha
  · -- `D` removed the base's entry at this score, which is `e`: restore it
    refine ⟨_, rfl, valid_update hv (fun o' h => ⟨rfl, AList.lookup_erase_ne h⟩) ?_ ?_⟩
    all_goals
      rw [containsWithDaaScore_eq] at hc
      cases ha : D.add.lookup o <;> cases hr : D.remove.lookup o <;> cases hs : S.lookup o <;>
        simp_all [applyAt, validAt_iff]
  · -- `D` adds it already: it was there
    exfalso
    rw [← AList.lookup_isSome] at ha
    cases ha' : D.add.lookup o <;> simp_all [applyAt]
  · -- otherwise `D` now adds it
    refine ⟨_, rfl, valid_update hv (fun o' h => ⟨AList.lookup_insert_ne h, rfl⟩) ?_ ?_⟩
    all_goals
      rw [containsWithDaaScore_eq] at hc
      rw [← AList.lookup_isSome, Option.not_isSome_iff_eq_none] at ha
      cases hr : D.remove.lookup o <;> cases hs : S.lookup o <;> simp_all [applyAt, validAt_iff]
    -- the entry removed at another score stays removed beside the new one
    omega

/-- Removing, one by one, entries of the set a valid diff leads to, at
distinct outpoints, keeps the diff valid and spends them all. -/
theorem foldlM_removeEntry_spec {S : UtxoCollection} (inputs : List (TransactionOutpoint × UtxoEntry))
    (hnd : (inputs.map (·.1)).Nodup) {D : UtxoDiff} (hv : Valid S D)
    (havail : ∀ input ∈ inputs, (applyDiff S D).lookup input.1 = some input.2) :
    ∃ D', inputs.foldlM (fun d input => d.removeEntry input.1 input.2) D = .ok D' ∧ Valid S D' ∧
      ∀ o, (applyDiff S D').lookup o =
        if o ∈ inputs.map (·.1) then none else (applyDiff S D).lookup o := by
  induction inputs generalizing D with
  | nil => exact ⟨D, rfl, hv, fun o => by simp⟩
  | cons input inputs ih =>
    obtain ⟨hnotin, hnd⟩ := List.nodup_cons.mp hnd
    obtain ⟨D1, hD1, hv1, hlookup1⟩ := removeEntry_spec hv (havail input List.mem_cons_self)
    -- the later inputs are still there once the first is spent
    have havail1 : ∀ x ∈ inputs, (applyDiff S D1).lookup x.1 = some x.2 := by
      intro x hx
      have hne : x.1 ≠ input.1 := fun h => hnotin (List.mem_map.mpr ⟨x, hx, h⟩)
      rw [hlookup1, if_neg hne]
      exact havail x (List.mem_cons_of_mem _ hx)
    obtain ⟨D2, hD2, hv2, hlookup2⟩ := ih hnd hv1 havail1
    refine ⟨D2, by simpa only [List.foldlM_cons, hD1, bind, Except.bind] using hD2, hv2, fun o => ?_⟩
    rw [hlookup2, hlookup1]
    by_cases h : o = input.1
    · simp [h]
    · rw [if_neg h]
      simp only [List.map_cons, List.mem_cons, h, false_or]

/-- Adding, one by one, entries at distinct outpoints absent from the set a
valid diff leads to keeps the diff valid and creates them all. -/
theorem foldlM_addEntry_spec {S : UtxoCollection} (l : List (Σ _ : TransactionOutpoint, UtxoEntry))
    (hl : l.NodupKeys) {D : UtxoDiff} (hv : Valid S D)
    (habs : ∀ x ∈ l, (applyDiff S D).lookup x.1 = none)
    (hco : ∀ x ∈ l, ∀ e, S.lookup x.1 = some e → e.blockDaaScore = x.2.blockDaaScore → e = x.2) :
    ∃ D', l.foldlM (fun d x => d.addEntry x.1 x.2) D = .ok D' ∧ Valid S D' ∧
      ∀ o, (applyDiff S D').lookup o = (l.dlookup o).or ((applyDiff S D).lookup o) := by
  induction l generalizing D with
  | nil => exact ⟨D, rfl, hv, fun o => rfl⟩
  | cons x l ih =>
    obtain ⟨k, v⟩ := x
    obtain ⟨hnotin, hl⟩ := List.nodupKeys_cons.mp hl
    change k ∉ l.keys at hnotin
    obtain ⟨D1, hD1, hv1, hlookup1⟩ :=
      addEntry_spec hv (habs _ List.mem_cons_self) (hco _ List.mem_cons_self)
    -- the later outpoints are still absent once the first entry is created
    have habs1 : ∀ y ∈ l, (applyDiff S D1).lookup y.1 = none := by
      intro y hy
      have hne : y.1 ≠ k := fun h => hnotin (h ▸ List.mem_keys_of_mem hy)
      rw [hlookup1, if_neg hne]
      exact habs y (List.mem_cons_of_mem _ hy)
    obtain ⟨D2, hD2, hv2, hlookup2⟩ :=
      ih hl hv1 habs1 fun y hy => hco y (List.mem_cons_of_mem _ hy)
    refine ⟨D2, by simpa only [List.foldlM_cons, hD1, bind, Except.bind] using hD2, hv2, fun o => ?_⟩
    rw [hlookup2, hlookup1]
    by_cases h : o = k
    · subst h
      rw [List.dlookup_eq_none.mpr hnotin, List.dlookup_cons_eq, if_pos rfl]
      rfl
    · rw [List.dlookup_cons_ne _ _ h, if_neg h]

/-- `D.add_transaction(tx)`, on a diff valid for `S` and a transaction whose
inputs are distinct entries of the set `D` leads to and whose outputs are
absent from that set minus the inputs, succeeds; its result is valid for `S`
and leads to that set minus the inputs plus the outputs. -/
theorem addTransaction_apply {S : UtxoCollection} {D : UtxoDiff} (tx : PopulatedTransaction)
    (blockDaaScore : ℕ) (hv : Valid S D) (hnd : (tx.populatedInputs.map (·.1)).Nodup)
    (havail : ∀ input ∈ tx.populatedInputs, (applyDiff S D).lookup input.1 = some input.2)
    (hnew : ∀ x ∈ tx.created blockDaaScore,
      x.1 ∉ eraseAll (tx.populatedInputs.map (·.1)) (applyDiff S D))
    (hco : ∀ x ∈ tx.created blockDaaScore, ∀ e, S.lookup x.1 = some e →
      e.blockDaaScore = x.2.blockDaaScore → e = x.2) :
    ∃ D', D.addTransaction tx blockDaaScore = .ok D' ∧ Valid S D' ∧
      ∀ o, (applyDiff S D').lookup o = (applyTransaction (applyDiff S D) tx blockDaaScore).lookup o := by
  obtain ⟨D1, hD1, hv1, hlookup1⟩ := foldlM_removeEntry_spec tx.populatedInputs hnd hv havail
  have habs : ∀ x ∈ tx.created blockDaaScore, (applyDiff S D1).lookup x.1 = none := by
    intro x hx
    rw [hlookup1, ← lookup_eraseAll (tx.populatedInputs.map (·.1)) (applyDiff S D)]
    exact AList.lookup_eq_none.mpr (hnew x hx)
  obtain ⟨D2, hD2, hv2, hlookup2⟩ :=
    foldlM_addEntry_spec _ (nodupKeys_created tx blockDaaScore) hv1 habs hco
  refine ⟨D2, ?_, hv2, fun o => ?_⟩
  · -- the outputs' loop is the loop over the created entries
    rw [PopulatedTransaction.created, List.foldlM_map] at hD2
    simpa only [addTransaction, hD1, bind, Except.bind] using hD2
  · rw [hlookup2, hlookup1, lookup_applyTransaction]

/-- The diff algebra agrees with set semantics over every base set: composing
diffs valid in sequence, taking the diff between two diffs valid for one set,
and adding a transaction to a valid diff. -/
theorem utxoDiff_set_semantics (S : UtxoCollection) :
    (∀ D1 D2 : UtxoDiff, Coherent D1.remove D2.add → Valid S D1 → Valid (applyDiff S D1) D2 →
      ∃ D, D1.withDiff D2 = .ok D ∧ Valid S D ∧
        ∀ o, (applyDiff S D).lookup o = (applyDiff (applyDiff S D1) D2).lookup o) ∧
    (∀ D1 D2 : UtxoDiff, Coherent D1.add D2.add → Valid S D1 → Valid S D2 →
      ∃ D, D1.diffFrom D2 = .ok D ∧ Valid (applyDiff S D1) D ∧
        ∀ o, (applyDiff (applyDiff S D1) D).lookup o = (applyDiff S D2).lookup o) ∧
    (∀ (D : UtxoDiff) (tx : PopulatedTransaction) (blockDaaScore : ℕ), Valid S D →
      (tx.populatedInputs.map (·.1)).Nodup →
      (∀ input ∈ tx.populatedInputs, (applyDiff S D).lookup input.1 = some input.2) →
      (∀ x ∈ tx.created blockDaaScore,
        x.1 ∉ eraseAll (tx.populatedInputs.map (·.1)) (applyDiff S D)) →
      (∀ x ∈ tx.created blockDaaScore, ∀ e, S.lookup x.1 = some e →
        e.blockDaaScore = x.2.blockDaaScore → e = x.2) →
      ∃ D', D.addTransaction tx blockDaaScore = .ok D' ∧ Valid S D' ∧
        ∀ o, (applyDiff S D').lookup o =
          (applyTransaction (applyDiff S D) tx blockDaaScore).lookup o) :=
  ⟨fun _ _ => withDiff_apply, fun _ _ => diffFrom_apply, fun _ tx blockDaaScore =>
    addTransaction_apply tx blockDaaScore⟩

end UtxoDiff

/-- The empty diff is valid for every set. -/
theorem valid_empty (S : UtxoCollection) : Valid S ⟨∅, ∅⟩ :=
  ⟨fun _ _ h => by simp at h, fun _ _ h => by simp at h, fun _ _ _ h => by simp at h⟩

/-- A collection is coherent with the empty one. -/
theorem coherent_empty (c : UtxoCollection) : Coherent c ∅ :=
  fun _ _ _ _ h => by simp at h

/-- A coinbase entry at the zero outpoint. -/
def coinbaseOutpoint : TransactionOutpoint := ⟨0, 0⟩

def coinbaseEntry : UtxoEntry := ⟨50, ⟨0, []⟩, 0, true, none⟩

def coinbaseSet : UtxoCollection := (∅ : UtxoCollection).insert coinbaseOutpoint coinbaseEntry

/-- A transaction spending the coinbase entry into one output. -/
def spendCoinbase : PopulatedTransaction :=
  ⟨1, false, [(coinbaseOutpoint, coinbaseEntry)], [⟨50, ⟨0, []⟩, none⟩]⟩

theorem utxoDiff_set_semantics_spendCoinbase :
    (∃ D, (⟨∅, ∅⟩ : UtxoDiff).withDiff ⟨∅, coinbaseSet⟩ = .ok D ∧ Valid coinbaseSet D ∧
      ∀ o, (applyDiff coinbaseSet D).lookup o =
        (applyDiff (applyDiff coinbaseSet ⟨∅, ∅⟩) ⟨∅, coinbaseSet⟩).lookup o) ∧
    (∃ D, (⟨∅, ∅⟩ : UtxoDiff).diffFrom ⟨∅, coinbaseSet⟩ = .ok D ∧
      Valid (applyDiff coinbaseSet ⟨∅, ∅⟩) D ∧
      ∀ o, (applyDiff (applyDiff coinbaseSet ⟨∅, ∅⟩) D).lookup o =
        (applyDiff coinbaseSet ⟨∅, coinbaseSet⟩).lookup o) ∧
    (∃ D', (⟨∅, ∅⟩ : UtxoDiff).addTransaction spendCoinbase 1 = .ok D' ∧ Valid coinbaseSet D' ∧
      ∀ o, (applyDiff coinbaseSet D').lookup o =
        (applyTransaction (applyDiff coinbaseSet ⟨∅, ∅⟩) spendCoinbase 1).lookup o) := by
  have hspend : Valid coinbaseSet ⟨∅, coinbaseSet⟩ :=
    ⟨fun _ _ h => h, fun _ _ h => by simp at h, fun _ _ _ h => by simp at h⟩
  have hspend' : Valid (applyDiff coinbaseSet ⟨∅, ∅⟩) ⟨∅, coinbaseSet⟩ := by
    refine ⟨fun o e h => ?_, fun _ _ h => by simp at h, fun _ _ _ h => by simp at h⟩
    rw [lookup_applyDiff]
    simpa [applyAt] using h
  refine ⟨(UtxoDiff.utxoDiff_set_semantics coinbaseSet).1 _ _ (coherent_empty _) (valid_empty _)
      hspend',
    (UtxoDiff.utxoDiff_set_semantics coinbaseSet).2.1 _ _ (coherent_empty _) (valid_empty _) hspend,
    (UtxoDiff.utxoDiff_set_semantics coinbaseSet).2.2 _ spendCoinbase 1 (valid_empty _)
      (by decide) (by decide) (by decide) ?_⟩
  -- the created outpoint `(1, 0)` is not in the base
  intro x hx e he _
  simp [spendCoinbase, PopulatedTransaction.created, coinbaseSet, coinbaseOutpoint] at hx he
  subst hx
  cases he

end RustyKaspa.Utxo
