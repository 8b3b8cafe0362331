import RustyKaspa.Smt.Proof

/-!
# Proof binding

`SmtProof::verify` accepts three terminal kinds at any depth and seeds its walk
with a collapsed-leaf hash, a foreign collapsed leaf or `ZERO_HASH`
(`proof.rs` lines 162–173). Two proofs for one key and one root that both
verify, with different leaf values, give away a break of the hashers: two
different inputs of `hash_node::<H>` or of `hash_node::<H::CollapsedHasher>`
with one output, an output of one equal to an output of the other, or an
output equal to `ZERO_HASH`.

Results:
* `HashFailure`, `HashFailure.Valid`: such a break, as data, and what makes it
  one.
* `bindingFailure`: the break computed from the two proofs, the key and the
  two leaf values, by walking both Merkle paths down from the root.
* `verify_binding`: two accepted proofs for one key and root agree on the
  leaf, or `bindingFailure` returns a valid break.
-/

namespace RustyKaspa.Smt

/-- A break of the hashers, as the inputs that exhibit it. -/
inductive HashFailure where
  /-- two different inputs of `hash_node::<H>` with one output -/
  | nodeCollision (x y : Hash × Hash)
  /-- two different inputs of `hash_node::<H::CollapsedHasher>` with one output -/
  | collapsedCollision (x y : Hash × Hash)
  /-- an output of `hash_node::<H>` that is an output of the collapsed hasher -/
  | crossCollision (x y : Hash × Hash)
  /-- an output of `hash_node::<H>` equal to `ZERO_HASH` -/
  | nodeZero (x : Hash × Hash)
  /-- an output of the collapsed hasher equal to `ZERO_HASH` -/
  | collapsedZero (x : Hash × Hash)
  deriving DecidableEq, Repr

/-- The failure really is one for the hasher `H`. -/
def HashFailure.Valid (H : SmtHasher) : HashFailure → Prop
  | .nodeCollision x y => x ≠ y ∧ H.hashNode x.1 x.2 = H.hashNode y.1 y.2
  | .collapsedCollision x y => x ≠ y ∧ H.collapsedHashNode x.1 x.2 = H.collapsedHashNode y.1 y.2
  | .crossCollision x y => H.hashNode x.1 x.2 = H.collapsedHashNode y.1 y.2
  | .nodeZero x => H.hashNode x.1 x.2 = ZERO_HASH
  | .collapsedZero x => H.collapsedHashNode x.1 x.2 = ZERO_HASH

/-! ## Seeds -/

/-- The inputs of the collapsed hash a verification starts from; `none` when it
starts from `ZERO_HASH` (`proof.rs` lines 162–173). -/
def seedInput (terminal : ProofTerminal) (key : Hash) (leafHash : Option Hash) :
    Option (Hash × Hash) :=
  match terminal, leafHash with
  | .collapsedOther _ leaf, none => if leaf.laneKey ≠ key then some (leaf.laneKey, leaf.leafHash) else none
  | _, some leafHash => some (key, leafHash)
  | _, none => none

/-- The hash of a seed. -/
def seedOf (H : SmtHasher) : Option (Hash × Hash) → Hash
  | some x => H.collapsedHashNode x.1 x.2
  | none => ZERO_HASH

theorem seedHash_eq_seedOf (H : SmtHasher) (terminal : ProofTerminal) (key : Hash)
    (leafHash : Option Hash) :
    seedHash H terminal key leafHash = seedOf H (seedInput terminal key leafHash) := by
  cases terminal <;> cases leafHash <;> simp only [seedHash, seedInput, seedOf]
  case collapsedOther.none depth leaf => split <;> rfl

theorem seedInput_some (terminal : ProofTerminal) (key v : Hash) :
    seedInput terminal key (some v) = some (key, v) := by
  cases terminal <;> rfl

/-- A non-inclusion seed that is not `ZERO_HASH` is a foreign leaf. -/
theorem seedInput_none_ne {terminal : ProofTerminal} {key : Hash} {x : Hash × Hash}
    (h : seedInput terminal key none = some x) : x.1 ≠ key := by
  cases terminal with
  | full => cases h
  | collapsed _ => cases h
  | collapsedOther _ leaf =>
    simp only [seedInput] at h
    split at h
    · cases h; assumption
    · cases h

/-- The seed determines the queried leaf: an inclusion seed hashes the queried
key, a foreign collapsed leaf has another key, and only `None` seeds with
`ZERO_HASH`. -/
theorem seedInput_inj {t₁ t₂ : ProofTerminal} {key : Hash} {v₁ v₂ : Option Hash}
    (h : seedInput t₁ key v₁ = seedInput t₂ key v₂) : v₁ = v₂ := by
  cases v₁ with
  | none =>
    cases v₂ with
    | none => rfl
    | some b =>
      rw [seedInput_some] at h
      exact (seedInput_none_ne h rfl).elim
  | some a =>
    rw [seedInput_some] at h
    cases v₂ with
    | none => exact (seedInput_none_ne h.symm rfl).elim
    | some b =>
      rw [seedInput_some, Option.some.injEq, Prod.mk.injEq] at h
      rw [h.2]

/-- The break behind two equal seeds from different inputs. -/
def seedFailure : Option (Hash × Hash) → Option (Hash × Hash) → Option HashFailure
  | some x, some y => if x = y then none else some (.collapsedCollision x y)
  | some x, none => some (.collapsedZero x)
  | none, some y => some (.collapsedZero y)
  | none, none => none

theorem seedFailure_valid (H : SmtHasher) (i₁ i₂ : Option (Hash × Hash))
    (h : seedOf H i₁ = seedOf H i₂) :
    i₁ = i₂ ∨ ∃ f, seedFailure i₁ i₂ = some f ∧ f.Valid H := by
  cases i₁ with
  | none =>
    cases i₂ with
    | none => exact Or.inl rfl
    | some y => exact Or.inr ⟨.collapsedZero y, rfl, h.symm⟩
  | some x =>
    cases i₂ with
    | none => exact Or.inr ⟨.collapsedZero x, rfl, h⟩
    | some y =>
      by_cases hxy : x = y
      · exact Or.inl (congrArg some hxy)
      · exact Or.inr ⟨.collapsedCollision x y, by simp [seedFailure, hxy], hxy, h⟩

/-! ## Walking two paths -/

/-- The break behind two equal roots over Merkle paths of `key`, the first of
`L₁` levels and the second of `L₂ ≥ L₁`: the first level from the top with
different inputs, else the seeds themselves (`L₁ = L₂`), else the shorter
path's seed against the hash the longer one computes at level `L₁`. -/
def orderedFailure (H : SmtHasher) (key : Hash) (L₁ : Nat) (σ₁ : Nat → Hash) (i₁ : Option (Hash × Hash))
    (L₂ : Nat) (σ₂ : Nat → Hash) (i₂ : Option (Hash × Hash)) : Option HashFailure :=
  let mid := MerklePath.climb H.hashNode (bitAt key) σ₂ (L₂ - L₁) L₁ (seedOf H i₂)
  match MerklePath.firstCollision H.hashNode (bitAt key) σ₁ σ₂ L₁ 0 (seedOf H i₁) mid with
  | some p => some (.nodeCollision p.1 p.2)
  | none =>
    match L₂ - L₁ with
    | 0 => seedFailure i₁ i₂
    | m + 1 =>
      let z := MerklePath.inputs (bitAt key) L₁
        (MerklePath.climb H.hashNode (bitAt key) σ₂ m (L₁ + 1) (seedOf H i₂)) (σ₂ L₁)
      match i₁ with
      | some x => some (.crossCollision z x)
      | none => some (.nodeZero z)

theorem orderedFailure_valid (H : SmtHasher) (key : Hash) (L₁ : Nat) (σ₁ : Nat → Hash)
    (i₁ : Option (Hash × Hash)) (L₂ : Nat) (σ₂ : Nat → Hash) (i₂ : Option (Hash × Hash))
    (hL : L₁ ≤ L₂)
    (h : MerklePath.climb H.hashNode (bitAt key) σ₁ L₁ 0 (seedOf H i₁) =
      MerklePath.climb H.hashNode (bitAt key) σ₂ L₂ 0 (seedOf H i₂)) :
    i₁ = i₂ ∨ ∃ f, orderedFailure H key L₁ σ₁ i₁ L₂ σ₂ i₂ = some f ∧ f.Valid H := by
  obtain ⟨m, rfl⟩ := Nat.exists_eq_add_of_le hL
  have hsub : L₁ + m - L₁ = m := by omega
  rw [MerklePath.climb_add, Nat.zero_add] at h
  simp only [orderedFailure, hsub]
  cases hfc : MerklePath.firstCollision H.hashNode (bitAt key) σ₁ σ₂ L₁ 0 (seedOf H i₁)
      (MerklePath.climb H.hashNode (bitAt key) σ₂ m L₁ (seedOf H i₂)) with
  | some p =>
    have hp := MerklePath.isCollision_of_firstCollision H.hashNode (bitAt key) σ₁ σ₂ L₁ 0 _ _ p h hfc
    exact Or.inr ⟨.nodeCollision p.1 p.2, rfl, hp⟩
  | none =>
    -- no collision on the common levels: the shorter seed is the longer path's hash at `L₁`
    have hmid := MerklePath.eq_of_firstCollision_none H.hashNode (bitAt key) σ₁ σ₂ L₁ 0 _ _ h hfc
    cases m with
    | zero => exact seedFailure_valid H i₁ i₂ hmid
    | succ m =>
      rw [MerklePath.climb_succ_eq] at hmid
      right
      cases i₁ with
      | some x => exact ⟨.crossCollision _ x, rfl, hmid.symm⟩
      | none => exact ⟨.nodeZero _, rfl, hmid.symm⟩

/-- The break computed from two proofs for `key`, with the leaf values they
were verified with. -/
def bindingFailure (H : SmtHasher) (key : Hash) (p₁ : OwnedSmtProof) (v₁ : Option Hash)
    (p₂ : OwnedSmtProof) (v₂ : Option Hash) : Option HashFailure :=
  let σ₁ := siblingAt H p₁.bitmap p₁.siblings
  let σ₂ := siblingAt H p₂.bitmap p₂.siblings
  let i₁ := seedInput p₁.terminal key v₁
  let i₂ := seedInput p₂.terminal key v₂
  if p₁.terminal.depth ≤ p₂.terminal.depth then
    orderedFailure H key p₁.terminal.depth σ₁ i₁ p₂.terminal.depth σ₂ i₂
  else orderedFailure H key p₂.terminal.depth σ₂ i₂ p₁.terminal.depth σ₁ i₁

/-- An accepted proof climbs the Merkle path of its key to the root. -/
theorem climb_of_verify {H : SmtHasher} {p : OwnedSmtProof} {key : Hash} {v : Option Hash}
    {root : Hash} (h : p.verify H key v root = .ok true) :
    MerklePath.climb H.hashNode (bitAt key) (siblingAt H p.bitmap p.siblings) p.terminal.depth 0
      (seedOf H (seedInput p.terminal key v)) = root := by
  have hcount := count_of_verify h
  rw [OwnedSmtProof.verify, computeRoot_eq_climb H p key v hcount, seedHash_eq_seedOf] at h
  simpa [Except.map] using h

/-- **Binding.** Two proofs accepted for one key and one root agree on the
leaf value, or `bindingFailure` exhibits a break of the hashers. -/
theorem verify_binding (H : SmtHasher) (root key : Hash) (p₁ p₂ : OwnedSmtProof)
    (v₁ v₂ : Option Hash) (h₁ : p₁.verify H key v₁ root = .ok true)
    (h₂ : p₂.verify H key v₂ root = .ok true) :
    v₁ = v₂ ∨ ∃ f, bindingFailure H key p₁ v₁ p₂ v₂ = some f ∧ f.Valid H := by
  have hroots := (climb_of_verify h₁).trans (climb_of_verify h₂).symm
  unfold bindingFailure
  by_cases hL : p₁.terminal.depth ≤ p₂.terminal.depth
  · rw [if_pos hL]
    rcases orderedFailure_valid H key _ _ _ _ _ _ hL hroots with hi | hf
    · exact Or.inl (seedInput_inj hi)
    · exact Or.inr hf
  · rw [if_neg hL]
    rcases orderedFailure_valid H key _ _ _ _ _ _ (by omega) hroots.symm with hi | hf
    · exact Or.inl (seedInput_inj hi).symm
    · exact Or.inr hf

/-- A sibling that makes a proof of the value `3` for key `0` verify against
`twoLeafRoot`: `toyHasher` is linear, so a node collision is solved for. -/
def forgedSibling : Hash := 0xb33333333333333333333333333333333333333333333333333333333333333e#256

/-- The honest proof of key `0` and the proof with `forgedSibling` both verify,
for the values `1` and `3`; binding then exhibits a break of `toyHasher`. -/
theorem verify_binding_twoLeaf :
    (twoLeafProof (toyHasher.collapsedHashNode (BitVec.twoPow 256 255) 2#256)).verify toyHasher
        0#256 (some 1#256) twoLeafRoot = .ok true ∧
      (twoLeafProof forgedSibling).verify toyHasher 0#256 (some 3#256) twoLeafRoot = .ok true ∧
      (some 1#256 = some 3#256 ∨ ∃ f, bindingFailure toyHasher 0#256
        (twoLeafProof (toyHasher.collapsedHashNode (BitVec.twoPow 256 255) 2#256)) (some 1#256)
        (twoLeafProof forgedSibling) (some 3#256) = some f ∧ f.Valid toyHasher) := by
  have h₁ : (twoLeafProof (toyHasher.collapsedHashNode (BitVec.twoPow 256 255) 2#256)).verify
      toyHasher 0#256 (some 1#256) twoLeafRoot = .ok true := by
    decide
  have h₂ : (twoLeafProof forgedSibling).verify toyHasher 0#256 (some 3#256) twoLeafRoot = .ok true := by
    decide
  exact ⟨h₁, h₂, verify_binding _ _ _ _ _ _ _ h₁ h₂⟩

end RustyKaspa.Smt
