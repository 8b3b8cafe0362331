import RustyKaspa.Smt.Proof

/-!
# The proof branch cache

`compute_root_inner` with a `ProofBranchCache` (`proof.rs` lines 190–199)
returns the cached hash for `BranchKey::new(d, key)` without hashing the
proof's own children. `BranchKey::new(0, key)` zeroes every bit, so the root
level has one cache entry for every key: once a call has walked to the root,
each later call on the cache, for any proof that passes its sibling count check
and ends below the root, returns that call's root.

Results:
* `verifyCached_replays_first`: a second `verify_cached` on the cache left by a
  first one answers what the first one answered, whatever proof, key and leaf
  it is given.
* `verifyCached_accepts_wrong_leaf`: after an honest proof is verified into an
  empty cache, the proof of the other key of a two-leaf tree is accepted with
  a wrong leaf, which the uncached `verify` rejects.
-/

namespace RustyKaspa.Smt

/-- Every key has the same branch key at the root. -/
theorem BranchKey.new_zero (key key' : Hash) : BranchKey.new 0 key = BranchKey.new 0 key' :=
  (BranchKey.new_eq_new_iff (by omega)).mpr (fun _ h => absurd h (Nat.not_lt_zero _))

theorem ProofBranchCache.insert_ne {cache : ProofBranchCache} {bk bk' : BranchKey} {h : Hash}
    (hne : bk' ≠ bk) : cache.insert bk h bk' = cache bk' := by
  simp [ProofBranchCache.insert, hne]

/-- One cached level: the hash returned is the cached one when there is one, and
the cache afterwards holds the returned hash at `bk` and is unchanged elsewhere. -/
theorem cachedHashNode_some (H : SmtHasher) (cache : ProofBranchCache) (bk : BranchKey)
    (left right : Hash) :
    ∃ cache', (cachedHashNode H (some cache) bk left right).2 = some cache' ∧
      cache' bk = some (cachedHashNode H (some cache) bk left right).1 ∧
      (∀ bk', bk' ≠ bk → cache' bk' = cache bk') ∧
      (∀ h, cache bk = some h → (cachedHashNode H (some cache) bk left right).1 = h) := by
  cases hc : cache bk with
  | some cached =>
    have hres : cachedHashNode H (some cache) bk left right = (cached, some cache) := by
      simp [cachedHashNode, hc]
    rw [hres]
    refine ⟨cache, rfl, hc, fun _ _ => rfl, ?_⟩
    intro h hh
    exact Option.some.inj hh
  | none =>
    have hres : cachedHashNode H (some cache) bk left right =
        (H.hashNode left right, some (cache.insert bk (H.hashNode left right))) := by
      simp [cachedHashNode, hc]
    rw [hres]
    refine ⟨_, rfl, by simp [ProofBranchCache.insert], fun _ hne => ProofBranchCache.insert_ne hne, ?_⟩
    intro h hh
    cases hh

/-- A walk that reaches the root on a cache holding the root entry returns that
entry; the walk's inserts are at other depths, so the entry survives. -/
theorem rootLoop_root_hit (H : SmtHasher) (bitmap : Vector UInt8 32) (siblings : List Hash)
    (key : Hash) (h : Hash) :
    ∀ d current sibIdx (cache : ProofBranchCache), cache (BranchKey.new 0 key) = some h →
      (rootLoop H bitmap siblings key (d + 1) current sibIdx (some cache)).1 = h := by
  intro d
  induction d with
  | zero =>
    intro current sibIdx cache hc
    rw [rootLoop_succ]
    obtain ⟨_, hc', -, -, hhit⟩ := cachedHashNode_some H cache (BranchKey.new 0 key) _ _
    rw [hc']
    exact hhit h hc
  | succ d ih =>
    intro current sibIdx cache hc
    rw [rootLoop_succ]
    obtain ⟨cache', hc', -, hframe, -⟩ := cachedHashNode_some H cache (BranchKey.new (d + 1) key) _ _
    rw [hc']
    apply ih
    rw [hframe _ (by simp [BranchKey.new])]
    exact hc

/-- A walk that reaches the root leaves its result in the root entry. -/
theorem rootLoop_root_entry (H : SmtHasher) (bitmap : Vector UInt8 32) (siblings : List Hash)
    (key : Hash) :
    ∀ d current sibIdx (cache : ProofBranchCache), ∃ cache' : ProofBranchCache,
      rootLoop H bitmap siblings key (d + 1) current sibIdx (some cache) =
        ((rootLoop H bitmap siblings key (d + 1) current sibIdx (some cache)).1, some cache') ∧
      cache' (BranchKey.new 0 key) =
        some (rootLoop H bitmap siblings key (d + 1) current sibIdx (some cache)).1 := by
  intro d
  induction d with
  | zero =>
    intro current sibIdx cache
    rw [rootLoop_succ]
    obtain ⟨cache', hc', hbk, -, -⟩ := cachedHashNode_some H cache (BranchKey.new 0 key) _ _
    rw [hc']
    exact ⟨cache', rfl, hbk⟩
  | succ d ih =>
    intro current sibIdx cache
    rw [rootLoop_succ]
    obtain ⟨cache', hc', -, -, -⟩ := cachedHashNode_some H cache (BranchKey.new (d + 1) key) _ _
    rw [hc']
    exact ih _ _ cache'

/-- **The cache replays its first answer.** After `verify_cached` of a proof
ending below the root, every later `verify_cached` on the returned cache of a
proof that passes its sibling count check and ends below the root answers the
same, for any key and leaf value. -/
theorem verifyCached_replays_first (H : SmtHasher) (root key₁ key₂ : Hash) (p₁ p₂ : OwnedSmtProof)
    (v₁ v₂ : Option Hash) (cache₀ cache₁ : ProofBranchCache) (b₁ : Bool)
    (h₁ : p₁.verifyCached H key₁ v₁ root cache₀ = (.ok b₁, cache₁))
    (hd₁ : 1 ≤ p₁.terminal.depth) (hd₂ : 1 ≤ p₂.terminal.depth)
    (hcount₂ : p₂.siblings.length = bitmapClearCountBefore p₂.bitmap p₂.terminal) :
    (p₂.verifyCached H key₂ v₂ root cache₁).1 = .ok b₁ := by
  obtain ⟨d₁, hd₁'⟩ : ∃ d, p₁.terminal.depth = d + 1 := ⟨_, (Nat.succ_pred_eq_of_pos hd₁).symm⟩
  obtain ⟨d₂, hd₂'⟩ : ∃ d, p₂.terminal.depth = d + 1 := ⟨_, (Nat.succ_pred_eq_of_pos hd₂).symm⟩
  -- the first call passed its count check and walked to the root
  have hcount₁ : p₁.siblings.length = bitmapClearCountBefore p₁.bitmap p₁.terminal := by
    by_contra hne
    simp [OwnedSmtProof.verifyCached, computeRootInner, hne] at h₁
  rw [OwnedSmtProof.verifyCached, computeRootInner_of_count hcount₁, hd₁'] at h₁
  obtain ⟨c, hc, hentry⟩ := rootLoop_root_entry H p₁.bitmap p₁.siblings key₁ d₁
    (seedHash H p₁.terminal key₁ v₁) p₁.siblings.length cache₀
  rw [hc] at h₁
  simp only [Option.getD_some, Prod.mk.injEq, Except.ok.injEq] at h₁
  obtain ⟨hb, rfl⟩ := h₁
  -- the second call finds the root entry, keyed the same for every key
  have hroot := (BranchKey.new_zero key₂ key₁).symm ▸ hentry
  rw [OwnedSmtProof.verifyCached, computeRootInner_of_count hcount₂, hd₂']
  obtain ⟨c₂, hc₂, -⟩ := rootLoop_root_entry H p₂.bitmap p₂.siblings key₂ d₂
    (seedHash H p₂.terminal key₂ v₂) p₂.siblings.length c
  rw [hc₂]
  simp only [Except.ok.injEq]
  rw [rootLoop_root_hit H _ _ key₂ _ d₂ _ _ c hroot]
  exact hb

/-! ## A two-leaf tree -/

/-- After the honest proof of key `0` is verified into an empty cache, the
proof of key `2²⁵⁵` is accepted with the wrong leaf `3`; without the cache it
is rejected. -/
theorem verifyCached_accepts_wrong_leaf :
    ((twoLeafProof (toyHasher.collapsedHashNode (BitVec.twoPow 256 255) 2#256)).verifyCached
        toyHasher 0#256 (some 1#256) twoLeafRoot (fun _ => none)).1 = .ok true ∧
      ((twoLeafProof (toyHasher.collapsedHashNode 0#256 1#256)).verifyCached toyHasher
        (BitVec.twoPow 256 255) (some 3#256) twoLeafRoot
        ((twoLeafProof (toyHasher.collapsedHashNode (BitVec.twoPow 256 255) 2#256)).verifyCached
          toyHasher 0#256 (some 1#256) twoLeafRoot (fun _ => none)).2).1 = .ok true ∧
      (twoLeafProof (toyHasher.collapsedHashNode 0#256 1#256)).verify toyHasher
        (BitVec.twoPow 256 255) (some 3#256) twoLeafRoot = .ok false := by
  decide

end RustyKaspa.Smt
