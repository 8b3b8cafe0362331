import RustyKaspa.Consensus.Ghostdag.Coloring

/-!
# The mergeset is the past the selected parent does not have

`unordered_mergeset_without_selected_parent` (`ghostdag/mergeset.rs` lines
9–40) searches the parents of the blocks it finds, starting from the parents of
the new block other than its selected parent, and stops at every block the
reachability service puts in the past of the selected parent. Over a DAG held
by the relations store, with the reachability service answering ancestry, it
finds exactly the blocks in the past of the new block that are not in the past
of the selected parent: its mergeset.

The past is the reflexive–transitive closure of the parent relation
(`IsDagAncestorOf`, inclusive as `is_dag_ancestor_of` is). Being in the past of
the selected parent is closed downwards along it, which is what lets the search
stop there (`Worklist.reach_iff_of_closed`).

Results:
* `unorderedMergeset_eq_past_diff`: with fuel above the number of parents and
  of blocks, the search returns the mergeset, each block once.
-/

namespace RustyKaspa.Consensus.Ghostdag

/-- `a` is `b` or in the past of `b`, in the DAG the relations store holds. -/
def IsDagAncestorOf (relations : Hash → Option (List Hash)) (a b : Hash) : Prop :=
  Relation.ReflTransGen (Worklist.Edge relations) a b

variable {relations : Hash → Option (List Hash)}

/-- The ancestors of a block are the block and the ancestors of its parents. -/
theorem isDagAncestorOf_iff {a b : Hash} {ps : List Hash} (hb : relations b = some ps) :
    IsDagAncestorOf relations a b ↔ a = b ∨ ∃ p ∈ ps, IsDagAncestorOf relations a p := by
  constructor
  · intro h
    rcases Relation.ReflTransGen.cases_tail h with rfl | ⟨p, hap, ps', hps', hp⟩
    · exact Or.inl rfl
    · rw [hb, Option.some_inj] at hps'
      exact Or.inr ⟨p, hps' ▸ hp, hap⟩
  · rintro (rfl | ⟨p, hp, hap⟩)
    · exact Relation.ReflTransGen.refl
    · exact hap.tail ⟨ps, hb, hp⟩

theorem isDagAncestorOf_trans {a b c : Hash} (hab : IsDagAncestorOf relations a b)
    (hbc : IsDagAncestorOf relations b c) : IsDagAncestorOf relations a c :=
  Relation.ReflTransGen.trans hab hbc

/-- The relations store holds a DAG over `blocks`: every block has its parents
recorded, and they are blocks. -/
def HoldsDag (relations : Hash → Option (List Hash)) (blocks : List Hash) : Prop :=
  ∀ b ∈ blocks, ∃ ps, relations b = some ps ∧ ∀ p ∈ ps, p ∈ blocks

/-- Over a DAG of `blocks`, a search from blocks returns, whatever it stops at,
the blocks it reaches, each once; all of them are blocks. -/
theorem search_of_holdsDag {blocks : List Hash} (hdag : HoldsDag relations blocks) (stop : Hash → Bool)
    {start : List Hash} (hstart : ∀ p ∈ start, p ∈ blocks) {fuel : ℕ}
    (hfuel : start.length + blocks.length < fuel) :
    ∃ found, Worklist.search relations stop fuel (Worklist.init start) = some found ∧ found.Nodup ∧
      (∀ x, x ∈ found ↔ Worklist.Reach relations stop start x) ∧ ∀ x ∈ found, x ∈ blocks := by
  have hU : ∀ x, Worklist.Reach relations stop start x → x ∈ blocks := by
    intro x hx
    apply Worklist.reach_mem relations hstart _ hx
    rintro a b ⟨ps, hps, ha⟩ hb
    obtain ⟨ps', hps', hsub⟩ := hdag b hb
    rw [hps, Option.some_inj] at hps'
    exact hsub a (hps' ▸ ha)
  have hnext : ∀ x, Worklist.Reach relations stop start x → (relations x).isSome := by
    intro x hx
    obtain ⟨ps, hps, -⟩ := hdag x (hU x hx)
    rw [hps]
    rfl
  obtain ⟨found, hsearch, hmem, hnodup⟩ := Worklist.search_init_spec blocks hU hnext hfuel
  exact ⟨found, hsearch, hnodup, hmem, fun x hx => hU x ((hmem x).mp hx)⟩

namespace GhostdagManager

variable {m : GhostdagManager}

/-- Over a DAG of `blocks` the relations store holds, with the reachability
service answering whether a block is an ancestor of the selected parent, the
search from parents that are not in the past of the selected parent (other than
the selected parent itself) returns the mergeset: each block that is below a
parent and not below the selected parent, once. -/
theorem unorderedMergeset_eq_past_diff {blocks : List Hash} (hdag : HoldsDag m.relationsStore blocks)
    {selectedParent : Hash}
    (hreach : ∀ a, m.reachabilityService a selectedParent = true ↔
      IsDagAncestorOf m.relationsStore a selectedParent)
    {parents : List Hash} (hparents : ∀ p ∈ parents, p ∈ blocks)
    (hantichain : ∀ p ∈ parents, p ≠ selectedParent → ¬IsDagAncestorOf m.relationsStore p selectedParent)
    {fuel : ℕ} (hfuel : parents.length + blocks.length < fuel) :
    ∃ mergeset, m.unorderedMergesetWithoutSelectedParent fuel selectedParent parents = some mergeset ∧
      mergeset.Nodup ∧
      ∀ x, x ∈ mergeset ↔ (∃ p ∈ parents, IsDagAncestorOf m.relationsStore x p) ∧
        ¬IsDagAncestorOf m.relationsStore x selectedParent := by
  set start := parents.filter (· ≠ selectedParent)
  set stop := fun parent => m.reachabilityService parent selectedParent
  have hlen : start.length + blocks.length < fuel :=
    lt_of_le_of_lt (Nat.add_le_add_right (List.length_filter_le _ _) _) hfuel
  obtain ⟨mergeset, hsearch, hnodup, hmem, -⟩ :=
    search_of_holdsDag hdag stop (fun p hp => hparents p (List.mem_filter.mp hp).1) hlen
  refine ⟨mergeset, hsearch, hnodup, fun x => ?_⟩
  -- the past of the selected parent is closed downwards, and no start block is in it
  have hdown : ∀ a b, Worklist.Edge m.relationsStore a b → stop b = true → stop a = true := by
    intro a b hab hb
    exact (hreach a).mpr (isDagAncestorOf_trans (Relation.ReflTransGen.single hab) ((hreach b).mp hb))
  have hstartFree : ∀ p ∈ start, stop p = false := by
    intro p hp
    obtain ⟨hp, hne⟩ := List.mem_filter.mp hp
    exact Bool.eq_false_iff.mpr fun h => hantichain p hp (of_decide_eq_true hne) ((hreach p).mp h)
  rw [hmem, Worklist.reach_iff_of_closed hdown hstartFree]
  have hstopx : stop x = false ↔ ¬IsDagAncestorOf m.relationsStore x selectedParent := by
    rw [← hreach x, Bool.not_eq_true]
  rw [hstopx]
  constructor
  · rintro ⟨⟨p, hp, hxp⟩, hx⟩
    exact ⟨⟨p, (List.mem_filter.mp hp).1, hxp⟩, hx⟩
  · rintro ⟨⟨p, hp, hxp⟩, hx⟩
    -- the selected parent itself is excluded, since `x` is not below it
    have hne : p ≠ selectedParent := by
      rintro rfl
      exact hx hxp
    exact ⟨⟨p, List.mem_filter.mpr ⟨hp, decide_eq_true hne⟩, hxp⟩, hx⟩

/-- In the stores of `twoTipsManager`, the ancestors of the second tip are the
tip and genesis. -/
theorem isDagAncestorOf_twoTips {a : Hash} :
    IsDagAncestorOf twoTipsManager.relationsStore a 3#256 ↔ a = 3#256 ∨ a = 1#256 := by
  rw [isDagAncestorOf_iff (show twoTipsManager.relationsStore 3#256 = some [1#256] by decide)]
  simp only [List.mem_singleton, exists_eq_left]
  rw [isDagAncestorOf_iff (show twoTipsManager.relationsStore 1#256 = some [] by decide)]
  simp

/-- The mergeset of the block on the two tips is the first tip. -/
theorem unorderedMergeset_eq_past_diff_twoTips :
    ∃ mergeset, twoTipsManager.unorderedMergesetWithoutSelectedParent 6 3#256 [2#256, 3#256] = some mergeset ∧
      mergeset.Nodup ∧
      ∀ x, x ∈ mergeset ↔ (∃ p ∈ [2#256, 3#256], IsDagAncestorOf twoTipsManager.relationsStore x p) ∧
        ¬IsDagAncestorOf twoTipsManager.relationsStore x 3#256 :=
  unorderedMergeset_eq_past_diff
    (show HoldsDag twoTipsManager.relationsStore [1#256, 2#256, 3#256] by
      intro b hb
      simp only [List.mem_cons, List.not_mem_nil, or_false] at hb
      rcases hb with rfl | rfl | rfl
      · exact ⟨[], by decide, by simp⟩
      · exact ⟨[1#256], by decide, by simp⟩
      · exact ⟨[1#256], by decide, by simp⟩)
    (fun a => by
      rw [isDagAncestorOf_twoTips]
      simp [twoTipsManager, or_comm])
    (by simp)
    (by
      intro p hp hne
      simp only [List.mem_cons, List.not_mem_nil, or_false] at hp
      rcases hp with rfl | rfl
      · rw [isDagAncestorOf_twoTips]
        decide
      · exact absurd rfl hne)
    (by decide)

end GhostdagManager

end RustyKaspa.Consensus.Ghostdag
