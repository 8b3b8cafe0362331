import RustyKaspa.Consensus.Basic

/-!
# Compressed parents

Model of `CompressedParents` (`consensus/core/src/header.rs` lines 12–80): the
parents of a header level by level, run-length encoded as pairs
`(cumulative level count, parents)`. `[(3, [A]), (5, [B])]` stands for
`[[A], [A], [A], [B], [B]]`.

The counts are `u8` and `push` panics past 255 levels; headers have at most
`max_block_level + 1 = 226` levels, so the counts are modelled as `Nat`.

Results:
* `expanded_push`: `push` appends one level to the expanded view.
* `get_eq_expanded`: on a well-formed encoding, `get` reads the expanded view.
* `wellFormed_push`: `push` keeps the encoding well formed.
-/

namespace RustyKaspa.Consensus

/-- `CompressedParents` (`header.rs` line 19). -/
structure CompressedParents where
  runs : List (Nat × List Hash)
  deriving DecidableEq, Repr

namespace CompressedParents

/-- `CompressedParents::expanded_len` (`header.rs` lines 22–24). -/
def expandedLen (p : CompressedParents) : Nat :=
  (p.runs.getLast?.map Prod.fst).getD 0

/-- `CompressedParents::is_empty` (`header.rs` lines 26–28). -/
def isEmpty (p : CompressedParents) : Bool :=
  p.runs.isEmpty

/-- `CompressedParents::get` (`header.rs` lines 30–43). `partition_point` over
the increasing counts is the length of the prefix that passes the test. -/
def get (p : CompressedParents) (index : Nat) : Option (List Hash) :=
  if p.expandedLen ≤ index then none
  else if index = 0 then p.runs.head?.map Prod.snd
  else (p.runs[(p.runs.takeWhile (fun r => r.1 - 1 < index)).length]?).map Prod.snd

/-- `CompressedParents::push` (`header.rs` lines 49–64): extend the last run
when the new level repeats it, else start a new run. -/
def push (p : CompressedParents) (parentsAtLevel : List Hash) : CompressedParents :=
  match p.runs.getLast? with
  | some (count, lastParents) =>
    if lastParents = parentsAtLevel then ⟨p.runs.dropLast ++ [(count + 1, lastParents)]⟩
    else ⟨p.runs ++ [(count + 1, parentsAtLevel)]⟩
  | none => ⟨[(1, parentsAtLevel)]⟩

/-- The runs expanded from cumulative count `prev` on (`expand_rle`). -/
def expandRuns : Nat → List (Nat × List Hash) → List (List Hash)
  | _, [] => []
  | prev, (cum, parents) :: rest => List.replicate (cum - prev) parents ++ expandRuns cum rest

/-- `CompressedParents::expanded_iter` (`header.rs` lines 45–47), collected. -/
def expanded (p : CompressedParents) : List (List Hash) :=
  expandRuns 0 p.runs

/-- The cumulative counts increase strictly, from above `prev`. -/
def RunsFrom (prev : Nat) (runs : List (Nat × List Hash)) : Prop :=
  (prev :: runs.map Prod.fst).Pairwise (· < ·)

/-- A well-formed encoding: counts increase strictly from at least one. -/
def WellFormed (p : CompressedParents) : Prop :=
  RunsFrom 0 p.runs

/-! ## The expanded view -/

/-- The last cumulative count of `runs`, or `prev` when there is none. -/
def lastCum (prev : Nat) (runs : List (Nat × List Hash)) : Nat :=
  (runs.getLast?.map Prod.fst).getD prev

theorem expandRuns_append (prev : Nat) (xs ys : List (Nat × List Hash)) :
    expandRuns prev (xs ++ ys) = expandRuns prev xs ++ expandRuns (lastCum prev xs) ys := by
  induction xs generalizing prev with
  | nil => rfl
  | cons x rest ih =>
    obtain ⟨cum, parents⟩ := x
    rw [List.cons_append, expandRuns, expandRuns, ih, List.append_assoc]
    congr 2
    cases rest with
    | nil => rfl
    | cons y rest => simp [lastCum, List.getLast?_cons]

theorem RunsFrom.tail {prev cum : Nat} {parents : List Hash} {rest : List (Nat × List Hash)}
    (h : RunsFrom prev ((cum, parents) :: rest)) : prev < cum ∧ RunsFrom cum rest := by
  simp only [RunsFrom, List.map_cons, List.pairwise_cons, List.mem_cons, forall_eq_or_imp] at h
  exact ⟨h.1.1, List.pairwise_cons.mpr h.2⟩

theorem getElem?_expandRuns :
    ∀ (prev : Nat) (runs : List (Nat × List Hash)) (i : Nat), RunsFrom prev runs →
      (expandRuns prev runs)[i]? = ((runs.dropWhile (fun r => r.1 ≤ prev + i)).head?).map Prod.snd
  | _, [], _, _ => rfl
  | prev, (cum, parents) :: rest, i, h => by
    obtain ⟨hlt, hrest⟩ := h.tail
    rw [expandRuns]
    by_cases hi : i < cum - prev
    · -- the index falls in the first run
      have hkeep : ¬ cum ≤ prev + i := by omega
      rw [List.getElem?_append_left (by simpa using hi), List.getElem?_replicate_of_lt hi,
        List.dropWhile_cons_of_neg (by simpa using hkeep)]
      rfl
    · have hdrop : cum ≤ prev + i := by omega
      have hindex : cum + (i - (cum - prev)) = prev + i := by omega
      rw [List.getElem?_append_right (by rw [List.length_replicate]; omega), List.length_replicate,
        getElem?_expandRuns cum rest _ hrest, hindex, List.dropWhile_cons_of_pos (by simpa using hdrop)]

theorem length_expandRuns :
    ∀ (prev : Nat) (runs : List (Nat × List Hash)), RunsFrom prev runs →
      (expandRuns prev runs).length = lastCum prev runs - prev
  | _, [], _ => by simp [expandRuns, lastCum]
  | prev, (cum, parents) :: rest, h => by
    obtain ⟨hlt, hrest⟩ := h.tail
    rw [expandRuns, List.length_append, List.length_replicate, length_expandRuns cum rest hrest]
    have hle : cum ≤ lastCum cum rest := by
      cases rest with
      | nil => simp [lastCum]
      | cons r rest' =>
        have hall : ∀ x ∈ (r :: rest').map Prod.fst, cum < x := by
          simpa using (List.pairwise_cons.mp hrest).1
        have hmem : ((r :: rest').getLast (List.cons_ne_nil _ _)).1 ∈ (r :: rest').map Prod.fst :=
          List.mem_map_of_mem (List.getLast_mem _)
        have := hall _ hmem
        simp only [lastCum, List.getLast?_eq_some_getLast (List.cons_ne_nil r rest'),
          Option.map_some, Option.getD_some]
        omega
    have hlast : lastCum prev ((cum, parents) :: rest) = lastCum cum rest := by
      cases rest <;> simp [lastCum, List.getLast?_cons]
    rw [hlast]
    omega

/-- Two tests that agree on the members of a list drop the same prefix. -/
theorem dropWhile_congr_of_mem {β : Type*} {q q' : β → Bool} :
    ∀ {l : List β}, (∀ b ∈ l, q b = q' b) → l.dropWhile q = l.dropWhile q'
  | [], _ => rfl
  | b :: rest, h => by
    have hb := h b List.mem_cons_self
    have hrest : ∀ x ∈ rest, q x = q' x := fun x hx => h x (List.mem_cons_of_mem _ hx)
    by_cases hq : q b
    · rw [List.dropWhile_cons_of_pos hq, List.dropWhile_cons_of_pos (hb ▸ hq),
        dropWhile_congr_of_mem hrest]
    · rw [List.dropWhile_cons_of_neg hq, List.dropWhile_cons_of_neg (hb ▸ hq)]

/-- The entry after the prefix that passes a test is the head of what remains. -/
theorem getElem?_length_takeWhile {β : Type*} (q : β → Bool) (l : List β) :
    l[(l.takeWhile q).length]? = (l.dropWhile q).head? := by
  induction l with
  | nil => rfl
  | cons b rest ih =>
    by_cases hb : q b
    · rw [List.takeWhile_cons_of_pos hb, List.dropWhile_cons_of_pos hb, List.length_cons,
        List.getElem?_cons_succ, ih]
    · rw [List.takeWhile_cons_of_neg hb, List.dropWhile_cons_of_neg hb]
      rfl

theorem get_eq_expanded {p : CompressedParents} (hp : p.WellFormed) (index : Nat) :
    p.get index = p.expanded[index]? := by
  have hlen : p.expanded.length = p.expandedLen := by
    rw [expanded, length_expandRuns 0 p.runs hp]
    rfl
  unfold get
  by_cases hout : p.expandedLen ≤ index
  · rw [if_pos hout, List.getElem?_eq_none (by omega)]
  rw [if_neg hout, expanded, getElem?_expandRuns 0 p.runs index hp]
  -- every count is at least one, so `cum - 1 < index` is `cum ≤ index`
  have hpos : ∀ r ∈ p.runs, 0 < r.1 := by
    intro r hr
    have := (List.pairwise_cons.mp hp).1
    exact this r.1 (List.mem_map_of_mem hr)
  by_cases hzero : index = 0
  · subst hzero
    rw [if_pos rfl]
    cases hr : p.runs with
    | nil => rfl
    | cons r rest =>
      have hr0 : ¬ r.1 ≤ 0 + 0 := by
        have := hpos r (by simp [hr])
        omega
      rw [List.dropWhile_cons_of_neg (by simpa using hr0)]
  · rw [if_neg hzero, getElem?_length_takeWhile]
    congr 2
    apply dropWhile_congr_of_mem
    intro r hr
    have := hpos r hr
    simp only [decide_eq_decide]
    omega

/-! ## `push` -/

theorem runsFrom_snoc_iff {prev cum : Nat} {parents : List Hash} {ys : List (Nat × List Hash)} :
    RunsFrom prev (ys ++ [(cum, parents)]) ↔
      RunsFrom prev ys ∧ ∀ a ∈ prev :: ys.map Prod.fst, a < cum := by
  unfold RunsFrom
  rw [List.map_append, ← List.cons_append, List.pairwise_append]
  simp

theorem lastCum_mem (prev : Nat) (ys : List (Nat × List Hash)) :
    lastCum prev ys ∈ prev :: ys.map Prod.fst := by
  cases hl : ys.getLast? with
  | none => simp [lastCum, hl]
  | some y =>
    have hy : y ∈ ys := List.mem_of_getLast? hl
    simp only [lastCum, hl, Option.map_some, Option.getD_some]
    exact List.mem_cons_of_mem _ (List.mem_map_of_mem hy)

/-- The runs of a non-empty encoding end with their last run. -/
theorem runs_eq_snoc {p : CompressedParents} {last : Nat × List Hash}
    (h : p.runs.getLast? = some last) : p.runs = p.runs.dropLast ++ [last] := by
  rw [← List.dropLast_append_getLast? _ h]
  simp

theorem wellFormed_push {p : CompressedParents} (hp : p.WellFormed) (parentsAtLevel : List Hash) :
    (p.push parentsAtLevel).WellFormed := by
  unfold push
  cases hl : p.runs.getLast? with
  | none => simp [WellFormed, RunsFrom]
  | some last =>
    obtain ⟨count, lastParents⟩ := last
    have hsnoc := runs_eq_snoc hl
    have hwf : RunsFrom 0 (p.runs.dropLast ++ [(count, lastParents)]) := hsnoc ▸ hp
    obtain ⟨hinit, hbelow⟩ := runsFrom_snoc_iff.mp hwf
    by_cases heq : lastParents = parentsAtLevel
    · -- the last run grows by one level
      simp only [heq, if_true, WellFormed]
      exact runsFrom_snoc_iff.mpr ⟨hinit, fun a ha => Nat.lt_succ_of_lt (hbelow a ha)⟩
    · -- a new run starts one level after the last one
      simp only [heq, if_false, WellFormed]
      refine runsFrom_snoc_iff.mpr ⟨hp, fun a ha => ?_⟩
      rw [hsnoc, List.map_append] at ha
      simp only [List.map_cons, List.map_nil, List.mem_cons, List.mem_append] at ha
      rcases ha with rfl | ha | rfl | ha
      · exact Nat.lt_succ_of_lt (hbelow 0 List.mem_cons_self)
      · exact Nat.lt_succ_of_lt (hbelow a (List.mem_cons_of_mem _ ha))
      · exact Nat.lt_succ_self _
      · cases ha

theorem expanded_push {p : CompressedParents} (hp : p.WellFormed) (parentsAtLevel : List Hash) :
    (p.push parentsAtLevel).expanded = p.expanded ++ [parentsAtLevel] := by
  unfold push
  cases hl : p.runs.getLast? with
  | none =>
    have hnil : p.runs = [] := List.getLast?_eq_none_iff.mp hl
    simp [expanded, expandRuns, hnil]
  | some last =>
    obtain ⟨count, lastParents⟩ := last
    have hsnoc := runs_eq_snoc hl
    have hwf : RunsFrom 0 (p.runs.dropLast ++ [(count, lastParents)]) := hsnoc ▸ hp
    have hlt : lastCum 0 p.runs.dropLast < count :=
      (runsFrom_snoc_iff.mp hwf).2 _ (lastCum_mem 0 _)
    have hlast : lastCum 0 p.runs = count := by
      simp [lastCum, hl]
    by_cases heq : lastParents = parentsAtLevel
    · -- one more copy of the last run's parents
      simp only [heq, if_true, expanded]
      conv_rhs => rw [hsnoc]
      rw [expandRuns_append, expandRuns_append, List.append_assoc]
      congr 1
      have hcount : count + 1 - lastCum 0 p.runs.dropLast = (count - lastCum 0 p.runs.dropLast) + 1 := by
        omega
      simp [expandRuns, hcount, List.replicate_succ', heq]
    · simp only [heq, if_false, expanded]
      rw [expandRuns_append, hlast]
      simp [expandRuns]

end CompressedParents

end RustyKaspa.Consensus
