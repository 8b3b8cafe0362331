import Mathlib.Data.List.Dedup
import Mathlib.Logic.Relation

/-!
# A queue search that stops at marked nodes

The loop of a breadth-first search: it starts from a list of nodes, takes the
next node off the front of a queue, and scans the nodes `next` lists for it. A
node met for the first time is tested once: if it is `stop`ped it is kept apart,
otherwise it is found and queued. The search ends when the queue is empty; each
turn of the loop is bounded by a `fuel` argument.

What the search finds is `Reach`: the start nodes, and every node met on an
edge from a found node that is not stopped. When `stop` is closed downwards
along the edges and no start node is stopped, that is the set of nodes below a
start node that are not stopped (`reach_iff_of_closed`).

Results:
* `Inv.step`, `Inv.exit`: one turn of the loop keeps the invariant `Inv`, and
  with the queue empty the found nodes are closed under the edges.
* `search_init_spec`: with fuel above the number of start nodes and of the
  nodes of a finite set that holds every reachable node, the search returns
  exactly the reachable nodes, each once.
-/

namespace Worklist

variable {α : Type*} [DecidableEq α]

/-- The loop's state: the queue, the nodes found, the nodes stopped at. -/
structure State (α : Type*) where
  queue : List α
  found : List α
  stopped : List α

/-- One node met on an edge: tested once, then either kept apart as stopped or
found and queued. -/
def visit (stop : α → Bool) (s : State α) (x : α) : State α :=
  if x ∈ s.found ∨ x ∈ s.stopped then s
  else if stop x then { s with stopped := x :: s.stopped }
  else { s with found := x :: s.found, queue := s.queue ++ [x] }

/-- The start of the search: every start node queued and found. -/
def init (start : List α) : State α := ⟨start, start.dedup, []⟩

/-- The loop, at most `fuel` turns: `none` when `next` fails or the fuel runs
out, the found nodes when the queue is empty. -/
def search (next : α → Option (List α)) (stop : α → Bool) : ℕ → State α → Option (List α)
  | 0, _ => none
  | fuel + 1, s =>
    match s.queue with
    | [] => some s.found
    | current :: queue =>
      (next current).bind fun ps => search next stop fuel (ps.foldl (visit stop) { s with queue := queue })

section Scan

variable (stop : α → Bool)

theorem mem_found_foldl_visit (ps : List α) (s : State α) (x : α) :
    x ∈ (ps.foldl (visit stop) s).found ↔ x ∈ s.found ∨ (x ∈ ps ∧ x ∉ s.stopped ∧ stop x = false) := by
  induction ps generalizing s with
  | nil => simp
  | cons y ys ih =>
    rw [List.foldl_cons, ih]
    unfold visit
    by_cases hy : y ∈ s.found ∨ y ∈ s.stopped
    · rw [if_pos hy]
      by_cases hxy : x = y
      · subst hxy
        rcases hy with hy | hy <;> simp [hy]
      · simp [hxy]
    · rw [if_neg hy]
      rw [not_or] at hy
      by_cases hs : stop y = true
      · rw [if_pos hs]
        by_cases hxy : x = y
        · subst hxy
          simp [hy.1, hs]
        · simp [hxy]
      · rw [if_neg hs]
        by_cases hxy : x = y
        · subst hxy
          simp [hy.2, Bool.eq_false_iff.mpr hs]
        · simp [hxy]

theorem mem_stopped_foldl_visit (ps : List α) (s : State α) (x : α) :
    x ∈ (ps.foldl (visit stop) s).stopped ↔ x ∈ s.stopped ∨ (x ∈ ps ∧ x ∉ s.found ∧ stop x = true) := by
  induction ps generalizing s with
  | nil => simp
  | cons y ys ih =>
    rw [List.foldl_cons, ih]
    unfold visit
    by_cases hy : y ∈ s.found ∨ y ∈ s.stopped
    · rw [if_pos hy]
      by_cases hxy : x = y
      · subst hxy
        rcases hy with hy | hy <;> simp [hy]
      · simp [hxy]
    · rw [if_neg hy]
      rw [not_or] at hy
      by_cases hs : stop y = true
      · rw [if_pos hs]
        by_cases hxy : x = y
        · subst hxy
          simp [hy.1, hs]
        · simp [hxy]
      · rw [if_neg hs]
        by_cases hxy : x = y
        · subst hxy
          simp [hy.2, hs]
        · simp [hxy]

theorem mem_queue_foldl_visit (ps : List α) (s : State α) (x : α) :
    x ∈ (ps.foldl (visit stop) s).queue ↔
      x ∈ s.queue ∨ (x ∈ ps ∧ x ∉ s.found ∧ x ∉ s.stopped ∧ stop x = false) := by
  induction ps generalizing s with
  | nil => simp
  | cons y ys ih =>
    rw [List.foldl_cons, ih]
    unfold visit
    by_cases hy : y ∈ s.found ∨ y ∈ s.stopped
    · rw [if_pos hy]
      by_cases hxy : x = y
      · subst hxy
        rcases hy with hy | hy <;> simp [hy]
      · simp [hxy]
    · rw [if_neg hy]
      rw [not_or] at hy
      by_cases hs : stop y = true
      · rw [if_pos hs]
        by_cases hxy : x = y
        · subst hxy
          simp [hs]
        · simp [hxy]
      · rw [if_neg hs]
        by_cases hxy : x = y
        · subst hxy
          simp [hy.1, hy.2, Bool.eq_false_iff.mpr hs]
        · simp [hxy]

/-- A node is found once. -/
theorem nodup_found_foldl_visit (ps : List α) {s : State α} (h : s.found.Nodup) :
    (ps.foldl (visit stop) s).found.Nodup := by
  induction ps generalizing s with
  | nil => exact h
  | cons y ys ih =>
    rw [List.foldl_cons]
    apply ih
    unfold visit
    split_ifs with hy
    · exact h
    · exact h
    · exact List.nodup_cons.mpr ⟨fun hmem => hy (Or.inl hmem), h⟩

/-- Finding a node of `U` leaves fewer nodes of `U` unfound. -/
theorem countP_not_mem_cons_lt {y : α} {found U : List α} (hyU : y ∈ U) (hy : y ∉ found) :
    U.countP (fun x => x ∉ y :: found) < U.countP (fun x => x ∉ found) := by
  induction U with
  | nil => cases hyU
  | cons z zs ih =>
    have hmono : zs.countP (fun x => x ∉ y :: found) ≤ zs.countP (fun x => x ∉ found) :=
      List.countP_mono_left fun x _ hx => by simp_all
    rw [List.countP_cons, List.countP_cons]
    by_cases hz : z = y
    · rw [hz]
      have h1 : decide (y ∉ y :: found) = false := by simp
      have h2 : decide (y ∉ found) = true := by simpa using hy
      rw [h1, h2]
      simp only [Bool.false_eq_true, ↓reduceIte]
      omega
    · have hlt := ih ((List.mem_cons.mp hyU).resolve_left (Ne.symm hz))
      have hzc : decide (z ∉ y :: found) = decide (z ∉ found) := by simp [hz]
      rw [hzc]
      split <;> omega

/-- The queue plus the nodes of `U` not yet found does not grow while the nodes
found are in `U`. -/
theorem measure_foldl_visit_le (U ps : List α) (s : State α)
    (hU : ∀ x ∈ ps, stop x = false → x ∈ U) :
    (ps.foldl (visit stop) s).queue.length + U.countP (fun x => x ∉ (ps.foldl (visit stop) s).found) ≤
      s.queue.length + U.countP (fun x => x ∉ s.found) := by
  induction ps generalizing s with
  | nil => exact Nat.le_refl _
  | cons y ys ih =>
    rw [List.foldl_cons]
    refine Nat.le_trans (ih _ fun x hx => hU x (List.mem_cons_of_mem y hx)) ?_
    unfold visit
    split_ifs with hy hs
    · exact Nat.le_refl _
    · exact Nat.le_refl _
    · -- `y` is queued and found: one more in the queue, at least one fewer unfound node of `U`
      have hyU : y ∈ U := hU y List.mem_cons_self (Bool.eq_false_iff.mpr hs)
      have hlt := countP_not_mem_cons_lt hyU fun h => hy (Or.inl h)
      simp only [List.length_append, List.length_singleton]
      omega

end Scan

/-! ## What the search finds -/

variable (next : α → Option (List α)) (stop : α → Bool) (start : List α)

/-- The nodes the search reaches: the start nodes, and every node that is not
stopped and is met on an edge from a reached node. -/
inductive Reach : α → Prop
  | start {x : α} : x ∈ start → Reach x
  | step {x y : α} {ps : List α} : Reach y → next y = some ps → x ∈ ps → stop x = false → Reach x

/-- The invariant of the loop. -/
structure Inv (s : State α) : Prop where
  nodup : s.found.Nodup
  queue_found : ∀ x ∈ s.queue, x ∈ s.found
  start_found : ∀ x ∈ start, x ∈ s.found
  sound : ∀ x ∈ s.found, Reach next stop start x
  stopped : ∀ x ∈ s.stopped, stop x = true
  /-- A found node that has left the queue has had all its edges scanned. -/
  closed : ∀ y ∈ s.found, y ∉ s.queue → ∀ ps, next y = some ps → ∀ x ∈ ps, x ∈ s.found ∨ x ∈ s.stopped

variable {next stop start}

theorem inv_init : Inv next stop start (init start) where
  nodup := List.nodup_dedup start
  queue_found _ hx := List.mem_dedup.mpr hx
  start_found _ hx := List.mem_dedup.mpr hx
  sound _ hx := Reach.start (List.mem_dedup.mp hx)
  stopped _ hx := absurd hx List.not_mem_nil
  closed _ hy hq := absurd (List.mem_dedup.mp hy) hq

/-- One turn of the loop: the front node's edges are scanned. -/
theorem Inv.step {current : α} {queue found stopped ps : List α}
    (h : Inv next stop start ⟨current :: queue, found, stopped⟩) (hnext : next current = some ps) :
    Inv next stop start (ps.foldl (visit stop) ⟨queue, found, stopped⟩) where
  nodup := nodup_found_foldl_visit stop ps h.nodup
  queue_found x hx := by
    rw [mem_queue_foldl_visit] at hx
    rw [mem_found_foldl_visit]
    rcases hx with hx | ⟨hps, -, hst, hs⟩
    · exact Or.inl (h.queue_found x (List.mem_cons_of_mem current hx))
    · exact Or.inr ⟨hps, hst, hs⟩
  start_found x hx := (mem_found_foldl_visit stop ps _ x).mpr (Or.inl (h.start_found x hx))
  sound x hx := by
    rw [mem_found_foldl_visit] at hx
    rcases hx with hx | ⟨hps, -, hs⟩
    · exact h.sound x hx
    · exact Reach.step (h.sound current (h.queue_found current List.mem_cons_self)) hnext hps hs
  stopped x hx := by
    rw [mem_stopped_foldl_visit] at hx
    rcases hx with hx | ⟨-, -, hs⟩
    · exact h.stopped x hx
    · exact hs
  closed y hy hq ps' hnext' x hx := by
    rw [mem_found_foldl_visit, mem_stopped_foldl_visit]
    by_cases hyc : y = current
    · -- the node just scanned: every node on its edges is now found or stopped
      subst hyc
      rw [hnext, Option.some_inj] at hnext'
      subst hnext'
      by_cases hf : x ∈ found
      · exact Or.inl (Or.inl hf)
      · by_cases hst : x ∈ stopped
        · exact Or.inr (Or.inl hst)
        · cases hs : stop x
          · exact Or.inl (Or.inr ⟨hx, hst, rfl⟩)
          · exact Or.inr (Or.inr ⟨hx, hf, rfl⟩)
    · rw [mem_found_foldl_visit] at hy
      rw [mem_queue_foldl_visit] at hq
      by_cases hyf : y ∈ found
      · -- a node found before and out of the old queue was closed already
        have hq' : y ∉ current :: queue := by
          simp only [List.mem_cons, not_or]
          exact ⟨hyc, fun h => hq (Or.inl h)⟩
        rcases h.closed y hyf hq' ps' hnext' x hx with hx | hx
        · exact Or.inl (Or.inl hx)
        · exact Or.inr (Or.inl hx)
      · -- a node found in this turn is queued
        obtain ⟨hps, hst, hs⟩ := hy.resolve_left hyf
        exact absurd (Or.inr ⟨hps, hyf, hst, hs⟩) hq

omit [DecidableEq α] in
/-- With the queue empty, every reachable node is found. -/
theorem Inv.exit {found stopped : List α} (h : Inv next stop start ⟨[], found, stopped⟩) {x : α}
    (hx : Reach next stop start x) : x ∈ found := by
  induction hx with
  | start hx => exact h.start_found _ hx
  | step _ hnext hmem hs ih =>
    rcases h.closed _ ih List.not_mem_nil _ hnext _ hmem with hf | hst
    · exact hf
    · have := h.stopped _ hst
      rw [hs] at this
      exact absurd this Bool.false_ne_true

/-- Enough fuel: the queue plus the unfound nodes of a finite set `U` that holds
every reachable node, and `next` defined on every reachable node. -/
theorem search_spec (U : List α) (hU : ∀ x, Reach next stop start x → x ∈ U)
    (hnext : ∀ x, Reach next stop start x → (next x).isSome) (fuel : ℕ) :
    ∀ s : State α, Inv next stop start s → s.queue.length + U.countP (fun x => x ∉ s.found) < fuel →
      ∃ found, search next stop fuel s = some found ∧
        (∀ x, x ∈ found ↔ Reach next stop start x) ∧ found.Nodup := by
  induction fuel with
  | zero => intro s _ hfuel; omega
  | succ fuel ih =>
    rintro ⟨queue, found, stopped⟩ h hfuel
    rcases queue with _ | ⟨current, queue⟩
    · exact ⟨found, rfl, fun x => ⟨h.sound x, h.exit⟩, h.nodup⟩
    · have hreach := h.sound current (h.queue_found current List.mem_cons_self)
      obtain ⟨ps, hps⟩ := Option.isSome_iff_exists.mp (hnext current hreach)
      -- the scanned nodes that are found are reachable, so in `U`
      have hmeasure := measure_foldl_visit_le stop U ps ⟨queue, found, stopped⟩
        fun x hx hs => hU x (Reach.step hreach hps hx hs)
      have hlt : (ps.foldl (visit stop) ⟨queue, found, stopped⟩).queue.length +
          U.countP (fun x => x ∉ (ps.foldl (visit stop) ⟨queue, found, stopped⟩).found) < fuel := by
        dsimp only at hfuel hmeasure
        simp only [List.length_cons] at hfuel
        omega
      obtain ⟨found', hsearch, hspec⟩ := ih _ (h.step hps) hlt
      exact ⟨found', by simpa only [search, hps, Option.bind_some] using hsearch, hspec⟩

/-- The search from `start`, with fuel above the number of start nodes and of
nodes of `U`, returns exactly the reachable nodes, each once. -/
theorem search_init_spec (U : List α) (hU : ∀ x, Reach next stop start x → x ∈ U)
    (hnext : ∀ x, Reach next stop start x → (next x).isSome) {fuel : ℕ}
    (hfuel : start.length + U.length < fuel) :
    ∃ found, search next stop fuel (init start) = some found ∧
      (∀ x, x ∈ found ↔ Reach next stop start x) ∧ found.Nodup := by
  apply search_spec U hU hnext fuel (init start) inv_init
  have := List.countP_le_length (p := fun x => decide (x ∉ start.dedup)) (l := U)
  show start.length + U.countP (fun x => x ∉ start.dedup) < fuel
  omega

/-- Whatever the search returns is found once: no node is added twice. -/
theorem nodup_of_search_eq_some {fuel : ℕ} :
    ∀ {s : State α} {found : List α}, s.found.Nodup → search next stop fuel s = some found → found.Nodup := by
  induction fuel with
  | zero => intro s found _ h; simp [search] at h
  | succ fuel ih =>
    rintro ⟨queue, found, stopped⟩ found' hnodup h
    rcases queue with _ | ⟨current, queue⟩
    · simp only [search, Option.some_inj] at h
      exact h ▸ hnodup
    · simp only [search, Option.bind_eq_some_iff] at h
      obtain ⟨ps, -, h⟩ := h
      exact ih (nodup_found_foldl_visit stop ps (s := ⟨queue, found, stopped⟩) hnodup) h

/-! ## Reachable nodes as the nodes below the start -/

variable (next) in
/-- `a` is met on an edge from `b`. -/
def Edge (a b : α) : Prop := ∃ ps, next b = some ps ∧ a ∈ ps

omit [DecidableEq α] in
variable (next) in
/-- Every reachable node is in a set that holds the start nodes and is closed
under the edges. -/
theorem reach_mem {U : α → Prop} (hstart : ∀ x ∈ start, U x)
    (hclosed : ∀ x y, Edge next x y → U y → U x) {x : α} (hx : Reach next stop start x) : U x := by
  induction hx with
  | start hx => exact hstart _ hx
  | step _ hnext hmem _ ih => exact hclosed _ _ ⟨_, hnext, hmem⟩ ih

omit [DecidableEq α] in
/-- When `stop` is closed downwards along the edges and no start node is
stopped, the reachable nodes are the nodes below a start node that are not
stopped. -/
theorem reach_iff_of_closed (hdown : ∀ x y, Edge next x y → stop y = true → stop x = true)
    (hstart : ∀ p ∈ start, stop p = false) (x : α) :
    Reach next stop start x ↔ (∃ p ∈ start, Relation.ReflTransGen (Edge next) x p) ∧ stop x = false := by
  constructor
  · intro hx
    induction hx with
    | start hx => exact ⟨⟨_, hx, Relation.ReflTransGen.refl⟩, hstart _ hx⟩
    | step _ hnext hmem hs ih =>
      obtain ⟨⟨p, hp, hpath⟩, -⟩ := ih
      exact ⟨⟨p, hp, Relation.ReflTransGen.head ⟨_, hnext, hmem⟩ hpath⟩, hs⟩
  · rintro ⟨⟨p, hp, hpath⟩, hs⟩
    induction hpath using Relation.ReflTransGen.head_induction_on with
    | refl => exact Reach.start hp
    | @head a c hedge _ ih =>
      obtain ⟨ps, hnext, hmem⟩ := hedge
      -- the node above is not stopped either, since `stop` is closed downwards
      have hs' : stop c = false := by
        cases hc : stop c
        · rfl
        · exact absurd (hdown a c ⟨ps, hnext, hmem⟩ hc) (by rw [hs]; exact Bool.false_ne_true)
      exact Reach.step (ih hs') hnext hmem hs

end Worklist
