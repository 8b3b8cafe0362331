import Mathlib

/-!
# Reachability intervals

Model of `Interval` (`consensus/src/processes/reachability/interval.rs`), the
range of `u64` numbers the reachability tree allocates to a block: a block is a
chain ancestor of another when its interval contains the other's.

`Interval::new` `debug_assert!`s `start > 0`, `end >= start - 1` and
`end < u64::MAX`, and every interval is built by it, so `Interval` carries the
three as fields; `end` is `last`, the last number of the range. The arithmetic
on the bounds is `u64` arithmetic, which panics on overflow in every build (the
workspace keeps overflow checks in its release profile): `addU64` and `subU64`
return `none` there. `Interval.new` returns `none` where an assertion fails, as
a debug build does; the results below show where no assertion fails, so a
release build computes the same.

`split_half` rounds the size through an `f32`: `f32OfU64` is that conversion
(round to nearest, ties to even, to 24 significant bits), and the left part has
`⌈f32(size) / 2⌉` numbers. `split_exponential` biases the parts by
`f64` fractions of `2 ^ size`; which bias each part is offered is a parameter,
since the parts tile the interval whatever the floating-point results are.

Results:
* `splitExact_spec`: parts of the given sizes tile the interval.
* `splitExponential_spec`: every part has at least its size and the parts tile
  the interval.
* `splitHalf_spec`: the left part is nonempty when the interval is, and the two
  parts tile it.
-/

namespace RustyKaspa.Consensus.Reachability

/-- `u64::MAX`. -/
def U64_MAX : ℕ := 2 ^ 64 - 1

/-- `a + b` on `u64`, `none` on the overflow that panics. -/
def addU64 (a b : ℕ) : Option ℕ := if a + b ≤ U64_MAX then some (a + b) else none

/-- `a - b` on `u64`, `none` on the underflow that panics. -/
def subU64 (a b : ℕ) : Option ℕ := if b ≤ a then some (a - b) else none

/-- `iter().sum::<u64>()`, `none` on overflow. -/
def sumU64 (xs : List ℕ) : Option ℕ := xs.foldlM addU64 0

theorem addU64_eq_some {a b : ℕ} (h : a + b ≤ U64_MAX) : addU64 a b = some (a + b) := if_pos h

theorem addU64_eq_some_iff {a b c : ℕ} : addU64 a b = some c ↔ a + b ≤ U64_MAX ∧ a + b = c := by
  unfold addU64
  split_ifs with h <;> simp [h]

theorem subU64_eq_some_iff {a b c : ℕ} : subU64 a b = some c ↔ b ≤ a ∧ a - b = c := by
  unfold subU64
  split_ifs with h <;> simp [h]

theorem subU64_eq_some {a b : ℕ} (h : b ≤ a) : subU64 a b = some (a - b) := if_pos h

theorem foldlM_addU64 : ∀ (xs : List ℕ) (acc : ℕ), acc + xs.sum ≤ U64_MAX →
    xs.foldlM addU64 acc = some (acc + xs.sum)
  | [], acc, _ => by simp
  | x :: xs, acc, h => by
    rw [List.sum_cons] at h
    rw [List.foldlM_cons, addU64_eq_some (by omega)]
    simp only [Option.bind_eq_bind, Option.bind_some]
    rw [foldlM_addU64 xs (acc + x) (by omega), List.sum_cons, Nat.add_assoc]

theorem sumU64_eq_some {xs : List ℕ} (h : xs.sum ≤ U64_MAX) : sumU64 xs = some xs.sum := by
  rw [sumU64, foldlM_addU64 xs 0 (by omega), Nat.zero_add]

/-- A sum that does not overflow is the sum, and fits. -/
theorem foldlM_addU64_eq_some : ∀ {xs : List ℕ} {acc n : ℕ}, acc ≤ U64_MAX →
    xs.foldlM addU64 acc = some n → n = acc + xs.sum ∧ n ≤ U64_MAX
  | [], acc, n, hacc, h => by
    simp only [List.foldlM_nil, Option.pure_def, Option.some.injEq] at h
    subst h
    exact ⟨by simp, hacc⟩
  | x :: xs, acc, n, _, h => by
    rw [List.foldlM_cons] at h
    unfold addU64 at h
    split_ifs at h with hle
    · rw [Option.bind_eq_bind, Option.bind_some] at h
      obtain ⟨hn, hmax⟩ := foldlM_addU64_eq_some hle h
      rw [List.sum_cons]
      exact ⟨by omega, hmax⟩
    · simp at h

theorem eq_sum_of_sumU64_eq_some {xs : List ℕ} {n : ℕ} (h : sumU64 xs = some n) :
    n = xs.sum ∧ n ≤ U64_MAX := by
  simpa using foldlM_addU64_eq_some (Nat.zero_le _) h

/-- `Interval` (lines 4–8) with the assertions of `Interval::new` (lines 23–28). -/
structure Interval where
  start : ℕ
  last : ℕ
  start_pos : 0 < start
  start_le : start ≤ last + 1
  last_lt : last < U64_MAX
  deriving DecidableEq

namespace Interval

/-- `Interval::new` (lines 23–28): `none` where a `debug_assert!` fails, also
on `start - 1` underflowing. -/
def new (start last : ℕ) : Option Interval :=
  if h : 0 < start ∧ start ≤ last + 1 ∧ last < U64_MAX then some ⟨start, last, h.1, h.2.1, h.2.2⟩ else none

theorem new_eq_some (start last : ℕ) (h₀ : 0 < start) (h₁ : start ≤ last + 1) (h₂ : last < U64_MAX) :
    ∃ i : Interval, new start last = some i ∧ i.start = start ∧ i.last = last :=
  ⟨_, dif_pos ⟨h₀, h₁, h₂⟩, rfl, rfl⟩

theorem new_eq_some_iff {start last : ℕ} {i : Interval} :
    new start last = some i ↔ i.start = start ∧ i.last = last := by
  constructor
  · intro h
    unfold new at h
    split_ifs at h
    cases h
    exact ⟨rfl, rfl⟩
  · rintro ⟨rfl, rfl⟩
    exact dif_pos ⟨i.start_pos, i.start_le, i.last_lt⟩

/-- `Interval::empty` (lines 30–32). -/
def empty : Interval := ⟨1, 0, Nat.one_pos, Nat.le_refl 1, by decide⟩

/-- `Interval::maximal` (lines 37–39). -/
def maximal : Interval := ⟨1, U64_MAX - 1, Nat.one_pos, by decide, by decide⟩

/-- `Interval::size` (lines 41–46): `end + 1` fits and is at least `start`. -/
def size (i : Interval) : ℕ := i.last + 1 - i.start

theorem start_add_size (i : Interval) : i.start + i.size = i.last + 1 := by
  have := i.start_le
  unfold size
  omega

/-- `parts`, in order, cover the numbers from `start` up to `stop`, one after
another: what a split promises. -/
def Tiles : List Interval → ℕ → ℕ → Prop
  | [], start, stop => start = stop
  | part :: parts, start, stop => part.start = start ∧ Tiles parts (part.last + 1) stop

instance decidableTiles : ∀ parts start stop, Decidable (Tiles parts start stop)
  | [], _, _ => inferInstanceAs (Decidable (_ = _))
  | part :: parts, _, stop => @instDecidableAnd _ _ _ (decidableTiles parts (part.last + 1) stop)

namespace Tiles

/-- A tiling moves forward: each part starts at most one past its end. -/
theorem le : ∀ {parts : List Interval} {start stop : ℕ}, Tiles parts start stop → start ≤ stop
  | [], _, _, h => Nat.le_of_eq h
  | part :: _, _, _, ⟨hstart, hrest⟩ => by
    have := part.start_le
    have := le hrest
    omega

/-- Every part lies between the ends of the tiling. -/
theorem bounds : ∀ {parts : List Interval} {start stop : ℕ}, Tiles parts start stop →
    ∀ part ∈ parts, start ≤ part.start ∧ part.last + 1 ≤ stop
  | [], _, _, _, _, hmem => absurd hmem List.not_mem_nil
  | part :: _, _, _, ⟨hstart, hrest⟩, p, hmem => by
    rcases List.mem_cons.mp hmem with rfl | hmem
    · exact ⟨Nat.le_of_eq hstart.symm, hrest.le⟩
    · obtain ⟨h₁, h₂⟩ := bounds hrest p hmem
      have := part.start_le
      omega

/-- Each part starts right after the one before ends. -/
theorem isChain : ∀ {parts : List Interval} {start stop : ℕ}, Tiles parts start stop →
    parts.IsChain fun a b => a.last + 1 = b.start
  | [], _, _, _ => List.IsChain.nil
  | [_], _, _, _ => List.IsChain.singleton _
  | _ :: _ :: _, _, _, ⟨_, hnext, hrest⟩ => List.IsChain.cons_cons hnext.symm (isChain ⟨hnext, hrest⟩)

end Tiles

/-- `Interval::is_empty` (lines 48–50). -/
def isEmpty (i : Interval) : Bool := i.size = 0

/-- `Interval::increase` (lines 52–54). -/
def increase (i : Interval) (offset : ℕ) : Option Interval := do
  let start ← addU64 i.start offset
  let last ← addU64 i.last offset
  new start last

/-- `Interval::decrease` (lines 56–58). -/
def decrease (i : Interval) (offset : ℕ) : Option Interval := do
  let start ← subU64 i.start offset
  let last ← subU64 i.last offset
  new start last

/-- `Interval::increase_start` (lines 60–62). -/
def increaseStart (i : Interval) (offset : ℕ) : Option Interval :=
  (addU64 i.start offset).bind fun start => new start i.last

/-- `Interval::decrease_start` (lines 64–66). -/
def decreaseStart (i : Interval) (offset : ℕ) : Option Interval :=
  (subU64 i.start offset).bind fun start => new start i.last

/-- `Interval::increase_end` (lines 68–70). -/
def increaseEnd (i : Interval) (offset : ℕ) : Option Interval :=
  (addU64 i.last offset).bind fun last => new i.start last

/-- `Interval::decrease_end` (lines 72–74). -/
def decreaseEnd (i : Interval) (offset : ℕ) : Option Interval :=
  (subU64 i.last offset).bind fun last => new i.start last

/-! The interval operations as a debug build runs them: each moves an end by
`offset` or fails. -/

theorem increase_eq_some {i j : Interval} {offset : ℕ} (h : i.increase offset = some j) :
    j.start = i.start + offset ∧ j.last = i.last + offset := by
  simp only [increase, Option.bind_eq_bind, Option.bind_eq_some_iff, addU64_eq_some_iff,
    new_eq_some_iff] at h
  omega

theorem decrease_eq_some {i j : Interval} {offset : ℕ} (h : i.decrease offset = some j) :
    j.start + offset = i.start ∧ j.last + offset = i.last := by
  simp only [decrease, Option.bind_eq_bind, Option.bind_eq_some_iff, subU64_eq_some_iff,
    new_eq_some_iff] at h
  omega

theorem increaseStart_eq_some {i j : Interval} {offset : ℕ} (h : i.increaseStart offset = some j) :
    j.start = i.start + offset ∧ j.last = i.last := by
  simp only [increaseStart, Option.bind_eq_some_iff, addU64_eq_some_iff, new_eq_some_iff] at h
  omega

theorem decreaseStart_eq_some {i j : Interval} {offset : ℕ} (h : i.decreaseStart offset = some j) :
    j.start + offset = i.start ∧ j.last = i.last := by
  simp only [decreaseStart, Option.bind_eq_some_iff, subU64_eq_some_iff, new_eq_some_iff] at h
  omega

theorem increaseEnd_eq_some {i j : Interval} {offset : ℕ} (h : i.increaseEnd offset = some j) :
    j.start = i.start ∧ j.last = i.last + offset := by
  simp only [increaseEnd, Option.bind_eq_some_iff, addU64_eq_some_iff, new_eq_some_iff] at h
  omega

theorem decreaseEnd_eq_some {i j : Interval} {offset : ℕ} (h : i.decreaseEnd offset = some j) :
    j.start = i.start ∧ j.last + offset = i.last := by
  simp only [decreaseEnd, Option.bind_eq_some_iff, subU64_eq_some_iff, new_eq_some_iff] at h
  omega

/-- `n as f32` for `n ≤ u64::MAX`: an integer, `n` rounded to nearest with ties
to even on 24 significant bits. -/
def f32OfU64 (n : ℕ) : ℕ :=
  if n < 2 ^ 24 then n
  else
    let dropped := Nat.log2 n - 23
    let q := n / 2 ^ dropped
    let r := n % 2 ^ dropped
    let half := 2 ^ (dropped - 1)
    (if half < r ∨ (r = half ∧ q % 2 = 1) then q + 1 else q) * 2 ^ dropped

/-- The two ways `f32OfU64` rounds: down or up to a multiple of the last kept bit. -/
theorem f32OfU64_cases {n : ℕ} (h : 2 ^ 24 ≤ n) :
    f32OfU64 n = n / 2 ^ (Nat.log2 n - 23) * 2 ^ (Nat.log2 n - 23) ∨
      f32OfU64 n = n / 2 ^ (Nat.log2 n - 23) * 2 ^ (Nat.log2 n - 23) + 2 ^ (Nat.log2 n - 23) := by
  unfold f32OfU64
  rw [if_neg (Nat.not_lt.mpr h)]
  dsimp only
  split_ifs
  · exact Or.inr (Nat.succ_mul _ _)
  · exact Or.inl rfl

/-- The last kept bit of a rounded `n` weighs at most `n / 2 ^ 23`. -/
theorem two_pow_dropped_le {n : ℕ} (h : 2 ^ 24 ≤ n) : 2 ^ (Nat.log2 n - 23) * 2 ^ 23 ≤ n := by
  have hn : n ≠ 0 := by omega
  have hlog : 24 ≤ Nat.log2 n := (Nat.le_log2 hn).mpr h
  rw [← Nat.pow_add, Nat.sub_add_cancel (by omega)]
  exact Nat.log2_self_le hn

/-- Rounding to an `f32` moves `n` by less than `n / 2 ^ 23`. -/
theorem f32OfU64_bounds (n : ℕ) :
    n - n / 2 ^ 23 ≤ f32OfU64 n ∧ f32OfU64 n ≤ n + n / 2 ^ 23 := by
  by_cases hsmall : n < 2 ^ 24
  · rw [f32OfU64, if_pos hsmall]
    omega
  have hbig : 2 ^ 24 ≤ n := Nat.not_lt.mp hsmall
  have hbit := two_pow_dropped_le hbig
  have hdiv := Nat.div_add_mod n (2 ^ (Nat.log2 n - 23))
  have hmod := Nat.mod_lt n (Nat.two_pow_pos (Nat.log2 n - 23))
  rw [Nat.mul_comm] at hdiv
  rcases f32OfU64_cases hbig with h | h <;> rw [h] <;> omega

/-- `split_half` (lines 76–78) through `split_fraction(0.5)` (lines 85–89): the
left part has `f32::ceil(size as f32 * 0.5) as u64` numbers. `split_fraction` is
called with no other fraction. -/
def splitHalf (i : Interval) : Option (Interval × Interval) := do
  let leftSize := (f32OfU64 i.size + 1) / 2
  let leftEnd ← (addU64 i.start leftSize).bind fun s => subU64 s 1
  let left ← new i.start leftEnd
  let rightStart ← addU64 i.start leftSize
  let right ← new rightStart i.last
  pure (left, right)

/-- The left part of `split_half` has a number when the interval has one, and
leaves one when the interval has two. -/
theorem splitHalf_leftSize (n : ℕ) :
    (f32OfU64 n + 1) / 2 ≤ n ∧ (0 < n → 0 < (f32OfU64 n + 1) / 2) ∧
      (1 < n → (f32OfU64 n + 1) / 2 < n) := by
  have := f32OfU64_bounds n
  omega

theorem splitHalf_spec (i : Interval) :
    ∃ left right, i.splitHalf = some (left, right) ∧ Tiles [left, right] i.start (i.last + 1) ∧
      (0 < i.size → 0 < left.size) ∧ (1 < i.size → 0 < right.size) := by
  obtain ⟨hle, hleft_pos, hright_pos⟩ := splitHalf_leftSize i.size
  have hsize := i.start_add_size
  have hstart := i.start_pos
  have hlast := i.last_lt
  set leftSize := (f32OfU64 i.size + 1) / 2 with hleftSize
  obtain ⟨left, hleft, hls, hll⟩ :=
    new_eq_some i.start (i.start + leftSize - 1) hstart (by omega) (by omega)
  obtain ⟨right, hright, hrs, hrl⟩ := new_eq_some (i.start + leftSize) i.last (by omega) (by omega) hlast
  refine ⟨left, right, ?_, ⟨hls, by omega, by simp [Tiles, hrl]⟩, ?_, ?_⟩
  · simp only [splitHalf, ← hleftSize, addU64_eq_some (by omega : i.start + leftSize ≤ U64_MAX),
      Option.bind_some, subU64_eq_some (by omega : 1 ≤ i.start + leftSize), hleft, hright,
      Option.bind_eq_bind, Option.pure_def]
  · intro h
    simp only [size, hls, hll] at h ⊢
    omega
  · intro h
    simp only [size, hrs, hrl] at h ⊢
    omega

/-- The `map` of `split_exact` (lines 96–104): each part starts where the last
one ended. -/
def splitExactLoop : ℕ → List ℕ → Option (List Interval)
  | _, [] => some []
  | start, size :: sizes => do
    let last ← (addU64 start size).bind fun s => subU64 s 1
    let interval ← new start last
    let start' ← addU64 start size
    let rest ← splitExactLoop start' sizes
    pure (interval :: rest)

/-- `split_exact` (lines 94–105): `assert_eq!` that the sizes sum to the size. -/
def splitExact (i : Interval) (sizes : List ℕ) : Option (List Interval) :=
  (sumU64 sizes).bind fun sum => if sum = i.size then splitExactLoop i.start sizes else none

/-- Each part of the loop has its size and starts where the one before it ended,
as long as the `u64` bounds hold. -/
theorem splitExactLoop_spec : ∀ (sizes : List ℕ) (start : ℕ), 0 < start →
    start + sizes.sum ≤ U64_MAX →
    ∃ parts, splitExactLoop start sizes = some parts ∧ parts.map size = sizes ∧
      Tiles parts start (start + sizes.sum)
  | [], start, _, _ => ⟨[], rfl, rfl, by simp [Tiles]⟩
  | size :: sizes, start, hstart, hle => by
    rw [List.sum_cons] at hle
    obtain ⟨part, hpart, hps, hpl⟩ := new_eq_some start (start + size - 1) hstart (by omega) (by omega)
    obtain ⟨rest, hrest, hsizes, htiles⟩ :=
      splitExactLoop_spec sizes (start + size) (by omega) (by omega)
    refine ⟨part :: rest, ?_, ?_, hps, ?_⟩
    · simp only [splitExactLoop, addU64_eq_some (by omega : start + size ≤ U64_MAX),
        Option.bind_some, subU64_eq_some (by omega : 1 ≤ start + size), hpart, hrest,
        Option.bind_eq_bind, Option.pure_def]
    · simp only [List.map_cons, hsizes, Interval.size, hps, hpl]
      congr 1
      omega
    · rw [hpl, show start + size - 1 + 1 = start + size by omega, List.sum_cons, ← Nat.add_assoc]
      exact htiles

/-- `split_exact` of sizes that sum to the interval's size: parts of those sizes
tile the interval. -/
theorem splitExact_spec (i : Interval) (sizes : List ℕ) (h : sizes.sum = i.size) :
    ∃ parts, i.splitExact sizes = some parts ∧ parts.map size = sizes ∧
      Tiles parts i.start (i.last + 1) := by
  have hsize := i.start_add_size
  have hlast := i.last_lt
  obtain ⟨parts, hparts, hsizes, htiles⟩ := splitExactLoop_spec sizes i.start i.start_pos (by omega)
  refine ⟨parts, ?_, hsizes, by rwa [h, hsize] at htiles⟩
  rw [splitExact, sumU64_eq_some (by omega), Option.bind_some, if_pos h, hparts]

/-- What `split_exact` returns: parts of the sizes that tile the interval. -/
theorem splitExact_parts {i : Interval} {sizes : List ℕ} {parts : List Interval}
    (h : i.splitExact sizes = some parts) :
    parts.map size = sizes ∧ Tiles parts i.start (i.last + 1) := by
  have hsum : sizes.sum = i.size := by
    unfold splitExact at h
    obtain ⟨sum, hsum, hrest⟩ := Option.bind_eq_some_iff.mp h
    obtain ⟨rfl, -⟩ := eq_sum_of_sumU64_eq_some hsum
    by_contra hne
    rw [if_neg hne] at hrest
    cases hrest
  obtain ⟨parts', hparts', hsizes, htiles⟩ := splitExact_spec i sizes hsum
  rw [hparts', Option.some.injEq] at h
  subst h
  exact ⟨hsizes, htiles⟩

/-- The loop of `split_exponential` (lines 131–144) that adds a bias to each
size: the last part takes what remains, every other part what it is offered
(`f64::round(total_bias * fraction) as u64`) up to what remains. -/
def biasSizes (offered : ℕ → ℕ) : ℕ → ℕ → List ℕ → Option (List ℕ)
  | _, _, [] => some []
  | _, remaining, [size] => (addU64 size remaining).map fun s => [s]
  | index, remaining, size :: sizes@(_ :: _) =>
    let bias := min remaining (offered index)
    (addU64 size bias).bind fun s =>
      (biasSizes offered (index + 1) (remaining - bias) sizes).map fun rest => s :: rest

/-- The loop hands out the whole bias and never shrinks a size. -/
theorem biasSizes_spec (offered : ℕ → ℕ) : ∀ (sizes : List ℕ) (index remaining : ℕ), sizes ≠ [] →
    sizes.sum + remaining ≤ U64_MAX →
    ∃ biased, biasSizes offered index remaining sizes = some biased ∧
      biased.sum = sizes.sum + remaining ∧ List.Forall₂ (· ≤ ·) sizes biased
  | [], _, _, hne, _ => absurd rfl hne
  | [size], _, remaining, _, hle => by
    refine ⟨[size + remaining], ?_, by simp, by simp⟩
    rw [biasSizes, addU64_eq_some (by simpa using hle), Option.map_some]
  | size :: next :: sizes, index, remaining, _, hle => by
    rw [List.sum_cons] at hle
    obtain ⟨rest, hrest, hsum, hle'⟩ := biasSizes_spec offered (next :: sizes) (index + 1)
      (remaining - min remaining (offered index)) (List.cons_ne_nil _ _) (by omega)
    refine ⟨(size + min remaining (offered index)) :: rest, ?_, ?_, ?_⟩
    · rw [biasSizes, addU64_eq_some (by omega), Option.bind_some, hrest, Option.map_some]
    · simp only [List.sum_cons] at hsum ⊢
      omega
    · exact List.Forall₂.cons (Nat.le_add_right _ _) hle'

/-- `split_exponential` (lines 118–147); `offered sizes totalBias index` is the
bias `exponential_fractions` offers part `index`. -/
def splitExponential (offered : List ℕ → ℕ → ℕ → ℕ) (i : Interval) (sizes : List ℕ) :
    Option (List Interval) :=
  (sumU64 sizes).bind fun sizesSum =>
    -- `assert!(interval_size >= sizes_sum)` and `assert!(sizes_sum > 0)`
    if i.size < sizesSum ∨ sizesSum = 0 then none
    else if i.size = sizesSum then i.splitExact sizes
    else (biasSizes (offered sizes (i.size - sizesSum)) 0 (i.size - sizesSum) sizes).bind i.splitExact

/-- `split_exponential` of positive sizes that fit: every part has at least its
size and the parts tile the interval, whatever biases the fractions offer. -/
theorem splitExponential_spec (offered : List ℕ → ℕ → ℕ → ℕ) (i : Interval) (sizes : List ℕ)
    (hpos : 0 < sizes.sum) (hle : sizes.sum ≤ i.size) :
    ∃ parts, i.splitExponential offered sizes = some parts ∧
      List.Forall₂ (fun size part => size ≤ part.size) sizes parts ∧
      Tiles parts i.start (i.last + 1) := by
  have hsize := i.start_add_size
  have hlast := i.last_lt
  have hne : sizes ≠ [] := by
    rintro rfl
    simp at hpos
  rw [splitExponential, sumU64_eq_some (by omega), Option.bind_some,
    if_neg (by omega)]
  by_cases heq : i.size = sizes.sum
  · -- no bias to hand out: the sizes are split exactly
    rw [if_pos heq]
    obtain ⟨parts, hparts, hsizes, htiles⟩ := splitExact_spec i sizes heq.symm
    refine ⟨parts, hparts, ?_, htiles⟩
    rw [← List.forall₂_map_right_iff, hsizes, List.forall₂_same]
    exact fun _ _ => Nat.le_refl _
  · rw [if_neg heq]
    obtain ⟨biased, hbiased, hsum, hmono⟩ := biasSizes_spec (offered sizes (i.size - sizes.sum))
      sizes 0 (i.size - sizes.sum) hne (by omega)
    obtain ⟨parts, hparts, hsizes, htiles⟩ := splitExact_spec i biased (by omega)
    refine ⟨parts, by rw [hbiased, Option.bind_some, hparts], ?_, htiles⟩
    rwa [← List.forall₂_map_right_iff, hsizes]

/-- What `split_exponential` returns: parts of at least the sizes that tile the
interval. -/
theorem splitExponential_parts {offered : List ℕ → ℕ → ℕ → ℕ} {i : Interval} {sizes : List ℕ}
    {parts : List Interval} (h : i.splitExponential offered sizes = some parts) :
    List.Forall₂ (fun size part => size ≤ part.size) sizes parts ∧
      Tiles parts i.start (i.last + 1) := by
  -- the assertions passed: the sizes are positive and fit
  have hfit : 0 < sizes.sum ∧ sizes.sum ≤ i.size := by
    unfold splitExponential at h
    obtain ⟨sum, hsum, hrest⟩ := Option.bind_eq_some_iff.mp h
    obtain ⟨rfl, -⟩ := eq_sum_of_sumU64_eq_some hsum
    by_contra hbad
    rw [if_pos (by omega)] at hrest
    cases hrest
  obtain ⟨parts', hparts', hsizes, htiles⟩ := splitExponential_spec offered i sizes hfit.1 hfit.2
  rw [hparts', Option.some.injEq] at h
  subst h
  exact ⟨hsizes, htiles⟩

/-- `Interval::contains` (lines 149–151). -/
def contains (i other : Interval) : Bool := i.start ≤ other.start && other.last ≤ i.last

/-- `Interval::strictly_contains` (lines 153–155). -/
def strictlyContains (i other : Interval) : Bool := i.start ≤ other.start && other.last < i.last

@[simp] theorem contains_iff {i other : Interval} :
    i.contains other = true ↔ i.start ≤ other.start ∧ other.last ≤ i.last := by
  simp [contains]

@[simp] theorem strictlyContains_iff {i other : Interval} :
    i.strictlyContains other = true ↔ i.start ≤ other.start ∧ other.last < i.last := by
  simp [strictlyContains]

end Interval

end RustyKaspa.Consensus.Reachability
