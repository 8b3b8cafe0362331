import Mathlib.Data.Nat.Digits.Lemmas

/-!
# Fixed-width big-endian byte strings

A number below `256 ^ n` written as `n` bytes, most significant first, as a
key-value store lays out the fields of a composite key. The lexicographic order
of such byte strings is the order of the numbers (`beBytes_lt_beBytes_iff`),
and of a concatenation of fields of fixed widths it is the lexicographic order
of the fields (`append_lt_append_iff`); incrementing the bytes from the last
one with a carry adds one (`incrementRev_leBytes`).
-/

namespace BigEndian

/-- The `n` low bytes of `x`, least significant first. -/
def leBytes : ℕ → ℕ → List ℕ
  | 0, _ => []
  | n + 1, x => x % 256 :: leBytes n (x / 256)

/-- The `n` low bytes of `x`, most significant first. -/
def beBytes (n x : ℕ) : List ℕ :=
  (leBytes n x).reverse

/-- The number a byte string denotes, most significant byte first. -/
def ofBytes (bs : List ℕ) : ℕ :=
  Nat.ofDigits 256 bs.reverse

@[simp] theorem length_leBytes (n x : ℕ) : (leBytes n x).length = n := by
  induction n generalizing x with
  | zero => rfl
  | succ n ih => simp [leBytes, ih]

@[simp] theorem length_beBytes (n x : ℕ) : (beBytes n x).length = n := by
  simp [beBytes]

theorem beBytes_succ (n x : ℕ) : beBytes (n + 1) x = beBytes n (x / 256) ++ [x % 256] := by
  simp [beBytes, leBytes]

theorem ofBytes_beBytes (n x : ℕ) : ofBytes (beBytes n x) = x % 256 ^ n := by
  rw [ofBytes, beBytes, List.reverse_reverse]
  induction n generalizing x with
  | zero => simp [leBytes, Nat.mod_one]
  | succ n ih =>
    rw [leBytes, Nat.ofDigits_cons, ih, pow_succ', Nat.mod_mul]

theorem lt_of_mem_leBytes {n x b : ℕ} (hb : b ∈ leBytes n x) : b < 256 := by
  induction n generalizing x with
  | zero => simp [leBytes] at hb
  | succ n ih =>
    rcases List.mem_cons.mp hb with rfl | hb
    · exact Nat.mod_lt _ (by norm_num)
    · exact ih hb

theorem lt_of_mem_beBytes {n x b : ℕ} (hb : b ∈ beBytes n x) : b < 256 :=
  lt_of_mem_leBytes (List.mem_reverse.mp hb)

theorem ofBytes_lt (bs : List ℕ) (h : ∀ b ∈ bs, b < 256) : ofBytes bs < 256 ^ bs.length := by
  rw [ofBytes, ← List.length_reverse]
  exact Nat.ofDigits_lt_base_pow_length (by norm_num) (fun b hb => h b (List.mem_reverse.mp hb))

/-- Bytes below `256` are the bytes of the number they denote. -/
theorem leBytes_ofDigits (ds : List ℕ) (h : ∀ d ∈ ds, d < 256) :
    leBytes ds.length (Nat.ofDigits 256 ds) = ds := by
  induction ds with
  | nil => rfl
  | cons d ds ih =>
    have hd := h d List.mem_cons_self
    rw [List.length_cons, leBytes, Nat.ofDigits_cons, Nat.add_mul_mod_self_left, Nat.mod_eq_of_lt hd,
      Nat.add_mul_div_left _ _ (by norm_num), Nat.div_eq_of_lt hd, zero_add,
      ih (fun d hd => h d (List.mem_cons_of_mem _ hd))]

theorem beBytes_ofBytes (bs : List ℕ) (h : ∀ b ∈ bs, b < 256) : beBytes bs.length (ofBytes bs) = bs := by
  rw [beBytes, ofBytes, ← List.length_reverse, leBytes_ofDigits _ (fun b hb => h b (List.mem_reverse.mp hb)),
    List.reverse_reverse]

/-- Two strings of one length compare by their first difference: the first
parts if they differ, the rest otherwise. -/
theorem append_lt_append_iff {a b c d : List ℕ} (h : a.length = b.length) :
    a ++ c < b ++ d ↔ a < b ∨ a = b ∧ c < d := by
  induction a generalizing b with
  | nil =>
    rw [List.length_nil, eq_comm, List.length_eq_zero_iff] at h
    subst h
    simp
  | cons x a ih =>
    obtain _ | ⟨y, b⟩ := b
    · simp at h
    · simp only [List.cons_append, List.cons_lt_cons_iff, List.cons.injEq]
      rw [ih (by simpa using h)]
      tauto

theorem singleton_lt_singleton_iff {u v : ℕ} : [u] < [v] ↔ u < v := by
  simp [List.cons_lt_cons_iff]

/-- The byte order of fixed-width big-endian strings is the order of the
numbers. -/
theorem beBytes_lt_beBytes_iff {n x y : ℕ} (hx : x < 256 ^ n) (hy : y < 256 ^ n) :
    beBytes n x < beBytes n y ↔ x < y := by
  induction n generalizing x y with
  | zero => simp_all [beBytes, leBytes]
  | succ n ih =>
    have hx' : x / 256 < 256 ^ n := Nat.div_lt_of_lt_mul (by rw [← pow_succ']; exact hx)
    have hy' : y / 256 < 256 ^ n := Nat.div_lt_of_lt_mul (by rw [← pow_succ']; exact hy)
    -- the high bytes decide, and equal high bytes leave it to the last byte
    have heq : beBytes n (x / 256) = beBytes n (y / 256) ↔ x / 256 = y / 256 := by
      refine ⟨fun h => ?_, fun h => h ▸ rfl⟩
      rcases lt_trichotomy (x / 256) (y / 256) with hlt | heq | hgt
      · exact absurd h (ne_of_lt ((ih hx' hy').mpr hlt))
      · exact heq
      · exact absurd h (ne_of_gt ((ih hy' hx').mpr hgt))
    rw [beBytes_succ, beBytes_succ, append_lt_append_iff (by simp), ih hx' hy', heq,
      singleton_lt_singleton_iff]
    omega

theorem beBytes_injective {n x y : ℕ} (hx : x < 256 ^ n) (hy : y < 256 ^ n)
    (h : beBytes n x = beBytes n y) : x = y := by
  rcases lt_trichotomy x y with hlt | heq | hgt
  · exact absurd h (ne_of_lt ((beBytes_lt_beBytes_iff hx hy).mpr hlt))
  · exact heq
  · exact absurd h (ne_of_gt ((beBytes_lt_beBytes_iff hy hx).mpr hgt))

/-- Adding one to bytes given least significant first: the first byte below
`0xFF` goes up by one and every byte before it wraps to zero; all `0xFF` has no
successor. -/
def incrementRev : List ℕ → Option (List ℕ)
  | [] => none
  | b :: bs => if b < 255 then some ((b + 1) :: bs) else (incrementRev bs).map (0 :: ·)

theorem incrementRev_leBytes {n x : ℕ} (hx : x < 256 ^ n) :
    incrementRev (leBytes n x) = if x + 1 < 256 ^ n then some (leBytes n (x + 1)) else none := by
  induction n generalizing x with
  | zero => simp [leBytes, incrementRev]
  | succ n ih =>
    have hx' : x / 256 < 256 ^ n := Nat.div_lt_of_lt_mul (by rw [← pow_succ']; exact hx)
    rw [leBytes, incrementRev]
    by_cases hb : x % 256 < 255
    · -- no carry: only the low byte changes
      have hlt : x + 1 < 256 ^ (n + 1) := by
        rw [pow_succ] at hx ⊢
        omega
      have hlow : (x + 1) % 256 = x % 256 + 1 := by omega
      have hhigh : (x + 1) / 256 = x / 256 := by omega
      rw [if_pos hb, if_pos hlt, leBytes, hlow, hhigh]
    · -- carry: the low byte wraps and the high bytes are incremented
      have hlow : (x + 1) % 256 = 0 := by omega
      have hhigh : (x + 1) / 256 = x / 256 + 1 := by omega
      have hiff : x + 1 < 256 ^ (n + 1) ↔ x / 256 + 1 < 256 ^ n := by
        rw [pow_succ]
        omega
      rw [if_neg hb, ih hx']
      by_cases h : x / 256 + 1 < 256 ^ n
      · rw [if_pos h, if_pos (hiff.mpr h), leBytes, hlow, hhigh]
        rfl
      · rw [if_neg h, if_neg (mt hiff.mp h)]
        rfl

end BigEndian
