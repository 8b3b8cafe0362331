import Mathlib.Data.Nat.Digits.Lemmas

/-!
# Regrouping digits through a bit buffer

A list of `w`-bit digits is cut into `v`-bit digits with a buffer: each input
digit is shifted in at the bottom, and while at least `v` bits are buffered the
top `v` of them are emitted. The bits left at the end, fewer than `v`, are
dropped, or padded with zeros on the right to one more digit (`Acc.flush`).

A state denotes a number, its emitted digits read big-endian followed by the
buffered bits (`Acc.value`), and holds a number of bits (`Acc.size`); every
step keeps both, so the output is a big-endian expansion of the input. Since
expansions of one length are unique, regrouping `w → v` with padding and then
`v → w` without it gives the input back whenever `v ≤ w`: the padding is
shorter than one `w`-bit digit and is dropped again (`regroup_flush_regroup`).
-/

namespace BitRegroup

open Nat (ofDigits)

/-! ## Big-endian values -/

/-- The number a list of `w`-bit digits denotes, most significant digit first. -/
def beValue (w : ℕ) (ds : List ℕ) : ℕ :=
  ofDigits (2 ^ w) ds.reverse

@[simp] theorem beValue_nil (w : ℕ) : beValue w [] = 0 :=
  rfl

theorem beValue_append_single (w : ℕ) (ds : List ℕ) (d : ℕ) :
    beValue w (ds ++ [d]) = beValue w ds * 2 ^ w + d := by
  simp only [beValue, List.reverse_append, List.reverse_cons, List.reverse_nil, List.nil_append,
    List.singleton_append, Nat.ofDigits_cons]
  ring

/-- Expansions of one length in digits below `2 ^ w` are unique. -/
theorem beValue_inj {w : ℕ} (hw : 0 < w) {a b : List ℕ} (hlen : a.length = b.length)
    (ha : ∀ x ∈ a, x < 2 ^ w) (hb : ∀ x ∈ b, x < 2 ^ w) (h : beValue w a = beValue w b) :
    a = b := by
  have hrev := Nat.ofDigits_inj_of_len_eq (Nat.one_lt_two_pow hw.ne') (by simpa using hlen)
    (by simpa using ha) (by simpa using hb) h
  exact List.reverse_injective hrev

/-! ## The buffer -/

/-- The state of a regrouping loop: the buffer, the number of bits buffered,
and the digits emitted so far. -/
structure Acc where
  buff : ℕ
  bits : ℕ
  out : List ℕ
  deriving DecidableEq, Repr

/-- One iteration of the drain loop:
`bits -= v; out.push(buff >> bits); buff &= (1 << bits) - 1`. -/
def Acc.emit (v : ℕ) (s : Acc) : Acc :=
  ⟨s.buff &&& ((1 <<< (s.bits - v)) - 1), s.bits - v, s.out ++ [s.buff >>> (s.bits - v)]⟩

/-- `while bits >= v { .. }`, by recursion on a bound of its iterations. -/
def drainLoop (v : ℕ) : ℕ → Acc → Acc
  | 0, s => s
  | fuel + 1, s => if v ≤ s.bits then drainLoop v fuel (s.emit v) else s

/-- The drain loop; for `0 < v` it runs at most `bits` times. -/
def drain (v : ℕ) (s : Acc) : Acc :=
  drainLoop v s.bits s

/-- One input digit: `buff = (buff << w) | c; bits += w`, then drain. -/
def push (w v : ℕ) (s : Acc) (c : ℕ) : Acc :=
  drain v ⟨(s.buff <<< w) ||| c, s.bits + w, s.out⟩

/-- The loop over the input digits, from an empty buffer. -/
def regroup (w v : ℕ) (ds : List ℕ) : Acc :=
  ds.foldl (push w v) ⟨0, 0, []⟩

/-- The emitted digits, and the leftover bits padded with zeros on the right
to one more digit if there are any: `if bits > 0 { out.push(buff << (v - bits)) }`. -/
def Acc.flush (v : ℕ) (s : Acc) : List ℕ :=
  if 0 < s.bits then s.out ++ [s.buff <<< (v - s.bits)] else s.out

/-- What a state denotes: the emitted digits, then the buffered bits. -/
def Acc.value (v : ℕ) (s : Acc) : ℕ :=
  beValue v s.out * 2 ^ s.bits + s.buff

/-- The number of bits a state holds. -/
def Acc.size (v : ℕ) (s : Acc) : ℕ :=
  v * s.out.length + s.bits

/-- The buffer holds no more than `bits` bits, and every emitted digit has `v` bits. -/
structure Acc.Valid (v : ℕ) (s : Acc) : Prop where
  buff_lt : s.buff < 2 ^ s.bits
  out_lt : ∀ x ∈ s.out, x < 2 ^ v

/-! ## One emitted digit -/

section Emit

variable {v : ℕ} {s : Acc}

theorem Acc.valid_emit (hs : s.Valid v) (hv : v ≤ s.bits) : (s.emit v).Valid v := by
  have hsplit : 2 ^ s.bits = 2 ^ (s.bits - v) * 2 ^ v := by
    rw [← pow_add, Nat.sub_add_cancel hv]
  refine ⟨?_, ?_⟩
  · simp only [Acc.emit, Nat.one_shiftLeft, Nat.and_two_pow_sub_one_eq_mod]
    exact Nat.mod_lt _ (Nat.two_pow_pos _)
  · intro x hx
    simp only [Acc.emit, List.mem_append, List.mem_singleton] at hx
    rcases hx with hx | rfl
    · exact hs.out_lt x hx
    · rw [Nat.shiftRight_eq_div_pow, Nat.div_lt_iff_lt_mul (Nat.two_pow_pos _), mul_comm, ← hsplit]
      exact hs.buff_lt

theorem Acc.value_emit (hv : v ≤ s.bits) : (s.emit v).value v = s.value v := by
  have hsplit : 2 ^ s.bits = 2 ^ v * 2 ^ (s.bits - v) := by
    rw [← pow_add, Nat.add_sub_cancel' hv]
  simp only [Acc.value, Acc.emit, Nat.one_shiftLeft, Nat.and_two_pow_sub_one_eq_mod,
    Nat.shiftRight_eq_div_pow, beValue_append_single]
  calc (beValue v s.out * 2 ^ v + s.buff / 2 ^ (s.bits - v)) * 2 ^ (s.bits - v)
        + s.buff % 2 ^ (s.bits - v)
      = beValue v s.out * (2 ^ v * 2 ^ (s.bits - v))
        + (2 ^ (s.bits - v) * (s.buff / 2 ^ (s.bits - v)) + s.buff % 2 ^ (s.bits - v)) := by ring
    _ = beValue v s.out * 2 ^ s.bits + s.buff := by rw [Nat.div_add_mod, hsplit]

theorem Acc.size_emit (hv : v ≤ s.bits) : (s.emit v).size v = s.size v := by
  simp only [Acc.size, Acc.emit, List.length_append, List.length_singleton]
  rw [Nat.mul_add, Nat.mul_one, Nat.add_assoc, Nat.add_sub_cancel' hv]

end Emit

/-! ## The drain loop -/

/-- The drain loop keeps the state valid, its value and its size, and leaves
fewer than `v` bits when the bound covers the iterations it needs. -/
theorem drainLoop_spec (v : ℕ) : ∀ (fuel : ℕ) (s : Acc), s.Valid v →
    (drainLoop v fuel s).Valid v ∧ (drainLoop v fuel s).value v = s.value v ∧
      (drainLoop v fuel s).size v = s.size v ∧
      (s.bits < v * (fuel + 1) → (drainLoop v fuel s).bits < v)
  | 0, s, hs => ⟨hs, rfl, rfl, fun h => by simpa [drainLoop] using h⟩
  | fuel + 1, s, hs => by
    by_cases hv : v ≤ s.bits
    · -- one iteration, then the loop on the emitted state
      obtain ⟨hvalid, hvalue, hsize, hbits⟩ := drainLoop_spec v fuel (s.emit v) (s.valid_emit hs hv)
      simp only [drainLoop, if_pos hv]
      refine ⟨hvalid, hvalue.trans (Acc.value_emit hv), hsize.trans (Acc.size_emit hv), ?_⟩
      intro hlt
      apply hbits
      simp only [Acc.emit]
      rw [Nat.mul_add, Nat.mul_one] at hlt
      omega
    · rw [drainLoop, if_neg hv]
      exact ⟨hs, rfl, rfl, fun _ => by omega⟩

theorem drain_spec {v : ℕ} (hv : 0 < v) {s : Acc} (hs : s.Valid v) :
    (drain v s).Valid v ∧ (drain v s).value v = s.value v ∧ (drain v s).size v = s.size v ∧
      (drain v s).bits < v := by
  obtain ⟨hvalid, hvalue, hsize, hbits⟩ := drainLoop_spec v s.bits s hs
  refine ⟨hvalid, hvalue, hsize, hbits ?_⟩
  calc s.bits < s.bits + 1 := Nat.lt_succ_self _
    _ ≤ v * (s.bits + 1) := Nat.le_mul_of_pos_left _ hv

/-! ## The loop over the input -/

section Push

variable {w v : ℕ}

/-- Shifting a `w`-bit digit in below the buffer. -/
theorem shiftLeft_or_of_lt (buff c : ℕ) (hc : c < 2 ^ w) : (buff <<< w) ||| c = buff * 2 ^ w + c := by
  rw [← Nat.shiftLeft_add_eq_or_of_lt hc, Nat.shiftLeft_eq]

theorem push_spec (hv : 0 < v) {s : Acc} (hs : s.Valid v) {c : ℕ} (hc : c < 2 ^ w) :
    (push w v s c).Valid v ∧ (push w v s c).value v = s.value v * 2 ^ w + c ∧
      (push w v s c).size v = s.size v + w ∧ (push w v s c).bits < v := by
  have hin : (⟨(s.buff <<< w) ||| c, s.bits + w, s.out⟩ : Acc).Valid v := by
    refine ⟨?_, hs.out_lt⟩
    rw [shiftLeft_or_of_lt s.buff c hc, pow_add]
    calc s.buff * 2 ^ w + c < s.buff * 2 ^ w + 2 ^ w := by omega
      _ = (s.buff + 1) * 2 ^ w := by ring
      _ ≤ 2 ^ s.bits * 2 ^ w := Nat.mul_le_mul_right _ hs.buff_lt
  obtain ⟨hvalid, hvalue, hsize, hbits⟩ := drain_spec hv hin
  refine ⟨hvalid, ?_, ?_, hbits⟩
  · rw [push, hvalue]
    simp only [Acc.value, shiftLeft_or_of_lt s.buff c hc, pow_add]
    ring
  · rw [push, hsize]
    simp only [Acc.size]
    omega

/-- The loop over the input from any state with fewer than `v` bits buffered:
the input's digits are appended to the value, and its bits to the size. -/
theorem foldl_push_spec (hv : 0 < v) (ds : List ℕ) (hds : ∀ x ∈ ds, x < 2 ^ w) :
    ∀ s : Acc, s.Valid v → s.bits < v →
      (ds.foldl (push w v) s).Valid v ∧
        (ds.foldl (push w v) s).value v = s.value v * 2 ^ (w * ds.length) + beValue w ds ∧
        (ds.foldl (push w v) s).size v = s.size v + w * ds.length ∧
        (ds.foldl (push w v) s).bits < v := by
  induction ds using List.reverseRecOn with
  | nil => intro s hs hbits; exact ⟨hs, by simp, by simp, hbits⟩
  | append_singleton ds c ih =>
    intro s hs hbits
    obtain ⟨hvalid, hvalue, hsize, hbits'⟩ :=
      ih (fun x hx => hds x (List.mem_append_left _ hx)) s hs hbits
    obtain ⟨hvalid', hvalue', hsize', hbits''⟩ :=
      push_spec hv hvalid (hds c (List.mem_append_right _ (List.mem_singleton_self c)))
    rw [List.foldl_append, List.foldl_cons, List.foldl_nil]
    refine ⟨hvalid', ?_, ?_, hbits''⟩
    · rw [hvalue', hvalue, beValue_append_single, List.length_append, List.length_singleton,
        Nat.mul_add, Nat.mul_one, pow_add]
      ring
    · rw [hsize', hsize, List.length_append, List.length_singleton]
      ring

/-- A regrouping emits a big-endian expansion of its input, keeping fewer than
`v` bits buffered. -/
theorem regroup_spec (hv : 0 < v) {ds : List ℕ} (hds : ∀ x ∈ ds, x < 2 ^ w) :
    (regroup w v ds).Valid v ∧ (regroup w v ds).value v = beValue w ds ∧
      (regroup w v ds).size v = w * ds.length ∧ (regroup w v ds).bits < v := by
  obtain ⟨hvalid, hvalue, hsize, hbits⟩ :=
    foldl_push_spec hv ds hds ⟨0, 0, []⟩ ⟨by simp, by simp⟩ hv
  refine ⟨hvalid, ?_, ?_, hbits⟩
  · rw [regroup, hvalue]
    simp [Acc.value]
  · rw [regroup, hsize]
    simp [Acc.size]

end Push

/-! ## Padding and the round trip -/

/-- The number of zero bits `flush` appends. -/
def Acc.padding (v : ℕ) (s : Acc) : ℕ :=
  if 0 < s.bits then v - s.bits else 0

/-- Flushing appends `padding` zero bits and keeps every digit at `v` bits. -/
theorem Acc.flush_spec {v : ℕ} {s : Acc} (hs : s.Valid v) (hbits : s.bits < v) :
    (∀ x ∈ s.flush v, x < 2 ^ v) ∧ beValue v (s.flush v) = s.value v * 2 ^ s.padding v ∧
      v * (s.flush v).length = s.size v + s.padding v ∧ s.padding v < v := by
  by_cases hb : 0 < s.bits
  · simp only [Acc.flush, Acc.padding, if_pos hb]
    have hsplit : 2 ^ v = 2 ^ s.bits * 2 ^ (v - s.bits) := by
      rw [← pow_add, Nat.add_sub_cancel' hbits.le]
    refine ⟨?_, ?_, ?_, by omega⟩
    · intro x hx
      rcases List.mem_append.mp hx with hx | hx
      · exact hs.out_lt x hx
      · rw [List.mem_singleton.mp hx, Nat.shiftLeft_eq, hsplit]
        exact Nat.mul_lt_mul_of_pos_right hs.buff_lt (Nat.two_pow_pos _)
    · rw [beValue_append_single, Nat.shiftLeft_eq, Acc.value, hsplit]
      ring
    · simp only [List.length_append, List.length_singleton, Acc.size]
      rw [Nat.mul_add, Nat.mul_one, Nat.add_assoc, Nat.add_sub_cancel' hbits.le]
  · have hb0 : s.bits = 0 := by omega
    simp only [Acc.flush, Acc.padding, if_neg hb]
    refine ⟨hs.out_lt, ?_, ?_, by omega⟩
    · simp [Acc.value, hb0, Nat.lt_one_iff.mp (hb0 ▸ hs.buff_lt)]
    · simp [Acc.size, hb0]

/-- Regrouping `w → v` with padding and back `v → w` without it returns the
input, for `v ≤ w`: the padding is shorter than one `w`-bit digit. -/
theorem regroup_flush_regroup {w v : ℕ} (hv : 0 < v) (hvw : v ≤ w) {ds : List ℕ}
    (hds : ∀ x ∈ ds, x < 2 ^ w) : (regroup v w ((regroup w v ds).flush v)).out = ds := by
  obtain ⟨hvalid, hvalue, hsize, hbits⟩ := regroup_spec hv hds
  set s := regroup w v ds
  obtain ⟨hlt, hfvalue, hfsize, hpad⟩ := Acc.flush_spec hvalid hbits
  obtain ⟨hvalid', hvalue', hsize', hbits'⟩ := regroup_spec (lt_of_lt_of_le hv hvw) hlt
  set t := regroup v w (s.flush v)
  -- both hold `w * ds.length + padding` bits with fewer than `w` left over
  have hlen : t.out.length = ds.length ∧ t.bits = s.padding v := by
    have heq : w * t.out.length + t.bits = w * ds.length + s.padding v := by
      rw [← Acc.size, hsize', hfsize, hsize]
    have hw : 0 < w := lt_of_lt_of_le hv hvw
    have hdiv := congrArg (· / w) heq
    simp only [Nat.mul_add_div hw, Nat.div_eq_of_lt hbits', Nat.div_eq_of_lt (hpad.trans_le hvw),
      Nat.add_zero] at hdiv
    rw [hdiv] at heq
    exact ⟨hdiv, by omega⟩
  -- and denote the input shifted by the padding
  have hval : beValue w t.out = beValue w ds := by
    have heq : beValue w t.out * 2 ^ s.padding v + t.buff = beValue w ds * 2 ^ s.padding v :=
      calc beValue w t.out * 2 ^ s.padding v + t.buff = t.value w := by rw [Acc.value, hlen.2]
        _ = beValue w ds * 2 ^ s.padding v := by rw [hvalue', hfvalue, hvalue]
    have hbuff : t.buff < 2 ^ s.padding v := hlen.2 ▸ hvalid'.buff_lt
    have hdiv := congrArg (· / 2 ^ s.padding v) heq
    simp only [Nat.mul_comm _ (2 ^ s.padding v), Nat.mul_add_div (Nat.two_pow_pos _),
      Nat.div_eq_of_lt hbuff, Nat.add_zero, Nat.mul_div_cancel_left _ (Nat.two_pow_pos _)] at hdiv
    exact hdiv
  exact beValue_inj (lt_of_lt_of_le hv hvw) hlen.1 hvalid'.out_lt hds hval

end BitRegroup
