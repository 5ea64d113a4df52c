import Mathlib.Data.List.Forall2
import Mathlib.Data.Nat.Bitwise
import Stowage.Bytes.Base64
import Stowage.Proofs.Runs

/-!
# Base64 as groups of six bits

The encoding is stated on the bits of the bytes: groups of six, each written as the letter of that
index. Every list of bytes has exactly one such text, and reading accepts no other.
-/

namespace Stowage.Base64

/-! ## Bits -/

/-- The low bits of a number, the highest of them first. -/
def bits : (width : Nat) → Nat → List Bool
  | 0, _ => []
  | w + 1, n => n.testBit w :: bits w n

@[simp] theorem length_bits (w n : Nat) : (bits w n).length = w := by
  induction w with
  | zero => rfl
  | succ w ih => rw [bits, List.length_cons, ih]

theorem bits_add (w k n : Nat) : bits (w + k) n = bits w (n / 2 ^ k) ++ bits k n := by
  induction w with
  | zero => rw [Nat.zero_add, bits, List.nil_append]
  | succ w ih => rw [Nat.succ_add, bits, bits, ih, Nat.testBit_div_two_pow, List.cons_append]

theorem bits_mod {w k : Nat} (h : w ≤ k) (n : Nat) : bits w (n % 2 ^ k) = bits w n := by
  induction w with
  | zero => rfl
  | succ w ih =>
    have hw : w < k := h
    rw [bits, bits, ih hw.le, Nat.testBit_mod_two_pow, decide_eq_true hw, Bool.true_and]

theorem bits_mul_add (w : Nat) {k n : Nat} (hn : n < 2 ^ k) (m : Nat) :
    bits (w + k) (m * 2 ^ k + n) = bits w m ++ bits k n := by
  have hdiv : (m * 2 ^ k + n) / 2 ^ k = m := by
    rw [Nat.mul_comm, Nat.mul_add_div (Nat.two_pow_pos k), Nat.div_eq_of_lt hn, Nat.add_zero]
  have hmod : bits k (m * 2 ^ k + n) = bits k n := by
    rw [← bits_mod le_rfl, Nat.mul_comm, Nat.mul_add_mod, bits_mod le_rfl]
  rw [bits_add, hdiv, hmod]

theorem bits_zero (w : Nat) : bits w 0 = List.replicate w false := by
  induction w with
  | zero => rfl
  | succ w ih => rw [bits, ih, Nat.zero_testBit, List.replicate_succ]

theorem testBit_eq_of_bits_eq {w m n : Nat} (h : bits w m = bits w n) :
    ∀ i < w, m.testBit i = n.testBit i := by
  induction w with
  | zero => exact fun i hi => absurd hi (Nat.not_lt_zero i)
  | succ w ih =>
    obtain ⟨hw, h⟩ := List.cons.inj h
    intro i hi
    rcases Nat.lt_succ_iff_lt_or_eq.mp hi with hi | rfl
    · exact ih h i hi
    · exact hw

theorem bits_inj {w m n : Nat} (hm : m < 2 ^ w) (hn : n < 2 ^ w) (h : bits w m = bits w n) :
    m = n := by
  apply Nat.eq_of_testBit_eq
  intro i
  by_cases hi : i < w
  · exact testBit_eq_of_bits_eq h i hi
  · have hpow : 2 ^ w ≤ 2 ^ i := Nat.pow_le_pow_right (by decide) (Nat.le_of_not_lt hi)
    rw [Nat.testBit_lt_two_pow (hm.trans_le hpow), Nat.testBit_lt_two_pow (hn.trans_le hpow)]

theorem length_flatMap_bits (w : Nat) (l : List Nat) : (l.flatMap (bits w)).length = w * l.length := by
  induction l with
  | nil => rfl
  | cons n l ih =>
    rw [List.flatMap_cons, List.length_append, length_bits, ih, List.length_cons, Nat.mul_succ,
      Nat.add_comm]

theorem flatMap_bits_inj {w : Nat} {l r : List Nat} (hlen : l.length = r.length)
    (hl : ∀ n ∈ l, n < 2 ^ w) (hr : ∀ n ∈ r, n < 2 ^ w)
    (h : l.flatMap (bits w) = r.flatMap (bits w)) : l = r := by
  induction l generalizing r with
  | nil => exact (List.length_eq_zero_iff.mp hlen.symm).symm
  | cons m l ih =>
    cases r with
    | nil => cases hlen
    | cons n r =>
      simp only [List.forall_mem_cons] at hl hr
      obtain ⟨hmn, h⟩ := List.append_inj h (by simp)
      rw [bits_inj hl.1 hr.1 hmn, ih (Nat.succ.inj hlen) hl.2 hr.2 h]

/-! ## The standard encoding -/

def alphabet : List Char := "ABCDEFGHIJKLMNOPQRSTUVWXYZabcdefghijklmnopqrstuvwxyz0123456789+/".toList

def Letter (v : Nat) (c : Char) : Prop := alphabet[v]? = some c

/-- The bits of the bytes in groups of six, the last one filled up with zeros, a letter for each group
and pads up to a multiple of four characters. -/
inductive Encodes (bytes : List UInt8) : List Char → Prop
  | groups {sextets : List Nat} {letters : List Char} {fill pads : Nat} : fill < 6 → pads < 4 →
      sextets.flatMap (bits 6) =
        bytes.flatMap (fun b => bits 8 b.toNat) ++ List.replicate fill false →
      List.Forall₂ Letter sextets letters → 4 ∣ letters.length + pads →
      Encodes bytes (letters ++ List.replicate pads '=')

theorem length_alphabet : alphabet.length = 64 := by
  decide +kernel

theorem Letter.lt {v : Nat} {c : Char} (h : Letter v c) : v < 64 :=
  length_alphabet ▸ (List.getElem?_eq_some_iff.mp h).1

theorem letter_symbol {v : Nat} (hv : v < 64) : Letter v (symbol v) := by
  have table : ∀ v < 64, alphabet[v]? = some (symbol v) := by decide +kernel
  exact table v hv

theorem Encodes.unique {bytes : List UInt8} {t u : List Char} (ht : Encodes bytes t)
    (hu : Encodes bytes u) : t = u := by
  obtain @⟨vs, cs, fill, pads, hfill, hpads, hbits, hcs, hlen⟩ := ht
  obtain @⟨vs', cs', fill', pads', hfill', hpads', hbits', hcs', hlen'⟩ := hu
  have hcount := congrArg List.length hbits
  have hcount' := congrArg List.length hbits'
  simp only [length_flatMap_bits, List.length_append, List.length_replicate] at hcount hcount'
  -- The fill is less than six and ends on a multiple of six, so the number of bits decides on it.
  obtain rfl : fill = fill' := by omega
  have hsextet {vs : List Nat} {cs : List Char} (h : List.Forall₂ Letter vs cs) :
      ∀ v ∈ vs, v < 2 ^ 6 := by
    intro v hv
    obtain ⟨c, -, hc⟩ := exists_right_of_mem h hv
    exact hc.lt
  obtain rfl : vs = vs' :=
    flatMap_bits_inj (by omega) (hsextet hcs) (hsextet hcs') (hbits.trans hbits'.symm)
  obtain rfl : cs = cs' :=
    List.right_unique_forall₂' (fun v c c' h h' => Option.some.inj (h.symm.trans h')) hcs hcs'
  obtain rfl : pads = pads' := by omega
  rfl

/-! ## Writing -/

/-- A sextet takes over the bits of a byte that the sextets before it left, and bits of the next. -/
theorem bits_carry (b : UInt8) (w k : Nat) {j n : Nat} (hw : w + k = 8) (hn : n < 2 ^ j)
    (l : List Bool) :
    bits w (b.toNat / 2 ^ k) ++ (bits (k + j) (b.toNat % 2 ^ k * 2 ^ j + n) ++ l) =
      bits 8 b.toNat ++ (bits j n ++ l) := by
  rw [bits_mul_add k hn, bits_mod le_rfl, List.append_assoc, ← List.append_assoc, ← bits_add, hw]

section
variable (a b c : UInt8) {n : Nat} (l : List Bool)

theorem bits_first (hn : n < 16) :
    bits 6 (a.toNat / 4) ++ (bits 6 (a.toNat % 4 * 16 + n) ++ l) =
      bits 8 a.toNat ++ (bits 4 n ++ l) := bits_carry a 6 2 (j := 4) rfl hn l

theorem bits_second (hn : n < 4) :
    bits 4 (b.toNat / 16) ++ (bits 6 (b.toNat % 16 * 4 + n) ++ l) =
      bits 8 b.toNat ++ (bits 2 n ++ l) := bits_carry b 4 4 (j := 2) rfl hn l

theorem bits_third :
    bits 2 (c.toNat / 64) ++ (bits 6 (c.toNat % 64) ++ l) = bits 8 c.toNat ++ l := by
  simpa [bits] using bits_carry c 2 6 (j := 0) (n := 0) rfl (by decide) l

end

theorem encodes_sextets {bytes : List UInt8} (vs : List Nat) (fill pads : Nat)
    (hvs : ∀ v ∈ vs, v < 64) (hfill : fill < 6) (hpads : pads < 4)
    (hbits : vs.flatMap (bits 6) =
      bytes.flatMap (fun b => bits 8 b.toNat) ++ List.replicate fill false)
    (hlen : 4 ∣ vs.length + pads) : Encodes bytes (vs.map symbol ++ List.replicate pads '=') := by
  refine .groups hfill hpads hbits ?_ (by simpa using hlen)
  exact List.forall₂_map_right_iff.mpr (List.forall₂_same.mpr fun v hv => letter_symbol (hvs v hv))

theorem Encodes.quad {bytes : List UInt8} {t : List Char} (h : Encodes bytes t) (a b c : UInt8) :
    Encodes (a :: b :: c :: bytes) (symbol (a.toNat / 4) ::
      symbol (a.toNat % 4 * 16 + b.toNat / 16) :: symbol (b.toNat % 16 * 4 + c.toNat / 64) ::
      symbol (c.toNat % 64) :: t) := by
  obtain @⟨vs, cs, fill, pads, hfill, hpads, hbits, hcs, hlen⟩ := h
  have ha := a.toNat_lt
  have hb := b.toNat_lt
  have hc := c.toNat_lt
  have hquad := List.Forall₂.cons (letter_symbol (v := a.toNat / 4) (by omega))
    (.cons (letter_symbol (v := a.toNat % 4 * 16 + b.toNat / 16) (by omega))
    (.cons (letter_symbol (v := b.toNat % 16 * 4 + c.toNat / 64) (by omega))
    (.cons (letter_symbol (v := c.toNat % 64) (by omega)) hcs)))
  refine .groups hfill hpads ?_ hquad ?_
  · simp only [List.flatMap_cons, hbits, List.append_assoc]
    rw [bits_first a _ (by omega), bits_second b _ (by omega), bits_third]
  · simp only [List.length_cons]
    omega

theorem encodes_encode (bytes : List UInt8) : Encodes bytes (encode bytes) := by
  induction bytes using encode.induct with
  | case1 => exact encodes_sextets [] 0 0 (by simp) (by decide) (by decide) rfl (by decide)
  | case2 a =>
    have ha := a.toNat_lt
    refine encodes_sextets [a.toNat / 4, a.toNat % 4 * 16] 4 2 ?_ (by decide) (by decide) ?_ ?_
    · simp
      omega
    · simpa [bits_zero] using bits_first a (n := 0) [] (by decide)
    · simp
  | case3 a b =>
    have ha := a.toNat_lt
    have hb := b.toNat_lt
    refine encodes_sextets [a.toNat / 4, a.toNat % 4 * 16 + b.toNat / 16, b.toNat % 16 * 4] 2 1
      ?_ (by decide) (by decide) ?_ ?_
    · simp
      omega
    · have hsecond := bits_second b (n := 0) [] (by decide)
      simp only [Nat.add_zero, bits_zero, List.append_nil] at hsecond
      simp only [List.flatMap_cons, List.flatMap_nil, List.append_nil, List.append_assoc]
      rw [bits_first a _ (by omega), hsecond]
    · simp
  | case4 a b c r ih => exact ih.quad a b c

theorem encodes_iff {bytes : List UInt8} {t : List Char} : Encodes bytes t ↔ t = encode bytes := by
  constructor
  · exact fun h => h.unique (encodes_encode bytes)
  · rintro rfl
    exact encodes_encode bytes

end Stowage.Base64
