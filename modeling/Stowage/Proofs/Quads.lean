import Stowage.Bytes.Base64
import Stowage.Proofs.Runs

/-!
# Reading base64

A text is read quad by quad. What is read gives the text back when it is written, and every written
text is read, so reading is the inverse of writing and has no other texts.
-/

namespace Stowage.Base64

/-! ## Symbols -/

theorem valueAt_eq_ok {offset v : Nat} {b : UInt8} :
    valueAt offset b = .ok v ↔ value? b = some v := by
  unfold valueAt
  cases value? b <;> simp

theorem value?_eq_some {b : UInt8} {v : Nat} :
    value? b = some v ↔ v < 64 ∧ String.utf8EncodeChar (symbol v) = [b] := by
  have ofByte : ∀ n < 256, ∀ v ∈ value? (UInt8.ofNat n),
      v < 64 ∧ String.utf8EncodeChar (symbol v) = [UInt8.ofNat n] := by decide +kernel
  have ofValue : ∀ v < 64, (String.utf8EncodeChar (symbol v)).map value? = [some v] := by
    decide +kernel
  constructor
  · intro h
    have hb := ofByte b.toNat b.toNat_lt v
    rw [UInt8.ofNat_toNat] at hb
    exact hb h
  · rintro ⟨hv, h⟩
    have hvalue := ofValue v hv
    rw [h] at hvalue
    exact List.singleton_inj.mp hvalue

theorem value?_lt {b : UInt8} {v : Nat} (h : value? b = some v) : v < 64 := (value?_eq_some.mp h).1

theorem exists_value {v : Nat} (hv : v < 64) : ∃ b, value? b = some v := by
  have one : ∀ v < 64, (String.utf8EncodeChar (symbol v)).length = 1 := by decide +kernel
  obtain ⟨b, hb⟩ := List.length_eq_one_iff.mp (one v hv)
  exact ⟨b, value?_eq_some.mpr ⟨hv, hb⟩⟩

theorem utf8Bytes_symbol_cons {b : UInt8} {v : Nat} (h : value? b = some v) (cs : List Char) :
    utf8Bytes (symbol v :: cs) = b :: utf8Bytes cs := by
  rw [utf8Bytes, List.flatMap_cons, (value?_eq_some.mp h).2]
  rfl

theorem utf8Bytes_pad_cons (cs : List Char) : utf8Bytes ('=' :: cs) = pad :: utf8Bytes cs := by
  have hpad : String.utf8EncodeChar '=' = [pad] := by decide
  rw [utf8Bytes, List.flatMap_cons, hpad]
  rfl

/-! ## Bytes of written texts -/

section
variable (a b c : UInt8)

theorem exists_bytes_one :
    ∃ p q, value? p = some (a.toNat / 4) ∧ value? q = some (a.toNat % 4 * 16) ∧
      utf8Bytes (encode [a]) = [p, q, pad, pad] := by
  have ha := a.toNat_lt
  obtain ⟨p, hp⟩ := exists_value (v := a.toNat / 4) (by omega)
  obtain ⟨q, hq⟩ := exists_value (v := a.toNat % 4 * 16) (by omega)
  refine ⟨p, q, hp, hq, ?_⟩
  rw [encode, utf8Bytes_symbol_cons hp, utf8Bytes_symbol_cons hq, utf8Bytes_pad_cons,
    utf8Bytes_pad_cons]
  rfl

theorem exists_bytes_two :
    ∃ p q s, value? p = some (a.toNat / 4) ∧
      value? q = some (a.toNat % 4 * 16 + b.toNat / 16) ∧ value? s = some (b.toNat % 16 * 4) ∧
      utf8Bytes (encode [a, b]) = [p, q, s, pad] := by
  have ha := a.toNat_lt
  have hb := b.toNat_lt
  obtain ⟨p, hp⟩ := exists_value (v := a.toNat / 4) (by omega)
  obtain ⟨q, hq⟩ := exists_value (v := a.toNat % 4 * 16 + b.toNat / 16) (by omega)
  obtain ⟨s, hs⟩ := exists_value (v := b.toNat % 16 * 4) (by omega)
  refine ⟨p, q, s, hp, hq, hs, ?_⟩
  rw [encode, utf8Bytes_symbol_cons hp, utf8Bytes_symbol_cons hq, utf8Bytes_symbol_cons hs,
    utf8Bytes_pad_cons]
  rfl

theorem exists_bytes_three (bytes : List UInt8) :
    ∃ p q s t, value? p = some (a.toNat / 4) ∧
      value? q = some (a.toNat % 4 * 16 + b.toNat / 16) ∧
      value? s = some (b.toNat % 16 * 4 + c.toNat / 64) ∧ value? t = some (c.toNat % 64) ∧
      utf8Bytes (encode (a :: b :: c :: bytes)) = p :: q :: s :: t :: utf8Bytes (encode bytes) := by
  have ha := a.toNat_lt
  have hb := b.toNat_lt
  have hc := c.toNat_lt
  obtain ⟨p, hp⟩ := exists_value (v := a.toNat / 4) (by omega)
  obtain ⟨q, hq⟩ := exists_value (v := a.toNat % 4 * 16 + b.toNat / 16) (by omega)
  obtain ⟨s, hs⟩ := exists_value (v := b.toNat % 16 * 4 + c.toNat / 64) (by omega)
  obtain ⟨t, ht⟩ := exists_value (v := c.toNat % 64) (by omega)
  refine ⟨p, q, s, t, hp, hq, hs, ht, ?_⟩
  rw [encode, utf8Bytes_symbol_cons hp, utf8Bytes_symbol_cons hq, utf8Bytes_symbol_cons hs,
    utf8Bytes_symbol_cons ht]

end

theorem length_utf8Bytes_encode (bytes : List UInt8) :
    (utf8Bytes (encode bytes)).length = 4 * ((bytes.length + 2) / 3) := by
  induction bytes using encode.induct with
  | case1 => rfl
  | case2 a =>
    obtain ⟨p, q, -, -, hbytes⟩ := exists_bytes_one a
    simp [hbytes]
  | case3 a b =>
    obtain ⟨p, q, s, -, -, -, hbytes⟩ := exists_bytes_two a b
    simp [hbytes]
  | case4 a b c r ih =>
    obtain ⟨p, q, s, t, -, -, -, -, hbytes⟩ := exists_bytes_three a b c r
    rw [hbytes]
    simp only [List.length_cons, ih]
    omega

/-! ## What is read -/

theorem eq_of_readLast {offset i pads : Nat} {bs : List UInt8} {symbols : List (UInt8 × Nat)}
    (h : readLast offset i bs = .ok (symbols, pads)) :
    bs = symbols.map Prod.fst ++ List.replicate pads pad ∧
      ∀ s ∈ symbols, value? s.1 = some s.2 := by
  induction bs generalizing i symbols with
  | nil =>
    cases h
    simp
  | cons b r ih =>
    rw [readLast] at h
    by_cases hb : b = pad
    · rw [if_pos hb] at h
      split at h
      · next hpads =>
        have hr : r = List.replicate r.length pad :=
          List.eq_replicate_iff.mpr ⟨rfl, by simpa using (Bool.and_eq_true_iff.mp hpads).2⟩
        cases h
        rw [hb, List.replicate_succ, ← hr]
        simp
      · cases h
    · rw [if_neg hb] at h
      obtain ⟨v, hv, h⟩ := bind_eq_ok.mp h
      obtain ⟨⟨vs, n⟩, hrest, h⟩ := bind_eq_ok.mp h
      cases h
      obtain ⟨rfl, hvs⟩ := ih hrest
      exact ⟨rfl, List.forall_mem_cons.mpr ⟨valueAt_eq_ok.mp hv, hvs⟩⟩

theorem toNat_byte {n : Nat} (h : n < 256) : (byte n).toNat = n :=
  UInt8.toNat_ofNat_of_lt' h

section
variable {v w x y : Nat} (hv : v < 64) (hw : w < 64)
include hv hw

theorem encode_take_one (hfill : w % 16 = 0) :
    encode ((ofQuad v w 0 0).take 1) = [symbol v, symbol w, '=', '='] := by
  have hfirst := toNat_byte (n := v * 4 + w / 16) (by omega)
  have hv₁ : (v * 4 + w / 16) / 4 = v := by omega
  have hw₁ : (v * 4 + w / 16) % 4 * 16 = w := by omega
  simp only [ofQuad, List.take_succ_cons, List.take_zero, encode, hfirst, hv₁, hw₁]

variable (hx : x < 64)
include hx

theorem encode_take_two (hfill : x % 4 = 0) :
    encode ((ofQuad v w x 0).take 2) = [symbol v, symbol w, symbol x, '='] := by
  have hfirst := toNat_byte (n := v * 4 + w / 16) (by omega)
  have hsecond := toNat_byte (n := w % 16 * 16 + x / 4) (by omega)
  have hv₁ : (v * 4 + w / 16) / 4 = v := by omega
  have hw₁ : (v * 4 + w / 16) % 4 * 16 + (w % 16 * 16 + x / 4) / 16 = w := by omega
  have hx₁ : (w % 16 * 16 + x / 4) % 16 * 4 = x := by omega
  simp only [ofQuad, List.take_succ_cons, List.take_zero, encode, hfirst, hsecond, hv₁, hw₁,
    hx₁]

theorem encode_ofQuad (hy : y < 64) (bytes : List UInt8) : encode (ofQuad v w x y ++ bytes) =
      symbol v :: symbol w :: symbol x :: symbol y :: encode bytes := by
  have hfirst := toNat_byte (n := v * 4 + w / 16) (by omega)
  have hsecond := toNat_byte (n := w % 16 * 16 + x / 4) (by omega)
  have hthird := toNat_byte (n := x % 4 * 64 + y) (by omega)
  have hv₁ : (v * 4 + w / 16) / 4 = v := by omega
  have hw₁ : (v * 4 + w / 16) % 4 * 16 + (w % 16 * 16 + x / 4) / 16 = w := by omega
  have hx₁ : (w % 16 * 16 + x / 4) % 16 * 4 + (x % 4 * 64 + y) / 64 = x := by omega
  have hy₁ : (x % 4 * 64 + y) % 64 = y := by omega
  simp only [ofQuad, List.cons_append, List.nil_append, encode, hfirst, hsecond, hthird, hv₁,
    hw₁, hx₁, hy₁]

end

theorem eq_of_decodeLast {offset : Nat} {bs bytes : List UInt8} (hlen : bs.length ≤ 4)
    (h : decodeLast offset bs = .ok bytes) : bs = utf8Bytes (encode bytes) := by
  rw [decodeLast, bind_eq_ok] at h
  -- Of up to four bytes the pads are what the symbols leave, so the symbols decide on the case.
  obtain ⟨⟨symbols, pads⟩, hread, h⟩ := h
  obtain ⟨rfl, hvalues⟩ := eq_of_readLast hread
  clear hread
  rw [List.length_append, List.length_map, List.length_replicate] at hlen
  dsimp only at h
  split_ifs at h with hshort hquad
  match symbols with
  | [] =>
    cases h
    obtain rfl : pads = 0 := by
      cases pads with
      | zero => rfl
      | succ n => simp at hshort
    rfl
  | [s] => simp at hshort
  | [(a, v), (b, w)] =>
    simp only [List.forall_mem_cons] at hvalues
    obtain ⟨hv, hw, -⟩ := hvalues
    obtain rfl : pads = 2 := by simp at hlen hquad; omega
    dsimp only at h
    split_ifs at h with hfill
    cases h
    rw [encode_take_one (value?_lt hv) (value?_lt hw) hfill,
      utf8Bytes_symbol_cons hv, utf8Bytes_symbol_cons hw, utf8Bytes_pad_cons, utf8Bytes_pad_cons]
    rfl
  | [(a, v), (b, w), (c, x)] =>
    simp only [List.forall_mem_cons] at hvalues
    obtain ⟨hv, hw, hx, -⟩ := hvalues
    obtain rfl : pads = 1 := by simp at hlen hquad; omega
    dsimp only at h
    split_ifs at h with hfill
    cases h
    rw [encode_take_two (value?_lt hv) (value?_lt hw) (value?_lt hx) hfill,
      utf8Bytes_symbol_cons hv, utf8Bytes_symbol_cons hw, utf8Bytes_symbol_cons hx,
      utf8Bytes_pad_cons]
    rfl
  | [(a, v), (b, w), (c, x), (d, y)] =>
    simp only [List.forall_mem_cons] at hvalues
    obtain ⟨hv, hw, hx, hy, -⟩ := hvalues
    obtain rfl : pads = 0 := by simp at hlen; omega
    cases h
    rw [← List.append_nil (ofQuad v w x y),
      encode_ofQuad (value?_lt hv) (value?_lt hw) (value?_lt hx) (value?_lt hy),
      utf8Bytes_symbol_cons hv, utf8Bytes_symbol_cons hw, utf8Bytes_symbol_cons hx,
      utf8Bytes_symbol_cons hy]
    rfl
  | _ :: _ :: _ :: _ :: _ :: _ => simp at hlen; omega

theorem decodeQuads_of_length_le {offset : Nat} {bs : List UInt8} (h : bs.length ≤ 4) :
    decodeQuads offset bs = decodeLast offset bs := by
  rw [decodeQuads]
  rintro a b c d e r rfl
  simp only [List.length_cons] at h
  omega

theorem eq_of_decodeQuads {offset : Nat} {bs bytes : List UInt8}
    (h : decodeQuads offset bs = .ok bytes) : bs = utf8Bytes (encode bytes) := by
  induction offset, bs using decodeQuads.induct generalizing bytes with
  | case1 offset a b c d e r ih =>
    simp only [decodeQuads, bind_eq_ok, valueAt_eq_ok] at h
    obtain ⟨v, hv, w, hw, x, hx, y, hy, rest, hrest, h⟩ := h
    cases h
    rw [encode_ofQuad (value?_lt hv) (value?_lt hw) (value?_lt hx) (value?_lt hy),
      utf8Bytes_symbol_cons hv, utf8Bytes_symbol_cons hw, utf8Bytes_symbol_cons hx,
      utf8Bytes_symbol_cons hy, ← ih hrest]
  | case2 offset bs hbs =>
    have hlen : bs.length ≤ 4 := by
      match bs with
      | a :: b :: c :: d :: e :: r => exact (hbs a b c d e r rfl).elim
      | [] | [_] | [_, _] | [_, _, _] | [_, _, _, _] => simp
    rw [decodeQuads_of_length_le hlen] at h
    exact eq_of_decodeLast hlen h

/-! ## What is written -/

theorem readLast_cons {offset i v pads : Nat} {b : UInt8} {bs : List UInt8}
    {symbols : List (UInt8 × Nat)} (hb : value? b = some v)
    (h : readLast offset (i + 1) bs = .ok (symbols, pads)) :
    readLast offset i (b :: bs) = .ok ((b, v) :: symbols, pads) := by
  have hpad : b ≠ pad := by
    rintro rfl
    have hnone : value? pad = none := by decide
    rw [hnone] at hb
    cases hb
  rw [readLast, if_neg hpad, valueAt_eq_ok.mpr hb, h]
  rfl

theorem ofQuad_sextets (a b c : UInt8) :
    ofQuad (a.toNat / 4) (a.toNat % 4 * 16 + b.toNat / 16) (b.toNat % 16 * 4 + c.toNat / 64)
      (c.toNat % 64) = [a, b, c] := by
  have hb := b.toNat_lt
  have hc := c.toNat_lt
  have hfirst : a.toNat / 4 * 4 + (a.toNat % 4 * 16 + b.toNat / 16) / 16 = a.toNat := by omega
  have hsecond : (a.toNat % 4 * 16 + b.toNat / 16) % 16 * 16 +
      (b.toNat % 16 * 4 + c.toNat / 64) / 4 = b.toNat := by omega
  have hthird : (b.toNat % 16 * 4 + c.toNat / 64) % 4 * 64 + c.toNat % 64 = c.toNat := by omega
  rw [ofQuad, hfirst, hsecond, hthird]
  simp only [byte, UInt8.ofNat_toNat]

theorem decodeLast_encode (offset : Nat) {bytes : List UInt8} (hlen : bytes.length ≤ 3) :
    decodeLast offset (utf8Bytes (encode bytes)) = .ok bytes := by
  match bytes with
  | [] => rfl
  | [a] =>
    obtain ⟨p, q, hp, hq, hbytes⟩ := exists_bytes_one a
    have hread : readLast offset 0 [p, q, pad, pad] = .ok ([(p, _), (q, _)], 2) :=
      readLast_cons hp (readLast_cons hq rfl)
    have hquad : ofQuad (a.toNat / 4) (a.toNat % 4 * 16) 0 0 = [a, 0, 0] := ofQuad_sextets a 0 0
    rw [hbytes, decodeLast, hread]
    simp [bind, Except.bind, hquad]
  | [a, b] =>
    obtain ⟨p, q, s, hp, hq, hs, hbytes⟩ := exists_bytes_two a b
    have hread : readLast offset 0 [p, q, s, pad] = .ok ([(p, _), (q, _), (s, _)], 1) :=
      readLast_cons hp (readLast_cons hq (readLast_cons hs rfl))
    have hquad : ofQuad (a.toNat / 4) (a.toNat % 4 * 16 + b.toNat / 16) (b.toNat % 16 * 4) 0 =
      [a, b, 0] := ofQuad_sextets a b 0
    rw [hbytes, decodeLast, hread]
    simp [bind, Except.bind, hquad]
  | [a, b, c] =>
    obtain ⟨p, q, s, t, hp, hq, hs, ht, hbytes⟩ := exists_bytes_three a b c []
    have hread : readLast offset 0 [p, q, s, t] = .ok ([(p, _), (q, _), (s, _), (t, _)], 0) :=
      readLast_cons hp (readLast_cons hq (readLast_cons hs (readLast_cons ht rfl)))
    rw [hbytes, encode, utf8Bytes, List.flatMap_nil, decodeLast, hread]
    simp [bind, Except.bind, ofQuad_sextets]

theorem decodeQuads_encode_of_length_le (offset : Nat) {bytes : List UInt8}
    (h : bytes.length ≤ 3) : decodeQuads offset (utf8Bytes (encode bytes)) = .ok bytes := by
  have hlen := length_utf8Bytes_encode bytes
  rw [decodeQuads_of_length_le (by omega)]
  exact decodeLast_encode offset h

theorem decodeQuads_encode (offset : Nat) (bytes : List UInt8) :
    decodeQuads offset (utf8Bytes (encode bytes)) = .ok bytes := by
  induction bytes using encode.induct generalizing offset with
  | case1 => exact decodeQuads_encode_of_length_le offset (by simp)
  | case2 a => exact decodeQuads_encode_of_length_le offset (by simp)
  | case3 a b => exact decodeQuads_encode_of_length_le offset (by simp)
  | case4 a b c r ih =>
    obtain ⟨p, q, s, t, hp, hq, hs, ht, hbytes⟩ := exists_bytes_three a b c r
    cases hrest : utf8Bytes (encode r) with
    | nil =>
      have hlen := length_utf8Bytes_encode r
      rw [hrest, List.length_nil] at hlen
      exact decodeQuads_encode_of_length_le offset (by simp only [List.length_cons]; omega)
    | cons e l =>
      rw [hbytes, hrest]
      simp only [decodeQuads, bind_eq_ok, valueAt_eq_ok]
      refine ⟨_, hp, _, hq, _, hs, _, ht, r, ?_, ?_⟩
      · rw [← hrest]
        exact ih (offset + 4)
      · rw [ofQuad_sextets]
        rfl

/-! ## Texts -/

theorem decodeBytes_eq_ok {bs bytes : List UInt8} :
    decodeBytes bs = .ok bytes ↔ bs = utf8Bytes (encode bytes) := by
  have quads : decodeBytes bs = .ok bytes ↔ decodeQuads 0 bs = .ok bytes := by
    unfold decodeBytes
    split
    · split_ifs with hrest
      · simp only [false_iff]
        intro h
        have hlen := congrArg List.length (eq_of_decodeQuads h)
        rw [length_utf8Bytes_encode] at hlen
        simp [hlen] at hrest
      · rfl
    · next hbs =>
      rw [List.getLast?_eq_none_iff.mp hbs]
      rfl
  rw [quads]
  constructor
  · exact eq_of_decodeQuads
  · rintro rfl
    exact decodeQuads_encode 0 bytes

theorem utf8Bytes_inj {s t : List Char} (h : utf8Bytes s = utf8Bytes t) : s = t := by
  have bytes (cs : List Char) : (String.ofList cs).toByteArray = (utf8Bytes cs).toByteArray := by
    simp [List.utf8Encode, utf8Bytes]
  exact String.ofList_inj.mp (String.toByteArray_inj.mp (by rw [bytes, bytes, h]))

/-- Reading succeeds on the one text that writing gives and on no other. -/
theorem decode_eq_ok {cs : List Char} {bytes : List UInt8} :
    decode cs = .ok bytes ↔ cs = encode bytes := by
  rw [decode, decodeBytes_eq_ok]
  constructor
  · exact utf8Bytes_inj
  · rintro rfl
    rfl

theorem encode_inj {a b : List UInt8} (h : encode a = encode b) : a = b :=
  Except.ok.inj ((decode_eq_ok.mpr rfl).symm.trans (decode_eq_ok.mpr h))

end Stowage.Base64
