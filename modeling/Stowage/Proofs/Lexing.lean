import Mathlib.Tactic.SplitIfs
import Stowage.Json.Token

/-!
# Written values and their tokens

The characters that a value is written with are read as the tokens of the value and nothing else,
whatever follows them, provided that its numbers are integers of 64 bits and that no numeral goes on
behind it.
-/

namespace Stowage

/-! ## Digits -/

def decimal (n : Nat) : List Nat := (Nat.toDigits 10 n).map fun c => c.toNat - 48

theorem isDigit_of_mem_toDigits {n : Nat} {c : Char} (h : c ∈ Nat.toDigits 10 n) :
    c.isDigit = true :=
  Nat.isDigit_of_mem_toDigits (by decide) (by decide) h

theorem digitValue?_of_isDigit {c : Char} (h : c.isDigit = true) :
    digitValue? 10 c = some (c.toNat - 48) := by
  have hc : 48 ≤ c.toNat ∧ c.toNat ≤ 57 := Char.isDigit_iff_toNat.mp h
  have hlt : c.toNat - 48 < 10 := by omega
  simp [digitValue?, hc, hlt]

theorem spanDigits_of_isDigit {cs : List Char} (h : ∀ c ∈ cs, c.isDigit = true) :
    spanDigits 10 cs = (cs.map fun c => c.toNat - 48, []) := by
  induction cs with
  | nil => rfl
  | cons c cs ih =>
    obtain ⟨hc, hcs⟩ := List.forall_mem_cons.mp h
    have hi := Prod.mk.inj (ih hcs)
    have hd : isDigit 10 c = true := by rw [isDigit, digitValue?_of_isDigit hc]; rfl
    rw [spanDigits, List.takeWhile_cons_of_pos hd, List.dropWhile_cons_of_pos hd,
      List.filterMap_cons_some (digitValue?_of_isDigit hc), hi.1, hi.2]
    rfl

theorem ofDigits_decimal (n : Nat) : ofDigits 10 (decimal n) = n := by
  rw [ofDigits, decimal, List.foldl_map]
  simp only [Nat.mul_comm _ 10]
  exact Nat.ofDigitChars_ten_toDigits

theorem head?_decimal {n : Nat} (h : 0 < n) : (decimal n).head? ≠ some 0 := by
  rw [decimal]
  induction n using Nat.base_induction 10 (by decide) with
  | single m hm =>
    rw [Nat.toDigits_of_lt_base hm]
    simp only [List.map_cons, List.head?_cons, Nat.toNat_digitChar_sub_48_of_lt_ten hm]
    simpa using Nat.ne_of_gt h
  | digit m k hk hm ih =>
    rw [← Nat.toDigits_append_toDigits (by decide) hm hk, List.map_append, List.head?_append]
    have hne : (Nat.toDigits 10 m).map (fun c => c.toNat - 48) ≠ [] := by
      simp [Nat.toDigits_ne_nil]
    obtain ⟨d, hd⟩ := Option.isSome_iff_exists.mp (List.isSome_head?.mpr hne)
    rw [hd, Option.some_or, ← hd]
    exact ih hm

theorem isWhole_decimal (n : Nat) : Numeral.isWhole (decimal n) = true := by
  rcases Nat.eq_zero_or_pos n with rfl | hn
  · rfl
  · have hhead := head?_decimal hn
    cases h : decimal n with
    | nil => simp [decimal, Nat.toDigits_ne_nil] at h
    | cons d ds =>
      rw [h] at hhead
      cases ds with
      | nil => rfl
      | cons => simpa [Numeral.isWhole] using hhead

/-! ## Numbers -/

theorem le_foldl_digits (n : Nat) (ds : List Nat) : n ≤ ds.foldl (fun n d => n * 10 + d) n := by
  induction ds generalizing n with
  | nil => exact Nat.le_refl n
  | cons d ds ih => exact Nat.le_trans (by omega) (ih (n * 10 + d))

namespace Numeral

theorem absorb_of_lt {n : Nat} {ds : List Nat}
    (h : ds.foldl (fun n d => n * 10 + d) n < UInt64.size) :
    absorb n ds = (ds.foldl (fun n d => n * 10 + d) n, ds.length) := by
  induction ds generalizing n with
  | nil => rfl
  | cons d ds ih =>
    have hd : n * 10 + d < UInt64.size := Nat.lt_of_le_of_lt (le_foldl_digits _ ds) h
    rw [absorb, if_pos hd, ih h]
    rfl

theorem absorb_decimal {n : Nat} (h : n < UInt64.size) :
    absorb 0 (decimal n) = (n, (decimal n).length) := by
  have hn : (decimal n).foldl (fun n d => n * 10 + d) 0 = n := ofDigits_decimal n
  rw [absorb_of_lt (by rwa [hn]), hn]

def ofInt (n : Int) : Numeral := ⟨n < 0, decimal n.natAbs, [], none⟩

theorem readSign_of_isDigit {cs : List Char} (h : ∀ c ∈ cs, c.isDigit = true) :
    readSign cs = (false, cs) := by
  unfold readSign
  split
  · exact absurd (h '-' List.mem_cons_self) (by decide)
  · rfl

theorem read?_intChars (n : Int) : read? (Json.intChars n) = some (ofInt n) := by
  have hds : ∀ c ∈ Nat.toDigits 10 n.natAbs, c.isDigit = true := fun c => isDigit_of_mem_toDigits
  have hwhole := isWhole_decimal n.natAbs
  rw [decimal] at hwhole
  rw [Json.intChars, ofInt, decimal]
  split
  · next h =>
    rw [read?, readSign]
    simp [spanDigits_of_isDigit hds, hwhole, readFraction, readExponent, h]
  · next h =>
    rw [read?, readSign_of_isDigit hds]
    simp [spanDigits_of_isDigit hds, hwhole, readFraction, readExponent, h]

end Numeral

def Number.isWord : Number → Bool
  | .int n => -0x8000000000000000 ≤ n && n < 0x10000000000000000
  | .double _ => false

theorem Numeral.number?_ofInt {n : Int} (h : (Number.int n).isWord = true) :
    (ofInt n).number? = some (.int n) := by
  have hn : -0x8000000000000000 ≤ n ∧ n < 0x10000000000000000 := by simpa [Number.isWord] using h
  by_cases neg : n < 0
  · obtain ⟨k, rfl⟩ : ∃ k : Nat, n = -k := ⟨n.natAbs, by omega⟩
    have hk : 0 < k ∧ k ≤ 0x8000000000000000 := by omega
    have hlt : k < UInt64.size := by simp only [UInt64.size]; omega
    simp [number?, ofInt, absorb_decimal hlt, hk]
  · obtain ⟨k, rfl⟩ : ∃ k : Nat, n = k := ⟨n.natAbs, by omega⟩
    have hlt : k < UInt64.size := by simp only [UInt64.size]; omega
    simp [number?, ofInt, absorb_decimal hlt]

namespace Json

/-! ## Lexemes -/

theorem tokenize_cons {c : Char} {p r : List Char} {t : Token}
    (h : readLexeme c (p ++ r) = (.token t, p.length)) :
    tokenize (c :: (p ++ r)) = (tokenize r).map (t :: ·) := by
  rw [tokenize, scan_cons h, tokens?, tokenize]

/-- What follows a value does not carry a numeral on. -/
def Ends (r : List Char) : Prop := r.takeWhile isNumeralChar = []

theorem ends_cons {c : Char} (h : isNumeralChar c = false) (r : List Char) : Ends (c :: r) :=
  List.takeWhile_cons_of_neg (by simp [h])

theorem ends_ite {p : Prop} [Decidable p] {s r : List Char} (hr : Ends r) :
    Ends ((if p then [] else ',' :: s) ++ r) := by
  split
  · exact hr
  · exact ends_cons rfl _

theorem readLexeme_numeral {c : Char} (h : c.isDigit = true ∨ c = '-') (r : List Char) :
    readLexeme c r =
      match Numeral.read? (c :: r.takeWhile isNumeralChar) with
      | some n => (.token (.number n.number?), (r.takeWhile isNumeralChar).length)
      | none => (.malformed, 0) := by
  unfold readLexeme
  -- neither a digit nor the sign is one of the characters that are matched before the last case
  split <;> first | rfl | exact absurd h (by decide)

theorem isDigit_or_minus_of_mem_intChars {n : Int} {c : Char} (h : c ∈ intChars n) :
    c.isDigit = true ∨ c = '-' := by
  rw [intChars] at h
  split at h
  · rcases List.mem_cons.mp h with rfl | h
    · exact .inr rfl
    · exact .inl (isDigit_of_mem_toDigits h)
  · exact .inl (isDigit_of_mem_toDigits h)

theorem tokenize_intChars {n : Int} (h : (Number.int n).isWord = true) {r : List Char}
    (hr : Ends r) :
    tokenize (intChars n ++ r) = (tokenize r).map (.number (some (.int n)) :: ·) := by
  have hchars : ∀ c ∈ intChars n, c.isDigit = true ∨ c = '-' := fun c =>
    isDigit_or_minus_of_mem_intChars
  have hread := Numeral.read?_intChars n
  cases hcs : intChars n with
  | nil => simp [hcs, Numeral.read?, Numeral.readSign, spanDigits, Numeral.isWhole] at hread
  | cons c cs =>
    rw [hcs] at hchars hread
    obtain ⟨hc, hnumeral⟩ := List.forall_mem_cons.mp hchars
    have htail : (cs ++ r).takeWhile isNumeralChar = cs := by
      rw [List.takeWhile_append_of_pos, hr, List.append_nil]
      intro d hd
      rcases hnumeral d hd with hd | rfl
      · simp [isNumeralChar, hd]
      · rfl
    refine tokenize_cons ?_
    rw [readLexeme_numeral hc, htail, hread]
    simp only [Numeral.number?_ofInt h]

theorem tokenize_mark {c : Char} {t : Token} (h : ∀ r, readLexeme c r = (.token t, 0))
    (r : List Char) : tokenize (c :: r) = (tokenize r).map (t :: ·) :=
  tokenize_cons (p := []) (h r)

theorem tokenize_word {w : String} (t : Token) (c : Char) (p : List Char)
    (hw : w.toList = c :: p) (hread : ∀ r, readLexeme c r = readWord w t c r) (r : List Char) :
    tokenize (w.toList ++ r) = (tokenize r).map (t :: ·) := by
  have hprefix : w.toList.isPrefixOf (c :: (p ++ r)) = true := by
    rw [hw, ← List.cons_append]
    exact List.isPrefixOf_iff_prefix.mpr (List.prefix_append _ r)
  have hlen : w.length - 1 = p.length := by
    rw [← String.length_toList, hw, List.length_cons, Nat.add_sub_cancel]
  rw [hw]
  refine tokenize_cons ?_
  rw [hread, readWord, if_pos hprefix, hlen]

/-! ## Texts -/

inductive Piece.Shows : Piece → Char → Prop
  | char (c) : Shows (.char c) c
  | code {c} (h : c.toNat < 32) : Shows (.code c.toNat) c

theorem joinPieces_cons {p : Piece} {c : Char} (h : p.Shows c) (ps : List Piece) :
    joinPieces (p :: ps) = (joinPieces ps).map (c :: ·) := by
  cases h with
  | char => rw [joinPieces]
  | code h =>
    have hhigh : isHighSurrogate c.toNat = false := by simp [isHighSurrogate]; omega
    have hlow : isLowSurrogate c.toNat = false := by simp [isLowSurrogate]; omega
    cases ps with
    | nil => simp [joinPieces, hhigh, hlow]
    | cons p ps => cases p <;> simp [joinPieces, hhigh, hlow]

theorem pieces_escaped {e c : Char} (h : escaped? e = some c) (r : List Char) :
    pieces ('\\' :: e :: r) = (pieces r).map fun x => (.char c :: x.1, x.2 + 2) := by
  rw [pieces]
  · rw [h]
    cases pieces r <;> rfl
  · rintro a b c d r rfl
    simp [escaped?] at h

theorem pieces_code {n : Nat} (h : n < 32) (r : List Char) :
    pieces ('\\' :: 'u' :: '0' :: '0' :: hexDigit (n / 16) :: hexDigit (n % 16) :: r) =
      (pieces r).map fun x => (.code n :: x.1, x.2 + 6) := by
  have hn : ∀ n < 32, natural? 16 ['0', '0', hexDigit (n / 16), hexDigit (n % 16)] = some n := by
    decide
  rw [pieces, hn n h]
  cases pieces r <;> rfl

theorem pieces_plain {c : Char} (hquote : c ≠ '"') (hslash : c ≠ '\\') (hc : ¬ c.toNat < 32)
    (r : List Char) : pieces (c :: r) = (pieces r).map fun x => (.char c :: x.1, x.2 + 1) := by
  rw [pieces]
  · simp only [hslash, hc]
    cases pieces r <;> rfl
  all_goals simp_all

theorem pieces_escapeChar (c : Char) :
    ∃ p : Piece, p.Shows c ∧ ∀ r, pieces (escapeChar c ++ r) =
      (pieces r).map fun x => (p :: x.1, x.2 + (escapeChar c).length) := by
  have ofCode {n : Nat} (h : c.toNat = n) : Char.ofNat n = c := by rw [← h, Char.ofNat_toNat]
  unfold escapeChar
  split_ifs with hquote hslash h8 h9 h10 h12 h13 hcode
  · subst hquote
    exact ⟨_, .char _, pieces_escaped rfl⟩
  · subst hslash
    exact ⟨_, .char _, pieces_escaped rfl⟩
  · exact ⟨_, .char c, pieces_escaped (ofCode h8 ▸ rfl)⟩
  · exact ⟨_, .char c, pieces_escaped (ofCode h9 ▸ rfl)⟩
  · exact ⟨_, .char c, pieces_escaped (ofCode h10 ▸ rfl)⟩
  · exact ⟨_, .char c, pieces_escaped (ofCode h12 ▸ rfl)⟩
  · exact ⟨_, .char c, pieces_escaped (ofCode h13 ▸ rfl)⟩
  · exact ⟨_, .code hcode, pieces_code hcode⟩
  · exact ⟨_, .char c, pieces_plain hquote hslash hcode⟩

theorem pieces_quoted (cs r : List Char) :
    ∃ ps, pieces (cs.flatMap escapeChar ++ '"' :: r) =
        some (ps, (cs.flatMap escapeChar).length + 1) ∧
      joinPieces ps = some cs := by
  induction cs with
  | nil => exact ⟨[], rfl, rfl⟩
  | cons c cs ih =>
    obtain ⟨ps, hps, hjoin⟩ := ih
    obtain ⟨p, hp, hpieces⟩ := pieces_escapeChar c
    refine ⟨p :: ps, ?_, ?_⟩
    · have hlen : (cs.flatMap escapeChar).length + 1 + (escapeChar c).length =
          (escapeChar c ++ cs.flatMap escapeChar).length + 1 := by
        rw [List.length_append]
        omega
      rw [List.flatMap_cons, List.append_assoc, hpieces, hps, Option.map_some, hlen]
    · rw [joinPieces_cons hp, hjoin]
      rfl

theorem tokenize_quoted (s : String) (r : List Char) :
    tokenize (quoted s ++ r) = (tokenize r).map (.text (some s) :: ·) := by
  obtain ⟨ps, hps, hjoin⟩ := pieces_quoted s.toList r
  have hread : readLexeme '"' ((s.toList.flatMap escapeChar ++ ['"']) ++ r) =
      (.token (.text (some s)), (s.toList.flatMap escapeChar ++ ['"']).length) := by
    rw [readLexeme, List.append_assoc, List.singleton_append, hps]
    simp [hjoin]
  exact tokenize_cons hread

/-! ## Values -/

mutual

def tokens : Json → List Token
  | null => [.null]
  | bool b => [.bool b]
  | num n => [.number (some n)]
  | str s => [.text (some s)]
  | arr l => .listOpen :: itemTokens l ++ [.listClose]
  | obj l => .fieldsOpen :: entryTokens l ++ [.fieldsClose]

def itemTokens : List Json → List Token
  | [] => []
  | j :: l => j.tokens ++ (if l.isEmpty then [] else .comma :: itemTokens l)

def entryTokens : List (String × Json) → List Token
  | [] => []
  | (k, j) :: l =>
    .text (some k) :: .colon :: j.tokens ++ (if l.isEmpty then [] else .comma :: entryTokens l)

end

mutual

/-- All numbers are integers of 64 bits. -/
def integral : Json → Bool
  | num n => n.isWord
  | arr l => integralItems l
  | obj l => integralEntries l
  | _ => true

def integralItems : List Json → Bool
  | [] => true
  | j :: l => j.integral && integralItems l

def integralEntries : List (String × Json) → Bool
  | [] => true
  | (_, j) :: l => j.integral && integralEntries l

end

-- By induction on the value, with what follows left open: a member is followed by the rest of the
-- container that holds it.
mutual

theorem tokenize_chars : (j : Json) → j.integral = true → ∀ {r : List Char}, Ends r →
    tokenize (j.chars ++ r) = (tokenize r).map (j.tokens ++ ·)
  | null, _, r, _ => by
    rw [chars, tokens]
    exact tokenize_word .null 'n' ['u', 'l', 'l'] (by decide) (fun _ => rfl) r
  | bool true, _, r, _ => by
    rw [chars, tokens]
    exact tokenize_word (.bool true) 't' ['r', 'u', 'e'] (by decide) (fun _ => rfl) r
  | bool false, _, r, _ => by
    rw [chars, tokens]
    exact tokenize_word (.bool false) 'f' ['a', 'l', 's', 'e'] (by decide) (fun _ => rfl) r
  | num (.int n), h, r, hr => tokenize_intChars h hr
  | num (.double _), h, _, _ => by simp [integral, Number.isWord] at h
  | str s, _, r, _ => tokenize_quoted s r
  | arr l, h, r, _ => by
    rw [chars, List.append_assoc, List.cons_append, List.singleton_append,
      tokenize_mark fun _ => rfl, tokenize_itemChars l h (ends_cons rfl _),
      tokenize_mark fun _ => rfl]
    simp [tokens, Function.comp_def]
  | obj l, h, r, _ => by
    rw [chars, List.append_assoc, List.cons_append, List.singleton_append,
      tokenize_mark fun _ => rfl, tokenize_entryChars l h (ends_cons rfl _),
      tokenize_mark fun _ => rfl]
    simp [tokens, Function.comp_def]

theorem tokenize_itemChars : (l : List Json) → integralItems l = true → ∀ {r : List Char}, Ends r →
    tokenize (itemChars l ++ r) = (tokenize r).map (itemTokens l ++ ·)
  | [], _, r, _ => by simp [itemChars, itemTokens]
  | j :: l, h, r, hr => by
    rw [integralItems, Bool.and_eq_true] at h
    rw [itemChars, List.append_assoc, tokenize_chars j h.1 (ends_ite hr), itemTokens]
    cases l with
    | nil => simp
    | cons j' l =>
      simp only [List.isEmpty_cons, Bool.false_eq_true, if_false, List.cons_append]
      rw [tokenize_mark fun _ => rfl, tokenize_itemChars (j' :: l) h.2 hr]
      simp [Function.comp_def]

theorem tokenize_entryChars : (l : List (String × Json)) → integralEntries l = true →
    ∀ {r : List Char}, Ends r →
    tokenize (entryChars l ++ r) = (tokenize r).map (entryTokens l ++ ·)
  | [], _, r, _ => by simp [entryChars, entryTokens]
  | (k, j) :: l, h, r, hr => by
    rw [integralEntries, Bool.and_eq_true] at h
    rw [entryChars, List.append_assoc, List.append_assoc, tokenize_quoted, List.cons_append,
      tokenize_mark fun _ => rfl, tokenize_chars j h.1 (ends_ite hr), entryTokens]
    cases l with
    | nil => simp [Function.comp_def]
    | cons e l =>
      simp only [List.isEmpty_cons, Bool.false_eq_true, if_false, List.cons_append]
      rw [tokenize_mark fun _ => rfl, tokenize_entryChars (e :: l) h.2 hr]
      simp [Function.comp_def]

end

theorem tokenize_text {j : Json} (h : j.integral = true) :
    tokenize j.text.toList = some j.tokens := by
  have hr := tokenize_chars j h (r := []) rfl
  rw [List.append_nil] at hr
  rw [text, String.toList_ofList, hr]
  simp [tokenize, scan, tokens?]

end Json
end Stowage
