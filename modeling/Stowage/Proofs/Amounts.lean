import Mathlib.Data.List.TakeWhile
import Stowage.Quantity

/-!
# The grammar of quantities

An amount is a sign, a decimal number and a suffix. No suffix begins with a digit or a point, so the
number always takes all that it can, and reading from the left decides the whole grammar.
-/

namespace Stowage.Quantity

/-! ## Grammar -/

def Digits (cs : List Char) : Prop := cs ≠ [] ∧ ∀ c ∈ cs, c.isDigit = true

/-- A decimal number, with digits on one side of its point at least. -/
inductive Number : List Char → Prop
  | whole {w} : Digits w → Number w
  | point {w f} : Digits w → (∀ c ∈ f, c.isDigit = true) → Number (w ++ '.' :: f)
  | fraction {f} : Digits f → Number ('.' :: f)

inductive Suffix : List Char → Prop
  | none : Suffix []
  | binary {c} : c ∈ ['K', 'M', 'G', 'T', 'P', 'E'] → Suffix [c, 'i']
  | decimal {c} : c ∈ ['n', 'u', 'm', 'k', 'M', 'G', 'T', 'P', 'E'] → Suffix [c]
  | exponent {e sign ds} : e = 'e' ∨ e = 'E' → sign = [] ∨ sign = ['+'] ∨ sign = ['-'] →
      Digits ds → Suffix (e :: (sign ++ ds))

def Unsigned (cs : List Char) : Prop := ∃ n x, cs = n ++ x ∧ Number n ∧ Suffix x

/-! ## Digits -/

theorem isDigits_iff {cs : List Char} : isDigits cs = true ↔ Digits cs := by
  simp [isDigits, Digits, isDigit_ten_iff]

theorem span_digits {w r : List Char} (hw : ∀ c ∈ w, c.isDigit = true)
    (hr : ∀ c ∈ r.head?, c.isDigit = false) :
    (w ++ r).takeWhile (isDigit 10) = w ∧ (w ++ r).dropWhile (isDigit 10) = r := by
  have hall : ∀ c ∈ w, isDigit 10 c = true := fun c hc => isDigit_ten_iff.mpr (hw c hc)
  have hstop : r.takeWhile (isDigit 10) = [] ∧ r.dropWhile (isDigit 10) = r := by
    cases r with
    | nil => simp
    | cons c r =>
      have hc : ¬isDigit 10 c = true := by
        rw [isDigit_ten_iff, hr c rfl]
        simp
      exact ⟨List.takeWhile_cons_of_neg hc, List.dropWhile_cons_of_neg hc⟩
  rw [List.takeWhile_append_of_pos hall, List.dropWhile_append_of_pos hall, hstop.1, hstop.2]
  simp

theorem Digits.head {w : List Char} (h : Digits w) : ∃ c r, w = c :: r ∧ c.isDigit = true := by
  obtain ⟨c, r, rfl⟩ := List.exists_cons_of_ne_nil h.1
  exact ⟨c, r, rfl, h.2 c List.mem_cons_self⟩

/-! ## Suffixes -/

theorem isExponent_iff {cs : List Char} : isExponent cs = true ↔
    ∃ e sign ds, cs = e :: (sign ++ ds) ∧ (e = 'e' ∨ e = 'E') ∧
      (sign = [] ∨ sign = ['+'] ∨ sign = ['-']) ∧ Digits ds := by
  constructor
  · intro h
    cases cs with
    | nil => cases h
    | cons e r =>
      simp only [isExponent, Bool.and_eq_true, Bool.or_eq_true, decide_eq_true_eq] at h
      obtain ⟨he, h⟩ := h
      split at h
      · exact ⟨e, ['+'], _, rfl, he, .inr (.inl rfl), isDigits_iff.mp h⟩
      · exact ⟨e, ['-'], _, rfl, he, .inr (.inr rfl), isDigits_iff.mp h⟩
      · exact ⟨e, [], _, rfl, he, .inl rfl, isDigits_iff.mp h⟩
  · rintro ⟨e, sign, ds, rfl, he, hsign, hds⟩
    have hdigits := isDigits_iff.mpr hds
    simp only [isExponent, Bool.and_eq_true, Bool.or_eq_true, decide_eq_true_eq]
    refine ⟨he, ?_⟩
    rcases hsign with rfl | rfl | rfl
    · obtain ⟨c, r, rfl, hc⟩ := hds.head
      split
      · next heq => cases heq; exact absurd hc (by decide)
      · next heq => cases heq; exact absurd hc (by decide)
      · exact hdigits
    · exact hdigits
    · exact hdigits

theorem mem_units_iff {cs : List Char} : cs ∈ units ↔
    (∃ c ∈ ['K', 'M', 'G', 'T', 'P', 'E'], cs = [c, 'i']) ∨
      ∃ c ∈ ['n', 'u', 'm', 'k', 'M', 'G', 'T', 'P', 'E'], cs = [c] := by
  simp [units, or_assoc]

theorem isSuffix_iff {cs : List Char} : isSuffix cs = true ↔ Suffix cs := by
  simp only [isSuffix, Bool.or_eq_true, List.isEmpty_iff, List.contains_iff_mem, mem_units_iff,
    isExponent_iff]
  constructor
  · rintro ((rfl | (⟨c, hc, rfl⟩ | ⟨c, hc, rfl⟩)) | ⟨e, sign, ds, rfl, he, hsign, hds⟩)
    · exact .none
    · exact .binary hc
    · exact .decimal hc
    · exact .exponent he hsign hds
  · intro h
    cases h with
    | none => exact .inl (.inl rfl)
    | binary hc => exact .inl (.inr (.inl ⟨_, hc, rfl⟩))
    | decimal hc => exact .inl (.inr (.inr ⟨_, hc, rfl⟩))
    | exponent he hsign hds => exact .inr ⟨_, _, _, rfl, he, hsign, hds⟩

theorem Suffix.head {x : List Char} (h : Suffix x) :
    ∀ c ∈ x.head?, c.isDigit = false ∧ c ≠ '.' := by
  intro c hc
  cases h with
  | none => cases hc
  | binary h =>
    cases hc
    have letters : ['K', 'M', 'G', 'T', 'P', 'E'].all
        (fun c => !c.isDigit && c != '.') = true := by decide
    simpa using List.all_eq_true.mp letters c h
  | decimal h =>
    cases hc
    have letters : ['n', 'u', 'm', 'k', 'M', 'G', 'T', 'P', 'E'].all
        (fun c => !c.isDigit && c != '.') = true := by decide
    simpa using List.all_eq_true.mp letters c h
  | exponent h =>
    cases hc
    rcases h with rfl | rfl <;> decide

/-! ## Numbers -/

theorem afterNumber?_eq_some {cs r : List Char} (h : afterNumber? cs = some r) :
    ∃ n, cs = n ++ r ∧ Number n := by
  have hwhole : ∀ c ∈ cs.takeWhile (isDigit 10), c.isDigit = true := fun c hc =>
    isDigit_ten_iff.mp (List.mem_takeWhile_imp hc)
  have hcut : cs.takeWhile (isDigit 10) ++ cs.dropWhile (isDigit 10) = cs :=
    List.takeWhile_append_dropWhile
  unfold afterNumber? at h
  extract_lets whole at h
  split at h
  · next rest hrest =>
    have hfraction : ∀ c ∈ rest.takeWhile (isDigit 10), c.isDigit = true := fun c hc =>
      isDigit_ten_iff.mp (List.mem_takeWhile_imp hc)
    have hcut' : rest.takeWhile (isDigit 10) ++ rest.dropWhile (isDigit 10) = rest :=
      List.takeWhile_append_dropWhile
    split at h
    · cases h
    · next hsome =>
      cases h
      rw [hrest, ← hcut'] at hcut
      by_cases hw : whole = []
      · have hf : rest.takeWhile (isDigit 10) ≠ [] := by simpa [hw] using hsome
        refine ⟨'.' :: rest.takeWhile (isDigit 10), ?_, .fraction ⟨hf, hfraction⟩⟩
        rw [← hcut, show cs.takeWhile (isDigit 10) = [] from hw]
        rfl
      · refine ⟨whole ++ '.' :: rest.takeWhile (isDigit 10), ?_, .point ⟨hw, hwhole⟩ hfraction⟩
        rw [← hcut, List.append_assoc]
        rfl
  · split at h
    · cases h
    · next hw =>
      cases h
      exact ⟨whole, hcut.symm, .whole ⟨by simpa using hw, hwhole⟩⟩

theorem afterNumber?_append {n x : List Char} (hn : Number n)
    (hx : ∀ c ∈ x.head?, c.isDigit = false ∧ c ≠ '.') : afterNumber? (n ++ x) = some x := by
  have hstop : ∀ c ∈ x.head?, c.isDigit = false := fun c hc => (hx c hc).1
  have hpoint : ∀ f, ∀ c ∈ ('.' :: f : List Char).head?, c.isDigit = false := by
    intro f c hc
    cases hc
    decide
  unfold afterNumber?
  cases hn with
  | whole hw =>
    obtain ⟨htake, hdrop⟩ := span_digits hw.2 hstop
    rw [htake, hdrop]
    split
    · exact absurd rfl (hx '.' rfl).2
    · simp [hw.1]
  | @point w f hw hf =>
    rw [List.append_assoc, List.cons_append]
    obtain ⟨htake, hdrop⟩ := span_digits hw.2 (hpoint (f ++ x))
    rw [htake, hdrop]
    simp [hw.1, (span_digits hf hstop).2]
  | @fraction f hf =>
    obtain ⟨htake, hdrop⟩ := span_digits (w := []) (by simp) (hpoint (f ++ x))
    obtain ⟨htake', hdrop'⟩ := span_digits hf.2 hstop
    rw [List.nil_append] at htake hdrop
    rw [List.cons_append, htake, hdrop]
    simp [hf.1, htake', hdrop']

theorem isUnsigned_iff {cs : List Char} : isUnsigned cs = true ↔ Unsigned cs := by
  rw [isUnsigned, Option.any_eq_true]
  constructor
  · rintro ⟨x, hx, hsuffix⟩
    obtain ⟨n, hcs, hn⟩ := afterNumber?_eq_some hx
    exact ⟨n, x, hcs, hn, isSuffix_iff.mp hsuffix⟩
  · rintro ⟨n, x, rfl, hn, hx⟩
    exact ⟨x, afterNumber?_append hn hx.head, isSuffix_iff.mpr hx⟩

/-! ## Amounts -/

/-- What a text without blanks around it is as a quantity. -/
inductive Outcome (value : String) : List Char → Except Cause String → Prop
  | unsigned {t} : Unsigned t → Outcome value t (.ok (String.ofList t))
  | plus {t} : Unsigned t → Outcome value ('+' :: t) (.ok (String.ofList ('+' :: t)))
  | minus {t} : Unsigned t →
      Outcome value ('-' :: t) (.error (.quantity value "quantity must not be negative"))
  | invalid {t} : ¬Unsigned t → (∀ u, t = '+' :: u ∨ t = '-' :: u → ¬Unsigned u) →
      Outcome value t (.error (.quantity value "not a valid quantity"))

theorem not_unsigned_of_sign {c : Char} {t : List Char} (hc : c = '+' ∨ c = '-') :
    ¬Unsigned (c :: t) := by
  rw [← isUnsigned_iff]
  rcases hc with rfl | rfl
  · exact Bool.false_ne_true
  · exact Bool.false_ne_true

theorem isUnsigned_eq_false {cs : List Char} (h : ¬Unsigned cs) : isUnsigned cs = false := by
  rw [Bool.eq_false_iff, ne_eq, isUnsigned_iff]
  exact h

theorem outcome_invalid_of_sign {value : String} {c : Char} {u : List Char}
    (hc : c = '+' ∨ c = '-') (hu : ¬Unsigned u) :
    Outcome value (c :: u) (.error (.quantity value "not a valid quantity")) := by
  refine .invalid (not_unsigned_of_sign hc) fun u' hu' => ?_
  rcases hu' with heq | heq
  · cases heq; exact hu
  · cases heq; exact hu

theorem outcome_parse (value : String) : Outcome value (trimBlank value.toList) (parse value) := by
  unfold parse
  generalize trimBlank value.toList = t
  dsimp only
  split
  · next u =>
    by_cases hu : Unsigned u
    · rw [isUnsigned_iff.mpr hu]
      exact .plus hu
    · rw [isUnsigned_eq_false hu]
      exact outcome_invalid_of_sign (.inl rfl) hu
  · next u =>
    by_cases hu : Unsigned u
    · rw [isUnsigned_iff.mpr hu]
      exact .minus hu
    · rw [isUnsigned_eq_false hu]
      exact outcome_invalid_of_sign (.inr rfl) hu
  · next hplus hminus =>
    by_cases hu : Unsigned t
    · have hhead : t.head? ≠ some '-' := by
        intro h
        obtain ⟨u, hu⟩ := List.head?_eq_some_iff.mp h
        exact hminus u hu
      rw [isUnsigned_iff.mpr hu, if_neg (by simp), if_neg hhead]
      exact .unsigned hu
    · rw [isUnsigned_eq_false hu]
      refine .invalid hu fun u hsign => ?_
      rcases hsign with heq | heq
      · exact absurd heq (hplus u)
      · exact absurd heq (hminus u)

theorem Outcome.unique {value : String} {t : List Char} {r r' : Except Cause String}
    (h : Outcome value t r) (h' : Outcome value t r') : r = r' := by
  cases h with
  | unsigned hu =>
    cases h' with
    | unsigned => rfl
    | plus => exact absurd hu (not_unsigned_of_sign (.inl rfl))
    | minus => exact absurd hu (not_unsigned_of_sign (.inr rfl))
    | invalid hn => exact absurd hu hn
  | plus hu =>
    cases h' with
    | unsigned hu' => exact absurd hu' (not_unsigned_of_sign (.inl rfl))
    | plus => rfl
    | invalid _ hn => exact absurd hu (hn _ (.inl rfl))
  | minus hu =>
    cases h' with
    | unsigned hu' => exact absurd hu' (not_unsigned_of_sign (.inr rfl))
    | minus => rfl
    | invalid _ hn => exact absurd hu (hn _ (.inr rfl))
  | invalid hn hs =>
    cases h' with
    | unsigned hu => exact absurd hu hn
    | plus hu => exact absurd hu (hs _ (.inl rfl))
    | minus hu => exact absurd hu (hs _ (.inr rfl))
    | invalid => rfl

/-- Reading a quantity gives what the grammar says of the text without the blanks around it, and
nothing else. -/
theorem parse_eq_iff_outcome (value : String) (r : Except Cause String) :
    parse value = r ↔ ∃ t, Trimmed value.toList t ∧ Outcome value t r := by
  constructor
  · rintro rfl
    exact ⟨_, trimmed_trimBlank value.toList, outcome_parse value⟩
  · rintro ⟨t, ht, h⟩
    obtain rfl := ht.eq_trimBlank
    exact (outcome_parse value).unique h

/-- The letter `E` is a suffix alone, before an `i` and as the mark of an exponent. -/
example : ["1E", "1Ei", "+1.E-2"].map parse = [.ok "1E", .ok "1Ei", .ok "+1.E-2"] := by decide

end Stowage.Quantity
