import Stowage.Proofs.Placeholders

/-!
# Readings of a text

The grammar of texts with placeholders, apart from any way of scanning them. A text has one reading,
and expanding the text fills that reading piece by piece. Searching for the leftmost form behind the
last one, and copying what stands between, comes to the same.
-/

namespace Stowage

namespace Template

/-! ## The grammar -/

def IsReference (cs : List Char) : Prop :=
  cs ≠ [] ∧ ∀ c ∈ cs, ('A' ≤ c ∧ c ≤ 'Z') ∨ ('a' ≤ c ∧ c ≤ 'z') ∨ ('0' ≤ c ∧ c ≤ '9') ∨
    c ∈ ['.', '_', '-', '\\']

/-- A text that begins with an escaped dollar sign or a placeholder, and what stands behind it. -/
inductive Form : List Char → Piece → List Char → Prop
  | dollar (r) : Form ('$' :: '$' :: r) (.char '$') r
  | placeholder {reference} (r) : IsReference reference →
      Form ('$' :: '\x7b' :: (reference ++ '\x7d' :: r)) (.placeholder reference) r

def Opens (cs : List Char) : Prop := ∃ p r, Form cs p r

/-- Whatever begins no form is a character of its own. -/
inductive Reads : List Char → List Piece → Prop
  | nil : Reads [] []
  | form {cs p r l} : Form cs p r → Reads r l → Reads cs (p :: l)
  | char {c r l} : ¬Opens (c :: r) → Reads r l → Reads (c :: r) (.char c :: l)

theorem isReferenceChar_iff {c : Char} : isReferenceChar c = true ↔ ('A' ≤ c ∧ c ≤ 'Z') ∨
    ('a' ≤ c ∧ c ≤ 'z') ∨ ('0' ≤ c ∧ c ≤ '9') ∨ c ∈ ['.', '_', '-', '\\'] := by
  have upper : c.isUpper = true ↔ 'A' ≤ c ∧ c ≤ 'Z' := decide_eq_true_iff
  have lower : c.isLower = true ↔ 'a' ≤ c ∧ c ≤ 'z' := by
    show (decide ('a' ≤ c) && decide (c ≤ 'z')) = true ↔ _
    simp
  have digit : c.isDigit = true ↔ '0' ≤ c ∧ c ≤ '9' := by
    show (decide ('0' ≤ c) && decide (c ≤ '9')) = true ↔ _
    simp
  show (c.isUpper || c.isLower || c.isDigit || decide (c = '.') || decide (c = '-') ||
    decide (c = '_') || decide (c = '\\')) = true ↔ _
  simp only [Bool.or_eq_true, decide_eq_true_eq, upper, lower, digit, List.mem_cons,
    List.not_mem_nil]
  grind

theorem isReference_iff {cs : List Char} :
    IsReference cs ↔ cs ≠ [] ∧ ∀ c ∈ cs, isReferenceChar c = true := by
  simp only [IsReference, isReferenceChar_iff]

theorem Form.length_lt {cs r : List Char} {p : Piece} (h : Form cs p r) : r.length < cs.length := by
  cases h with
  | dollar => simp only [List.length_cons]; omega
  | placeholder => simp; omega

/-! ## Pieces -/

theorem pieces_of_form {cs r : List Char} {p : Piece} (h : Form cs p r) :
    pieces cs = p :: pieces r := by
  cases h with
  | dollar =>
    have hread : readPiece '$' (['$'] ++ r) = (.char '$', ['$'].length) := rfl
    exact scan_cons hread
  | placeholder _ href =>
    obtain ⟨hne, hchars⟩ := isReference_iff.mp href
    exact pieces_placeholder r hne hchars

theorem readPiece_of_not_opens {c : Char} {r : List Char} (h : ¬Opens (c :: r)) :
    readPiece c r = (.char c, 0) := by
  unfold readPiece
  split
  · exact absurd ⟨_, _, .dollar _⟩ h
  · next r' =>
    -- a reference without its closing brace is not a placeholder
    simp only
    split
    · next hclosed =>
      simp at hclosed
      exfalso
      apply h
      cases hrest : r'.dropWhile isReferenceChar with
      | nil => simp [hrest] at hclosed
      | cons d rest =>
        obtain rfl : d = '\x7d' := by simpa [hrest] using hclosed.2
        have hsplit : r'.takeWhile isReferenceChar ++ '\x7d' :: rest = r' := by
          rw [← hrest, List.takeWhile_append_dropWhile]
        have href : IsReference (r'.takeWhile isReferenceChar) :=
          isReference_iff.mpr ⟨by simpa using hclosed.1, fun c hc => List.mem_takeWhile_imp hc⟩
        have hform := Form.placeholder rest href
        rw [hsplit] at hform
        exact ⟨_, _, hform⟩
    · rfl
  · rfl

theorem pieces_of_not_opens {c : Char} {r : List Char} (h : ¬Opens (c :: r)) :
    pieces (c :: r) = .char c :: pieces r := by
  show scan readPiece 0 (c :: r) = _
  rw [scan, readPiece_of_not_opens h]
  rfl

theorem reads_pieces (cs : List Char) : Reads cs (pieces cs) := by
  induction hn : cs.length using Nat.strongRecOn generalizing cs with
  | ind n ih =>
    cases cs with
    | nil => exact .nil
    | cons c r =>
      by_cases h : Opens (c :: r)
      · obtain ⟨p, r', hform⟩ := h
        rw [pieces_of_form hform]
        exact .form hform (ih _ (hn ▸ hform.length_lt) r' rfl)
      · rw [pieces_of_not_opens h]
        exact .char h (ih _ (by simp at hn; omega) r rfl)

theorem reads_iff {cs : List Char} {l : List Piece} : Reads cs l ↔ l = pieces cs := by
  constructor
  · intro h
    induction h with
    | nil => rfl
    | form hform _ ih => rw [pieces_of_form hform, ih]
    | char hc _ ih => rw [pieces_of_not_opens hc, ih]
  · rintro rfl
    exact reads_pieces cs

/-- Of three dollar signs the first two are one, and the third may begin a placeholder. -/
example : pieces "$$$\x7ba.b\x7d".toList = [.char '$', .placeholder "a.b".toList] := by decide

/-! ## Filling a reading -/

section
variable {resolve : List Char → Except ε (List Char)}

def value (resolve : List Char → Except ε (List Char)) : Piece → Except ε (List Char)
  | .char c => .ok [c]
  | .placeholder reference => resolve reference

theorem fill_eq_mapM (l : List Piece) :
    fill resolve l = (l.mapM (value resolve)).map List.flatten := by
  induction l with
  | nil => rfl
  | cons p l ih =>
    rw [List.mapM_cons]
    cases p with
    | char c =>
      rw [fill, ih]
      cases l.mapM (value resolve) <;> rfl
    | placeholder reference =>
      rw [fill, ih]
      simp only [value]
      cases resolve reference with
      | error e => rfl
      | ok v => cases l.mapM (value resolve) <;> rfl

theorem fill_eq_ok {l : List Piece} {cs : List Char} : fill resolve l = .ok cs ↔
    ∃ values, List.Forall₂ (fun p v => value resolve p = .ok v) l values ∧ values.flatten = cs := by
  rw [fill_eq_mapM, map_eq_ok]
  constructor
  · rintro ⟨values, hvalues, hcs⟩
    exact ⟨values, forall₂_of_mapM_eq_ok hvalues, hcs⟩
  · rintro ⟨values, hvalues, hcs⟩
    exact ⟨values, mapM_eq_ok_of_forall₂ hvalues, hcs⟩

theorem fill_eq_error {l : List Piece} {e : ε} : fill resolve l = .error e ↔
    ∃ before reference after, l = before ++ .placeholder reference :: after ∧
      (∀ p ∈ before, (value resolve p).isOk = true) ∧ resolve reference = .error e := by
  rw [fill_eq_mapM, map_eq_error, mapM_eq_error]
  constructor
  · rintro ⟨before, p, after, hl, hok, hp⟩
    cases p with
    | char c => cases hp
    | placeholder reference => exact ⟨before, reference, after, hl, hok, hp⟩
  · rintro ⟨before, reference, after, hl, hok, hp⟩
    exact ⟨before, .placeholder reference, after, hl, hok, hp⟩

theorem exists_fill_eq_error {l : List Piece} : (∃ e, fill resolve l = .error e) ↔
    ∃ reference e, .placeholder reference ∈ l ∧ resolve reference = .error e := by
  constructor
  · rintro ⟨e, h⟩
    obtain ⟨before, reference, after, rfl, -, he⟩ := fill_eq_error.mp h
    exact ⟨reference, e, by simp, he⟩
  · rintro ⟨reference, e, hmem, he⟩
    cases h : fill resolve l with
    | error e' => exact ⟨e', rfl⟩
    | ok cs =>
      obtain ⟨values, hvalues, -⟩ := fill_eq_ok.mp h
      obtain ⟨v, -, hv⟩ := exists_right_of_mem hvalues hmem
      rw [value, he] at hv
      cases hv

theorem fill_append_chars (front : List Char) (l : List Piece) :
    fill resolve (front.map .char ++ l) = (fill resolve l).map (front ++ ·) := by
  induction front with
  | nil => cases h : fill resolve l <;> simp [h, Except.map]
  | cons c front ih =>
    simp only [List.map_cons, List.cons_append, fill, ih]
    cases fill resolve l <;> rfl

/-! ## Searching for the next form -/

def Closed (front cs : List Char) : Prop := ∀ s, s ≠ [] → s <:+ front → ¬Opens (s ++ cs)

/-- The text up to the leftmost form is copied, the form is replaced by its value, and the search
goes on behind it in the text, not in the value. -/
inductive Spliced (resolve : List Char → Except ε (List Char)) :
    List Char → Except ε (List Char) → Prop
  | last {cs} : Closed cs [] → Spliced resolve cs (.ok cs)
  | next {front cs p r out} : Closed front cs → Form cs p r → Spliced resolve r out →
      Spliced resolve (front ++ cs) do
        let v ← value resolve p
        let rest ← out
        .ok (front ++ v ++ rest)

theorem Closed.tail {c : Char} {front cs : List Char} (h : Closed (c :: front) cs) :
    Closed front cs := fun s hne hs => h s hne (hs.trans (List.suffix_cons c front))

theorem Closed.cons {c : Char} {front cs : List Char} (h : Closed front cs)
    (hc : ¬Opens (c :: front ++ cs)) : Closed (c :: front) cs := by
  intro s hne hs
  rcases List.suffix_cons_iff.mp hs with rfl | hs
  · exact hc
  · exact h s hne hs

theorem pieces_append_of_closed {front cs : List Char} (h : Closed front cs) :
    pieces (front ++ cs) = front.map .char ++ pieces cs := by
  induction front with
  | nil => rfl
  | cons c front ih =>
    have hc : ¬Opens (c :: (front ++ cs)) := h (c :: front) (by simp) (List.suffix_refl _)
    rw [List.cons_append, pieces_of_not_opens hc, ih h.tail]
    rfl

theorem closed_or_exists_leftmost (cs : List Char) : Closed cs [] ∨
    ∃ front rest p r, cs = front ++ rest ∧ Closed front rest ∧ Form rest p r := by
  have closed_nil : ∀ rest : List Char, Closed [] rest := by
    intro rest s hne hs
    exact absurd (List.suffix_nil.mp hs) hne
  induction cs with
  | nil => exact .inl (closed_nil [])
  | cons c cs ih =>
    by_cases h : Opens (c :: cs)
    · obtain ⟨p, r, hform⟩ := h
      exact .inr ⟨[], c :: cs, p, r, rfl, closed_nil _, hform⟩
    · rcases ih with hcs | ⟨front, rest, p, r, rfl, hfront, hform⟩
      · exact .inl (hcs.cons (by simpa using h))
      · exact .inr ⟨c :: front, rest, p, r, rfl, hfront.cons h, hform⟩

theorem Spliced.eq_expand {cs : List Char} {out : Except ε (List Char)}
    (h : Spliced resolve cs out) : out = expand resolve cs := by
  induction h with
  | @last cs hcs =>
    have hpieces := pieces_append_of_closed hcs
    rw [List.append_nil] at hpieces
    rw [expand, hpieces, fill_append_chars]
    simp [pieces, scan, fill, Except.map]
  | @next front cs p r out hfront hform _ ih =>
    rw [expand, pieces_append_of_closed hfront, pieces_of_form hform, fill_append_chars, ih, expand]
    cases p with
    | char c =>
      cases h : fill resolve (pieces r) <;>
        simp [value, fill, h, Except.map, bind, Except.bind]
    | placeholder reference =>
      cases hv : resolve reference with
      | error e => simp [value, fill, hv, Except.map, bind, Except.bind]
      | ok v =>
        cases h : fill resolve (pieces r) <;>
          simp [value, fill, hv, h, Except.map, bind, Except.bind]

theorem exists_spliced (resolve : List Char → Except ε (List Char)) (cs : List Char) :
    ∃ out, Spliced resolve cs out := by
  induction hn : cs.length using Nat.strongRecOn generalizing cs with
  | ind n ih =>
    rcases closed_or_exists_leftmost cs with h | ⟨front, rest, p, r, rfl, hfront, hform⟩
    · exact ⟨_, .last h⟩
    · have hlt : r.length < n := by
        have := hform.length_lt
        simp at hn
        omega
      obtain ⟨out, hout⟩ := ih _ hlt r rfl
      exact ⟨_, .next hfront hform hout⟩

theorem spliced_iff {cs : List Char} {out : Except ε (List Char)} :
    Spliced resolve cs out ↔ out = expand resolve cs := by
  constructor
  · exact Spliced.eq_expand
  · rintro rfl
    obtain ⟨out, hout⟩ := exists_spliced resolve cs
    exact hout.eq_expand ▸ hout

end
end Template

/-! ## Texts of a workload -/

namespace Scope
open Template

variable (scope : Scope) (mode : ReferenceMode)

theorem resolveChars_eq_error {cs : List Char} {e : ReferenceError} :
    scope.resolveChars mode cs = .error e ↔ scope.resolve (String.ofList cs) mode = .error e := by
  unfold resolveChars
  exact map_eq_error

/-- A text has one reading. Expanding puts the values of its pieces together, unread, or fails as
the leftmost placeholder that does not resolve. -/
theorem expand_reading (text : String) : ∃ l, (∀ l', Reads text.toList l' ↔ l' = l) ∧
    (∀ out, scope.expand mode text = .ok out ↔ ∃ values,
      List.Forall₂ (fun p v => value (scope.resolveChars mode) p = .ok v) l values ∧
        out.toList = values.flatten) ∧
    (∀ e, scope.expand mode text = .error e ↔ ∃ before reference after,
      l = before ++ .placeholder reference :: after ∧
        (∀ p ∈ before, (value (scope.resolveChars mode) p).isOk = true) ∧
        scope.resolve (String.ofList reference) mode = .error e) ∧
    ((∃ e, scope.expand mode text = .error e) ↔ ∃ reference e, .placeholder reference ∈ l ∧
      scope.resolve (String.ofList reference) mode = .error e) ∧
    ∀ out, Spliced (scope.resolveChars mode) text.toList out ↔
      out = (scope.expand mode text).map String.toList := by
  have herror (e : ReferenceError) : scope.expand mode text = .error e ↔
      fill (scope.resolveChars mode) (pieces text.toList) = .error e := by
    unfold expand Template.expand
    exact map_eq_error
  refine ⟨pieces text.toList, fun l' => reads_iff, ?_, ?_, ?_, ?_⟩
  · intro out
    unfold expand Template.expand
    rw [map_eq_ok]
    constructor
    · rintro ⟨cs, hcs, rfl⟩
      obtain ⟨values, hvalues, rfl⟩ := fill_eq_ok.mp hcs
      exact ⟨values, hvalues, String.toList_ofList⟩
    · rintro ⟨values, hvalues, hout⟩
      refine ⟨values.flatten, fill_eq_ok.mpr ⟨values, hvalues, rfl⟩, ?_⟩
      rw [← hout, String.ofList_toList]
  · intro e
    rw [herror, fill_eq_error]
    simp only [resolveChars_eq_error]
  · simp only [herror, exists_fill_eq_error, resolveChars_eq_error]
  · intro out
    rw [spliced_iff]
    unfold expand
    cases Template.expand (scope.resolveChars mode) text.toList <;> simp [Except.map]

end Scope
end Stowage
