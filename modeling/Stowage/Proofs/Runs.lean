import Mathlib.Data.List.Forall2
import Mathlib.Data.List.Perm.Basic
import Mathlib.Data.List.Sort
import Stowage.Conversion.Container
import Stowage.Order.Sorting

/-!
# Runs over lists

What a run that may fail says of the elements when it succeeds, and lists put in order or together
from their groups.
-/

namespace Stowage

/-! ## Results -/

theorem bind_eq_ok {x : Except ε α} {f : α → Except ε β} {b : β} :
    x >>= f = .ok b ↔ ∃ a, x = .ok a ∧ f a = .ok b := by
  cases x with
  | error e => simp [bind, Except.bind]
  | ok a => simp [bind, Except.bind]

theorem map_eq_ok {x : Except ε α} {f : α → β} {b : β} :
    x.map f = .ok b ↔ ∃ a, x = .ok a ∧ f a = b := by
  cases x with
  | error e => simp [Except.map]
  | ok a => simp [Except.map]

theorem bind_eq_error {x : Except ε α} {f : α → Except ε β} {e : ε} :
    x >>= f = .error e ↔ x = .error e ∨ ∃ a, x = .ok a ∧ f a = .error e := by
  cases x with
  | error e' => simp [bind, Except.bind]
  | ok a => simp [bind, Except.bind]

theorem map_eq_error {x : Except ε α} {f : α → β} {e : ε} :
    x.map f = .error e ↔ x = .error e := by
  cases x with
  | error e' => simp [Except.map]
  | ok a => simp [Except.map]

theorem isOk_map (x : Except ε α) (f : α → β) : (x.map f).isOk = x.isOk := by
  cases x <;> rfl

theorem exists_eq_ok {x : Except ε α} (h : x.isOk = true) : ∃ a, x = .ok a := by
  cases x with
  | error e => cases h
  | ok a => exact ⟨a, rfl⟩

/-! ## Lists side by side -/

theorem exists_left_of_mem {R : α → β → Prop} {l : List α} {r : List β} (h : List.Forall₂ R l r)
    {b : β} (hb : b ∈ r) : ∃ a ∈ l, R a b := by
  induction h with
  | nil => cases hb
  | cons hab _ ih =>
    rcases List.mem_cons.mp hb with rfl | hb
    · exact ⟨_, List.mem_cons_self, hab⟩
    · obtain ⟨a, ha, hab⟩ := ih hb
      exact ⟨a, List.mem_cons_of_mem _ ha, hab⟩

theorem exists_right_of_mem {R : α → β → Prop} {l : List α} {r : List β} (h : List.Forall₂ R l r)
    {a : α} (ha : a ∈ l) : ∃ b ∈ r, R a b := exists_left_of_mem h.flip ha

theorem forall₂_mem {R : α → β → Prop} {l : List α} {r : List β} (h : List.Forall₂ R l r) :
    List.Forall₂ (fun a b => a ∈ l ∧ b ∈ r ∧ R a b) l r := by
  obtain ⟨hlen, hzip⟩ := List.forall₂_iff_zip.mp h
  refine List.forall₂_iff_zip.mpr ⟨hlen, fun hab => ?_⟩
  exact ⟨(List.of_mem_zip hab).1, (List.of_mem_zip hab).2, hzip hab⟩

/-! ## Lists of results -/

theorem forall₂_of_mapM_eq_ok {f : α → Except ε β} {l : List α} {r : List β}
    (h : l.mapM f = .ok r) : List.Forall₂ (fun a b => f a = .ok b) l r := by
  induction l generalizing r with
  | nil => cases h; exact .nil
  | cons a l ih =>
    rw [List.mapM_cons] at h
    obtain ⟨b, hb, h⟩ := bind_eq_ok.mp h
    obtain ⟨bs, hbs, h⟩ := bind_eq_ok.mp h
    cases h
    exact .cons hb (ih hbs)

theorem mapM_eq_ok_of_forall₂ {f : α → Except ε β} {l : List α} {r : List β}
    (h : List.Forall₂ (fun a b => f a = .ok b) l r) : l.mapM f = .ok r := by
  induction h with
  | nil => rfl
  | cons hab _ ih =>
    rw [List.mapM_cons]
    exact bind_eq_ok.mpr ⟨_, hab, bind_eq_ok.mpr ⟨_, ih, rfl⟩⟩

theorem mapM_eq_ok_iff {f : α → Except ε β} {C : α → Prop} {g : α → β} {l : List α} {r : List β}
    (h : ∀ a ∈ l, ∀ b, f a = .ok b ↔ C a ∧ b = g a) :
    l.mapM f = .ok r ↔ (∀ a ∈ l, C a) ∧ r = l.map g := by
  constructor
  · intro hr
    have each := (forall₂_mem (forall₂_of_mapM_eq_ok hr)).imp fun a b hab => (h a hab.1 b).mp hab.2.2
    refine ⟨fun a ha => ?_, ?_⟩
    · obtain ⟨b, -, hab⟩ := exists_right_of_mem each ha
      exact hab.1
    · clear hr h
      induction each with
      | nil => rfl
      | cons hab _ ih => rw [List.map_cons, hab.2, ih]
  · rintro ⟨hall, rfl⟩
    apply mapM_eq_ok_of_forall₂
    refine List.forall₂_map_right_iff.mpr (List.forall₂_same.mpr fun a ha => ?_)
    exact (h a ha _).mpr ⟨hall a ha, rfl⟩

theorem mapM_eq_error {f : α → Except ε β} {l : List α} {e : ε} :
    l.mapM f = .error e ↔ ∃ before a after, l = before ++ a :: after ∧
      (∀ b ∈ before, (f b).isOk = true) ∧ f a = .error e := by
  induction l with
  | nil =>
    constructor
    · intro h
      cases h
    · rintro ⟨before, a, after, h, -⟩
      simp at h
  | cons c l ih =>
    rw [List.mapM_cons]
    constructor
    · intro h
      rcases bind_eq_error.mp h with h | ⟨b, hb, h⟩
      · exact ⟨[], c, l, rfl, by simp, h⟩
      · have htail : l.mapM f = .error e := by simpa [bind_eq_error, pure, Except.pure] using h
        obtain ⟨before, a, after, rfl, hok, ha⟩ := ih.mp htail
        refine ⟨c :: before, a, after, rfl, ?_, ha⟩
        intro b' hb'
        rcases List.mem_cons.mp hb' with rfl | hb'
        · rw [hb]
          rfl
        · exact hok b' hb'
    · rintro ⟨before, a, after, h, hok, ha⟩
      apply bind_eq_error.mpr
      cases before with
      | nil =>
        obtain ⟨rfl, rfl⟩ := List.cons.inj h
        exact .inl ha
      | cons b before =>
        obtain ⟨rfl, rfl⟩ := List.cons.inj h
        obtain ⟨d, hd⟩ := exists_eq_ok (hok c List.mem_cons_self)
        have htail : (before ++ a :: after).mapM f = .error e :=
          ih.mpr ⟨before, a, after, rfl, fun b hb => hok b (List.mem_cons_of_mem c hb), ha⟩
        exact .inr ⟨d, hd, bind_eq_error.mpr (.inl htail)⟩

theorem isOk_mapM (f : α → Except ε β) (l : List α) :
    (l.mapM f).isOk = l.all fun a => (f a).isOk := by
  induction l with
  | nil => rfl
  | cons a l ih =>
    rw [List.mapM_cons, List.all_cons, ← ih]
    cases f a with
    | error e => rfl
    | ok b => cases l.mapM f <;> rfl

/-- Runs that agree on what `g` sees of each result see the same of reordered lists. -/
theorem mapM_perm {f f' : α → Except ε β} {g : β → γ} {l l' : List α} {r : List β}
    (perm : l.Perm l') (h : l.mapM f = .ok r)
    (agree : ∀ a b, f a = .ok b → ∃ b', f' a = .ok b' ∧ g b = g b') :
    ∃ r', l'.mapM f' = .ok r' ∧ (r.map g).Perm (r'.map g) := by
  obtain ⟨r₁, hr₁, hperm⟩ := List.perm_comp_forall₂ perm.symm (forall₂_of_mapM_eq_ok h)
  have other : ∃ r', List.Forall₂ (fun a b => f' a = .ok b) l' r' ∧ r₁.map g = r'.map g := by
    clear hperm perm
    induction hr₁ with
    | nil => exact ⟨[], .nil, rfl⟩
    | cons hab _ ih =>
      obtain ⟨b', hb', hg⟩ := agree _ _ hab
      obtain ⟨r', hr', hmap⟩ := ih
      exact ⟨b' :: r', .cons hb' hr', by rw [List.map_cons, List.map_cons, hg, hmap]⟩
  obtain ⟨r', hr', hmap⟩ := other
  exact ⟨r', mapM_eq_ok_of_forall₂ hr', hmap ▸ (hperm.map g).symm⟩

theorem foldlM_induction {f : σ → α → Except ε σ} (P : List α → σ → Prop) {l : List α} {s t : σ}
    (h : l.foldlM f s = .ok t) (first : P [] s)
    (step : ∀ done a s s', a ∈ l → P done s → f s a = .ok s' → P (done ++ [a]) s') : P l t := by
  suffices ∀ rest done s, (∀ a ∈ rest, a ∈ l) → P done s → rest.foldlM f s = .ok t →
      P (done ++ rest) t from this l [] s (fun _ ha => ha) first h
  intro rest
  induction rest with
  | nil =>
    intro done s _ hP h
    cases h
    rwa [List.append_nil]
  | cons a rest ih =>
    intro done s hl hP h
    rw [List.foldlM_cons] at h
    obtain ⟨s', hs, h⟩ := bind_eq_ok.mp h
    have hP' := step done a s s' (hl a List.mem_cons_self) hP hs
    have := ih (done ++ [a]) s' (fun b hb => hl b (List.mem_cons_of_mem a hb)) hP' h
    rwa [List.append_assoc] at this

theorem foldlM_concat_eq_ok {f : σ → α → Except ε σ} {l : List α} {a : α} {s t : σ} :
    (l ++ [a]).foldlM f s = .ok t ↔ ∃ s', l.foldlM f s = .ok s' ∧ f s' a = .ok t := by
  rw [List.foldlM_append, bind_eq_ok]
  refine exists_congr fun s' => and_congr_right fun _ => ?_
  rw [List.foldlM_cons, bind_eq_ok]
  constructor
  · rintro ⟨t', ht, h⟩
    cases h
    exact ht
  · exact fun h => ⟨t, h, rfl⟩

theorem foldlM_eq_error {f : σ → α → Except ε σ} {l : List α} {s : σ} {e : ε}
    (h : l.foldlM f s = .error e) : ∃ a ∈ l, ∃ s', f s' a = .error e := by
  induction l generalizing s with
  | nil => cases h
  | cons a l ih =>
    rw [List.foldlM_cons] at h
    rcases bind_eq_error.mp h with h | ⟨s', -, h⟩
    · exact ⟨a, List.mem_cons_self, s, h⟩
    · obtain ⟨b, hb, hs⟩ := ih h
      exact ⟨b, List.mem_cons_of_mem a hb, hs⟩

theorem eq_nil_of_foldl_eq_none {f : Option α → α → Option α} (hf : ∀ best a, f best a ≠ none)
    {l : List α} (h : l.foldl f none = none) : l = [] := by
  rcases List.eq_nil_or_concat l with rfl | ⟨l, a, rfl⟩
  · rfl
  · rw [List.concat_eq_append, List.foldl_append] at h
    exact absurd h (hf _ a)

theorem mem_of_foldl_eq_some {f : Option α → α → Option α}
    (hf : ∀ best a b, f best a = some b → b = a ∨ best = some b) {l : List α} {best : Option α}
    {b : α} (h : l.foldl f best = some b) : best = some b ∨ b ∈ l := by
  induction l generalizing best with
  | nil => exact .inl h
  | cons a l ih =>
    rcases ih h with h | h
    · rcases hf best a b h with rfl | h
      · exact .inr List.mem_cons_self
      · exact .inl h
    · exact .inr (List.mem_cons_of_mem a h)

theorem getElem?_convertEach {f : Nat → α → Except Fault β} {n : Nat} {l : List α} {r : List β}
    (h : Conversion.convertEach f n l = .ok r) :
    r.length = l.length ∧
      ∀ (i : Nat) (b : β), r[i]? = some b → ∃ a, l[i]? = some a ∧ f (n + i) a = .ok b := by
  induction l generalizing n r with
  | nil => cases h; simp
  | cons a l ih =>
    rw [Conversion.convertEach] at h
    obtain ⟨b, hb, h⟩ := bind_eq_ok.mp h
    obtain ⟨bs, hbs, h⟩ := bind_eq_ok.mp h
    cases h
    obtain ⟨hlen, hget⟩ := ih hbs
    refine ⟨by simp [hlen], fun i c hc => ?_⟩
    cases i with
    | zero =>
      simp only [List.getElem?_cons_zero, Option.some.injEq] at hc
      subst hc
      exact ⟨a, rfl, hb⟩
    | succ i =>
      obtain ⟨a', ha, hf⟩ := hget i c hc
      refine ⟨a', ha, ?_⟩
      rwa [show n + (i + 1) = n + 1 + i by omega]

theorem convertEach_eq_error {f : Nat → α → Except Fault β} {n : Nat} {l : List α} {e : Fault}
    (h : Conversion.convertEach f n l = .error e) :
    ∃ i a, l[i]? = some a ∧ f (n + i) a = .error e := by
  induction l generalizing n with
  | nil => cases h
  | cons a l ih =>
    rw [Conversion.convertEach] at h
    rcases bind_eq_error.mp h with h | ⟨b, -, h⟩
    · exact ⟨0, a, rfl, h⟩
    · have htail : Conversion.convertEach f (n + 1) l = .error e := by
        simpa [bind_eq_error] using h
      obtain ⟨i, a', ha, hf⟩ := ih htail
      refine ⟨i + 1, a', ha, ?_⟩
      rwa [show n + (i + 1) = n + 1 + i by omega]

theorem convertEach_congr {f g : Nat → α → Except Fault β} {n : Nat} {l : List α}
    (h : ∀ i, ∀ a ∈ l, f i a = g i a) :
    Conversion.convertEach f n l = Conversion.convertEach g n l := by
  induction l generalizing n with
  | nil => rfl
  | cons a l ih =>
    rw [Conversion.convertEach, Conversion.convertEach, h n a List.mem_cons_self,
      ih fun i b hb => h i b (List.mem_cons_of_mem a hb)]

theorem exists_getElem?_of_convertEach {f : Nat → α → Except Fault β} {n : Nat} {l : List α}
    {r : List β} (h : Conversion.convertEach f n l = .ok r) {i : Nat} {a : α}
    (ha : l[i]? = some a) : ∃ b, r[i]? = some b ∧ f (n + i) a = .ok b := by
  obtain ⟨hlen, hget⟩ := getElem?_convertEach h
  have hi : i < r.length := hlen ▸ (List.getElem?_eq_some_iff.mp ha).1
  have hb := List.getElem?_eq_getElem hi
  obtain ⟨a', ha', hf⟩ := hget i _ hb
  obtain rfl := Option.some.inj (ha.symm.trans ha')
  exact ⟨_, hb, hf⟩

theorem convertEach_of_error {f : Nat → α → Except Fault β} {n : Nat} {before after : List α}
    {a : α} {e : Fault} (hbefore : ∀ i b, before[i]? = some b → (f (n + i) b).isOk = true)
    (h : f (n + before.length) a = .error e) :
    Conversion.convertEach f n (before ++ a :: after) = .error e := by
  induction before generalizing n with
  | nil => exact bind_eq_error.mpr (.inl h)
  | cons b before ih =>
    obtain ⟨c, hc⟩ := exists_eq_ok (hbefore 0 b rfl)
    have hrest : Conversion.convertEach f (n + 1) (before ++ a :: after) = .error e := by
      apply ih
      · intro i b' hb'
        rw [Nat.add_right_comm]
        exact hbefore (i + 1) b' hb'
      · rw [Nat.add_right_comm]
        exact h
    exact bind_eq_error.mpr (.inr ⟨c, hc, bind_eq_error.mpr (.inl hrest)⟩)

/-! ## Sorted lists -/

section
variable {le : α → α → Bool}

theorem insertBy_eq_orderedInsert (a : α) (l : List α) :
    insertBy le a l = l.orderedInsert (fun a b => le a b = true) a := by
  induction l with
  | nil => rfl
  | cons b l ih => rw [insertBy, List.orderedInsert_cons, ih]

theorem sortBy_eq_insertionSort (l : List α) :
    sortBy le l = l.insertionSort fun a b => le a b = true := by
  induction l with
  | nil => rfl
  | cons a l ih =>
    rw [List.insertionSort_cons, ← ih, ← insertBy_eq_orderedInsert]
    rfl

theorem sortBy_perm (l : List α) : (sortBy le l).Perm l := by
  rw [sortBy_eq_insertionSort]
  exact List.perm_insertionSort _ l

theorem mem_sortBy {a : α} {l : List α} : a ∈ sortBy le l ↔ a ∈ l := (sortBy_perm l).mem_iff

theorem pairwise_sortBy (total : ∀ a b, le a b ∨ le b a)
    (trans : ∀ a b c, le a b → le b c → le a c) (l : List α) :
    (sortBy le l).Pairwise (le · ·) := by
  have : Std.Total fun a b => le a b = true := ⟨total⟩
  have : IsTrans α fun a b => le a b = true := ⟨trans⟩
  rw [sortBy_eq_insertionSort]
  exact List.pairwise_insertionSort _ l

end

/-! ## Groups -/

theorem flatMap_filter_perm [DecidableEq κ] (key : α → κ) {ks : List κ} (nodup : ks.Nodup) :
    ∀ {l : List α}, (∀ a ∈ l, key a ∈ ks) →
      (ks.flatMap fun k => l.filter (key · = k)).Perm l := by
  induction ks with
  | nil =>
    intro l cover
    cases l with
    | nil => exact .refl _
    | cons a l => exact absurd (cover a List.mem_cons_self) List.not_mem_nil
  | cons k ks ih =>
    intro l cover
    obtain ⟨hk, nodup⟩ := List.nodup_cons.mp nodup
    let rest := l.filter fun a => !decide (key a = k)
    have hrest : ∀ a ∈ rest, key a ∈ ks := by
      intro a ha
      simp only [rest, List.mem_filter, Bool.not_eq_true', decide_eq_false_iff_not] at ha
      exact (List.mem_cons.mp (cover a ha.1)).resolve_left ha.2
    -- the later keys do not see what the first one takes
    have same : (ks.flatMap fun j => l.filter (key · = j)) =
        ks.flatMap fun j => rest.filter (key · = j) := by
      apply List.flatMap_congr
      intro j hj
      have hjk : j ≠ k := fun e => hk (e ▸ hj)
      rw [List.filter_filter]
      apply List.filter_congr
      intro a _
      by_cases h : key a = j
      · simp [h, hjk]
      · simp [h]
    rw [List.flatMap_cons, same]
    exact ((ih nodup hrest).append_left _).trans (List.filter_append_perm _ l)

theorem exists_first {p : α → Prop} [DecidablePred p] {l : List α} (h : ∃ a ∈ l, p a) :
    ∃ before a after, l = before ++ a :: after ∧ (∀ b ∈ before, ¬p b) ∧ p a := by
  obtain ⟨a, ha, hp⟩ := h
  have hsome : (l.find? fun b => decide (p b)).isSome :=
    List.find?_isSome.mpr ⟨a, ha, decide_eq_true hp⟩
  obtain ⟨first, hfirst⟩ := Option.isSome_iff_exists.mp hsome
  obtain ⟨hp, before, after, hl, hbefore⟩ := List.find?_eq_some_iff_append.mp hfirst
  exact ⟨before, first, after, hl, fun b hb => by simpa using hbefore b hb, of_decide_eq_true hp⟩

theorem singletons_or_several {l : List α} {l' : List β} (hlen : l.length = l'.length) :
    (∃ a b, l = [a] ∧ l' = [b]) ∨ (∀ a, l ≠ [a]) ∧ ∀ b, l' ≠ [b] := by
  by_cases hone : l.length = 1
  · obtain ⟨a, rfl⟩ := List.length_eq_one_iff.mp hone
    obtain ⟨b, rfl⟩ := List.length_eq_one_iff.mp hlen.symm
    exact .inl ⟨a, b, rfl, rfl⟩
  · refine .inr ⟨?_, ?_⟩
    · rintro a rfl
      exact hone rfl
    · rintro b rfl
      exact hone hlen

theorem exists_ne_of_nodup {l : List α} (nodup : l.Nodup) (several : ∀ a, l ≠ [a]) {a : α}
    (ha : a ∈ l) : ∃ b ∈ l, b ≠ a := by
  by_contra hall
  simp only [not_exists, not_and, ne_eq, not_not] at hall
  cases l with
  | nil => cases ha
  | cons b l =>
    obtain rfl := hall b List.mem_cons_self
    cases l with
    | nil => exact several b rfl
    | cons c l =>
      obtain rfl := hall c (by simp)
      simp at nodup

/-- Lists whose elements tell their owner make up a list without repetitions. -/
theorem nodup_flatMap_of_key {key : α → κ} {f : α → List β} {l : List α} (keys : (l.map key).Nodup)
    (each : ∀ a ∈ l, (f a).Nodup)
    (tell : ∀ a ∈ l, ∀ b ∈ l, ∀ x ∈ f a, x ∈ f b → key a = key b) : (l.flatMap f).Nodup := by
  refine List.pairwise_flatMap.mpr ⟨each, ?_⟩
  refine (List.pairwise_map.mp keys).imp_of_mem fun {a b} ha hb hne x hx y hy hxy => ?_
  subst hxy
  exact hne (tell a ha b hb x hx hy)

theorem nodup_eraseDups [DecidableEq α] (l : List α) : l.eraseDups.Nodup := by
  induction hn : l.length using Nat.strongRecOn generalizing l with
  | ind n ih =>
    cases l with
    | nil => exact List.nodup_nil
    | cons a l =>
      rw [List.eraseDups_cons]
      refine List.nodup_cons.mpr ⟨?_, ih _ ?_ _ rfl⟩
      · rw [List.mem_eraseDups]
        simp
      · have := List.length_filter_le (fun b => !b == a) l
        simp only [List.length_cons] at hn
        omega

theorem eraseDups_of_nodup [DecidableEq α] {l : List α} (h : l.Nodup) : l.eraseDups = l := by
  induction l with
  | nil => rfl
  | cons a l ih =>
    obtain ⟨ha, hl⟩ := List.nodup_cons.mp h
    have hfilter : l.filter (fun b => !b == a) = l := by
      rw [List.filter_eq_self]
      intro b hb
      have hne : b ≠ a := fun e => ha (e ▸ hb)
      simpa using hne
    rw [List.eraseDups_cons, hfilter, ih hl]

theorem eraseDups_perm [DecidableEq α] {l l' : List α} (perm : l.Perm l') :
    l.eraseDups.Perm l'.eraseDups := by
  refine (List.perm_ext_iff_of_nodup (nodup_eraseDups l) (nodup_eraseDups l')).mpr fun a => ?_
  rw [List.mem_eraseDups, List.mem_eraseDups, perm.mem_iff]

end Stowage
