import Stowage.Proofs.Placing

/-!
# Mount points before nesting

The points of the placements own each declaration once, and a point that stands for one declaration
stands where that declaration wants it.
-/

namespace Stowage.Merge

def Point.entries : Point → List Entry
  | .plain e => [e]
  | .projection _ ms => ms.map Member.entry

theorem Point.path_cases (p : Point) : p.path = p.dir ∨ ∃ e ∈ p.entries, p.path = e.target := by
  match p with
  | .plain e => exact .inl rfl
  | .projection d [] => exact .inl rfl
  | .projection d [m] =>
    by_cases hk : m.isKeyed = true
    · exact .inr ⟨m.entry, List.mem_cons_self, by simp [path, hk]⟩
    · exact .inl (by simp [path, dir, hk])
  | .projection d (_ :: _ :: _) => exact .inl rfl

/-- The points that the declarations `es` can make. -/
inductive Point.Sound (es : List Entry) : Point → Prop
  | plain {e} : e ∈ es → ¬Shared es e → Sound es (.plain e)
  | single {dir m} : m.Fits es dir → ¬Shared es m.entry →
      (m.isKeyed → Path.parent? m.entry.target.toList = some dir.toList) →
      Sound es (.projection dir [m])
  | merged {dir ms} : 1 < ms.length → (∀ m ∈ ms, m.Fits es dir) → Sound es (.projection dir ms)

namespace Point.Sound
variable {es : List Entry}

theorem entries_ne_nil {p : Point} (h : p.Sound es) : p.entries ≠ [] := by
  cases h with
  | plain => simp [entries]
  | single => simp [entries]
  | merged hlen =>
    intro hnil
    simp only [entries, List.map_eq_nil_iff] at hnil
    simp [hnil] at hlen

theorem fits {dir : String} {ms : List Member} (h : Point.Sound es (.projection dir ms)) :
    ∀ m ∈ ms, m.Fits es dir := by
  cases h with
  | single hm => simpa using hm
  | merged _ hms => exact hms

theorem mem {p : Point} (h : p.Sound es) : ∀ e ∈ p.entries, e ∈ es := by
  cases p with
  | plain e =>
    cases h with
    | plain he _ => simpa [entries] using he
  | projection dir ms =>
    intro e he
    obtain ⟨m, hm, rfl⟩ := List.mem_map.mp he
    exact (h.fits m hm).mem

theorem path_eq_dir {dir : String} {ms : List Member}
    (h : (Point.projection dir ms).aggregates = true) : (Point.projection dir ms).path = dir := by
  simp only [aggregates, Bool.or_eq_true, decide_eq_true_eq, List.any_eq_true] at h
  match ms, h with
  | [], _ => rfl
  | [m], .inr ⟨m', hm, hw⟩ =>
    obtain rfl : m' = m := by simpa using hm
    simp only [Member.isWhole, Option.isNone_iff_eq_none] at hw
    simp [path, Member.isKeyed, hw]
  | _ :: _ :: _, _ => rfl

/-- What a point owns is found at its mount path or below it. -/
theorem path_prefix_location {p : Point} (h : p.Sound es) :
    ∀ e ∈ p.entries, Path.segments p.path.toList <+: location es e := by
  have below {dir : String} {m : Member} (hm : m.Fits es dir) :
      Path.segments dir.toList <+: location es m.entry := by
    cases hs : m.entry.subPath with
    | none =>
      rw [(hm.whole hs).2]
      exact target_prefix_location es _
    | some key =>
      obtain ⟨path, -, hloc⟩ := hm.keyed key hs
      exact ⟨_, hloc⟩
  cases h with
  | @plain e _ _ => simpa [entries, path] using target_prefix_location es e
  | @single dir m hm _ _ =>
    simp only [entries, List.map_cons, List.map_nil, List.mem_singleton, forall_eq, path]
    split
    · exact target_prefix_location es _
    · exact below hm
  | @merged dir ms hlen hms =>
    have hdir : (Point.projection dir ms).path = dir := path_eq_dir (by simp [aggregates, hlen])
    intro e he
    obtain ⟨m, hm, rfl⟩ := List.mem_map.mp he
    rw [hdir]
    exact below (hms m hm)

end Point.Sound

/-! ## Members by anchor -/

def anchored? : Placement → Option (String × Member)
  | .plain _ => none
  | .anchored a m => some (a, m)

theorem filterMap_anchoredAt? (ps : List Placement) (a : String) :
    ps.filterMap (anchoredAt? a) =
      ((ps.filterMap anchored?).filter (·.1 = a)).map Prod.snd := by
  induction ps with
  | nil => rfl
  | cons p ps ih =>
    cases p with
    | plain e => simpa [List.filterMap_cons, anchoredAt?, anchored?] using ih
    | anchored b m =>
      by_cases h : b = a
      · simp [anchoredAt?, anchored?, h, ih]
      · simp [anchoredAt?, anchored?, h, ih]

theorem filterMap_anchor? (ps : List Placement) :
    ps.filterMap anchor? = (ps.filterMap anchored?).map Prod.fst := by
  induction ps with
  | nil => rfl
  | cons p ps ih => cases p <;> simp [List.filterMap_cons, anchor?, anchored?, ih]

theorem entries_perm (ps : List Placement) :
    ((ps.filterMap plain?).flatMap Point.entries ++
      (ps.filterMap anchored?).map (·.2.entry)).Perm (ps.map Placement.entry) := by
  induction ps with
  | nil => exact .refl _
  | cons p ps ih =>
    cases p with
    | plain e =>
      simpa [List.filterMap_cons, plain?, anchored?, Point.entries, Placement.entry] using ih
    | anchored a m =>
      simp only [plain?, anchored?, List.filterMap_cons, List.map_cons, Placement.entry]
      exact List.perm_middle.trans (ih.cons _)

/-! ## The points -/

theorem inOrder_perm (l : List Member) : (inOrder l).Perm l := sortBy_perm l

theorem points_eq_ok {ps : List Placement} {l : List Point} (h : points ps = .ok l) :
    l = ps.filterMap plain? ++
      (anchors ps).map fun a => .projection a (inOrder (ps.filterMap (anchoredAt? a))) := by
  obtain ⟨l', hl, rfl⟩ := map_eq_ok.mp h
  congr 1
  have pointAt_eq {a : String} {p : Point} (hp : pointAt ps a = .ok p) :
      p = .projection a (inOrder (ps.filterMap (anchoredAt? a))) := by
    unfold pointAt at hp
    simp only at hp
    split at hp
    · cases hp
    · cases hp
      rfl
  have key : ∀ {as l}, List.Forall₂ (fun a p => pointAt ps a = .ok p) as l →
      l = as.map fun a => .projection a (inOrder (ps.filterMap (anchoredAt? a))) := by
    intro as l hpts
    induction hpts with
    | nil => rfl
    | cons hp _ ih => rw [List.map_cons, pointAt_eq hp, ih]
  exact key (forall₂_of_mapM_eq_ok hl)

theorem points_entries_perm {ps : List Placement} {l : List Point} (h : points ps = .ok l) :
    (l.flatMap Point.entries).Perm (ps.map Placement.entry) := by
  rw [points_eq_ok h, List.flatMap_append, List.flatMap_map]
  refine .trans (.append_left _ ?_) (entries_perm ps)
  let pairs := ps.filterMap anchored?
  have group : ∀ a ∈ anchors ps, (Point.projection a
      (inOrder (ps.filterMap (anchoredAt? a)))).entries.Perm
        ((pairs.filter (·.1 = a)).map (·.2.entry)) := by
    intro a _
    rw [filterMap_anchoredAt?]
    have := (inOrder_perm ((pairs.filter (·.1 = a)).map Prod.snd)).map Member.entry
    rwa [List.map_map] at this
  refine (List.Perm.flatMap_left _ group).trans ?_
  rw [← List.map_flatMap]
  refine (flatMap_filter_perm Prod.fst (nodup_eraseDups _) fun x hx => ?_).map _
  rw [List.mem_eraseDups, filterMap_anchor?]
  exact List.mem_map_of_mem hx

theorem mem_filterMap_anchoredAt? {ps : List Placement} {a : String} {m : Member} :
    m ∈ ps.filterMap (anchoredAt? a) ↔ .anchored a m ∈ ps := by
  rw [List.mem_filterMap]
  constructor
  · rintro ⟨p, hp, h⟩
    cases p with
    | plain e => cases h
    | anchored b m' =>
      simp only [anchoredAt?] at h
      split at h
      · next e =>
        cases h
        exact e ▸ hp
      · cases h
  · intro h
    exact ⟨_, h, by simp [anchoredAt?]⟩

theorem not_shared_of_single {es : List Entry} {ps : List Placement}
    (cover : ∀ e ∈ es, ∃ p ∈ ps, p.entry = e) (placed : ∀ p ∈ ps, Placed es p) {a : String}
    {m : Member} (h : ps.filterMap (anchoredAt? a) = [m]) : ¬Shared es m.entry := by
  intro hs
  have hm : .anchored a m ∈ ps := mem_filterMap_anchoredAt?.mp (h ▸ List.mem_cons_self)
  obtain ⟨m', hm'⟩ := (placed _ hm).of_shared hs
  have ha : a = m.entry.target := (Placement.anchored.inj hm').1
  obtain ⟨e, he, hne, ht⟩ := hs
  obtain ⟨p, hp, rfl⟩ := cover e he
  have hs' : Shared es p.entry := ⟨m.entry, (placed _ hm).fits.mem, Ne.symm hne, ht.symm⟩
  obtain ⟨m₁, hm₁⟩ := (placed p hp).of_shared hs'
  rw [hm₁, ht, ← ha] at hp
  have : m₁ ∈ [m] := h ▸ mem_filterMap_anchoredAt?.mpr hp
  rw [List.mem_singleton] at this
  subst this
  exact hne (by rw [hm₁]; rfl)

theorem points_path {es : List Entry} {ps : List Placement} (placed : ∀ p ∈ ps, Placed es p)
    {l : List Point} (h : points ps = .ok l) :
    ∀ p ∈ l, ∃ e ∈ es, p.path = e.target ∨
      Path.parent? e.target.toList = some p.path.toList := by
  intro p hp
  rw [points_eq_ok h, List.mem_append] at hp
  rcases hp with hp | hp
  · obtain ⟨q, hq, hqp⟩ := List.mem_filterMap.mp hp
    cases placed q hq with
    | @plain e he _ =>
      cases hqp
      exact ⟨e, he, .inl rfl⟩
    | _ => cases hqp
  · obtain ⟨a, ha, rfl⟩ := List.mem_map.mp hp
    rcases Point.path_cases (.projection a (inOrder (ps.filterMap (anchoredAt? a)))) with
      hpath | ⟨e, he, hpath⟩
    · rw [anchors, List.mem_eraseDups] at ha
      obtain ⟨q, hq, hqa⟩ := List.mem_filterMap.mp ha
      cases q with
      | plain e => cases hqa
      | anchored b m =>
        cases hqa
        rw [hpath]
        exact ⟨m.entry, (placed _ hq).fits.mem, (placed _ hq).anchor_cases⟩
    · obtain ⟨m, hm, rfl⟩ := List.mem_map.mp he
      have hm := mem_filterMap_anchoredAt?.mp ((inOrder_perm _).mem_iff.mp hm)
      exact ⟨m.entry, (placed _ hm).fits.mem, .inl hpath⟩

theorem anchor_sound {es : List Entry} {ps : List Placement}
    (perm : (ps.map Placement.entry).Perm es) (placed : ∀ p ∈ ps, Placed es p) {a : String}
    (ha : a ∈ anchors ps) :
    (Point.projection a (inOrder (ps.filterMap (anchoredAt? a)))).Sound es := by
  have hfits : ∀ m ∈ ps.filterMap (anchoredAt? a), m.Fits es a := fun m hm =>
    (placed _ (mem_filterMap_anchoredAt?.mp hm)).fits
  have hne : ps.filterMap (anchoredAt? a) ≠ [] := by
    rw [anchors, List.mem_eraseDups] at ha
    obtain ⟨q, hq, hqa⟩ := List.mem_filterMap.mp ha
    cases q with
    | plain e => cases hqa
    | anchored b m =>
      cases hqa
      exact List.ne_nil_of_mem (mem_filterMap_anchoredAt?.mpr hq)
  -- one member is mounted at its own target, several meet at the anchor
  cases hms : ps.filterMap (anchoredAt? a) with
  | nil => exact absurd hms hne
  | cons m ms =>
    cases ms with
    | nil =>
      have hm : .anchored a m ∈ ps := mem_filterMap_anchoredAt?.mp (hms ▸ List.mem_cons_self)
      have cover : ∀ e ∈ es, ∃ p ∈ ps, p.entry = e := fun e he =>
        List.mem_map.mp (perm.mem_iff.mpr he)
      have hn := not_shared_of_single cover placed hms
      refine .single (hfits m (by simp [hms])) hn ?_
      have := placed _ hm
      cases this with
      | whole => simp [Member.isKeyed]
      | alone _ _ _ _ hd => simpa [Member.ofKey] using fun _ => hd
      | shared _ _ _ hs => exact absurd hs hn
    | cons m' ms =>
      have hperm := inOrder_perm (m :: m' :: ms)
      refine .merged (by simp [hperm.length_eq]) fun x hx => ?_
      exact hfits x (hms ▸ hperm.mem_iff.mp hx)

theorem points_sound {es : List Entry} {ps : List Placement}
    (perm : (ps.map Placement.entry).Perm es) (placed : ∀ p ∈ ps, Placed es p) {l : List Point}
    (h : points ps = .ok l) : ∀ p ∈ l, p.Sound es := by
  intro p hp
  rw [points_eq_ok h, List.mem_append] at hp
  rcases hp with hp | hp
  · obtain ⟨q, hq, hqp⟩ := List.mem_filterMap.mp hp
    have := placed q hq
    cases this with
    | plain he hn =>
      cases hqp
      exact .plain he hn
    | _ => cases hqp
  · obtain ⟨a, ha, rfl⟩ := List.mem_map.mp hp
    exact anchor_sound perm placed ha

end Stowage.Merge
