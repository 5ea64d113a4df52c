import Stowage.Proofs.Nesting

/-!
# Conflicts of mounts

A merge that fails blames one of the declarations that it was given, and names the target of that
declaration or the directory around it.
-/

namespace Stowage.Merge

/-- Conflicts at a declaration, in the path of its target or of the directory around it. -/
inductive Blames (es : List Entry) : Fault → Prop
  | target {e reason} : e ∈ es → Blames es (e.conflict e.target reason)
  | parent {e path reason} : e ∈ es → Path.parent? e.target.toList = some path.toList →
      Blames es (e.conflict path reason)

theorem Placed.blames {es : List Entry} {anchor : String} {m : Member}
    (h : Placed es (.anchored anchor m)) (reason : String) :
    Blames es (m.entry.conflict anchor reason) := by
  rcases h.anchor_cases with ha | hd
  · rw [ha]
    exact .target h.fits.mem
  · exact .parent h.fits.mem hd

/-! ## Placing -/

theorem placeShared_eq_error {target : String} {l : List Entry} {seen : List (Option String)}
    {f : Fault} (h : placeShared target seen l = .error f) :
    ∃ e ∈ l, ∃ reason, f = e.conflict target reason := by
  induction l generalizing seen with
  | nil => cases h
  | cons e l ih =>
    unfold placeShared at h
    split at h
    · cases h
      exact ⟨e, List.mem_cons_self, _, rfl⟩
    · split at h
      · cases h
        exact ⟨e, List.mem_cons_self, _, rfl⟩
      · obtain ⟨e', he', hf⟩ := ih (map_eq_error.mp h)
        exact ⟨e', List.mem_cons_of_mem e he', hf⟩

theorem placements_eq_error {es : List Entry} {f : Fault} (h : placements es = .error f) :
    Blames es f := by
  obtain ⟨before, t, after, -, -, ht⟩ := mapM_eq_error.mp (map_eq_error.mp h)
  unfold placeGroup at ht
  split at ht
  · cases ht
  · obtain ⟨e, he, reason, rfl⟩ := placeShared_eq_error ht
    obtain ⟨hmem, rfl⟩ : e ∈ es ∧ e.target = t := by simpa using he
    exact .target hmem

/-! ## Points -/

theorem mem_of_firstOverlap?_eq_some {earlier l : List Member} {m : Member}
    (h : firstOverlap? earlier l = some m) : m ∈ l := by
  induction l generalizing earlier with
  | nil => cases h
  | cons m' l ih =>
    unfold firstOverlap? at h
    split at h
    · cases h
      exact List.mem_cons_self
    · exact List.mem_cons_of_mem m' (ih h)

section
variable {es : List Entry} {ps : List Placement} (placed : ∀ p ∈ ps, Placed es p)
include placed

theorem points_eq_error {f : Fault} (h : points ps = .error f) : Blames es f := by
  obtain ⟨before, a, after, -, -, ha⟩ := mapM_eq_error.mp (map_eq_error.mp h)
  unfold pointAt at ha
  simp only at ha
  split at ha
  · next m hm =>
    cases ha
    have hm := (inOrder_perm _).mem_iff.mp (mem_of_firstOverlap?_eq_some hm)
    exact (placed _ (mem_filterMap_anchoredAt?.mp hm)).blames _
  · cases ha

theorem conflict_blames {l : List Point} (h : points ps = .ok l) {p : Point} (hp : p ∈ l)
    (sound : p.Sound es) (reason : String) : Blames es (p.conflict reason) := by
  cases p with
  | plain e =>
    cases sound with
    | plain he => exact .target he
  | projection dir ms =>
    rw [points_eq_ok h, List.mem_append] at hp
    have hms : ∀ m ∈ ms, .anchored dir m ∈ ps := by
      intro m hm
      rcases hp with hp | hp
      · obtain ⟨q, -, hq⟩ := List.mem_filterMap.mp hp
        cases q <;> cases hq
      · obtain ⟨a, -, ha⟩ := List.mem_map.mp hp
        cases ha
        exact mem_filterMap_anchoredAt?.mp ((inOrder_perm _).mem_iff.mp hm)
    cases ms with
    | nil => exact absurd rfl sound.entries_ne_nil
    | cons m ms =>
      -- the first member is blamed, and if it is the only one its target may be the path
      have hm := placed _ (hms m List.mem_cons_self)
      show Blames es (m.entry.conflict (Point.projection dir (m :: ms)).path reason)
      cases ms with
      | cons m' ms => exact hm.blames reason
      | nil =>
        by_cases hkey : m.isKeyed = true
        · simp only [Point.path, if_pos hkey]
          exact .target hm.fits.mem
        · simp only [Point.path, if_neg hkey]
          exact hm.blames reason

end

/-! ## Merging -/

theorem addPoint_eq_error {kept : List Point} {p : Point} {f : Fault}
    (h : addPoint kept p = .error f) : ∃ reason, f = p.conflict reason := by
  unfold addPoint at h
  split at h
  · cases h
  · split at h
    · cases h
      exact ⟨_, rfl⟩
    · split at h
      · cases h
      · cases h
        exact ⟨_, rfl⟩

theorem mounts_eq_error {container : String} {plans : List Plan} {f : Fault}
    (h : mounts container plans = .error f) : Blames (entriesFrom 0 plans) f := by
  rcases bind_eq_error.mp (map_eq_error.mp h) with h | ⟨ps, hps, h⟩
  · exact placements_eq_error h
  · obtain ⟨perm, placed⟩ := placements_placed (nodup_entriesFrom plans) hps
    rcases bind_eq_error.mp h with h | ⟨l, hl, h⟩
    · exact points_eq_error placed h
    · rcases bind_eq_error.mp h with h | ⟨kept, -, h⟩
      · obtain ⟨p, hp, kept, hadd⟩ := foldlM_eq_error h
        obtain ⟨reason, rfl⟩ := addPoint_eq_error hadd
        have hp : p ∈ l := (sortBy_perm l).mem_iff.mp hp
        exact conflict_blames placed hl hp (points_sound perm placed hl p hp) reason
      · cases h

end Stowage.Merge
