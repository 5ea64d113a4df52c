import Mathlib.Data.List.Nodup
import Stowage.Mount.Merge
import Stowage.Proofs.PathSegments
import Stowage.Proofs.Runs

/-!
# Where declarations are placed

Before nesting is looked at, every declaration has one place: it is plain, or a member of the point
at an anchor. A member with an item puts it where its declaration wants it, whatever the directory.
-/

namespace Stowage.Merge

/-! ## Declarations -/

theorem entriesFrom_eq (n : Nat) (l : List Plan) :
    entriesFrom n l = (l.zipIdx n).map fun x => ⟨x.2, x.1⟩ := by
  induction l generalizing n with
  | nil => rfl
  | cons p l ih => rw [entriesFrom, ih, List.zipIdx_cons, List.map_cons]

theorem getElem?_entriesFrom (l : List Plan) (i : Nat) :
    (entriesFrom 0 l)[i]? = l[i]?.map (Entry.mk i) := by
  rw [entriesFrom_eq, List.getElem?_map, List.getElem?_zipIdx, Option.map_map, Nat.zero_add]
  rfl

theorem length_entriesFrom (n : Nat) (l : List Plan) : (entriesFrom n l).length = l.length := by
  rw [entriesFrom_eq, List.length_map, List.length_zipIdx]

theorem mem_entriesFrom {l : List Plan} {e : Entry} :
    e ∈ entriesFrom 0 l ↔ l[e.position]? = some e.plan := by
  rw [entriesFrom_eq, List.mem_map]
  constructor
  · rintro ⟨⟨p, i⟩, hp, rfl⟩
    exact List.mem_zipIdx_iff_getElem?.mp hp
  · intro h
    exact ⟨(e.plan, e.position), List.mem_zipIdx_iff_getElem?.mpr h, rfl⟩

theorem eq_of_position_eq {l : List Plan} {e e' : Entry} (he : e ∈ entriesFrom 0 l)
    (he' : e' ∈ entriesFrom 0 l) (h : e.position = e'.position) : e = e' := by
  obtain ⟨i, p⟩ := e
  obtain ⟨j, q⟩ := e'
  obtain rfl : i = j := h
  rw [mem_entriesFrom] at he he'
  obtain rfl : p = q := Option.some.inj (he.symm.trans he')
  rfl

theorem nodup_entriesFrom (l : List Plan) : (entriesFrom 0 l).Nodup := by
  have : ((entriesFrom 0 l).map Entry.position).Nodup := by
    rw [entriesFrom_eq, List.map_map, show Entry.position ∘ (fun x : Plan × Nat => ⟨x.2, x.1⟩) =
      Prod.snd from rfl, List.zipIdx_map_snd]
    exact List.nodup_range'
  exact this.of_map _

def Shared (es : List Entry) (e : Entry) : Prop := ∃ e' ∈ es, e' ≠ e ∧ e'.target = e.target

instance (es : List Entry) (e : Entry) : Decidable (Shared es e) :=
  inferInstanceAs (Decidable (∃ e' ∈ es, _))

/-- Where a declaration is found in the container. A shared target is a directory, in which a key
has its own name. -/
def location (es : List Entry) (e : Entry) : List (List Char) :=
  match e.subPath with
  | some key =>
    if Shared es e then Path.segments e.target.toList ++ Path.segments key.toList
    else Path.segments e.target.toList
  | none => Path.segments e.target.toList

theorem target_prefix_location (es : List Entry) (e : Entry) :
    Path.segments e.target.toList <+: location es e := by
  unfold location
  cases e.subPath with
  | none => exact List.prefix_refl _
  | some key =>
    simp only
    split
    · exact List.prefix_append _ _
    · exact List.prefix_refl _

/-! ## Placements -/

structure Member.Fits (es : List Entry) (dir : String) (m : Member) : Prop where
  mem : m.entry ∈ es
  source : m.entry.source? = some m.source
  whole : m.entry.subPath = none → m.items = none ∧ dir = m.entry.target
  keyed : ∀ key, m.entry.subPath = some key →
    ∃ path, m.items = some [⟨key, path, m.source.mode⟩] ∧
      Path.segments dir.toList ++ Path.segments path.toList = location es m.entry

theorem Member.Fits.isKeyed {es : List Entry} {dir : String} {m : Member} (h : m.Fits es dir) :
    m.isKeyed = m.entry.subPath.isSome := by
  cases hs : m.entry.subPath with
  | none => simp [Member.isKeyed, (h.whole hs).1]
  | some key =>
    obtain ⟨path, hp, -⟩ := h.keyed key hs
    simp [Member.isKeyed, hp]

def Placement.entry : Placement → Entry
  | .plain e => e
  | .anchored _ m => m.entry

/-- The places that the declarations `es` can have. -/
inductive Placed (es : List Entry) : Placement → Prop
  | plain {e} : e ∈ es → ¬Shared es e → Placed es (.plain e)
  | whole {e s} : e ∈ es → e.source? = some s → e.subPath = none →
      Placed es (.anchored e.target ⟨e, s, none⟩)
  | alone {e s key dir} : e ∈ es → e.source? = some s → e.subPath = some key → ¬Shared es e →
      Path.parent? e.target.toList = some dir →
      Placed es (.anchored (String.ofList dir)
        (.ofKey e s key (String.ofList (Path.baseName e.target.toList))))
  | shared {e s key} : e ∈ es → e.source? = some s → e.subPath = some key → Shared es e →
      Placed es (.anchored e.target (.ofKey e s key key))

theorem Placed.fits {es : List Entry} {anchor : String} {m : Member}
    (h : Placed es (.anchored anchor m)) : m.Fits es anchor := by
  cases h with
  | whole he hs hp => exact ⟨he, hs, fun _ => ⟨rfl, rfl⟩, fun key hk => by simp [hp] at hk⟩
  | @alone e s key dir he hs hp hn hd =>
    refine ⟨he, hs, fun hw => by simp [Member.ofKey, hp] at hw, fun k hk => ?_⟩
    obtain rfl : key = k := Option.some.inj (hp.symm.trans hk)
    refine ⟨_, rfl, ?_⟩
    obtain ⟨hsplit, -⟩ := Path.parent?_eq_some hd
    have : location es e = Path.segments e.target.toList := by simp [location, hp, hn]
    simp only [Member.ofKey, String.toList_ofList, this]
    rw [← Path.segments_append_slash, ← hsplit]
  | @shared e s key he hs hp hn =>
    refine ⟨he, hs, fun hw => by simp [Member.ofKey, hp] at hw, fun k hk => ?_⟩
    obtain rfl : key = k := Option.some.inj (hp.symm.trans hk)
    exact ⟨_, rfl, by simp [Member.ofKey, location, hp, hn]⟩

theorem Placed.anchor_cases {es : List Entry} {anchor : String} {m : Member}
    (h : Placed es (.anchored anchor m)) :
    anchor = m.entry.target ∨ Path.parent? m.entry.target.toList = some anchor.toList := by
  cases h with
  | whole => exact .inl rfl
  | alone _ _ _ _ hd => exact .inr (by simpa [Member.ofKey] using hd)
  | shared => exact .inl rfl

theorem Placed.of_shared {es : List Entry} {p : Placement} (h : Placed es p)
    (hs : Shared es p.entry) : ∃ m, p = .anchored p.entry.target m := by
  cases h with
  | plain _ hn => exact absurd hs hn
  | whole => exact ⟨_, rfl⟩
  | alone _ _ _ hn => exact absurd hs hn
  | shared => exact ⟨_, rfl⟩

/-! ## Targets -/

theorem placeAlone_placed {es : List Entry} {e : Entry} (he : e ∈ es) (hn : ¬Shared es e) :
    (placeAlone e).entry = e ∧ Placed es (placeAlone e) := by
  unfold placeAlone
  cases hs : e.source? with
  | none => exact ⟨rfl, .plain he hn⟩
  | some s =>
    cases hp : e.subPath with
    | none => exact ⟨rfl, .whole he hs hp⟩
    | some key =>
      simp only
      cases hd : Path.parent? e.target.toList with
      | none => exact ⟨rfl, .plain he hn⟩
      | some dir => exact ⟨rfl, .alone he hs hp hn hd⟩

theorem placeShared_placed {es : List Entry} {target : String} {l : List Entry}
    (hl : ∀ e ∈ l, e ∈ es ∧ e.target = target ∧ Shared es e) {seen : List (Option String)}
    {ps : List Placement} (h : placeShared target seen l = .ok ps) :
    ps.map Placement.entry = l ∧ ∀ p ∈ ps, Placed es p := by
  induction l generalizing seen ps with
  | nil => cases h; simp
  | cons e l ih =>
    obtain ⟨he, rfl, hsh⟩ := hl e List.mem_cons_self
    unfold placeShared at h
    cases hs : e.source? with
    | none => simp [hs] at h
    | some s =>
      simp only [hs] at h
      split at h
      · cases h
      · obtain ⟨ps', hps, rfl⟩ := map_eq_ok.mp h
        obtain ⟨hmap, hall⟩ := ih (fun e he => hl e (List.mem_cons_of_mem _ he)) hps
        cases hp : e.subPath with
        | none =>
          refine ⟨by simp [Placement.entry, hmap], ?_⟩
          simpa using ⟨.whole he hs hp, hall⟩
        | some key =>
          refine ⟨by simp [Placement.entry, Member.ofKey, hmap], ?_⟩
          simpa using ⟨.shared he hs hp hsh, hall⟩

theorem placeGroup_placed {es : List Entry} (nodup : es.Nodup) {target : String}
    {ps : List Placement} (h : placeGroup target (es.filter (·.target = target)) = .ok ps) :
    ps.map Placement.entry = es.filter (·.target = target) ∧ ∀ p ∈ ps, Placed es p := by
  have hmem : ∀ e ∈ es.filter (·.target = target), e ∈ es ∧ e.target = target := by simp
  have hgroup := nodup.filter (·.target = target)
  unfold placeGroup at h
  split at h
  · next e hg =>
    cases h
    obtain ⟨he, ht⟩ := hmem e (by simp [hg])
    have hn : ¬Shared es e := by
      rintro ⟨e', he', hne, ht'⟩
      have : e' ∈ es.filter (·.target = target) := by simp [he', ht', ht]
      exact hne (by simpa [hg] using this)
    obtain ⟨hentry, hplaced⟩ := placeAlone_placed he hn
    exact ⟨by simp [hg, hentry], by simpa using hplaced⟩
  · next hg =>
    -- a group of several has another member beside each one
    refine placeShared_placed (fun e he => ⟨(hmem e he).1, (hmem e he).2, ?_⟩) h
    obtain ⟨e', he', hne⟩ := exists_ne_of_nodup hgroup hg he
    exact ⟨e', (hmem e' he').1, hne, (hmem e' he').2.trans (hmem e he).2.symm⟩

theorem placements_placed {es : List Entry} (nodup : es.Nodup) {ps : List Placement}
    (h : placements es = .ok ps) :
    (ps.map Placement.entry).Perm es ∧ ∀ p ∈ ps, Placed es p := by
  obtain ⟨groups, hg, rfl⟩ := map_eq_ok.mp h
  have hgroups := forall₂_of_mapM_eq_ok hg
  have key : ∀ {ts groups}, List.Forall₂ (fun t ps =>
        placeGroup t (es.filter (·.target = t)) = .ok ps) ts groups →
      groups.flatten.map Placement.entry = ts.flatMap (fun t => es.filter (·.target = t)) ∧
        ∀ p ∈ groups.flatten, Placed es p := by
    intro ts groups hgs
    induction hgs with
    | nil => simp
    | cons hp _ ih =>
      obtain ⟨h1, h2⟩ := placeGroup_placed nodup hp
      refine ⟨by simp [h1, ih.1], fun p hp => ?_⟩
      rcases List.mem_append.mp hp with hp | hp
      · exact h2 p hp
      · exact ih.2 p hp
  obtain ⟨hmap, hplaced⟩ := key hgroups
  refine ⟨?_, hplaced⟩
  rw [hmap]
  refine flatMap_filter_perm Entry.target (nodup_eraseDups _) fun e he => ?_
  rw [List.mem_eraseDups]
  exact List.mem_map_of_mem he

end Stowage.Merge
