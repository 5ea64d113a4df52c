import Mathlib.Logic.Function.Basic
import Stowage.Proofs.Reordering

/-!
# Results in another order

What a container shows at its mounts, apart from order and from the numbers of projected volumes,
does not depend on the order of its declarations. The projections of a mount are read through the
name of its volume, so there no declared volume may have a generated name.
-/

namespace Stowage.Merge

/-! ## What mounts show -/

/-- A declared mount as it is, or a directory with its projections. -/
inductive Shown
  | verbatim (m : Manifest.Mount)
  | projected (path : String) (sources : Multiset Manifest.Projection)

def Point.shown : Point → Shown
  | plain e => .verbatim e.plan.mount
  | projection _ [m] => .verbatim m.entry.plan.mount
  | projection d ms => .projected d (ms.map Member.projection)

namespace Shown

def MountedAs (container : String) : Shown → Manifest.Mount → Prop
  | verbatim m, m' => m' = m
  | projected path _, m' => ∃ n, m' = ⟨projectedName container n, path, none, some true⟩

def ReadFrom (volumes : List Manifest.Volume) : Shown → Manifest.Mount → Prop
  | verbatim _, _ => True
  | projected _ sources, m => ∃ l : List Manifest.Projection, (l : Multiset _) = sources ∧
      Manifest.volumeNamed? volumes m.name = some ⟨m.name, .projected l⟩

end Shown

theorem shown_projection_of_several {dir : String} {ms : List Member} (h : ∀ m, ms ≠ [m]) :
    (Point.projection dir ms).shown = .projected dir (ms.map Member.projection) :=
  match ms, h with
  | [], _ => rfl
  | [m], h => absurd rfl (h m)
  | _ :: _ :: _, _ => rfl

theorem shown_congr {p p' : Point} (h : p.view = p'.view) : p.shown = p'.shown := by
  have hplan : p.plan? = p'.plan? := congrArg View.plan? h
  have hdir : p.dir = p'.dir := congrArg View.dir h
  have hmembers := congrArg View.members h
  cases p with
  | plain e =>
    cases p' with
    | plain e' => rw [Point.shown, Point.shown, Option.some.inj hplan]
    | projection dir' ms' => cases hplan
  | projection dir ms =>
    cases p' with
    | plain e' => cases hplan
    | projection dir' ms' =>
      obtain rfl : dir = dir' := hdir
      have hperm : (ms.map Member.unnumbered).Perm (ms'.map Member.unnumbered) :=
        Multiset.coe_eq_coe.mp hmembers
      have hlen : ms.length = ms'.length := by simpa using hperm.length_eq
      rcases singletons_or_several hlen with ⟨m, m', rfl, rfl⟩ | ⟨hms, hms'⟩
      · have hm : m.unnumbered = m'.unnumbered := by simpa using hperm
        have hmount := congrArg (·.entry.plan.mount) hm
        exact congrArg Shown.verbatim hmount
      · have hsources := hperm.map Member.projection
        rw [List.map_map, List.map_map] at hsources
        rw [shown_projection_of_several hms, shown_projection_of_several hms']
        exact congrArg _ (Multiset.coe_eq_coe.mpr hsources)

theorem map_perm_of_views_eq {f : Point → α} (hf : ∀ p p' : Point, p.view = p'.view → f p = f p')
    {l l' : List Point} (h : views l = views l') : (l.map f).Perm (l'.map f) := by
  by_cases hne : Nonempty α
  · obtain ⟨g, hg⟩ := (Function.factorsThrough_iff f).mp fun p p' hp => hf p p' hp
    rw [hg, ← List.map_map, ← List.map_map]
    exact (Multiset.coe_eq_coe.mp h).map g
  · cases l with
    | cons p l => exact absurd ⟨f p⟩ hne
    | nil =>
      cases l' with
      | cons p l => exact absurd ⟨f p⟩ hne
      | nil => exact .refl _

/-! ## Emission -/

section
variable (container : String)

theorem emit_mountedAs (n : Nat) (l : List Point) :
    List.Forall₂ (Shown.MountedAs container) (l.map Point.shown)
      ((emit container n l).map Prod.fst) := by
  induction n, l using emit.induct with
  | case1 => exact .nil
  | case2 n e l ih => exact .cons rfl ih
  | case3 n d m l ih => exact .cons rfl ih
  | case4 n d ms l hms ih =>
    have hshown : (Point.projection d ms).shown = .projected d (ms.map Member.projection) :=
      shown_projection_of_several fun m hm => hms m hm
    rw [List.map_cons, hshown, emit]
    · exact .cons ⟨n, rfl⟩ ih
    · exact hms

/-- No volume has the name of a projected one, from number `n` on. -/
def FreeFrom (n : Nat) (vs : List Manifest.Volume) : Prop :=
  ∀ v ∈ vs, ∀ k, n ≤ k → v.name ≠ projectedName container k

def Unclaimed (plans : List Plan) : Prop :=
  ∀ p ∈ plans, ∀ v, p.volume = some v → ∀ n, v.name ≠ projectedName container n

end

namespace FreeFrom
variable {container : String} {n : Nat} {front : List Manifest.Volume}
variable (h : FreeFrom container n front)
include h

theorem append_declared {p : Plan}
    (hp : ∀ v, p.volume = some v → ∀ k, v.name ≠ projectedName container k) :
    FreeFrom container n (front ++ p.volume.toList) := by
  intro v hv k hk
  rcases List.mem_append.mp hv with hv | hv
  · exact h v hv k hk
  · exact hp v (Option.mem_toList.mp hv) k

theorem append_projected (source : Manifest.VolumeSource) :
    FreeFrom container (n + 1) (front ++ [⟨projectedName container n, source⟩]) := by
  intro v hv k hk
  rcases List.mem_append.mp hv with hv | hv
  · exact h v hv k (by omega)
  · obtain rfl := List.mem_singleton.mp hv
    intro e
    have := projectedName_inj e
    omega

theorem volumeNamed?_append (source : Manifest.VolumeSource) (back : List Manifest.Volume) :
    Manifest.volumeNamed? (front ++ ⟨projectedName container n, source⟩ :: back)
      (projectedName container n) = some ⟨projectedName container n, source⟩ := by
  have hnone : front.find? (·.name == projectedName container n) = none :=
    List.find?_eq_none.mpr fun v hv => by simpa using h v hv n (Nat.le_refl n)
  rw [Manifest.volumeNamed?, List.find?_append, hnone, Option.none_or,
    List.find?_cons_of_pos (by simp)]

end FreeFrom

theorem append_filterMap_verbatim (front : List Manifest.Volume) (e : Entry)
    (out : List (Manifest.Mount × Option Manifest.Volume)) :
    front ++ (verbatim e :: out).filterMap Prod.snd =
      (front ++ e.plan.volume.toList) ++ out.filterMap Prod.snd := by
  rw [List.append_assoc, List.filterMap_cons]
  cases hv : e.plan.volume with
  | none => simp [verbatim, hv]
  | some v => simp [verbatim, hv]

/-- Every projected mount finds its own volume, since the volumes in front have other names. -/
theorem emit_readFrom {container : String} {n : Nat} {l : List Point}
    (free : ∀ p ∈ l, ∀ e ∈ p.entries, ∀ v, e.plan.volume = some v →
      ∀ k, v.name ≠ projectedName container k)
    {front : List Manifest.Volume} (hfront : FreeFrom container n front) :
    List.Forall₂ (Shown.ReadFrom (front ++ (emit container n l).filterMap Prod.snd))
      (l.map Point.shown) ((emit container n l).map Prod.fst) := by
  induction n, l using emit.induct generalizing front with
  | case1 => exact .nil
  | case2 n e l ih =>
    have he := free (.plain e) List.mem_cons_self e List.mem_cons_self
    rw [emit, append_filterMap_verbatim]
    exact .cons trivial
      (ih (fun p hp => free p (List.mem_cons_of_mem _ hp)) (hfront.append_declared he))
  | case3 n d m l ih =>
    have he := free (.projection d [m]) List.mem_cons_self m.entry List.mem_cons_self
    rw [emit, append_filterMap_verbatim]
    exact .cons trivial
      (ih (fun p hp => free p (List.mem_cons_of_mem _ hp)) (hfront.append_declared he))
  | case4 n d ms l hms ih =>
    have hrest := ih (fun p hp => free p (List.mem_cons_of_mem _ hp))
      (hfront.append_projected (.projected (ms.map Member.projection)))
    rw [List.append_assoc] at hrest
    have hshown : (Point.projection d ms).shown = .projected d (ms.map Member.projection) :=
      shown_projection_of_several fun m hm => hms m hm
    rw [List.map_cons, hshown, emit]
    · exact .cons ⟨ms.map Member.projection, rfl, hfront.volumeNamed?_append _ _⟩ hrest
    · exact hms

/-! ## Results -/

/-- What the mounts of a result show, in their order. -/
structure Presents (container : String) (plans : List Plan) (r : Result) (l : List Shown) :
    Prop where
  shown : (finalPoints plans).map (List.map Point.shown) = .ok l
  mounted : List.Forall₂ (Shown.MountedAs container) l r.mounts
  read : Unclaimed container plans → List.Forall₂ (Shown.ReadFrom r.volumes) l r.mounts

section
variable {container : String} {plans : List Plan} {l : List Point}

theorem result_presents (h : finalPoints plans = .ok l) :
    Presents container plans (result container l) (l.map Point.shown) where
  shown := by
    rw [h]
    rfl
  mounted := emit_mountedAs container 0 l
  read := by
    intro unclaimed
    have free : ∀ p ∈ l, ∀ e ∈ p.entries, ∀ v, e.plan.volume = some v →
        ∀ k, v.name ≠ projectedName container k := by
      intro p hp e he
      have hmem := mem_entriesFrom.mp ((finalPoints_sound h p hp).mem e he)
      exact unclaimed e.plan (List.mem_of_getElem? hmem)
    have hread : List.Forall₂ (Shown.ReadFrom ((emit container 0 l).filterMap Prod.snd))
        (l.map Point.shown) (result container l).mounts :=
      emit_readFrom free fun v hv => absurd hv List.not_mem_nil
    refine hread.imp fun s m hs => ?_
    cases s with
    | verbatim m' => trivial
    | projected path sources =>
      obtain ⟨srcs, hsrcs, hfound⟩ := hs
      refine ⟨srcs, hsrcs, ?_⟩
      rwa [result, Manifest.volumeNamed?_distinctVolumes]

theorem map_path_result (h : finalPoints plans = .ok l) :
    (result container l).mounts.map Manifest.Mount.path = l.map Point.path := by
  rw [result, List.map_map]
  exact map_path_emit (finalPoints_sound h) 0

end

/-- Canonical mounts are merged alike in any order: all fail or none does, and up to order and
numbers they show the same. -/
theorem mounts_perm {container : String} {plans plans' : List Plan} (perm : plans.Perm plans')
    (canonical : ∀ p ∈ plans, Path.Canonical p.mount.path.toList) :
    (mounts container plans).isOk = (mounts container plans').isOk ∧
      ∀ r r', mounts container plans = .ok r → mounts container plans' = .ok r' →
        (r.mounts.map Manifest.Mount.path).Perm (r'.mounts.map Manifest.Mount.path) ∧
          ∃ l l', Presents container plans r l ∧ Presents container plans' r' l' ∧ l.Perm l' := by
  have transfer {plans plans' : List Plan} (perm : plans.Perm plans')
      (canonical : ∀ p ∈ plans, Path.Canonical p.mount.path.toList)
      (h : (mounts container plans).isOk = true) : (mounts container plans').isOk = true := by
    obtain ⟨r, hr⟩ := exists_eq_ok h
    obtain ⟨l, hl, -⟩ := map_eq_ok.mp hr
    obtain ⟨l', hl', -⟩ := finalPoints_perm perm canonical hl
    rw [mounts, hl']
    rfl
  have canonical' : ∀ p ∈ plans', Path.Canonical p.mount.path.toList :=
    fun p hp => canonical p (perm.mem_iff.mpr hp)
  refine ⟨Bool.eq_iff_iff.mpr ⟨transfer perm canonical, transfer perm.symm canonical'⟩, ?_⟩
  intro r r' hr hr'
  obtain ⟨l, hl, rfl⟩ := map_eq_ok.mp hr
  obtain ⟨l', hl', rfl⟩ := map_eq_ok.mp hr'
  obtain ⟨l₁, hl₁, hviews⟩ := finalPoints_perm perm canonical hl
  rw [hl'] at hl₁
  obtain rfl := Except.ok.inj hl₁
  refine ⟨?_, _, _, result_presents hl, result_presents hl', ?_⟩
  · rw [map_path_result hl, map_path_result hl']
    exact map_perm_of_views_eq (fun p p' h => congrArg View.path h) hviews
  · exact map_perm_of_views_eq (fun p p' => shown_congr) hviews

theorem mounts_perm_of_folded_file :
    let whole : Plan := ⟨.volume 0, ⟨"res-0", "/etc/app", none, none⟩,
      some ⟨"res-0", .secret (some "api-tls") none⟩⟩
    let host : Plan := ⟨.volume 1, ⟨"web-vol-1", "/srv", none, none⟩,
      some ⟨"web-vol-1", .hostPath "/srv"⟩⟩
    let file : Plan := ⟨.file 0, ⟨"web-file-0", "/etc/app/sub/a", some "a", some true⟩,
      some ⟨"web-file-0", .configMap "api-web-file-0" none⟩⟩
    (mounts "web" [whole, host, file]).isOk = true ∧
      (mounts "web" [whole, host, file]).isOk = (mounts "web" [file, host, whole]).isOk ∧
      ∀ r r', mounts "web" [whole, host, file] = .ok r → mounts "web" [file, host, whole] = .ok r' →
        (r.mounts.map Manifest.Mount.path).Perm (r'.mounts.map Manifest.Mount.path) ∧
          ∃ l l', Presents "web" [whole, host, file] r l ∧
            Presents "web" [file, host, whole] r' l' ∧ l.Perm l' := by
  intro whole host file
  exact ⟨by decide +kernel,
    mounts_perm (List.reverse_perm [file, host, whole]) (by decide +kernel)⟩

/-- A declared volume with the name of a projected one hides its projections if it comes first. -/
theorem projections_hidden_by_declared_name :
    let scratch : Plan := ⟨.volume 0, ⟨"web-projected-0", "/x", none, none⟩,
      some ⟨"web-projected-0", .emptyDir⟩⟩
    let file (i : Nat) (key : String) : Plan :=
      ⟨.file i, ⟨Mount.fileVolumeName "web" i, "/etc/" ++ key, some key, some true⟩,
        some ⟨Mount.fileVolumeName "web" i, .configMap (Mount.configMapName "api" "web" i) none⟩⟩
    let before := [scratch, file 0 "a", file 1 "b"]
    let after := [file 0 "a", file 1 "b", scratch]
    let merged : Manifest.Mount := ⟨"web-projected-0", "/etc", none, some true⟩
    before.Perm after ∧ (∀ p ∈ before, Path.Canonical p.mount.path.toList) ∧
      ∃ r r', mounts "web" before = .ok r ∧ mounts "web" after = .ok r' ∧
        merged ∈ r.mounts ∧ merged ∈ r'.mounts ∧
        Manifest.volumeNamed? r.volumes merged.name = some ⟨merged.name, .emptyDir⟩ ∧
        Manifest.volumeNamed? r'.volumes merged.name = some ⟨merged.name, .projected
          [⟨.configMap "api-web-file-0", some [⟨"a", "a", none⟩]⟩,
            ⟨.configMap "api-web-file-1", some [⟨"b", "b", none⟩]⟩]⟩ := by
  intro scratch file before after merged
  have hbefore : (mounts "web" before).map (fun r => decide (merged ∈ r.mounts) &&
      Manifest.volumeNamed? r.volumes merged.name == some ⟨merged.name, .emptyDir⟩) = .ok true := by
    decide +kernel
  have hafter : (mounts "web" after).map (fun r => decide (merged ∈ r.mounts) &&
      Manifest.volumeNamed? r.volumes merged.name == some ⟨merged.name, .projected
        [⟨.configMap "api-web-file-0", some [⟨"a", "a", none⟩]⟩,
          ⟨.configMap "api-web-file-1", some [⟨"b", "b", none⟩]⟩]⟩) = .ok true := by
    decide +kernel
  obtain ⟨r, hr, h⟩ := map_eq_ok.mp hbefore
  obtain ⟨r', hr', h'⟩ := map_eq_ok.mp hafter
  rw [Bool.and_eq_true, decide_eq_true_eq, beq_iff_eq] at h h'
  have hperm : ([scratch] ++ [file 0 "a", file 1 "b"]).Perm ([file 0 "a", file 1 "b"] ++ [scratch]) :=
    List.perm_append_comm
  exact ⟨hperm, by decide +kernel, r, r', hr, hr', h.1, h'.1, h.2, h'.2⟩

end Stowage.Merge
