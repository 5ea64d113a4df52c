import Stowage.Manifest.Rendering
import Stowage.Proofs.MountOrder

/-!
# Modes of mounted files

A file has the mode of its item, or else that of its volume. A key that is merged takes the mode of
its volume along in its item. A volume that is merged as a whole has no items, and the projected one
has no mode, so a mode of its own is lost.
-/

namespace Stowage

/-! ## Modes of volumes -/

namespace Manifest

def VolumeSource.defaultMode? : VolumeSource → Option Int
  | configMap _ mode | secret _ mode => mode
  | claim _ | emptyDir | hostPath _ | projected _ => none

theorem VolumeSource.written_defaultMode (s : VolumeSource) : ∃ kind body,
    s.fields = field kind (.obj body) ∧
      body.lookup "defaultMode" = s.defaultMode?.map Json.ofInt := by
  cases s with
  | configMap name mode => cases mode <;> exact ⟨_, _, rfl, rfl⟩
  | secret name mode => cases name <;> cases mode <;> exact ⟨_, _, rfl, rfl⟩
  | _ => exact ⟨_, _, rfl, rfl⟩

theorem Backs.defaultMode? {s : VolumeSource} {object : ProjectedObject} {mode : Option Int}
    (h : Backs s object mode) : s.defaultMode? = mode := by
  cases h <;> rfl

/-- A key of the object is a file of this mode, in a volume with that default. -/
inductive Projection.Shows (default : Option Int) (key : String) : Projection → Option Int → Prop
  | whole (object) : Shows default key ⟨object, none⟩ default
  | item {items i} (object) : i ∈ items → i.key = key →
      Shows default key ⟨object, some items⟩ (i.mode.or default)

end Manifest

namespace Merge
open Manifest

/-! ## Modes of declarations -/

namespace Entry

def mode? (e : Entry) : Option Int := e.plan.volume.bind (·.source.defaultMode?)

def Mounts (e : Entry) (key : String) : Prop := ∀ k, e.subPath = some k → k = key

/-- Each mounted key is shown, and only under the mode that it is declared with. -/
def ModeKept (e : Entry) (default : Option Int) (p : Projection) : Prop :=
  ∀ key, e.Mounts key → ∀ mode, p.Shows default key mode ↔ mode = e.mode?

end Entry

theorem Projects.modeKept_iff {es : List Entry} {dir : String} {e : Entry} {p : Projection}
    (h : Projects es dir e p) : e.ModeKept none p ↔ (e.subPath = none → e.mode? = none) := by
  cases h with
  | @whole v object mode hv hback hwhole _ =>
    have all (key : String) : e.Mounts key := by
      intro k hk
      rw [hwhole] at hk
      cases hk
    constructor
    · intro kept _
      -- all keys are mounted, so any one tells the mode
      exact ((kept "" (all "") none).mp (.whole object)).symm
    · intro lost key _ mode
      rw [lost hwhole]
      constructor
      · intro shown
        cases shown
        rfl
      · rintro rfl
        exact .whole object
  | @key v object mode k path hv hback hkey _ =>
    have hmode : e.mode? = mode := by rw [Entry.mode?, hv, Option.bind_some, hback.defaultMode?]
    have keyed : e.subPath ≠ none := by simp [hkey]
    refine ⟨fun _ hnone => absurd hnone keyed, fun _ key hmounts m => ?_⟩
    obtain rfl := hmounts k hkey
    rw [hmode]
    constructor
    · intro shown
      cases shown with
      | item _ hi _ =>
        obtain rfl := List.mem_singleton.mp hi
        exact Option.or_none
    · rintro rfl
      have shown : Projection.Shows none k ⟨object, some [⟨k, path, m⟩]⟩ (m.or none) :=
        .item object List.mem_cons_self rfl
      rwa [Option.or_none] at shown

/-! ## Modes of mounts -/

inductive ModeKept (owned : List Entry) (e : Entry) (x : Mount × Option Volume) : Prop
  | verbatim : owned = [e] → x = verbatim e → ModeKept owned e x
  | projected {name sources p} : x.2 = some ⟨name, .projected sources⟩ →
      (e, p) ∈ owned.zip sources →
      e.ModeKept (VolumeSource.projected sources).defaultMode? p → ModeKept owned e x

theorem Realises.modeKept_iff {container : String} {es owned : List Entry}
    {x : Mount × Option Volume} (h : Realises container es owned x) {e : Entry} (he : e ∈ owned) :
    ModeKept owned e x ↔ (1 < owned.length → e.subPath = none → e.mode? = none) := by
  cases h with
  | verbatim e' =>
    obtain rfl := List.mem_singleton.mp he
    exact ⟨fun _ hlen => by simp at hlen, fun _ => .verbatim rfl rfl⟩
  | @projected _ dir sources n hlen hsources =>
    obtain ⟨hlength, hzip⟩ := List.forall₂_iff_zip.mp hsources
    constructor
    · rintro (⟨halone, -⟩ | ⟨hvolume, hmem, kept⟩) _
      · simp [halone] at hlen
      · cases hvolume
        exact (hzip hmem).modeKept_iff.mp kept
    · intro lost
      have paired : List.Forall₂ (fun e p => (e, p) ∈ owned.zip sources) owned sources :=
        List.forall₂_iff_zip.mpr ⟨hlength, id⟩
      obtain ⟨p, -, hmem⟩ := exists_right_of_mem paired he
      exact .projected rfl hmem ((hzip hmem).modeKept_iff.mpr (lost hlen))

/-! ## Modes of results -/

theorem volumes_found {container : String} {plans : List Plan} {l : List Point}
    (h : finalPoints plans = .ok l) (fresh : Fresh container (entriesFrom 0 plans))
    (carries : Carries (entriesFrom 0 plans))
    (agree : ∀ e ∈ entriesFrom 0 plans, ∀ e' ∈ entriesFrom 0 plans,
      e'.volumeName = e.volumeName → e'.plan.volume = e.plan.volume) :
    ∀ x ∈ emit container 0 l, volumeNamed? (result container l).volumes x.1.name = x.2 := by
  intro x hx
  have sound := finalPoints_sound h
  rcases mem_emit fresh sound hx with ⟨e, he, rfl, -⟩ | ⟨k, dir, ms, rfl⟩
  · exact volumeNamed?_verbatim fresh carries sound hx he (agree e he)
  · exact volumeNamed?_generated fresh carries sound hx rfl

end Merge

theorem PlanForm.mode_eq_none {container : String} {scope : Scope} {p : Plan}
    (h : PlanForm container scope p) (whole : p.mount.subPath = none) :
    p.volume.bind (·.source.defaultMode?) = none := by
  cases h with
  | resource =>
    simp only [Option.bind_some, Mount.backing]
    split
    · rfl
    · split
      · rfl
      · split <;> rfl
  | host => rfl
  | claim => rfl
  | file => cases whole

namespace Merge
open Manifest

structure ModesKept (container : String) (plans : List Plan) (r : Result)
    (owned : List (List Entry)) (out : List (Mount × Option Volume)) : Prop
    extends Realised container plans r owned out where
  kept_iff : ∀ x ∈ owned.zip out, ∀ e ∈ x.1, ModeKept x.1 e x.2 ↔
    (1 < x.1.length → e.subPath = none → e.mode? = none)
  converted : ∀ scope, (∀ p ∈ plans, PlanForm container scope p) →
    ∀ x ∈ owned.zip out, ∀ e ∈ x.1, ModeKept x.1 e x.2
  found : Fresh container (entriesFrom 0 plans) → Carries (entriesFrom 0 plans) →
    (∀ e ∈ entriesFrom 0 plans, ∀ e' ∈ entriesFrom 0 plans,
      e'.volumeName = e.volumeName → e'.plan.volume = e.plan.volume) →
    ∀ x ∈ out, volumeNamed? r.volumes x.1.name = x.2
  written : ∀ v ∈ r.volumes, ∃ kind body, v.source.fields = field kind (.obj body) ∧
    body.lookup "defaultMode" = v.source.defaultMode?.map Json.ofInt

/-- Merging keeps the mode of every file, unless it is one of a volume that has a mode of its own
and is merged as a whole. No converted volume is one of these. -/
theorem mounts_modesKept {container : String} {plans : List Plan} {r : Result}
    (h : mounts container plans = .ok r) : ∃ owned out, ModesKept container plans r owned out := by
  obtain ⟨l, hl, rfl⟩ := map_eq_ok.mp h
  have realised : Realised container plans _ _ _ := realised_result hl
  have each : ∀ x ∈ (l.map Point.entries).zip (emit container 0 l), ∀ e ∈ x.1,
      ModeKept x.1 e x.2 ↔ (1 < x.1.length → e.subPath = none → e.mode? = none) :=
    fun x hx e he => ((List.forall₂_iff_zip.mp realised.each).2 hx).modeKept_iff he
  refine ⟨_, _, realised, each, ?_, volumes_found hl, fun v _ => v.source.written_defaultMode⟩
  intro scope forms x hx e he
  refine (each x hx e he).mpr fun _ whole => ?_
  have hmem : e ∈ entriesFrom 0 plans :=
    realised.all.mem_iff.mp (List.mem_flatten.mpr ⟨x.1, (List.of_mem_zip hx).1, he⟩)
  exact (forms e.plan (List.mem_of_getElem? (mem_entriesFrom.mp hmem))).mode_eq_none whole

theorem mounts_modesKept_of_folded_files :
    let plans : List Plan := [
      ⟨.volume 0, ⟨"settings", "/etc/app", none, none⟩, some ⟨"settings", .configMap "cfg" none⟩⟩,
      ⟨.volume 1, ⟨"tls", "/etc/tls", none, none⟩, some ⟨"tls", .secret (some "tls") (some 0o400)⟩⟩,
      ⟨.file 0, ⟨"f0", "/etc/app/a", some "a", some true⟩,
        some ⟨"f0", .configMap "f0" (some 0o600)⟩⟩,
      ⟨.file 1, ⟨"f1", "/etc/app/d/b", some "b", some true⟩,
        some ⟨"f1", .configMap "f1" (some 0o644)⟩⟩]
    ∃ r, mounts "web" plans = .ok r ∧
      r.mounts.map Mount.name = ["web-projected-0", "tls"] ∧
      ∃ owned out, ModesKept "web" plans r owned out := by
  intro plans
  have names : (mounts "web" plans).map (fun r => r.mounts.map Mount.name) =
      .ok ["web-projected-0", "tls"] := by decide +kernel
  obtain ⟨r, hr, hnames⟩ := map_eq_ok.mp names
  exact ⟨r, hr, hnames, mounts_modesKept hr⟩

/-- The keys of a secret that only its owner may read take part in a projection that says nothing of
their mode. -/
theorem mode_lost_of_whole_secret :
    let secret : Plan := ⟨.volume 0, ⟨"res-tls", "/etc/tls", none, none⟩,
      some ⟨"res-tls", .secret (some "tls") (some 0o400)⟩⟩
    let file : Plan := ⟨.file 0, ⟨"web-file-0", "/etc/tls/extra/ca.pem", some "ca.pem", some true⟩,
      some ⟨"web-file-0", .configMap "api-web-file-0" (some 0o644)⟩⟩
    let r : Result := ⟨[⟨"web-projected-0", .projected [⟨.secret "tls", none⟩,
        ⟨.configMap "api-web-file-0", some [⟨"ca.pem", "extra/ca.pem", some 0o644⟩]⟩]⟩],
      [⟨"web-projected-0", "/etc/tls", none, some true⟩]⟩
    mounts "web" [secret, file] = .ok r ∧ ∀ owned out, Realised "web" [secret, file] r owned out →
      ∃ x ∈ owned.zip out, ⟨0, secret⟩ ∈ x.1 ∧ ¬ModeKept x.1 ⟨0, secret⟩ x.2 := by
  intro secret file r
  refine ⟨by decide +kernel, fun owned out realised => ?_⟩
  -- the one mount of the result has both plans
  have hlen : out.length = 1 := by simpa [r] using congrArg List.length realised.mounts.symm
  obtain ⟨x, rfl⟩ := List.length_eq_one_iff.mp hlen
  obtain ⟨o, rfl⟩ := List.length_eq_one_iff.mp realised.each.length_eq
  have perm : o.Perm [⟨0, secret⟩, ⟨1, file⟩] := by simpa [entriesFrom] using realised.all
  have hmem : ⟨0, secret⟩ ∈ o := perm.mem_iff.mpr List.mem_cons_self
  refine ⟨(o, x), List.mem_cons_self, hmem, fun kept => ?_⟩
  have each : Realises "web" (entriesFrom 0 [secret, file]) o x := by simpa using realised.each
  have several : 1 < o.length := by simp [perm.length_eq]
  have lost := (each.modeKept_iff hmem).mp kept several rfl
  cases lost

end Merge
end Stowage
