import Stowage.Proofs.Declarations
import Stowage.Proofs.Placeholders

/-!
# Sources of volumes

What backs a volume is decided on its expanded source alone. A token stands for the first resource
that is declared with it, and a token within an absolute path is not told from the path.
-/

namespace Stowage

/-! ## Tokens -/

namespace Scope
variable {scope : Scope} {name : String} {r : Resource} {before after : List (String × Resource)}
variable (declared : scope.resources.toList = before ++ (name, r) :: after)
include declared

theorem token?_of_declared : scope.token? name = some (r.token scope.workload name) := by
  have hmem : (name, r) ∈ scope.resources.toList := by simp [declared]
  rw [token?, OrderedMap.get?, scope.resources.distinct.lookup_of_mem hmem]
  rfl

theorem resourceOf?_token : scope.resourceOf? (r.token scope.workload name) =
    some (((before.find? fun e => e.2.token scope.workload e.1 == r.token scope.workload name).map
      Prod.fst).getD name) := by
  rw [resourceOf?, declared, List.find?_append]
  cases before.find? fun e => e.2.token scope.workload e.1 == r.token scope.workload name with
  | none => simp
  | some e => simp

end Scope

namespace Mount

/-! ## Conversion by source -/

theorem normalize_of_absolute {target : String} (h : target.toList.head? = some '/') :
    ∃ t, Path.normalize target = .ok t := by
  unfold Path.normalize
  rw [if_neg (not_not.mpr h)]
  exact ⟨_, rfl⟩

def backed (scope : Scope) (i : Nat) (v : Workload.Volume) (target token resource : String) :
    Converted :=
  ⟨⟨.volume i, mountOf v target (resourceVolumeName token),
    some ⟨resourceVolumeName token, backing scope.outputs resource⟩⟩, none⟩

def hosted (container : String) (i : Nat) (v : Workload.Volume) (target path : String) :
    Converted :=
  ⟨⟨.volume i, mountOf v target (hostVolumeName container i),
    some ⟨hostVolumeName container i, .hostPath path⟩⟩, none⟩

def refused (v : Workload.Volume) : Fault :=
  invalidSource v "must be a resource reference or an absolute host path"

section
variable {container : String} {i : Nat} {v : Workload.Volume} {kind : WorkloadKind} {scope : Scope}
variable {target text : String} (unclaimed : v.claim = none)
variable (htarget : Path.normalize v.target = .ok target)
variable (htext : scope.expand .volumeSource v.source = .ok text)
include unclaimed htarget htext

theorem ofVolume_eq_shared : ofVolume container i v kind scope =
    shared container i v target scope (classify scope text) := by
  unfold ofVolume
  rw [unclaimed, htarget, htext]
  rfl

theorem ofVolume_of_token {first : String} (h : scope.resourceOf? text = some first) :
    ofVolume container i v kind scope = .ok (backed scope i v target text first) := by
  rw [ofVolume_eq_shared unclaimed htarget htext, classify, h]
  rfl

theorem ofVolume_of_path (h : text ∉ scope.tokens) (hslash : text.toList.head? = some '/') :
    ofVolume container i v kind scope = .ok (hosted container i v target text) := by
  rw [ofVolume_eq_shared unclaimed htarget htext, classify, Scope.resourceOf?_eq_none_iff.mpr h]
  simp only [if_pos hslash]
  rfl

theorem ofVolume_of_neither (h : text ∉ scope.tokens) (hslash : text.toList.head? ≠ some '/') :
    ofVolume container i v kind scope = .error (refused v) := by
  rw [ofVolume_eq_shared unclaimed htarget htext, classify, Scope.resourceOf?_eq_none_iff.mpr h]
  simp only [if_neg hslash]
  rfl

end

/-! ## Backing -/

/-- The volume that the outputs of a resource ask for. -/
inductive Asked (outputs : Outputs) (resource : String) : Manifest.VolumeSource → Prop
  | secret {name} : outputs.get? resource "secretName" = some name →
      Asked outputs resource (.secret (some name) none)
  | configMap {name} : outputs.get? resource "secretName" = none →
      outputs.get? resource "configMapName" = some name →
      Asked outputs resource (.configMap name none)
  | claim {name} : outputs.get? resource "secretName" = none →
      outputs.get? resource "configMapName" = none →
      outputs.get? resource "claimName" = some name → Asked outputs resource (.claim name)
  | emptyDir : outputs.get? resource "secretName" = none →
      outputs.get? resource "configMapName" = none →
      outputs.get? resource "claimName" = none → Asked outputs resource .emptyDir

theorem asked_iff {outputs : Outputs} {resource : String} {source : Manifest.VolumeSource} :
    Asked outputs resource source ↔ source = backing outputs resource := by
  constructor
  · intro h
    cases h <;> simp [backing, *]
  · rintro rfl
    unfold backing
    cases hs : outputs.get? resource "secretName" with
    | some name => exact .secret hs
    | none =>
      cases hm : outputs.get? resource "configMapName" with
      | some name => exact .configMap hs hm
      | none =>
        cases hc : outputs.get? resource "claimName" with
        | some name => exact .claim hs hm hc
        | none => exact .emptyDir hs hm hc

/-! ## Volumes that name a resource -/

theorem referable_resource {name : String}
    (hname : ∀ c ∈ name.toList, Template.isReferenceChar c = true) :
    Referable ["resources", name] :=
  .cons (by decide) ⟨trivial, fun _ hs => List.mem_singleton.mp hs ▸ hname⟩

section
variable {container : String} {i : Nat} {v : Workload.Volume} {kind : WorkloadKind} {scope : Scope}
variable {name : String} {r : Resource} {before after : List (String × Resource)}

/-- A volume that names a resource is backed by the first one declared with the same token. That is
what the named resource asks for exactly if both ask for the same. -/
theorem ofVolume_of_placeholder (declared : scope.resources.toList = before ++ (name, r) :: after)
    (hname : ∀ c ∈ name.toList, Template.isReferenceChar c = true)
    (hsource : v.source = placeholder ["resources", name]) (unclaimed : v.claim = none)
    (absolute : v.target.toList.head? = some '/') :
    ∃ c first source, ofVolume container i v kind scope = .ok c ∧
      c.plan.volume = some ⟨resourceVolumeName (r.token scope.workload name), source⟩ ∧
      scope.resourceOf? (r.token scope.workload name) = some first ∧
      Asked scope.outputs first source ∧
      (first = name ↔
        ∀ e ∈ before, e.2.token scope.workload e.1 ≠ r.token scope.workload name) ∧
      (Asked scope.outputs name source ↔
        backing scope.outputs first = backing scope.outputs name) := by
  obtain ⟨target, htarget⟩ := normalize_of_absolute absolute
  have htext : scope.expand .volumeSource v.source = .ok (r.token scope.workload name) := by
    rw [hsource, scope.expand_placeholder .volumeSource (referable_resource hname) (by simp)]
    simp only [Reference.ofSegments, bind, Except.bind, Scope.lookup,
      Scope.token?_of_declared declared]
  have hfirst := Scope.resourceOf?_token declared
  refine ⟨_, _, _, ofVolume_of_token unclaimed htarget htext hfirst, rfl, hfirst,
    asked_iff.mpr rfl, ?_, asked_iff⟩
  cases hfind : before.find? fun e =>
      e.2.token scope.workload e.1 == r.token scope.workload name with
  | none =>
    have hnone := List.find?_eq_none.mp hfind
    simpa using fun a b hab => by simpa using hnone (a, b) hab
  | some e =>
    -- an earlier resource has another name, as names are declared once
    have hmem := List.mem_of_find?_eq_some hfind
    have htoken : e.2.token scope.workload e.1 = r.token scope.workload name := by
      simpa using List.find?_some hfind
    have hdistinct : (scope.resources.toList.map Prod.fst).Nodup := scope.resources.distinct
    rw [declared, List.map_append, List.map_cons] at hdistinct
    have hne : e.1 ≠ name := fun h =>
      (List.nodup_append.mp hdistinct).2.2 e.1 (List.mem_map_of_mem hmem) name
        List.mem_cons_self h
    simp only [Option.map_some, Option.getD_some]
    exact ⟨fun h => absurd h hne, fun h => absurd htoken (h e hmem)⟩

end

theorem ofVolume_of_dotted_placeholder :
    let w := ((Workload.ofName "api").addResource "data" ⟨"volume", none, none⟩).addResource
      "tls.web" ⟨"secret", none, none⟩
    let scope : Scope := .ofWorkload "api" w (Outputs.empty.insert "tls.web" "secretName" "api-tls")
    let v : Workload.Volume := .ofSource (placeholder ["resources", "tls.web"]) "/etc/tls"
    ∃ c first source, ofVolume "web" 0 v .deployment scope = .ok c ∧
      c.plan.volume = some ⟨resourceVolumeName "secret.default#api.tls.web", source⟩ ∧
      scope.resourceOf? "secret.default#api.tls.web" = some first ∧
      Asked scope.outputs first source ∧
      (first = "tls.web" ↔ ∀ e ∈ [("data", (⟨"volume", none, none⟩ : Resource))],
        e.2.token "api" e.1 ≠ "secret.default#api.tls.web") ∧
      (Asked scope.outputs "tls.web" source ↔
        backing scope.outputs first = backing scope.outputs "tls.web") := by
  intro w scope v
  have htoken : (⟨"secret", none, none⟩ : Resource).token "api" "tls.web" =
      "secret.default#api.tls.web" := by decide
  have declared : scope.resources.toList =
      [("data", ⟨"volume", none, none⟩)] ++ ("tls.web", ⟨"secret", none, none⟩) :: [] := rfl
  rw [← htoken]
  exact ofVolume_of_placeholder declared (List.all_eq_true.mp (by decide)) rfl rfl (by decide)

/-- Type and class are read as one, so the keys of another resource are mounted. -/
theorem not_asked_of_ambiguous_token :
    let w := ((Workload.ofName "api").addResource "keys"
        ⟨"secret", some "tls.default", some "shared"⟩).addResource
      "certs" ⟨"secret.tls", none, some "shared"⟩
    let outputs := (Outputs.empty.insert "keys" "secretName" "api-keys").insert
      "certs" "secretName" "api-certs"
    let v : Workload.Volume := .ofSource (placeholder ["resources", "certs"]) "/etc/certs"
    ∃ c volume, ofVolume "web" 0 v .deployment (.ofWorkload "api" w outputs) = .ok c ∧
      c.plan.volume = some volume ∧ ¬Asked outputs "certs" volume.source := by
  intro w outputs v
  have found : (ofVolume "web" 0 v .deployment (.ofWorkload "api" w outputs)).map
      (fun c => c.plan.volume.map Manifest.Volume.source) =
        .ok (some (.secret (some "api-keys") none)) := by decide +kernel
  obtain ⟨c, hc, hvolume⟩ := map_eq_ok.mp found
  obtain ⟨volume, hv, hsource⟩ := Option.map_eq_some_iff.mp hvolume
  refine ⟨c, volume, hc, hv, fun h => ?_⟩
  rw [asked_iff, hsource] at h
  revert h
  decide +kernel

/-! ## Volumes in general -/

def EmbedsIdentity (source : String) : Prop :=
  ∃ reference name, .placeholder reference ∈ Template.pieces source.toList ∧
    Segments.ofText (String.ofList reference) = ["resources", name]

/-- What a source that expands to a text should give. -/
inductive Documented (container : String) (i : Nat) (v : Workload.Volume) (target : String)
    (scope : Scope) (text : String) : Except Fault Converted → Prop
  | resource {name r} : (name, r) ∈ scope.resources.toList → r.token scope.workload name = text →
      Documented container i v target scope text (.ok (backed scope i v target text name))
  | host : text ∉ scope.tokens → text.toList.head? = some '/' → ¬EmbedsIdentity v.source →
      Documented container i v target scope text (.ok (hosted container i v target text))
  | refused : text ∉ scope.tokens → (text.toList.head? ≠ some '/' ∨ EmbedsIdentity v.source) →
      Documented container i v target scope text (.error (refused v))

end Mount

namespace Template

theorem infix_of_fill {resolve : List Char → Except ε (List Char)} {l : List Piece} {cs : List Char}
    (h : fill resolve l = .ok cs) {reference : List Char} (hr : .placeholder reference ∈ l) :
    ∃ value, resolve reference = .ok value ∧ value <:+: cs := by
  induction l generalizing cs with
  | nil => cases hr
  | cons p l ih =>
    cases p with
    | char c =>
      obtain ⟨rest, hrest, rfl⟩ := map_eq_ok.mp h
      have hr := (List.mem_cons.mp hr).resolve_left (by simp)
      obtain ⟨value, hvalue, hin⟩ := ih hrest hr
      exact ⟨value, hvalue, List.infix_cons hin⟩
    | placeholder other =>
      obtain ⟨first, hfirst, h⟩ := bind_eq_ok.mp h
      obtain ⟨rest, hrest, h⟩ := bind_eq_ok.mp h
      cases h
      rcases List.mem_cons.mp hr with e | hr
      · cases e
        exact ⟨first, hfirst, (List.prefix_append first rest).isInfix⟩
      · obtain ⟨value, hvalue, hin⟩ := ih hrest hr
        exact ⟨value, hvalue, hin.trans (List.suffix_append first rest).isInfix⟩

end Template

namespace Mount

theorem token_infix_of_embedsIdentity {scope : Scope} {source text : String}
    (h : scope.expand .volumeSource source = .ok text) (embeds : EmbedsIdentity source) :
    ∃ token ∈ scope.tokens, token.toList <:+: text.toList := by
  obtain ⟨reference, name, hmem, hsplit⟩ := embeds
  obtain ⟨cs, hcs, rfl⟩ := map_eq_ok.mp h
  obtain ⟨value, hvalue, hin⟩ := Template.infix_of_fill hcs hmem
  obtain ⟨token, htoken, rfl⟩ := map_eq_ok.mp hvalue
  rw [Scope.resolve, Reference.parse, hsplit] at htoken
  obtain ⟨ref, href, htoken⟩ := bind_eq_ok.mp htoken
  cases href
  simp only [Scope.lookup] at htoken
  cases ht : scope.token? name with
  | none => simp [ht] at htoken
  | some t =>
    simp only [ht, Except.ok.injEq] at htoken
    subst htoken
    obtain ⟨r, hr, rfl⟩ := Option.map_eq_some_iff.mp ht
    refine ⟨_, List.mem_map.mpr ⟨(name, r), mem_of_lookup_eq_some hr, rfl⟩, ?_⟩
    simpa using hin

section
variable {container : String} {i : Nat} {v : Workload.Volume} {kind : WorkloadKind} {scope : Scope}

theorem not_documented_hosted {target text : String} (htoken : text ∉ scope.tokens)
    (embeds : EmbedsIdentity v.source) :
    ¬Documented container i v target scope text (.ok (hosted container i v target text)) := by
  intro h
  generalize hosted container i v target text = c at h
  cases h with
  | resource hr htext => exact htoken (List.mem_map.mpr ⟨_, hr, htext⟩)
  | host _ _ plain => exact plain embeds

/-- A volume becomes what its source is documented to give, unless an identity is embedded in an
absolute path. Then the path is mounted from the host, with the token in it. -/
theorem ofVolume_documented_iff {text : String} (unclaimed : v.claim = none)
    (absolute : v.target.toList.head? = some '/')
    (htext : scope.expand .volumeSource v.source = .ok text) :
    ∃ target, Path.normalize v.target = .ok target ∧
      (Documented container i v target scope text (ofVolume container i v kind scope) ↔
        ¬(text ∉ scope.tokens ∧ text.toList.head? = some '/' ∧ EmbedsIdentity v.source)) ∧
      (text ∉ scope.tokens → text.toList.head? = some '/' →
        ofVolume container i v kind scope = .ok (hosted container i v target text)) ∧
      (EmbedsIdentity v.source → ∃ token ∈ scope.tokens, token.toList <:+: text.toList) := by
  obtain ⟨target, htarget⟩ := normalize_of_absolute absolute
  refine ⟨target, htarget, ?_, ofVolume_of_path unclaimed htarget htext,
    token_infix_of_embedsIdentity htext⟩
  by_cases htoken : text ∈ scope.tokens
  · have hsome : scope.resourceOf? text ≠ none := fun h =>
      Scope.resourceOf?_eq_none_iff.mp h htoken
    obtain ⟨first, hfirst⟩ := Option.ne_none_iff_exists'.mp hsome
    obtain ⟨r, hr, htext'⟩ := Scope.mem_of_resourceOf? hfirst
    rw [ofVolume_of_token unclaimed htarget htext hfirst]
    exact ⟨fun _ h => h.1 htoken, fun _ => .resource hr htext'⟩
  by_cases hslash : text.toList.head? = some '/'
  · rw [ofVolume_of_path unclaimed htarget htext htoken hslash]
    constructor
    · rintro h ⟨-, -, embeds⟩
      exact not_documented_hosted htoken embeds h
    · exact fun h => .host htoken hslash fun embeds => h ⟨htoken, hslash, embeds⟩
  · rw [ofVolume_of_neither unclaimed htarget htext htoken hslash]
    exact ⟨fun _ h => hslash h.2.1, fun _ => .refused htoken (.inl hslash)⟩

end

theorem ofVolume_documented_of_output :
    let w := (Workload.ofName "api").addResource "data" ⟨"volume", none, none⟩
    let scope : Scope := .ofWorkload "api" w (Outputs.empty.insert "data" "disk" "disk-1")
    let v : Workload.Volume := .ofSource "/srv/$\x7bresources.data.disk\x7d" "/data/"
    ∃ target, Path.normalize v.target = .ok target ∧
      (Documented "web" 0 v target scope "/srv/disk-1" (ofVolume "web" 0 v .deployment scope) ↔
        ¬("/srv/disk-1" ∉ scope.tokens ∧ "/srv/disk-1".toList.head? = some '/' ∧
          EmbedsIdentity v.source)) ∧
      ("/srv/disk-1" ∉ scope.tokens → "/srv/disk-1".toList.head? = some '/' →
        ofVolume "web" 0 v .deployment scope = .ok (hosted "web" 0 v target "/srv/disk-1")) ∧
      (EmbedsIdentity v.source →
        ∃ token ∈ scope.tokens, token.toList <:+: "/srv/disk-1".toList) := by
  intro w scope v
  exact ofVolume_documented_iff rfl (by decide) (by decide +kernel)

/-- The token of a resource becomes a part of a path of the host. -/
theorem not_documented_of_embedded_identity :
    let w := (Workload.ofName "api").addResource "data" ⟨"volume", none, none⟩
    let scope : Scope := .ofWorkload "api" w .empty
    let v : Workload.Volume := .ofSource "/srv/$\x7bresources.data\x7d" "/data"
    let text := "/srv/volume.default#api.data"
    scope.expand .volumeSource v.source = .ok text ∧
      ofVolume "web" 0 v .deployment scope = .ok (hosted "web" 0 v "/data" text) ∧
      ¬Documented "web" 0 v "/data" scope text (ofVolume "web" 0 v .deployment scope) := by
  intro w scope v text
  have htext : scope.expand .volumeSource v.source = .ok text := by decide +kernel
  have hosts : ofVolume "web" 0 v .deployment scope = .ok (hosted "web" 0 v "/data" text) := by
    decide +kernel
  have embeds : EmbedsIdentity v.source :=
    ⟨"resources.data".toList, "data", by decide +kernel, by decide +kernel⟩
  rw [hosts]
  exact ⟨htext, rfl, not_documented_hosted (by decide +kernel) embeds⟩

end Mount
end Stowage
