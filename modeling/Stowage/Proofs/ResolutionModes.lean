import Stowage.Proofs.Closure
import Stowage.Proofs.Readings
import Stowage.Proofs.VolumeSources

/-!
# The two modes of resolving

Only the source of a volume may name a resource and none of its outputs. All other texts expand
alike in both modes, so where variables and files expand, the source of a volume would expand to the
same. With such a placeholder they are rejected, and their workload is not converted.
-/

namespace Stowage

/-! ## Filling in two ways -/

namespace Template

/-- A resolver that fails wherever it differs from another one fills a text alike, or fails at such
a reference. -/
theorem fill_eq_or {f g : List Char → Except ε (List Char)} {P : List Char → Prop}
    (agree : ∀ reference, ¬P reference → f reference = g reference)
    (fails : ∀ reference, P reference → ∃ e, f reference = .error e) (l : List Piece) :
    fill f l = fill g l ∨ ∃ reference e, .placeholder reference ∈ l ∧ P reference ∧
      f reference = .error e ∧ fill f l = .error e := by
  induction l with
  | nil => exact .inl rfl
  | cons p l ih =>
    cases p with
    | char c =>
      rcases ih with h | ⟨other, e, hmem, hP, he, h⟩
      · exact .inl (by rw [fill, fill, h])
      · exact .inr ⟨other, e, List.mem_cons_of_mem _ hmem, hP, he, by rw [fill, h]; rfl⟩
    | placeholder reference =>
      by_cases hP : P reference
      · obtain ⟨e, he⟩ := fails reference hP
        exact .inr ⟨reference, e, List.mem_cons_self, hP, he, by rw [fill, he]; rfl⟩
      · rcases ih with h | ⟨other, e, hmem, hP', he, h⟩
        · exact .inl (by rw [fill, fill, agree reference hP, h])
        · -- a failure of both comes first, and hides the one behind it
          cases hg : g reference with
          | error e' => exact .inl (by rw [fill, fill, agree reference hP, hg]; rfl)
          | ok v =>
            refine .inr ⟨other, e, List.mem_cons_of_mem _ hmem, hP', he, ?_⟩
            rw [fill, agree reference hP, hg, h]
            rfl

end Template

/-! ## References -/

namespace Reference

theorem ofSegments_mode (text : String) {l : List String} (h : ∀ name, l ≠ ["resources", name]) :
    ofSegments text .general l = ofSegments text .volumeSource l := by
  unfold ofSegments
  split
  · rfl
  · next name => exact absurd rfl (h name)
  · rfl
  · rfl
  · rfl

theorem parse_of_identity {text name : String} (h : Segments.ofText text = ["resources", name]) :
    parse text .general = .error (.missingOutputKey text) := by
  rw [parse, h]
  rfl

end Reference

namespace Scope
open Mount Template
variable (scope : Scope)

def NamesIdentity (reference : List Char) : Prop :=
  ∃ name, Segments.ofText (String.ofList reference) = ["resources", name]

theorem resolveChars_mode {reference : List Char} (h : ¬NamesIdentity reference) :
    scope.resolveChars .general reference = scope.resolveChars .volumeSource reference := by
  have hsegments := Reference.ofSegments_mode (String.ofList reference) fun name hname =>
    h ⟨name, hname⟩
  rw [resolveChars, resolveChars, resolve, resolve, Reference.parse, Reference.parse, hsegments]

theorem resolveChars_of_identity {reference : List Char} (h : NamesIdentity reference) :
    scope.resolveChars .general reference =
      .error (.missingOutputKey (String.ofList reference)) := by
  obtain ⟨name, hname⟩ := h
  rw [resolveChars, resolve, Reference.parse_of_identity hname]
  rfl

theorem expand_modes (text : String) :
    scope.expand .general text = scope.expand .volumeSource text ∨
      ∃ reference name, .placeholder reference ∈ pieces text.toList ∧
        Segments.ofText (String.ofList reference) = ["resources", name] ∧
        scope.expand .general text = .error (.missingOutputKey (String.ofList reference)) := by
  have agree (reference : List Char) (h : ¬NamesIdentity reference) :=
    scope.resolveChars_mode h
  have fails (reference : List Char) (h : NamesIdentity reference) :
      ∃ e, scope.resolveChars .general reference = .error e :=
    ⟨_, scope.resolveChars_of_identity h⟩
  unfold expand Template.expand
  rcases fill_eq_or agree fails (pieces text.toList) with h | ⟨reference, e, hmem, hnames, he, h⟩
  · exact .inl (by rw [h])
  · rw [scope.resolveChars_of_identity hnames] at he
    cases he
    obtain ⟨name, hname⟩ := hnames
    exact .inr ⟨reference, name, hmem, hname, by rw [h]; rfl⟩

theorem expand_general_of_embedsIdentity {text : String} (h : EmbedsIdentity text) :
    ∃ e, scope.expand .general text = .error e := by
  obtain ⟨reference, name, hmem, hname⟩ := h
  have herror := scope.resolveChars_of_identity ⟨name, hname⟩
  obtain ⟨e, he⟩ := exists_fill_eq_error.mpr ⟨reference, _, hmem, herror⟩
  refine ⟨e, ?_⟩
  rw [expand, Template.expand, he]
  rfl

end Scope

/-! ## Texts of a conversion -/

/-- The values of variables and the contents of files, but for those that are kept as they are. -/
def Workload.Container.Expands (c : Workload.Container) (text : String) : Prop :=
  (∃ name, (name, text) ∈ c.environment.toList) ∨
    ∃ f ∈ c.files, f.noExpand = false ∧ f.content = some text

theorem Mount.expand_of_fileContent {f : Workload.File} {scope : Scope} {content : FileContent}
    (h : fileContent f scope = .ok content) (expanded : f.noExpand = false) {text : String}
    (htext : f.content = some text) : ∃ out, scope.expand .general text = .ok out := by
  unfold fileContent at h
  rw [htext, expanded] at h
  cases hbinary : f.binaryContent with
  | some encoded =>
    rw [hbinary] at h
    cases h
  | none =>
    rw [hbinary] at h
    obtain ⟨out, hout, -⟩ := map_eq_ok.mp h
    exact ⟨out, resolved_eq_ok.mp hout⟩

namespace Conversion

theorem expand_of_assemble {workload name : String} {c : Workload.Container} {kind : WorkloadKind}
    {scope : Scope} {a : Assembled} (h : assemble workload name c kind scope = .ok a)
    {text : String} (htext : c.Expands text) : ∃ out, scope.expand .general text = .ok out := by
  obtain ⟨compute, -, h⟩ := bind_eq_ok.mp h
  obtain ⟨env, henv, h⟩ := bind_eq_ok.mp h
  obtain ⟨vs, -, h⟩ := bind_eq_ok.mp h
  obtain ⟨fs, hfs, -⟩ := bind_eq_ok.mp h
  rcases htext with ⟨key, hmem⟩ | ⟨f, hf, expanded, htext⟩
  · have each := forall₂_of_mapM_eq_ok (inField_eq_ok.mp henv)
    obtain ⟨v, -, hv⟩ := exists_right_of_mem each hmem
    obtain ⟨out, hout, -⟩ := map_eq_ok.mp hv
    exact ⟨out, resolved_eq_ok.mp hout⟩
  · obtain ⟨i, hi⟩ := List.mem_iff_getElem?.mp hf
    obtain ⟨m, -, hm⟩ := exists_getElem?_of_convertEach hfs hi
    obtain ⟨_, _, _, content, -, -, hcontent, -⟩ := Mount.ofFile_eq_ok (inField_eq_ok.mp hm)
    exact Mount.expand_of_fileContent hcontent expanded htext

theorem expand_of_convert {w : Workload} {outputs : Outputs} {o : Options} {ms : List Manifest}
    (h : convert w outputs o = .ok ms) : ∃ scope : Scope, ∀ e ∈ w.containers.toList, ∀ text,
      e.2.Expands text → ∃ out, scope.expand .general text = .ok out := by
  obtain ⟨name, kind, l, -, hl, -⟩ := convert_eq_ok h
  refine ⟨.ofWorkload name w outputs, fun e he text htext => ?_⟩
  obtain ⟨a, -, ha⟩ := exists_right_of_mem (forall₂_of_mapM_eq_ok hl) he
  exact expand_of_assemble (inField_eq_ok.mp ha) htext

end Conversion

namespace Scope
open Mount

/-- Both modes give the same for texts that embed no identity. Any other text fails in general mode,
as it does as a source, or as an identity that lacks its key. -/
theorem volumeSource_extends_general (scope : Scope) :
    (∀ text, ¬EmbedsIdentity text →
      scope.expand .general text = scope.expand .volumeSource text) ∧
    (∀ text, EmbedsIdentity text → ∃ e, scope.expand .general text = .error e ∧
      (scope.expand .volumeSource text = .error e ∨ ∃ reference name,
        Segments.ofText reference = ["resources", name] ∧ e = .missingOutputKey reference)) ∧
    (∀ text out, scope.expand .general text = .ok out →
      scope.expand .volumeSource text = .ok out) ∧
    ∀ (w : Workload) (outputs : Outputs) (o : Conversion.Options), ∀ c ∈ w.containers.toList,
      ∀ text, c.2.Expands text → EmbedsIdentity text → ∃ f, convert w outputs o = .error f := by
  refine ⟨?_, ?_, ?_, ?_⟩
  · intro text plain
    rcases scope.expand_modes text with h | ⟨reference, name, hmem, hname, -⟩
    · exact h
    · exact absurd ⟨reference, name, hmem, hname⟩ plain
  · intro text embeds
    obtain ⟨e, he⟩ := scope.expand_general_of_embedsIdentity embeds
    refine ⟨e, he, ?_⟩
    rcases scope.expand_modes text with h | ⟨reference, name, -, hname, h⟩
    · exact .inl (h ▸ he)
    · rw [he] at h
      cases h
      exact .inr ⟨_, name, hname, rfl⟩
  · intro text out hout
    rcases scope.expand_modes text with h | ⟨reference, name, -, -, h⟩
    · exact h ▸ hout
    · rw [hout] at h
      cases h
  · intro w outputs o c hc text htext embeds
    cases h : convert w outputs o with
    | error f => exact ⟨f, rfl⟩
    | ok ms =>
      obtain ⟨scope, hscope⟩ := Conversion.expand_of_convert h
      obtain ⟨out, hout⟩ := hscope c hc text htext
      obtain ⟨e, he⟩ := scope.expand_general_of_embedsIdentity embeds
      rw [hout] at he
      cases he

theorem volumeSource_extends_general_of_escaped_dot :
    let output := "/$\x7bresources.tls.web\x7d"
    let identity := "/$\x7bresources.tls\\.web\x7d"
    let c : Workload.Container := { Workload.Container.ofImage "app" with
      environment := .singleton "DIR" identity }
    let w := ((Workload.ofName "api").addContainer "main" c).addResource "tls"
      ⟨"secret", none, none⟩
    let outputs := Outputs.empty.insert "tls" "web" "crt"
    let scope : Scope := .ofWorkload "api" w outputs
    ¬EmbedsIdentity output ∧ scope.expand .general output = .ok "/crt" ∧
      scope.expand .general output = scope.expand .volumeSource output ∧
      scope.expand .volumeSource output = .ok "/crt" ∧ EmbedsIdentity identity ∧
      (∃ e, scope.expand .general identity = .error e ∧
        (scope.expand .volumeSource identity = .error e ∨ ∃ reference name,
          Segments.ofText reference = ["resources", name] ∧ e = .missingOutputKey reference)) ∧
      c.Expands identity ∧ ∃ f, convert w outputs .unset = .error f := by
  intro output identity c w outputs scope
  obtain ⟨same, fails, extending, rejected⟩ := volumeSource_extends_general scope
  have plain : ¬EmbedsIdentity output := by
    rintro ⟨reference, name, hmem, hname⟩
    have hpieces : Template.pieces output.toList =
        [.char '/', .placeholder "resources.tls.web".toList] := by decide
    rw [hpieces] at hmem
    have href : reference = "resources.tls.web".toList := by simpa using hmem
    have hsegments : Segments.ofText "resources.tls.web" = ["resources", "tls", "web"] := by decide
    rw [href, String.ofList_toList, hsegments] at hname
    simp at hname
  have embeds : EmbedsIdentity identity :=
    ⟨"resources.tls\\.web".toList, "tls.web", by decide, by decide⟩
  have expands : c.Expands identity := .inl ⟨"DIR", List.mem_singleton.mpr rfl⟩
  have hout : scope.expand .general output = .ok "/crt" := by decide
  exact ⟨plain, hout, same _ plain, extending _ _ hout, embeds, fails _ embeds, expands,
    rejected w outputs .unset _ (List.mem_singleton.mpr rfl) _ expands embeds⟩

end Scope
end Stowage
