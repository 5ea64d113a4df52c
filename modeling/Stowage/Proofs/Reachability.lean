import Stowage.Proofs.Placeholders

/-!
# What placeholders reach

Every value within the metadata and every output of a declared resource has a placeholder, as long
as the keys on the way to it are made of the characters of references. Which key is meant is not
lost on the way: neither to the dots within keys nor to keys that are empty.
-/

namespace Stowage

/-! ## Entries by key -/

theorem KeySorted.distinct {l : List (String × β)} (h : KeySorted l) : KeyDistinct l := by
  refine List.pairwise_map.mpr (h.imp fun {a b} hab heq => ?_)
  exact String.lt_irrefl b.1 (heq ▸ hab)

theorem KeyDistinct.lookup_eq_some_iff {l : List (String × β)} (h : KeyDistinct l) {k : String}
    {x : β} : l.lookup k = some x ↔ (k, x) ∈ l := ⟨mem_of_lookup_eq_some, h.lookup_of_mem⟩

theorem OrderedMap.contains_iff {m : OrderedMap β} {k : String} :
    m.contains k = true ↔ ∃ x, (k, x) ∈ m.toList := by
  rw [contains, Option.isSome_iff_exists]
  exact exists_congr fun x => m.distinct.lookup_eq_some_iff

theorem Outputs.get?_eq_some_iff {o : Outputs} {resource key value : String} :
    o.get? resource key = some value ↔
      ∃ values, (resource, values) ∈ o.byResource.toList ∧ (key, value) ∈ values.toList := by
  rw [get?, Option.bind_eq_some_iff]
  refine exists_congr fun values => ?_
  rw [of?, SortedMap.get?, SortedMap.get?, o.byResource.sorted.distinct.lookup_eq_some_iff,
    values.sorted.distinct.lookup_eq_some_iff]

/-! ## Paths through nested objects -/

namespace Json

inductive Leads : Json → List String → Json → Prop
  | here (j) : Leads j [] j
  | under {l k j path j'} : (k, j) ∈ l → Leads j path j' → Leads (.obj l) (k :: path) j'

theorem leads_iff {j j' : Json} (h : j.canonical = true) {path : List String} :
    j.Leads path j' ↔ j.walk? path = some j' := by
  induction path generalizing j with
  | nil =>
    rw [walk?, Option.some.injEq]
    constructor
    · rintro ⟨⟩
      rfl
    · rintro rfl
      exact .here j
  | cons k path ih =>
    cases j with
    | obj l =>
      obtain ⟨sorted, items⟩ := canonical_obj.mp h
      rw [walk?, Option.bind_eq_some_iff]
      constructor
      · rintro (_ | ⟨hmem, hrest⟩)
        exact ⟨_, sorted.distinct.lookup_of_mem hmem, (ih (items _ hmem)).mp hrest⟩
      · rintro ⟨next, hnext, hrest⟩
        have hmem := mem_of_lookup_eq_some hnext
        exact .under hmem ((ih (items _ hmem)).mpr hrest)
    | _ => constructor <;> rintro ⟨⟩

/-- Texts stand for themselves, other values for their compact form. -/
inductive Shown : Json → String → Prop
  | text (s) : Shown (.str s) s
  | other {j} : (∀ s, j ≠ .str s) → Shown j j.text

theorem shown_iff {j : Json} {out : String} : j.Shown out ↔ out = j.plain := by
  constructor
  · rintro (_ | hother)
    · rfl
    · cases j with
      | str s => exact absurd rfl (hother s)
      | _ => rfl
  · rintro rfl
    cases j with
    | str s => exact .text s
    | _ => exact .other fun s => by simp

end Json

/-! ## Placeholders -/

namespace Scope
variable {scope : Scope} {mode : ReferenceMode}

theorem expand_metadata_eq_ok {path : List String} (h : Referable path) {out : String} :
    scope.expand mode (placeholder ("metadata" :: path)) = .ok out ↔
      ∃ j, scope.metadata.json.Leads path j ∧ j.Shown out := by
  obtain ⟨key, rest, rfl⟩ := List.exists_cons_of_ne_nil (referable_iff.mp h).1
  have hleads (j : Json) : scope.metadata.json.Leads (key :: rest) j ↔
      scope.metadata.lookup? (key :: rest) = some j := Json.leads_iff scope.metadata.canonical
  rw [scope.expand_placeholder mode (.cons (by decide) h) (by simp)]
  simp only [Reference.ofSegments, bind, Except.bind, lookup, hleads, Json.shown_iff]
  cases scope.metadata.lookup? (key :: rest) with
  | none => simp
  | some j => simp [eq_comm]

theorem expand_output_eq_ok {resource key : String} (h : Referable [resource, key])
    {out : String} : scope.expand mode (placeholder ["resources", resource, key]) = .ok out ↔
      (∃ r, (resource, r) ∈ scope.resources.toList) ∧
      ∃ values, (resource, values) ∈ scope.outputs.byResource.toList ∧
        (key, out) ∈ values.toList := by
  have hkey : dotted [key] = key := rfl
  rw [scope.expand_placeholder mode (.cons (by decide) h) (by simp),
    ← OrderedMap.contains_iff, ← Outputs.get?_eq_some_iff]
  simp only [Reference.ofSegments, bind, Except.bind, lookup, hkey]
  cases scope.resources.contains resource with
  | false => simp
  | true => cases scope.outputs.get? resource key <;> simp

/-- Every value that is reached by keys of reference characters has a placeholder, which expands to
it and to nothing else. -/
theorem expand_reachable (scope : Scope) (mode : ReferenceMode) :
    (∀ path, Referable path → ∀ out,
      (scope.expand mode (placeholder ("metadata" :: path)) = .ok out ↔
        ∃ j, scope.metadata.json.Leads path j ∧ j.Shown out)) ∧
    ∀ resource key, Referable [resource, key] → ∀ out,
      (scope.expand mode (placeholder ["resources", resource, key]) = .ok out ↔
        (∃ r, (resource, r) ∈ scope.resources.toList) ∧
        ∃ values, (resource, values) ∈ scope.outputs.byResource.toList ∧
          (key, out) ∈ values.toList) :=
  ⟨fun _ h _ => expand_metadata_eq_ok h, fun _ _ h _ => expand_output_eq_ok h⟩

theorem expand_reachable_of_odd_keys :
    let inner : List (String × Json) := [("a.b\\", .str "x"), ("depth", .arr [.bool true])]
    let metadata : Metadata := ⟨[("resources", .obj [("", .obj inner)])], by decide⟩
    let resources := OrderedMap.empty.insert "db.main" ⟨"postgres", none, none⟩
    let scope : Scope := ⟨"api", metadata, resources,
      Outputs.empty.insert "db.main" "tls.\\" "off"⟩
    Referable ["resources", "", "a.b\\"] ∧ Referable ["resources", "", "depth"] ∧
      Referable ["db.main", "tls.\\"] ∧
      scope.expand .general "$\x7bmetadata.resources..a\\.b\\\x7d" = .ok "x" ∧
      scope.expand .general "$\x7bmetadata.resources..depth\x7d" = .ok "[true]" ∧
      scope.expand .volumeSource "$\x7bresources.db\\.main.tls\\.\\\x7d" = .ok "off" := by
  intro inner metadata resources scope
  have text : Referable ["resources", "", "a.b\\"] := by decide
  have list : Referable ["resources", "", "depth"] := by decide
  have output : Referable ["db.main", "tls.\\"] := by decide
  have below {k : String} {j : Json} (h : (k, j) ∈ inner) :
      metadata.json.Leads ["resources", "", k] j :=
    .under (List.mem_singleton.mpr rfl) (.under (List.mem_singleton.mpr rfl) (.under h (.here j)))
  refine ⟨text, list, output, ?_, ?_, ?_⟩
  · exact ((expand_reachable scope .general).1 _ text _).mpr
      ⟨.str "x", below List.mem_cons_self, .text "x"⟩
  · exact ((expand_reachable scope .general).1 _ list _).mpr
      ⟨.arr [.bool true], below (by simp [inner]), .other (by simp)⟩
  · exact ((expand_reachable scope .volumeSource).2 _ _ output _).mpr
      ⟨⟨_, List.mem_singleton.mpr rfl⟩, _, List.mem_singleton.mpr rfl, List.mem_singleton.mpr rfl⟩

end Scope
end Stowage
