import Stowage.Proofs.Parsing
import Stowage.Proofs.Runs
import Stowage.Workload.Loading
import Stowage.Workload.Writing

/-!
# Workloads that are written and read back

Each record is read back from the document of the value that it is written as, so a named workload
comes back whole from its text.
-/

namespace Stowage

/-! ## Documents of values -/

@[simp] theorem Decoding.liftM_some (a : α) : (liftM (some a) : Decoding α) = pure a := rfl

theorem Decoding.mapM_pure (l : List α) : l.mapM (fun a => (pure a : Decoding α)) = pure l := by
  rw [List.mapM_pure, List.map_id']

namespace Json

theorem itemNodes_eq_map (l : List Json) : itemNodes l = l.map node := by
  induction l with
  | nil => rfl
  | cons j l ih => rw [itemNodes, ih, List.map_cons]

theorem entryNodes_eq_map (l : List (String × Json)) :
    entryNodes l = l.map fun e => (.scalar (.ofQuoted (some e.1)), e.2.node) := by
  induction l with
  | nil => rfl
  | cons e l ih => rw [entryNodes, ih, List.map_cons]

theorem integral_arr {l : List Json} :
    (arr l).integral = true ↔ ∀ j ∈ l, j.integral = true := by
  rw [integral]
  induction l with
  | nil => simp [integralItems]
  | cons j l ih => simp [integralItems, ih]

theorem integral_obj {l : List (String × Json)} :
    (obj l).integral = true ↔ ∀ e ∈ l, e.2.integral = true := by
  rw [integral]
  induction l with
  | nil => simp [integralEntries]
  | cons e l ih => simp [integralEntries, ih]

end Json

theorem Node.optional?_node {read : Node → Decoding α} {j : Json} (hj : j ≠ .null) :
    optional? read j.node = some <$> read j.node := by
  cases j with
  | null => exact absurd rfl hj
  | bool b => simp [Json.node, optional?, Scalar.ofBool, Scalar.unreadable]
  | num n => simp [Json.node, optional?, Scalar.ofNumber, Scalar.unreadable]
  | str s => simp [Json.node, optional?, Scalar.ofQuoted, Scalar.unreadable]
  | arr l => simp [Json.node, optional?]
  | obj l => simp [Json.node, optional?]

/-! ## Readers that invert writers -/

/-- What is written is read back, is never taken for something absent, and brings no number beyond
64 bits. -/
structure Inverts (read : Node → Decoding α) (write : α → Json) : Prop where
  reads (a : α) : read (write a).node = pure a
  present (a : α) : write a ≠ .null
  integral (a : α) : (write a).integral = true

theorem text_inverts : Inverts Node.text? .str := ⟨fun _ => rfl, nofun, fun _ => rfl⟩

theorem flag_inverts : Inverts Node.flag? .bool := ⟨fun _ => rfl, nofun, fun _ => rfl⟩

theorem port_inverts : Inverts Node.port? fun p => .ofNat p.toNat where
  reads p := by
    have h : p.toNat < UInt16.size := p.toNat_lt
    simp [Json.ofNat, Json.node, Scalar.ofNumber, Node.port?, Node.scalar?, h]
  present _ := nofun
  integral p := by
    have h : p.toNat < UInt16.size := p.toNat_lt
    simp only [UInt16.size] at h
    simp only [Json.ofNat, Json.integral, Number.isWord, Bool.and_eq_true, decide_eq_true_eq]
    omega

namespace Inverts

variable {read : Node → Decoding α} {write : α → Json}

theorem option (h : Inverts read write) (o : Option α) :
    Node.optional? read (Json.ofOption write o).node = pure o := by
  cases o with
  | none => rfl
  | some a => rw [Json.ofOption, Node.optional?_node (h.present a), h.reads, map_pure]

theorem option_integral (h : Inverts read write) (o : Option α) :
    (Json.ofOption write o).integral = true := by
  cases o with
  | none => rfl
  | some a => exact h.integral a

theorem list (h : Inverts read write) (l : List α) :
    Node.list? read (Json.arr (l.map write)).node = pure l := by
  simp only [Json.node, Json.itemNodes_eq_map, Node.list?, Node.content_list, pure_bind,
    List.map_map, List.mapM_map, Function.comp_def, h.reads]
  exact Decoding.mapM_pure l

theorem list_integral (h : Inverts read write) (l : List α) :
    (Json.arr (l.map write)).integral = true := by
  simp [Json.integral_arr, h.integral]

theorem entries (h : Inverts read write) (l : List (String × α)) :
    Node.entries? read (Json.obj (l.map fun e => (e.1, write e.2))).node = pure l := by
  simp only [Json.node, Json.entryNodes_eq_map, Node.entries?, Node.content_fields, pure_bind,
    List.map_map, List.mapM_map, Function.comp_def, Node.text?_ofQuoted, h.reads]
  exact Decoding.mapM_pure l

theorem entries_integral (h : Inverts read write) (l : List (String × α)) :
    (Json.obj (l.map fun e => (e.1, write e.2))).integral = true := by
  rw [Json.integral_obj, List.forall_mem_map]
  exact fun e _ => h.integral e.2

theorem sortedMap (h : Inverts read write) (m : SortedMap α) :
    Node.sortedMap? read (Json.obj (m.toList.map fun e => (e.1, write e.2))).node = pure m := by
  rw [Node.sortedMap?, h.entries, map_pure, SortedMap.ofList_toList]

theorem orderedMap (h : Inverts read write) (m : OrderedMap α) :
    Node.orderedMap? read (Json.obj (m.toList.map fun e => (e.1, write e.2))).node = pure m := by
  rw [Node.orderedMap?, h.entries, map_pure, OrderedMap.ofList_toList]

end Inverts

/-! ## Records -/

def Record.written (l : List (String × Json)) : Record := ⟨l.map fun e => (e.1, e.2.node)⟩

theorem Node.record?_obj {known : List String} {l : List (String × Json)}
    (hknown : l.map Prod.fst = known) (hdistinct : known.Nodup) :
    Node.record? known (Json.obj l).node = pure (.written l) := by
  have hfilter : l.filter (fun e => decide (e.1 ∈ known)) = l := by
    rw [List.filter_eq_self]
    intro e he
    rw [decide_eq_true_eq, ← hknown]
    exact List.mem_map_of_mem he
  have hlength : (l.map fun e => e.1).eraseDups.length = l.length := by
    rw [eraseDups_of_nodup (hknown ▸ hdistinct), List.length_map]
  simp [Json.node, Json.entryNodes_eq_map, record?, Function.comp_def, List.filter_map, hfilter,
    hlength, Record.written]

namespace Record

variable {k name : String} {j : Json} {l : List (String × Json)} {read : Node → Decoding α}

@[simp] theorem required?_cons : (written ((k, j) :: l)).required? name read =
    if name = k then read j.node else (written l).required? name read := by
  rw [required?, written, List.map_cons, lookup_cons_eq_ite]
  split <;> rfl

@[simp] theorem defaulted?_cons {fallback : α} :
    (written ((k, j) :: l)).defaulted? name fallback read =
      if name = k then read j.node else (written l).defaulted? name fallback read := by
  simp only [defaulted?, written, List.map_cons, lookup_cons_eq_ite]
  by_cases h : name = k
  · simp [h]
  · simp [h]

@[simp] theorem optional?_cons : (written ((k, j) :: l)).optional? name read =
    if name = k then Node.optional? read j.node else (written l).optional? name read :=
  defaulted?_cons

@[simp] theorem list?_cons : (written ((k, j) :: l)).list? name read =
    if name = k then Node.list? read j.node else (written l).list? name read :=
  defaulted?_cons

end Record

/-! ## Parts of a workload -/

theorem Resource.inverts : Inverts Resource.ofNode? Resource.json where
  reads r := by
    simp [ofNode?, json, fieldNames, Node.record?_obj, text_inverts.reads, text_inverts.option]
  present _ := nofun
  integral r := by
    simp [json, Json.integral_obj, text_inverts.integral, text_inverts.option_integral]

namespace Workload

theorem Quantities.inverts : Inverts Quantities.ofNode? Quantities.json where
  reads q := by simp [ofNode?, json, Node.record?_obj, text_inverts.option]
  present _ := nofun
  integral q := by simp [json, Json.integral_obj, text_inverts.option_integral]

theorem Compute.inverts : Inverts Compute.ofNode? Compute.json where
  reads c := by simp [ofNode?, json, Node.record?_obj, Quantities.inverts.option]
  present _ := nofun
  integral c := by simp [json, Json.integral_obj, Quantities.inverts.option_integral]

theorem Claim.inverts : Inverts Claim.ofNode? Claim.json where
  reads c := by
    simp [ofNode?, json, Node.record?_obj, Json.ofStrings, text_inverts.reads, text_inverts.option,
      text_inverts.list]
  present _ := nofun
  integral c := by
    simp [json, Json.integral_obj, Json.ofStrings, text_inverts.integral,
      text_inverts.option_integral, text_inverts.list_integral]

theorem Volume.inverts : Inverts Volume.ofNode? Volume.json where
  reads v := by
    simp [ofNode?, json, Node.record?_obj, text_inverts.reads, text_inverts.option,
      flag_inverts.option, Claim.inverts.option]
  present _ := nofun
  integral v := by
    simp [json, Json.integral_obj, text_inverts.integral, text_inverts.option_integral,
      flag_inverts.option_integral, Claim.inverts.option_integral]

theorem File.inverts : Inverts File.ofNode? File.json where
  reads f := by
    simp [ofNode?, json, Node.record?_obj, text_inverts.reads, text_inverts.option,
      flag_inverts.reads]
  present _ := nofun
  integral f := by
    simp [json, Json.integral_obj, text_inverts.integral, text_inverts.option_integral,
      flag_inverts.integral]

theorem Header.inverts : Inverts Header.ofNode? Header.json where
  reads h := by simp [ofNode?, json, Node.record?_obj, text_inverts.reads]
  present _ := nofun
  integral h := by simp [json, Json.integral_obj, text_inverts.integral]

theorem Probe.inverts : Inverts Probe.ofNode? Probe.json where
  reads p := by
    simp [ofNode?, json, Node.record?_obj, text_inverts.reads, text_inverts.option,
      port_inverts.reads, Header.inverts.list]
  present _ := nofun
  integral p := by
    simp [json, Json.integral_obj, text_inverts.integral, text_inverts.option_integral,
      port_inverts.integral, Header.inverts.list_integral]

theorem Probe.handler_inverts : Inverts Probe.ofHandlerNode? Probe.handlerJson where
  reads p := by simp [ofHandlerNode?, handlerJson, Node.record?_obj, Probe.inverts.reads]
  present _ := nofun
  integral p := by simp [handlerJson, Json.integral_obj, Probe.inverts.integral]

theorem Container.inverts : Inverts Container.ofNode? Container.json where
  reads c := by
    simp [ofNode?, json, Node.record?_obj, Json.ofStrings, Json.ofMap, text_inverts.reads,
      text_inverts.list, text_inverts.sortedMap, Compute.inverts.option, Volume.inverts.list,
      File.inverts.list, Probe.handler_inverts.option]
  present _ := nofun
  integral c := by
    simp [json, Json.integral_obj, Json.ofStrings, Json.ofMap, text_inverts.integral,
      text_inverts.list_integral, text_inverts.entries_integral, Compute.inverts.option_integral,
      Volume.inverts.list_integral, File.inverts.list_integral,
      Probe.handler_inverts.option_integral]

theorem Port.inverts : Inverts Port.ofNode? Port.json where
  reads p := by
    simp [ofNode?, json, Node.record?_obj, text_inverts.option, port_inverts.reads,
      port_inverts.option]
  present _ := nofun
  integral p := by
    simp [json, Json.integral_obj, text_inverts.option_integral, port_inverts.integral,
      port_inverts.option_integral]

theorem Service.inverts : Inverts Service.ofNode? Service.json where
  reads s := by simp [ofNode?, json, Node.record?_obj, Port.inverts.orderedMap]
  present _ := nofun
  integral s := by simp [json, Json.integral_obj, Port.inverts.entries_integral]

end Workload

/-! ## The workload -/

theorem Metadata.ofNode?_json (m : Metadata) : Metadata.ofNode? m.json.node = pure m := by
  have h : m.json.node.entries? Node.value? = pure m.entries := by
    simp only [json, Json.node, Json.entryNodes_eq_map, Node.entries?, Node.content_fields,
      pure_bind, List.mapM_map, Function.comp_def, Node.text?_ofQuoted, Json.value?_node]
    exact Decoding.mapM_pure m.entries
  rw [ofNode?, h, map_pure, ofEntries_entries]

namespace Workload

theorem ofNode?_json (w : Workload) : ofNode? w.json.node = pure w := by
  simp [ofNode?, json, containersJson, resourcesJson, Node.record?_obj, text_inverts.reads,
    Metadata.ofNode?_json, Container.inverts.orderedMap, Service.inverts.option,
    Resource.inverts.orderedMap]

theorem integral_json {w : Workload} (h : w.metadata.json.integral = true) :
    w.json.integral = true := by
  simp [json, Json.integral_obj, containersJson, resourcesJson, text_inverts.integral, h,
    Container.inverts.entries_integral, Service.inverts.option_integral,
    Resource.inverts.entries_integral]

theorem load_text {w : Workload} (numbers : w.metadata.json.integral = true)
    (depth : w.json.height ≤ Document.maxDepth) : load .json w.json.text = .ok w := by
  have hread := Document.ofJson?_text (integral_json numbers) depth
  simp [load, loadAs, Document.read?, hread, Document.decode?, ofNode?_json]

/-- A named workload is read back whole from the text that it is written as. -/
theorem loadNamed_text {w : Workload} {name : String} (hname : w.name? = some name)
    (nonempty : name ≠ "") (numbers : w.metadata.json.integral = true)
    (depth : w.json.height ≤ 127) : loadNamed .json w.json.text = .ok w := by
  have hload := load_text numbers depth
  have hnamed : w.isNamed = true := by simp [isNamed, hname, nonempty]
  rw [loadNamed, hload]
  exact if_pos hnamed

theorem loadNamed_text_of_shop :
    let volume : Volume := { Volume.ofSource "${resources.data}" "/data" with
      path := some "sub"
      readOnly := some false
      claim := some ⟨"1Gi", none, ["ReadWriteOnce"]⟩ }
    let probe : Probe := ⟨some "HTTPS", none, "/up", 65535, [⟨"X-\\", "\"a\tb\u0001\""⟩]⟩
    let web : Container := { Container.ofImage "shop:é😀" with
      args := ["", "--x"]
      environment := .ofList [("B", "2"), ("A", "${metadata.name}")]
      compute := some ⟨some ⟨none, some "64Mi"⟩, none⟩
      volumes := [volume, .ofSource "/srv" "/srv"]
      files := [⟨"/etc/a", some "0644", none, some "AAE=", true⟩]
      livenessProbe := some probe }
    let w : Workload := {
      apiVersion := "score.dev/v1b1"
      metadata := .ofEntries [("name", .str "shop"), ("annotations", .obj []), ("numbers",
        .arr [.ofInt (-9223372036854775808), .ofNat 18446744073709551615, .null, .bool true])]
      containers := .ofList [("web", web), ("api", .ofImage "api")]
      service := some ⟨.ofList [("www", ⟨443, some 8080, none⟩), ("admin", ⟨81, none, some "UDP"⟩)]⟩
      resources := .ofList [("dns", ⟨"dns", none, none⟩), ("data", ⟨"volume", some "big", none⟩)] }
    w.name? = some "shop" ∧ w.metadata.json.integral = true ∧ w.json.height ≤ 127 ∧
      loadNamed .json w.json.text = .ok w := by
  intro volume probe web w
  have hname : w.name? = some "shop" := by decide +kernel
  have numbers : w.metadata.json.integral = true := by decide +kernel
  have depth : w.json.height ≤ 127 := by decide +kernel
  exact ⟨hname, numbers, depth, loadNamed_text hname (by decide) numbers depth⟩

end Workload
end Stowage
