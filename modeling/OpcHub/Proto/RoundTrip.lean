import Mathlib.Algebra.BigOperators.Group.List.Basic
import Mathlib.Algebra.Order.Ring.Nat
import OpcHub.Proto.Codec

/-! What the codec keeps. A value read back is the value written, but for what a message
cannot say: a null string comes back empty, a subtype as its built-in type, an enum as its
Int32 and a structure in its binary form. The check for text that a reader would refuse
looks at the strings the message holds and no others. -/

namespace OpcHub.Proto

open List Variant Value Descriptor

section Read

variable (lib : Vendor)

def UAString.read (s : UAString) : UAString := some (toSV s)

def Identifier.read : Identifier → Identifier
  | .numeric n => .numeric n
  | .string s => .string (UAString.read s)
  | .guid g => .guid g
  | .byteString s => .byteString (UAString.read s)

def NodeId.read (id : NodeId) : NodeId := ⟨id.namespaceIndex, id.identifier.read⟩

def ExpandedNodeId.read (id : ExpandedNodeId) : ExpandedNodeId :=
  ⟨id.nodeId.read, UAString.read id.namespaceUri, id.serverIndex⟩

/-- A structure in its binary form. -/
def encodedRead (p : Memory) (type : DataType) : ExtensionObject :=
  .byteString type.binaryEncodingId.read (lib.encodeBinary p type).toOption

def ExtensionObject.read : ExtensionObject → ExtensionObject
  | .noBody typeId => .noBody typeId.read
  | .byteString typeId body => .byteString typeId.read (UAString.read body)
  | .xml typeId body => .xml typeId.read (UAString.read body)
  | .decoded (some type) (some data) => encodedRead lib data type
  | .decoded type data => .decoded type data

/-- The kind a value comes back as. -/
def Kind.read : Kind → Kind
  | .enum => .int32
  | .decimal => .extensionObject
  | .struct => .extensionObject
  | .optStruct => .extensionObject
  | .union => .extensionObject
  | k => k

def elementRead (type : DataType) : (k : Kind) → k.Data → k.read.Data
  | .boolean, b => b
  | .sbyte, n => n
  | .byte, n => n
  | .int16, n => n
  | .uint16, n => n
  | .int32, n => n
  | .uint32, n => n
  | .int64, n => n
  | .uint64, n => n
  | .float, bits => bits
  | .double, bits => bits
  | .string, s => UAString.read s
  | .dateTime, dt => dt
  | .guid, g => g
  | .byteString, s => UAString.read s
  | .xmlElement, s => UAString.read s
  | .nodeId, id => id.read
  | .expandedNodeId, id => id.read
  | .statusCode, n => n
  | .qualifiedName, qn => ⟨qn.namespaceIndex, UAString.read qn.name⟩
  | .localizedText, lt => lt
  | .extensionObject, eo => eo.read lib
  | .dataValue, u => u
  | .diagnosticInfo, u => u
  | .decimal, p => encodedRead lib p type
  | .enum, n => n
  | .struct, p => encodedRead lib p type
  | .optStruct, p => encodedRead lib p type
  | .union, p => encodedRead lib p type
  | .bitfieldCluster, u => u

mutual

/-- The variant as it comes back. -/
def Variant.read : Variant → Variant
  | .empty => .empty
  | .scalar type data => .scalar type.kind.read.type (elementRead lib type type.kind data)
  | .array type data dimensions =>
    .array type.kind.read.type (data.map (List.map (elementRead lib type type.kind))) dimensions
  | .single v => Variant.read v
  | .variants elements dimensions => .variants (Variant.reads elements) dimensions
  | .nullVariants dimensions => .nullVariants dimensions

def Variant.reads : List Variant → List Variant
  | [] => []
  | v :: vs => Variant.read v :: Variant.reads vs

end

end Read

section Parts

mutual

/-- A variant and the variants in it. -/
def Variant.parts : Variant → List Variant
  | .empty => [.empty]
  | .scalar type data => [.scalar type data]
  | .array type data dimensions => [.array type data dimensions]
  | .single v => .single v :: Variant.parts v
  | .variants elements dimensions => .variants elements dimensions :: Variant.allParts elements
  | .nullVariants dimensions => [.nullVariants dimensions]

def Variant.allParts : List Variant → List Variant
  | [] => []
  | v :: vs => Variant.parts v ++ Variant.allParts vs

end

variable (lib : Vendor)

def Kind.Inexact (k : Kind) : Prop := k = .float ∨ k = .double ∨ k = .dateTime

/-- A floating-point number or a DateTime, or an array of them. -/
def Variant.Inexact : Variant → Prop
  | .scalar type _ => type.kind.Inexact
  | .array type _ _ => type.kind.Inexact
  | .empty => False
  | .single _ => False
  | .variants _ _ => False
  | .nullVariants _ => False

def Shape (dimensions : List UInt32) (n : ℕ) : Prop := dimensions = [] ∨ (dimensions.map UInt32.toNat).prod = n

/-- An array's dimensions multiply to its length. -/
def Variant.Shaped : Variant → Prop
  | .array _ data dimensions => Shape dimensions (data.getD []).length
  | .variants elements dimensions => Shape dimensions elements.length
  | .nullVariants dimensions => Shape dimensions 0
  | .empty => True
  | .scalar _ _ => True
  | .single _ => True

/-- What has to be encoded can be. -/
def Encodes (p : Memory) (type : DataType) : Prop := ∃ body, lib.encodeBinary p type = .ok body

def elementEncodes (type : DataType) : (k : Kind) → k.Data → Prop
  | .extensionObject, .decoded t p => ∃ t' p', t = some t' ∧ p = some p' ∧ Encodes lib p' t'
  | .decimal, p => Encodes lib p type
  | .struct, p => Encodes lib p type
  | .optStruct, p => Encodes lib p type
  | .union, p => Encodes lib p type
  | _, _ => True

def Variant.Encodes : Variant → Prop
  | .scalar type data => elementEncodes lib type type.kind data
  | .array type data _ => ∀ d ∈ data.getD [], elementEncodes lib type type.kind d
  | .empty => True
  | .single _ => True
  | .variants _ _ => True
  | .nullVariants _ => True

/-- The values a message can say in full. -/
structure Plain (v : Variant) : Prop where
  exact : ∀ u ∈ v.parts, ¬ u.Inexact
  not_single : ∀ u ∈ v.parts, ∀ w, u ≠ .single w
  shaped : ∀ u ∈ v.parts, u.Shaped
  encodes : ∀ u ∈ v.parts, u.Encodes lib

end Parts

section Elements

variable {lib : Vendor}

@[simp] theorem toGuid_val (g : Guid) : toGuid g.val = g := Subtype.ext (by simp [toGuid, g.property])

theorem toNodeId_toNode (id : NodeId) : toNodeId (toNode id) = id.read := by
  obtain ⟨ns, identifier⟩ := id
  cases identifier with
  | guid g => simp [toNode, toNodeId, NodeId.read, Identifier.read]
  | _ => simp [toNode, toNodeId, NodeId.read, Identifier.read, UAString.read]

theorem toExNodeId_toExpandedNode (id : ExpandedNodeId) : toExNodeId (toExpandedNode id) = id.read := by
  simp [toExNodeId, toExpandedNode, ExpandedNodeId.read, toNodeId_toNode, UAString.read]

variable {type : DataType} {p : Memory}

theorem encoded_read (h : Encodes lib p type) :
    ∃ e, encoded lib p type = .ok e ∧ toScalarExtension e = encodedRead lib p type := by
  obtain ⟨body, hbody⟩ := h
  refine ⟨_, by rw [encoded, hbody], ?_⟩
  simp [toScalarExtension, encodedRead, hbody, toNodeId_toNode, Except.toOption]

theorem encoded_toVariant (h : Encodes lib p type) :
    ∃ y, (encoded lib p type).map extensionObject = .ok y ∧
      toVariant lib y = .ok (.scalar Kind.extensionObject.type (encodedRead lib p type)) := by
  obtain ⟨e, he, hread⟩ := encoded_read h
  exact ⟨.extensionObject e, by rw [he]; rfl, by rw [toVariant, hread]⟩

theorem toExtensionObject_read {eo : ExtensionObject} (h : elementEncodes lib type .extensionObject eo) :
    ∃ e, toExtensionObject lib eo = .ok e ∧ toScalarExtension e = eo.read lib := by
  cases eo with
  | decoded type data =>
    obtain ⟨t, p, rfl, rfl, henc⟩ := h
    exact encoded_read henc
  | _ => exact ⟨_, rfl, by simp [toScalarExtension, ExtensionObject.read, toNodeId_toNode, UAString.read]⟩

theorem element_read (type : DataType) (k : Kind) (d : k.Data) (hsup : k.supported = true) (hexact : ¬ k.Inexact)
    (henc : elementEncodes lib type k d) :
    ∃ y, elementToValue lib type k d = .ok y ∧ toVariant lib y = .ok (.scalar k.read.type (elementRead lib type k d)) := by
  cases k with
  | float => exact absurd (.inl rfl) hexact
  | double => exact absurd (.inr (.inl rfl)) hexact
  | dateTime => exact absurd (.inr (.inr rfl)) hexact
  | dataValue | diagnosticInfo | bitfieldCluster => cases hsup
  | nodeId => exact ⟨_, rfl, by rw [toVariant, toNodeId_toNode]; rfl⟩
  | expandedNodeId => exact ⟨_, rfl, by rw [toVariant, toExNodeId_toExpandedNode]; rfl⟩
  | guid => exact ⟨_, rfl, by rw [toVariant, toGuid_val]; rfl⟩
  | sbyte => exact ⟨_, rfl, by rw [toVariant, Int8.toInt8_toInt32]; rfl⟩
  | byte => exact ⟨_, rfl, by rw [toVariant, UInt8.toUInt8_toUInt32]; rfl⟩
  | int16 => exact ⟨_, rfl, by rw [toVariant, Int16.toInt16_toInt32]; rfl⟩
  | uint16 | qualifiedName => exact ⟨_, rfl, by rw [toVariant, UInt16.toUInt16_toUInt32]; rfl⟩
  | extensionObject =>
    obtain ⟨e, he, hread⟩ := toExtensionObject_read henc
    exact ⟨_, by rw [elementToValue, he]; rfl, by rw [toVariant, hread]; rfl⟩
  | decimal | struct | optStruct | union => exact encoded_toVariant henc
  | _ => exact ⟨_, rfl, rfl⟩

end Elements

section Arrays

variable {lib : Vendor}

theorem shape_eq (dimensions : List UInt32) : shape dimensions = UInt64.ofNat (dimensions.map UInt32.toNat).prod := by
  have hfold : ∀ n : ℕ, dimensions.foldl (fun n d => n * d.toUInt64) (UInt64.ofNat n) =
      UInt64.ofNat (n * (dimensions.map UInt32.toNat).prod) := by
    induction dimensions with
    | nil => simp
    | cons d ds ih =>
      intro n
      have hd : d.toUInt64 = UInt64.ofNat d.toNat := by simp
      rw [foldl_cons, hd, ← UInt64.ofNat_mul, ih, map_cons, prod_cons, mul_assoc]
  simpa [shape] using hfold 1

theorem checkDimensions_ok {dimensions : List UInt32} {n : ℕ} (h : Shape dimensions n) :
    checkDimensions dimensions n = .ok () := by
  rw [checkDimensions, if_neg]
  rintro ⟨hne, hshape⟩
  rcases h with h | h
  · exact hne h
  · rw [shape_eq, h] at hshape
    exact hshape rfl

theorem builtInType_read (type : DataType) (h : type.kind.supported = true) :
    builtInType (.of type) = .ok (type.kind.read.code + 1) := by
  obtain ⟨k, name, id⟩ := type
  cases k with
  | dataValue | diagnosticInfo | bitfieldCluster => cases h
  | _ => rfl

theorem builtIns_read (k : Kind) (h : k.supported = true) :
    builtIns[k.read.code]? = some (.of k.read.type) ∧ k.read.code < 25 := by
  cases k with
  | dataValue | diagnosticInfo | bitfieldCluster => cases h
  | _ => exact ⟨rfl, by decide⟩

theorem checkElements_scalars (type : Descriptor) (t : DataType) (data : List t.kind.Data) :
    checkElements type (some (.of t)) (data.map (scalar t)) = .ok () := by
  induction data with
  | nil => rfl
  | cons d data ih =>
    have hd : checkElement type (some (.of t)) (scalar t d) = .ok () := by
      simp [checkElement, type?, isScalar]
    rw [map_cons, checkElements, hd, ih]
    rfl

theorem elementType_scalars (t : DataType) (data : List t.kind.Data) (h : t.kind.supported = true) :
    elementType (.of t) (data.map (scalar t)) = .ok (.of t) := by
  cases data with
  | nil => rfl
  | cons d data =>
    have hcheck := checkElements_scalars (.of t) t (d :: data)
    rw [map_cons] at hcheck
    rw [map_cons, elementType]
    simp only [type?, hcheck, builtInType_read t h, Option.getD_some, bind, Except.bind, ne_eq, not_true_eq_false,
      if_false]

theorem toVariants_elements (type : DataType) (data : List type.kind.Data) (hsup : type.kind.supported = true)
    (hexact : ¬ type.kind.Inexact) (henc : ∀ d ∈ data, elementEncodes lib type type.kind d) :
    ∃ ys, data.mapM (elementToValue lib type type.kind) = .ok ys ∧ ys.length = data.length ∧
      toVariants lib ys = .ok (data.map fun d => .scalar type.kind.read.type (elementRead lib type type.kind d)) := by
  induction data with
  | nil => exact ⟨[], rfl, rfl, rfl⟩
  | cons d data ih =>
    obtain ⟨y, hy, hread⟩ := element_read type type.kind d hsup hexact (henc d mem_cons_self)
    obtain ⟨ys, hys, hlen, hreads⟩ := ih fun e he => henc e (mem_cons_of_mem _ he)
    refine ⟨y :: ys, ?_, by rw [length_cons, hlen, length_cons], ?_⟩
    · rw [mapM_cons, hy, hys]
      rfl
    · rw [toVariants, hread, hreads]
      rfl

theorem filterMap_data?_scalars (t : DataType) (data : List t.kind.Data) :
    (data.map (scalar t)).filterMap (data? t) = data := by
  have hsome : data? t ∘ scalar t = some := funext (data?_scalar t)
  rw [filterMap_map, hsome, filterMap_some]

variable {k : Kind}

theorem supported_read (h : k.supported = true) : k.read.supported = true := by
  cases k with
  | dataValue | diagnosticInfo | bitfieldCluster => cases h
  | _ => rfl

theorem toArray_read {dimensions : List UInt32} {isNull : Bool} {data : List k.read.Data}
    (hsup : k.supported = true) (hnull : isNull = true → data = []) (hshape : Shape dimensions data.length) :
    toArray data.length dimensions (k.read.code + 1) isNull (.ok (data.map (scalar k.read.type))) =
      .ok (.array k.read.type (if isNull then none else some data) dimensions) := by
  obtain ⟨hbuilt, hcode⟩ := builtIns_read k hsup
  have hnot : ¬ (isNull = true ∧ data.length ≠ 0) := fun h => h.2 (by rw [hnull h.1]; rfl)
  have hle : ¬ Kind.diagnosticInfo.code + 1 < k.read.code + 1 := by
    have : Kind.diagnosticInfo.code = 24 := rfl
    omega
  have htype : elementType (.of k.read.type) (data.map (scalar k.read.type)) = .ok (.of k.read.type) :=
    elementType_scalars k.read.type data (supported_read hsup)
  have hdims : checkDimensions dimensions (data.map (scalar k.read.type)).length = .ok () :=
    checkDimensions_ok (by rwa [length_map])
  simp only [toArray, if_neg hnot, if_neg hle, Nat.add_sub_cancel, hbuilt, Nat.add_one_ne_zero, if_false, Option.getD_some,
    reduceCtorEq, htype, hdims, setArray, pure, bind, Except.pure, Except.bind]
  rw [filterMap_data?_scalars k.read.type data]

end Arrays

section Whole

variable {lib : Vendor}

variable {elements : List Variant}

theorem toArray_variants {isNull : Bool} {dimensions : List UInt32} {n : ℕ}
    (hlen : n = elements.length) (hnull : isNull = true → elements = []) (hshape : Shape dimensions elements.length) :
    toArray n dimensions (variant.code + 1) isNull (.ok elements) =
      .ok (if isNull then .nullVariants dimensions else .variants elements dimensions) := by
  have hnot : ¬ (isNull = true ∧ n ≠ 0) := fun h => h.2 (by rw [hlen, hnull h.1]; rfl)
  have hle : ¬ Kind.diagnosticInfo.code + 1 < variant.code + 1 := by decide
  have hbuilt : builtIns[variant.code]? = some .variant := rfl
  simp only [toArray, if_neg hnot, if_neg hle, Nat.add_sub_cancel, hbuilt, Nat.add_one_ne_zero, if_false, Option.getD_some,
    if_true, checkDimensions_ok hshape, setArray, pure, bind, Except.pure, Except.bind]

theorem builtInType_variant : builtInType .variant = .ok (variant.code + 1) := rfl

theorem length_reads (lib : Vendor) (vs : List Variant) : (reads lib vs).length = vs.length := by
  induction vs with
  | nil => rfl
  | cons v vs ih => rw [reads, length_cons, ih, length_cons]

theorem Plain.of_subset {v w : Variant} (h : Plain lib v) (hsub : w.parts ⊆ v.parts) : Plain lib w where
  exact u hu := h.exact u (hsub hu)
  not_single u hu := h.not_single u (hsub hu)
  shaped u hu := h.shaped u (hsub hu)
  encodes u hu := h.encodes u (hsub hu)

theorem Variant.mem_parts_self (v : Variant) : v ∈ v.parts := by
  cases v <;> simp [parts]

theorem Variant.parts_subset_allParts {v : Variant} {vs : List Variant} (h : v ∈ vs) : v.parts ⊆ allParts vs := by
  induction vs with
  | nil => cases h
  | cons w vs ih =>
    rcases mem_cons.mp h with rfl | h
    · exact subset_append_left _ _
    · exact List.Subset.trans (ih h) (subset_append_right _ _)

theorem Plain.element {v : Variant} {dimensions : List UInt32}
    (h : Plain lib (.variants elements dimensions)) (hv : v ∈ elements) : Plain lib v :=
  h.of_subset fun _ hu => mem_cons_of_mem _ (parts_subset_allParts hv hu)

mutual

theorem toValue_read (v : Variant) (hsup : supported v = true) (h : Plain lib v) :
    ∃ y, toValue lib v = .ok y ∧ toVariant lib y = .ok (v.read lib) := by
  have hself := v.mem_parts_self
  cases v with
  | empty => exact ⟨_, rfl, rfl⟩
  | scalar type data => exact element_read type type.kind data hsup (h.exact _ hself) (h.encodes _ hself)
  | array type data dimensions =>
    have hshape : Shape dimensions (data.getD []).length := h.shaped _ hself
    cases data with
    | none =>
      refine ⟨.array [] dimensions (type.kind.read.code + 1) true, ?_, ?_⟩
      · rw [toValue, arrayToValue, builtInType_read type hsup]
        rfl
      · have hread : toArray 0 dimensions (type.kind.read.code + 1) true (.ok []) =
            .ok (.array type.kind.read.type none dimensions) :=
          @toArray_read type.kind dimensions true [] hsup (fun _ => rfl) hshape
        rwa [toVariant, toVariants]
    | some data =>
      obtain ⟨ys, hys, hlen, hreads⟩ := toVariants_elements type data hsup (h.exact _ hself) (h.encodes _ hself)
      refine ⟨.array ys dimensions (type.kind.read.code + 1) false, ?_, ?_⟩
      · rw [toValue, arrayToValue, builtInType_read type hsup, hys]
        rfl
      · have hread : toArray data.length dimensions (type.kind.read.code + 1) false
              (.ok ((data.map (elementRead lib type type.kind)).map (scalar type.kind.read.type))) =
            .ok (.array type.kind.read.type (some (data.map (elementRead lib type type.kind))) dimensions) := by
          have hlength : (data.map (elementRead lib type type.kind)).length = data.length := length_map _
          exact toArray_read hsup (fun hnull => absurd hnull Bool.false_ne_true) (by rwa [hlength])
        rw [map_map] at hread
        rw [toVariant, hlen, hreads]
        exact hread
  | single v => exact absurd rfl (h.not_single _ hself v)
  | variants elements dimensions =>
    obtain ⟨ys, hys, hlen, hreads⟩ := toValues_reads elements hsup fun v hv => h.element hv
    refine ⟨.array ys dimensions (variant.code + 1) false, ?_, ?_⟩
    · rw [toValue, arrayToValue, builtInType_variant, hys]
      rfl
    · have hreadsLen := length_reads lib elements
      have hshape : Shape dimensions elements.length := h.shaped _ hself
      rw [toVariant, hlen, hreads]
      exact toArray_variants hreadsLen.symm (fun hnull => absurd hnull Bool.false_ne_true) (by rwa [hreadsLen])
  | nullVariants dimensions =>
    have hshape : Shape dimensions 0 := h.shaped _ hself
    refine ⟨.array [] dimensions (variant.code + 1) true, rfl, ?_⟩
    rw [toVariant, toVariants]
    exact toArray_variants rfl (fun _ => rfl) hshape

theorem toValues_reads (vs : List Variant) (hsup : allSupported vs = true) (h : ∀ v ∈ vs, Plain lib v) :
    ∃ ys, toValues lib vs = .ok ys ∧ ys.length = vs.length ∧ toVariants lib ys = .ok (reads lib vs) := by
  cases vs with
  | nil => exact ⟨[], rfl, rfl, rfl⟩
  | cons v vs =>
    rw [allSupported, Bool.and_eq_true] at hsup
    obtain ⟨y, hy, hread⟩ := toValue_read v hsup.1 (h v mem_cons_self)
    obtain ⟨ys, hys, hlen, hreads⟩ := toValues_reads vs hsup.2 fun w hw => h w (mem_cons_of_mem _ hw)
    refine ⟨y :: ys, ?_, by rw [length_cons, hlen, length_cons], ?_⟩
    · rw [toValues, hy, hys]
      rfl
    · rw [toVariants, hread, hreads]
      rfl

end

end Whole

section Strings

def Node.strings (id : Node) : List Bytes :=
  match id.identifier with
  | some (.string s) => [s]
  | some (.numeric _) => []
  | some (.guid _) => []
  | some (.byteString _) => []
  | none => []

def ExpandedNode.strings (id : ExpandedNode) : List Bytes := id.namespaceUri :: id.node.strings

def Extension.strings (e : Extension) : List Bytes :=
  match e.body with
  | some (.xml s) => s :: e.typeId.strings
  | some (.binary _) => e.typeId.strings
  | none => e.typeId.strings

mutual

/-- The string members of a message's value, which a reader parses as text. -/
def Value.strings : Value → List Bytes
  | .stringValue s => [s]
  | .xmlElement s => [s]
  | .node id => id.strings
  | .expandedNode id => id.strings
  | .qualifiedName _ name => [name]
  | .localizedText locale text => locale.toList ++ text.toList
  | .extensionObject e => e.strings
  | .array values _ _ _ => Value.allStrings values
  | .notSet => []
  | .boolean _ => []
  | .byte _ => []
  | .byteString _ => []
  | .date _ => []
  | .doubleValue _ => []
  | .duration _ => []
  | .floatValue _ => []
  | .guid _ => []
  | .int16 _ => []
  | .int32 _ => []
  | .int64 _ => []
  | .sbyte _ => []
  | .statusCode _ => []
  | .uint16 _ => []
  | .uint32 _ => []
  | .uint64 _ => []

def Value.allStrings : List Value → List Bytes
  | [] => []
  | v :: vs => Value.strings v ++ Value.allStrings vs

end

variable {lib : Vendor}

/-- Every string is text a reader accepts. -/
def Readable (lib : Vendor) (strings : List Bytes) : Prop := ∀ s ∈ strings, lib.isValid s = true

@[simp] theorem readable_nil : Readable lib [] := fun _ hs => absurd hs not_mem_nil

@[simp] theorem readable_append {l m : List Bytes} : Readable lib (l ++ m) ↔ Readable lib l ∧ Readable lib m :=
  forall_mem_append

@[simp] theorem readable_cons {s : Bytes} {l : List Bytes} : Readable lib (s :: l) ↔ lib.isValid s = true ∧ Readable lib l :=
  forall_mem_cons

@[simp] theorem readable_toList (s : UAString) : Readable lib s.toList ↔ textUtf8 lib s = true := by
  cases s with
  | none => simp [textUtf8, toSV, lib.isValid_nil]
  | some s => simp [textUtf8, toSV]

theorem node_readable (id : NodeId) : nodeUtf8 lib id = true ↔ Readable lib (toNode id).strings := by
  obtain ⟨ns, identifier⟩ := id
  cases identifier <;> simp [nodeUtf8, toNode, Node.strings, textUtf8]

theorem expanded_readable (id : ExpandedNodeId) : expandedUtf8 lib id = true ↔ Readable lib (toExpandedNode id).strings := by
  simp [expandedUtf8, toExpandedNode, ExpandedNode.strings, textUtf8, node_readable]

theorem encoded_readable {p : Memory} {type : DataType} {y : Value}
    (h : (encoded lib p type).map extensionObject = .ok y) :
    nodeUtf8 lib type.binaryEncodingId = true ↔ Readable lib y.strings := by
  unfold encoded at h
  cases henc : lib.encodeBinary p type with
  | error sc =>
    rw [henc] at h
    cases h
  | ok body =>
    rw [henc] at h
    cases h
    simp [strings, Extension.strings, node_readable]

theorem extension_readable {eo : ExtensionObject} {y : Value}
    (h : (toExtensionObject lib eo).map extensionObject = .ok y) :
    extensionUtf8 lib eo = true ↔ Readable lib y.strings := by
  cases eo with
  | decoded type data =>
    cases type with
    | none => cases h
    | some type =>
      cases data with
      | none => cases h
      | some data => exact encoded_readable h
  | xml typeId body =>
    cases h
    simp [extensionUtf8, strings, Extension.strings, node_readable, textUtf8, and_comm]
  | _ =>
    cases h
    simp [extensionUtf8, strings, Extension.strings, node_readable]

theorem element_readable {type : DataType} {k : Kind} {d : k.Data} {y : Value} (h : elementToValue lib type k d = .ok y) :
    elementUtf8 lib type k d = true ↔ Readable lib y.strings := by
  cases k with
  | extensionObject => exact extension_readable h
  | decimal | struct | optStruct | union => exact encoded_readable h
  | dataValue | diagnosticInfo | bitfieldCluster => cases h
  | nodeId =>
    cases h
    exact node_readable d
  | expandedNodeId =>
    cases h
    exact expanded_readable d
  | double =>
    cases h
    simp only [elementUtf8, true_iff]
    split_ifs <;> simp [strings]
  | _ =>
    cases h
    simp [elementUtf8, strings, textUtf8]

theorem elements_readable {type : DataType} {k : Kind} {data : List k.Data} {ys : List Value}
    (h : data.mapM (elementToValue lib type k) = .ok ys) :
    data.all (elementUtf8 lib type k) = true ↔ Readable lib (allStrings ys) := by
  induction data generalizing ys with
  | nil =>
    cases h
    simp [allStrings]
  | cons d data ih =>
    rw [mapM_cons] at h
    cases hy : elementToValue lib type k d with
    | error e =>
      rw [hy] at h
      cases h
    | ok y =>
      cases hys : data.mapM (elementToValue lib type k) with
      | error e =>
        rw [hy, hys] at h
        cases h
      | ok rest =>
        rw [hy, hys] at h
        cases h
        rw [all_cons, Bool.and_eq_true, allStrings, readable_append, element_readable hy, ih hys]

theorem arrayToValue_strings {type : Descriptor} {isNull : Bool} {dimensions : List UInt32}
    {values : Except UAException (List Value)} {y : Value} (h : arrayToValue type isNull dimensions values = .ok y) :
    ∃ ys, values = .ok ys ∧ y.strings = allStrings ys := by
  unfold arrayToValue at h
  cases hid : builtInType type with
  | error e =>
    rw [hid] at h
    cases h
  | ok id =>
    cases values with
    | error e =>
      rw [hid] at h
      cases h
    | ok ys =>
      rw [hid] at h
      cases h
      exact ⟨ys, rfl, rfl⟩

mutual

theorem utf8_readable (v : Variant) {y : Value} (h : toValue lib v = .ok y) :
    utf8 lib v = true ↔ Readable lib y.strings := by
  cases v with
  | empty =>
    cases h
    simp [utf8, strings]
  | scalar type data => exact element_readable h
  | array type data dimensions =>
    cases data with
    | none =>
      obtain ⟨ys, hys, hstrings⟩ := arrayToValue_strings h
      cases hys
      simp [utf8, hstrings, allStrings]
    | some data =>
      obtain ⟨ys, hys, hstrings⟩ := arrayToValue_strings h
      rw [hstrings]
      exact elements_readable hys
  | single v => exact utf8_readable v h
  | variants elements dimensions =>
    obtain ⟨ys, hys, hstrings⟩ := arrayToValue_strings h
    rw [hstrings]
    exact allUtf8_readable elements hys
  | nullVariants dimensions =>
    obtain ⟨ys, hys, hstrings⟩ := arrayToValue_strings h
    cases hys
    simp [utf8, hstrings, allStrings]

theorem allUtf8_readable (vs : List Variant) {ys : List Value} (h : toValues lib vs = .ok ys) :
    allUtf8 lib vs = true ↔ Readable lib (allStrings ys) := by
  cases vs with
  | nil =>
    cases h
    simp [allUtf8, allStrings]
  | cons v vs =>
    rw [toValues] at h
    cases hy : toValue lib v with
    | error e =>
      rw [hy] at h
      cases h
    | ok y =>
      cases hys : toValues lib vs with
      | error e =>
        rw [hy, hys] at h
        cases h
      | ok rest =>
        rw [hy, hys] at h
        cases h
        rw [allUtf8, Bool.and_eq_true, allStrings, readable_append, utf8_readable v hy, allUtf8_readable vs hys]

end

end Strings

/-- What is written is read back, and the check for text holds exactly if every string of the message is text. -/
theorem codec_loses_nothing (lib : Vendor) (v : Variant) :
    (supported v = true → Plain lib v → (toValue lib v).bind (toVariant lib) = .ok (v.read lib)) ∧
    ∀ y, toValue lib v = .ok y → (utf8 lib v = true ↔ ∀ s ∈ y.strings, lib.isValid s = true) := by
  refine ⟨fun hsup hplain => ?_, fun y hy => utf8_readable v hy⟩
  obtain ⟨y, hy, hread⟩ := toValue_read v hsup hplain
  rw [hy]
  exact hread

/-- A vendor that encodes nothing and takes every text. -/
def textVendor : Vendor where
  encodeBinary _ _ := .error 0
  isValid _ := true
  isValid_nil := rfl
  toDurationProto _ := ⟨0, 0⟩
  toDuration _ := 0

/-- A null string in an array of variants, beside an array of variants that has a null array in it. -/
def nested : Variant :=
  .variants [.scalar Kind.string.type none, .variants [.nullVariants [], .scalar Kind.boolean.type true] [2]] [1, 2]

theorem plain_nested : Plain textVendor nested := by
  constructor <;> simp [nested, Variant.parts, Variant.allParts, Variant.Inexact, Kind.Inexact, Variant.Shaped, Shape,
    Variant.Encodes, elementEncodes]

/-- Only the null string comes back as another value, the empty one. -/
theorem nested_roundTrip : supported nested = true ∧ (toValue textVendor nested).bind (toVariant textVendor) = .ok
    (.variants [.scalar Kind.string.type (some []),
      .variants [.nullVariants [], .scalar Kind.boolean.type true] [2]] [1, 2]) ∧ utf8 textVendor nested = true := by
  obtain ⟨hread, hutf8⟩ := codec_loses_nothing textVendor nested
  exact ⟨rfl, hread rfl plain_nested, (hutf8 _ rfl).mpr fun _ _ => rfl⟩

end OpcHub.Proto
