import Mathlib.Data.Int.Init
import OpcHub.Proto.Variant

/-! The codec between a node's values and the messages they are kept and sent in. A message's
value is one of many members, an array of them with its type and its shape, or nothing.
What the vendor's library computes, the binary form of a structure among it, is given. -/

namespace OpcHub.Proto

/-- `Proto::NodeId`. -/
inductive NodeMember where
  | numeric (n : UInt32)
  | string (s : Bytes)
  | guid (b : Bytes)
  | byteString (b : Bytes)
  deriving DecidableEq

structure Node where
  namespaceIndex : UInt32 := 0
  identifier : Option NodeMember := none
  deriving DecidableEq

structure ExpandedNode where
  node : Node
  namespaceUri : Bytes := []
  serverIndex : UInt32 := 0
  deriving DecidableEq

inductive Body where
  | binary (b : Bytes)
  | xml (s : Bytes)
  deriving DecidableEq

/-- `Proto::ExtensionObject`. -/
structure Extension where
  typeId : Node
  body : Option Body := none
  deriving DecidableEq

structure Timestamp where
  seconds : ℤ
  nanos : ℤ
  deriving DecidableEq

structure Duration where
  seconds : ℤ
  nanos : ℤ
  deriving DecidableEq

/-- `Proto::Value`, by the member that is set. -/
inductive Value where
  | notSet
  | boolean (b : Bool)
  | byte (n : UInt32)
  | byteString (b : Bytes)
  | date (t : Timestamp)
  | doubleValue (bits : UInt64)
  | duration (d : Duration)
  | expandedNode (id : ExpandedNode)
  | floatValue (bits : UInt32)
  | guid (b : Bytes)
  | int16 (n : Int32)
  | int32 (n : Int32)
  | int64 (n : Int64)
  | node (id : Node)
  | sbyte (n : Int32)
  | statusCode (n : UInt32)
  | stringValue (s : Bytes)
  | uint16 (n : UInt32)
  | uint32 (n : UInt32)
  | uint64 (n : UInt64)
  | xmlElement (s : Bytes)
  | localizedText (locale text : Option Bytes)
  | qualifiedName (namespaceIndex : UInt32) (name : Bytes)
  | extensionObject (e : Extension)
  | array (values : List Value) (dimensions : List UInt32) (type : ℕ) (isNull : Bool)

inductive Code where
  | badNotSupported
  | badEncodingError
  | badDecodingError
  | vendor (sc : UInt32)
  deriving DecidableEq

structure UAException where
  code : Code
  what : String
  deriving DecidableEq

/-- What the vendor's library and the floating-point unit compute. -/
structure Vendor where
  encodeBinary : Memory → DataType → Except UInt32 Bytes
  isValid : Bytes → Bool
  isValid_nil : isValid [] = true
  toDurationProto : UInt64 → Duration
  toDuration : Duration → UInt64

def toSV (s : UAString) : Bytes := s.getD []

section Identifiers

def toNode (id : NodeId) : Node where
  namespaceIndex := id.namespaceIndex.toUInt32
  identifier := some <| match id.identifier with
    | .numeric n => .numeric n
    | .string s => .string (toSV s)
    | .byteString s => .byteString (toSV s)
    | .guid g => .guid g.val

/-- A guid shorter than 16 bytes leaves the tail zeroed. -/
def toGuid (b : Bytes) : Guid := ⟨(b ++ List.replicate 16 0).take 16, by simp⟩

/-- `ToNodeId`; where nothing is set, the identifier stays as a `NodeId` starts. -/
def toNodeId (id : Node) : NodeId where
  namespaceIndex := id.namespaceIndex.toUInt16.toInt16.toUInt16
  identifier := match id.identifier with
    | some (.numeric n) => .numeric n
    | some (.string s) => .string (some s)
    | some (.byteString b) => .byteString (some b)
    | some (.guid b) => .guid (toGuid b)
    | none => .numeric 0

def toExpandedNode (id : ExpandedNodeId) : ExpandedNode where
  node := toNode id.nodeId
  namespaceUri := toSV id.namespaceUri
  serverIndex := id.serverIndex

def toExNodeId (proto : ExpandedNode) : ExpandedNodeId where
  nodeId := toNodeId proto.node
  namespaceUri := some proto.namespaceUri
  serverIndex := proto.serverIndex

end Identifiers

section Times

def ticksPerSecond : ℤ := 10000000

def epochSeconds : ℤ := 11644473600

/-- A Timestamp's nanos are never negative. -/
def toTimestamp (dt : Int64) : Timestamp :=
  let seconds := dt.toInt.tdiv ticksPerSecond - epochSeconds
  let ticks := dt.toInt.tmod ticksPerSecond
  if ticks < 0 then ⟨seconds - 1, (ticks + ticksPerSecond) * 100⟩ else ⟨seconds, ticks * 100⟩

def maxDateTime : ℤ := 9223372036854775807

def minDateTime : ℤ := -9223372036854775808

/-- Saturating: a Timestamp can hold seconds no DateTime can. -/
def toDateTime (t : Timestamp) : Int64 :=
  if t.seconds > maxDateTime.tdiv ticksPerSecond - epochSeconds then Int64.ofInt maxDateTime
  else if t.seconds < minDateTime.tdiv ticksPerSecond - epochSeconds then Int64.ofInt minDateTime
  else
    let base := (t.seconds + epochSeconds) * ticksPerSecond
    let ticks := (min (max t.nanos 0) 999999999).tdiv 100
    -- the room above `base` is a 64-bit number too: below zero it wraps
    if ticks > (Int64.ofInt (maxDateTime - base)).toInt then Int64.ofInt maxDateTime else Int64.ofInt (base + ticks)

end Times

/-- The built-in type's id, the only type an array carries. -/
def builtInType (type : Descriptor) : Except UAException ℕ :=
  if type.code ≤ Kind.diagnosticInfo.code then .ok (type.code + 1)
  else if type.code = Kind.enum.code then .ok (Kind.int32.code + 1)
  else if type.code = Kind.bitfieldCluster.code then
    .error ⟨.badNotSupported, "'" ++ type.typeName ++ "' is not a value type."⟩
  else .ok (Kind.extensionObject.code + 1)

section ToValue

variable (lib : Vendor)

/-- The body the vendor writes for a structure: the type's binary id and its binary form. -/
def encoded (p : Memory) (type : DataType) : Except UAException Extension :=
  match lib.encodeBinary p type with
  | .error sc => .error ⟨.vendor sc, "Could not encode a '" ++ type.typeName ++ "'."⟩
  | .ok body => .ok ⟨toNode type.binaryEncodingId, some (.binary body)⟩

def toExtensionObject : ExtensionObject → Except UAException Extension
  | .decoded (some type) (some data) => encoded lib data type
  | .decoded _ _ => .error ⟨.badEncodingError, "A decoded ExtensionObject has no value."⟩
  | .noBody typeId => .ok ⟨toNode typeId, none⟩
  | .byteString typeId body => .ok ⟨toNode typeId, some (.binary (toSV body))⟩
  | .xml typeId body => .ok ⟨toNode typeId, some (.xml (toSV body))⟩

def notSupported (type : DataType) : Except UAException Value :=
  .error ⟨.badNotSupported, "A '" ++ type.typeName ++ "' value is not supported."⟩

/-- `ToValue` of one value that is not a variant; `k` is the kind of the type. -/
def elementToValue (type : DataType) : (k : Kind) → k.Data → Except UAException Value
  | .boolean, b => .ok (.boolean b)
  | .sbyte, n => .ok (.sbyte n.toInt32)
  | .byte, n => .ok (.byte n.toUInt32)
  | .int16, n => .ok (.int16 n.toInt32)
  | .uint16, n => .ok (.uint16 n.toUInt32)
  | .enum, n => .ok (.int32 n)
  | .int32, n => .ok (.int32 n)
  | .uint32, n => .ok (.uint32 n)
  | .int64, n => .ok (.int64 n)
  | .uint64, n => .ok (.uint64 n)
  | .float, bits => .ok (.floatValue bits)
  | .statusCode, n => .ok (.statusCode n)
  | .string, s => .ok (.stringValue (toSV s))
  | .byteString, s => .ok (.byteString (toSV s))
  | .xmlElement, s => .ok (.xmlElement (toSV s))
  | .double, bits => .ok (if type = durationType then .duration (lib.toDurationProto bits) else .doubleValue bits)
  | .dateTime, dt => .ok (.date (toTimestamp dt))
  | .guid, g => .ok (.guid g.val)
  | .nodeId, id => .ok (.node (toNode id))
  | .expandedNodeId, id => .ok (.expandedNode (toExpandedNode id))
  | .qualifiedName, qn => .ok (.qualifiedName qn.namespaceIndex.toUInt32 (toSV qn.name))
  | .localizedText, lt => .ok (.localizedText lt.locale lt.text)
  | .extensionObject, eo => (toExtensionObject lib eo).map .extensionObject
  | .decimal, p => (encoded lib p type).map .extensionObject
  | .struct, p => (encoded lib p type).map .extensionObject
  | .optStruct, p => (encoded lib p type).map .extensionObject
  | .union, p => (encoded lib p type).map .extensionObject
  | .dataValue, _ => notSupported type
  | .diagnosticInfo, _ => notSupported type
  | .bitfieldCluster, _ => notSupported type

/-- `ToValue` of an array, by what comes of its values. -/
def arrayToValue (type : Descriptor) (isNull : Bool) (dimensions : List UInt32)
    (values : Except UAException (List Value)) : Except UAException Value := do
  let id ← builtInType type
  let values ← values
  return .array values dimensions id isNull

mutual

def toValue : Variant → Except UAException Value
  | .empty => .ok .notSet
  | .scalar type data => elementToValue lib type type.kind data
  | .array type (some data) dimensions =>
    arrayToValue (.of type) false dimensions (data.mapM (elementToValue lib type type.kind))
  | .array type none dimensions => arrayToValue (.of type) true dimensions (.ok [])
  | .single v => toValue v
  | .variants elements dimensions => arrayToValue .variant false dimensions (toValues elements)
  | .nullVariants dimensions => arrayToValue .variant true dimensions (.ok [])

def toValues : List Variant → Except UAException (List Value)
  | [] => .ok []
  | v :: vs => do
    let y ← toValue v
    let ys ← toValues vs
    return y :: ys

end

end ToValue

section Supported

/-- The kinds nothing here reads. -/
def Kind.supported : Kind → Bool
  | .dataValue => false
  | .diagnosticInfo => false
  | .bitfieldCluster => false
  | _ => true

mutual

def supported : Variant → Bool
  | .empty => true
  | .scalar type _ => type.kind.supported
  | .array type _ _ => type.kind.supported
  | .single v => supported v
  | .variants elements _ => allSupported elements
  | .nullVariants _ => true

def allSupported : List Variant → Bool
  | [] => true
  | v :: vs => supported v && allSupported vs

end

end Supported

section Utf8

variable (lib : Vendor)

def textUtf8 (s : UAString) : Bool := lib.isValid (toSV s)

def nodeUtf8 (id : NodeId) : Bool :=
  match id.identifier with
  | .string s => textUtf8 lib s
  | .numeric _ => true
  | .guid _ => true
  | .byteString _ => true

def expandedUtf8 (id : ExpandedNodeId) : Bool := textUtf8 lib id.namespaceUri && nodeUtf8 lib id.nodeId

def extensionUtf8 : ExtensionObject → Bool
  | .decoded none _ => true
  | .decoded (some type) _ => nodeUtf8 lib type.binaryEncodingId
  | .noBody typeId => nodeUtf8 lib typeId
  | .byteString typeId _ => nodeUtf8 lib typeId
  | .xml typeId body => nodeUtf8 lib typeId && textUtf8 lib body

/-- The strings `ToValue` of one value gives a string member. -/
def elementUtf8 (type : DataType) : (k : Kind) → k.Data → Bool
  | .string, s => textUtf8 lib s
  | .xmlElement, s => textUtf8 lib s
  | .nodeId, id => nodeUtf8 lib id
  | .expandedNodeId, id => expandedUtf8 lib id
  | .qualifiedName, qn => textUtf8 lib qn.name
  | .localizedText, lt => textUtf8 lib lt.locale && textUtf8 lib lt.text
  | .extensionObject, eo => extensionUtf8 lib eo
  | .decimal, _ => nodeUtf8 lib type.binaryEncodingId
  | .struct, _ => nodeUtf8 lib type.binaryEncodingId
  | .optStruct, _ => nodeUtf8 lib type.binaryEncodingId
  | .union, _ => nodeUtf8 lib type.binaryEncodingId
  | _, _ => true

mutual

def utf8 : Variant → Bool
  | .empty => true
  | .scalar type data => elementUtf8 lib type type.kind data
  | .array type (some data) _ => data.all (elementUtf8 lib type type.kind)
  | .array _ none _ => true
  | .single v => utf8 v
  | .variants elements _ => allUtf8 elements
  | .nullVariants _ => true

def allUtf8 : List Variant → Bool
  | [] => true
  | v :: vs => utf8 v && allUtf8 vs

end

end Utf8

section ToVariant

/-- An element of an array of one type, checked against the first of them. -/
def checkElement (type : Descriptor) (first : Option Descriptor) (e : Variant) : Except UAException Unit :=
  match e.type? with
  | none => .error ⟨.badDecodingError, "A '" ++ type.typeName ++ "' array holds an empty value."⟩
  | some t =>
    let name := (first.map Descriptor.typeName).getD ""
    if some t ≠ first then .error ⟨.badDecodingError, "A '" ++ name ++ "' array holds a '" ++ t.typeName ++ "'."⟩
    else if e.isScalar = false then .error ⟨.badDecodingError, "A '" ++ name ++ "' array holds a nested array."⟩
    else .ok ()

def checkElements (type : Descriptor) (first : Option Descriptor) : List Variant → Except UAException Unit
  | [] => .ok ()
  | e :: es => do
    checkElement type first e
    checkElements type first es

/-- The elements agree with each other and with the type; they pick the descriptor. -/
def elementType (type : Descriptor) : List Variant → Except UAException Descriptor
  | [] => .ok type
  | e :: es => do
    checkElements type e.type? (e :: es)
    let first := e.type?.getD type
    let found ← builtInType first
    let declared ← builtInType type
    if found ≠ declared then
      .error ⟨.badDecodingError, "A '" ++ type.typeName ++ "' array holds '" ++ first.typeName ++ "' values."⟩
    else .ok first

/-- The shape's count of elements, as the machine multiplies it. -/
def shape (dimensions : List UInt32) : UInt64 := dimensions.foldl (fun n d => n * d.toUInt64) 1

def checkDimensions (dimensions : List UInt32) (n : ℕ) : Except UAException Unit :=
  if dimensions ≠ [] ∧ shape dimensions ≠ UInt64.ofNat n then
    .error ⟨.badDecodingError,
      "Dimensions of " ++ toString (shape dimensions) ++ " elements for " ++ toString n ++ " values."⟩
  else .ok ()

/-- The array itself, each element moved into its slot. -/
def setArray (isNull : Bool) (elements : List Variant) (dimensions : List UInt32) : Descriptor → Variant
  | .variant => if isNull then .nullVariants dimensions else .variants elements dimensions
  | .of type => .array type (if isNull then none else some (elements.filterMap (Variant.data? type))) dimensions

def toArray (count : ℕ) (dimensions : List UInt32) (type : ℕ) (isNull : Bool)
    (elements : Except UAException (List Variant)) : Except UAException Variant := do
  if isNull ∧ count ≠ 0 then
    throw ⟨.badDecodingError, "A null array holds " ++ toString count ++ " values."⟩
  if Kind.diagnosticInfo.code + 1 < type then
    throw ⟨.badDecodingError, toString type ++ " is not a built-in type."⟩
  let elements ← elements
  let declared := if type = 0 then (elements.head?.bind Variant.type?).getD .variant
    else (Descriptor.builtIns[type - 1]?).getD .variant
  let type ← if declared = .variant then pure declared else elementType declared elements
  checkDimensions dimensions elements.length
  return setArray isNull elements dimensions type

def toScalarExtension (proto : Extension) : ExtensionObject :=
  match proto.body with
  | some (.binary b) => .byteString (toNodeId proto.typeId) (some b)
  | some (.xml s) => .xml (toNodeId proto.typeId) (some s)
  | none => .noBody (toNodeId proto.typeId)

variable (lib : Vendor)

mutual

def toVariant : Value → Except UAException Variant
  | .notSet => .ok .empty
  | .boolean b => .ok (.scalar Kind.boolean.type b)
  | .byte n => .ok (.scalar Kind.byte.type n.toUInt8)
  | .byteString b => .ok (.scalar Kind.byteString.type (some b))
  | .date t => .ok (.scalar Kind.dateTime.type (toDateTime t))
  | .doubleValue bits => .ok (.scalar Kind.double.type bits)
  | .duration d => .ok (.scalar durationType (lib.toDuration d))
  | .expandedNode id => .ok (.scalar Kind.expandedNodeId.type (toExNodeId id))
  | .floatValue bits => .ok (.scalar Kind.float.type bits)
  | .guid b => .ok (.scalar Kind.guid.type (toGuid b))
  | .int16 n => .ok (.scalar Kind.int16.type n.toInt16)
  | .int32 n => .ok (.scalar Kind.int32.type n)
  | .int64 n => .ok (.scalar Kind.int64.type n)
  | .node id => .ok (.scalar Kind.nodeId.type (toNodeId id))
  | .sbyte n => .ok (.scalar Kind.sbyte.type n.toInt8)
  | .statusCode n => .ok (.scalar Kind.statusCode.type n)
  | .stringValue s => .ok (.scalar Kind.string.type (some s))
  | .uint16 n => .ok (.scalar Kind.uint16.type n.toUInt16)
  | .uint32 n => .ok (.scalar Kind.uint32.type n)
  | .uint64 n => .ok (.scalar Kind.uint64.type n)
  | .xmlElement s => .ok (.scalar Kind.xmlElement.type (some s))
  | .localizedText locale text => .ok (.scalar Kind.localizedText.type ⟨locale, text⟩)
  | .qualifiedName ns name => .ok (.scalar Kind.qualifiedName.type ⟨ns.toUInt16, some name⟩)
  | .extensionObject e => .ok (.scalar Kind.extensionObject.type (toScalarExtension e))
  | .array values dimensions type isNull => toArray values.length dimensions type isNull (toVariants values)

def toVariants : List Value → Except UAException (List Variant)
  | [] => .ok []
  | v :: vs => do
    let x ← toVariant v
    let xs ← toVariants vs
    return x :: xs

end

end ToVariant

end OpcHub.Proto
