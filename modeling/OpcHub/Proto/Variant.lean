import Mathlib.Data.List.Basic

/-! The values of an OPC UA node, as the vendor's library holds them in memory. A variant
is empty, a single value or an array of one type, and an array's values may themselves
be variants. The type of a value says what its data is, so no value has another type's. -/

namespace OpcHub.Proto

abbrev Bytes := List UInt8

/-- `UA_String`; a null one has no data. -/
abbrev UAString := Option Bytes

/-- `UA_Guid`, as its bytes. -/
abbrev Guid := { b : Bytes // b.length = 16 }

inductive Identifier where
  | numeric (n : UInt32)
  | string (s : UAString)
  | guid (g : Guid)
  | byteString (s : UAString)
  deriving DecidableEq

structure NodeId where
  namespaceIndex : UInt16
  identifier : Identifier
  deriving DecidableEq

structure ExpandedNodeId where
  nodeId : NodeId
  namespaceUri : UAString
  serverIndex : UInt32
  deriving DecidableEq

structure QualifiedName where
  namespaceIndex : UInt16
  name : UAString
  deriving DecidableEq

structure LocalizedText where
  locale : UAString
  text : UAString
  deriving DecidableEq

/-- The kinds of type, `UA_DATATYPEKIND_VARIANT` apart: its values are variants. -/
inductive Kind where
  | boolean
  | sbyte
  | byte
  | int16
  | uint16
  | int32
  | uint32
  | int64
  | uint64
  | float
  | double
  | string
  | dateTime
  | guid
  | byteString
  | xmlElement
  | nodeId
  | expandedNodeId
  | statusCode
  | qualifiedName
  | localizedText
  | extensionObject
  | dataValue
  | diagnosticInfo
  | decimal
  | enum
  | struct
  | optStruct
  | union
  | bitfieldCluster
  deriving DecidableEq

/-- `UA_DataType`. -/
structure DataType where
  kind : Kind
  typeName : String
  binaryEncodingId : NodeId
  deriving DecidableEq

/-- A structure as it lies in memory, which only the vendor's encoder reads. -/
abbrev Memory := Bytes

inductive ExtensionObject where
  | noBody (typeId : NodeId)
  | byteString (typeId : NodeId) (body : UAString)
  | xml (typeId : NodeId) (body : UAString)
  | decoded (type : Option DataType) (data : Option Memory)
  deriving DecidableEq

/-- What a value of a kind is; a floating-point number by its bits. What is refused unread has no data. -/
@[reducible] def Kind.Data : Kind → Type
  | .boolean => Bool
  | .sbyte => Int8
  | .byte => UInt8
  | .int16 => Int16
  | .uint16 => UInt16
  | .int32 => Int32
  | .uint32 => UInt32
  | .int64 => Int64
  | .uint64 => UInt64
  | .float => UInt32
  | .double => UInt64
  | .string => UAString
  | .dateTime => Int64
  | .guid => Guid
  | .byteString => UAString
  | .xmlElement => UAString
  | .nodeId => NodeId
  | .expandedNodeId => ExpandedNodeId
  | .statusCode => UInt32
  | .qualifiedName => QualifiedName
  | .localizedText => LocalizedText
  | .extensionObject => ExtensionObject
  | .dataValue => Unit
  | .diagnosticInfo => Unit
  | .decimal => Memory
  | .enum => Int32
  | .struct => Memory
  | .optStruct => Memory
  | .union => Memory
  | .bitfieldCluster => Unit

/-- `UA_Variant`; an array with no data is the null array. -/
inductive Variant where
  | empty
  | scalar (type : DataType) (data : type.kind.Data)
  | array (type : DataType) (data : Option (List type.kind.Data)) (dimensions : List UInt32)
  /-- A variant that directly holds a single variant. -/
  | single (v : Variant)
  | variants (elements : List Variant) (dimensions : List UInt32)
  | nullVariants (dimensions : List UInt32)

/-- The type a variant points to: one of the kinds above, or the variants' own. -/
inductive Descriptor where
  | of (type : DataType)
  | variant
  deriving DecidableEq

namespace Kind

/-- `UA_DATATYPEKIND_*`. -/
def code : Kind → ℕ
  | .boolean => 0
  | .sbyte => 1
  | .byte => 2
  | .int16 => 3
  | .uint16 => 4
  | .int32 => 5
  | .uint32 => 6
  | .int64 => 7
  | .uint64 => 8
  | .float => 9
  | .double => 10
  | .string => 11
  | .dateTime => 12
  | .guid => 13
  | .byteString => 14
  | .xmlElement => 15
  | .nodeId => 16
  | .expandedNodeId => 17
  | .statusCode => 18
  | .qualifiedName => 19
  | .localizedText => 20
  | .extensionObject => 21
  | .dataValue => 22
  | .diagnosticInfo => 24
  | .decimal => 25
  | .enum => 26
  | .struct => 27
  | .optStruct => 28
  | .union => 29
  | .bitfieldCluster => 30

def typeName : Kind → String
  | .boolean => "Boolean"
  | .sbyte => "SByte"
  | .byte => "Byte"
  | .int16 => "Int16"
  | .uint16 => "UInt16"
  | .int32 => "Int32"
  | .uint32 => "UInt32"
  | .int64 => "Int64"
  | .uint64 => "UInt64"
  | .float => "Float"
  | .double => "Double"
  | .string => "String"
  | .dateTime => "DateTime"
  | .guid => "Guid"
  | .byteString => "ByteString"
  | .xmlElement => "XmlElement"
  | .nodeId => "NodeId"
  | .expandedNodeId => "ExpandedNodeId"
  | .statusCode => "StatusCode"
  | .qualifiedName => "QualifiedName"
  | .localizedText => "LocalizedText"
  | .extensionObject => "ExtensionObject"
  | .dataValue => "DataValue"
  | .diagnosticInfo => "DiagnosticInfo"
  | .decimal => "Decimal"
  | .enum => "Enumeration"
  | .struct => "Structure"
  | .optStruct => "Structure"
  | .union => "Union"
  | .bitfieldCluster => "BitfieldCluster"

/-- The library's own type of a kind. -/
@[reducible] def type (k : Kind) : DataType := ⟨k, k.typeName, ⟨0, .numeric 0⟩⟩

end Kind

/-- A Duration is a double, under a type of its own. -/
def durationType : DataType := ⟨.double, "Duration", ⟨0, .numeric 0⟩⟩

namespace Descriptor

def code : Descriptor → ℕ
  | .of type => type.kind.code
  | .variant => 23

def typeName : Descriptor → String
  | .of type => type.typeName
  | .variant => "Variant"

/-- `UA_TYPES`, which the built-in types lead in the order of their ids. -/
def builtIns : List Descriptor :=
  [.of Kind.boolean.type, .of Kind.sbyte.type, .of Kind.byte.type, .of Kind.int16.type, .of Kind.uint16.type,
    .of Kind.int32.type, .of Kind.uint32.type, .of Kind.int64.type, .of Kind.uint64.type, .of Kind.float.type,
    .of Kind.double.type, .of Kind.string.type, .of Kind.dateTime.type, .of Kind.guid.type, .of Kind.byteString.type,
    .of Kind.xmlElement.type, .of Kind.nodeId.type, .of Kind.expandedNodeId.type, .of Kind.statusCode.type,
    .of Kind.qualifiedName.type, .of Kind.localizedText.type, .of Kind.extensionObject.type, .of Kind.dataValue.type,
    .variant, .of Kind.diagnosticInfo.type]

end Descriptor

namespace Variant

def type? : Variant → Option Descriptor
  | .empty => none
  | .scalar type _ => some (.of type)
  | .array type _ _ => some (.of type)
  | .single _ => some .variant
  | .variants _ _ => some .variant
  | .nullVariants _ => some .variant

def isScalar : Variant → Bool
  | .empty => false
  | .scalar _ _ => true
  | .array _ _ _ => false
  | .single _ => true
  | .variants _ _ => false
  | .nullVariants _ => false

/-- A scalar's data, if it is of the type. -/
def data? (type : DataType) : Variant → Option type.kind.Data
  | .scalar t data => if h : t = type then some (h ▸ data) else none
  | .empty => none
  | .array _ _ _ => none
  | .single _ => none
  | .variants _ _ => none
  | .nullVariants _ => none

@[simp] theorem data?_scalar (type : DataType) (data : type.kind.Data) : (scalar type data).data? type = some data := by
  simp [data?]

end Variant

end OpcHub.Proto
