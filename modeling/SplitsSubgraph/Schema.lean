/-
SplitsSubgraph/Schema.lean

The node's view of an entity: a map from attribute names to values, and the
check `Entity::validate` that a save must pass (graph/src/data/store/mod.rs).

The check walks over the fields the schema declares for the entity's type.  A
field that is present must hold a value of the declared type, a non-null field
must be present, and a derived field must be absent.  `schema` is the content of
schema.graphql.  Only the value kinds that the mapping's entity classes can set
are modelled.
-/
import SplitsSubgraph.Ids

namespace SplitsSubgraph

/-! ### Values -/

/-- `Value` of the store, for the kinds the mapping sets. -/
inductive Value where
  | string (s : String)
  | bigInt (n : ℤ)
  | list (elts : List Value)
  | null

/-- `ValueType`: the builtin scalar types. -/
inductive ValueType where
  | boolean | bigInt | bytes | bigDecimal | int | string
deriving DecidableEq

/-- `ValueType::from_str`. -/
def ValueType.fromStr : String → Option ValueType
  | "Boolean" => some .boolean
  | "BigInt" => some .bigInt
  | "Bytes" => some .bytes
  | "BigDecimal" => some .bigDecimal
  | "Int" => some .int
  | "String" => some .string
  | "ID" => some .string
  | _ => none

/-- `is_assignable` with `is_list` false. -/
def Value.isScalarAssignable : Value → ValueType → Bool
  | .string _, .string => true
  | .bigInt _, .bigInt => true
  | .null, _ => true
  | _, _ => false

/-- `Value::is_assignable`. -/
def Value.isAssignable (value : Value) (scalarType : ValueType) (isList : Bool) : Bool :=
  match value with
  | .list elts => isList && elts.all fun elt => elt.isScalarAssignable scalarType
  | value => value.isScalarAssignable scalarType

/-- `Value::type_name`. -/
def Value.typeName : Value → String
  | .bigInt _ => "BigInt"
  | .list [] => "[Any]"
  | .list (v :: _) => "[" ++ v.typeName ++ "]"
  | .null => "Null"
  | .string _ => "String"

mutual

/-- `Display` of a value. -/
def Value.display : Value → String
  | .string s => s
  | .null => "null"
  | .list elts => "[" ++ ", ".intercalate (displayAll elts) ++ "]"
  | .bigInt n => bigIntToString n

def displayAll : List Value → List String
  | [] => []
  | v :: vs => v.display :: displayAll vs

end

/-! ### Schema -/

/-- A GraphQL field type. -/
inductive FieldType where
  | named (name : String)
  | nonNull (inner : FieldType)
  | list (inner : FieldType)

/-- `Display` of a field type. -/
def FieldType.display : FieldType → String
  | .named name => name
  | .nonNull inner => inner.display ++ "!"
  | .list inner => "[" ++ inner.display ++ "]"

def FieldType.getBaseType : FieldType → String
  | .named name => name
  | .nonNull inner => inner.getBaseType
  | .list inner => inner.getBaseType

def FieldType.isList : FieldType → Bool
  | .named _ => false
  | .nonNull inner => inner.isList
  | .list _ => true

def FieldType.isNonNull : FieldType → Bool
  | .nonNull _ => true
  | _ => false

/-- A field of an object type; `isDerived` is the presence of `@derivedFrom`. -/
structure Field where
  name : String
  fieldType : FieldType
  isDerived : Bool

structure ObjectType where
  name : String
  fields : List Field

abbrev SchemaDocument := List ObjectType

def SchemaDocument.objectType (schema : SchemaDocument) (name : String) : Option ObjectType :=
  schema.find? fun obj => obj.name == name

/-- `scalar_value_type`: a reference to an object type has the type of that
object's `id`, and an `id` is a scalar. -/
def scalarValueType (schema : SchemaDocument) (fieldType : FieldType) : ValueType :=
  match ValueType.fromStr fieldType.getBaseType with
  | some t => t
  | none =>
    match (schema.objectType fieldType.getBaseType).bind
        (fun obj => obj.fields.find? fun f => f.name == "id") with
    | some idField => (ValueType.fromStr idField.fieldType.getBaseType).getD .string
    | none => .string

/-! ### Validation -/

/-- `Entity`: the attributes that are set. -/
abbrev Entity := List (String × Value)

/-- The check of one field; the error texts are the node's. -/
def validateField (schema : SchemaDocument) (entityType entityId : String)
    (entity : Entity) (field : Field) : Except String Unit :=
  let context := "Entity " ++ entityType ++ "[" ++ entityId ++ "]: "
  match entity.lookup field.name, field.isDerived with
  | some value, false =>
    let scalarType := scalarValueType schema field.fieldType
    let badElt : Option (Value × ℕ) :=
      match field.fieldType.isList, value with
      | true, .list elts => elts.zipIdx.find? fun e => !e.1.isScalarAssignable scalarType
      | _, _ => none
    match badElt with
    | some (elt, index) =>
      .error (context ++ "field `" ++ field.name ++ "` is of type " ++ field.fieldType.display
        ++ ", but the value `" ++ value.display ++ "` contains a " ++ elt.typeName
        ++ " at index " ++ index.repr)
    | none =>
      if value.isAssignable scalarType field.fieldType.isList then .ok ()
      else
        .error (context ++ "the value `" ++ value.display ++ "` for field `" ++ field.name
          ++ "` must have type " ++ field.fieldType.display ++ " but has type " ++ value.typeName)
  | none, false =>
    if field.fieldType.isNonNull then
      .error (context ++ "missing value for non-nullable field `" ++ field.name ++ "`")
    else .ok ()
  | some _, true =>
    .error (context ++ "field `" ++ field.name ++ "` is derived and can not be set")
  | none, true => .ok ()

def validateFields (schema : SchemaDocument) (entityType entityId : String) (entity : Entity) :
    List Field → Except String Unit
  | [] => .ok ()
  | field :: fields =>
    match validateField schema entityType entityId entity field with
    | .ok _ => validateFields schema entityType entityId entity fields
    | .error e => .error e

/-- `Entity::validate`. -/
def validate (schema : SchemaDocument) (entityType entityId : String) (entity : Entity) :
    Except String Unit :=
  match schema.objectType entityType with
  | some obj => validateFields schema entityType entityId entity obj.fields
  | none =>
    .error ("Entity " ++ entityType ++ "[" ++ entityId ++ "]: unknown entity type `"
      ++ entityType ++ "`")

/-! ### schema.graphql -/

/-- `name: T!` -/
def requiredField (name type : String) : Field := ⟨name, .nonNull (.named type), false⟩

/-- `name: [T!]!` -/
def requiredListField (name type : String) : Field :=
  ⟨name, .nonNull (.list (.nonNull (.named type))), false⟩

/-- `name: [T!]! @derivedFrom(...)` -/
def derivedField (name type : String) : Field :=
  ⟨name, .nonNull (.list (.nonNull (.named type))), true⟩

/-- The entity types of schema.graphql. -/
def schema : SchemaDocument :=
  [ ⟨"Split",
      [ requiredField "id" "ID",
        requiredField "distributorFee" "BigInt",
        requiredListField "recipients" "SplitRecipient",
        derivedField "withdrawEvents" "SplitRecipientWithdrawEvent" ]⟩,
    ⟨"Recipient",
      [ requiredField "id" "ID",
        requiredListField "splits" "SplitRecipient" ]⟩,
    ⟨"SplitRecipient",
      [ requiredField "id" "ID",
        requiredField "split" "Split",
        requiredField "recipient" "Recipient",
        requiredField "allocation" "BigInt",
        derivedField "tokens" "SplitRecipientToken" ]⟩,
    ⟨"SplitRecipientToken",
      [ requiredField "id" "ID",
        requiredField "splitRecipient" "SplitRecipient",
        requiredField "tokenAddress" "String",
        requiredField "totalDistributed" "BigInt",
        requiredField "totalClaimed" "BigInt" ]⟩,
    ⟨"SplitRecipientWithdrawEvent",
      [ requiredField "id" "ID",
        requiredField "split" "Split",
        requiredField "recipient" "Recipient",
        requiredField "tokenAddress" "String",
        requiredField "value" "BigInt",
        requiredField "timestamp" "BigInt",
        requiredField "transactionHash" "String" ]⟩ ]

end SplitsSubgraph
