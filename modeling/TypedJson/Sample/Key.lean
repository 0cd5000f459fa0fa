import TypedJson.Schema.Declaration

set_option autoImplicit false
set_option relaxedAutoImplicit false

namespace TypedJson.Sample

inductive Key where
  | baseTypes
  | innerRef
  | referencedTypes
  | userData
  | userAccount
  | multiObject
  | readWriteTestModel
  | entity
  | document
  | signedDocument
  | treeNode
  | sample
  | empty
  | derived
  | emptyDerived
  | keywords
  | containers
  | oddNames
  | otherUserAccount
  | shadowing
  | deepShadowing
  | duplicate
  | emptyName
  | childOfInvalid
  | holdsInvalid
  | temperature
  deriving DecidableEq, Repr

/-! Field types. -/

abbrev Shape := FieldType Key

def int8 : Shape := .scalar (.integer .int8)
def int16 : Shape := .scalar (.integer .int16)
def int32 : Shape := .scalar (.integer .int32)
def int64 : Shape := .scalar (.integer .int64)
def uint8 : Shape := .scalar (.integer .uint8)
def uint16 : Shape := .scalar (.integer .uint16)
def single : Shape := .scalar .single
def double : Shape := .scalar .double
def boolean : Shape := .scalar .boolean
def text : Shape := .scalar .text

/-! Values. -/

def someInt (n : Int) : Value Key := .present (.scalar (.integer n))

def someBool (b : Bool) : Value Key := .present (.scalar (.boolean b))

def declared (name jsonName : String) (type : Shape) (initial : Value Key) : Field Key :=
  ⟨name, jsonName, type, initial⟩

def renamed (name jsonName : String) (type : Shape) : Field Key :=
  ⟨name, jsonName, type, type.blank fun k => .record k []⟩

def plain (name : String) (type : Shape) : Field Key :=
  renamed name name type

def layer (key : Key) (name : String) (fields : List (Field Key)) : Layer Key :=
  ⟨⟨key, name⟩, fields⟩

end TypedJson.Sample
