import TypedJson.Sample.Key

set_option autoImplicit false
set_option relaxedAutoImplicit false

namespace TypedJson.Sample

def baseTypes : Layer Key := layer .baseTypes "BaseTypes" [
  plain "i1" int32,
  plain "i2" (.optional int32),
  declared "i3" "i3" (.optional int32) (someInt (-1)),
  declared "i4" "i4" (.optional int32) (someInt (-1)),
  plain "l1" int64,
  plain "l2" (.optional int64),
  declared "l3" "l3" (.optional int64) (someInt (-1)),
  declared "l4" "l4" (.optional int64) (someInt (-9223372036854775802)),
  plain "byte1" int8,
  plain "byte2" (.optional int8),
  declared "byte3" "byte3" (.optional int8) (someInt (-1)),
  declared "byte4" "byte4" (.optional int8) (someInt (-3)),
  plain "b1" boolean,
  plain "b2" (.optional boolean),
  declared "b3" "b3" (.optional boolean) (someBool true),
  declared "b4" "b4" (.optional boolean) (someBool true)]

def innerRef : Layer Key := layer .innerRef "InnerRef" [
  renamed "base_types" "baseTypes" (.optional (.record .baseTypes))]

def referencedTypes : Layer Key := layer .referencedTypes "ReferencedTypes" [
  renamed "base_types" "baseTypes" (.optional (.record .baseTypes)),
  renamed "inner_ref" "innerRef" (.optional (.record .innerRef)),
  plain "name" (.optional text)]

def userData : Layer Key := layer .userData "UserData" [
  renamed "user_name" "userName" text,
  renamed "password_hash" "password-hash" text,
  renamed "kind" "type" int32,
  plain "active" boolean]

def userAccount : Layer Key := layer .userAccount "UserAccount" [
  plain "id" int64,
  renamed "user_id" "userId" text]

def multiObject : Layer Key := layer .multiObject "MultiObject" [
  renamed "user_accounts_list" "userAccountsList" (.list (.record .userAccount)),
  plain "tags" (.list (.optional text))]

def readWriteTestModel : Layer Key := layer .readWriteTestModel "ReadWriteTestModel" [
  declared "int_field1" "intField1" int32 (.scalar (.integer (-1))),
  declared "int_field2" "intField2" int32 (.scalar (.integer (-1))),
  declared "string_field" "stringField" (.optional text) (.present (.scalar (.text "a"))),
  renamed "boolean_field" "booleanField" boolean,
  renamed "long_field" "longField" int64,
  renamed "short_field" "shortField" int16,
  renamed "unsigned_field" "unsignedField" uint16,
  renamed "double_field" "doubleField" double,
  renamed "byte_field" "byteField" int8,
  renamed "unsigned_byte_field" "unsignedByteField" uint8,
  renamed "float_field" "floatField" single,
  declared "nullable_byte" "nullableByte" (.optional int8) (someInt (-1)),
  renamed "nullable_float" "nullableFloat" (.optional single),
  renamed "base_types" "baseTypes" (.optional (.record .baseTypes))]

def entity : Layer Key := layer .entity "Entity" [
  plain "id" int64,
  plain "version" (.optional uint8)]

def document : Layer Key := layer .document "Document" [plain "title" text]

def signedDocument : Layer Key := layer .signedDocument "SignedDocument" [
  plain "signature" (.optional text)]

def treeNode : Layer Key := layer .treeNode "TreeNode" [
  plain "value" int32,
  plain "children" (.list (.record .treeNode)),
  renamed "parent_value" "parent" (.optional (.boxed (.record .treeNode)))]

def sample : Layer Key := layer .sample "Sample" [
  declared "int_field" "_intField1" int32 (.scalar (.integer (-1))),
  declared "text" "text" text (.scalar (.text "a")),
  plain "nullable" (.optional int64),
  plain "list" (.list uint8)]

def empty : Layer Key := layer .empty "Empty" []

def derived : Layer Key := layer .derived "Derived" [plain "extra" boolean]

def emptyDerived : Layer Key := layer .emptyDerived "EmptyDerived" []

def keywords : Layer Key := layer .keywords "Keywords" [
  renamed "r#type" "type" int32,
  renamed "r#match" "matches" boolean]

def containers : Layer Key := layer .containers "Containers" [
  plain "deque" (.list uint16),
  plain "floats" (.list single),
  plain "grid" (.list (.list (.optional int64))),
  declared "boxed" "boxed" (.boxed int16) (.scalar (.integer 7)),
  declared "flags" "flags" (.optional (.list boolean))
    (.present (.list [.scalar (.boolean true)])),
  plain "doubles" (.list (.optional double)),
  plain "docs" (.list (.optional (.record .document)))]

def oddNames : Layer Key := layer .oddNames "OddNames" [
  renamed "a" "n\u00e4me" int32,
  renamed "b" "a.b" int32,
  renamed "c" "quote\"d" int32,
  renamed "d" "😀" int32,
  renamed "e" "<tag>" int32,
  renamed "f" "a b\n" int32,
  renamed "g" "inner[0]" (.optional (.boxed (.record .oddNames)))]

/-- A schema of its own that shares its name with another. -/
def otherUserAccount : Layer Key := layer .otherUserAccount "UserAccount" [plain "only" boolean]

/-! Declarations that contradict themselves or what they extend. -/

def shadowing : Layer Key := layer .shadowing "Shadowing" [plain "text" text]

def deepShadowing : Layer Key := layer .deepShadowing "DeepShadowing" [
  plain "flag" boolean,
  plain "version" int32]

def duplicate : Layer Key := layer .duplicate "Duplicate" [
  renamed "a" "x" int32,
  renamed "b" "x" int32]

def emptyName : Layer Key := layer .emptyName "EmptyName" [
  plain "a" int32,
  renamed "b" "" int32]

def childOfInvalid : Layer Key := layer .childOfInvalid "ChildOfInvalid" [plain "c" int32]

def holdsInvalid : Layer Key := layer .holdsInvalid "HoldsInvalid" [
  plain "ok" int32,
  plain "bad" (.optional (.record .duplicate))]

end TypedJson.Sample
