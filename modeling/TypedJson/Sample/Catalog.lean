import TypedJson.Sample.Layers
import TypedJson.Sample.Temperature
import TypedJson.Schema.Registry

set_option autoImplicit false
set_option relaxedAutoImplicit false

namespace TypedJson.Sample

def catalog : Catalog Key
  | .baseTypes => .declared baseTypes []
  | .innerRef => .declared innerRef []
  | .referencedTypes => .declared referencedTypes []
  | .userData => .declared userData []
  | .userAccount => .declared userAccount []
  | .multiObject => .declared multiObject []
  | .readWriteTestModel => .declared readWriteTestModel []
  | .entity => .declared entity []
  | .document => .declared document [("entity", entity)]
  | .signedDocument => .declared signedDocument [("document", document), ("entity", entity)]
  | .treeNode => .declared treeNode []
  | .sample => .declared sample []
  | .empty => .declared empty []
  | .derived => .declared derived [("sample", sample)]
  | .emptyDerived => .declared emptyDerived [("sample", sample)]
  | .keywords => .declared keywords []
  | .containers => .declared containers []
  | .oddNames => .declared oddNames []
  | .otherUserAccount => .declared otherUserAccount []
  | .shadowing => .declared shadowing [("sample", sample)]
  | .deepShadowing => .declared deepShadowing [("document", document), ("entity", entity)]
  | .duplicate => .declared duplicate []
  | .emptyName => .declared emptyName []
  | .childOfInvalid => .declared childOfInvalid [("base", duplicate)]
  | .holdsInvalid => .declared holdsInvalid []
  | .temperature => .custom temperature

def group (name : String) (keys : List Key) : SchemaGroup Key :=
  ⟨name, keys.map catalog⟩

def documentModule : SchemaGroup Key :=
  group "DocumentModule" [.entity, .document, .signedDocument]

/-- A group with a schema that has no descriptor. -/
def brokenModule : SchemaGroup Key :=
  group "BrokenModule" [.userData, .duplicate, .empty]

/-- A group with two schemas of one name. -/
def conflictModule : SchemaGroup Key :=
  group "ConflictModule" [.userAccount, .entity, .otherUserAccount, .empty]

def emptyModule : SchemaGroup Key :=
  group "EmptyModule" []

end TypedJson.Sample
