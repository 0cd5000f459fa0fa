import TypedJson.Number.Decimal

set_option autoImplicit false
set_option relaxedAutoImplicit false

namespace TypedJson

inductive PathStep where
  | item (index : Nat)
  | member (name : String)
  deriving DecidableEq, Repr

def natText (n : Nat) : String :=
  String.ofList (Nat.toDigits 10 n)

def intText (n : Int) : String :=
  String.ofList (Number.integerText n)

def PathStep.text : PathStep → String
  | .item index => "[" ++ natText index ++ "]"
  | .member name => "." ++ name

def pathText (path : List PathStep) : String :=
  "$" ++ String.join (path.map PathStep.text)

/-- A line and a column, both counted from zero. -/
structure LinePosition where
  line : Nat
  column : Nat
  deriving DecidableEq, Repr

def LinePosition.text (p : LinePosition) : String :=
  "line " ++ natText p.line ++ ", column " ++ natText p.column

/-- A place in a document, as far as it is known. -/
structure Location where
  path : Option (List PathStep)
  line : Option LinePosition
  bytes : Option Nat
  deriving DecidableEq, Repr

def Location.text (l : Location) : String :=
  let place := match l.path, l.line with
    | some path, some line => "path '" ++ pathText path ++ "', " ++ line.text
    | some path, none => "path '" ++ pathText path ++ "'"
    | none, some line => line.text
    | none, none => "<location unavailable>"
  match l.bytes with
  | some n => place ++ " (data pos " ++ natText n ++ ")"
  | none => place

end TypedJson
