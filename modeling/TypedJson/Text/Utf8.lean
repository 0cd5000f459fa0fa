set_option autoImplicit false
set_option relaxedAutoImplicit false

namespace TypedJson.Utf8

def encode (cs : List Char) : List UInt8 :=
  cs.flatMap String.utf8EncodeChar

def sequenceLength? (first : UInt8) : Option Nat :=
  if 0xC2 ≤ first ∧ first ≤ 0xDF then some 2
  else if 0xE0 ≤ first ∧ first ≤ 0xEF then some 3
  else if 0xF0 ≤ first ∧ first ≤ 0xF4 then some 4
  else none

/-- The character whose encoding is exactly these bytes. -/
def decodeOne? (bytes : List UInt8) : Option Char :=
  match bytes.toByteArray.utf8DecodeChar? 0 with
  | some c => if String.utf8EncodeChar c = bytes then some c else none
  | none => none

/-- The characters of at most `fuel` sequences; an ill-formed byte becomes U+FFFD. -/
def decodeWithin : Nat → List UInt8 → List Char
  | 0, _ => []
  | _ + 1, [] => []
  | fuel + 1, b :: bs =>
      let length := (sequenceLength? b).getD 1
      match decodeOne? ((b :: bs).take length) with
      | some c => c :: decodeWithin fuel ((b :: bs).drop length)
      | none => '\uFFFD' :: decodeWithin fuel bs

/-- The text of a byte sequence; ill-formed bytes are replaced. -/
def decode (bytes : List UInt8) : String :=
  String.ofList (decodeWithin bytes.length bytes)

@[simp] theorem encode_nil : encode [] = [] := rfl

@[simp] theorem encode_cons (c : Char) (cs : List Char) :
    encode (c :: cs) = String.utf8EncodeChar c ++ encode cs := by
  simp [encode]

@[simp] theorem encode_append (cs ds : List Char) : encode (cs ++ ds) = encode cs ++ encode ds := by
  simp [encode]

/-- Decoding one character inverts encoding it, and nothing else decodes. -/
theorem decodeOne?_eq_some_iff {bytes : List UInt8} {c : Char} :
    decodeOne? bytes = some c ↔ String.utf8EncodeChar c = bytes := by
  constructor
  · intro h
    unfold decodeOne? at h
    split at h
    · split at h
      · simp_all
      · simp at h
    · simp at h
  · rintro rfl
    have h : (String.utf8EncodeChar c).toByteArray.utf8DecodeChar? 0 = some c := by
      simpa using ByteArray.utf8DecodeChar?_utf8EncodeChar_append (b := ByteArray.empty) (c := c)
    simp [decodeOne?, h]

end TypedJson.Utf8
