import TypedJson.Proofs.Input.Mark
import TypedJson.Proofs.Reader.Session

set_option autoImplicit false
set_option relaxedAutoImplicit false

namespace TypedJson

/-- The location lies directly behind these bytes. -/
structure Location.Describes (l : Location) (consumed : List UInt8) : Prop where
  bytes : l.bytes = some consumed.length
  line : l.line = some ⟨Lines.breaks consumed, Lines.characters (Lines.last consumed)⟩
  text : ∀ cs, consumed = Utf8.encode cs →
    l.line = some ⟨Lines.breaks consumed, (Lines.lastOf cs).length⟩

namespace Reader

theorem describes_of_mark {r : Reader} {consumed : List UInt8}
    (h : r.cursor.mark.Describes consumed) : r.location.Describes consumed := by
  have line : r.location.line =
      some ⟨Lines.breaks consumed, Lines.characters (Lines.last consumed)⟩ := by
    rw [← h.line, ← h.column]
    rfl
  refine ⟨congrArg some h.bytes, line, fun cs text => ?_⟩
  rw [line, text, Lines.characters_last_encode]

/-- After any calls, failed ones included, the location counts the bytes consumed of what the source
has handed over, the line breaks among them, and the characters behind the last break; a caller who
makes one more call sees the location that this call leaves. -/
theorem location_describes_consumed (s : Source) (settings : ReaderSettings) (calls : List Call) :
    (∃ consumed, ((new s settings).session calls).2.cursor.Consumed s.replies consumed ∧
      ((new s settings).session calls).2.location.Describes consumed) ∧
    ∀ c : Call, ∃ consumed,
      (((new s settings).session calls).2.call c).2.cursor.Consumed s.replies consumed ∧
        (((new s settings).session calls).2.call c).1.position.Describes consumed := by
  have located (calls : List Call) : ∃ consumed,
      ((new s settings).session calls).2.cursor.Consumed s.replies consumed ∧
        ((new s settings).session calls).2.location.Describes consumed := by
    obtain ⟨consumed, bytes, mark⟩ := kept_of_session (kept_located s.replies)
      (r := new s settings) (Cursor.located_start s) calls
    exact ⟨consumed, bytes, describes_of_mark mark⟩
  refine ⟨located calls, fun c => ?_⟩
  rw [position_of_call, ← session_concat]
  exact located (calls ++ [c])

/-- One line break in two deliveries, then a bracket and half of a string that is no UTF-8. -/
example :
    (((new ⟨[.data 0x0D [], .data 0x0A [0x5B, 0x22], .data 0x80 []], .endOfData⟩).session
      [.beginArray, .nextString]).1.map fun seen => (seen.position.line, seen.position.bytes)) =
      [(some ⟨1, 1⟩, some 3), (some ⟨1, 2⟩, some 4)] := by
  decide +kernel

end Reader

end TypedJson
