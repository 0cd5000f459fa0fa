import TypedJson.Proofs.Reader.Expects
import TypedJson.Proofs.Reader.Progress

set_option autoImplicit false
set_option relaxedAutoImplicit false

namespace TypedJson

open Operation
open Utf8 (encode)
open Grammar (Numerals)

namespace Reader

variable {N : List Char → Prop} {settings : ReaderSettings} {evs : List Event} {bytes : List UInt8}
variable {source : Source}

theorem expects_new (hs : source.Delivers bytes .endOfData) :
    Expects N settings evs (new source settings) ↔ ∃ t cs, bytes = encode cs ∧
      Grammar.Text N t cs ∧ t.depth ≤ settings.maxNestingDepth ∧ evs = t.events := by
  have held : (Cursor.start source).Over bytes := Cursor.holds_start hs
  constructor
  · intro h
    generalize hr : new source settings = r at h
    cases h with
    | between _ _ _ started => cases hr; cases started
    | ahead _ _ _ started => cases hr; cases started
    | @start c w bs room _ hw value hc =>
        cases hr
        obtain ⟨t, v, rest, _, hv, hd, ⟨rfl, u, hu, rfl⟩, rfl, rfl⟩ := value
        refine ⟨t, w ++ (v ++ u), ?_, .padded hw hv hu, hd, by rw [List.append_nil]⟩
        rw [held.unique hc]
        simp only [Utf8.encode_append]
  · rintro ⟨t, _, rfl, ht, hd, rfl⟩
    cases ht with
    | @padded u v w _ hu hv hw =>
        have value : Grammar.ValueThen N [] settings.maxNestingDepth (encode v ++ encode w)
            t.events :=
          ⟨t, v, encode w, [], hv, hd, ⟨rfl, w, hw, rfl⟩, rfl, by rw [List.append_nil]⟩
        rw [Utf8.encode_append, Utf8.encode_append] at held
        exact .start hu value held

theorem eventsWithin_of_expects (hN : Numerals settings.lenient N) {fuel : Nat} {r : Reader}
    (h : Expects N settings evs r) (hf : evs.length < fuel) :
    ∃ r', eventsWithin fuel r = ((evs, none), r') ∧ r'.lookahead = some .endDocument := by
  induction fuel generalizing evs r with
  | zero => omega
  | succ fuel ih =>
      obtain ⟨a, r', hx, rfl, h, hl⟩ := ReadM.attains_nextEvent hN r h
      cases evs with
      | nil => exact ⟨r', by simp only [eventsWithin, hx, List.head?_nil], hl rfl⟩
      | cons e evs =>
          obtain ⟨r'', hr, hl⟩ := ih h (by simpa using hf)
          exact ⟨r'', by simp only [eventsWithin, hx, List.head?_cons, hr, List.tail_cons], hl⟩

/-- Whatever the grammar expects, the plain loop hands out. -/
theorem events_of_expects (hN : Numerals settings.lenient N) {r : Reader}
    (h : Expects N settings evs r) :
    ∃ r', r.events = ((evs, none), r') ∧ r'.lookahead = some .endDocument := by
  have enough : r.unitsLeft < max (r.unitsLeft + 1) (evs.length + 1) := by omega
  rw [events, eventsWithin_congr (Nat.lt_succ_self _) enough]
  exact eventsWithin_of_expects hN h (by omega)

/-- Whatever the plain loop of a strict reader hands out was expected. -/
theorem expects_of_eventsWithin {fuel : Nat} {r r' : Reader} (strict : r.settings.lenient = false)
    (hr : ReadM.Between r) (hf : r.unitsLeft < fuel)
    (h : eventsWithin fuel r = ((evs, none), r')) :
    Expects Grammar.Number r.settings evs r := by
  induction fuel generalizing evs r with
  | zero => omega
  | succ fuel ih =>
      simp only [eventsWithin] at h
      cases hx : ReadM.nextEvent r with
      | error e r₁ => simp [hx] at h
      | ok a r₁ =>
          have less := ReadM.ensures_nextEvent r.unitsLeft r a r₁ (Nat.le_refl _) hx
          simp only [hx] at h
          cases a with
          | none =>
              cases h
              exact (ReadM.expects_of_lastEvent strict hr hx).1
          | some e =>
              have less := less rfl
              obtain ⟨between, kept, follow⟩ := ReadM.expects_of_nextEvent strict hr hx
              obtain ⟨⟨⟨evs', error⟩, r₂⟩, hrest⟩ : ∃ x, eventsWithin fuel r₁ = x := ⟨_, rfl⟩
              simp only [hrest] at h
              cases h
              have rest := ih (by rwa [kept]) between (by omega) hrest
              rw [kept] at rest
              exact follow _ rest

/-- A strict reader comes to the end of the document exactly on the texts of the grammar that nest
no deeper than allowed, and hands out the units of their trees. -/
theorem recognizes (hs : source.Delivers bytes .endOfData) (strict : settings.lenient = false) :
    (∃ r, (new source settings).events = ((evs, none), r) ∧ r.lookahead = some .endDocument) ↔
      ∃ t cs, bytes = encode cs ∧ Grammar.Text Grammar.Number t cs ∧
        t.depth ≤ settings.maxNestingDepth ∧ evs = t.events := by
  rw [← expects_new hs]
  constructor
  · rintro ⟨r, h, -⟩
    have between : ReadM.Between (new source settings) :=
      ⟨⟨bytes, Cursor.holds_start hs⟩, rfl, fun _ => rfl⟩
    exact expects_of_eventsWithin strict between (Nat.lt_succ_self _) h
  · exact events_of_expects (Grammar.numerals_number _)

/-- The document `[null]`, in two deliveries. -/
theorem recognizes_nullItem :
    ∃ r, (new ⟨[.data 0x5B [0x6E, 0x75], .interrupted, .data 0x6C [0x6C, 0x5D]],
        .endOfData⟩).events = (([.beginArray, .null, .endArray], none), r) ∧
      r.lookahead = some .endDocument := by
  have delivers : Source.Delivers
      ⟨[.data 0x5B [0x6E, 0x75], .interrupted, .data 0x6C [0x6C, 0x5D]], .endOfData⟩
      [0x5B, 0x6E, 0x75, 0x6C, 0x6C, 0x5D] .endOfData :=
    .data (.interrupted (.data .exhausted))
  have blank : Grammar.Blank [] := nofun
  refine (recognizes delivers rfl).mpr ⟨.array [.null], "[null]".toList, rfl, ?_, by decide, rfl⟩
  exact .padded blank (.array (.some blank .null (.done blank))) blank

end Reader

end TypedJson
