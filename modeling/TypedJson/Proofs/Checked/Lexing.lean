import TypedJson.Proofs.Checked.Window

set_option autoImplicit false
set_option relaxedAutoImplicit false

namespace TypedJson

open Operation
open CheckedM (fail)
open Window (Shows advance scan)

/-- Whether the offset of the high surrogates can be subtracted from the unit that is remembered as
one. -/
def Quoted.State.isPossible (s : State) : Bool :=
  match s.phase with
  | .mark high | .letter high | .partner high _ _ => 0xD800 ≤ high
  | _ => true

namespace CheckedLexM

def refuse {α : Type} (fault : SyntaxFault) : CheckedLexM α :=
  fail (.text fault)

def skipBlank (lenient : Bool) : CheckedLexM (Option UInt8) :=
  scan (Blank.scanner lenient) (fun _ => true) .between

def skipBlankToByte (lenient : Bool) : CheckedLexM UInt8 := do
  match ← skipBlank lenient with
  | some b => pure b
  | none => refuse .incompleteDocument

def quoted (rules : Quoted.Rules) : CheckedLexM String :=
  scan (Quoted.scanner rules) Quoted.State.isPossible {}

def bare : CheckedLexM String :=
  scan Bare.scanner (fun _ => true) {}

def bareValue (lenient : Bool) : CheckedLexM Lexeme := do
  match Lexing.classify lenient (← bare) with
  | .ok l => pure l
  | .error fault => refuse fault

def value (lenient : Bool) (b : UInt8) : CheckedLexM Lexeme :=
  if b = Ascii.openBrace then do advance b; pure .beginObject
  else if b = Ascii.openBracket then do advance b; pure .beginArray
  else if LexM.opensQuoted lenient b then do
    advance b
    pure (.string (← quoted ⟨b, lenient⟩))
  else if b = Ascii.closeBracket ∨ b = Ascii.closeBrace then refuse .unexpectedClosingBracket
  else if b = Ascii.comma then refuse .unexpectedComma
  else if b = Ascii.colon then refuse .unexpectedColon
  else if Ascii.isLiteral b then bareValue lenient
  else refuse .malformedJson

def name (lenient : Bool) (b : UInt8) : CheckedLexM Lexeme :=
  if LexM.opensQuoted lenient b then do
    advance b
    pure (.name (← quoted ⟨b, lenient⟩))
  else if lenient ∧ Ascii.isLiteral b then do pure (.name (← bare))
  else refuse .expectingMemberNameOrObjectEnd

variable {total most : Nat}

def Faces (total most : Nat) (b : UInt8) (w : Window) (c : Cursor) : Prop :=
  Shows total most w c ∧ c.unread.head? = some b

/-- From a window on a cursor the checked operation comes to what the other comes to on the
cursor. -/
def Follows {α : Type} (total most : Nat) (P : Window → Cursor → Prop) (x : CheckedLexM α)
    (y : LexM α) : Prop :=
  Realizes P x y (fun _ => Shows total most) (Shows total most)

theorem follows_pure {α : Type} (a : α) : Follows total most (Shows total most) (pure a) (pure a) :=
  Realizes.pure fun _ _ h => h

theorem follows_refuse {α : Type} {P : Window → Cursor → Prop} {Q : α → Window → Cursor → Prop}
    (h : ∀ w c, P w c → Shows total most w c) (fault : SyntaxFault) :
    Realizes P (refuse fault : CheckedLexM α) (LexM.fail fault) Q (Shows total most) :=
  Realizes.fail h

theorem realizes_skipBlank (lenient : Bool) :
    Realizes (Shows total most) (skipBlank lenient) (LexM.skipBlank lenient)
      (fun a w c => Shows total most w c ∧ ∀ b, a = some b → c.unread.head? = some b)
      (Shows total most) := by
  have run : Follows total most (Shows total most) (skipBlank lenient) (LexM.skipBlank lenient) :=
    Window.realizes_scan (fun _ _ _ _ _ => rfl) rfl
  refine (run.ensuring (LexM.ensures_skipBlank lenient total) fun w c h => ?_).answering ?_
  · have bytes := h.bytes
    omega
  · rintro a w c ⟨h, -, next⟩
    refine ⟨h, fun b hb => ?_⟩
    obtain ⟨u, unread⟩ := next b hb
    rw [unread, List.head?_cons]

theorem realizes_skipBlankToByte (lenient : Bool) :
    Realizes (Shows total most) (skipBlankToByte lenient) (LexM.skipBlankToByte lenient)
      (Faces total most) (Shows total most) := by
  refine (realizes_skipBlank lenient).bind fun a => ?_
  cases a with
  | none => exact follows_refuse (fun _ _ h => h.1) _
  | some b => exact Realizes.pure fun _ _ h => ⟨h.1, h.2 b rfl⟩

theorem isPossible_of_move {rules : Quoted.Rules} {s s' : Quoted.State} {b : UInt8}
    (possible : s.isPossible = true) (move : Quoted.move rules s b = .shift s') :
    s'.isPossible = true := by
  obtain ⟨text, phase⟩ := s
  cases phase with
  | plain =>
      simp only [Quoted.move, Quoted.plainMove, Lexing.openCharacter] at move
      repeat' split at move
      all_goals first | cases move; rfl | cases move
  | escape =>
      simp only [Quoted.move] at move
      repeat' split at move
      all_goals first | cases move; rfl | cases move
  | unit value missing =>
      simp only [Quoted.move, Quoted.unitMove] at move
      repeat' split at move
      · cases move
      · cases move
        rfl
      · rename_i high
        cases move
        simp_all [Utf16.isHigh, Quoted.State.isPossible]
      · cases move
      · cases move
        rfl
  | mark high =>
      simp only [Quoted.move] at move
      split at move
      · cases move
        exact possible
      · cases move
  | letter high =>
      simp only [Quoted.move] at move
      split at move
      · cases move
        exact possible
      · cases move
  | partner high value missing =>
      simp only [Quoted.move, Quoted.partnerMove] at move
      repeat' split at move
      · cases move
      · cases move
        exact possible
      · cases move
        rfl
      · cases move
  | character p =>
      simp only [Quoted.move, Lexing.continueCharacter] at move
      repeat' split at move
      all_goals first | cases move; rfl | cases move

theorem follows_quoted (rules : Quoted.Rules) :
    Follows total most (Shows total most) (quoted rules) (LexM.quoted rules) :=
  Window.realizes_scan (fun _ _ _ => isPossible_of_move) rfl

theorem follows_bare : Follows total most (Shows total most) bare LexM.bare :=
  Window.realizes_scan (fun _ _ _ _ _ => rfl) rfl

theorem follows_bareValue (lenient : Bool) :
    Follows total most (Shows total most) (bareValue lenient) (LexM.bareValue lenient) := by
  refine Realizes.bind follows_bare fun s => ?_
  cases Lexing.classify lenient s with
  | ok l => exact follows_pure l
  | error fault => exact follows_refuse (fun _ _ h => h) fault

theorem follows_value (lenient : Bool) (b : UInt8) :
    Follows total most (Faces total most b) (value lenient b) (LexM.value lenient b) := by
  have shown (w : Window) (c : Cursor) (h : Faces total most b w c) : Shows total most w c := h.1
  unfold value LexM.value
  repeat' split
  · exact Window.realizes_advance.bind fun _ => follows_pure _
  · exact Window.realizes_advance.bind fun _ => follows_pure _
  · exact Window.realizes_advance.bind fun _ => (follows_quoted _).bind fun _ => follows_pure _
  · exact follows_refuse shown _
  · exact follows_refuse shown _
  · exact follows_refuse shown _
  · exact Realizes.starting (follows_bareValue lenient) shown
  · exact follows_refuse shown _

theorem follows_name (lenient : Bool) (b : UInt8) :
    Follows total most (Faces total most b) (name lenient b) (LexM.name lenient b) := by
  have shown (w : Window) (c : Cursor) (h : Faces total most b w c) : Shows total most w c := h.1
  unfold name LexM.name
  repeat' split
  · exact Window.realizes_advance.bind fun _ => (follows_quoted _).bind fun _ => follows_pure _
  · exact Realizes.starting (follows_bare.bind fun _ => follows_pure _) shown
  · exact follows_refuse shown _

end CheckedLexM

end TypedJson
