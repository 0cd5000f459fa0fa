import TypedJson.Proofs.Writer.Session

/-!
# What a unit adds to the text

What a writer puts out for a unit depends on the units before it alone: on the containers that they
leave open, and on whether the last of them has begun one. The flag for an empty container and the
indentation level of the writer, of which there is one each for all containers, say no more.
-/

set_option autoImplicit false
set_option relaxedAutoImplicit false

namespace TypedJson

namespace Event

def opens : Event → Bool
  | .beginObject => true
  | .beginArray => true
  | _ => false

def nest (containers : List Bracket) : Event → List Bracket
  | .beginObject => .object :: containers
  | .beginArray => .array :: containers
  | .endObject | .endArray => containers.tail
  | _ => containers

/-- A unit as it is written, with the colon behind a member name. -/
def token (pretty : Bool) (rules : EscapeRules) : Event → List Char
  | .beginObject => ['\x7b']
  | .endObject => ['\x7d']
  | .beginArray => ['[']
  | .endArray => [']']
  | .name s => Escape.quoted rules s.toList ++ WriteM.colon pretty
  | .string s => Escape.quoted rules s.toList
  | .number literal => literal.toList
  | .boolean b => (if b then "true" else "false").toList
  | .null => "null".toList

end Event

def Bracket.opening : Bracket → Event
  | .array => .beginArray
  | .object => .beginObject

def Bracket.ending : Bracket → Event
  | .array => .endArray
  | .object => .endObject

def Bracket.pair : Bracket → List Char
  | .array => ['[', ']']
  | .object => ['\x7b', '\x7d']

namespace Lines

/-- The containers that the units leave open, the innermost first. -/
def unfinished (before : List Event) : List Bracket :=
  before.foldl Event.nest []

def isFresh (before : List Event) : Bool :=
  before.getLast?.any Event.opens

/-- The units in front of which a text laid out in lines has a line break: the items of an array,
the member names, and the ends of the containers that are not empty. -/
def beginsLine (before : List Event) : Event → Bool
  | .name _ => true
  | .endObject | .endArray => !isFresh before
  | _ => (unfinished before).head? = some .array

def comma (before : List Event) (e : Event) : List Char :=
  if beginsLine before e && !e.closes && !isFresh before then [','] else []

/-- The blanks in front of a unit that begins a line: two per open container, except for one that
the unit ends. -/
def margin (before : List Event) (e : Event) : List Char :=
  List.replicate (2 * ((unfinished before).length - e.closes.toNat)) ' '

def lead (pretty : Bool) (before : List Event) (e : Event) : List Char :=
  comma before e ++ if pretty && beginsLine before e then '\n' :: margin before e else []

def printed (pretty : Bool) (rules : EscapeRules) : List Event → List Event → List Char
  | _, [] => []
  | before, e :: evs =>
      lead pretty before e ++ e.token pretty rules ++ printed pretty rules (before ++ [e]) evs

section

variable (before : List Event) (e : Event)

@[simp] theorem unfinished_concat : unfinished (before ++ [e]) = e.nest (unfinished before) := by
  rw [unfinished, List.foldl_append]
  rfl

@[simp] theorem isFresh_concat : isFresh (before ++ [e]) = e.opens := by
  rw [isFresh, List.getLast?_concat]
  rfl

end

theorem printed_append (pretty : Bool) (rules : EscapeRules) (before evs more : List Event) :
    printed pretty rules before (evs ++ more) =
      printed pretty rules before evs ++ printed pretty rules (before ++ evs) more := by
  induction evs generalizing before with
  | nil => rw [List.append_nil]; rfl
  | cons e evs ih =>
      simp only [List.cons_append, printed, ih, List.append_assoc, List.nil_append]

theorem printed_empty (pretty : Bool) (rules : EscapeRules) (before evs : List Event)
    (b : Bracket) : printed pretty rules before (b.opening :: b.ending :: evs) =
      lead pretty before b.opening ++ b.pair ++
        printed pretty rules (before ++ [b.opening, b.ending]) evs := by
  have inside : lead pretty (before ++ [b.opening]) b.ending = [] := by
    cases b <;> simp [lead, comma, beginsLine, Bracket.opening, Bracket.ending, Event.opens]
  rw [printed, printed, inside]
  cases b <;> simp [Bracket.opening, Bracket.ending, Bracket.pair, Event.token]

end Lines

open Lines

namespace Writer

/-- A writer behind some units. While a member value is due, the flag for an empty container is out
of date; the level is that of the lines inside of the innermost container, and it is not raised
before the first of them. -/
structure Follows (before : List Event) (w : Writer) : Prop where
  containers : w.containers = unfinished before
  empty : w.inArray = true ∨ w.expectsName = true → w.isEmpty = isFresh before
  fresh : isFresh before = true → w.inArray = true ∨ w.expectsName = true
  level : w.settings.pretty = true →
    w.level + (isFresh before).toNat = (unfinished before).length

theorem follows_new (sink : Sink) (settings : WriterSettings) :
    Follows [] (new sink settings) where
  containers := rfl
  empty position := by rcases position with inside | named <;> contradiction
  fresh := nofun
  level _ := rfl

namespace Follows

variable {w : Writer} {c : Call} {before : List Event}

theorem separator_eq {e : Event} (h : Follows before w)
    (element : w.inArray = true ∨ w.expectsName = true) (line : beginsLine before e = true)
    (begins : e.closes = false) : w.separator = lead w.settings.pretty before e := by
  rw [separator, lead, comma, margin, h.empty element, line, begins]
  cases pretty : w.settings.pretty with
  | false => cases isFresh before <;> rfl
  | true =>
      -- The first element raises the level.
      rw [← h.level pretty]
      cases isFresh before <;> rfl

theorem gap_eq {e : Event} (h : Follows before w) (line : beginsLine before e = w.inArray)
    (begins : e.closes = false) : w.gap = lead w.settings.pretty before e := by
  by_cases inside : w.inArray = true
  · rw [gap_inArray inside]
    exact h.separator_eq (.inl inside) (line.trans inside) begins
  · rw [gap, if_neg inside]
    simp [lead, comma, line, inside]

theorem closing_eq {e : Event} (h : Follows before w)
    (element : w.inArray = true ∨ w.expectsName = true)
    (line : beginsLine before e = !isFresh before) (ends : e.closes = true) : w.closing = lead w.settings.pretty before e := by
  rw [closing, lead, comma, margin, h.empty element, line, ends]
  cases pretty : w.settings.pretty with
  | false => cases isFresh before <;> rfl
  | true =>
      rw [← h.level pretty]
      cases isFresh before <;> rfl

/-- A call puts out what its unit adds to the text. -/
theorem text_eq (h : Follows before w) (placed : c.Placed w) :
    c.text w = lead w.settings.pretty before c.event ++
      c.event.token w.settings.pretty w.settings.escape := by
  have value {e : Event} {cs : List Char}
      (line : beginsLine before e = decide ((unfinished before).head? = some .array))
      (begins : e.closes = false) : w.gap ++ cs = lead w.settings.pretty before e ++ cs := by
    rw [h.gap_eq (by rw [line, inArray, h.containers]) begins]
  cases c with
  | endObject => exact congrArg (· ++ _) (h.closing_eq (.inr placed.2.2) rfl rfl)
  | endArray => exact congrArg (· ++ _) (h.closing_eq (.inl placed.2) rfl rfl)
  | name s => exact congrArg (· ++ _) (h.separator_eq (.inr placed.2) rfl rfl)
  | integer n =>
      change _ = _ ++ (intText n).toList
      rw [intText, String.toList_ofList]
      exact value rfl rfl
  | double x =>
      change _ = _ ++ (String.ofList x.numeral).toList
      rw [String.toList_ofList]
      exact value rfl rfl
  | _ => exact value rfl rfl

theorem unfinished_ne_nil (h : Follows before w) (placed : c.Placed w)
    (closes : c.event.closes = true) : unfinished before ≠ [] := by
  rw [← h.containers]
  intro none
  cases c with
  | endObject => simp [Call.Placed, inObject, none] at placed
  | endArray => simp [Call.Placed, inArray, none] at placed
  | _ => cases closes

theorem level_separated (h : Follows before w)
    (element : w.inArray = true ∨ w.expectsName = true) (pretty : w.settings.pretty = true) :
    w.separated.level = (unfinished before).length := by
  rw [separated_level, h.empty element, pretty, ← h.level pretty]
  cases isFresh before <;> rfl

theorem level_begun (h : Follows before w) (placed : w.TakesValue)
    (pretty : w.settings.pretty = true) : w.begun.level = (unfinished before).length := by
  by_cases inside : w.inArray = true
  · rw [begun_inArray inside]
    exact h.level_separated (.inl inside) pretty
  · have stale : isFresh before = false := by
      by_contra fresh
      have element := h.fresh (by simpa using fresh)
      simp [inside, placed.noName] at element
    have level := h.level pretty
    rw [stale] at level
    rw [begun, if_neg inside]
    exact level

theorem begun {e : Event} (h : Follows before w) (placed : w.TakesValue)
    (nest : e.nest (unfinished before) = unfinished before) (scalar : e.opens = false) :
    Follows (before ++ [e]) w.begun where
  containers := by rw [begun_containers, unfinished_concat, nest, h.containers]
  empty _ := by rw [isFresh_concat, scalar]; rfl
  fresh opens := by rw [isFresh_concat, scalar] at opens; cases opens
  level pretty := by
    rw [begun_settings] at pretty
    rw [unfinished_concat, nest, isFresh_concat, scalar]
    exact h.level_begun placed pretty

theorem entered {e : Event} {b : Bracket} (h : Follows before w) (placed : w.TakesValue)
    (nest : e.nest (unfinished before) = b :: unfinished before) (opens : e.opens = true) :
    Follows (before ++ [e]) (w.begun.entered b) where
  containers := by
    rw [unfinished_concat, nest, ← h.containers, ← w.begun_containers]
    rfl
  empty _ := by rw [isFresh_concat, opens]; rfl
  fresh _ := by cases b <;> simp [Writer.entered, inArray]
  level pretty := by
    rw [unfinished_concat, nest, isFresh_concat, opens]
    exact congrArg (· + 1) (h.level_begun placed (w.begun_settings ▸ pretty))

theorem left {e : Event} (h : Follows before w)
    (element : w.inArray = true ∨ w.expectsName = true)
    (nest : e.nest (unfinished before) = (unfinished before).tail) (ends : e.opens = false) :
    Follows (before ++ [e]) w.left where
  containers := by
    rw [unfinished_concat, nest, ← h.containers]
    rfl
  empty _ := by rw [isFresh_concat, ends]; rfl
  fresh opens := by rw [isFresh_concat, ends] at opens; cases opens
  level pretty := by
    have lines : w.settings.pretty = true := pretty
    have level : w.left.level = if !isFresh before then w.level - 1 else w.level := by
      rw [Writer.left, h.empty element, lines, Bool.and_true]
    -- The level goes back only if an element has raised it.
    rw [unfinished_concat, nest, isFresh_concat, ends, List.length_tail, level, ← h.level lines]
    cases isFresh before <;> rfl

theorem named {e : Event} (h : Follows before w) (expected : w.expectsName = true)
    (inside : w.inObject = true) (nest : e.nest (unfinished before) = unfinished before)
    (name : e.opens = false) : Follows (before ++ [e]) w.named where
  containers := by
    rw [unfinished_concat, nest, ← h.containers]
    exact w.separated_containers
  empty position := by
    rcases position with inArray | again
    · exact absurd inArray (named_inArray inside)
    · cases again
  fresh opens := by rw [isFresh_concat, name] at opens; cases opens
  level pretty := by
    rw [unfinished_concat, nest, isFresh_concat, name]
    exact h.level_separated (.inr expected) (w.separated_settings ▸ pretty)

/-- Behind a call that fits, the writer is behind its unit. -/
theorem next (h : Follows before w) (sound : w.Sound) (placed : c.Placed w) :
    Follows (before ++ [c.event]) (c.next w) := by
  cases c with
  | beginObject | beginArray => exact h.entered placed rfl rfl
  | endObject => exact h.left (.inr placed.2.2) rfl rfl
  | endArray => exact h.left (.inl placed.2) rfl rfl
  | name s => exact h.named placed.2 (sound placed.2) rfl rfl
  | _ => exact h.begun placed rfl rfl

end Follows

end Writer

end TypedJson
