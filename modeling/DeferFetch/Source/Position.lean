/-
# DeferFetch.Source.Position — where a character of the source stands.

A `Cursor` walks over the source one character at a time and always knows its place; a `Position`
is what is kept of it in spans. Lines end at a line feed, at a carriage return, and at both of them
in a row, which count once.
-/
import DeferFetch.Text.CharClass

namespace DeferFetch

/-- **`Position`** — a place between two characters, every part counted from zero: the line, the
characters and the UTF-16 code units since the line began, and the bytes since the text began.
A token that was never read from a text has no `column16`. -/
structure Position where
  line : Nat := 0
  column : Nat := 0
  column16 : Option Nat := none
  offset : Nat := 0
deriving DecidableEq, Repr, Inhabited

/-- **`Cursor`** — a place that can move on. `afterReturn` says that the character just passed was a
carriage return, so that a line feed here ends no second line. -/
structure Cursor where
  line : Nat := 0
  column : Nat := 0
  column16 : Nat := 0
  offset : Nat := 0
  afterReturn : Bool := false
deriving DecidableEq, Repr, Inhabited

namespace Cursor

/-- The place the cursor stands at. -/
def position (k : Cursor) : Position := ⟨k.line, k.column, some k.column16, k.offset⟩

/-- **`k.step c`** — the cursor after passing `c`. -/
def step (k : Cursor) (c : Char) : Cursor :=
  let offset := k.offset + c.utf8Size
  if c = '\n' then
    if k.afterReturn then { k with offset, afterReturn := false }
    else { line := k.line + 1, offset }
  else if c = '\r' then
    { line := k.line + 1, offset, afterReturn := true }
  else
    { k with column := k.column + 1, column16 := k.column16 + Text.units16 c, offset,
             afterReturn := false }

/-- **`k.advance cs`** — the cursor after passing every character of `cs`. -/
def advance (k : Cursor) (cs : List Char) : Cursor := cs.foldl step k

@[simp] theorem advance_nil (k : Cursor) : k.advance [] = k := rfl

@[simp] theorem advance_cons (k : Cursor) (c : Char) (cs : List Char) :
    k.advance (c :: cs) = (k.step c).advance cs := rfl

/-- Every character moves the cursor on by its own bytes, whatever it does to the line. -/
@[simp] theorem step_offset (k : Cursor) (c : Char) :
    (k.step c).offset = k.offset + c.utf8Size := by
  unfold step
  split
  · split <;> rfl
  · split <;> rfl

end Cursor

end DeferFetch
