/-!
# Lines of a text

A line ends at a line feed, and a carriage return right before the line feed belongs to the line
break. What follows the last line feed is a line of its own unless it is empty; a carriage return
at its end stays.
-/

namespace Calculator.Text

/-- The lines of a text, without their line breaks. -/
def splitLines : List Char → List (List Char)
  | [] => []
  | '\n' :: cs => [] :: splitLines cs
  -- A carriage return belongs to the line break only right before a line feed.
  | '\r' :: '\n' :: cs => [] :: splitLines cs
  | c :: cs =>
    match splitLines cs with
    | [] => [[c]]
    | line :: rest => (c :: line) :: rest

/-- The lines of a string, without their line breaks. -/
def lines (s : String) : List String := (splitLines s.toList).map String.ofList

/-- What a typed line reads as: a backspace takes the character before it away. -/
def eraseBackspaces (cs : List Char) : List Char :=
  (cs.foldl (fun typed c => if c = '\x08' then typed.tail else c :: typed) []).reverse

end Calculator.Text
