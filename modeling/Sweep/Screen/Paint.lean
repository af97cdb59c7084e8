/-!
# Coloured text

On a terminal a piece of text gets a style by a code before it, and loses it by a reset after it. A
reset inside the piece would end the style too early, so the code is given again after each.

## Main results

* `paint_plain` — without colours a piece of text is itself.
-/

namespace Sweep

/-- How a piece of text looks. -/
inductive Style where
  | bold
  | dimmed
  | red
  | green
  | yellow
  | cyan
deriving DecidableEq, Repr

namespace Style

/-- The number of a style. -/
def number : Style → String
  | bold => "1"
  | dimmed => "2"
  | red => "31"
  | green => "32"
  | yellow => "33"
  | cyan => "36"

/-- The code that begins a style. -/
def code (style : Style) : String :=
  "\x1b[" ++ style.number ++ "m"

/-- The code that ends all styles. -/
def reset : String := "\x1b[0m"

/-- Gives a code again after each reset. -/
def renew (code : List Char) : List Char → List Char
  | '\x1b' :: '[' :: '0' :: 'm' :: rest => reset.toList ++ code ++ renew code rest
  | c :: rest => c :: renew code rest
  | [] => []

end Style

/-- A piece of text in a style, if there are colours. -/
def paint (colored : Bool) (style : Style) (text : String) : String :=
  if colored then
    style.code ++ String.ofList (Style.renew style.code.toList text.toList) ++ Style.reset
  else text

/-- Without colours a piece of text is itself. -/
@[simp] theorem paint_plain (style : Style) (text : String) : paint false style text = text := rfl

end Sweep
