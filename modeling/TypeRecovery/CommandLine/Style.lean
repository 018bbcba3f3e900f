/-!
# Styled text

Text for a terminal is set off by control sequences, when the terminal understands them.
-/

namespace TypeRecovery

namespace CommandLine

/-- Ways to set off text, with the numbers of their control sequences. -/
inductive Style where
  | bold
  | dimmed
  | red
  | green
  | yellow
  | boldRed
  | boldGreen
  | boldYellow
  deriving DecidableEq, Repr

namespace Style

/-- The numbers of a style. -/
def codes : Style → String
  | bold => "1"
  | dimmed => "2"
  | red => "31"
  | green => "32"
  | yellow => "33"
  | boldRed => "1;31"
  | boldGreen => "1;32"
  | boldYellow => "1;33"

/-- The sequence that ends all styles. -/
def reset : String := "\x1b[0m"

/-- The sequence that starts a style. -/
def start (s : Style) : String := "\x1b[" ++ s.codes ++ "m"

/-- Text in a style, or plain text. The style starts again after every place where the text itself
ends all styles. -/
def apply (s : Style) (colored : Bool) (text : String) : String :=
  if colored then s.start ++ (reset ++ s.start).intercalate (text.splitOn reset) ++ reset else text

end Style

end CommandLine

end TypeRecovery
