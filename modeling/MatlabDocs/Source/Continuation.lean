import MatlabDocs.Text.Basic

/-!
# Continued lines

An ellipsis continues a line on the next one. Continued lines are joined, so that a
signature stands on one line.
-/

namespace MatlabDocs

/-- Leaves out the last ellipsis that has a quote after it. -/
def dropQuotedEllipsis? : Text → Option Text
  | [] => none
  | c :: rest =>
    match dropQuotedEllipsis? rest with
    | some shorter => some (c :: shorter)
    | none =>
      if Text.startsWith (c :: rest) "..." && (rest.drop 2).contains '\x27' then
        some (rest.drop 2)
      else none

/-- Leaves out the last ellipsis between the first and the last quote of a line. -/
def dropEllipsisInQuotes (line : Text) : Text :=
  let front := line.takeWhile (· != '\x27')
  match line.drop front.length with
  | quote :: rest => front ++ quote :: (dropQuotedEllipsis? rest).getD rest
  | [] => line

/-- What stands before the last ellipsis that neither a comment sign nor a quote precedes. -/
def beforeContinuation? : Text → Option Text
  | [] => none
  | c :: rest =>
    let later :=
      if c == '%' || c == '\x27' || c == '"' then none
      else (beforeContinuation? rest).map (c :: ·)
    later.or (if Text.startsWith (c :: rest) "..." then some [] else none)

/-- Puts the lines together again; each but the last ends in a line feed unless it is
continued. -/
def joinContinued : List Text → Text
  | [] => []
  | [last] => last
  | line :: lines => (beforeContinuation? line).getD (line ++ ['\n']) ++ joinContinued lines

def joinContinuedLines (code : Text) : Text :=
  joinContinued ((code.splitOn '\n').map dropEllipsisInQuotes)

end MatlabDocs
