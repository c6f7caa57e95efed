/-!
# Quoted text

In messages a text stands in double quotes and a single character in single quotes.  The quote in use, the
backslash, and the newline, return, tab and null characters are written with a backslash; everything else
stands for itself.
-/

namespace CodeAtlas.Text

/-- One character inside the given quotes. -/
def escaped (quote c : Char) : List Char :=
  if c = quote then ['\\', c]
  else if c = '\\' then ['\\', '\\']
  else if c = '\n' then ['\\', 'n']
  else if c = '\r' then ['\\', 'r']
  else if c = '\t' then ['\\', 't']
  else if c.toNat = 0 then ['\\', '0']
  else [c]

/-- A text between the given quotes. -/
def quoted (quote : Char) (s : List Char) : List Char :=
  quote :: s.flatMap (escaped quote) ++ [quote]

end CodeAtlas.Text
