/-!
# Comparing text without regard to case

Names of registers and spellings of infinity are recognised whatever the case of their letters.  Only the
26 letters of the basic Latin alphabet have two cases here: every other character stands for itself alone.
-/

namespace CodeAtlas.Text

/-- Whether two texts agree once the basic Latin capitals are read as small letters. -/
def sameFolded (s t : List Char) : Bool :=
  s.map Char.toLower == t.map Char.toLower

end CodeAtlas.Text
