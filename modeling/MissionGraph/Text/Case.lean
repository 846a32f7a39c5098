/-!
# Names up to letter case

Keywords, condition names and faction names are compared without regard to the case of the letters
A to Z. All other characters count as they stand.
-/

namespace MissionGraph.Text

/-- The two texts are equal once the letters A to Z are written small. -/
def sameLetters (first second : String) : Bool :=
  first.toLower == second.toLower

theorem sameLetters_iff (first second : String) :
    sameLetters first second = true ↔ first.toLower = second.toLower := by
  simp [sameLetters]

end MissionGraph.Text
