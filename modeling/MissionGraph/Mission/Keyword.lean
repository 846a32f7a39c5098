import MissionGraph.Text.Case

/-!
# Keywords of field values

Closed sets of words that occur inside field values. Reading one ignores letter case, writing one
uses small letters.
-/

namespace MissionGraph.Mission

/-- The first value whose word is the given text up to letter case. -/
def ofWord? {α : Type} (word : α → String) (values : List α) (text : String) : Option α :=
  values.find? fun value => Text.sameLetters (word value) text

/-- How an offer entry combines with the offer text collected so far. -/
inductive OfferMode where
  | append
  | replace
deriving DecidableEq

namespace OfferMode

def word : OfferMode → String
  | .append => "append"
  | .replace => "replace"

def ofWord? : String → Option OfferMode :=
  Mission.ofWord? word [.append, .replace]

end OfferMode

/-- The grammatical number of an offer item. -/
inductive Plurality where
  | none
  | singular
  | plural
deriving DecidableEq

namespace Plurality

def word : Plurality → String
  | .none => "none"
  | .singular => "singular"
  | .plural => "plural"

def ofWord? : String → Option Plurality :=
  Mission.ofWord? word [.none, .singular, .plural]

/-- The plurality that a word in front of an offer item marks; the absence of a plurality is not
written as a word there. -/
def ofMarker? : String → Option Plurality :=
  Mission.ofWord? word [.singular, .plural]

/-- The word in front of an offer item, if its plurality is written. -/
def marker? : Plurality → Option String
  | .none => Option.none
  | .singular => some "singular"
  | .plural => some "plural"

end Plurality

/-- Who speaks or hears a message. -/
inductive Party where
  | none
  | player
  | target
  | friendly
  | hostile
  | base
deriving DecidableEq

namespace Party

def word : Party → String
  | .none => "none"
  | .player => "player"
  | .target => "target"
  | .friendly => "friendly"
  | .hostile => "hostile"
  | .base => "base"

def ofWord? : String → Option Party :=
  Mission.ofWord? word [.none, .player, .target, .friendly, .hostile, .base]

end Party

end MissionGraph.Mission
