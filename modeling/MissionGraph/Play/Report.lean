import MissionGraph.Mission.Data
import Std.Data.ExtTreeMap

/-!
# Reports

What a walk through a graph has found out about a mission. Of two objectives for one target and of two
messages at one event the later one counts.
-/

namespace MissionGraph.Play

open Mission (Comm Data Message Objective Offer OfferItem listText)
open Number (intText)

structure Report where
  /-- The walk met a mission that is missing, or a test for groups without a way out. -/
  failed : Bool
  documentation : List String
  objectives : Std.ExtTreeMap String Message
  comms : Std.ExtTreeMap String Comm
  reward : Option Message
  failure : Option Message
  offer : List OfferItem
deriving DecidableEq

namespace Report

/-- The report before the first step. -/
def empty : Report where
  failed := false
  documentation := []
  objectives := ∅
  comms := ∅
  reward := none
  failure := none
  offer := []

def fail (report : Report) : Report :=
  { report with failed := true }

def addDocumentation (report : Report) (text : String) : Report :=
  { report with documentation := report.documentation ++ [text] }

/-- Adds the items of an offer to those found before, or takes them in their place. -/
def addOffer (report : Report) (offer : Offer) : Report :=
  match offer.mode with
  | .append => { report with offer := report.offer ++ offer.items }
  | .replace => { report with offer := offer.items }

/-- Takes over the values of a data node, of its offers only the given one. -/
def addData (report : Report) (data : Data) (offer : Option Offer) : Report :=
  let offered :=
    match offer with
    | some offer => report.addOffer offer
    | none => report
  { offered with
    reward := data.reward <|> report.reward
    failure := data.failure <|> report.failure
    objectives := data.objectives.foldl (fun map objective => map.insert objective.target objective.message)
      report.objectives
    comms := data.comms.foldl (fun map comm => map.insert comm.event comm) report.comms }

/-- An item of the offer as it is shown. -/
def itemText (item : OfferItem) : String :=
  let marker :=
    match item.plurality.marker? with
    | some word => word ++ " "
    | none => ""
  let args := if item.message.args.isEmpty then "" else " (" ++ listText item.message.args ++ ")"
  marker ++ intText item.message.id.toInt ++ args

/-- The lines that show the report. -/
def lines (report : Report) : List String :=
  (if report.failed then ["error: true"] else [])
    ++ (if report.documentation.isEmpty then []
        else ["documentation: " ++ listText report.documentation])
    ++ report.reward.toList.map (fun message => "reward_text: " ++ message.text)
    ++ report.failure.toList.map (fun message => "failure_text: " ++ message.text)
    ++ report.objectives.toList.map (fun (target, message) =>
        "objective_text " ++ target ++ ": " ++ message.text)
    ++ report.comms.toList.map (fun (event, comm) =>
        "comm_sequence " ++ event ++ ": " ++ listText (comm.parts.drop 1))
    ++ (if report.offer.isEmpty then []
        else ["offer_text: " ++ "; ".intercalate (report.offer.map itemText)])

def text (report : Report) : String :=
  String.join (report.lines.map (· ++ "\n"))

end Report

end MissionGraph.Play
