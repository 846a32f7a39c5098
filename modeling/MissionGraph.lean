import MissionGraph.Text.Blank
import MissionGraph.Text.Case
import MissionGraph.Text.Lines
import MissionGraph.Number.Decimal
import MissionGraph.Mission.Data
import MissionGraph.Script.Reader
import MissionGraph.Script.Parser
import MissionGraph.Script.Check
import MissionGraph.Script.Diagnostic
import MissionGraph.Graph.Compile
import MissionGraph.Record.Encode
import MissionGraph.Record.Decode
import MissionGraph.Record.Ini
import MissionGraph.Record.Dot
import MissionGraph.Outline.Script
import MissionGraph.Play.Walk
import MissionGraph.Session
import MissionGraph.CommandLine
import MissionGraph.Main
import MissionGraph.Proofs.Compile.Branches
import MissionGraph.Proofs.Compile.Evaluation
import MissionGraph.Proofs.Compile.Storage
import MissionGraph.Proofs.Graph.Isomorphism
import MissionGraph.Proofs.Build.Places
import MissionGraph.Proofs.Compile.Scripts
import MissionGraph.Proofs.Build.Notes
import MissionGraph.Proofs.Compile.Rewritten
import MissionGraph.Proofs.Compile.RoundTrip
import MissionGraph.Proofs.Record.Stored
import MissionGraph.Proofs.Ini.Legible
import MissionGraph.Proofs.Script.Acceptance
import MissionGraph.Proofs.Build.Trace
import MissionGraph.Proofs.Build.Agreement
import MissionGraph.Proofs.Compile.Conservation
import MissionGraph.Proofs.Script.Coverage
import MissionGraph.Proofs.Script.Fields
import MissionGraph.Proofs.Script.Carrying
import MissionGraph.Proofs.Build.Carrying
import MissionGraph.Proofs.Script.Margins
import MissionGraph.Proofs.Compile.Indentation
import MissionGraph.Proofs.Outline.Openings
import MissionGraph.Proofs.Outline.Termination
import MissionGraph.Proofs.Graph.Circles
import MissionGraph.Proofs.Build.Unchecked
import MissionGraph.Proofs.Build.Faults
import MissionGraph.Proofs.Outline.Unjoining
import MissionGraph.Proofs.Outline.WholeChains
import MissionGraph.Proofs.Build.Attached
import MissionGraph.Proofs.Build.Unused
import MissionGraph.Proofs.Graph.BackEdges
import MissionGraph.Proofs.Script.Recursion
import MissionGraph.Proofs.Play.Trails
import MissionGraph.Proofs.Script.Excerpts
import MissionGraph.Proofs.Compile.Diagnostics
import MissionGraph.Proofs.Outline.Refilling
import MissionGraph.Proofs.Script.OfferLists
import MissionGraph.Proofs.Play.LetterCase
import MissionGraph.Proofs.Record.Labels
import MissionGraph.Proofs.Graph.References
import MissionGraph.Proofs.Outline.Recounting
import MissionGraph.Proofs.Graph.Renaming
