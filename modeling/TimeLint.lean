import TimeLint.Main
import TimeLint.Report.Input
import TimeLint.Proofs.EditChain
import TimeLint.Proofs.Grammar
import TimeLint.Proofs.Correction
import TimeLint.Proofs.Placement
import TimeLint.Proofs.DiskShape
import TimeLint.Proofs.DiskPaths
import TimeLint.Proofs.Discovery
import TimeLint.Proofs.RunChanges
import TimeLint.Proofs.SecondRun
import TimeLint.Proofs.Commands
import TimeLint.Proofs.FixThenCheck
import TimeLint.Proofs.CorrectedTree
import TimeLint.Proofs.Survivors
import TimeLint.Proofs.Mirror
import TimeLint.Proofs.SecondCheck
import TimeLint.Proofs.Visits
import TimeLint.Proofs.CallReading
import TimeLint.Proofs.Acceptance
import TimeLint.Proofs.Tangles
import TimeLint.Proofs.RunCompletes
import TimeLint.Proofs.ExitStatus
import TimeLint.Proofs.Rounds
import TimeLint.Proofs.Splicing
import TimeLint.Proofs.StableOrder
import TimeLint.Proofs.BatchOutcome
import TimeLint.Proofs.Composition
import TimeLint.Proofs.BatchOrder
import TimeLint.Proofs.KeptText
import TimeLint.Proofs.Utf8
import TimeLint.Proofs.Verdicts
import TimeLint.Proofs.AssignmentTargets
import TimeLint.Proofs.LostLeaves
import TimeLint.Proofs.Spelling
import TimeLint.Proofs.Separation
import TimeLint.Proofs.RealPlaces
import TimeLint.Proofs.ExactDiscovery
import TimeLint.Proofs.IgnoreUnion
import TimeLint.Proofs.TomlDocument
import TimeLint.Proofs.SettingsFaults
import TimeLint.Proofs.CorrectableCount
import TimeLint.Proofs.RangeNesting
import TimeLint.Proofs.NamesOnly
import TimeLint.Proofs.CharacterEdits
import TimeLint.Proofs.FirstFault
import TimeLint.Proofs.StackOrder
import TimeLint.Proofs.RecordForm
import TimeLint.Proofs.RecordLines
