import SsaLowering.Command.Run
import SsaLowering.Compilation.Module
import SsaLowering.Diagnostic
import SsaLowering.Ir.Builder
import SsaLowering.Ir.Decoding
import SsaLowering.Ir.Encoding
import SsaLowering.Ir.Listing
import SsaLowering.Ir.Verification
import SsaLowering.Json.Reading
import SsaLowering.Json.Writing
import SsaLowering.Main
import SsaLowering.Source.Loading
import SsaLowering.Source.Schema
import SsaLowering.Source.Tables
import SsaLowering.Ssa.Construction
import SsaLowering.Proofs.DominatorTree
import SsaLowering.Proofs.Edits
import SsaLowering.Proofs.Machine
import SsaLowering.Proofs.WellFormed
import SsaLowering.Proofs.Trimming
import SsaLowering.Proofs.PhiPlacement
import SsaLowering.Proofs.TreeVisits
import SsaLowering.Proofs.Renaming
import SsaLowering.Proofs.PhiArguments
import SsaLowering.Proofs.Promotion
import SsaLowering.Proofs.Simulation
import SsaLowering.Proofs.SsaConstruction
import SsaLowering.Proofs.Evaluation
import SsaLowering.Proofs.Desugaring
import SsaLowering.Proofs.Building
import SsaLowering.Proofs.References
import SsaLowering.Proofs.BinaryForm
import SsaLowering.Proofs.Verification
import SsaLowering.Proofs.FormedCode
import SsaLowering.Proofs.LoweringWalk
import SsaLowering.Proofs.SoundLowering
import SsaLowering.Proofs.ModuleRoundTrip
import SsaLowering.Proofs.CacheTransparency
import SsaLowering.Proofs.RecordedPredecessors
import SsaLowering.Proofs.VerifiedModules
import SsaLowering.Proofs.BodyRules
import SsaLowering.Proofs.DesugaredRules
import SsaLowering.Proofs.SelectedFunctions
import SsaLowering.Proofs.AcceptedBytes
import SsaLowering.Proofs.Interleavings
import SsaLowering.Proofs.ReadingBack
import SsaLowering.Proofs.PrunedSsa
import SsaLowering.Proofs.VerifiableSsa
import SsaLowering.Proofs.LiveBlocks
import SsaLowering.Proofs.LexicalScopes
import SsaLowering.Proofs.AskedMarks
import SsaLowering.Proofs.ReportBudget
import SsaLowering.Proofs.FullPromotion
import SsaLowering.Proofs.TypeLayouts
import SsaLowering.Proofs.LocatedSpans
import SsaLowering.Proofs.AcceptedTrees
import SsaLowering.Proofs.Bookkeeping
import SsaLowering.Proofs.RowForest
import SsaLowering.Proofs.LocalNumbering
import SsaLowering.Proofs.AcceptedPrograms
