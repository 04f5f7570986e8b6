import ShaderVariants.Compile.Session
import ShaderVariants.Proofs.Accumulation
import ShaderVariants.Proofs.Agreement
import ShaderVariants.Proofs.AttributeRuns
import ShaderVariants.Proofs.AttributeSlots
import ShaderVariants.Proofs.Attributed
import ShaderVariants.Proofs.Bare
import ShaderVariants.Proofs.Caching
import ShaderVariants.Proofs.CanonicalOrder
import ShaderVariants.Proofs.ChoiceSets
import ShaderVariants.Proofs.Conservation
import ShaderVariants.Proofs.Coverage
import ShaderVariants.Proofs.Decisions
import ShaderVariants.Proofs.Defaults
import ShaderVariants.Proofs.DependenceOrder
import ShaderVariants.Proofs.Dependencies
import ShaderVariants.Proofs.Finality
import ShaderVariants.Proofs.Following
import ShaderVariants.Proofs.Gates
import ShaderVariants.Proofs.Grammar
import ShaderVariants.Proofs.IndexHistory
import ShaderVariants.Proofs.Inheritance
import ShaderVariants.Proofs.Insertion
import ShaderVariants.Proofs.Layout
import ShaderVariants.Proofs.LegalWorlds
import ShaderVariants.Proofs.Lines
import ShaderVariants.Proofs.Lookahead
import ShaderVariants.Proofs.NormalForm
import ShaderVariants.Proofs.Offers
import ShaderVariants.Proofs.Outputs
import ShaderVariants.Proofs.PipelineOrder
import ShaderVariants.Proofs.Placement
import ShaderVariants.Proofs.Places
import ShaderVariants.Proofs.Programs
import ShaderVariants.Proofs.Progress
import ShaderVariants.Proofs.Recovery
import ShaderVariants.Proofs.References
import ShaderVariants.Proofs.Refusals
import ShaderVariants.Proofs.Repetition
import ShaderVariants.Proofs.Reports
import ShaderVariants.Proofs.Retry
import ShaderVariants.Proofs.RoundTrip
import ShaderVariants.Proofs.Rounds
import ShaderVariants.Proofs.Scanning
import ShaderVariants.Proofs.Scoping
import ShaderVariants.Proofs.SelectedSlots
import ShaderVariants.Proofs.Skipping
import ShaderVariants.Proofs.Spelling
import ShaderVariants.Proofs.Stages
import ShaderVariants.Proofs.Stopping
import ShaderVariants.Proofs.Survivors
import ShaderVariants.Proofs.Upstream
import ShaderVariants.Proofs.VariantMeaning
import ShaderVariants.Proofs.WorldCycles
import ShaderVariants.Schedule.TokenBuffer
