import VoxelGrammar.Grammar.Statement
import VoxelGrammar.Main
import VoxelGrammar.Proofs.Soundness
import VoxelGrammar.Proofs.Rollback
import VoxelGrammar.Proofs.Breakdown
import VoxelGrammar.Proofs.Sanity
import VoxelGrammar.Proofs.Progress
import VoxelGrammar.Proofs.Canvas
import VoxelGrammar.Proofs.Acyclicity
import VoxelGrammar.Proofs.Denotation
import VoxelGrammar.Proofs.Refinement
import VoxelGrammar.Proofs.Areas
import VoxelGrammar.Proofs.Exhaustion
import VoxelGrammar.Proofs.Accounts
import VoxelGrammar.Proofs.RoundTrip
import VoxelGrammar.Proofs.Fills
import VoxelGrammar.Proofs.Foreign
import VoxelGrammar.Proofs.Bounds
import VoxelGrammar.Proofs.Limits
import VoxelGrammar.Proofs.Jobs
import VoxelGrammar.Proofs.Scoping
import VoxelGrammar.Proofs.TypeSafety
import VoxelGrammar.Proofs.Priorities
import VoxelGrammar.Proofs.Failures
import VoxelGrammar.Proofs.Additions
import VoxelGrammar.Proofs.Enumeration
import VoxelGrammar.Proofs.Rotations
import VoxelGrammar.Proofs.Placing
import VoxelGrammar.Proofs.Poses
import VoxelGrammar.Proofs.Anchors
import VoxelGrammar.Proofs.Refusals
import VoxelGrammar.Proofs.Listings
import VoxelGrammar.Proofs.Mixing
import VoxelGrammar.Proofs.Truncation
import VoxelGrammar.Proofs.Openings
import VoxelGrammar.Proofs.Settlements
