import ForestWalk.Proofs.Announcing
import ForestWalk.Proofs.Bookkeeping
import ForestWalk.Proofs.Borrowing
import ForestWalk.Proofs.CallForks
import ForestWalk.Proofs.CauseChains
import ForestWalk.Proofs.Conservation
import ForestWalk.Proofs.DepthLimit
import ForestWalk.Proofs.Detours
import ForestWalk.Proofs.Images
import ForestWalk.Proofs.Interchange
import ForestWalk.Proofs.LeaveFold
import ForestWalk.Proofs.Naming
import ForestWalk.Proofs.Neighbours
import ForestWalk.Proofs.Pruning
import ForestWalk.Proofs.ReadOnly
import ForestWalk.Proofs.Relabelling
import ForestWalk.Proofs.ShapeChecks
import ForestWalk.Proofs.Sparing
import ForestWalk.Proofs.Tagging
import ForestWalk.Proofs.Termination
import ForestWalk.Session.Basic
import ForestWalk.Tree.Describe
import ForestWalk.Tree.Outline
