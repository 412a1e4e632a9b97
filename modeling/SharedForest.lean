import SharedForest.Session.Command
import SharedForest.Session.Summary
import SharedForest.Bench.Cells
import SharedForest.Bench.Subtrees
import SharedForest.Augment.Standard
import SharedForest.Key.Caseless
import SharedForest.Key.Cyclic
import SharedForest.Proofs.Counts
import SharedForest.Proofs.Persistence
import SharedForest.Proofs.Simulation
import SharedForest.Proofs.Leaks
import SharedForest.Proofs.Invisibility
import SharedForest.Proofs.Fold
import SharedForest.Proofs.Safety
import SharedForest.Proofs.Client
import SharedForest.Proofs.Joining
import SharedForest.Proofs.Splitting
import SharedForest.Proofs.Merging
import SharedForest.Proofs.Ranges
import SharedForest.Proofs.Seeking
import SharedForest.Proofs.Accounts
import SharedForest.Proofs.Tags
import SharedForest.Proofs.Sizes
import SharedForest.Proofs.Entries
import SharedForest.Proofs.Searching
import SharedForest.Proofs.Depth
import SharedForest.Proofs.Limits
import SharedForest.Proofs.Addresses
import SharedForest.Proofs.Rounds
