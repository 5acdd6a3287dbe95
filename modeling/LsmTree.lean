import LsmTree.Main
import LsmTree.Proofs.Durability
import LsmTree.Proofs.Generations
import LsmTree.Proofs.Lifetimes
import LsmTree.Proofs.RepeatedRuns
import LsmTree.Proofs.SegmentRoundTrip
import LsmTree.Session.Step
import LsmTree.Proofs.Effects
import LsmTree.Proofs.FailedMaintenance
import LsmTree.Proofs.UnhinderedMaintenance
import LsmTree.Proofs.CanonicalCompaction
import LsmTree.Proofs.OpeningEffects
import LsmTree.Proofs.ManifestDamage
import LsmTree.Proofs.SegmentDamage
import LsmTree.Proofs.LastCommit
import LsmTree.Proofs.GuardedReads
import LsmTree.Proofs.MergeAccounts
import LsmTree.Proofs.AllOrNothing
import LsmTree.Proofs.TableAccounting
import LsmTree.Proofs.WriteOrder
import LsmTree.Proofs.CursorRuns
import LsmTree.Proofs.Touching
import LsmTree.Proofs.NewSegments
import LsmTree.Proofs.FilePaths
import LsmTree.Proofs.ManagerSessions
import LsmTree.Proofs.OpeningPaths
import LsmTree.Proofs.UnhinderedSessions
