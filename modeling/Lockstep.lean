import Lockstep.Floating
import Lockstep.Hook.Rule
import Lockstep.Main
import Lockstep.Proofs.Blame
import Lockstep.Proofs.Counterexample
import Lockstep.Proofs.Counters
import Lockstep.Proofs.Detection.Contents
import Lockstep.Proofs.Detection.Legacy
import Lockstep.Proofs.Detection.ReadOnly
import Lockstep.Proofs.Detection.Widening
import Lockstep.Proofs.Loosening
import Lockstep.Proofs.Rearrangement
import Lockstep.Proofs.Reference.Conservation
import Lockstep.Proofs.Reference.Counts
import Lockstep.Proofs.Replay.Mirror
import Lockstep.Proofs.Serving.Cursor
import Lockstep.Proofs.Serving.Peeking
import Lockstep.Proofs.Texts
import Lockstep.Proofs.Replay.Prefix
import Lockstep.Proofs.Replay.WellFormed
import Lockstep.Proofs.Serving.LegacyRemoval
import Lockstep.Proofs.Replay.Production
import Lockstep.Proofs.Shape
import Lockstep.Proofs.Space.Fingerprint
import Lockstep.Proofs.Space.Iterations
