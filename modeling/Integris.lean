import Integris.ApplyAtContainment
import Integris.DataStream
import Integris.Deletion
import Integris.FabricIsolation
import Integris.FrameStream
import Integris.HandshakeReplay
import Integris.JournalCorruption
import Integris.JournalPayload
import Integris.JournalReadFaults
import Integris.JournalRoleRefinement
import Integris.JournalSessions
import Integris.JournalVerify
import Integris.KeyDerivation
import Integris.PlanDeterminism
import Integris.RelayChain
import Integris.RecoveryIdempotence
import Integris.Resolve
import Integris.ResumeDelivery
import Integris.ScanAgreement
import Integris.SessionHandoff
import Integris.SocketReplay
import Integris.SyncModes
import Integris.TrafficNonce
