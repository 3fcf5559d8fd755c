import Iuna.Library.Outcome
import Iuna.Library.Resource
import Iuna.Domain.Chain
import Iuna.Library.Pruned
import Iuna.Library.Preference
import Iuna.Properties.Supply
import Iuna.Properties.LineageIndex
import Iuna.Properties.NoReplay
import Iuna.Properties.Authorization
import Iuna.Properties.TicketPool
import Iuna.Properties.PlainAgreement
import Iuna.Properties.Replay
import Iuna.Properties.MineProof
import Iuna.Properties.MineLimit
import Iuna.Properties.Finality
import Iuna.Properties.ForkChoice
import Iuna.Properties.Redating
import Iuna.Properties.Atomicity
import Iuna.Properties.Recipients
import Iuna.Properties.SigningBytes
import Iuna.Properties.CodecV2
import Iuna.Properties.Timing
import Iuna.Properties.Broadcast
import Iuna.Properties.Emission
import Iuna.Properties.PoolUpdates
import Iuna.Properties.BundleStore
import Iuna.Properties.ForkAgreement
import Iuna.Properties.Caches
import Iuna.Properties.VdfProofs
import Iuna.Properties.PendingAfterBlock
import Iuna.Properties.BurnLeaders
import Iuna.Properties.RewardSplit
import Iuna.Properties.Rounds
import Iuna.Properties.TicketEffects
import Iuna.Properties.Provers
import Iuna.Properties.AddressCodec
import Iuna.Properties.Identities
import Iuna.Properties.Committee
import Iuna.Properties.BurnWindow
import Iuna.Library.QuadraticForms
import Iuna.Domain.FormReduction
import Iuna.Properties.FormReduction
import Iuna.Properties.SharedLimits
import Iuna.App.Lifecycle
import Iuna.Properties.OutboxAccounting
import Iuna.App.PeerBook
import Iuna.Properties.PeerCaps
import Iuna.Adapters.Join
import Iuna.Properties.JoinPaging
import Iuna.Properties.CompactCanonical
import Iuna.Properties.WalletAgreement
import Iuna.Properties.LimbOperations
import Iuna.Properties.BatchedGcds
import Iuna.Library.Fueled
import Iuna.Library.FormComposition
import Iuna.Library.FormClasses
import Iuna.Domain.FormComposition
import Iuna.Domain.FormProvers
import Iuna.Properties.PartialGcd
import Iuna.Properties.Nucomp
import Iuna.Properties.Composition
import Iuna.Properties.LimbReduction
import Iuna.Properties.FormPowers
import Iuna.Properties.FormProvers
import Iuna.Library.SlidingWindow
import Iuna.Adapters.InboundLimiter
import Iuna.Properties.InboundSessions
import Iuna.Properties.DrawFairness
import Iuna.App.Locator
import Iuna.Properties.Locator
import Iuna.Adapters.LineCodec
import Iuna.Properties.LineFraming
import Iuna.Domain.Selection
import Iuna.Properties.BlockSelection
