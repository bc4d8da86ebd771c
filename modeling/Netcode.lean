import Netcode.Transport.Recovery
import Netcode.Transport.Lockstep
import Netcode.Transport.AckLink
import Netcode.Transport.HeaderLink
import Netcode.Transport.Governor
import Netcode.Transport.FragmentLink
import Netcode.Transport.PeerRefinement
import Netcode.Transport.Isolation
import Netcode.Sync.Convergence
import Netcode.Sync.Monotone
import Netcode.Sync.InOrder
import Netcode.Sim.Acceptance
import Netcode.Transport.Interleaving
import Netcode.Transport.Untrusted
import Netcode.Transport.Grammar
import Netcode.Sim.HistoryWindow
import Netcode.Sim.FixedTimestep
import Netcode.Transport.SimSocket
import Netcode.Transport.Eviction
import Netcode.Sim.Box
import Netcode.Transport.RttSamples
import Netcode.Library.Simulation
import Netcode.Transport.PeerLink
import Netcode.Bots.Bot
import Netcode.Server.Loop
import Netcode.Server.Players
import Netcode.Server.Exchange
import Netcode.System.Links
import Netcode.System.Mirror
import Netcode.System.Views
import Netcode.Server.Service
import Netcode.Sync.Resync
import Netcode.System.Events
import Netcode.Server.Conduct
import Netcode.System.Conduct
import Netcode.System.Delivery
import Netcode.Server.Clock
import Netcode.Server.Pacing
import Netcode.Server.Report
import Netcode.Server.Totals
