import Holdem.Engine.Positions
import Holdem.Embedding.Secrecy
import Holdem.BayerGroth.Extraction
import Holdem.Deal.Robust
import Holdem.Deal.Agreement
import Holdem.Room.Admitted
import Holdem.Room.Delivery
import Holdem.Session.Dispute
import Holdem.Session.Confluence
import Holdem.Engine.Cashout
import Holdem.Engine.Forfeiture
import Holdem.Deal.Mirror
import Holdem.Replica.Recovery
import Holdem.Evaluator.PokerRank
import Holdem.P2p.PeerLoss
import Holdem.BayerGroth.MultiExpExtraction
import Holdem.BayerGroth.SvpExtraction
import Holdem.BayerGroth.ZeroExtraction
import Holdem.Deal.AuditExact
import Holdem.Replica.Timeout
import Holdem.Replica.Honest
import Holdem.P2p.Dispatch
import Holdem.Room.Crowding
import Holdem.Introduction
import Holdem.Engine.Brain
import Holdem.Deal.Context
