import DPS2.Gf2.Bits
import DPS2.Gf2.Detect
import DPS2.P2P.Crc
import DPS2.P2P.CrcErrors
import DPS2.Codec.LittleEndian
import DPS2.P2P.Frames
import DPS2.P2P.FrameErrors
import DPS2.P2P.Peer
import DPS2.P2P.Inbox
import DPS2.Blockchain.Blockchain
import DPS2.Lts.Run
import DPS2.Application.Messages
import DPS2.ProofOfWork.HashCash
import DPS2.Application.Machine
import DPS2.Application.Effects
import DPS2.Application.Votes
import DPS2.Application.Proposals
import DPS2.Application.Commits
import DPS2.Application.Sync
import DPS2.Network.Network
import DPS2.Quorum.Majority
import DPS2.Network.Batches
import DPS2.Network.Agreement
import DPS2.Application.TopHash
import DPS2.Ring.Window
import DPS2.Tracker.Queue
import DPS2.Tracker.Mailbox
import DPS2.Tracker.Verdicts
import DPS2.Tracker.Flooding
import DPS2.Keyed.Table
import DPS2.Tracker.Table
import DPS2.Tracker.Handlers
import DPS2.Tracker.Replies
import DPS2.Tracker.Netinfo
import DPS2.Tracker.Footprint
import DPS2.Application.Poll
import DPS2.Application.Orders
import DPS2.Application.Majority
import DPS2.P2P.CrcDivision
import DPS2.Quorum.FirstAnswer
import DPS2.Application.VoteTurns
import DPS2.Application.VoteCount
import DPS2.Application.BlockTurns
import DPS2.Application.BlockVotes
import DPS2.Application.BlockCall
import DPS2.Application.BlockLosses
import DPS2.Application.StaleAnswers
import DPS2.Application.VoteLosses
import DPS2.Application.Reads
import DPS2.Istream.Extract
import DPS2.Application.TransactionReader
import DPS2.Application.TransactionTrace
import DPS2.Lts.Search
import DPS2.ProofOfWork.Search
import DPS2.Blockchain.Calls
import DPS2.ProofOfWork.LeadingZeroes
import DPS2.Application.BlockCodec
import DPS2.BlockHash.Absorb
import DPS2.Sha256.Standard
import DPS2.Sha256.Transform
import DPS2.Sha256.Context
import DPS2.Sha256.HexDigest
import DPS2.ProofOfWork.HexDigits
import DPS2.Network.Supply
import DPS2.P2P.Transmission
import DPS2.Application.Transmission
import DPS2.Tracker.Datagrams
import DPS2.Tracker.Registration
import DPS2.Application.Waiting
import DPS2.Network.Partition
import DPS2.Network.Mined
import DPS2.Tracker.Linearization
