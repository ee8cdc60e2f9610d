import TigeraWebservice.Ledger
import TigeraWebservice.Runs
import TigeraWebservice.CountedReference
import TigeraWebservice.ParserMachine
import TigeraWebservice.HttpReading
import TigeraWebservice.JokeCreate
import TigeraWebservice.SessionWorld
import TigeraWebservice.PlainMessages
import TigeraWebservice.SocketChannel
import TigeraWebservice.SessionProgram
import TigeraWebservice.SessionSystem
import TigeraWebservice.MessageReading
import TigeraWebservice.HttpSegmentation
import TigeraWebservice.HeldConnections
import TigeraWebservice.HeldReferences
import TigeraWebservice.SessionMemory
import TigeraWebservice.SessionInvariant
import TigeraWebservice.UpstreamCallbacks
import TigeraWebservice.ClientResponse
import TigeraWebservice.ReplyCallbacks
import TigeraWebservice.ClientRequest
import TigeraWebservice.ChannelCallbacks
import TigeraWebservice.SessionRuns
import TigeraWebservice.SessionHistory
import TigeraWebservice.CompletedRequests
import TigeraWebservice.OneResponse
import TigeraWebservice.SessionSafety
import TigeraWebservice.EofEvents
import TigeraWebservice.LateAnswers
import TigeraWebservice.UpstreamSlots
import TigeraWebservice.Substitution
import TigeraWebservice.JokeSubstitution
import TigeraWebservice.LinkChain
import TigeraWebservice.PersonalisedJoke
import TigeraWebservice.DoublyLinkedList
import TigeraWebservice.SessionRegistry
import TigeraWebservice.ServiceSetup
import TigeraWebservice.WorkerThreads
import TigeraWebservice.ReadLimit
import TigeraWebservice.AddressLists
import TigeraWebservice.SessionTurns
import TigeraWebservice.UpstreamAccounting
import TigeraWebservice.Holdings
import TigeraWebservice.ReplyOrder
import TigeraWebservice.ReplyStrings
import TigeraWebservice.StringRelease
import TigeraWebservice.SocketRelease
import TigeraWebservice.ReadTermination
import TigeraWebservice.ReferenceCounts
import TigeraWebservice.CellChain
import TigeraWebservice.SafeIteration
import TigeraWebservice.SinglyLinkedList
import TigeraWebservice.HashTable
import TigeraWebservice.InsertOnceMap
import TigeraWebservice.InsertOnceTable
import TigeraWebservice.CollisionCounter
import TigeraWebservice.Destruction
import TigeraWebservice.HeaderBlock
import TigeraWebservice.HttpReply
import TigeraWebservice.LockedObject
import TigeraWebservice.SharedTable
import TigeraWebservice.ClientBytes
import TigeraWebservice.ProcessAccounts
import TigeraWebservice.UpstreamBytes
import TigeraWebservice.CommandLine
import TigeraWebservice.MainProgram
import TigeraWebservice.SharedRegistry
