import ProjectsInC.Machine
import ProjectsInC.Lib.Paging
import ProjectsInC.Lib.Partition
import ProjectsInC.BankAtm.Command
import ProjectsInC.BankAtm.Bank
import ProjectsInC.BankAtm.Ledger
import ProjectsInC.BankAtm.Overdraft
import ProjectsInC.BankAtm.Atm
import ProjectsInC.BankAtm.TraceFile
import ProjectsInC.BankAtm.Banksim
import ProjectsInC.BankAtm.Protocol
import ProjectsInC.BankAtm.Shutdown
import ProjectsInC.BankAtm.Schedule
import ProjectsInC.BankAtm.Twriter
import ProjectsInC.BankAtm.Clean
import ProjectsInC.BankAtm.Replies
import ProjectsInC.Lib.LinkedList
import ProjectsInC.Lib.Recency
import ProjectsInC.CacheSim.Cache
import ProjectsInC.CacheSim.Lru
import ProjectsInC.CacheSim.ReuseDistance
import ProjectsInC.CacheSim.Geometry
import ProjectsInC.CacheSim.Cpu
import ProjectsInC.CacheSim.AccessedBits
import ProjectsInC.CacheSim.Competitive
import ProjectsInC.CacheSim.Counters
import ProjectsInC.JavaSet.ListBoundedIntSet
import ProjectsInC.JavaSet.Refinement
import ProjectsInC.Stdlib
import ProjectsInC.Stdio
import ProjectsInC.Decimal
import ProjectsInC.CacheSim.ReadTrace
import ProjectsInC.WordFreq.Words
import ProjectsInC.WordFreq.WordSet
import ProjectsInC.WordFreq.Agreement
import ProjectsInC.WordFreq.WordMap
import ProjectsInC.Huffman.Tree
import ProjectsInC.Huffman.PQueue
import ProjectsInC.Huffman.Huffman
import ProjectsInC.Huffman.Construction
import ProjectsInC.Huffman.Table
import ProjectsInC.Huffman.Frequencies
import ProjectsInC.Huffman.TwoPasses
import ProjectsInC.Huffman.PrefixCode
import ProjectsInC.Lib.Kraft
import ProjectsInC.Huffman.Optimality
import ProjectsInC.Huffman.BitsIo
import ProjectsInC.Huffman.BitStream
import ProjectsInC.Huffman.Serialize
import ProjectsInC.Huffman.Deserialize
import ProjectsInC.Huffman.TreeText
import ProjectsInC.Huffman.ParserSafety
import ProjectsInC.Lib.Forest
import ProjectsInC.Huffman.Sharing
import ProjectsInC.Huffman.Encoder
import ProjectsInC.Huffman.WriteErrors
import ProjectsInC.Huffman.Decoder
import ProjectsInC.Huffman.DecoderOwnership
import ProjectsInC.Huffman.RoundTrip
import ProjectsInC.Huffman.Printing
import ProjectsInC.Huffman.Truncation
import ProjectsInC.Huffman.CutArchive
import ProjectsInC.Huffman.ExactRoundTrip
import ProjectsInC.Huffman.Termination
import ProjectsInC.Huffman.AnyArchive
import ProjectsInC.WordFreq.Overrun
import ProjectsInC.WordFreq.Ownership
import ProjectsInC.Lib.Occurrences
import ProjectsInC.Lib.Pieces
import ProjectsInC.CountStrings.CountStrings
import ProjectsInC.CountStrings.Lines
import ProjectsInC.Lib.ExactDouble
import ProjectsInC.HandDigitRecognition.BayesRule
import ProjectsInC.HandDigitRecognition.Computations
import ProjectsInC.HandDigitRecognition.Normalised
import ProjectsInC.BankAtm.TraceRoundTrip
import ProjectsInC.BankAtm.TraceHistory
import ProjectsInC.BankAtm.RandomAtMost
import ProjectsInC.Huffman.Phases
import ProjectsInC.Huffman.QueueRuns
import ProjectsInC.Huffman.QueueBounds
import ProjectsInC.CacheSim.QueueInvariant
import ProjectsInC.Lib.Runs
import ProjectsInC.BankAtm.Completion
import ProjectsInC.ClientServerSimulation.Rio
import ProjectsInC.ClientServerSimulation.RioBuffered
import ProjectsInC.Lib.Allocation
import ProjectsInC.CacheSim.Deallocation
import ProjectsInC.Huffman.QueueProgram
import ProjectsInC.Huffman.TableOwnership
import ProjectsInC.Huffman.Ownership
import ProjectsInC.Huffman.ArchiveSize
import ProjectsInC.BankAtm.Errors
