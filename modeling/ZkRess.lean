import ZkRess.Foundation.FiniteMap
import ZkRess.Foundation.KeyedMap
import ZkRess.Foundation.SetMap
import ZkRess.Foundation.Worklist
import ZkRess.Foundation.ParentGraph
import ZkRess.Foundation.Lru
import ZkRess.Foundation.MapEntries
import ZkRess.Foundation.SparseMap
import ZkRess.Foundation.Query
import ZkRess.Primitives
import ZkRess.Provider.ChainState
import ZkRess.Provider.ChainOperations
import ZkRess.Engine.BlockBuffer
import ZkRess.Engine.BufferTraversal
import ZkRess.Engine.BufferOperations
import ZkRess.Engine.Externals
import ZkRess.Engine.Tree
import ZkRess.Engine.Downloader
import ZkRess.Engine.BlockRange
import ZkRess.Engine.DownloadFutures
import ZkRess.Engine.ConsensusEngine
import ZkRess.Engine.TreeCases
import ZkRess.Engine.EngineCases
import ZkRess.Engine.Feed
import ZkRess.Engine.TreeSteps
import ZkRess.Engine.CacheEntries
import ZkRess.Engine.BufferCalls
import ZkRess.Engine.Downloads
import ZkRess.Engine.Connection
import ZkRess.Engine.ChainUpdate
import ZkRess.Engine.Fates
import ZkRess.Engine.ChainDifference
import ZkRess.Engine.Canonicalization
import ZkRess.Engine.RequestLedger
import ZkRess.Engine.SmallWorld
import ZkRess.Evm.State
import ZkRess.Evm.SparseStateTrie
import ZkRess.Evm.Database
import ZkRess.Verifier.StateRoot
import ZkRess.Verifier.ExecutionWitness
import ZkRess.Verifier.SmallTries
import ZkRess.Verifier.FullNode
import ZkRess.Properties.CanonicalChain
import ZkRess.Properties.ForkchoiceAnswers
import ZkRess.Properties.VerifiedTree
import ZkRess.Properties.KnownInvalid
import ZkRess.Properties.PayloadResponses
import ZkRess.Properties.Verdicts
import ZkRess.Properties.Stranded
import ZkRess.Properties.BufferIndexes
import ZkRess.Properties.DescendantRemoval
import ZkRess.Properties.OldBlockEviction
import ZkRess.Properties.BlockHashes
import ZkRess.Properties.ChainIndexes
import ZkRess.Properties.ChainDifferences
import ZkRess.Properties.BlockRanges
import ZkRess.Properties.FullBlockDownloads
import ZkRess.Properties.FinalizedDownloads
import ZkRess.Properties.HeaderDownloads
import ZkRess.Properties.LowestAncestors
import ZkRess.Properties.ValidAncestorWalks
import ZkRess.Properties.MissingAncestors
import ZkRess.Properties.BufferedDescendants
import ZkRess.Properties.LatestValidHashes
import ZkRess.Properties.WitnessReads
import ZkRess.Properties.StateRoots
import ZkRess.Properties.StatelessVerification
import ZkRess.Properties.ArrivalOrder
import ZkRess.Properties.ImportOrder
import ZkRess.Properties.PendingProofs
import ZkRess.Properties.PendingData
import ZkRess.Properties.MalformedPayloads
import ZkRess.Properties.SyncTargets
import ZkRess.Properties.DownloadRequests
import ZkRess.Properties.ForkDetection
import ZkRess.Properties.RequestRouting
import ZkRess.Properties.Blame
import ZkRess.Properties.AnswerOrder
import ZkRess.Properties.EventStream
import ZkRess.Network.ProofProtocol
import ZkRess.Engine.FutureDownloader
import ZkRess.Engine.PendingRequests
import ZkRess.Properties.FutureDownloads
import ZkRess.Properties.SettledDownloads
import ZkRess.Properties.AncestorLookups
import ZkRess.Properties.ServedProofs
import ZkRess.Network.ProofExchange
import ZkRess.Properties.PortableProofs
import ZkRess.Properties.ExchangedProofs
import ZkRess.Engine.WaitingChain
import ZkRess.Engine.NextBlock
import ZkRess.Properties.BackwardSync
import ZkRess.Properties.FollowedChain
import ZkRess.Properties.FullNodeVerdicts
import ZkRess.Properties.RangeDownloads
import ZkRess.Properties.Finality
