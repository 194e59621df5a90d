import ZkRess.Primitives

/-!
# The engine downloader

`EngineDownloader` of `download/mod.rs`: three lists of in-flight requests and a
queue of outcomes.  A request in flight is known by its block hash.  Whether the
future behind it is ready, and with what, is decided by the network and by the
future's own checks, so a poll takes the answers as an argument: `some` for a
future that is ready when it is polled, `none` for one that is pending.

A poll goes through each list from its end and takes the requests out with
`swap_remove`, putting back those that are pending.
-/

namespace ZkRess

variable {P : Type}

/-- Download data. -/
inductive DownloadData (P : Type)
  /-- Downloaded full block. -/
  | fullBlock (block : Block)
  /-- Downloaded execution proof. -/
  | proof (blockHash : B256) (proof : P)
  /-- Downloaded full block with ancestors. -/
  | finalizedBlock (block : Block) (ancestors : List SealedHeader)

/-- What the futures in flight answer when they are polled. -/
structure DownloadAnswers (P : Type) where
  fullBlock : B256 → Option Block
  proof : B256 → Option P
  finalizedBlock : B256 → Option (Block × List SealedHeader)

/-- Struct for downloading chain data from the network. -/
structure EngineDownloader (P : Type) where
  inflightFullBlockRequests : List B256
  inflightProofRequests : List B256
  inflightFinalizedBlockRequests : List B256
  outcomes : List (DownloadData P)

namespace EngineDownloader

/-- Create new engine downloader. -/
def new : EngineDownloader P := ⟨[], [], [], []⟩

/-- Request a hash unless it is in flight. -/
def request (inflight : List B256) (blockHash : B256) : List B256 :=
  if blockHash ∈ inflight then inflight else inflight ++ [blockHash]

/-- Download full block by block hash. -/
def downloadFullBlock (downloader : EngineDownloader P) (blockHash : B256) : EngineDownloader P :=
  { downloader with
    inflightFullBlockRequests := request downloader.inflightFullBlockRequests blockHash }

/-- Download proof by block hash. -/
def downloadProof (downloader : EngineDownloader P) (blockHash : B256) : EngineDownloader P :=
  { downloader with inflightProofRequests := request downloader.inflightProofRequests blockHash }

/-- Download finalized block with 256 ancestors. -/
def downloadFinalizedWithAncestors (downloader : EngineDownloader P) (blockHash : B256) :
    EngineDownloader P :=
  { downloader with
    inflightFinalizedBlockRequests := request downloader.inflightFinalizedBlockRequests blockHash }

/-- `Vec::swap_remove`: take an element out and put the last one in its place. -/
def swapRemove {α : Type} (l : List α) (idx : ℕ) : Option (α × List α) :=
  match l[idx]?, l.getLast? with
  | some a, some last => some (a, (l.set idx last).dropLast)
  | _, _ => none

/-- Advance the requests at the indexes below `n`, the highest first. -/
def advance (answer : B256 → Option (DownloadData P)) :
    ℕ → List B256 → List (DownloadData P) → List B256 × List (DownloadData P)
  | 0, inflight, outcomes => (inflight, outcomes)
  | n + 1, inflight, outcomes =>
      match swapRemove inflight n with
      | none => advance answer n inflight outcomes
      | some (request, rest) =>
          match answer request with
          | some data => advance answer n rest (outcomes ++ [data])
          | none => advance answer n (rest ++ [request]) outcomes

/-- Poll downloader. -/
def poll (downloader : EngineDownloader P) (answers : DownloadAnswers P) :
    Option (DownloadData P) × EngineDownloader P :=
  match downloader.outcomes with
  | outcome :: outcomes => (some outcome, { downloader with outcomes })
  | [] =>
      let (finalized, outcomes) :=
        advance (fun hash => (answers.finalizedBlock hash).map fun answer =>
            .finalizedBlock answer.1 answer.2)
          downloader.inflightFinalizedBlockRequests.length
          downloader.inflightFinalizedBlockRequests []
      let (fullBlocks, outcomes) :=
        advance (fun hash => (answers.fullBlock hash).map .fullBlock)
          downloader.inflightFullBlockRequests.length downloader.inflightFullBlockRequests outcomes
      let (proofs, outcomes) :=
        advance (fun hash => (answers.proof hash).map (.proof hash))
          downloader.inflightProofRequests.length downloader.inflightProofRequests outcomes
      (outcomes.head?,
        { inflightFullBlockRequests := fullBlocks
          inflightProofRequests := proofs
          inflightFinalizedBlockRequests := finalized
          outcomes := outcomes.tail })

end EngineDownloader

end ZkRess
