import ZkRess.Engine.RequestLedger
import ZkRess.Network.ProofProtocol

/-!
# The downloader with its futures

`EngineDownloader` knows a request in flight by its block hash, and what its future answers
is an input.  Here the futures are in their places: three lists of them, each polled with
the responses that the network has ready for its requests, and from then on either settled
or in a state of its own.

A poll of a full block goes through the rounds that are answered and ends with one in which
nothing is.

Forgetting the states of the futures gives the downloader back (`FutureDownloader.requests`).
That a sweep over the futures is a sweep over their hashes is said for any type of futures,
given the hash and the poll of each (`advanceFutures_spec`).
-/

namespace ZkRess

variable {P : Type}

/-! ## Polling one future -/

/-- How a poll of a future ends. -/
inductive FuturePoll (F α : Type)
  | pending (future : F)
  | ready (data : α)

namespace FuturePoll

variable {F α β : Type}

/-- What the future is settled with. -/
def data : FuturePoll F α → Option α
  | pending _ => none
  | ready data => some data

/-- The future that is put back. -/
def future : FuturePoll F α → Option F
  | pending future => some future
  | ready _ => none

/-- `Poll::map`. -/
def map (f : α → β) : FuturePoll F α → FuturePoll F β
  | pending future => .pending future
  | ready data => .ready (f data)

@[simp] theorem data_map (f : α → β) (poll : FuturePoll F α) :
    (poll.map f).data = poll.data.map f := by
  cases poll <;> rfl

@[simp] theorem future_map (f : α → β) (poll : FuturePoll F α) :
    (poll.map f).future = poll.future := by
  cases poll <;> rfl

theorem future_eq_some {poll : FuturePoll F α} {next : F} :
    poll.future = some next ↔ poll = .pending next := by
  cases poll with
  | pending future => exact ⟨fun h => congrArg pending (Option.some.inj h), by rintro ⟨⟩; rfl⟩
  | ready data => exact iff_of_false nofun nofun

theorem data_eq_some {poll : FuturePoll F α} {data : α} :
    poll.data = some data ↔ poll = .ready data := by
  cases poll with
  | pending future => exact iff_of_false nofun nofun
  | ready data => exact ⟨fun h => congrArg ready (Option.some.inj h), by rintro ⟨⟩; rfl⟩

end FuturePoll

/-- What the network has ready for the requests of each future when it is polled. -/
structure NetworkAnswers (D : DownloadExternals) where
  fullBlock : B256 → List (PartAnswers D)
  proof : B256 → List ProofResponse
  /-- First for the block, then for the headers before it. -/
  finalizedBlock : B256 → List (PartAnswers D) × List D.HeadersResponse

/-- The rounds that are answered, and then one that is not. -/
def FetchFullBlockFuture.pollUnpin (D : DownloadExternals) (answers : List (PartAnswers D))
    (future : FetchFullBlockFuture) : FuturePoll FetchFullBlockFuture Block :=
  match future.poll D (answers ++ [⟨none, none⟩]) with
  | .again future => .pending future
  | .pending future => .pending future
  | .ready block => .ready block

def FetchProofFuture.pollUnpin (codec : ProofCodec P) (responses : List ProofResponse)
    (future : FetchProofFuture) : FuturePoll FetchProofFuture P :=
  match future.poll codec responses with
  | .pending future => .pending future
  | .ready proof => .ready proof

def FetchFullBlockWithAncestorsFuture.pollUnpin (D : DownloadExternals)
    (answers : List (PartAnswers D) × List D.HeadersResponse)
    (future : FetchFullBlockWithAncestorsFuture) :
    FuturePoll FetchFullBlockWithAncestorsFuture (Block × List SealedHeader) :=
  match future.poll D (answers.1 ++ [⟨none, none⟩]) answers.2 with
  | .again future => .pending future
  | .pending future => .pending future
  | .ready block ancestors => .ready (block, ancestors)

/-! ## The downloader -/

/-- Struct for downloading chain data from the network. -/
structure FutureDownloader (P : Type) where
  retryDelay : ℕ
  inflightFullBlockRequests : List FetchFullBlockFuture
  inflightProofRequests : List FetchProofFuture
  inflightFinalizedBlockRequests : List FetchFullBlockWithAncestorsFuture
  outcomes : List (DownloadData P)

/-- Advance the futures at the indexes below `n`, the highest first. -/
def advanceFutures {F : Type} (pollUnpin : F → FuturePoll F (DownloadData P)) :
    ℕ → List F → List (DownloadData P) → List F × List (DownloadData P)
  | 0, inflight, outcomes => (inflight, outcomes)
  | n + 1, inflight, outcomes =>
      match EngineDownloader.swapRemove inflight n with
      | none => advanceFutures pollUnpin n inflight outcomes
      | some (request, rest) =>
          match pollUnpin request with
          | .ready data => advanceFutures pollUnpin n rest (outcomes ++ [data])
          | .pending request => advanceFutures pollUnpin n (rest ++ [request]) outcomes

namespace FutureDownloader

variable {D : DownloadExternals}

/-- Create new engine downloader. -/
def new : FutureDownloader P := ⟨50, [], [], [], []⟩

/-- Download full block by block hash. -/
def downloadFullBlock (downloader : FutureDownloader P) (blockHash : B256) :
    FutureDownloader P :=
  if downloader.inflightFullBlockRequests.any (fun req => req.blockHash == blockHash) then
    downloader
  else
    { downloader with
      inflightFullBlockRequests := downloader.inflightFullBlockRequests ++
        [.new downloader.retryDelay blockHash] }

/-- Download proof by block hash. -/
def downloadProof (downloader : FutureDownloader P) (blockHash : B256) : FutureDownloader P :=
  if downloader.inflightProofRequests.any (fun req => req.blockHash == blockHash) then downloader
  else
    { downloader with
      inflightProofRequests := downloader.inflightProofRequests ++
        [.new downloader.retryDelay blockHash] }

/-- Download finalized block with 256 ancestors. -/
def downloadFinalizedWithAncestors (downloader : FutureDownloader P) (blockHash : B256) :
    FutureDownloader P :=
  if downloader.inflightFinalizedBlockRequests.any (fun req => req.blockHash == blockHash) then
    downloader
  else
    { downloader with
      inflightFinalizedBlockRequests := downloader.inflightFinalizedBlockRequests ++
        [.new downloader.retryDelay blockHash 256] }

/-- Poll the request for a finalized block. -/
def pollFinalizedBlock (answers : NetworkAnswers D) (request : FetchFullBlockWithAncestorsFuture) :
    FuturePoll FetchFullBlockWithAncestorsFuture (DownloadData P) :=
  (request.pollUnpin D (answers.finalizedBlock request.blockHash)).map fun answer =>
    .finalizedBlock answer.1 answer.2

/-- Poll the request for a full block. -/
def pollFullBlock (answers : NetworkAnswers D) (request : FetchFullBlockFuture) :
    FuturePoll FetchFullBlockFuture (DownloadData P) :=
  (request.pollUnpin D (answers.fullBlock request.blockHash)).map .fullBlock

/-- Poll the request for a proof. -/
def pollProof (codec : ProofCodec P) (answers : NetworkAnswers D) (request : FetchProofFuture) :
    FuturePoll FetchProofFuture (DownloadData P) :=
  (request.pollUnpin codec (answers.proof request.blockHash)).map (.proof request.blockHash)

/-- Poll downloader. -/
def poll (D : DownloadExternals) (codec : ProofCodec P) (downloader : FutureDownloader P)
    (answers : NetworkAnswers D) : Option (DownloadData P) × FutureDownloader P :=
  match downloader.outcomes with
  | outcome :: outcomes => (some outcome, { downloader with outcomes })
  | [] =>
      let (finalized, outcomes) :=
        advanceFutures (pollFinalizedBlock answers) downloader.inflightFinalizedBlockRequests.length
          downloader.inflightFinalizedBlockRequests []
      let (fullBlocks, outcomes) :=
        advanceFutures (pollFullBlock answers) downloader.inflightFullBlockRequests.length
          downloader.inflightFullBlockRequests outcomes
      let (proofs, outcomes) :=
        advanceFutures (pollProof codec answers) downloader.inflightProofRequests.length
          downloader.inflightProofRequests outcomes
      (outcomes.head?,
        { downloader with
          inflightFullBlockRequests := fullBlocks
          inflightProofRequests := proofs
          inflightFinalizedBlockRequests := finalized
          outcomes := outcomes.tail })

/-- The downloader that knows its requests by their hashes. -/
def requests (downloader : FutureDownloader P) : EngineDownloader P where
  inflightFullBlockRequests :=
    downloader.inflightFullBlockRequests.map FetchFullBlockFuture.blockHash
  inflightProofRequests := downloader.inflightProofRequests.map FetchProofFuture.blockHash
  inflightFinalizedBlockRequests :=
    downloader.inflightFinalizedBlockRequests.map FetchFullBlockWithAncestorsFuture.blockHash
  outcomes := downloader.outcomes

end FutureDownloader

/-! ## Sweeping over the futures -/

section Sweeps

variable {F : Type} {pollUnpin : F → FuturePoll F (DownloadData P)}

/-- **A sweep polls each future once**, from the last to the first; the data of those that
are settled is queued in this order, and the others are put back. -/
theorem advanceFutures_spec (pollUnpin : F → FuturePoll F (DownloadData P)) (front back : List F)
    (outcomes : List (DownloadData P)) :
    ∃ kept, kept.Perm (front.filterMap (fun future => (pollUnpin future).future) ++ back) ∧
      advanceFutures pollUnpin front.length (front ++ back) outcomes
        = (kept, outcomes ++ front.reverse.filterMap fun future => (pollUnpin future).data) := by
  induction front using List.reverseRecOn generalizing back outcomes with
  | nil => exact ⟨back, .refl _, by simp [advanceFutures]⟩
  | append_singleton front request ih =>
      rw [List.length_append, List.length_singleton, List.append_assoc, List.singleton_append]
      obtain ⟨back', hperm, hremove⟩ := swapRemove_append front request back
      simp only [advanceFutures, hremove, List.filterMap_append, List.reverse_append,
        List.reverse_singleton, List.singleton_append]
      cases hpoll : pollUnpin request with
      | ready data =>
          have hfuture : (pollUnpin request).future = none := by rw [hpoll]; rfl
          have hdata : (pollUnpin request).data = some data := by rw [hpoll]; rfl
          obtain ⟨kept, hkept, heq⟩ := ih back' (outcomes ++ [data])
          refine ⟨kept, hkept.trans ?_, ?_⟩
          · simp only [List.filterMap_cons, hfuture, List.filterMap_nil, List.append_nil]
            exact hperm.append_left _
          · simp only [heq, List.filterMap_cons, hdata, List.append_assoc, List.singleton_append]
      | pending future =>
          have hfuture : (pollUnpin request).future = some future := by rw [hpoll]; rfl
          have hdata : (pollUnpin request).data = none := by rw [hpoll]; rfl
          obtain ⟨kept, hkept, heq⟩ := ih (back' ++ [future]) outcomes
          refine ⟨kept, hkept.trans ?_, ?_⟩
          · simp only [List.filterMap_cons, hfuture, List.filterMap_nil, List.append_assoc]
            exact (List.perm_append_comm.trans (hperm.append_left [future])).append_left _
          · simp only [List.append_assoc, heq, List.filterMap_cons, hdata]

/-- A sweep over the futures is one over their hashes, if the answers to these are what the
futures are settled with. -/
theorem advance_hashes {hash : F → B256} (answer : B256 → Option (DownloadData P))
    (front back : List F) (outcomes : List (DownloadData P))
    (hkeeps : ∀ future ∈ front, ∀ future', pollUnpin future = .pending future' →
      hash future' = hash future)
    (hanswer : ∀ future ∈ front, answer (hash future) = (pollUnpin future).data) :
    EngineDownloader.advance answer front.length ((front ++ back).map hash) outcomes
      = ((advanceFutures pollUnpin front.length (front ++ back) outcomes).1.map hash,
        (advanceFutures pollUnpin front.length (front ++ back) outcomes).2) := by
  induction front using List.reverseRecOn generalizing back outcomes with
  | nil => rfl
  | append_singleton front request ih =>
      have hmem : request ∈ front ++ [request] :=
        List.mem_append_right _ (List.mem_singleton_self _)
      have hrequest := hanswer request hmem
      replace ih := fun back outcomes => ih back outcomes
        (fun future hmem => hkeeps future (List.mem_append_left _ hmem))
        (fun future hmem => hanswer future (List.mem_append_left _ hmem))
      rw [List.length_append, List.length_singleton, List.append_assoc, List.singleton_append]
      obtain ⟨back', -, hremove⟩ := swapRemove_append front request back
      simp only [advanceFutures, EngineDownloader.advance, swapRemove_map, hremove,
        Option.map_some, Prod.map_apply, hrequest]
      cases hpoll : pollUnpin request with
      | ready data =>
          simp only [FuturePoll.data]
          exact ih back' _
      | pending future =>
          have hback := ih (back' ++ [future]) outcomes
          rw [← List.append_assoc, List.map_append, List.map_singleton,
            hkeeps request hmem future hpoll] at hback
          simp only [FuturePoll.data]
          exact hback

end Sweeps

end ZkRess
