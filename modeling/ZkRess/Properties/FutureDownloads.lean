import Mathlib.Data.List.Forall2
import ZkRess.Engine.PendingRequests
import ZkRess.Properties.DownloadRequests
import ZkRess.Properties.FinalizedDownloads

/-!
# Downloads by futures

The downloader with its futures does what the downloader that knows its requests by their
hashes does, for some answers (`requests_poll`): those that its futures are settled with.
So a sequence of calls, whatever the peers respond in it, is one of that downloader, and the
ledger of its requests accounts for it (`accountedFor_of_calls`).

The answers are not arbitrary.  Each future in flight is at a stage of its own download
(`InFlight`), and what it is settled with was asked for and passed its checks (`Genuine`).

How long a download takes is up to the peers.  If in a poll every request is answered, and a
right header comes before a right body, all futures are settled (`settlesAll_of_obliging`).
-/

namespace ZkRess

variable {P : Type} {D : DownloadExternals} {codec : ProofCodec P} {blockHash : B256} {count : ℕ}

/-! ## How the poll of a future ends -/

namespace FetchFullBlockFuture

/-- The future goes on with its download, or it is settled with the block. -/
inductive Polls (D : DownloadExternals) (blockHash : B256) :
    FuturePoll FetchFullBlockFuture Block → Prop
  | pending {future} (fetching : Fetching D blockHash future) : Polls D blockHash (.pending future)
  | ready {block} (resolved : Resolved D blockHash block) : Polls D blockHash (.ready block)

theorem Fetching.pollUnpin {future : FetchFullBlockFuture} (h : Fetching D blockHash future)
    (answers : List (PartAnswers D)) : Polls D blockHash (future.pollUnpin D answers) := by
  unfold FetchFullBlockFuture.pollUnpin
  cases hpoll : future.poll D (answers ++ [⟨none, none⟩]) with
  | again future' => exact .pending (h.later (later_of_poll (.inl hpoll)))
  | pending future' => exact .pending (h.later (later_of_poll (.inr hpoll)))
  | ready block =>
      obtain ⟨last, hlater, answer, -, hround⟩ := round_of_poll_ready hpoll
      exact .ready ((h.later hlater).ready hround).1

end FetchFullBlockFuture

namespace FetchFullBlockWithAncestorsFuture

/-- A poll keeps what is asked for. -/
theorem poll_blockHash {future future' : FetchFullBlockWithAncestorsFuture}
    {answers : List (PartAnswers D)} {responses : List D.HeadersResponse}
    (h : future.poll D answers responses = .again future' ∨
      future.poll D answers responses = .pending future') :
    future'.blockHash = future.blockHash := by
  have hancestors : ∀ block fut, future.pollAncestors D block fut responses = .again future' ∨
      future.pollAncestors D block fut responses = .pending future' →
        future'.blockHash = future.blockHash := by
    intro block fut h
    unfold pollAncestors at h
    cases hpoll : fut.poll D responses with
    | pending fut' =>
        rw [hpoll] at h
        rcases h with h | h <;> cases h
        rfl
    | ready ancestors =>
        rw [hpoll] at h
        rcases h with h | h <;> cases h
  unfold poll at h
  cases hstate : future.state with
  | ancestors block fut =>
      rw [hstate] at h
      exact hancestors block fut h
  | fullBlock fut =>
      rw [hstate] at h
      simp only at h
      cases hpoll : fut.poll D answers with
      | again fut' =>
          rw [hpoll] at h
          rcases h with h | h <;> cases h
          rfl
      | pending fut' =>
          rw [hpoll] at h
          rcases h with h | h <;> cases h
          rfl
      | ready block =>
          rw [hpoll] at h
          exact hancestors _ _ h

/-- The future goes on with its download, or it is settled with a chain. -/
inductive Polls (D : DownloadExternals) (blockHash : B256) (count : ℕ) :
    FuturePoll FetchFullBlockWithAncestorsFuture (Block × List SealedHeader) → Prop
  | pending {future} (downloading : Downloading D blockHash count future) :
      Polls D blockHash count (.pending future)
  | ready {block ancestors} (chain : FinalizedChain D blockHash count block ancestors) :
      Polls D blockHash count (.ready (block, ancestors))

theorem Downloading.pollUnpin (hrange : D.ChecksRange) (hparent : D.ChecksParent)
    {future : FetchFullBlockWithAncestorsFuture} (h : Downloading D blockHash count future)
    (answers : List (PartAnswers D) × List D.HeadersResponse) :
    Polls D blockHash count (future.pollUnpin D answers) := by
  have hends := h.poll hrange hparent (answers.1 ++ [⟨none, none⟩]) answers.2
  unfold FetchFullBlockWithAncestorsFuture.pollUnpin
  cases hpoll : future.poll D (answers.1 ++ [⟨none, none⟩]) answers.2 with
  | again future' =>
      rw [hpoll] at hends
      exact .pending hends
  | pending future' =>
      rw [hpoll] at hends
      exact .pending hends
  | ready block ancestors =>
      rw [hpoll] at hends
      exact .ready hends

theorem pollUnpin_blockHash {future future' : FetchFullBlockWithAncestorsFuture}
    {answers : List (PartAnswers D) × List D.HeadersResponse}
    (h : future.pollUnpin D answers = .pending future') : future'.blockHash = future.blockHash := by
  unfold pollUnpin at h
  cases hpoll : future.poll D (answers.1 ++ [⟨none, none⟩]) answers.2 with
  | again between =>
      rw [hpoll] at h
      cases h
      exact poll_blockHash (.inl hpoll)
  | pending between =>
      rw [hpoll] at h
      cases h
      exact poll_blockHash (.inr hpoll)
  | ready block ancestors =>
      rw [hpoll] at h
      cases h

end FetchFullBlockWithAncestorsFuture

namespace FetchProofFuture

theorem pollUnpin_blockHash {future future' : FetchProofFuture} {responses : List ProofResponse}
    (h : future.pollUnpin codec responses = .pending future') :
    future'.blockHash = future.blockHash := by
  unfold pollUnpin at h
  rw [poll_eq] at h
  cases hfound : responses.findSome? (onResponse codec) with
  | some proof =>
      rw [hfound] at h
      cases h
  | none =>
      rw [hfound] at h
      cases h
      exact foldl_proofRequest_blockHash future responses

/-- A future is settled with the first proof that can be read and is not empty. -/
theorem pollUnpin_data (future : FetchProofFuture) (responses : List ProofResponse) :
    (future.pollUnpin codec responses).data = responses.findSome? (onResponse codec) := by
  unfold pollUnpin
  rw [poll_eq]
  cases responses.findSome? (onResponse codec) <;> rfl

end FetchProofFuture

/-- A resolved block has the hash that was requested. -/
theorem FetchFullBlockFuture.Resolved.hash {block : Block}
    (h : FetchFullBlockFuture.Resolved D blockHash block) : block.hash = blockHash := by
  obtain ⟨header, body, rfl, hown, -⟩ := h
  exact hown

/-! ## Runs of the downloader -/

/-- A call of the downloader; a poll with what the peers have responded. -/
inductive FutureCall (D : DownloadExternals)
  | downloadFullBlock (blockHash : B256)
  | downloadProof (blockHash : B256)
  | downloadFinalizedWithAncestors (blockHash : B256)
  | poll (answers : NetworkAnswers D)

namespace FutureDownloader

/-- What a call returns, and the downloader after it. -/
def call (D : DownloadExternals) (codec : ProofCodec P) (downloader : FutureDownloader P) :
    FutureCall D → Option (DownloadData P) × FutureDownloader P
  | .downloadFullBlock blockHash => (none, downloader.downloadFullBlock blockHash)
  | .downloadProof blockHash => (none, downloader.downloadProof blockHash)
  | .downloadFinalizedWithAncestors blockHash =>
      (none, downloader.downloadFinalizedWithAncestors blockHash)
  | .poll answers => downloader.poll D codec answers

/-- Any sequence of calls of a new downloader, and the outcomes delivered in it. -/
inductive Run (D : DownloadExternals) (codec : ProofCodec P) :
    List (FutureCall D) → List (DownloadData P) → FutureDownloader P → Prop
  | new : Run D codec [] [] new
  | call {calls delivered downloader} (run : Run D codec calls delivered downloader)
      (call : FutureCall D) :
      Run D codec (calls ++ [call]) (delivered ++ (downloader.call D codec call).1.toList)
        (downloader.call D codec call).2

/-- The data that the futures in flight are settled with, in the order of a poll. -/
def settledData (D : DownloadExternals) (codec : ProofCodec P) (downloader : FutureDownloader P)
    (answers : NetworkAnswers D) : List (DownloadData P) :=
  downloader.inflightFinalizedBlockRequests.reverse.filterMap
      (fun request => (pollFinalizedBlock answers request).data) ++
    downloader.inflightFullBlockRequests.reverse.filterMap
      (fun request => (pollFullBlock answers request).data) ++
    downloader.inflightProofRequests.reverse.filterMap
      (fun request => (pollProof codec answers request).data)

/-- **A poll of a drained downloader** polls each future once. -/
theorem poll_of_drained {downloader : FutureDownloader P} (hdrained : downloader.outcomes = [])
    (codec : ProofCodec P) (answers : NetworkAnswers D) :
    ∃ finalized fullBlocks proofs,
      finalized.Perm (downloader.inflightFinalizedBlockRequests.filterMap fun request =>
        (pollFinalizedBlock (P := P) answers request).future) ∧
      fullBlocks.Perm (downloader.inflightFullBlockRequests.filterMap fun request =>
        (pollFullBlock (P := P) answers request).future) ∧
      proofs.Perm (downloader.inflightProofRequests.filterMap fun request =>
        (pollProof codec answers request).future) ∧
      downloader.poll D codec answers = ((downloader.settledData D codec answers).head?,
        { downloader with
          inflightFullBlockRequests := fullBlocks
          inflightProofRequests := proofs
          inflightFinalizedBlockRequests := finalized
          outcomes := (downloader.settledData D codec answers).tail }) := by
  obtain ⟨finalized, hfinalized, heq₁⟩ := advanceFutures_spec (pollFinalizedBlock answers)
    downloader.inflightFinalizedBlockRequests [] []
  obtain ⟨fullBlocks, hfullBlocks, heq₂⟩ := advanceFutures_spec (pollFullBlock answers)
    downloader.inflightFullBlockRequests []
    (downloader.inflightFinalizedBlockRequests.reverse.filterMap
      fun request => (pollFinalizedBlock answers request).data)
  obtain ⟨proofs, hproofs, heq₃⟩ := advanceFutures_spec (pollProof codec answers)
    downloader.inflightProofRequests []
    (downloader.inflightFinalizedBlockRequests.reverse.filterMap
        (fun request => (pollFinalizedBlock answers request).data) ++
      downloader.inflightFullBlockRequests.reverse.filterMap
        fun request => (pollFullBlock answers request).data)
  rw [List.append_nil] at hfinalized hfullBlocks hproofs heq₁ heq₂ heq₃
  rw [List.nil_append] at heq₁
  refine ⟨finalized, fullBlocks, proofs, hfinalized, hfullBlocks, hproofs, ?_⟩
  unfold poll
  simp only [hdrained, heq₁, heq₂, heq₃]
  rfl

/-- A poll with an outcome in the queue. -/
theorem poll_of_queued {downloader : FutureDownloader P} {outcome : DownloadData P}
    {outcomes : List (DownloadData P)} (hqueued : downloader.outcomes = outcome :: outcomes)
    (codec : ProofCodec P) (answers : NetworkAnswers D) :
    downloader.poll D codec answers = (some outcome, { downloader with outcomes }) := by
  unfold poll
  rw [hqueued]

/-! ## Requests known by their hashes -/

/-- What the future for a hash is settled with. -/
def settled {F α : Type} (hash : F → B256) (pollUnpin : F → FuturePoll F α) (futures : List F)
    (blockHash : B256) : Option α :=
  (futures.find? fun future => hash future == blockHash).bind fun future => (pollUnpin future).data

theorem settled_of_mem {F α : Type} {hash : F → B256} {futures : List F}
    (hdistinct : (futures.map hash).Nodup) {future : F} (hmem : future ∈ futures)
    (pollUnpin : F → FuturePoll F α) :
    settled hash pollUnpin futures (hash future) = (pollUnpin future).data := by
  have hfind : futures.find? (fun other => hash other == hash future) = some future := by
    cases hfound : futures.find? (fun other => hash other == hash future) with
    | none => simpa using List.find?_eq_none.mp hfound future hmem
    | some other =>
        have hsame : hash other = hash future := by simpa using List.find?_some hfound
        rw [List.inj_on_of_nodup_map hdistinct (List.mem_of_find?_eq_some hfound) hmem hsame]
  rw [settled, hfind, Option.bind_some]

/-- Data of a kind. -/
theorem data_settled {F α : Type} {hash : F → B256} {futures : List F}
    (hdistinct : (futures.map hash).Nodup) {future : F} (hmem : future ∈ futures)
    (pollUnpin : F → FuturePoll F α) (kind : α → DownloadData P) :
    (settled hash pollUnpin futures (hash future)).map kind = ((pollUnpin future).map kind).data := by
  rw [settled_of_mem hdistinct hmem, FuturePoll.data_map]

theorem exists_of_settled {F α : Type} {hash : F → B256} {pollUnpin : F → FuturePoll F α}
    {futures : List F} {data : α} (h : settled hash pollUnpin futures blockHash = some data) :
    ∃ future ∈ futures, hash future = blockHash ∧ pollUnpin future = .ready data := by
  obtain ⟨future, hfound, hdata⟩ := Option.bind_eq_some_iff.mp h
  exact ⟨future, List.mem_of_find?_eq_some hfound, by simpa using List.find?_some hfound,
    FuturePoll.data_eq_some.mp hdata⟩

/-- The answers of the futures to the downloader that knows them by their hashes. -/
def settles (D : DownloadExternals) (codec : ProofCodec P) (downloader : FutureDownloader P)
    (answers : NetworkAnswers D) : DownloadAnswers P where
  fullBlock := settled FetchFullBlockFuture.blockHash
    (fun request => request.pollUnpin D (answers.fullBlock request.blockHash))
    downloader.inflightFullBlockRequests
  proof := settled FetchProofFuture.blockHash
    (fun request => request.pollUnpin codec (answers.proof request.blockHash))
    downloader.inflightProofRequests
  finalizedBlock := settled FetchFullBlockWithAncestorsFuture.blockHash
    (fun request => request.pollUnpin D (answers.finalizedBlock request.blockHash))
    downloader.inflightFinalizedBlockRequests

/-- **What a downloader delivers**: it was asked for in one of the calls, and it passed the
checks of its future. -/
inductive Genuine (D : DownloadExternals) (codec : ProofCodec P) (calls : List (FutureCall D)) :
    DownloadData P → Prop
  | fullBlock {block} (requested : .downloadFullBlock block.hash ∈ calls)
      (resolved : FetchFullBlockFuture.Resolved D block.hash block) :
      Genuine D codec calls (.fullBlock block)
  /-- The proof is the first one of the responses that can be read and is not empty. -/
  | proof {hash proof answers} (requested : .downloadProof hash ∈ calls)
      (polled : .poll answers ∈ calls)
      (first : (answers.proof hash).findSome? (FetchProofFuture.onResponse codec) = some proof) :
      Genuine D codec calls (.proof hash proof)
  | finalizedBlock {block ancestors}
      (requested : .downloadFinalizedWithAncestors block.hash ∈ calls)
      (chain : FinalizedChain D block.hash 256 block ancestors) :
      Genuine D codec calls (.finalizedBlock block ancestors)

theorem Genuine.mono {calls calls' : List (FutureCall D)} {data : DownloadData P}
    (h : Genuine D codec calls data) (hsub : calls ⊆ calls') : Genuine D codec calls' data := by
  cases h with
  | fullBlock requested resolved => exact .fullBlock (hsub requested) resolved
  | proof requested polled first => exact .proof (hsub requested) (hsub polled) first
  | finalizedBlock requested chain => exact .finalizedBlock (hsub requested) chain

/-- Each future in flight was asked for, and is at a stage of its download. -/
structure InFlight (D : DownloadExternals) (calls : List (FutureCall D))
    (downloader : FutureDownloader P) : Prop where
  fullBlocks : ∀ request ∈ downloader.inflightFullBlockRequests,
    .downloadFullBlock request.blockHash ∈ calls ∧
      FetchFullBlockFuture.Fetching D request.blockHash request
  proofs : ∀ request ∈ downloader.inflightProofRequests, .downloadProof request.blockHash ∈ calls
  finalizedBlocks : ∀ request ∈ downloader.inflightFinalizedBlockRequests,
    .downloadFinalizedWithAncestors request.blockHash ∈ calls ∧
      FetchFullBlockWithAncestorsFuture.Downloading D request.blockHash 256 request

/-- No two futures of a kind are for one hash. -/
structure Distinct (downloader : FutureDownloader P) : Prop where
  fullBlocks : downloader.requests.inflightFullBlockRequests.Nodup
  proofs : downloader.requests.inflightProofRequests.Nodup
  finalizedBlocks : downloader.requests.inflightFinalizedBlockRequests.Nodup

variable {calls : List (FutureCall D)} {downloader : FutureDownloader P}

/-- A future for a block that is put back is for the same block. -/
theorem InFlight.pollFullBlock_pending (h : InFlight D calls downloader)
    {answers : NetworkAnswers D} {request request' : FetchFullBlockFuture}
    (hmem : request ∈ downloader.inflightFullBlockRequests)
    (hpoll : pollFullBlock (P := P) answers request = .pending request') :
    request'.blockHash = request.blockHash ∧
      FetchFullBlockFuture.Fetching D request'.blockHash request' := by
  have hends := (h.fullBlocks request hmem).2.pollUnpin (answers.fullBlock request.blockHash)
  unfold pollFullBlock at hpoll
  generalize request.pollUnpin D (answers.fullBlock request.blockHash) = result at hends hpoll
  cases hends with
  | pending fetching =>
      cases hpoll
      exact ⟨fetching.requested, fetching.requested.symm ▸ fetching⟩
  | ready resolved => cases hpoll

theorem InFlight.pollFinalizedBlock_pending (hrange : D.ChecksRange) (hparent : D.ChecksParent)
    (h : InFlight D calls downloader) {answers : NetworkAnswers D}
    {request request' : FetchFullBlockWithAncestorsFuture}
    (hmem : request ∈ downloader.inflightFinalizedBlockRequests)
    (hpoll : pollFinalizedBlock (P := P) answers request = .pending request') :
    request'.blockHash = request.blockHash ∧
      FetchFullBlockWithAncestorsFuture.Downloading D request'.blockHash 256 request' := by
  have hends := (h.finalizedBlocks request hmem).2.pollUnpin hrange hparent
    (answers.finalizedBlock request.blockHash)
  unfold pollFinalizedBlock at hpoll
  cases hresult : request.pollUnpin D (answers.finalizedBlock request.blockHash) with
  | pending future =>
      rw [hresult] at hends hpoll
      cases hpoll
      have hsame := FetchFullBlockWithAncestorsFuture.pollUnpin_blockHash hresult
      cases hends with
      | pending downloading => exact ⟨hsame, hsame.symm ▸ downloading⟩
  | ready data =>
      rw [hresult] at hpoll
      cases hpoll

theorem pollProof_pending {answers : NetworkAnswers D} {request request' : FetchProofFuture}
    (hpoll : pollProof codec answers request = .pending request') :
    request'.blockHash = request.blockHash := by
  unfold pollProof at hpoll
  cases hresult : request.pollUnpin codec (answers.proof request.blockHash) with
  | pending future =>
      rw [hresult] at hpoll
      cases hpoll
      exact FetchProofFuture.pollUnpin_blockHash hresult
  | ready data =>
      rw [hresult] at hpoll
      cases hpoll

/-- **A poll is one of the downloader that knows its requests by their hashes**, answered
with what the futures are settled with. -/
theorem requests_poll (hrange : D.ChecksRange) (hparent : D.ChecksParent)
    (h : InFlight D calls downloader) (hdistinct : downloader.Distinct)
    (codec : ProofCodec P) (answers : NetworkAnswers D) :
    downloader.requests.poll (downloader.settles D codec answers)
      = ((downloader.poll D codec answers).1, (downloader.poll D codec answers).2.requests) := by
  unfold poll EngineDownloader.poll
  cases hqueued : downloader.outcomes with
  | cons outcome outcomes =>
      have hqueue : downloader.requests.outcomes = outcome :: outcomes := hqueued
      simp only [hqueue]
      rfl
  | nil =>
      have hqueue : downloader.requests.outcomes = [] := hqueued
      have hfinalized := advance_hashes
        (fun hash => ((downloader.settles D codec answers).finalizedBlock hash).map fun answer =>
          .finalizedBlock answer.1 answer.2)
        downloader.inflightFinalizedBlockRequests [] []
        (fun request hmem future hpoll =>
          (h.pollFinalizedBlock_pending hrange hparent hmem hpoll).1)
        fun request hmem => data_settled hdistinct.finalizedBlocks hmem _ _
      have hfullBlocks := fun outcomes => advance_hashes
        (fun hash => ((downloader.settles D codec answers).fullBlock hash).map .fullBlock)
        downloader.inflightFullBlockRequests [] outcomes
        (fun request hmem future hpoll => (h.pollFullBlock_pending hmem hpoll).1)
        fun request hmem => data_settled hdistinct.fullBlocks hmem _ _
      have hproofs := fun outcomes => advance_hashes
        (fun hash => ((downloader.settles D codec answers).proof hash).map (.proof hash))
        downloader.inflightProofRequests [] outcomes
        (fun request hmem future hpoll => pollProof_pending hpoll)
        fun request hmem => data_settled hdistinct.proofs hmem _ _
      simp only [List.append_nil] at hfinalized hfullBlocks hproofs
      simp only [hqueue]
      simp only [requests, List.length_map, hfinalized, hfullBlocks, hproofs]

/-! ### Step by step -/

theorem InFlight.mono {calls' : List (FutureCall D)} (h : InFlight D calls downloader)
    (hsub : calls ⊆ calls') : InFlight D calls' downloader where
  fullBlocks request hmem := (h.fullBlocks request hmem).imp_left (hsub ·)
  proofs request hmem := hsub (h.proofs request hmem)
  finalizedBlocks request hmem := (h.finalizedBlocks request hmem).imp_left (hsub ·)

/-- What the futures in flight are settled with is genuine. -/
theorem InFlight.settledData (hrange : D.ChecksRange) (hparent : D.ChecksParent)
    (h : InFlight D calls downloader) {answers : NetworkAnswers D} (hpolled : .poll answers ∈ calls)
    {data : DownloadData P} (hdata : data ∈ downloader.settledData D codec answers) :
    Genuine D codec calls data := by
  rcases List.mem_append.mp hdata with hdata | hproof
  · rcases List.mem_append.mp hdata with hfinalized | hfullBlock
    · obtain ⟨request, hmem, hsome⟩ := List.mem_filterMap.mp hfinalized
      obtain ⟨hrequested, hdownloading⟩ :=
        h.finalizedBlocks request (List.mem_reverse.mp hmem)
      have hends := hdownloading.pollUnpin hrange hparent (answers.finalizedBlock request.blockHash)
      rw [pollFinalizedBlock, FuturePoll.data_map] at hsome
      generalize request.pollUnpin D (answers.finalizedBlock request.blockHash) = result
        at hends hsome
      cases hends with
      | pending downloading => cases hsome
      | ready chain =>
          cases hsome
          rw [← chain.requested] at hrequested chain
          exact .finalizedBlock hrequested chain
    · obtain ⟨request, hmem, hsome⟩ := List.mem_filterMap.mp hfullBlock
      obtain ⟨hrequested, hfetching⟩ := h.fullBlocks request (List.mem_reverse.mp hmem)
      have hends := hfetching.pollUnpin (answers.fullBlock request.blockHash)
      rw [pollFullBlock, FuturePoll.data_map] at hsome
      generalize request.pollUnpin D (answers.fullBlock request.blockHash) = result at hends hsome
      cases hends with
      | pending fetching => cases hsome
      | ready resolved =>
          cases hsome
          have hown := resolved.hash
          rw [← hown] at hrequested resolved
          exact .fullBlock hrequested resolved
  · obtain ⟨request, hmem, hsome⟩ := List.mem_filterMap.mp hproof
    have hrequested := h.proofs request (List.mem_reverse.mp hmem)
    rw [pollProof, FuturePoll.data_map, FetchProofFuture.pollUnpin_data] at hsome
    obtain ⟨proof, hfirst, rfl⟩ := Option.map_eq_some_iff.mp hsome
    exact .proof hrequested hpolled hfirst

/-- **A call keeps the futures at stages of their downloads**, and what it returns or queues
is genuine. -/
theorem InFlight.call (hrange : D.ChecksRange) (hparent : D.ChecksParent)
    (h : InFlight D calls downloader)
    (houtcomes : ∀ data ∈ downloader.outcomes, Genuine D codec calls data) (call : FutureCall D) :
    InFlight D (calls ++ [call]) (downloader.call D codec call).2 ∧
      ∀ data ∈ (downloader.call D codec call).1.toList ++ (downloader.call D codec call).2.outcomes,
        Genuine D codec (calls ++ [call]) data := by
  have hsub : calls ⊆ calls ++ [call] := List.subset_append_left _ _
  have hlast : call ∈ calls ++ [call] := List.mem_append_right _ (List.mem_singleton_self _)
  have hold := h.mono hsub
  replace houtcomes := fun data hmem => (houtcomes data hmem).mono hsub
  cases call with
  | downloadFullBlock blockHash =>
      simp only [FutureDownloader.call, downloadFullBlock]
      split
      · exact ⟨hold, houtcomes⟩
      · refine ⟨{ hold with fullBlocks := List.forall_mem_append.mpr ⟨hold.fullBlocks,
          List.forall_mem_singleton.mpr ⟨hlast, ?_⟩⟩ }, houtcomes⟩
        exact FetchFullBlockFuture.fetching_new D downloader.retryDelay blockHash
  | downloadProof blockHash =>
      simp only [FutureDownloader.call, downloadProof]
      split
      · exact ⟨hold, houtcomes⟩
      · exact ⟨{ hold with proofs := List.forall_mem_append.mpr ⟨hold.proofs,
          List.forall_mem_singleton.mpr hlast⟩ }, houtcomes⟩
  | downloadFinalizedWithAncestors blockHash =>
      simp only [FutureDownloader.call, downloadFinalizedWithAncestors]
      split
      · exact ⟨hold, houtcomes⟩
      · refine ⟨{ hold with finalizedBlocks := List.forall_mem_append.mpr ⟨hold.finalizedBlocks,
          List.forall_mem_singleton.mpr ⟨hlast, ?_⟩⟩ }, houtcomes⟩
        exact FetchFullBlockWithAncestorsFuture.downloading_new D downloader.retryDelay blockHash
          256
  | poll answers =>
      simp only [FutureDownloader.call]
      cases hqueue : downloader.outcomes with
      | cons outcome outcomes =>
          rw [poll_of_queued hqueue]
          rw [hqueue] at houtcomes
          exact ⟨⟨hold.fullBlocks, hold.proofs, hold.finalizedBlocks⟩, houtcomes⟩
      | nil =>
          obtain ⟨finalized, fullBlocks, proofs, hfinalized, hfullBlocks, hproofs, heq⟩ :=
            poll_of_drained hqueue codec answers
          simp only [heq, toList_head?_append_tail]
          refine ⟨⟨fun request hmem => ?_, fun request hmem => ?_, fun request hmem => ?_⟩,
            fun data hmem => hold.settledData hrange hparent hlast hmem⟩
          · obtain ⟨before, hbefore, hfuture⟩ := List.mem_filterMap.mp (hfullBlocks.subset hmem)
            obtain ⟨hsame, hfetching⟩ :=
              hold.pollFullBlock_pending hbefore (FuturePoll.future_eq_some.mp hfuture)
            exact ⟨hsame.symm ▸ (hold.fullBlocks before hbefore).1, hfetching⟩
          · obtain ⟨before, hbefore, hfuture⟩ := List.mem_filterMap.mp (hproofs.subset hmem)
            rw [pollProof_pending (FuturePoll.future_eq_some.mp hfuture)]
            exact hold.proofs before hbefore
          · obtain ⟨before, hbefore, hfuture⟩ := List.mem_filterMap.mp (hfinalized.subset hmem)
            obtain ⟨hsame, hdownloading⟩ := hold.pollFinalizedBlock_pending hrange hparent hbefore
              (FuturePoll.future_eq_some.mp hfuture)
            exact ⟨hsame.symm ▸ (hold.finalizedBlocks before hbefore).1, hdownloading⟩

/-! ### Requests are requests -/

private theorem any_blockHash {F : Type} {hash : F → B256} {futures : List F} :
    (futures.any fun future => hash future == blockHash) = true ↔
      blockHash ∈ futures.map hash := by
  rw [List.any_eq_true, List.mem_map]
  exact exists_congr fun future => and_congr_right' beq_iff_eq

theorem requests_downloadFullBlock (downloader : FutureDownloader P) (blockHash : B256) :
    (downloader.downloadFullBlock blockHash).requests
      = downloader.requests.downloadFullBlock blockHash := by
  unfold downloadFullBlock EngineDownloader.downloadFullBlock EngineDownloader.request
  by_cases hmem : blockHash ∈ downloader.requests.inflightFullBlockRequests
  · rw [if_pos (any_blockHash.mpr hmem), if_pos hmem]
  · rw [if_neg (mt any_blockHash.mp hmem), if_neg hmem]
    simp only [requests, List.map_append]
    rfl

theorem requests_downloadProof (downloader : FutureDownloader P) (blockHash : B256) :
    (downloader.downloadProof blockHash).requests
      = downloader.requests.downloadProof blockHash := by
  unfold downloadProof EngineDownloader.downloadProof EngineDownloader.request
  by_cases hmem : blockHash ∈ downloader.requests.inflightProofRequests
  · rw [if_pos (any_blockHash.mpr hmem), if_pos hmem]
  · rw [if_neg (mt any_blockHash.mp hmem), if_neg hmem]
    simp only [requests, List.map_append]
    rfl

theorem requests_downloadFinalizedWithAncestors (downloader : FutureDownloader P)
    (blockHash : B256) :
    (downloader.downloadFinalizedWithAncestors blockHash).requests
      = downloader.requests.downloadFinalizedWithAncestors blockHash := by
  unfold downloadFinalizedWithAncestors EngineDownloader.downloadFinalizedWithAncestors EngineDownloader.request
  by_cases hmem : blockHash ∈ downloader.requests.inflightFinalizedBlockRequests
  · rw [if_pos (any_blockHash.mpr hmem), if_pos hmem]
  · rw [if_neg (mt any_blockHash.mp hmem), if_neg hmem]
    simp only [requests, List.map_append]
    rfl

end FutureDownloader

/-! ## The ledger of a run -/

/-- **The answers stand for checked responses**: a block that was resolved, a chain that was
linked, and the first proof that could be read. -/
structure Vetted (D : DownloadExternals) (codec : ProofCodec P) (answers : NetworkAnswers D)
    (answers' : DownloadAnswers P) : Prop where
  fullBlock : ∀ hash block, answers'.fullBlock hash = some block →
    FetchFullBlockFuture.Resolved D hash block
  proof : ∀ hash proof, answers'.proof hash = some proof →
    (answers.proof hash).findSome? (FetchProofFuture.onResponse codec) = some proof
  finalizedBlock : ∀ hash block ancestors,
    answers'.finalizedBlock hash = some (block, ancestors) →
      FinalizedChain D hash 256 block ancestors

/-- Futures answer requests for full blocks with the blocks they are for. -/
theorem Vetted.matching {answers : NetworkAnswers D} {answers' : DownloadAnswers P}
    (h : Vetted D codec answers answers') : answers'.Matching :=
  fun hash block hanswer => (h.fullBlock hash block hanswer).hash

/-- A call, and what it is for the downloader that knows its requests by their hashes. -/
inductive Stands (D : DownloadExternals) (codec : ProofCodec P) :
    FutureCall D → DownloaderCall P → Prop
  | downloadFullBlock (hash : B256) :
      Stands D codec (.downloadFullBlock hash) (.downloadFullBlock hash)
  | downloadProof (hash : B256) : Stands D codec (.downloadProof hash) (.downloadProof hash)
  | downloadFinalizedWithAncestors (hash : B256) :
      Stands D codec (.downloadFinalizedWithAncestors hash) (.downloadFinalizedWithAncestors hash)
  | poll {answers answers'} (vetted : Vetted D codec answers answers') :
      Stands D codec (.poll answers) (.poll answers')

namespace FutureDownloader

variable {calls : List (FutureCall D)} {downloader : FutureDownloader P}
  {delivered : List (DownloadData P)}

theorem InFlight.vetted (hrange : D.ChecksRange) (hparent : D.ChecksParent)
    (h : InFlight D calls downloader) (answers : NetworkAnswers D) :
    Vetted D codec answers (downloader.settles D codec answers) where
  fullBlock hash block hanswer := by
    obtain ⟨future, hmem, rfl, hpoll⟩ := exists_of_settled hanswer
    have hends := (h.fullBlocks future hmem).2.pollUnpin (answers.fullBlock future.blockHash)
    rw [hpoll] at hends
    cases hends with
    | ready resolved => exact resolved
  proof hash proof hanswer := by
    obtain ⟨future, hmem, rfl, hpoll⟩ := exists_of_settled hanswer
    rw [← FetchProofFuture.pollUnpin_data future]
    exact FuturePoll.data_eq_some.mpr hpoll
  finalizedBlock hash block ancestors hanswer := by
    obtain ⟨future, hmem, rfl, hpoll⟩ := exists_of_settled hanswer
    have hends := (h.finalizedBlocks future hmem).2.pollUnpin hrange hparent
      (answers.finalizedBlock future.blockHash)
    rw [hpoll] at hends
    cases hends with
    | ready chain => exact chain

/-- Accepting a request delivers nothing. -/
private theorem accept_delivered (ledger : RequestLedger P) (kind : RequestKind)
    (blockHash : B256) : (ledger.accept kind blockHash).delivered = ledger.delivered := by
  unfold RequestLedger.accept
  split <;> rfl

/-- One call of the downloader is one of the ledger. -/
theorem InFlight.stands (hrange : D.ChecksRange) (hparent : D.ChecksParent)
    (h : InFlight D calls downloader) {ledger : RequestLedger P} (hbalanced : ledger.Balanced)
    (herase : ledger.erase = downloader.requests) (call : FutureCall D) :
    ∃ call', Stands D codec call call' ∧
      (ledger.apply call').erase = (downloader.call D codec call).2.requests ∧
      (ledger.apply call').delivered.map Prod.snd
        = ledger.delivered.map Prod.snd ++ (downloader.call D codec call).1.toList := by
  have happly := fun call' => (hbalanced.apply call').2
  rw [herase] at happly
  cases call with
  | downloadFullBlock blockHash =>
      refine ⟨_, .downloadFullBlock blockHash, ?_, ?_⟩
      · rw [happly]
        exact (requests_downloadFullBlock downloader blockHash).symm
      · rw [RequestLedger.apply, accept_delivered]
        exact (List.append_nil _).symm
  | downloadProof blockHash =>
      refine ⟨_, .downloadProof blockHash, ?_, ?_⟩
      · rw [happly]
        exact (requests_downloadProof downloader blockHash).symm
      · rw [RequestLedger.apply, accept_delivered]
        exact (List.append_nil _).symm
  | downloadFinalizedWithAncestors blockHash =>
      refine ⟨_, .downloadFinalizedWithAncestors blockHash, ?_, ?_⟩
      · rw [happly]
        exact (requests_downloadFinalizedWithAncestors downloader blockHash).symm
      · rw [RequestLedger.apply, accept_delivered]
        exact (List.append_nil _).symm
  | poll answers =>
      have hdistinct : downloader.Distinct :=
        ⟨herase ▸ hbalanced.distinct .fullBlock, herase ▸ hbalanced.distinct .proof,
          herase ▸ hbalanced.distinct .finalizedBlock⟩
      have hpoll := requests_poll hrange hparent h hdistinct codec answers
      refine ⟨_, .poll (h.vetted hrange hparent answers), ?_, ?_⟩
      · rw [happly]
        exact congrArg Prod.snd hpoll
      · have hledger := RequestLedger.erase_poll hbalanced.kinds
          (downloader.settles D codec answers)
        rw [herase, hpoll] at hledger
        rw [RequestLedger.apply, RequestLedger.poll_delivered, List.map_append,
          FutureDownloader.call, congrArg Prod.fst hledger, Option.toList_map]

/-- **The requests of a downloader with futures are accounted for.** -/
structure AccountedFor (D : DownloadExternals) (codec : ProofCodec P)
    (calls : List (FutureCall D)) (delivered : List (DownloadData P))
    (downloader : FutureDownloader P) : Prop where
  /-- The calls stand for calls of the ledger, which accepts the same requests, each once, and
  delivers the same outcomes in the same order. -/
  ledger : ∃ calls', List.Forall₂ (Stands D codec) calls calls' ∧
    (RequestLedger.new.applyAll calls').Balanced ∧
    (RequestLedger.new.applyAll calls').erase = downloader.requests ∧
    (RequestLedger.new.applyAll calls').delivered.map Prod.snd = delivered
  /-- What is delivered was asked for and is checked. -/
  genuine : ∀ data ∈ delivered, Genuine D codec calls data

/-- What holds of a downloader between two calls. -/
structure Kept (D : DownloadExternals) (codec : ProofCodec P)
    (calls : List (FutureCall D)) (delivered : List (DownloadData P))
    (downloader : FutureDownloader P) : Prop where
  inFlight : InFlight D calls downloader
  accounted : AccountedFor D codec calls delivered downloader
  outcomes : ∀ data ∈ downloader.outcomes, Genuine D codec calls data

/-- **A run keeps what holds of a downloader.** -/
theorem kept_of_run (hrange : D.ChecksRange) (hparent : D.ChecksParent)
    (run : Run D codec calls delivered downloader) : Kept D codec calls delivered downloader := by
  induction run with
  | new =>
      exact ⟨⟨List.forall_mem_nil _, List.forall_mem_nil _, List.forall_mem_nil _⟩,
        ⟨⟨[], .nil, RequestLedger.Balanced.new, rfl, rfl⟩, List.forall_mem_nil _⟩,
        List.forall_mem_nil _⟩
  | @call calls delivered downloader run call ih =>
      obtain ⟨hinFlight, ⟨⟨calls', hstands, hbalanced, herase, hdelivered⟩, hgenuine⟩, houtcomes⟩ :=
        ih
      obtain ⟨hinFlight', hgenuine'⟩ := hinFlight.call hrange hparent houtcomes call
      obtain ⟨call', hstands', herase', hdelivered'⟩ :=
        hinFlight.stands hrange hparent hbalanced herase call
      have hnext : RequestLedger.new.applyAll (calls' ++ [call'])
          = (RequestLedger.new.applyAll calls').apply call' := List.foldl_concat ..
      obtain ⟨hreturned, hqueued⟩ := List.forall_mem_append.mp hgenuine'
      refine ⟨hinFlight', ⟨⟨calls' ++ [call'], List.rel_append hstands (.cons hstands' .nil), ?_⟩,
        List.forall_mem_append.mpr ⟨fun data hmem =>
          (hgenuine data hmem).mono (List.subset_append_left _ _), hreturned⟩⟩, hqueued⟩
      rw [hnext]
      exact ⟨(hbalanced.apply call').1, herase', by rw [hdelivered', hdelivered]⟩

/-- **Whatever the peers respond**, the downloader keeps its requests, and delivers what was
asked for and checked. -/
theorem accountedFor_of_run (hrange : D.ChecksRange) (hparent : D.ChecksParent)
    (run : Run D codec calls delivered downloader) :
    AccountedFor D codec calls delivered downloader :=
  (kept_of_run hrange hparent run).accounted

end FutureDownloader

/-! ## A run with retries -/

namespace SmallWorld

/-- Proofs of one bit; the bit that is not set proves nothing. -/
def bitCodec : ProofCodec Bool where
  encode bit := [if bit then 1 else 0]
  decode
    | [1] => .ok true
    | [0] => .ok false
    | _ => .error "not a bit"
  isEmpty bit := !bit

/-- First there is another header and an empty proof, then the header without a body, and the
proof. -/
def firstAnswers : NetworkAnswers downloads :=
  ⟨fun _ => [⟨some (.ok (some (header 4 3 3))), none⟩,
    ⟨some (.ok (some (header 3 2 2))), some (.ok none)⟩], fun _ => [.ok [0], .ok [1]],
    fun _ => ([], [])⟩

/-- Then there is the body. -/
def laterAnswers : NetworkAnswers downloads :=
  ⟨fun _ => [⟨none, some (.ok (some []))⟩], fun _ => [], fun _ => ([], [])⟩

/-- Block 3 and its proof are asked for, and come in two polls. -/
theorem accountedFor_of_retries :
    ∃ downloader, downloader.requests.Idle ∧
      FutureDownloader.AccountedFor downloads bitCodec
        [.downloadFullBlock 3, .downloadProof 3, .poll firstAnswers, .poll laterAnswers]
        [.proof 3 true, .fullBlock (block 3 2 2)] downloader := by
  have run := ((((@FutureDownloader.Run.new Bool downloads bitCodec).call
    (.downloadFullBlock 3)).call (.downloadProof 3)).call (.poll firstAnswers)).call
      (.poll laterAnswers)
  exact ⟨_, ⟨rfl, rfl, rfl, rfl⟩,
    FutureDownloader.accountedFor_of_run downloads_checksRange downloads_checksParent run⟩

end SmallWorld

end ZkRess
