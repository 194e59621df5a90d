import Mathlib.Data.List.Chain
import ZkRess.Engine.SmallWorld
import ZkRess.Properties.FullBlockDownloads

/-!
# Finalized downloads

A finalized block is downloaded first, and then the headers from its parent down.
`Downloading` is what holds of the two-stage future between polls.  Whatever the peers
answer, the download resolves only to the requested block with a hash-linked list of
ancestors, of which the first is its parent (`finalizedDownload`).

The handler writes the list into the canonical hashes by the numbers in the headers.
If the block is numbered one above its parent, these are the heights of the ancestors
below the block.
-/

namespace ZkRess

open Foundation

variable {D : DownloadExternals} {retryDelay : ℕ} {blockHash : B256} {count : ℕ}

/-- A block with at least `count` headers below it, each the parent of the one
before. -/
structure FinalizedChain (D : DownloadExternals) (blockHash : B256) (count : ℕ) (block : Block)
    (ancestors : List SealedHeader) : Prop where
  requested : block.hash = blockHash
  long : count ≤ ancestors.length
  first : ancestors.head?.map (fun header => header.hash) = some block.parentHash
  linked : ∀ (i : ℕ) (header parent : SealedHeader), ancestors[i]? = some header →
    ancestors[i + 1]? = some parent →
      parent.hash = header.parentHash ∧ header.number = parent.number + 1

/-- The canonical hashes written are those of the block and its ancestors, each at its
distance below the block. -/
structure WritesAncestors {X : Externals} (tree tree' : EngineTree X) (block : Block)
    (ancestors : List SealedHeader) : Prop where
  own : tree'.provider.canonicalHashesByNumber.get block.number = some block.hash
  ancestor : ∀ (i : ℕ) (header : SealedHeader), ancestors[i]? = some header →
    header.number + (i + 1) = block.number ∧
      tree'.provider.canonicalHashesByNumber.get header.number = some header.hash
  others : ∀ number, (∀ header ∈ block.toSealedHeader :: ancestors, header.number ≠ number) →
    tree'.provider.canonicalHashesByNumber.get number
      = tree.provider.canonicalHashesByNumber.get number

/-! ## Ranges of headers -/

namespace FetchHeadersRangeFuture

/-- **An accepted response** is as long as requested, begins with the requested hash,
and each header is the parent of the one before. -/
theorem onResponse_linked (hrange : D.ChecksRange) (hparent : D.ChecksParent)
    {future : FetchHeadersRangeFuture} {response : D.HeadersResponse}
    {headers : List SealedHeader} (h : future.onResponse D response = some headers) :
    future.request.limit ≤ headers.length ∧
      headers.head?.map (fun header => header.hash) = some future.request.startHash ∧
      ∀ (i : ℕ) (header parent : SealedHeader), headers[i]? = some header →
        headers[i + 1]? = some parent →
          parent.hash = header.parentHash ∧ header.number = parent.number + 1 := by
  obtain ⟨raw, -, rfl, hlength, hstart, hvalid⟩ := onResponse_eq_some.mp h
  refine ⟨by rwa [List.length_map], hstart, fun i header parent hget hget' => ?_⟩
  -- the checks go up the list, from each parent to its child
  have hpairs := List.isChain_reverse.mp ((hrange _).mp hvalid).pairs
  obtain ⟨hi, rfl⟩ := List.getElem?_eq_some_iff.mp hget
  obtain ⟨hi', rfl⟩ := List.getElem?_eq_some_iff.mp hget'
  obtain ⟨hhash, hnumber⟩ := hparent _ _ (hpairs.getElem i hi')
  exact ⟨hhash.symm, hnumber⟩

end FetchHeadersRangeFuture

/-! ## Blocks with their ancestors -/

namespace FetchFullBlockWithAncestorsFuture

/-- A poll that does not resolve. -/
def Moves (D : DownloadExternals) (future future' : FetchFullBlockWithAncestorsFuture) : Prop :=
  ∃ answers responses, future.poll D answers responses = .again future' ∨
    future.poll D answers responses = .pending future'

/-- Any number of polls. -/
abbrev Later (D : DownloadExternals) :
    FetchFullBlockWithAncestorsFuture → FetchFullBlockWithAncestorsFuture → Prop :=
  Relation.ReflTransGen (Moves D)

/-- The stages of a download: the block is on its way, or it is there and the headers
from its parent down are requested. -/
inductive Stage (D : DownloadExternals) (blockHash : B256) (count : ℕ) :
    FullBlockWithAncestorsDownloadState → Prop
  | fullBlock {fut} (fetching : FetchFullBlockFuture.Fetching D blockHash fut) :
      Stage D blockHash count (.fullBlock fut)
  | ancestors {block fut} (resolved : FetchFullBlockFuture.Resolved D blockHash block)
      (request : fut.request = ⟨block.parentHash, count⟩) :
      Stage D blockHash count (.ancestors block fut)

/-- What holds of the download between two polls. -/
structure Downloading (D : DownloadExternals) (blockHash : B256) (count : ℕ)
    (future : FetchFullBlockWithAncestorsFuture) : Prop where
  ancestorCount : future.ancestorCount = count
  stage : Stage D blockHash count future.state

theorem downloading_new (D : DownloadExternals) (retryDelay : ℕ) (blockHash : B256) (count : ℕ) :
    Downloading D blockHash count (new retryDelay blockHash count) where
  ancestorCount := rfl
  stage := .fullBlock (FetchFullBlockFuture.fetching_new D retryDelay blockHash)

/-- How a poll ends: in a stage of the download, or with a chain. -/
def Ends (D : DownloadExternals) (blockHash : B256) (count : ℕ) : WithAncestorsPoll → Prop
  | .again future => Downloading D blockHash count future
  | .pending future => Downloading D blockHash count future
  | .ready block ancestors => FinalizedChain D blockHash count block ancestors

/-- Once the block is there. -/
theorem Downloading.pollAncestors (hrange : D.ChecksRange) (hparent : D.ChecksParent)
    {future : FetchFullBlockWithAncestorsFuture} (h : Downloading D blockHash count future)
    {block : Block} (hresolved : FetchFullBlockFuture.Resolved D blockHash block)
    {fut : FetchHeadersRangeFuture} (hrequest : fut.request = ⟨block.parentHash, count⟩)
    (responses : List D.HeadersResponse) :
    Ends D blockHash count (future.pollAncestors D block fut responses) := by
  unfold FetchFullBlockWithAncestorsFuture.pollAncestors
  match hpoll : fut.poll D responses with
  | .pending fut' =>
      have hrequest' := FetchHeadersRangeFuture.poll_pending hpoll
      exact ⟨h.ancestorCount, .ancestors hresolved (hrequest'.trans hrequest)⟩
  | .ready ancestors =>
      obtain ⟨response, -, asked, hasked, haccepted⟩ := FetchHeadersRangeFuture.poll_ready hpoll
      obtain ⟨hlong, hfirst, hlinked⟩ :=
        FetchHeadersRangeFuture.onResponse_linked hrange hparent haccepted
      rw [hasked, hrequest] at hlong hfirst
      obtain ⟨header, body, rfl, hown, -⟩ := hresolved
      exact ⟨hown, hlong, hfirst, hlinked⟩

/-- **A poll keeps the download in its stages, or ends it with a chain.** -/
theorem Downloading.poll (hrange : D.ChecksRange) (hparent : D.ChecksParent)
    {future : FetchFullBlockWithAncestorsFuture} (h : Downloading D blockHash count future)
    (answers : List (PartAnswers D)) (responses : List D.HeadersResponse) :
    Ends D blockHash count (future.poll D answers responses) := by
  have hstage := h.stage
  unfold FetchFullBlockWithAncestorsFuture.poll
  match future.state, hstage with
  | .fullBlock fut, .fullBlock fetching =>
      simp only
      match hpoll : fut.poll D answers with
      | .again fut' =>
          exact ⟨h.ancestorCount,
            .fullBlock (fetching.later (FetchFullBlockFuture.later_of_poll (.inl hpoll)))⟩
      | .pending fut' =>
          exact ⟨h.ancestorCount,
            .fullBlock (fetching.later (FetchFullBlockFuture.later_of_poll (.inr hpoll)))⟩
      | .ready block =>
          obtain ⟨last, hlast, answer, -, hround⟩ := FetchFullBlockFuture.round_of_poll_ready hpoll
          have hresolved := ((fetching.later hlast).ready hround).1
          refine h.pollAncestors hrange hparent hresolved ?_ responses
          rw [h.ancestorCount]
          rfl
  | .ancestors block fut, .ancestors hresolved hrequest =>
      exact h.pollAncestors hrange hparent hresolved hrequest responses

/-- **A run of polls stays in the stages of the download.** -/
theorem Downloading.later (hrange : D.ChecksRange) (hparent : D.ChecksParent)
    {future future' : FetchFullBlockWithAncestorsFuture} (h : Downloading D blockHash count future)
    (hlater : Later D future future') : Downloading D blockHash count future' := by
  induction hlater with
  | refl => exact h
  | tail _ hmoves ih =>
      obtain ⟨answers, responses, hpoll⟩ := hmoves
      have hends := ih.poll hrange hparent answers responses
      rcases hpoll with hpoll | hpoll
      · rwa [hpoll] at hends
      · rwa [hpoll] at hends

end FetchFullBlockWithAncestorsFuture

/-! ## Writing the chain -/

/-- Linked headers are numbered by their distance below the block. -/
theorem FinalizedChain.number {block : Block} {ancestors : List SealedHeader}
    (h : FinalizedChain D blockHash count block ancestors)
    (hnumber : ∀ parent ∈ ancestors.head?, block.number = parent.number + 1) {i : ℕ}
    {header : SealedHeader} (hget : ancestors[i]? = some header) :
    header.number + (i + 1) = block.number := by
  induction i generalizing header with
  | zero =>
      rw [← List.head?_eq_getElem?] at hget
      exact (hnumber header hget).symm
  | succ i ih =>
      have hi := (List.getElem?_eq_some_iff.mp hget).1
      have hbefore := List.getElem?_eq_getElem (Nat.lt_of_succ_lt hi)
      have hstep := (h.linked i _ header hbefore hget).2
      have hchild := ih hbefore
      omega

/-- **The handler writes each ancestor at its height.** -/
theorem FinalizedChain.writes {X : Externals} (tree : EngineTree X) {block : Block}
    {ancestors : List SealedHeader} (h : FinalizedChain D blockHash count block ancestors)
    (hnumber : ∀ parent ∈ ancestors.head?, block.number = parent.number + 1) :
    WritesAncestors tree (ConsensusEngine.insertFinalized tree block ancestors)
      block ancestors := by
  have hbelow : ∀ (k : ℕ) (header : SealedHeader),
      (block.toSealedHeader :: ancestors)[k]? = some header → header.number + k = block.number := by
    intro k header hget
    match k with
    | 0 =>
        obtain rfl := Option.some.inj hget
        rfl
    | k + 1 => exact h.number hnumber hget
  -- headers with one number stand at one place
  have hsame : ∀ header ∈ block.toSealedHeader :: ancestors,
      ∀ header' ∈ block.toSealedHeader :: ancestors, header'.number = header.number →
        header'.hash = header.hash := by
    intro header hmem header' hmem' heq
    obtain ⟨i, hget⟩ := List.mem_iff_getElem?.mp hmem
    obtain ⟨j, hget'⟩ := List.mem_iff_getElem?.mp hmem'
    have hi := hbelow i header hget
    have hj := hbelow j header' hget'
    obtain rfl : i = j := by omega
    rw [Option.some.inj (hget.symm.trans hget')]
  have hwritten : ∀ header ∈ block.toSealedHeader :: ancestors,
      (ConsensusEngine.insertFinalized tree block ancestors).provider.canonicalHashesByNumber.get
        header.number = some header.hash := by
    intro header hmem
    rw [insertFinalized_canonical]
    exact FiniteMap.get_insertList_of_mem (fun header : SealedHeader => header.number)
      (fun header => header.hash) _ hmem (hsame header hmem)
  refine ⟨hwritten _ List.mem_cons_self, fun i header hget => ⟨h.number hnumber hget, ?_⟩,
    fun number hnone => ?_⟩
  · exact hwritten header (List.mem_cons_of_mem _ (List.mem_of_getElem? hget))
  · rw [insertFinalized_canonical]
    exact FiniteMap.get_insertList_of_forall_ne _ _ number _ _ hnone

/-! ## The whole download -/

/-- **A finalized download yields a hash-linked chain**, and the handler writes each of
its headers at its height. -/
theorem finalizedDownload (hrange : D.ChecksRange) (hparent : D.ChecksParent)
    {future : FetchFullBlockWithAncestorsFuture}
    (hlater : FetchFullBlockWithAncestorsFuture.Later D (.new retryDelay blockHash count) future)
    {answers : List (PartAnswers D)} {responses : List D.HeadersResponse} {block : Block}
    {ancestors : List SealedHeader}
    (hready : future.poll D answers responses = .ready block ancestors) :
    FinalizedChain D blockHash count block ancestors ∧
      ((∀ parent ∈ ancestors.head?, block.number = parent.number + 1) →
        ∀ {X : Externals} (tree : EngineTree X), WritesAncestors tree
          (ConsensusEngine.insertFinalized tree block ancestors) block ancestors) := by
  have h := (FetchFullBlockWithAncestorsFuture.downloading_new D retryDelay blockHash count).later
    hrange hparent hlater
  have hends := h.poll hrange hparent answers responses
  rw [hready] at hends
  exact ⟨hends, fun hnumber _ tree => hends.writes tree hnumber⟩

namespace SmallWorld

/-- Block 3 is downloaded with two ancestors: the body does not come at first, a
response with one header is too short, and one in rising order begins with another
hash. -/
theorem finalizedDownload_of_retries :
    FinalizedChain downloads 3 2 (block 3 2 2) [header 2 1 1, header 1 0 0] ∧
      ((∀ parent ∈ [header 2 1 1, header 1 0 0].head?, (block 3 2 2).number = parent.number + 1) →
        ∀ {X : Externals} (tree : EngineTree X), WritesAncestors tree
          (ConsensusEngine.insertFinalized tree (block 3 2 2) [header 2 1 1, header 1 0 0])
          (block 3 2 2) [header 2 1 1, header 1 0 0]) := by
  have hready : (FetchFullBlockWithAncestorsFuture.new 5 3 2).poll downloads
      [⟨some (.ok (some (header 3 2 2))), some (.ok none)⟩, ⟨none, some (.ok (some []))⟩]
      [.ok [header 2 1 1], .ok [header 1 0 0, header 2 1 1], .ok [header 2 1 1, header 1 0 0]]
      = .ready (block 3 2 2) [header 2 1 1, header 1 0 0] := rfl
  exact finalizedDownload downloads_checksRange downloads_checksParent .refl hready

end SmallWorld

end ZkRess
