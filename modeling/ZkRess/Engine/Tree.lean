import ZkRess.Engine.BlockBuffer
import ZkRess.Engine.Externals

/-!
# The engine tree

The consensus engine tree of `tree/mod.rs`: it stores and validates blocks,
keeps those that cannot be executed yet in the block buffer, and advances the
canonical head.

State is passed explicitly.  A method that mutates the tree returns the new tree
next to its result, also when the result is an error, because the code keeps
what it changed before the error.  Three loops are bounded by a number of rounds
that the data give: the ancestor walks of `on_new_head` by a difference of block
numbers, its walk to the fork point, `is_fork` and the walk through the
invalid-header cache by the number of stored entries.

Logging, metrics and clocks are dropped; the events sent to the node are kept as
a log.
-/

namespace ZkRess

open Foundation

/-! ## Outcomes -/

/-- The download request. -/
inductive DownloadRequest
  | block (blockHash : B256)
  | proof (blockHash : B256)
  /-- Finalized block with ancestors. -/
  | finalized (blockHash : B256)
  deriving DecidableEq, Repr

/-- The actions that can be performed on the tree. -/
inductive TreeAction
  | makeCanonical (syncTargetHead : B256)
  deriving DecidableEq, Repr

/-- Events that are triggered by the tree. -/
inductive TreeEvent
  | treeAction (action : TreeAction)
  | download (request : DownloadRequest)
  deriving DecidableEq, Repr

namespace TreeEvent

def downloadProof (blockHash : B256) : TreeEvent := .download (.proof blockHash)

def downloadBlock (blockHash : B256) : TreeEvent := .download (.block blockHash)

def downloadFinalized (blockHash : B256) : TreeEvent := .download (.finalized blockHash)

def makeCanonical (syncTargetHead : B256) : TreeEvent := .treeAction (.makeCanonical syncTargetHead)

/-- The hash of a proof download. -/
def asProofDownload : TreeEvent → Option B256
  | .download (.proof blockHash) => some blockHash
  | _ => none

end TreeEvent

/-- The outcome of a tree operation, with an optional event for the caller. -/
structure TreeOutcome (T : Type) where
  outcome : T
  event : Option TreeEvent
  deriving DecidableEq, Repr

namespace TreeOutcome

/-- `TreeOutcome::new`. -/
def new {T : Type} (outcome : T) : TreeOutcome T := ⟨outcome, none⟩

def withEvent {T : Type} (outcome : TreeOutcome T) (event : TreeEvent) : TreeOutcome T :=
  { outcome with event := some event }

end TreeOutcome

/-- Block inclusion: valid, waiting for an ancestor, or waiting for a proof. -/
inductive BlockStatus
  | valid
  | disconnected (head missingAncestor : BlockNumHash)
  | noProof
  deriving DecidableEq, Repr

/-- How a payload was inserted if it was valid. -/
inductive InsertPayloadOk
  | alreadySeen
  | inserted (status : BlockStatus)
  deriving DecidableEq, Repr

/-- The headers that lead to a new head, the head last. -/
structure HeadChain where
  headers : List SealedHeader
  nonempty : headers ≠ []

/-- The chain to make canonical. -/
inductive NewCanonicalChain
  /-- A simple append to the current canonical head. -/
  | commit (new : HeadChain)
  /-- Two chains that trace back to a shared ancestor. -/
  | reorg (new : HeadChain) (old : List SealedHeader)

namespace NewCanonicalChain

/-- All headers of the new chain. -/
def new : NewCanonicalChain → HeadChain
  | .commit new => new
  | .reorg new _ => new

/-- All headers of the old chain; none for a commit. -/
def old : NewCanonicalChain → List SealedHeader
  | .commit _ => []
  | .reorg _ old => old

/-- The new tip of the chain. -/
def tip (chain : NewCanonicalChain) : SealedHeader :=
  chain.new.headers.getLast chain.new.nonempty

end NewCanonicalChain

/-- Outgoing events that are emitted to the node. -/
inductive BeaconConsensusEngineEvent
  | forkBlockAdded (block : Block)
  | canonicalBlockAdded (block : Block)
  | canonicalChainCommitted (tip : SealedHeader)
  | forkchoiceUpdated (state : ForkchoiceState) (status : ForkchoiceStatus)
  deriving DecidableEq, Repr

/-- Consensus engine tree. -/
structure EngineTree (X : Externals) where
  provider : ChainState X.Proof
  /-- Current canonical head. -/
  canonicalHead : BlockNumHash
  /-- Tracks the fork-choice state updates received. -/
  forkchoiceStateTracker : X.forkchoiceStateTracker.State
  /-- Pending block buffer. -/
  blockBuffer : BlockBuffer X.Proof
  /-- Invalid headers. -/
  invalidHeaders : X.invalidHeaderCache.State
  /-- The events emitted so far. -/
  events : List BeaconConsensusEngineEvent

namespace EngineTree

variable {X : Externals}

/-- Create new engine tree on a provider, with the genesis block as head. -/
def new (provider : ChainState X.Proof) (genesis : BlockNumHash) : EngineTree X where
  provider := provider
  canonicalHead := genesis
  forkchoiceStateTracker := X.forkchoiceStateTracker.default
  blockBuffer := .new 256
  invalidHeaders := X.invalidHeaderCache.new
  events := []

/-- The hash is the last received sync target. -/
def isSyncTargetHead (tree : EngineTree X) (blockHash : B256) : Bool :=
  match X.forkchoiceStateTracker.syncTargetState tree.forkchoiceStateTracker with
  | some target => target.headBlockHash = blockHash
  | none => false

/-- The block is either persisted or buffered. -/
def isBlockPersistedOrBuffered (tree : EngineTree X) (blockHash : B256) : Bool :=
  (tree.provider.sealedHeader blockHash).isSome || (tree.blockBuffer.blocks.get blockHash).isSome

/-- The walk of `is_fork`. -/
def isForkFrom (provider : ChainState X.Proof) (canonicalHead : BlockNumHash) : ℕ → B256 → Bool
  | 0, _ => true
  | n + 1, currentHash =>
      match provider.sealedHeader currentHash with
      | none => true
      | some currentBlock =>
          if currentBlock.hash = canonicalHead.hash then false
          -- we already passed the canonical head
          else if currentBlock.number ≤ canonicalHead.number then true
          else isForkFrom provider canonicalHead n currentBlock.parentHash

/-- Determines if the given block is part of a fork. -/
def isFork (tree : EngineTree X) (targetHash : B256) : Bool :=
  isForkFrom tree.provider tree.canonicalHead tree.provider.blocksByHash.card targetHash

/-- Emits an outgoing event. -/
def emitEvent (tree : EngineTree X) (event : BeaconConsensusEngineEvent) : EngineTree X :=
  { tree with events := tree.events ++ [event] }

/-- Set canonical head. -/
def setCanonicalHead (tree : EngineTree X) (head : BlockNumHash) : EngineTree X :=
  { tree with canonicalHead := head }

/-! ### Chain updates -/

/-- Walk `n` blocks back from a hash: the headers met, and the hash reached. -/
def gatherAncestors (provider : ChainState X.Proof) :
    ℕ → B256 → Option (List SealedHeader × B256)
  | 0, currentHash => some ([], currentHash)
  | n + 1, currentHash =>
      match provider.sealedHeader currentHash with
      | none => none
      | some header =>
          match gatherAncestors provider n header.parentHash with
          | none => none
          | some (headers, reached) => some (header :: headers, reached)

/-- Walk both chains at the same height until a common ancestor is reached: the
headers met on the old and on the new chain. -/
def walkToForkPoint (provider : ChainState X.Proof) :
    ℕ → B256 → B256 → Option (List SealedHeader × List SealedHeader)
  | 0, _, _ => none
  | n + 1, oldHash, currentHash =>
      if oldHash = currentHash then some ([], [])
      else
        match provider.sealedHeader oldHash, provider.sealedHeader currentHash with
        | some old, some current =>
            match walkToForkPoint provider n old.parentHash current.parentHash with
            | none => none
            | some (olds, currents) => some (old :: olds, current :: currents)
        | _, _ => none

/-- A chain of headers found by walking back from a head. -/
def HeadChain.ofWalk (head : SealedHeader) (below : List SealedHeader) : HeadChain :=
  ⟨(head :: below).reverse, by simp⟩

/-- The new chain for the given head; this also handles reorgs. -/
def onNewHead (tree : EngineTree X) (newHead : B256) : Option NewCanonicalChain :=
  match tree.provider.sealedHeader newHead with
  | none => none
  | some newHeadBlock =>
      let parent := newHeadBlock.parentNumHash
      -- walk back the new chain down to the height of the canonical head
      match gatherAncestors tree.provider (parent.number - tree.canonicalHead.number)
        parent.hash with
      | none => none
      | some (newChain, currentHash) =>
          if currentHash = tree.canonicalHead.hash then
            some (.commit (HeadChain.ofWalk newHeadBlock newChain))
          else
            -- walk back the canonical chain down to the height of the new one
            match gatherAncestors tree.provider (tree.canonicalHead.number - parent.number)
                tree.canonicalHead.hash with
            | none => none
            | some (oldChain, oldHash) =>
                match walkToForkPoint tree.provider (tree.provider.blocksByHash.card + 1) oldHash
                    currentHash with
                | none => none
                | some (olds, currents) =>
                    some (.reorg (HeadChain.ofWalk newHeadBlock (newChain ++ currents))
                      (oldChain ++ olds).reverse)

/-- Invoked when the canonical chain has been updated. -/
def onCanonicalChainUpdate (tree : EngineTree X) (update : NewCanonicalChain) : EngineTree X :=
  let tree := tree.setCanonicalHead update.tip.numHash
  let tree := { tree with
    provider := tree.provider.onChainUpdate update.new.headers update.old }
  tree.emitEvent (.canonicalChainCommitted update.tip)

/-- Attempts to make the given target canonical. -/
def makeCanonical (tree : EngineTree X) (target : B256) : EngineTree X :=
  match tree.onNewHead target with
  | some chainUpdate => tree.onCanonicalChainUpdate chainUpdate
  | none => tree

/-! ### Invalid ancestors -/

/-- The parent hash of the lowest buffered ancestor; without one, the hash. -/
def lowestBufferedAncestorOr (tree : EngineTree X) (hash : B256) : B256 :=
  match tree.blockBuffer.lowestAncestor hash with
  | some block => block.parentHash
  | none => hash

/-- The walk over ancestors in the invalid cache, until the first valid one. -/
def latestValidHashFrom (provider : ChainState X.Proof) :
    ℕ → BlockWithParent → X.invalidHeaderCache.State → Option B256 × X.invalidHeaderCache.State
  | 0, _, cache => (none, cache)
  | n + 1, blockWithParent, cache =>
      let currentHash := blockWithParent.parent
      match X.invalidHeaderCache.get cache currentHash with
      | (some currentBlock, cache) => latestValidHashFrom provider n currentBlock cache
      | (none, cache) =>
          if (provider.sealedHeader currentHash).isSome then (some currentHash, cache)
          else (none, cache)

/-- The latest valid ancestor of an invalid payload with the given parent. -/
def latestValidHashForInvalidPayload (tree : EngineTree X) (parentHash : B256) :
    Option B256 × EngineTree X :=
  if (tree.provider.sealedHeader parentHash).isSome then (some parentHash, tree)
  else
    match X.invalidHeaderCache.get tree.invalidHeaders parentHash with
    | (none, cache) => (none, { tree with invalidHeaders := cache })
    | (some currentBlock, cache) =>
        let (hash, cache) := latestValidHashFrom tree.provider
          ((X.invalidHeaderCache.contents tree.invalidHeaders).keys.card + 1) currentBlock cache
        (hash, { tree with invalidHeaders := cache })

/-- `PayloadValidationError::LinksToRejectedPayload`, as text. -/
def linksToRejectedPayload : String := "links to previously rejected block"

/-- Prepares the invalid payload response for the given hash. -/
def prepareInvalidResponse (tree : EngineTree X) (parentHash : B256) :
    PayloadStatus × EngineTree X :=
  -- the latest valid hash is zero if the parent is the terminal proof-of-work block
  let parentHash := match tree.provider.sealedHeader parentHash with
    | some parent => if parent.difficulty ≠ 0 then 0 else parentHash
    | none => parentHash
  let (validParentHash, tree) := tree.latestValidHashForInvalidPayload parentHash
  (⟨.invalid linksToRejectedPayload, some (validParentHash.getD 0)⟩, tree)

/-- Checks if the `check` hash points to an invalid header, inserting the given
`head` block into the invalid header cache if it does. -/
def checkInvalidAncestorWithHead (tree : EngineTree X) (check head : B256) :
    Option PayloadStatus × EngineTree X :=
  match X.invalidHeaderCache.get tree.invalidHeaders check with
  | (none, cache) => (none, { tree with invalidHeaders := cache })
  | (some header, cache) =>
      let (status, tree) :=
        { tree with invalidHeaders := cache }.prepareInvalidResponse header.parent
      (some status, { tree with
        invalidHeaders :=
          X.invalidHeaderCache.insertWithInvalidAncestor tree.invalidHeaders head header })

/-- Checks if the given `head` points to an invalid header. -/
def checkInvalidAncestor (tree : EngineTree X) (head : B256) :
    Option PayloadStatus × EngineTree X :=
  match X.invalidHeaderCache.get tree.invalidHeaders head with
  | (none, cache) => (none, { tree with invalidHeaders := cache })
  | (some header, cache) =>
      let (status, tree) :=
        { tree with invalidHeaders := cache }.prepareInvalidResponse header.parent
      (some status, tree)

/-! ### Inserting blocks -/

/-- Validate if block is correct and satisfies all the consensus rules that
concern the header and block body itself. -/
def validateBlock (X : Externals) (block : Block) : Except ConsensusError Unit :=
  match X.validateHeader block.toSealedHeader with
  | .error error => .error error
  | .ok () => X.validateBlockPreExecution block

/-- How `insert_block` maps the errors of the verifier. -/
def insertErrorKind : VerifierError → InsertBlockErrorKind
  | .consensus error => .consensus error
  | .execution error => .execution error
  | .provider error => .provider error
  | .other message => .other message

/-- Insert block into the tree. -/
def insertBlock (tree : EngineTree X) (block : Block) (maybeProof : Option X.Proof) :
    Except InsertBlockErrorKind InsertPayloadOk × EngineTree X :=
  if (tree.provider.sealedHeader block.hash).isSome then (.ok .alreadySeen, tree)
  else
    match validateBlock X block with
    | .error error => (.error (.consensus error), tree)
    | .ok () =>
        match tree.provider.sealedHeader block.parentHash with
        | none =>
            -- buffer the block and find the missing parent block
            let missingAncestor := match tree.blockBuffer.lowestAncestor block.parentHash with
              | some ancestor => ancestor.parentNumHash
              | none => block.parentNumHash
            let blockBuffer := match maybeProof with
              | some proof => tree.blockBuffer.insertProof block.hash proof
              | none => tree.blockBuffer
            (.ok (.inserted (.disconnected tree.canonicalHead missingAncestor)),
              { tree with blockBuffer := blockBuffer.insertBlock block })
        | some parent =>
            match maybeProof with
            | none =>
                (.ok (.inserted .noProof),
                  { tree with blockBuffer := tree.blockBuffer.insertBlock block })
            | some proof =>
                match X.verify tree.provider block parent proof with
                | .error error => (.error (insertErrorKind error), tree)
                | .ok () =>
                    let tree :=
                      { tree with provider := tree.provider.insertBlock block (some proof) }
                    let event := if tree.isFork block.hash then
                        BeaconConsensusEngineEvent.forkBlockAdded block
                      else .canonicalBlockAdded block
                    (.ok (.inserted .valid), tree.emitEvent event)

/-- Handles an error that occurred while inserting a block: a validation error
marks the block as invalid, any other is fatal. -/
def onInsertBlockError (tree : EngineTree X) (block : Block) (error : InsertBlockErrorKind) :
    Except InsertBlockFatalError PayloadStatus × EngineTree X :=
  match X.ensureValidationError error with
  | .error fatal => (.error fatal, tree)
  | .ok validationErr =>
      let (latestValidHash, tree) := tree.latestValidHashForInvalidPayload block.parentHash
      -- keep track of the invalid header
      let tree := { tree with
        invalidHeaders := X.invalidHeaderCache.insert tree.invalidHeaders block.blockWithParent }
      (.ok ⟨.invalid validationErr.message, latestValidHash⟩, tree)

/-- The loop of `try_connect_buffered_blocks` over the blocks taken out of the
buffer; it ends at the first fatal error. -/
def connectBlocks : List (Block × X.Proof) → EngineTree X →
    Except InsertBlockFatalError Unit × EngineTree X
  | [], tree => (.ok (), tree)
  | (child, proof) :: blocks, tree =>
      match tree.insertBlock child (some proof) with
      | (.ok result, tree) =>
          let tree := if tree.isSyncTargetHead child.hash && result = .inserted .valid then
              tree.makeCanonical child.hash
            else tree
          connectBlocks blocks tree
      | (.error kind, tree) =>
          match tree.onInsertBlockError child kind with
          | (.error fatal, tree) => (.error fatal, tree)
          | (.ok _, tree) => connectBlocks blocks tree

/-- Attempts to connect any buffered blocks that are connected to the given
parent hash. -/
def tryConnectBufferedBlocks (σ : SetOrder B256) (tree : EngineTree X) (parentHash : B256) :
    Except InsertBlockFatalError Unit × EngineTree X :=
  let (blocks, blockBuffer) := tree.blockBuffer.removeBlockWithChildren σ parentHash
  connectBlocks blocks { tree with blockBuffer }

/-! ### Handlers -/

/-- The latest valid hash reported for a payload that is not well formed. -/
def malformedLatestValidHash (tree : EngineTree X) (parentHash : B256) (error : PayloadError) :
    Option B256 × EngineTree X :=
  if error.isBlockHashMismatch || error.isInvalidVersionedHashes then (none, tree)
  else tree.latestValidHashForInvalidPayload parentHash

/-- Handler for new payload message. -/
def onNewPayload (σ : SetOrder B256) (tree : EngineTree X) (payload : ExecutionData)
    (maybeProof : Option X.Proof) :
    Except InsertBlockFatalError (TreeOutcome PayloadStatus) × EngineTree X :=
  match X.ensureWellFormedPayload payload with
  | .error error =>
      let (latestValidHash, tree) := tree.malformedLatestValidHash payload.parentHash error
      (.ok (.new ⟨.invalid error.message, latestValidHash⟩), tree)
  | .ok block =>
      let lowestBufferedAncestor := tree.lowestBufferedAncestorOr block.hash
      let lowestBufferedAncestor :=
        if lowestBufferedAncestor = block.hash then block.parentHash else lowestBufferedAncestor
      -- now check the block itself
      match tree.checkInvalidAncestorWithHead lowestBufferedAncestor block.hash with
      | (some status, tree) => (.ok (.new status), tree)
      | (none, tree) =>
          match tree.insertBlock block maybeProof with
          | (.ok (.inserted .valid), tree) | (.ok .alreadySeen, tree) =>
              match tryConnectBufferedBlocks σ tree block.hash with
              | (.error fatal, tree) => (.error fatal, tree)
              | (.ok (), tree) =>
                  let event := if tree.isSyncTargetHead block.hash then
                      some (TreeEvent.makeCanonical block.hash)
                    else none
                  (.ok ⟨⟨.valid, some block.hash⟩, event⟩, tree)
          | (.ok (.inserted (.disconnected _ missingAncestor)), tree) =>
              (.ok ⟨⟨.syncing, none⟩, some (.downloadBlock missingAncestor.hash)⟩, tree)
          | (.ok (.inserted .noProof), tree) =>
              (.ok ⟨⟨.syncing, none⟩, some (.downloadProof block.hash)⟩, tree)
          | (.error kind, tree) =>
              match tree.onInsertBlockError block kind with
              | (.error fatal, tree) => (.error fatal, tree)
              | (.ok status, tree) => (.ok (.new status), tree)

/-- Invoked with a block downloaded from the network. -/
def onDownloadedBlock (σ : SetOrder B256) (tree : EngineTree X) (block : Block)
    (proof : X.Proof) :
    Except InsertBlockFatalError (TreeOutcome PayloadStatus) × EngineTree X :=
  match tree.checkInvalidAncestorWithHead (tree.lowestBufferedAncestorOr block.hash)
      block.hash with
  | (some status, tree) => (.ok (.new status), tree)
  | (none, tree) =>
      match tree.insertBlock block (some proof) with
      | (.ok (.inserted .valid), tree) =>
          let event := if tree.isSyncTargetHead block.hash then
              some (TreeEvent.makeCanonical block.hash)
            else none
          match tryConnectBufferedBlocks σ tree block.hash with
          | (.error fatal, tree) => (.error fatal, tree)
          | (.ok (), tree) => (.ok ⟨⟨.valid, some block.hash⟩, event⟩, tree)
      | (.ok .alreadySeen, tree) => (.ok (.new ⟨.valid, some block.hash⟩), tree)
      | (.ok (.inserted (.disconnected _ missingAncestor)), tree) =>
          (.ok ⟨⟨.syncing, none⟩, some (.downloadBlock missingAncestor.hash)⟩, tree)
      | (.ok (.inserted .noProof), tree) =>
          (.ok ⟨⟨.syncing, none⟩, some (.downloadProof block.hash)⟩, tree)
      | (.error kind, tree) =>
          match tree.onInsertBlockError block kind with
          | (.error fatal, tree) => (.error fatal, tree)
          | (.ok status, tree) => (.ok (.new status), tree)

/-! ### Fork choice -/

/-- Pre-validate forkchoice update and check whether it can be processed. -/
def preValidateForkchoiceUpdate (tree : EngineTree X) (state : ForkchoiceState) :
    Option OnForkChoiceUpdated × EngineTree X :=
  if state.headBlockHash = 0 then (some .invalidState, tree)
  else
    match tree.checkInvalidAncestor (tree.lowestBufferedAncestorOr state.headBlockHash) with
    | (some status, tree) => (some (.withInvalid status), tree)
    | (none, tree) => (none, tree)

/-- Ensures that the given forkchoice state is consistent, assuming the head
block has been made canonical. -/
def ensureConsistentForkchoiceState (tree : EngineTree X) (state : ForkchoiceState) :
    Except OnForkChoiceUpdated Unit :=
  if state.finalizedBlockHash ≠ 0 ∧ ¬tree.provider.isHashCanonical state.finalizedBlockHash then
    .error .invalidState
  else if state.safeBlockHash ≠ 0 ∧ ¬tree.provider.isHashCanonical state.safeBlockHash then
    .error .invalidState
  else .ok ()

/-- Validates the payload attributes with respect to the header and fork choice
state. -/
def validatePayloadAttributes (X : Externals) (attrs : PayloadAttributes) (head : Header)
    (state : ForkchoiceState) (version : UInt8) : Option OnForkChoiceUpdated :=
  if ¬X.validatePayloadAttributesAgainstHeader attrs head then some .invalidPayloadAttributes
  else if ¬X.payloadBuilderAttributesTryNew state.headBlockHash attrs version then
    some .invalidPayloadAttributes
  else none

/-- The sync target of a fork-choice update that cannot be applied. -/
def syncDownload (tree : EngineTree X) (state : ForkchoiceState) : Option TreeEvent :=
  if state.finalizedBlockHash ≠ 0 ∧
      ¬tree.isBlockPersistedOrBuffered state.finalizedBlockHash then
    some (.downloadFinalized state.finalizedBlockHash)
  else
    let target :=
      if state.safeBlockHash ≠ 0 ∧ ¬tree.isBlockPersistedOrBuffered state.safeBlockHash then
        state.safeBlockHash
      else state.headBlockHash
    let target := tree.lowestBufferedAncestorOr target
    if target ≠ state.finalizedBlockHash ∧ ¬tree.isBlockPersistedOrBuffered target then
      some (.downloadBlock target)
    else none

/-- Handle forkchoice update. -/
def onForkchoiceUpdated (σ : SetOrder B256) (tree : EngineTree X) (state : ForkchoiceState)
    (payloadAttrs : Option PayloadAttributes) (version : UInt8) :
    Except ProviderError (TreeOutcome OnForkChoiceUpdated) × EngineTree X :=
  match tree.preValidateForkchoiceUpdate state with
  | (some onUpdated, tree) => (.ok (.new onUpdated), tree)
  | (none, tree) =>
      let valid : TreeOutcome OnForkChoiceUpdated :=
        .new (.valid ⟨.valid, some state.headBlockHash⟩)
      -- 1. ensure we have a new head block
      if tree.canonicalHead.hash = state.headBlockHash then
        match tree.ensureConsistentForkchoiceState state with
        | .error outcome => (.ok (.new outcome), tree)
        | .ok () =>
            match payloadAttrs with
            | none => (.ok valid, tree)
            | some attr =>
                match tree.provider.sealedHeader tree.canonicalHead.hash with
                | none => (.error (.headerNotFound state.headBlockHash), tree)
                | some tip =>
                    match validatePayloadAttributes X attr tip.toHeader state version with
                    | some status => (.ok (.new status), tree)
                    | none => (.ok valid, tree)
      else
        match tree.onNewHead state.headBlockHash with
        -- 2. ensure we can apply a new chain update for the head block
        | some chainUpdate =>
            let tip := chainUpdate.tip
            let tree := tree.onCanonicalChainUpdate chainUpdate
            match tree.ensureConsistentForkchoiceState state with
            | .error outcome => (.ok (.new outcome), tree)
            | .ok () =>
                -- clean up blocks from in-memory state and buffer
                let tree :=
                  { tree with provider := tree.provider.onFinalized state.finalizedBlockHash }
                let tree := match tree.provider.blockNumber state.finalizedBlockHash with
                  | some finalizedNumber =>
                      { tree with
                        blockBuffer := tree.blockBuffer.evictOldBlocks σ finalizedNumber }
                  | none => tree
                match payloadAttrs with
                | none => (.ok valid, tree)
                | some attr =>
                    match validatePayloadAttributes X attr tip.toHeader state version with
                    | some status => (.ok (.new status), tree)
                    | none => (.ok valid, tree)
        | none =>
            -- 3. check if the head is already part of the canonical chain
            match tree.provider.sealedHeader state.headBlockHash with
            | some _ => (.ok valid, tree)
            -- 4. we don't have the block to perform the update
            | none =>
                (.ok ⟨.valid ⟨.syncing, none⟩, tree.syncDownload state⟩, tree)

end EngineTree

end ZkRess
