import ZkRess.Engine.Downloader
import ZkRess.Engine.Tree

/-!
# The consensus engine

`ConsensusEngine` of `engine.rs`: it routes beacon-engine messages and download
outcomes to the tree, carries out the events the tree returns, and parks a
payload whose proof is missing.

A reply channel is known by a number, and sending on it appends to a log of
responses.  `poll` is one round of the loop of `ConsensusEngine::poll`; what the
outside offers in that round — answers of the futures in flight, the timeout of
the parked payload, the next message — is its input, and it reports what it
processed.
-/

namespace ZkRess

open Foundation

/-- The result sent for a new payload. -/
abbrev PayloadResult := Except InsertBlockFatalError PayloadStatus

/-- The result sent for a fork-choice update. -/
abbrev ForkchoiceResult := Except ProviderError OnForkChoiceUpdated

/-- `BeaconEngineMessage`. -/
inductive BeaconEngineMessage
  | newPayload (payload : ExecutionData) (tx : ℕ)
  | forkchoiceUpdated (state : ForkchoiceState) (payloadAttrs : Option PayloadAttributes)
      (tx : ℕ) (version : UInt8)
  deriving DecidableEq, Repr

/-- A response sent on a reply channel. -/
inductive Response
  | payload (tx : ℕ) (result : PayloadResult)
  | forkchoice (tx : ℕ) (result : ForkchoiceResult)

/-- The payload waiting for its proof. -/
structure ParkedPayload where
  blockHash : B256
  tx : ℕ
  deriving DecidableEq, Repr

/-- Ress consensus engine. -/
structure ConsensusEngine (X : Externals) where
  tree : EngineTree X
  downloader : EngineDownloader X.Proof
  parkedPayload : Option ParkedPayload
  /-- The responses sent so far. -/
  responses : List Response

namespace ConsensusEngine

variable {X : Externals}

/-- Initialize consensus engine. -/
def new (provider : ChainState X.Proof) (genesis : BlockNumHash) : ConsensusEngine X where
  tree := .new provider genesis
  downloader := .new
  parkedPayload := none
  responses := []

/-- The provider of a launched node: the genesis block, inserted and canonical. -/
def launchProvider {P : Type} (genesis : Block) : ChainState P :=
  (ChainState.empty.insertBlock genesis none).insertCanonicalHash 0 genesis.hash

/-- The engine of a launched node. -/
def launch (X : Externals) (genesis : Block) : ConsensusEngine X :=
  .new (launchProvider genesis) genesis.numHash

/-- Send a response for a new payload. -/
def sendPayload (engine : ConsensusEngine X) (tx : ℕ) (result : PayloadResult) :
    ConsensusEngine X :=
  { engine with responses := engine.responses ++ [.payload tx result] }

/-- Send a response for a fork-choice update. -/
def sendForkchoice (engine : ConsensusEngine X) (tx : ℕ) (result : ForkchoiceResult) :
    ConsensusEngine X :=
  { engine with responses := engine.responses ++ [.forkchoice tx result] }

def onTreeEvent (engine : ConsensusEngine X) : TreeEvent → ConsensusEngine X
  | .download (.block blockHash) =>
      let downloader := engine.downloader.downloadFullBlock blockHash
      let downloader := if (engine.tree.blockBuffer.proofs.get blockHash).isSome then downloader
        else downloader.downloadProof blockHash
      { engine with downloader }
  | .download (.proof blockHash) =>
      { engine with downloader := engine.downloader.downloadProof blockHash }
  | .download (.finalized blockHash) =>
      { engine with downloader := engine.downloader.downloadFinalizedWithAncestors blockHash }
  | .treeAction (.makeCanonical syncTargetHead) =>
      { engine with tree := engine.tree.makeCanonical syncTargetHead }

def onMaybeTreeEvent (engine : ConsensusEngine X) : Option TreeEvent → ConsensusEngine X
  | some event => engine.onTreeEvent event
  | none => engine

/-- The result of a tree operation without its event. -/
def payloadResult (result : Except InsertBlockFatalError (TreeOutcome PayloadStatus)) :
    PayloadResult :=
  result.map TreeOutcome.outcome

/-- The event of a tree operation that succeeded. -/
def resultEvent {T : Type} {E : Type} : Except E (TreeOutcome T) → Option TreeEvent
  | .ok outcome => outcome.event
  | .error _ => none

/-- The loop body of `on_download_outcome` for one unlocked hash: a block that
has both parts now is inserted, and a payload parked for it is answered. -/
def onUnlockedHash (σ : SetOrder B256) (engine : ConsensusEngine X) (unlockedHash : B256) :
    ConsensusEngine X :=
  match engine.tree.blockBuffer.removeBlock unlockedHash with
  | (none, blockBuffer) => { engine with tree := { engine.tree with blockBuffer } }
  | (some (block, witness), blockBuffer) =>
      let (result, tree) := EngineTree.onDownloadedBlock σ { engine.tree with blockBuffer } block
        witness
      let engine := { engine with tree }.onMaybeTreeEvent (resultEvent result)
      match engine.parkedPayload with
      | none => engine
      | some parked =>
          if parked.blockHash = block.hash then
            { engine with parkedPayload := none }.sendPayload parked.tx (payloadResult result)
          else engine

/-- What a finalized block with its ancestors does to the tree: it becomes the
canonical head, unverified. -/
def insertFinalized (tree : EngineTree X) (block : Block) (ancestors : List SealedHeader) :
    EngineTree X :=
  let tree := tree.setCanonicalHead block.numHash
  let provider := tree.provider.insertCanonicalHash block.number block.hash
  let provider := provider.insertBlock block none
  let provider := ancestors.foldl
    (fun provider header => provider.insertCanonicalHash header.number header.hash) provider
  { tree with provider }

def onDownloadOutcome (σ : SetOrder B256) (engine : ConsensusEngine X) :
    DownloadData X.Proof → Except InsertBlockFatalError Unit × ConsensusEngine X
  | .finalizedBlock block ancestors =>
      if X.tryRecover block then
        let engine := { engine with tree := insertFinalized engine.tree block ancestors }
        (.ok (), engine.onUnlockedHash σ block.hash)
      else (.error (.provider .senderRecoveryError), engine)
  | .fullBlock block =>
      if X.tryRecover block then
        let engine := { engine with
          tree := { engine.tree with blockBuffer := engine.tree.blockBuffer.insertBlock block } }
        (.ok (), engine.onUnlockedHash σ block.hash)
      else (.ok (), engine)
  | .proof blockHash witness =>
      let engine := { engine with
        tree := { engine.tree with
          blockBuffer := engine.tree.blockBuffer.insertProof blockHash witness } }
      (.ok (), engine.onUnlockedHash σ blockHash)

/-- The hash a payload is parked for: a proof download of a syncing answer. -/
def parkingHash (outcome : TreeOutcome PayloadStatus) (event : TreeEvent) : Option B256 :=
  event.asProofDownload.filter fun _ => outcome.outcome.isSyncing

def onEngineMessage (σ : SetOrder B256) (engine : ConsensusEngine X) :
    BeaconEngineMessage → ConsensusEngine X
  | .newPayload payload tx =>
      let (maybeProof, blockBuffer) := engine.tree.blockBuffer.removeProof payload.blockHash
      let (result, tree) :=
        EngineTree.onNewPayload σ { engine.tree with blockBuffer } payload maybeProof
      let engine := { engine with tree }
      match result with
      | .error fatal => engine.sendPayload tx (.error fatal)
      | .ok outcome =>
          match outcome.event with
          | none => engine.sendPayload tx (.ok outcome.outcome)
          | some event =>
              let engine := engine.onTreeEvent event
              match parkingHash outcome event with
              | some blockHash => { engine with parkedPayload := some ⟨blockHash, tx⟩ }
              | none =>
                  let engine := if maybeProof.isSome then engine
                    else engine.onTreeEvent (.downloadProof payload.blockHash)
                  engine.sendPayload tx (.ok outcome.outcome)
  | .forkchoiceUpdated state payloadAttrs tx version =>
      let (result, tree) := EngineTree.onForkchoiceUpdated σ engine.tree state payloadAttrs version
      let engine := { engine with tree }
      let engine := match result with
        | .error _ => engine
        | .ok outcome =>
            -- track last received forkchoice state
            let status := X.forkchoiceStatus outcome.outcome
            let tree := { engine.tree with
              forkchoiceStateTracker :=
                X.forkchoiceStateTracker.setLatest engine.tree.forkchoiceStateTracker state status }
            let tree := tree.emitEvent (.forkchoiceUpdated state status)
            { engine with tree }.onMaybeTreeEvent outcome.event
      engine.sendForkchoice tx (result.map TreeOutcome.outcome)

/-- The parked payload is answered when it has waited too long. -/
def onParkedTimeout (engine : ConsensusEngine X) (parked : ParkedPayload) : ConsensusEngine X :=
  { engine with parkedPayload := none }.sendPayload parked.tx (.ok ⟨.syncing, none⟩)

/-! ## Polling -/

/-- What the outside offers to one round of the loop. -/
structure PollInput (X : Externals) where
  answers : DownloadAnswers X.Proof
  /-- The timeout of the parked payload has elapsed. -/
  timeoutElapsed : Bool
  /-- The next message, if the stream has one. -/
  message : Option BeaconEngineMessage
  /-- The order of the hash sets iterated in this round. -/
  order : SetOrder B256

/-- What a round processed, in order. -/
inductive Processed (P : Type)
  | outcome (data : DownloadData P)
  | timeout (parked : ParkedPayload)
  | message (message : BeaconEngineMessage)

/-- How a round ends. -/
inductive PollStatus
  /-- Go on with the next round. -/
  | continue
  /-- `Poll::Pending`. -/
  | pending
  /-- `Poll::Ready` with an error. -/
  | failed (error : InsertBlockFatalError)
  deriving DecidableEq, Repr

/-- The last part of a round: take the next message. -/
def pollMessage (input : PollInput X) (engine : ConsensusEngine X) :
    PollStatus × List (Processed X.Proof) × ConsensusEngine X :=
  match input.message with
  | some message => (.continue, [.message message], engine.onEngineMessage input.order message)
  | none => (.pending, [], engine)

/-- One round of the loop: a download outcome first, then the timeout of the
parked payload, then a message. -/
def poll (input : PollInput X) (engine : ConsensusEngine X) :
    PollStatus × List (Processed X.Proof) × ConsensusEngine X :=
  let (outcome, downloader) := engine.downloader.poll input.answers
  let engine := { engine with downloader }
  match outcome with
  | some data =>
      match engine.onDownloadOutcome input.order data with
      | (.ok (), engine) => (.continue, [.outcome data], engine)
      | (.error fatal, engine) => (.failed fatal, [.outcome data], engine)
  | none =>
      match engine.parkedPayload with
      | none => pollMessage input engine
      | some parked =>
          if input.timeoutElapsed then
            let (status, processed, engine) := pollMessage input (engine.onParkedTimeout parked)
            (status, .timeout parked :: processed, engine)
          else (.pending, [], engine)

end ConsensusEngine

end ZkRess
