import ZkRess.Engine.NextBlock
import ZkRess.Properties.AnswerOrder
import ZkRess.Properties.BackwardSync

/-!
# Following the chain

The consensus client announces a chain block by block: for each block the payload, then the
choice of the block as the head.  The messages wait in a queue, from which the engine takes the
next one whenever it does not wait for a proof; the proofs come after any number of rounds.

Then each payload is parked until its proof is there, and answered with `Valid`; each choice is
a chain update of one block, and answered with `Valid`.  The engine is at one of three places in
the chain (`Following`): in sync with the blocks chosen so far, waiting for the proof of the
next block, or with that block imported and not yet chosen.
-/

namespace ZkRess

open Foundation EngineTree

variable {X : Externals} {feed : Feed X} {genesis : Block}

namespace ConsensusEngine

/-! ## Announcements -/

/-- **A block, as the consensus client announces it**: with its payload, and as the head of a
fork-choice state. -/
structure Announcement where
  block : Block
  payload : ExecutionData
  payloadTx : ℕ
  state : ForkchoiceState
  payloadAttrs : Option PayloadAttributes
  forkchoiceTx : ℕ
  version : UInt8

namespace Announcement

def newPayload (a : Announcement) : BeaconEngineMessage := .newPayload a.payload a.payloadTx

def forkchoiceUpdated (a : Announcement) : BeaconEngineMessage :=
  .forkchoiceUpdated a.state a.payloadAttrs a.forkchoiceTx a.version

/-- The messages, in their order. -/
def messages (a : Announcement) : List BeaconEngineMessage := [a.newPayload, a.forkchoiceUpdated]

/-- The response for the payload. -/
def imported (a : Announcement) : Response :=
  .payload a.payloadTx (.ok ⟨.valid, some a.block.hash⟩)

/-- The responses, in their order. -/
def responses (a : Announcement) : List Response :=
  [a.imported, .forkchoice a.forkchoiceTx (.ok (validHead a.state))]

/-- What is reported to the node. -/
def events (X : Externals) (a : Announcement) : List BeaconConsensusEngineEvent :=
  [.canonicalBlockAdded a.block, .canonicalChainCommitted a.block.toSealedHeader,
    .forkchoiceUpdated a.state (X.forkchoiceStatus (validHead a.state))]

end Announcement

/-- The hash is canonical at the number: it was so at the start, or it was announced since. -/
def Listed (start : EngineTree X) (done : List Announcement) (number : ℕ) (hash : B256) : Prop :=
  start.provider.canonicalHashesByNumber.get number = some hash ∨
    ∃ a ∈ done, a.block.number = number ∧ a.block.hash = hash

/-- The hash is zero, or canonical at most 256 blocks below the number. -/
def Recent (start : EngineTree X) (done : List Announcement) (number : ℕ) (hash : B256) : Prop :=
  hash = 0 ∨ ∃ n, Listed start done n hash ∧ number ≤ n + 256

/-- **An announcement the engine can follow**: the block is new and valid, and verified with each
of its proofs wherever its parent is stored. -/
structure Acceptable (feed : Feed X) (genesis : Block) (start : EngineTree X) (a : Announcement) :
    Prop where
  known : a.state ∈ feed.states
  fed : a.block ∈ feed.blocks
  wellFormed : X.ensureWellFormedPayload a.payload = .ok a.block
  payloadHash : a.block.hash = a.payload.blockHash
  chosen : a.state.headBlockHash = a.block.hash
  nonzero : a.block.hash ≠ 0
  attributes : ∀ attrs, a.payloadAttrs = some attrs →
    validatePayloadAttributes X attrs a.block.toHeader a.state a.version = none
  valid : validateBlock X a.block = .ok ()
  verified : ∀ trace engine, OrderedRun feed (launch X genesis) trace engine →
    ∀ parent, engine.tree.provider.sealedHeader a.block.parentHash = some parent →
      ∀ proof ∈ feed.proofs a.block.hash,
        X.verify engine.tree.provider a.block parent proof = .ok ()
  /-- Nothing of it is in the tree. -/
  fresh : ¬start.provider.Contains a.block.hash
  unmarked : start.Unmarked a.block.hash
  noBlock : start.blockBuffer.blocks.get a.block.hash = none
  noProof : start.blockBuffer.proofs.get a.block.hash = none

/-- **A chain that can be followed** from a state in which nothing is pending: its blocks rise
from the canonical head, and the finalized and safe block of each announcement are canonical and
not far below. -/
structure Followable (feed : Feed X) (genesis : Block) (start : ConsensusEngine X)
    (chain : List Announcement) (top : B256) : Prop where
  run : ∃ trace, OrderedRun feed (launch X genesis) trace start
  idle : start.downloader.Idle
  unparked : start.parkedPayload = none
  untargeted : X.forkchoiceStateTracker.syncTargetState start.tree.forkchoiceStateTracker = none
  rises : Rises start.tree.canonicalHead.hash (chain.map Announcement.block) top
  nodup : (chain.map fun a => a.block.hash).Nodup
  unmarkedHead : start.tree.Unmarked start.tree.canonicalHead.hash
  /-- No block waits with its proof, and there is room for one. -/
  noneReady : ∀ hash, ¬start.tree.blockBuffer.Removable hash
  room : start.tree.blockBuffer.blocks.card < start.tree.blockBuffer.lru.maxLength
  acceptable : ∀ a ∈ chain, Acceptable feed genesis start.tree a
  recent : ∀ done a rest, chain = done ++ a :: rest → ∀ hash,
    hash = a.state.finalizedBlockHash ∨ hash = a.state.safeBlockHash →
      Recent start.tree (done ++ [a]) a.block.number hash

/-! ## Rounds with a queue of messages -/

/-- The engine, and the messages it has not taken yet. -/
structure Node (X : Externals) where
  queue : List BeaconEngineMessage
  engine : ConsensusEngine X

namespace Node

/-- A poll is offered the first message of the queue. -/
def poll (node : Node X) (input : PollInput X) :
    PollStatus × List (Processed X.Proof) × ConsensusEngine X :=
  ConsensusEngine.poll { input with message := node.queue.head? } node.engine

/-- A round: a message that is processed is taken from the queue. -/
def round (node : Node X) (input : PollInput X) : Node X where
  queue := node.queue.drop (asked (node.poll input).2.1).length
  engine := (node.poll input).2.2

def rounds (node : Node X) (inputs : List (PollInput X)) : Node X := inputs.foldl round node

end Node

/-- **A prompt round**: the proofs in it are of the feed, and the parked payload has not waited
too long. -/
structure Prompt (feed : Feed X) (chain : List Announcement) (input : PollInput X) : Prop where
  inTime : input.timeoutElapsed = false
  honest : ∀ a ∈ chain, ∀ proof, input.answers.proof a.block.hash = some proof →
    proof ∈ feed.proofs a.block.hash

/-- The proof of each block of the chain is answered. -/
def proves (chain : List Announcement) (input : PollInput X) : Bool :=
  chain.all fun a => (input.answers.proof a.block.hash).isSome

/-! ## Places in the chain -/

/-- Of the blocks that are still to come there is nothing in the tree, and nothing else has
changed what is asked about them. -/
structure Undisturbed (start : EngineTree X) (rest : List Announcement) (tree : EngineTree X) :
    Prop where
  invalidHeaders : tree.invalidHeaders = start.invalidHeaders
  buffer : BlockBuffer.Sub tree.blockBuffer start.blockBuffer
  fresh : ∀ a ∈ rest, ¬tree.provider.Contains a.block.hash
  untargeted : X.forkchoiceStateTracker.syncTargetState tree.forkchoiceStateTracker = none

variable (feed genesis) in
/-- **In sync**: the last block done is the canonical head. -/
structure InSync (start : ConsensusEngine X) (chain : List Announcement) (top : B256)
    (done rest : List Announcement) (engine : ConsensusEngine X) : Prop where
  split : chain = done ++ rest
  run : ∃ trace, OrderedRun feed (launch X genesis) trace engine
  idle : engine.downloader.Idle
  unparked : engine.parkedPayload = none
  undisturbed : Undisturbed start.tree rest engine.tree
  unmarkedHead : start.tree.Unmarked engine.tree.canonicalHead.hash
  rises : Rises engine.tree.canonicalHead.hash (rest.map Announcement.block) top
  listed : ∀ n hash, Listed start.tree done n hash → engine.tree.canonicalHead.number ≤ n + 256 →
    engine.tree.provider.canonicalHashesByNumber.get n = some hash
  responses : engine.responses = start.responses ++ done.flatMap Announcement.responses
  events : engine.tree.events = start.tree.events ++ done.flatMap (Announcement.events X)

variable (feed genesis) in
/-- **Waiting for a proof**: the block is buffered, and its payload parked. -/
structure Awaiting (start : ConsensusEngine X) (chain : List Announcement) (top : B256)
    (done : List Announcement) (a : Announcement) (rest : List Announcement)
    (engine : ConsensusEngine X) : Prop where
  base : ∃ base, InSync feed genesis start chain top done (a :: rest) base ∧
    engine.tree = { base.tree with blockBuffer := base.tree.blockBuffer.insertBlock a.block } ∧
    engine.responses = base.responses
  run : ∃ trace, OrderedRun feed (launch X genesis) trace engine
  parked : engine.parkedPayload = some ⟨a.block.hash, a.payloadTx⟩
  pending : engine.downloader.pendingRequests = [(.proof, a.block.hash)]
  queued : ∀ data ∈ engine.downloader.outcomes,
    ∃ proof ∈ feed.proofs a.block.hash, data = .proof a.block.hash proof

variable (feed genesis) in
/-- **Imported**: the block is stored on the head, and its payload answered. -/
structure Imported (start : ConsensusEngine X) (chain : List Announcement) (top : B256)
    (done : List Announcement) (a : Announcement) (rest : List Announcement)
    (engine : ConsensusEngine X) : Prop where
  split : chain = done ++ a :: rest
  run : ∃ trace, OrderedRun feed (launch X genesis) trace engine
  idle : engine.downloader.Idle
  unparked : engine.parkedPayload = none
  undisturbed : Undisturbed start.tree rest engine.tree
  rises : Rises a.block.hash (rest.map Announcement.block) top
  onHead : engine.tree.OnHead a.block
  stored : engine.tree.provider.sealedHeader a.block.hash = some a.block.toSealedHeader
  other : engine.tree.canonicalHead.hash ≠ a.block.hash
  listed : ∀ n hash, Listed start.tree done n hash → engine.tree.canonicalHead.number ≤ n + 256 →
    engine.tree.provider.canonicalHashesByNumber.get n = some hash
  responses : engine.responses
    = start.responses ++ done.flatMap Announcement.responses ++ [a.imported]
  events : engine.tree.events = start.tree.events ++ done.flatMap (Announcement.events X)
    ++ [.canonicalBlockAdded a.block]

/-! ## One message, one proof -/

/-- A payload that was parked for a block is answered when the block is complete. -/
theorem onUnlockedHash_of_parked (σ : SetOrder B256) {engine : ConsensusEngine X}
    {parked : ParkedPayload} (isParked : engine.parkedPayload = some parked) {hash : B256}
    {block : Block} (own : parked.blockHash = block.hash) {proof : X.Proof}
    (hready : engine.tree.blockBuffer.Ready hash block proof)
    {result : Except InsertBlockFatalError (TreeOutcome PayloadStatus)} {tree' : EngineTree X}
    (hhandled : onDownloadedBlock σ (takeOut engine.tree hash block) block proof
      = (result, tree')) :
    engine.onUnlockedHash σ hash =
      { tree := tree'.carryOut (resultEvent result)
        downloader := engine.downloader.follow tree'.blockBuffer (resultEvent result)
        parkedPayload := none
        responses := engine.responses ++ [.payload parked.tx (payloadResult result)] } := by
  unfold onUnlockedHash
  rw [BlockBuffer.removeBlock_of_ready hready]
  simp only
  rw [show ({ engine.tree with blockBuffer := engine.tree.blockBuffer.drop hash block } :
    EngineTree X) = takeOut engine.tree hash block from rfl, hhandled]
  simp only [onMaybeTreeEvent_eq, isParked, own, if_true]
  rfl

/-- Without anything pending, a poll goes on to the messages. -/
theorem poll_of_idle {engine : ConsensusEngine X} (idle : engine.downloader.Idle)
    (unparked : engine.parkedPayload = none) (input : PollInput X) :
    poll input engine = pollMessage input engine := by
  have hnone : engine.downloader.poll input.answers = (none, engine.downloader) := by
    rw [idle.eq_new]
    rfl
  obtain ⟨tree, downloader, parkedPayload, responses⟩ := engine
  obtain rfl : parkedPayload = none := unparked
  unfold poll
  rw [hnone]

section Places

variable {start engine : ConsensusEngine X} {chain done rest : List Announcement}
  {a : Announcement} {top : B256}

omit feed in
/-- A block to come has another hash. -/
theorem Followable.ne_of_mem {feed : Feed X} (h : Followable feed genesis start chain top)
    (hsplit : chain = done ++ a :: rest) {b : Announcement} (hb : b ∈ rest) :
    b.block.hash ≠ a.block.hash := by
  have hnodup := h.nodup
  rw [hsplit, List.map_append, List.map_cons] at hnodup
  intro heq
  exact (List.nodup_cons.mp (List.nodup_append'.mp hnodup).2.1).1 (heq ▸ List.mem_map_of_mem hb)

/-- Nothing of the blocks to come is in the buffer, which has room. -/
theorem Undisturbed.untouched (hund : Undisturbed start.tree rest engine.tree)
    (h : Followable feed genesis start chain top) (hmem : a ∈ chain) :
    engine.tree.blockBuffer.blocks.get a.block.hash = none ∧
      engine.tree.blockBuffer.proofs.get a.block.hash = none ∧
      (∀ hash, ¬engine.tree.blockBuffer.Removable hash) ∧
      engine.tree.blockBuffer.blocks.card < engine.tree.blockBuffer.lru.maxLength ∧
      engine.tree.Unmarked a.block.hash := by
  have hacceptable := h.acceptable a hmem
  refine ⟨hund.buffer.get_eq_none hacceptable.noBlock,
    hund.buffer.proof_eq_none hacceptable.noProof,
    fun hash => hund.buffer.not_removable (h.noneReady hash), ?_, ?_⟩
  · rw [hund.buffer.lruLimit]
    exact Nat.lt_of_le_of_lt hund.buffer.card_le h.room
  · unfold EngineTree.Unmarked
    rw [hund.invalidHeaders]
    exact hacceptable.unmarked

variable (hgenesis : feed.IsGenesis genesis) (hlinked : feed.Linked) (hverifies : X.VerifiesNumber)
  (hsteady : X.invalidHeaderCache.Steady) (h : Followable feed genesis start chain top)

include hgenesis hlinked hverifies hsteady h

/-- **The payload of the next block is parked**, and the proof is asked for. -/
theorem InSync.announced (hsync : InSync feed genesis start chain top done (a :: rest) engine)
    (σ : SetOrder B256) :
    Awaiting feed genesis start chain top done a rest
      (engine.onEngineMessage σ a.newPayload) := by
  obtain ⟨trace, hrun⟩ := hsync.run
  have hmem : a ∈ chain := hsync.split ▸ List.mem_append_right _ List.mem_cons_self
  have hacceptable := h.acceptable a hmem
  obtain ⟨hnoBlock, hnoProof, -, -, -⟩ := hsync.undisturbed.untouched h hmem
  have hfresh := hsync.undisturbed.fresh a List.mem_cons_self
  obtain ⟨hcanonical, -⟩ := OrderedRun.canonical hgenesis hlinked hverifies hrun
  have hparent : a.block.parentHash = engine.tree.canonicalHead.hash := by
    cases hsync.rises with
    | cons parent _ => exact parent
  have hconnected : engine.tree.provider.Contains a.block.parentHash := by
    obtain ⟨header, hheader, -⟩ := hcanonical.head.stored
    rw [hparent]
    exact ChainState.contains_iff_sealedHeader.mpr ⟨header, hheader⟩
  have hunmarkedParent : engine.tree.Unmarked a.block.parentHash := by
    unfold EngineTree.Unmarked
    rw [hsync.undisturbed.invalidHeaders, hparent]
    exact hsync.unmarkedHead
  have hcall : callNewPayload σ engine.tree a.payload
      = (.ok ⟨⟨.syncing, none⟩, some (.downloadProof a.block.hash)⟩,
        { engine.tree with
          blockBuffer := engine.tree.blockBuffer.insertBlock a.block }) := by
    unfold callNewPayload
    rw [← hacceptable.payloadHash, BlockBuffer.removeProof_of_get_none hnoProof]
    have hbuffers := EngineTree.onNewPayload_buffers hsteady hacceptable.wellFormed hfresh hnoBlock
      hunmarkedParent hacceptable.valid σ
    rw [if_pos hconnected] at hbuffers
    exact hbuffers
  have hprovides : feed.Provides (.message a.newPayload) := by
    intro block hformed
    cases hacceptable.wellFormed.symm.trans hformed
    exact ⟨hacceptable.fed, hacceptable.payloadHash⟩
  have hstep : Step engine (.message a.newPayload) _ := .message σ _ hsync.unparked
  have hrun' := hrun.step ⟨hprovides, trivial⟩ hstep
  cases onEngineMessage_newPayload_fully σ engine a.payload a.payloadTx with
  | quiet handled event =>
      cases hcall.symm.trans handled
      cases event
  | eventful handled event unparked =>
      cases hcall.symm.trans handled
      cases event
      cases unparked
  | parked handled _ event after =>
      cases hcall.symm.trans handled
      cases event
      replace after : engine.onEngineMessage σ a.newPayload = _ := after
      rw [hsync.idle.eq_new] at after
      rw [after] at hrun' ⊢
      exact ⟨⟨engine, hsync, rfl, rfl⟩, ⟨_, hrun'⟩, rfl, rfl, List.forall_mem_nil _⟩

/-- **With a proof the block is imported**, and the parked payload answered with `Valid`. -/
theorem Awaiting.proved (hawaiting : Awaiting feed genesis start chain top done a rest engine)
    {downloader : EngineDownloader X.Proof} (hidle : downloader.Idle) {proof : X.Proof}
    (hproof : proof ∈ feed.proofs a.block.hash) (σ : SetOrder B256) :
    ∃ engine', { engine with downloader }.onDownloadOutcome σ (.proof a.block.hash proof)
        = (.ok (), engine') ∧ Imported feed genesis start chain top done a rest engine' := by
  obtain ⟨base, hsync, htree, hresponses⟩ := hawaiting.base
  obtain ⟨trace, hrun⟩ := hawaiting.run
  obtain ⟨baseTrace, hbase⟩ := hsync.run
  have hmem : a ∈ chain := hsync.split ▸ List.mem_append_right _ List.mem_cons_self
  have hacceptable := h.acceptable a hmem
  obtain ⟨hnoBlock, hnoProof, hnone, hroom, hunmarked⟩ := hsync.undisturbed.untouched h hmem
  have hfresh := hsync.undisturbed.fresh a List.mem_cons_self
  obtain ⟨hcanonical, hfed⟩ := OrderedRun.canonical hgenesis hlinked hverifies hbase
  have hsound := FedRun.sound_buffer (hbase.mono fun _ _ _ met => met.1)
  rw [hsound.agrees.card_blocks] at hroom
  have hparent : a.block.parentHash = base.tree.canonicalHead.hash := by
    cases hsync.rises with
    | cons parent _ => exact parent
  have hrises : Rises a.block.hash (rest.map Announcement.block) top := by
    cases hsync.rises with
    | cons _ rest => exact rest
  -- what the verifier says on the tree before the announcement
  have hverified : ∀ parent, base.tree.provider.sealedHeader a.block.parentHash = some parent →
      X.verify base.tree.provider a.block parent proof = .ok () := fun parent hstored =>
    hacceptable.verified _ _ hbase parent hstored proof hproof
  obtain ⟨header, hheader, hnumber⟩ := hcanonical.head.stored
  have honHead : base.tree.OnHead a.block :=
    { head := hcanonical.head
      parent := hparent
      number := by
        rw [← hparent] at hheader
        rw [← hnumber]
        exact hverifies _ _ _ _ (hverified header hheader) }
  have hother : base.tree.canonicalHead.hash ≠ a.block.hash := by
    intro heq
    exact hfresh (heq ▸ ChainState.contains_iff_sealedHeader.mpr ⟨header, hheader⟩)
  have huntargeted : base.tree.isSyncTargetHead a.block.hash = false := by
    unfold isSyncTargetHead
    rw [hsync.undisturbed.untargeted]
  obtain ⟨buffer, hsub, hhandled⟩ := honHead.onDownloadedBlock hsteady hfed.wellFormed hfresh
    hnoBlock hnone hunmarked huntargeted hacceptable.valid hverified σ
  -- the block and its proof are both there, and taken out together
  generalize hstored : ({ engine with
    tree := store engine.tree (.proof a.block.hash proof), downloader } : ConsensusEngine X)
      = complete
  have hready : complete.tree.blockBuffer.Ready a.block.hash a.block proof := by
    rw [← hstored]
    refine ⟨?_, FiniteMap.get_insert_self _ _ _⟩
    show engine.tree.blockBuffer.blocks.get a.block.hash = some a.block
    rw [htree]
    show (base.tree.blockBuffer.insertBlock a.block).blocks.get a.block.hash = some a.block
    rw [BlockBuffer.insertBlock_of_room (.inr hroom)]
    exact KeyedMap.get_insert_self _ a.block
  have htaken : takeOut complete.tree a.block.hash a.block = base.tree := by
    rw [← hstored]
    show { engine.tree with blockBuffer :=
      (engine.tree.blockBuffer.insertProof a.block.hash proof).drop a.block.hash a.block }
        = base.tree
    rw [htree]
    simp only
    rw [BlockBuffer.drop_insertProof_insertBlock hsound hnoBlock hnoProof hroom]
  rw [← htaken] at hhandled
  have hparked : complete.parkedPayload = some ⟨a.block.hash, a.payloadTx⟩ := by
    rw [← hstored]
    exact hawaiting.parked
  have houtcome : { engine with downloader }.onDownloadOutcome σ (.proof a.block.hash proof)
      = (.ok (), complete.onUnlockedHash σ a.block.hash) := by
    rw [← hstored]
    rfl
  refine ⟨_, houtcome, ?_⟩
  have hprovides : feed.Provides (.outcome (.proof a.block.hash proof)) := hproof
  have hrun' := (hrun.polled downloader).step ⟨hprovides, trivial⟩ (.outcome σ _ houtcome)
  rw [onUnlockedHash_of_parked σ hparked rfl hready hhandled, htaken] at hrun' ⊢
  have hheadKept : (base.tree.provider.insertBlock a.block (some proof)).sealedHeader
      base.tree.canonicalHead.hash = some header := by
    unfold ChainState.sealedHeader at hheader ⊢
    rw [ChainState.insertBlock_get, if_neg hother]
    exact hheader
  exact
    { split := hsync.split
      run := ⟨_, hrun'⟩
      idle := by
        rw [← hstored]
        exact hidle
      unparked := rfl
      undisturbed :=
        { invalidHeaders := hsync.undisturbed.invalidHeaders
          buffer := hsub.trans hsync.undisturbed.buffer
          fresh := fun b hb hcontains => by
            rcases ChainState.contains_insertBlock.mp hcontains with heq | hcontains
            · exact h.ne_of_mem hsync.split hb heq
            · exact hsync.undisturbed.fresh b (List.mem_cons_of_mem _ hb) hcontains
          untargeted := hsync.undisturbed.untargeted }
      rises := hrises
      onHead := ⟨⟨header, hheadKept, hnumber⟩, honHead.parent, honHead.number⟩
      stored := by
        show (base.tree.provider.insertBlock a.block (some proof)).sealedHeader a.block.hash = _
        unfold ChainState.sealedHeader
        rw [ChainState.insertBlock_get, if_pos rfl]
        rfl
      other := hother
      listed := hsync.listed
      responses := by
        rw [← hstored]
        show engine.responses ++ _ = _
        rw [hresponses, hsync.responses]
        rfl
      events := congrArg (· ++ [_]) hsync.events }

omit hsteady h in
/-- **The canonical hashes with the block as head**: those of the start and of the blocks done,
at most 256 blocks below. -/
theorem Imported.listed_insert
    (himported : Imported feed genesis start chain top done a rest engine)
    {n : ℕ} {hash : B256} (hlisted : Listed start.tree (done ++ [a]) n hash)
    (hrecent : a.block.number ≤ n + 256) :
    (engine.tree.provider.insertCanonicalHash a.block.number
      a.block.hash).canonicalHashesByNumber.get n = some hash := by
  obtain ⟨trace, hrun⟩ := himported.run
  obtain ⟨hcanonical, -⟩ := OrderedRun.canonical hgenesis hlinked hverifies hrun
  show (engine.tree.provider.canonicalHashesByNumber.insert a.block.number a.block.hash).get n = _
  rw [FiniteMap.get_insert]
  have hold : Listed start.tree done n hash → (if n = a.block.number then some a.block.hash
      else engine.tree.provider.canonicalHashesByNumber.get n) = some hash := by
    intro hlisted
    have hnumber := himported.onHead.number
    have hget := himported.listed n hash hlisted (by omega)
    have hle := hcanonical.index.le_top hget
    rw [if_neg (by omega), hget]
  rcases hlisted with hstart | ⟨b, hb, rfl, rfl⟩
  · exact hold (.inl hstart)
  · rcases List.mem_append.mp hb with hdone | hlast
    · exact hold (.inr ⟨b, hdone, rfl, rfl⟩)
    · obtain rfl := List.mem_singleton.mp hlast
      rw [if_pos rfl]

omit hsteady h in
/-- A finalized block of the announcement that is stored is not above the block. -/
theorem Imported.finalized_le (himported : Imported feed genesis start chain top done a rest engine)
    {finalizedHash : B256} {finalized : Block}
    (hstored : engine.tree.provider.blocksByHash.get finalizedHash = some finalized)
    (hcanonical : (engine.tree.provider.insertCanonicalHash a.block.number
      a.block.hash).isHashCanonical finalizedHash) : finalized.number ≤ a.block.number := by
  obtain ⟨trace, hrun⟩ := himported.run
  obtain ⟨hcanon, -⟩ := OrderedRun.canonical hgenesis hlinked hverifies hrun
  obtain ⟨n, hget⟩ := hcanonical
  replace hget : (engine.tree.provider.canonicalHashesByNumber.insert a.block.number
    a.block.hash).get n = some finalizedHash := hget
  rw [FiniteMap.get_insert] at hget
  split at hget
  · obtain rfl := Option.some.inj hget
    obtain ⟨block, hblock, heq⟩ := ChainState.sealedHeader_eq_some.mp himported.stored
    cases hblock.symm.trans hstored
    have hnumber : finalized.number = a.block.number :=
      congrArg (fun header : SealedHeader => header.number) heq
    exact hnumber.le
  · have hle := hcanon.number_le hstored ⟨n, hget⟩
    have hnumber := himported.onHead.number
    omega

omit hsteady h in
/-- They are not pruned. -/
theorem Imported.listed_advance
    (himported : Imported feed genesis start chain top done a rest engine)
    (hconsistent : Consistent
      (engine.tree.provider.insertCanonicalHash a.block.number a.block.hash) a.state)
    {n : ℕ} {hash : B256} (hlisted : Listed start.tree (done ++ [a]) n hash)
    (hrecent : a.block.number ≤ n + 256) :
    ((engine.tree.provider.insertCanonicalHash a.block.number a.block.hash).onFinalized
      a.state.finalizedBlockHash).canonicalHashesByNumber.get n = some hash := by
  have hinserted := himported.listed_insert hgenesis hlinked hverifies hlisted hrecent
  unfold ChainState.onFinalized
  split
  · exact hinserted
  · next hnonzero =>
      cases hfinalized : (engine.tree.provider.insertCanonicalHash a.block.number
          a.block.hash).blocksByHash.get a.state.finalizedBlockHash with
      | none =>
          rw [ChainState.removeBlocksOnFinalized_of_none hfinalized]
          exact hinserted
      | some finalized =>
          have hle := himported.finalized_le hgenesis hlinked hverifies hfinalized
            (hconsistent.finalized.resolve_left hnonzero)
          rw [ChainState.removeBlocksOnFinalized_canonical hfinalized, if_neg (by omega)]
          exact hinserted

/-- **Chosen as the head the block is done.** -/
theorem Imported.chosen (himported : Imported feed genesis start chain top done a rest engine)
    (htracker : X.forkchoiceStateTracker.Lawful) (htracks : X.TracksSyncing) (σ : SetOrder B256) :
    InSync feed genesis start chain top (done ++ [a]) rest
      (engine.onEngineMessage σ a.forkchoiceUpdated) := by
  obtain ⟨trace, hrun⟩ := himported.run
  have hmem : a ∈ chain := himported.split ▸ List.mem_append_right _ List.mem_cons_self
  have hacceptable := h.acceptable a hmem
  obtain ⟨hnoBlock, -, -, -, hunmarked⟩ := himported.undisturbed.untouched h hmem
  obtain ⟨hcanonical, hfed⟩ := OrderedRun.canonical hgenesis hlinked hverifies hrun
  have hconsistent : Consistent
      (engine.tree.provider.insertCanonicalHash a.block.number a.block.hash) a.state := by
    have hcanon : ∀ hash, hash = a.state.finalizedBlockHash ∨ hash = a.state.safeBlockHash →
        hash = 0 ∨ (engine.tree.provider.insertCanonicalHash a.block.number
          a.block.hash).isHashCanonical hash := by
      intro hash hchosen
      refine (h.recent done a rest himported.split hash hchosen).imp_right ?_
      rintro ⟨n, hlisted, hrecent⟩
      exact ⟨n, himported.listed_insert hgenesis hlinked hverifies hlisted hrecent⟩
    exact ⟨hcanon _ (.inl rfl), hcanon _ (.inr rfl)⟩
  have hhandled := himported.onHead.onForkchoiceUpdated hsteady hacceptable.chosen
    hacceptable.nonzero hnoBlock hunmarked himported.stored himported.other hconsistent
    hacceptable.attributes σ
  have hprovides : feed.Provides (.message a.forkchoiceUpdated) := hacceptable.known
  have hstep : Step engine (.message a.forkchoiceUpdated) _ := .message σ _ himported.unparked
  have hrun' := hrun.step ⟨hprovides, trivial⟩ hstep
  have hafter : engine.onEngineMessage σ a.forkchoiceUpdated = { engine with
      tree := (advance σ engine.tree a.block a.state.finalizedBlockHash).track a.state
        (.ok (.new (validHead a.state)))
      responses := engine.responses
        ++ [.forkchoice a.forkchoiceTx (.ok (validHead a.state))] } := by
    unfold Announcement.forkchoiceUpdated
    simp only [onEngineMessage, hhandled, onMaybeTreeEvent_eq]
    rfl
  rw [hafter] at hrun' ⊢
  have hprovider := advance_provider σ engine.tree a.block a.state.finalizedBlockHash
  have hhead := advance_canonicalHead σ engine.tree a.block a.state.finalizedBlockHash
  have hblockHash : a.block.numHash.hash = a.block.hash := rfl
  have hblockNumber : a.block.numHash.number = a.block.number := rfl
  exact
    { split := by rw [himported.split, List.append_assoc, List.singleton_append]
      run := ⟨_, hrun'⟩
      idle := himported.idle
      unparked := himported.unparked
      undisturbed :=
        { invalidHeaders := by
            rw [track_invalidHeaders, advance_invalidHeaders]
            exact himported.undisturbed.invalidHeaders
          buffer := by
            rw [track_blockBuffer]
            exact (advance_sub σ hfed _ _).trans himported.undisturbed.buffer
          fresh := fun b hb hcontains => by
            rw [track_provider, hprovider] at hcontains
            have hcontained := ChainState.contains_of_onFinalized hcontains
            exact himported.undisturbed.fresh b hb hcontained
          untargeted := by
            show X.forkchoiceStateTracker.syncTargetState (X.forkchoiceStateTracker.setLatest _ _
              (X.forkchoiceStatus (validHead a.state))) = none
            cases hstatus : X.forkchoiceStatus (validHead a.state) with
            | valid => exact htracker.valid _ _
            | invalid =>
                rw [htracker.invalid, advance_forkchoiceStateTracker]
                exact himported.undisturbed.untargeted
            | syncing =>
                obtain ⟨latest, hsyncing⟩ := (htracks _).mp hstatus
                cases hsyncing }
      unmarkedHead := by
        rw [track_canonicalHead, hhead]
        exact hacceptable.unmarked
      rises := by
        rw [track_canonicalHead, hhead]
        exact himported.rises
      listed := by
        intro n hash hlisted hrecent
        rw [track_canonicalHead, hhead] at hrecent
        rw [track_provider, hprovider]
        exact himported.listed_advance hgenesis hlinked hverifies hconsistent hlisted hrecent
      responses := by
        show engine.responses ++ _ = _
        rw [himported.responses, List.flatMap_append, List.append_assoc, List.append_assoc]
        rfl
      events := by
        show (advance σ engine.tree a.block a.state.finalizedBlockHash).events ++ _ = _
        rw [advance_events, himported.events, List.flatMap_append]
        simp only [List.append_assoc]
        rfl }

/-! ## Rounds -/

omit hgenesis hlinked hverifies hsteady h in
/-- A round in which the request for the proof is polled, but not answered. -/
theorem Awaiting.polled (hawaiting : Awaiting feed genesis start chain top done a rest engine)
    {downloader : EngineDownloader X.Proof}
    (hpending : downloader.pendingRequests = [(.proof, a.block.hash)])
    (hqueued : ∀ data ∈ downloader.outcomes,
      ∃ proof ∈ feed.proofs a.block.hash, data = .proof a.block.hash proof) :
    Awaiting feed genesis start chain top done a rest { engine with downloader } := by
  obtain ⟨trace, hrun⟩ := hawaiting.run
  exact
    { base := hawaiting.base
      run := ⟨trace, hrun.polled downloader⟩
      parked := hawaiting.parked
      pending := hpending
      queued := hqueued }

variable (feed genesis start chain top) in
omit hgenesis hlinked hverifies hsteady h in
/-- **Following the chain**: a place in it, the messages that are still to be taken there, and
how many steps there are to its end. -/
inductive Following : ℕ → Node X → Prop
  | inSync {done rest : List Announcement} {engine : ConsensusEngine X}
      (inSync : InSync feed genesis start chain top done rest engine) :
      Following (3 * rest.length) ⟨rest.flatMap Announcement.messages, engine⟩
  | awaiting {done : List Announcement} {a : Announcement} {rest : List Announcement}
      {engine : ConsensusEngine X}
      (awaiting : Awaiting feed genesis start chain top done a rest engine) :
      Following (3 * rest.length + 2)
        ⟨a.forkchoiceUpdated :: rest.flatMap Announcement.messages, engine⟩
  | imported {done : List Announcement} {a : Announcement} {rest : List Announcement}
      {engine : ConsensusEngine X}
      (imported : Imported feed genesis start chain top done a rest engine) :
      Following (3 * rest.length + 1)
        ⟨a.forkchoiceUpdated :: rest.flatMap Announcement.messages, engine⟩

omit hgenesis hlinked hverifies hsteady h in
/-- With nothing pending, a round takes the first message of the queue. -/
theorem Node.poll_of_message (idle : engine.downloader.Idle)
    (unparked : engine.parkedPayload = none) (message : BeaconEngineMessage)
    (queue : List BeaconEngineMessage) (input : PollInput X) :
    Node.poll ⟨message :: queue, engine⟩ input
        = (.continue, [.message message], engine.onEngineMessage input.order message) ∧
      Node.round ⟨message :: queue, engine⟩ input
        = ⟨queue, engine.onEngineMessage input.order message⟩ := by
  have hpoll : Node.poll ⟨message :: queue, engine⟩ input
      = (.continue, [.message message], engine.onEngineMessage input.order message) := by
    unfold Node.poll
    rw [poll_of_idle idle unparked]
    rfl
  refine ⟨hpoll, ?_⟩
  unfold Node.round
  rw [hpoll]
  rfl

/-- **A round waiting for the proof** either brings it, or leaves everything as it is. -/
theorem Awaiting.round (hawaiting : Awaiting feed genesis start chain top done a rest engine)
    {input : PollInput X} (hprompt : Prompt feed chain input) (queue : List BeaconEngineMessage) :
    (∀ fatal, (Node.poll ⟨queue, engine⟩ input).1 ≠ .failed fatal) ∧
      ((∃ engine', Node.round ⟨queue, engine⟩ input = ⟨queue, engine'⟩ ∧
          Awaiting feed genesis start chain top done a rest engine' ∧
          proves chain input = false) ∨
        ∃ engine', Node.round ⟨queue, engine⟩ input = ⟨queue, engine'⟩ ∧
          Imported feed genesis start chain top done a rest engine') := by
  obtain ⟨base, hsync, -⟩ := hawaiting.base
  have hmem : a ∈ chain := hsync.split ▸ List.mem_append_right _ List.mem_cons_self
  have hflying : ∀ request ∈ engine.downloader.inFlight, request = (.proof, a.block.hash) := by
    intro request hrequest
    have hpending : request ∈ engine.downloader.pendingRequests := List.mem_append_left _ hrequest
    rw [hawaiting.pending] at hpending
    exact List.mem_singleton.mp hpending
  have hanswers : ∀ data, input.answers.answer (.proof, a.block.hash) = some data →
      ∃ proof ∈ feed.proofs a.block.hash, data = .proof a.block.hash proof := by
    intro data hanswer
    obtain ⟨proof, hproof, rfl⟩ := Option.map_eq_some_iff.mp hanswer
    exact ⟨proof, hprompt.honest a hmem proof hproof, rfl⟩
  have hfits : input.answers.Fits engine.downloader.inFlight := by
    intro request hrequest data hanswer
    obtain rfl := hflying request hrequest
    obtain ⟨proof, -, rfl⟩ := hanswers data hanswer
    rfl
  generalize hpoll : engine.downloader.poll input.answers = polled
  obtain ⟨outcome, downloader⟩ := polled
  have hperm := EngineDownloader.poll_pendingRequests hfits hpoll
  rw [hawaiting.pending] at hperm
  have hdata : ∀ data, outcome = some data ∨ data ∈ downloader.outcomes →
      ∃ proof ∈ feed.proofs a.block.hash, data = .proof a.block.hash proof := by
    intro data hcome
    rcases EngineDownloader.poll_outcomes hpoll hcome with hold | ⟨request, hrequest, hanswer⟩
    · exact hawaiting.queued data hold
    · rw [hflying request hrequest] at hanswer
      exact hanswers data hanswer
  cases outcome with
  | none =>
      have hround : Node.poll ⟨queue, engine⟩ input
          = (.pending, [], { engine with downloader }) := by
        unfold Node.poll ConsensusEngine.poll
        simp only [hpoll, hawaiting.parked, hprompt.inTime, Bool.false_eq_true, if_false]
      refine ⟨fun fatal => ?_, .inl ⟨{ engine with downloader }, ?_, ?_, ?_⟩⟩
      · rw [hround]
        exact nofun
      · unfold Node.round
        rw [hround]
        rfl
      · exact hawaiting.polled (List.perm_singleton.mp hperm) fun data hqueued =>
          hdata data (.inr hqueued)
      · -- the request was in flight, and has not been answered
        obtain ⟨hdrained, hsilent⟩ := EngineDownloader.poll_eq_none hpoll
        have hasked : (RequestKind.proof, a.block.hash) ∈ engine.downloader.inFlight := by
          have hpending := hawaiting.pending
          unfold EngineDownloader.pendingRequests at hpending
          rw [hdrained, List.map_nil, List.append_nil] at hpending
          rw [hpending]
          exact List.mem_singleton_self _
        have hnone := Option.map_eq_none_iff.mp (hsilent _ hasked)
        rw [Bool.eq_false_iff]
        intro hproves
        have hsome := List.all_eq_true.mp hproves a hmem
        rw [hnone] at hsome
        cases hsome
  | some data =>
      obtain ⟨proof, hproof, rfl⟩ := hdata data (.inl rfl)
      have hidle : downloader.Idle :=
        EngineDownloader.pendingRequests_eq_nil.mp hperm.cons_inv.eq_nil
      obtain ⟨engine', houtcome, himported⟩ := hawaiting.proved hgenesis hlinked hverifies hsteady h
        hidle hproof input.order
      have hround : Node.poll ⟨queue, engine⟩ input
          = (.continue, [.outcome (.proof a.block.hash proof)], engine') := by
        unfold Node.poll ConsensusEngine.poll
        simp only [hpoll, houtcome]
      refine ⟨fun fatal => ?_, .inr ⟨engine', ?_, himported⟩⟩
      · rw [hround]
        exact nofun
      · unfold Node.round
        rw [hround]
        rfl

/-- **A round never leads back**, and it leads on if all proofs are answered in it. -/
theorem Following.round (htracker : X.forkchoiceStateTracker.Lawful) (htracks : X.TracksSyncing)
    {remaining : ℕ} {node : Node X}
    (hfollowing : Following feed genesis start chain top remaining node) {input : PollInput X}
    (hprompt : Prompt feed chain input) :
    (∀ fatal, (node.poll input).1 ≠ .failed fatal) ∧
      ∃ remaining', Following feed genesis start chain top remaining' (node.round input) ∧
        remaining' ≤ remaining ∧ (proves chain input = true → remaining' ≤ remaining - 1) := by
  cases hfollowing with
  | @inSync done rest engine hsync =>
      cases rest with
      | nil =>
          -- nothing is left to take
          have hpoll : Node.poll ⟨[], engine⟩ input = (.pending, [], engine) := by
            unfold Node.poll
            rw [poll_of_idle hsync.idle hsync.unparked]
            rfl
          have hround : Node.round ⟨[], engine⟩ input = ⟨[], engine⟩ := by
            unfold Node.round
            rw [hpoll]
            rfl
          refine ⟨fun fatal => ?_, 0, ?_, le_rfl, fun _ => le_rfl⟩
          · show (Node.poll ⟨[], engine⟩ input).1 ≠ _
            rw [hpoll]
            exact nofun
          · show Following feed genesis start chain top 0 (Node.round ⟨[], engine⟩ input)
            rw [hround]
            exact .inSync hsync
      | cons a rest =>
          obtain ⟨hpoll, hround⟩ := Node.poll_of_message hsync.idle hsync.unparked a.newPayload
            (a.forkchoiceUpdated :: rest.flatMap Announcement.messages) input
          have hnode : (⟨(a :: rest).flatMap Announcement.messages, engine⟩ : Node X)
            = ⟨a.newPayload :: a.forkchoiceUpdated :: rest.flatMap Announcement.messages,
              engine⟩ := rfl
          rw [hnode, hpoll, hround, List.length_cons]
          exact ⟨nofun, _, .awaiting (hsync.announced hgenesis hlinked hverifies hsteady h
            input.order), by omega, fun _ => by omega⟩
  | @awaiting done a rest engine hawaiting =>
      obtain ⟨hsound, ⟨engine', hround, hwaits, hunproved⟩ | ⟨engine', hround, himported⟩⟩ :=
        hawaiting.round hgenesis hlinked hverifies hsteady h hprompt
          (a.forkchoiceUpdated :: rest.flatMap Announcement.messages)
      · rw [hround]
        refine ⟨hsound, _, .awaiting hwaits, le_rfl, fun hproves => ?_⟩
        rw [hunproved] at hproves
        cases hproves
      · rw [hround]
        exact ⟨hsound, _, .imported himported, by omega, fun _ => by omega⟩
  | @imported done a rest engine himported =>
      obtain ⟨hpoll, hround⟩ := Node.poll_of_message himported.idle himported.unparked
        a.forkchoiceUpdated (rest.flatMap Announcement.messages) input
      rw [hpoll, hround]
      exact ⟨nofun, _, .inSync (himported.chosen hgenesis hlinked hverifies hsteady h htracker
        htracks input.order), by omega, fun _ => by omega⟩

/-- **Some rounds**, one after the other. -/
theorem Following.rounds (htracker : X.forkchoiceStateTracker.Lawful) (htracks : X.TracksSyncing)
    {inputs : List (PollInput X)} (hinputs : ∀ input ∈ inputs, Prompt feed chain input)
    {remaining : ℕ} {node : Node X}
    (hfollowing : Following feed genesis start chain top remaining node) :
    ∃ remaining', Following feed genesis start chain top remaining' (node.rounds inputs) ∧
      remaining' ≤ remaining - inputs.countP (proves chain) := by
  induction inputs generalizing node remaining with
  | nil => exact ⟨remaining, hfollowing, le_rfl⟩
  | cons input inputs ih =>
      obtain ⟨-, between, hbetween, hle, hless⟩ := hfollowing.round hgenesis hlinked hverifies
        hsteady h htracker htracks (hinputs input List.mem_cons_self)
      obtain ⟨remaining', hrest, hcount⟩ :=
        ih (fun input hmem => hinputs input (List.mem_cons_of_mem _ hmem)) hbetween
      refine ⟨remaining', hrest, hcount.trans ?_⟩
      rw [List.countP_cons]
      split
      · next hproves =>
          have hstep := hless hproves
          omega
      · omega

end Places

/-! ## The whole chain -/

section Chain

variable {start : ConsensusEngine X} {chain : List Announcement} {top : B256}

/-- **The chain is followed**: all messages are answered with `Valid` and all blocks reported, the
last one is the head, and the last 256 are canonical. -/
structure Followed (start : ConsensusEngine X) (chain : List Announcement) (top : B256)
    (node : Node X) : Prop where
  queue : node.queue = []
  responses : node.engine.responses = start.responses ++ chain.flatMap Announcement.responses
  events : node.engine.tree.events
    = start.tree.events ++ chain.flatMap (Announcement.events X)
  head : node.engine.tree.canonicalHead.hash = top
  canonical : ∀ a ∈ chain, node.engine.tree.canonicalHead.number ≤ a.block.number + 256 →
    node.engine.tree.provider.canonicalHashesByNumber.get a.block.number = some a.block.hash
  idle : node.engine.downloader.Idle
  unparked : node.engine.parkedPayload = none

/-- **The engine follows the chain**, whatever the rounds: what it has answered and reported so
far is a part of what it is to answer and report, and it has done so for the whole chain when no
message is left, and after three rounds a block in which the proofs are answered. -/
structure FollowsChain (start : ConsensusEngine X) (chain : List Announcement) (top : B256)
    (inputs : List (PollInput X)) : Prop where
  neverFails : ∀ before input after, inputs = before ++ input :: after →
    ∀ fatal, ((Node.rounds ⟨chain.flatMap Announcement.messages, start⟩ before).poll input).1
      ≠ .failed fatal
  answers : (Node.rounds ⟨chain.flatMap Announcement.messages, start⟩ inputs).engine.responses
    <+: start.responses ++ chain.flatMap Announcement.responses
  reports : (Node.rounds ⟨chain.flatMap Announcement.messages, start⟩ inputs).engine.tree.events
    <+: start.tree.events ++ chain.flatMap (Announcement.events X)
  emptied : (Node.rounds ⟨chain.flatMap Announcement.messages, start⟩ inputs).queue = [] →
    Followed start chain top (Node.rounds ⟨chain.flatMap Announcement.messages, start⟩ inputs)
  proved : 3 * chain.length ≤ inputs.countP (proves chain) →
    Followed start chain top (Node.rounds ⟨chain.flatMap Announcement.messages, start⟩ inputs)

theorem InSync.followed {done rest : List Announcement} {engine : ConsensusEngine X}
    (hsync : InSync feed genesis start chain top done rest engine) (hrest : rest = []) :
    Followed start chain top ⟨rest.flatMap Announcement.messages, engine⟩ := by
  subst hrest
  have hsplit := hsync.split
  rw [List.append_nil] at hsplit
  subst hsplit
  exact
    { queue := rfl
      responses := hsync.responses
      events := hsync.events
      head := by
        generalize hhead : engine.tree.canonicalHead.hash = head
        have hrises := hsync.rises
        rw [hhead] at hrises
        cases hrises
        rfl
      canonical := fun a hmem hrecent =>
        hsync.listed _ _ (.inr ⟨a, hmem, rfl, rfl⟩) hrecent
      idle := hsync.idle
      unparked := hsync.unparked }

/-- At each place, the answers and reports so far are a part of all. -/
theorem Following.reported {remaining : ℕ} {node : Node X}
    (hfollowing : Following feed genesis start chain top remaining node) :
    node.engine.responses <+: start.responses ++ chain.flatMap Announcement.responses ∧
      node.engine.tree.events <+: start.tree.events ++ chain.flatMap (Announcement.events X) := by
  have hsynced : ∀ {done rest engine}, InSync feed genesis start chain top done rest engine →
      engine.responses <+: start.responses ++ chain.flatMap Announcement.responses ∧
        engine.tree.events <+: start.tree.events ++ chain.flatMap (Announcement.events X) := by
    intro done rest engine hsync
    rw [hsync.responses, hsync.events, hsync.split, List.flatMap_append, List.flatMap_append,
      ← List.append_assoc, ← List.append_assoc]
    exact ⟨List.prefix_append _ _, List.prefix_append _ _⟩
  cases hfollowing with
  | inSync hsync => exact hsynced hsync
  | @awaiting done a rest engine hawaiting =>
      obtain ⟨base, hsync, htree, hresponses⟩ := hawaiting.base
      have hevents : engine.tree.events = base.tree.events := by rw [htree]
      show engine.responses <+: _ ∧ engine.tree.events <+: _
      rw [hresponses, hevents]
      exact hsynced hsync
  | @imported done a rest engine himported =>
      -- the payload is answered, and the import reported
      show engine.responses <+: _ ∧ engine.tree.events <+: _
      rw [himported.responses, himported.events, himported.split]
      refine ⟨⟨.forkchoice a.forkchoiceTx (.ok (validHead a.state))
        :: rest.flatMap Announcement.responses, ?_⟩,
        ⟨.canonicalChainCommitted a.block.toSealedHeader
          :: .forkchoiceUpdated a.state (X.forkchoiceStatus (validHead a.state))
          :: rest.flatMap (Announcement.events X), ?_⟩⟩
      · simp [Announcement.responses]
      · simp [Announcement.events]

end Chain

end ConsensusEngine

namespace SmallWorld

open ConsensusEngine

/-- A block is announced, with its parent as the finalized and the safe block. -/
def announce (block : Block) : Announcement where
  block := block
  payload := payload block
  payloadTx := 7
  state := ⟨block.hash, block.parentHash, block.parentHash⟩
  payloadAttrs := none
  forkchoiceTx := 8
  version := 3

/-- A round in which either all proofs are answered, or none. -/
def provingRound (answered : Bool) : PollInput externals where
  answers :=
    { fullBlock := fun _ => none
      proof := fun _ => if answered then some true else none
      finalizedBlock := fun _ => none }
  timeoutElapsed := false
  message := none
  order := ascending

theorem announced_acceptable {block : Block} (hmem : block ∈ missingChain) :
    Acceptable provenFeed (SmallWorld.block 1 0 0) (launch externals (SmallWorld.block 1 0 0)).tree
      (announce block) where
  known := trivial
  fed := missingChain_lacking.downloadable.fed block hmem
  wellFormed := by
    have hall : ∀ block ∈ missingChain,
        externals.ensureWellFormedPayload (payload block) = .ok block := by
      intro block hblock
      rcases List.mem_pair.mp hblock with rfl | rfl <;> rfl
    exact hall block hmem
  payloadHash := rfl
  chosen := rfl
  nonzero := by
    have hall : ∀ block ∈ missingChain, block.hash ≠ 0 := by decide
    exact hall block hmem
  attributes _ hsome := by cases hsome
  valid := rfl
  verified := by
    rintro trace engine hrun parent hparent _ ⟨⟩
    have hgenesis : provenFeed.IsGenesis (SmallWorld.block 1 0 0) :=
      ⟨fork_isGenesis.conforms, fork_isGenesis.number, fork_isGenesis.noParent⟩
    obtain ⟨hcanonical, -⟩ := OrderedRun.canonical hgenesis feed_linked verifiesNumber hrun
    have hknown := hcanonical.grounded.preimage_of_sealedHeader hparent
    -- each block has the number after its parent's
    have hall : ∀ block ∈ missingChain, ∀ parent ∈ preimageOf forkHeaders block.parentHash,
        block.number = parent.number + 1 := by decide +kernel
    have hnumber := hall block hmem parent hknown
    show verify engine.tree.provider block parent true = .ok ()
    unfold SmallWorld.verify
    rw [if_neg (not_not_intro hnumber)]
    rfl
  fresh := missingChain_lacking.downloadable.fresh block hmem
  unmarked := missingChain_lacking.downloadable.unmarked block hmem
  noBlock := missingChain_lacking.downloadable.noBlock block hmem
  noProof := missingChain_lacking.downloadable.noProof block hmem

theorem missingChain_followable :
    Followable provenFeed (block 1 0 0) (launch externals (block 1 0 0))
      (missingChain.map announce) 3 where
  run := ⟨[], .start⟩
  idle := ⟨rfl, rfl, rfl, rfl⟩
  unparked := rfl
  untargeted := rfl
  rises := .cons rfl (.cons rfl (.nil 3))
  nodup := by decide
  unmarkedHead := fun ⟨_, h⟩ => by cases h
  noneReady := missingChain_lacking.downloadable.noneReady
  room := by decide +kernel
  acceptable := List.forall_mem_map.mpr fun _ hmem => announced_acceptable hmem
  recent := by
    intro done a rest hsplit hash hhash
    rcases done with _ | ⟨_, _ | ⟨_, done⟩⟩
    · cases hsplit
      obtain rfl : hash = 1 := hhash.elim id id
      exact .inr ⟨0, .inl (by decide +kernel), by decide⟩
    · cases hsplit
      obtain rfl : hash = 2 := hhash.elim id id
      exact .inr ⟨1, .inr ⟨_, List.mem_cons_self, rfl, rfl⟩, by decide⟩
    · simp [missingChain] at hsplit

end SmallWorld

end ZkRess
