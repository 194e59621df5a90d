import ZkRess.Engine.ConsensusEngine
import ZkRess.Engine.TreeCases

/-!
# What each engine operation can do

The inversion results for `ConsensusEngine`: what handling a message or a
download outcome does to the tree, to the parked payload and to the responses
sent.  A new payload is parked or answered (`Receives`); a hash whose block and
proof are both there is handled by the tree, and a payload parked for it is
answered with the result (`Unlocks`).
-/

namespace ZkRess

open Foundation

variable {X : Externals}

namespace EngineTree

/-- Carry out the event of a tree operation on the tree.  Only `make_canonical`
is about the tree. -/
def carryOut (tree : EngineTree X) : Option TreeEvent → EngineTree X
  | some (.treeAction (.makeCanonical target)) => tree.makeCanonical target
  | _ => tree

@[simp] theorem carryOut_none (tree : EngineTree X) : tree.carryOut none = tree := rfl

@[simp] theorem carryOut_download (tree : EngineTree X) (request : DownloadRequest) :
    tree.carryOut (some (.download request)) = tree := rfl

theorem contains_carryOut {tree : EngineTree X} {event : Option TreeEvent}
    {hash : B256} : (tree.carryOut event).provider.Contains hash ↔ tree.provider.Contains hash := by
  match event with
  | some (.treeAction (.makeCanonical _)) => exact contains_makeCanonical
  | some (.download _) => exact Iff.rfl
  | none => exact Iff.rfl

@[simp] theorem carryOut_blockBuffer (tree : EngineTree X) (event : Option TreeEvent) :
    (tree.carryOut event).blockBuffer = tree.blockBuffer := by
  match event with
  | some (.treeAction (.makeCanonical _)) => exact makeCanonical_blockBuffer tree _
  | some (.download _) => rfl
  | none => rfl

@[simp] theorem carryOut_invalidHeaders (tree : EngineTree X) (event : Option TreeEvent) :
    (tree.carryOut event).invalidHeaders = tree.invalidHeaders := by
  match event with
  | some (.treeAction (.makeCanonical _)) => exact makeCanonical_invalidHeaders tree _
  | some (.download _) => rfl
  | none => rfl

@[simp] theorem carryOut_forkchoiceStateTracker (tree : EngineTree X) (event : Option TreeEvent) :
    (tree.carryOut event).forkchoiceStateTracker = tree.forkchoiceStateTracker := by
  match event with
  | some (.treeAction (.makeCanonical _)) => exact makeCanonical_forkchoiceStateTracker tree _
  | some (.download _) => rfl
  | none => rfl

/-- The tree that remembers a fork-choice update it has answered. -/
def track (tree : EngineTree X) (state : ForkchoiceState) :
    Except ProviderError (TreeOutcome OnForkChoiceUpdated) → EngineTree X
  | .error _ => tree
  | .ok outcome =>
      { tree with
        forkchoiceStateTracker := X.forkchoiceStateTracker.setLatest tree.forkchoiceStateTracker
          state (X.forkchoiceStatus outcome.outcome) }.emitEvent
        (.forkchoiceUpdated state (X.forkchoiceStatus outcome.outcome))

@[simp] theorem track_provider (tree : EngineTree X) (state : ForkchoiceState)
    (result : Except ProviderError (TreeOutcome OnForkChoiceUpdated)) :
    (tree.track state result).provider = tree.provider := by
  cases result <;> rfl

@[simp] theorem track_blockBuffer (tree : EngineTree X) (state : ForkchoiceState)
    (result : Except ProviderError (TreeOutcome OnForkChoiceUpdated)) :
    (tree.track state result).blockBuffer = tree.blockBuffer := by
  cases result <;> rfl

@[simp] theorem track_canonicalHead (tree : EngineTree X) (state : ForkchoiceState)
    (result : Except ProviderError (TreeOutcome OnForkChoiceUpdated)) :
    (tree.track state result).canonicalHead = tree.canonicalHead := by
  cases result <;> rfl

@[simp] theorem track_invalidHeaders (tree : EngineTree X) (state : ForkchoiceState)
    (result : Except ProviderError (TreeOutcome OnForkChoiceUpdated)) :
    (tree.track state result).invalidHeaders = tree.invalidHeaders := by
  cases result <;> rfl

end EngineTree

/-- The requests an event of the tree leads to. -/
def EngineDownloader.follow {P : Type} (downloader : EngineDownloader P) (buffer : BlockBuffer P) :
    Option TreeEvent → EngineDownloader P
  | some (.download (.block blockHash)) =>
      if (buffer.proofs.get blockHash).isSome then downloader.downloadFullBlock blockHash
      else (downloader.downloadFullBlock blockHash).downloadProof blockHash
  | some (.download (.proof blockHash)) => downloader.downloadProof blockHash
  | some (.download (.finalized blockHash)) => downloader.downloadFinalizedWithAncestors blockHash
  | some (.treeAction _) => downloader
  | none => downloader

namespace ConsensusEngine

variable {engine engine' : ConsensusEngine X}

/-! ## Events of the tree -/

theorem onTreeEvent_eq (engine : ConsensusEngine X) (event : TreeEvent) :
    engine.onTreeEvent event = { engine with
      tree := engine.tree.carryOut (some event),
      downloader := engine.downloader.follow engine.tree.blockBuffer (some event) } := by
  match event with
  | .treeAction (.makeCanonical _) => rfl
  | .download (.block _) => rfl
  | .download (.proof _) => rfl
  | .download (.finalized _) => rfl

theorem onMaybeTreeEvent_eq (engine : ConsensusEngine X) (event : Option TreeEvent) :
    engine.onMaybeTreeEvent event = { engine with
      tree := engine.tree.carryOut event,
      downloader := engine.downloader.follow engine.tree.blockBuffer event } := by
  cases event with
  | none => rfl
  | some event => exact onTreeEvent_eq engine event

/-! ## New payloads -/

/-- The call of `on_new_payload` for a message: the proof is taken out of the
buffer. -/
def callNewPayload (σ : SetOrder B256) (tree : EngineTree X) (payload : ExecutionData) :
    Except InsertBlockFatalError (TreeOutcome PayloadStatus) × EngineTree X :=
  EngineTree.onNewPayload σ
    { tree with blockBuffer := (tree.blockBuffer.removeProof payload.blockHash).2 } payload
    (tree.blockBuffer.removeProof payload.blockHash).1

/-- What a new-payload message does, in full.  Only a payload without a proof
asks for one. -/
inductive ReceivesFully (σ : SetOrder B256) (engine : ConsensusEngine X) (payload : ExecutionData)
    (tx : ℕ) (engine' : ConsensusEngine X) : Prop
  /-- The payload is parked until its proof is there. -/
  | parked {outcome tree' blockHash}
      (handled : callNewPayload σ engine.tree payload = (.ok outcome, tree'))
      (syncing : outcome.outcome.isSyncing = true)
      (event : outcome.event = some (.downloadProof blockHash))
      (after : engine' = { engine with
        tree := tree', downloader := engine.downloader.downloadProof blockHash,
        parkedPayload := some ⟨blockHash, tx⟩ })
  /-- The payload is answered, and there is nothing else to do. -/
  | quiet {result tree'} (handled : callNewPayload σ engine.tree payload = (result, tree'))
      (event : resultEvent result = none)
      (after : engine' = { engine with tree := tree' }.sendPayload tx (payloadResult result))
  /-- The payload is answered, and the tree asks for something. -/
  | eventful {outcome tree' treeEvent}
      (handled : callNewPayload σ engine.tree payload = (.ok outcome, tree'))
      (event : outcome.event = some treeEvent) (unparked : parkingHash outcome treeEvent = none)
      (after : engine' = { engine with
        tree := tree'.carryOut (some treeEvent),
        downloader :=
          if (engine.tree.blockBuffer.removeProof payload.blockHash).1.isSome then
            engine.downloader.follow tree'.blockBuffer (some treeEvent)
          else (engine.downloader.follow tree'.blockBuffer (some treeEvent)).downloadProof
            payload.blockHash }.sendPayload tx (.ok outcome.outcome))

theorem onEngineMessage_newPayload_fully (σ : SetOrder B256) (engine : ConsensusEngine X)
    (payload : ExecutionData) (tx : ℕ) :
    ReceivesFully σ engine payload tx (engine.onEngineMessage σ (.newPayload payload tx)) := by
  simp only [onEngineMessage]
  generalize hcall : EngineTree.onNewPayload σ _ payload _ = handled
  replace hcall : callNewPayload σ engine.tree payload = handled := hcall
  obtain ⟨result, tree⟩ := handled
  cases result with
  | error fatal => exact .quiet hcall rfl rfl
  | ok outcome =>
      obtain ⟨status, event⟩ := outcome
      cases event with
      | none => exact .quiet hcall rfl rfl
      | some event =>
          simp only [onTreeEvent_eq]
          split
          · next blockHash hparking =>
              obtain ⟨hdownload, hsyncing⟩ := Option.filter_eq_some_iff.mp hparking
              match event, hdownload with
              | .download (.proof _), rfl => exact .parked hcall hsyncing rfl rfl
          · next hparking =>
              refine .eventful hcall rfl hparking ?_
              split <;> rfl

/-- The ways out of a new-payload message. -/
inductive Receives (σ : SetOrder B256) (engine : ConsensusEngine X) (payload : ExecutionData)
    (tx : ℕ) (engine' : ConsensusEngine X) : Prop
  /-- The payload is parked until its proof is there. -/
  | parked {outcome tree' blockHash}
      (handled : callNewPayload σ engine.tree payload = (.ok outcome, tree'))
      (syncing : outcome.outcome.isSyncing = true)
      (event : outcome.event = some (.downloadProof blockHash)) (tree : engine'.tree = tree')
      (parkedPayload : engine'.parkedPayload = some ⟨blockHash, tx⟩)
      (responses : engine'.responses = engine.responses)
  /-- The payload is answered. -/
  | answered {result tree'} (handled : callNewPayload σ engine.tree payload = (result, tree'))
      (tree : engine'.tree = tree'.carryOut (resultEvent result))
      (parkedPayload : engine'.parkedPayload = engine.parkedPayload)
      (responses : engine'.responses = engine.responses ++ [.payload tx (payloadResult result)])

theorem onEngineMessage_newPayload (σ : SetOrder B256) (engine : ConsensusEngine X)
    (payload : ExecutionData) (tx : ℕ) :
    Receives σ engine payload tx (engine.onEngineMessage σ (.newPayload payload tx)) := by
  cases onEngineMessage_newPayload_fully σ engine payload tx with
  | parked handled syncing event after =>
      rw [after]
      exact .parked handled syncing event rfl rfl rfl
  | quiet handled event after =>
      rw [after]
      refine .answered handled ?_ rfl rfl
      rw [event]
      rfl
  | @eventful outcome tree' treeEvent handled hevent _ after =>
      rw [after]
      refine .answered handled ?_ rfl rfl
      show _ = tree'.carryOut outcome.event
      rw [hevent]
      rfl

/-! ## Fork-choice updates -/

/-- The way out of a fork-choice message: the update is tracked and answered. -/
inductive Chooses (σ : SetOrder B256) (engine : ConsensusEngine X) (state : ForkchoiceState)
    (payloadAttrs : Option PayloadAttributes) (tx : ℕ) (version : UInt8)
    (engine' : ConsensusEngine X) : Prop
  | answered {result tree'}
      (handled : EngineTree.onForkchoiceUpdated σ engine.tree state payloadAttrs version
        = (result, tree'))
      (tree : engine'.tree = (tree'.track state result).carryOut (resultEvent result))
      (parkedPayload : engine'.parkedPayload = engine.parkedPayload)
      (responses : engine'.responses
        = engine.responses ++ [.forkchoice tx (result.map TreeOutcome.outcome)])

theorem onEngineMessage_forkchoiceUpdated (σ : SetOrder B256) (engine : ConsensusEngine X)
    (state : ForkchoiceState) (payloadAttrs : Option PayloadAttributes) (tx : ℕ) (version : UInt8) :
    Chooses σ engine state payloadAttrs tx version
      (engine.onEngineMessage σ (.forkchoiceUpdated state payloadAttrs tx version)) := by
  simp only [onEngineMessage]
  generalize hcall : EngineTree.onForkchoiceUpdated σ engine.tree state payloadAttrs version
    = handled
  obtain ⟨result, tree⟩ := handled
  cases result with
  | error error => exact .answered hcall rfl rfl rfl
  | ok outcome =>
      have hevent := onMaybeTreeEvent_eq
        { engine with tree := tree.track state (.ok outcome) } outcome.event
      have htree := congrArg ConsensusEngine.tree hevent
      have hparked := congrArg ConsensusEngine.parkedPayload hevent
      have hresponses := congrArg ConsensusEngine.responses hevent
      exact .answered hcall htree hparked (congrArg (· ++ [_]) hresponses)

/-! ## Download outcomes -/

/-- The tree without a block that is about to be inserted. -/
def takeOut (tree : EngineTree X) (hash : B256) (block : Block) : EngineTree X :=
  { tree with blockBuffer := tree.blockBuffer.drop hash block }

/-- What becomes of the parked payload when a block has been handled: it is
answered with the result if it was parked for that block. -/
inductive Answers (engine : ConsensusEngine X) (hash : B256) (result : PayloadResult)
    (engine' : ConsensusEngine X) : Prop
  | answered {parked} (wasParked : engine.parkedPayload = some parked)
      (own : parked.blockHash = hash) (parkedPayload : engine'.parkedPayload = none)
      (responses : engine'.responses = engine.responses ++ [.payload parked.tx result])
  | unrelated (other : ∀ parked, engine.parkedPayload = some parked → parked.blockHash ≠ hash)
      (parkedPayload : engine'.parkedPayload = engine.parkedPayload)
      (responses : engine'.responses = engine.responses)

/-- The ways out of the loop body for an unlocked hash. -/
inductive Unlocks (σ : SetOrder B256) (engine : ConsensusEngine X) (hash : B256)
    (engine' : ConsensusEngine X) : Prop
  /-- Block or proof is still missing. -/
  | locked (missing : ¬engine.tree.blockBuffer.Removable hash) (same : engine' = engine)
  /-- The block is handled. -/
  | handled {block proof result tree'} (ready : engine.tree.blockBuffer.Ready hash block proof)
      (handled : EngineTree.onDownloadedBlock σ (takeOut engine.tree hash block) block proof
        = (result, tree'))
      (tree : engine'.tree = tree'.carryOut (resultEvent result))
      (answers : Answers engine hash (payloadResult result) engine')

theorem onUnlockedHash_cases (σ : SetOrder B256) (engine : ConsensusEngine X) (hash : B256) :
    Unlocks σ engine hash (engine.onUnlockedHash σ hash) := by
  by_cases hrem : engine.tree.blockBuffer.Removable hash
  · obtain ⟨block, proof, hready⟩ := hrem
    have hkey : block.hash = hash := BlockBuffer.hash_of_get hready.1
    unfold onUnlockedHash
    rw [BlockBuffer.removeBlock_of_ready hready]
    simp only
    generalize hcall : EngineTree.onDownloadedBlock σ _ block proof = handled
    replace hcall : EngineTree.onDownloadedBlock σ (takeOut engine.tree hash block) block proof
        = handled := hcall
    obtain ⟨result, tree⟩ := handled
    have hevent := onMaybeTreeEvent_eq { engine with tree } (resultEvent result)
    simp only [hevent]
    split
    · next hparked => exact .handled hready hcall rfl (.unrelated (by simp [hparked]) rfl rfl)
    · next parked hparked =>
        split
        · next heq => exact .handled hready hcall rfl (.answered hparked (heq.trans hkey) rfl rfl)
        · next hne =>
            refine .handled hready hcall rfl (.unrelated (fun parked' hparked' => ?_) rfl rfl)
            rw [hparked] at hparked'
            cases hparked'
            rwa [← hkey]
  · refine .locked hrem ?_
    unfold onUnlockedHash
    rw [BlockBuffer.removeBlock_of_not_removable hrem]

/-- The hash a download outcome unlocks. -/
def unlockedHash : DownloadData X.Proof → B256
  | .finalizedBlock block _ => block.hash
  | .fullBlock block => block.hash
  | .proof blockHash _ => blockHash

/-- Where the data of a download outcome goes. -/
def store (tree : EngineTree X) : DownloadData X.Proof → EngineTree X
  | .finalizedBlock block ancestors => insertFinalized tree block ancestors
  | .fullBlock block => { tree with blockBuffer := tree.blockBuffer.insertBlock block }
  | .proof blockHash proof =>
      { tree with blockBuffer := tree.blockBuffer.insertProof blockHash proof }

/-- The ways out of a download outcome that does not stop the engine. -/
inductive Delivers (σ : SetOrder B256) (engine : ConsensusEngine X) (data : DownloadData X.Proof)
    (engine' : ConsensusEngine X) : Prop
  /-- The senders of a full block cannot be recovered: it is dropped. -/
  | dropped {block} (isBlock : data = .fullBlock block) (same : engine' = engine)
  | stored (unlocks : Unlocks σ { engine with tree := store engine.tree data } (unlockedHash data)
      engine')

/-- A full block without recoverable senders is dropped; everything else is stored
and unlocks its hash. -/
theorem onDownloadOutcome_stores {σ : SetOrder B256} {data : DownloadData X.Proof}
    (h : engine.onDownloadOutcome σ data = (.ok (), engine')) :
    (∃ block, data = .fullBlock block ∧ X.tryRecover block = false ∧ engine' = engine) ∨
      (∀ block, data = .fullBlock block → X.tryRecover block = true) ∧
        Unlocks σ { engine with tree := store engine.tree data } (unlockedHash data) engine' := by
  cases data with
  | finalizedBlock block ancestors =>
      simp only [onDownloadOutcome] at h
      split at h
      · simp only [Prod.mk.injEq, true_and] at h
        exact .inr ⟨nofun, h ▸ onUnlockedHash_cases σ _ block.hash⟩
      · cases h
  | fullBlock block =>
      simp only [onDownloadOutcome] at h
      split at h <;> simp only [Prod.mk.injEq, true_and] at h
      · next hrecovered =>
          refine .inr ⟨?_, h ▸ onUnlockedHash_cases σ _ block.hash⟩
          rintro _ ⟨⟩
          exact hrecovered
      · next hunrecovered =>
          exact .inl ⟨block, rfl, Bool.eq_false_of_not_eq_true hunrecovered, h.symm⟩
  | proof blockHash proof =>
      simp only [onDownloadOutcome, Prod.mk.injEq, true_and] at h
      exact .inr ⟨nofun, h ▸ onUnlockedHash_cases σ _ blockHash⟩

theorem onDownloadOutcome_cases {σ : SetOrder B256} {data : DownloadData X.Proof}
    (h : engine.onDownloadOutcome σ data = (.ok (), engine')) : Delivers σ engine data engine' := by
  rcases onDownloadOutcome_stores h with ⟨block, hdata, -, hsame⟩ | ⟨-, unlocks⟩
  · exact .dropped hdata hsame
  · exact .stored unlocks

end ConsensusEngine

end ZkRess
