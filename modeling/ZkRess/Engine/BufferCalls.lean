import ZkRess.Engine.BufferOperations
import ZkRess.Engine.TreeSteps

/-!
# Events as calls of the buffer

The engine reaches its block buffer only through the buffer's own methods, and
inserts delivered blocks only.  Each event is a sequence of such calls
(`Step.calls`), so what the buffer promises under any sequence of calls, it
promises in every run of the engine.
-/

namespace ZkRess

open Foundation

variable {X : Externals} {feed : Feed X}

/-- The second buffer is the first after some calls, with delivered blocks. -/
def Calls (feed : Feed X) (buffer buffer' : BlockBuffer X.Proof) : Prop :=
  ∃ ops : List (BufferOp X.Proof),
    (∀ op ∈ ops, op.Conforms feed.preimage) ∧ buffer' = buffer.applyAll ops

namespace Calls

variable {buffer buffer' buffer'' : BlockBuffer X.Proof}

theorem refl (buffer : BlockBuffer X.Proof) : Calls feed buffer buffer := ⟨[], nofun, rfl⟩

theorem of_eq (h : buffer' = buffer) : Calls feed buffer buffer' := by
  rw [h]
  exact refl buffer

theorem trans (h : Calls feed buffer buffer') (h' : Calls feed buffer' buffer'') :
    Calls feed buffer buffer'' := by
  obtain ⟨ops, hops, rfl⟩ := h
  obtain ⟨ops', hops', rfl⟩ := h'
  refine ⟨ops ++ ops', fun op hmem => ?_, (List.foldl_append ..).symm⟩
  exact (List.mem_append.mp hmem).elim (hops op) (hops' op)

theorem call (buffer : BlockBuffer X.Proof) (op : BufferOp X.Proof)
    (hop : op.Conforms feed.preimage) : Calls feed buffer (buffer.apply op) := by
  refine ⟨[op], fun op' hmem => ?_, rfl⟩
  rwa [List.mem_singleton.mp hmem]

theorem insertBlock (buffer : BlockBuffer X.Proof) {block : Block} (hblock : block ∈ feed.blocks) :
    Calls feed buffer (buffer.insertBlock block) :=
  call buffer (.insertBlock block) (feed.blocks_conform block hblock)

theorem bufferWith (buffer : BlockBuffer X.Proof) {block : Block} (hblock : block ∈ feed.blocks)
    (maybeProof : Option X.Proof) :
    Calls feed buffer (EngineTree.bufferWith buffer block maybeProof) := by
  cases maybeProof with
  | none => exact insertBlock buffer hblock
  | some proof =>
      have hproof : Calls feed buffer (buffer.insertProof block.hash proof) :=
        call buffer (.insertProof block.hash proof) trivial
      exact hproof.trans (insertBlock _ hblock)

/-- Indexes and LRU stay in order. -/
theorem sound (h : Calls feed buffer buffer') (hsound : buffer.Sound feed.preimage) :
    buffer'.Sound feed.preimage := by
  obtain ⟨ops, hops, rfl⟩ := h
  exact hsound.applyAll hops

end Calls

namespace EngineTree

variable {tree tree' : EngineTree X}

theorem Inserts.calls {block : Block} {maybeProof : Option X.Proof}
    {result : Except InsertBlockErrorKind InsertPayloadOk}
    (h : Inserts tree block maybeProof result tree') (hblock : block ∈ feed.blocks) :
    Calls feed tree.blockBuffer tree'.blockBuffer := by
  cases h with
  | alreadySeen | malformed | rejected | verified => exact .refl _
  | disconnected => exact .bufferWith _ hblock maybeProof
  | noProof => exact .insertBlock _ hblock

theorem Connects.calls {child : Block} {proof : X.Proof}
    {result : Except InsertBlockFatalError Unit}
    (h : Connects tree child proof result tree') (hchild : child ∈ feed.blocks) :
    Calls feed tree.blockBuffer tree'.blockBuffer := by
  cases h with
  | inserted inserts => exact inserts.calls hchild
  | syncTarget inserts =>
      exact (inserts.calls hchild).trans (.of_eq (makeCanonical_blockBuffer _ _))
  | failed inserts fails
  | failedFatally inserts fails => exact (inserts.calls hchild).trans (.of_eq fails.blockBuffer)

theorem connectBlocks_calls (blocks : List (Block × X.Proof))
    (hblocks : ∀ pair ∈ blocks, pair.1 ∈ feed.blocks) :
    Calls feed tree.blockBuffer (connectBlocks blocks tree).2.blockBuffer := by
  obtain ⟨_, ⟨hcalls, -⟩, -⟩ := connectBlocks_preserves
    (fun rest tree' => Calls feed tree.blockBuffer tree'.blockBuffer ∧
      ∀ pair ∈ rest, pair.1 ∈ feed.blocks)
    (fun {child proof rest _ _ _} h hconnects => by
      obtain ⟨hcalls, hpairs⟩ := h
      exact ⟨hcalls.trans (hconnects.calls (hpairs (child, proof) List.mem_cons_self)),
        fun pair hpair => hpairs pair (List.mem_cons_of_mem _ hpair)⟩)
    blocks ⟨.refl tree.blockBuffer, hblocks⟩
  exact hcalls

theorem tryConnectBufferedBlocks_calls (σ : SetOrder B256) (hfed : FedBy feed tree.blockBuffer)
    (parentHash : B256) :
    Calls feed tree.blockBuffer (tryConnectBufferedBlocks σ tree parentHash).2.blockBuffer := by
  have hremoved := BlockBuffer.removeBlockWithChildren_spec σ parentHash hfed.wellFormed
  have htaken : Calls feed tree.blockBuffer
      (tree.blockBuffer.removeBlockWithChildren σ parentHash).2 :=
    .call tree.blockBuffer (.removeBlockWithChildren σ parentHash) trivial
  refine htaken.trans (connectBlocks_calls _ fun pair hpair => ?_)
  exact (hfed.ready_fed (hremoved.ready pair hpair)).1

theorem Handles.calls {σ : SetOrder B256} {check : B256} {block : Block}
    {maybeProof : Option X.Proof}
    {result : Except InsertBlockFatalError (TreeOutcome PayloadStatus)}
    (h : Handles σ tree check block maybeProof result tree') (hfed : FedBy feed tree.blockBuffer)
    (hblock : block ∈ feed.blocks)
    (hproof : ∀ proof, maybeProof = some proof → proof ∈ feed.proofs block.hash) :
    Calls feed tree.blockBuffer tree'.blockBuffer := by
  have hconnect : ∀ {tree₁ tree₂ tree₃ result r}, Checks tree check block.hash none tree₁ →
      Inserts tree₁ block maybeProof (.ok result) tree₂ →
      tryConnectBufferedBlocks σ tree₂ block.hash = (r, tree₃) →
        Calls feed tree.blockBuffer tree₃.blockBuffer := by
    intro tree₁ tree₂ tree₃ result r checks inserts connects
    have hfed₁ : FedBy feed tree₁.blockBuffer := checks.blockBuffer ▸ hfed
    have hcalls :=
      tryConnectBufferedBlocks_calls σ (inserts.takes hfed₁ hblock hproof).fed block.hash
    rw [connects] at hcalls
    exact ((Calls.of_eq checks.blockBuffer).trans (inserts.calls hblock)).trans hcalls
  have hinsert : ∀ {tree₁ tree₂ r}, Checks tree check block.hash none tree₁ →
      Inserts tree₁ block maybeProof r tree₂ → Calls feed tree.blockBuffer tree₂.blockBuffer :=
    fun checks inserts => (Calls.of_eq checks.blockBuffer).trans (inserts.calls hblock)
  cases h with
  | invalidAncestor checks => exact .of_eq checks.blockBuffer
  | connected checks inserts _ connects => exact hconnect checks inserts connects
  | connectFailed checks inserts _ connects => exact hconnect checks inserts connects
  | seen checks inserts
  | disconnected checks inserts
  | noProof checks inserts => exact hinsert checks inserts
  | failed checks inserts fails
  | failedFatally checks inserts fails =>
      exact (hinsert checks inserts).trans (.of_eq fails.blockBuffer)

theorem cleanUp_calls (σ : SetOrder B256) (finalizedHash : B256) :
    Calls feed tree.blockBuffer (cleanUp σ tree finalizedHash).blockBuffer := by
  unfold cleanUp
  simp only
  split
  · next finalizedNumber _ =>
      exact .call tree.blockBuffer (.evictOldBlocks σ finalizedNumber) trivial
  · exact .refl _

theorem Updates.calls {σ : SetOrder B256} {state : ForkchoiceState}
    {result : Except ProviderError (TreeOutcome OnForkChoiceUpdated)}
    (h : Updates σ tree state result tree') : Calls feed tree.blockBuffer tree'.blockBuffer := by
  cases h with
  | refused peeks | atHead peeks | known peeks | syncing peeks => exact .of_eq peeks.blockBuffer
  | inconsistent peeks => exact .of_eq peeks.blockBuffer
  | applied peeks => exact (Calls.of_eq peeks.blockBuffer).trans (cleanUp_calls σ _)

end EngineTree

namespace ConsensusEngine

variable {engine engine' : ConsensusEngine X}

theorem Receives.calls {σ : SetOrder B256} {payload : ExecutionData} {tx : ℕ}
    (h : Receives σ engine payload tx engine') (hfed : FedBy feed engine.tree.blockBuffer)
    (hprovides : feed.Provides (.message (.newPayload payload tx))) :
    Calls feed engine.tree.blockBuffer engine'.tree.blockBuffer := by
  have htaken : Calls feed engine.tree.blockBuffer
      (engine.tree.blockBuffer.removeProof payload.blockHash).2 :=
    .call engine.tree.blockBuffer (.removeProof payload.blockHash) trivial
  have hall : Calls feed engine.tree.blockBuffer
      (callNewPayload σ engine.tree payload).2.blockBuffer := by
    refine htaken.trans ?_
    unfold callNewPayload
    cases hformed : X.ensureWellFormedPayload payload with
    | error error =>
        obtain ⟨_, _, hpeeks, heq⟩ := EngineTree.onNewPayload_malformed σ
          { engine.tree with
            blockBuffer := (engine.tree.blockBuffer.removeProof payload.blockHash).2 }
          (engine.tree.blockBuffer.removeProof payload.blockHash).1 hformed
        rw [heq]
        exact .of_eq hpeeks.blockBuffer
    | ok block =>
        obtain ⟨hblock, hhash⟩ := hprovides block hformed
        refine (EngineTree.onNewPayload_cases σ _ _ hformed).calls
          (hfed.removeProof payload.blockHash) hblock fun proof hproof => ?_
        rw [hhash]
        exact hfed.removeProof_fed hproof
  cases h with
  | parked handled _ _ tree =>
      rw [handled] at hall
      rwa [tree]
  | answered handled tree =>
      rw [handled] at hall
      rw [tree]
      exact hall.trans (.of_eq (EngineTree.carryOut_blockBuffer _ _))

theorem Chooses.calls {σ : SetOrder B256} {state : ForkchoiceState}
    {payloadAttrs : Option PayloadAttributes} {tx : ℕ} {version : UInt8}
    (h : Chooses σ engine state payloadAttrs tx version engine') :
    Calls feed engine.tree.blockBuffer engine'.tree.blockBuffer := by
  cases h with
  | @answered result tree' handled tree =>
      have hupdated : Calls feed engine.tree.blockBuffer _ :=
        (EngineTree.onForkchoiceUpdated_cases σ engine.tree state payloadAttrs version).calls
      rw [handled] at hupdated
      rw [tree]
      exact hupdated.trans (.of_eq (by simp))

theorem Unlocks.calls {σ : SetOrder B256} {hash : B256} (h : Unlocks σ engine hash engine')
    (hfed : FedExcept feed hash engine.tree.blockBuffer) :
    Calls feed engine.tree.blockBuffer engine'.tree.blockBuffer := by
  cases h with
  | locked missing same => exact .of_eq (congrArg (fun engine => engine.tree.blockBuffer) same)
  | @handled block proof result tree' ready handled tree =>
      have htaken : Calls feed engine.tree.blockBuffer
          (takeOut engine.tree hash block).blockBuffer := by
        refine ⟨[.removeBlock hash], fun op hmem => ?_, ?_⟩
        · rw [List.mem_singleton.mp hmem]
          trivial
        · show _ = (engine.tree.blockBuffer.removeBlock hash).2
          rw [BlockBuffer.removeBlock_of_ready ready]
          rfl
      have hproof := hfed.proofs hash proof ready.2
      rw [← BlockBuffer.hash_of_get ready.1] at hproof
      have hhandled := (EngineTree.onDownloadedBlock_cases σ (takeOut engine.tree hash block) block
        proof).calls (hfed.drop ready) (hfed.blocks hash block ready.1) (by
          rintro _ ⟨⟩
          exact hproof)
      rw [handled] at hhandled
      rw [tree]
      exact (htaken.trans hhandled).trans (.of_eq (EngineTree.carryOut_blockBuffer _ _))

theorem store_calls (tree : EngineTree X) {data : DownloadData X.Proof}
    (hprovides : feed.Provides (.outcome data)) :
    Calls feed tree.blockBuffer (store tree data).blockBuffer := by
  cases data with
  | finalizedBlock block ancestors => exact .refl _
  | fullBlock block => exact .insertBlock _ hprovides
  | proof blockHash proof => exact .call tree.blockBuffer (.insertProof blockHash proof) trivial

/-- **Every event is a sequence of buffer calls.** -/
theorem Step.calls {event : Processed X.Proof} (step : Step engine event engine')
    (hfed : FedBy feed engine.tree.blockBuffer) (hprovides : feed.Provides event) :
    Calls feed engine.tree.blockBuffer engine'.tree.blockBuffer := by
  cases step with
  | message σ message =>
      cases message with
      | newPayload payload tx =>
          exact (onEngineMessage_newPayload σ engine payload tx).calls hfed hprovides
      | forkchoiceUpdated state payloadAttrs tx version =>
          exact (onEngineMessage_forkchoiceUpdated σ engine state payloadAttrs tx version).calls
  | outcome σ data handled =>
      cases onDownloadOutcome_cases handled with
      | dropped _ same => exact .of_eq (congrArg (fun engine => engine.tree.blockBuffer) same)
      | stored unlocks =>
          exact (store_calls engine.tree hprovides).trans
            (unlocks.calls (FedBy.store hfed hprovides))
  | timeout => exact .refl _

/-- **Every run is one**, from its first buffer to its last. -/
theorem Run.calls {meets : ConsensusEngine X → Processed X.Proof → Prop}
    (hmeets : ∀ engine event, meets engine event → feed.Provides event)
    {start engine : ConsensusEngine X} {trace : List (Processed X.Proof)}
    (run : Run meets start trace engine) (hfed : FedBy feed start.tree.blockBuffer) :
    Calls feed start.tree.blockBuffer engine.tree.blockBuffer ∧
      FedBy feed engine.tree.blockBuffer := by
  induction run with
  | start => exact ⟨.refl _, hfed⟩
  | polled _ _ ih => exact ih
  | step _ met step ih =>
      exact ⟨ih.1.trans (step.calls ih.2 (hmeets _ _ met)), (step.takes ih.2 (hmeets _ _ met)).fed⟩

/-- The buffer of a launched engine is in order, indexes included. -/
theorem FedRun.sound_buffer {genesis : Block} {trace : List (Processed X.Proof)}
    {engine : ConsensusEngine X} (run : FedRun feed (launch X genesis) trace engine) :
    engine.tree.blockBuffer.Sound feed.preimage :=
  (Run.calls (fun _ _ met => met) run (.new feed)).1.sound (.new (by decide))

end ConsensusEngine

end ZkRess
