import ZkRess.Engine.WaitingChain

/-!
# The next block on the canonical head

The everyday case of the tree: a block whose parent is the canonical head.  With its proof it
is stored, reported as canonical and answered with `Valid` (`OnHead.onDownloadedBlock`), if
nothing waits for it in the buffer; chosen as the head it is a chain update of one header, and
the update is answered with `Valid` (`OnHead.onForkchoiceUpdated`).
-/

namespace ZkRess

open Foundation

variable {X : Externals} {feed : Feed X} {tree : EngineTree X} {block : Block} {proof : X.Proof}

/-! ## The buffer -/

namespace BlockBuffer

variable {P : Type} {buffer buffer' : BlockBuffer P}

/-- A part of a buffer has room if the buffer has. -/
theorem Sub.card_le (h : Sub buffer' buffer) : buffer'.blocks.card ≤ buffer.blocks.card := by
  refine Finset.card_le_card fun hash hmem => ?_
  obtain ⟨block, hblock⟩ := FiniteMap.mem_keys_iff.mp hmem
  exact FiniteMap.mem_keys_iff.mpr ⟨block, h.blocks hash block hblock⟩

theorem Sub.not_removable (h : Sub buffer' buffer) {hash : B256}
    (hnone : ¬buffer.Removable hash) : ¬buffer'.Removable hash := by
  rintro ⟨block, proof, hblock, hproof⟩
  exact hnone ⟨block, proof, h.blocks hash block hblock, h.proofs hash proof hproof⟩

theorem Sub.get_eq_none (h : Sub buffer' buffer) {hash : B256}
    (hnone : buffer.blocks.get hash = none) : buffer'.blocks.get hash = none :=
  Option.eq_none_iff_forall_not_mem.mpr fun block hblock => by
    cases hnone.symm.trans (h.blocks hash block hblock)

theorem Sub.proof_eq_none (h : Sub buffer' buffer) {hash : B256}
    (hnone : buffer.proofs.get hash = none) : buffer'.proofs.get hash = none :=
  Option.eq_none_iff_forall_not_mem.mpr fun proof hproof => by
    cases hnone.symm.trans (h.proofs hash proof hproof)

end BlockBuffer

namespace EngineTree

theorem cleanUp_canonicalHead (σ : SetOrder B256) (tree : EngineTree X) (finalizedHash : B256) :
    (cleanUp σ tree finalizedHash).canonicalHead = tree.canonicalHead := by
  unfold cleanUp
  simp only
  split <;> rfl

theorem cleanUp_events (σ : SetOrder B256) (tree : EngineTree X) (finalizedHash : B256) :
    (cleanUp σ tree finalizedHash).events = tree.events := by
  unfold cleanUp
  simp only
  split <;> rfl

theorem cleanUp_forkchoiceStateTracker (σ : SetOrder B256) (tree : EngineTree X)
    (finalizedHash : B256) :
    (cleanUp σ tree finalizedHash).forkchoiceStateTracker = tree.forkchoiceStateTracker := by
  unfold cleanUp
  simp only
  split <;> rfl

theorem checkInvalidAncestor_of_unmarked (hsteady : X.invalidHeaderCache.Steady) {head : B256}
    (h : tree.Unmarked head) : tree.checkInvalidAncestor head = (none, tree) := by
  have hnone : (X.invalidHeaderCache.contents tree.invalidHeaders).get head = none :=
    Option.eq_none_iff_forall_not_mem.mpr fun entry hentry => h ⟨entry, hentry⟩
  unfold checkInvalidAncestor
  rw [hsteady _ _ hnone]

/-- **A block on the canonical head**, which is stored. -/
structure OnHead (tree : EngineTree X) (block : Block) : Prop where
  head : tree.HeadStored
  parent : block.parentHash = tree.canonicalHead.hash
  number : block.number = tree.canonicalHead.number + 1

/-- The tree with a block as its head, cleaned up. -/
def advance (σ : SetOrder B256) (tree : EngineTree X) (block : Block) (finalizedHash : B256) :
    EngineTree X :=
  cleanUp σ (tree.onCanonicalChainUpdate (.commit (HeadChain.ofWalk block.toSealedHeader [])))
    finalizedHash

theorem advance_provider (σ : SetOrder B256) (tree : EngineTree X) (block : Block)
    (finalizedHash : B256) :
    (advance σ tree block finalizedHash).provider
      = (tree.provider.insertCanonicalHash block.number block.hash).onFinalized finalizedHash :=
  cleanUp_provider σ _ finalizedHash

theorem advance_canonicalHead (σ : SetOrder B256) (tree : EngineTree X) (block : Block)
    (finalizedHash : B256) : (advance σ tree block finalizedHash).canonicalHead = block.numHash :=
  cleanUp_canonicalHead σ _ finalizedHash

theorem advance_events (σ : SetOrder B256) (tree : EngineTree X) (block : Block)
    (finalizedHash : B256) :
    (advance σ tree block finalizedHash).events
      = tree.events ++ [.canonicalChainCommitted block.toSealedHeader] :=
  cleanUp_events σ _ finalizedHash

theorem advance_invalidHeaders (σ : SetOrder B256) (tree : EngineTree X) (block : Block)
    (finalizedHash : B256) :
    (advance σ tree block finalizedHash).invalidHeaders = tree.invalidHeaders :=
  cleanUp_invalidHeaders σ _ finalizedHash

theorem advance_forkchoiceStateTracker (σ : SetOrder B256) (tree : EngineTree X) (block : Block)
    (finalizedHash : B256) :
    (advance σ tree block finalizedHash).forkchoiceStateTracker = tree.forkchoiceStateTracker :=
  cleanUp_forkchoiceStateTracker σ _ finalizedHash

theorem advance_sub (σ : SetOrder B256) (hfed : FedBy feed tree.blockBuffer) (block : Block)
    (finalizedHash : B256) :
    BlockBuffer.Sub (advance σ tree block finalizedHash).blockBuffer tree.blockBuffer := by
  have hfed' : FedBy feed (tree.onCanonicalChainUpdate
      (.commit (HeadChain.ofWalk block.toSealedHeader []))).blockBuffer := hfed
  exact (cleanUp_sub σ hfed' finalizedHash).2

namespace OnHead

theorem contains_parent (h : tree.OnHead block) : tree.provider.Contains block.parentHash := by
  obtain ⟨header, hheader, -⟩ := h.head.stored
  rw [h.parent]
  exact ChainState.contains_iff_sealedHeader.mpr ⟨header, hheader⟩

/-- It is no fork. -/
theorem isFork_insertBlock (h : tree.OnHead block) (hfresh : ¬tree.provider.Contains block.hash)
    (maybeProof : Option X.Proof) :
    { tree with provider := tree.provider.insertBlock block maybeProof }.isFork block.hash
      = false := by
  obtain ⟨header, hheader, hnumber⟩ := h.head.stored
  have hne : block.hash ≠ tree.canonicalHead.hash := by
    intro heq
    exact hfresh (heq ▸ ChainState.contains_iff_sealedHeader.mpr ⟨header, hheader⟩)
  have hown : (tree.provider.insertBlock block maybeProof).sealedHeader block.hash
      = some block.toSealedHeader := by
    unfold ChainState.sealedHeader
    rw [ChainState.insertBlock_get, if_pos rfl]
    rfl
  have hparent : (tree.provider.insertBlock block maybeProof).sealedHeader tree.canonicalHead.hash
      = some header := by
    unfold ChainState.sealedHeader at hheader ⊢
    rw [ChainState.insertBlock_get, if_neg (Ne.symm hne)]
    exact hheader
  -- two blocks are stored, so the walk comes to the head
  obtain ⟨fuel, hfuel⟩ : ∃ n,
      (tree.provider.insertBlock block maybeProof).blocksByHash.card = n + 2 := by
    have hboth : ∀ hash ∈ [block.hash, tree.canonicalHead.hash],
        (tree.provider.insertBlock block maybeProof).Contains hash := by
      intro hash hmem
      rcases List.mem_pair.mp hmem with rfl | rfl
      · exact ChainState.contains_iff_sealedHeader.mpr ⟨_, hown⟩
      · exact ChainState.contains_iff_sealedHeader.mpr ⟨_, hparent⟩
    have hnodup : [block.hash, tree.canonicalHead.hash].Nodup := by simpa using hne
    have hcard := KeyedMap.length_le_card hnodup hboth
    exact ⟨_, (Nat.sub_add_cancel hcard).symm⟩
  have hheadHash := ChainState.hash_of_sealedHeader hheader
  unfold isFork
  simp only [hfuel, isForkFrom, hown]
  have hparentHash : block.toSealedHeader.parentHash = tree.canonicalHead.hash := h.parent
  have hownHash : block.toSealedHeader.hash = block.hash := rfl
  have hownNumber : block.toSealedHeader.number = tree.canonicalHead.number + 1 := h.number
  rw [hownHash, if_neg hne, hownNumber, if_neg (Nat.not_succ_le_self _), hparentHash, hparent]
  simp only [hheadHash, if_true]

/-- **With a proof that is accepted it is stored**, and reported as canonical. -/
theorem insertBlock (h : tree.OnHead block) (hfresh : ¬tree.provider.Contains block.hash)
    (hvalid : validateBlock X block = .ok ())
    (hverified : ∀ parent, tree.provider.sealedHeader block.parentHash = some parent →
      X.verify tree.provider block parent proof = .ok ()) :
    tree.insertBlock block (some proof) = (.ok (.inserted .valid), { tree with
      provider := tree.provider.insertBlock block (some proof)
      events := tree.events ++ [.canonicalBlockAdded block] }) := by
  have hevent : tree.addVerified block proof = { tree with
      provider := tree.provider.insertBlock block (some proof)
      events := tree.events ++ [.canonicalBlockAdded block] } := by
    unfold addVerified emitEvent
    simp only [h.isFork_insertBlock hfresh, Bool.false_eq_true, if_false]
  rw [← hevent]
  have hinserts := insertBlock_cases tree block (some proof)
  generalize tree.insertBlock block (some proof) = inserted at hinserts ⊢
  obtain ⟨result, tree'⟩ := inserted
  cases hinserts with
  | alreadySeen known => exact absurd known hfresh
  | malformed _ failed => cases hvalid.symm.trans failed
  | disconnected _ _ orphan => exact absurd h.contains_parent orphan
  | noProof _ _ _ unproved => cases unproved
  | rejected _ _ connected proved failed =>
      cases proved
      cases (hverified _ connected).symm.trans failed
  | verified _ _ _ proved _ =>
      cases proved
      rfl

/-- **A download of it is answered with `Valid`**, if nothing waits in the buffer. -/
theorem onDownloadedBlock (h : tree.OnHead block) (hsteady : X.invalidHeaderCache.Steady)
    (hwellFormed : tree.blockBuffer.WellFormed)
    (hfresh : ¬tree.provider.Contains block.hash)
    (hnoBlock : tree.blockBuffer.blocks.get block.hash = none)
    (hnone : ∀ hash, ¬tree.blockBuffer.Removable hash)
    (hunmarked : tree.Unmarked block.hash) (huntargeted : tree.isSyncTargetHead block.hash = false)
    (hvalid : validateBlock X block = .ok ())
    (hverified : ∀ parent, tree.provider.sealedHeader block.parentHash = some parent →
      X.verify tree.provider block parent proof = .ok ()) (σ : SetOrder B256) :
    ∃ buffer, BlockBuffer.Sub buffer tree.blockBuffer ∧
      onDownloadedBlock σ tree block proof = (.ok ⟨⟨.valid, some block.hash⟩, none⟩,
        { tree with
          provider := tree.provider.insertBlock block (some proof)
          blockBuffer := buffer
          events := tree.events ++ [.canonicalBlockAdded block] }) := by
  have hspec := BlockBuffer.removeBlockWithChildren_spec σ block.hash hwellFormed
  -- nothing in the buffer can be taken out
  have hnothing : (tree.blockBuffer.removeBlockWithChildren σ block.hash).1 = [] := by
    rw [List.eq_nil_iff_forall_not_mem]
    exact fun pair hpair => hnone pair.1.hash ⟨_, _, hspec.ready pair hpair⟩
  refine ⟨_, hspec.sub, ?_⟩
  unfold EngineTree.onDownloadedBlock
  rw [lowestBufferedAncestorOr_of_get_none hnoBlock,
    checkInvalidAncestorWithHead_of_unmarked hsteady hunmarked]
  simp only [h.insertBlock hfresh hvalid hverified]
  generalize hadded : ({ tree with
      provider := tree.provider.insertBlock block (some proof)
      events := tree.events ++ [.canonicalBlockAdded block] } : EngineTree X) = added
  have htarget : added.isSyncTargetHead block.hash = false := hadded ▸ huntargeted
  have hbuffer : added.blockBuffer = tree.blockBuffer := hadded ▸ rfl
  unfold tryConnectBufferedBlocks
  simp only [htarget, Bool.false_eq_true, if_false, hbuffer, hnothing, connectBlocks]
  rw [← hadded]

/-! ## Choosing it -/

/-- Once stored, it is a chain update of one header. -/
theorem onNewHead (h : tree.OnHead block)
    (hstored : tree.provider.sealedHeader block.hash = some block.toSealedHeader) :
    tree.onNewHead block.hash
      = some (.commit (HeadChain.ofWalk block.toSealedHeader [])) := by
  have hparent : block.toSealedHeader.parentNumHash = ⟨block.number - 1, block.parentHash⟩ := rfl
  unfold EngineTree.onNewHead
  simp only [hstored, hparent, h.number, Nat.add_sub_cancel, Nat.sub_self, gatherAncestors,
    h.parent, if_true]

/-- **Chosen as the head it is answered with `Valid`**, if finalized and safe block are
canonical then and the payload attributes fit it. -/
theorem onForkchoiceUpdated (h : tree.OnHead block) (hsteady : X.invalidHeaderCache.Steady)
    {state : ForkchoiceState} (hchosen : state.headBlockHash = block.hash)
    (hnonzero : block.hash ≠ 0) (hnoBlock : tree.blockBuffer.blocks.get block.hash = none)
    (hunmarked : tree.Unmarked block.hash)
    (hstored : tree.provider.sealedHeader block.hash = some block.toSealedHeader)
    (hother : tree.canonicalHead.hash ≠ block.hash)
    (hconsistent : Consistent (tree.provider.insertCanonicalHash block.number block.hash) state)
    {payloadAttrs : Option PayloadAttributes} {version : UInt8}
    (hattrs : ∀ attrs, payloadAttrs = some attrs →
      validatePayloadAttributes X attrs block.toHeader state version = none) (σ : SetOrder B256) :
    onForkchoiceUpdated σ tree state payloadAttrs version
      = (.ok (.new (validHead state)), advance σ tree block state.finalizedBlockHash) := by
  have hlowest := lowestBufferedAncestorOr_of_get_none hnoBlock
  have hpassed : (tree.onCanonicalChainUpdate
      (.commit (HeadChain.ofWalk block.toSealedHeader []))).ensureConsistentForkchoiceState state
        = .ok () := by
    unfold ensureConsistentForkchoiceState
    rw [if_neg fun hnot => hconsistent.finalized.elim hnot.1 hnot.2,
      if_neg fun hnot => hconsistent.safe.elim hnot.1 hnot.2]
  have hanswer : validHead state = .valid ⟨.valid, some block.hash⟩ := by
    unfold validHead
    rw [hchosen]
  unfold EngineTree.onForkchoiceUpdated preValidateForkchoiceUpdate
  rw [hchosen, if_neg hnonzero, hlowest, checkInvalidAncestor_of_unmarked hsteady hunmarked]
  simp only [if_neg hother, h.onNewHead hstored, hpassed]
  cases payloadAttrs with
  | none =>
      rw [hanswer]
      rfl
  | some attrs =>
      have hnone := hattrs attrs rfl
      have htip : NewCanonicalChain.tip (.commit (HeadChain.ofWalk block.toSealedHeader []))
          = block.toSealedHeader := rfl
      simp only [htip, hnone]
      rw [hanswer]
      rfl

end OnHead

end EngineTree

end ZkRess
