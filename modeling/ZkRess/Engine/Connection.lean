import ZkRess.Engine.TreeSteps

/-!
# Connecting buffered blocks

When a block enters the provider, the blocks buffered below it are taken out of
the buffer and inserted in turn.  A block of them that still has no stored parent
goes back into the buffer.  The traversal returns no block after one of its
children, so its parent does not come later either: `Draining` is the invariant
of the loop, and at its end no block is buffered with its proof while its parent
is stored.
-/

namespace ZkRess

open Foundation

variable {X : Externals} {feed : Feed X}

/-! ## Providers that grow -/

/-- A provider that holds the initial blocks, and blocks of the forest. -/
structure Between (initial : ChainState X.Proof) (forest : List Block)
    (provider : ChainState X.Proof) : Prop where
  kept : ∀ hash block, initial.blocksByHash.get hash = some block →
    provider.blocksByHash.get hash = some block
  grown : ∀ hash block, provider.blocksByHash.get hash = some block →
    initial.blocksByHash.get hash = some block ∨ block ∈ forest

namespace Between

variable {initial provider provider' : ChainState X.Proof} {forest : List Block}

theorem refl (initial : ChainState X.Proof) (forest : List Block) :
    Between initial forest initial :=
  ⟨fun _ _ h => h, fun _ _ h => .inl h⟩

theorem contains (h : Between initial forest provider) {hash : B256}
    (hstored : initial.Contains hash) : provider.Contains hash := by
  obtain ⟨block, hblock⟩ := hstored
  exact ⟨block, h.kept hash block hblock⟩

theorem of_sameBlocks (h : Between initial forest provider)
    (hsame : provider'.blocksByHash = provider.blocksByHash) :
    Between initial forest provider' where
  kept hash block hold := hsame ▸ h.kept hash block hold
  grown hash block hnew := h.grown hash block (hsame ▸ hnew)

theorem insertBlock (h : Between initial forest provider) {block : Block} (hblock : block ∈ forest)
    (hfresh : ¬provider.Contains block.hash) (maybeProof : Option X.Proof) :
    Between initial forest (provider.insertBlock block maybeProof) where
  kept hash old hold := by
    rw [ChainState.insertBlock_get, if_neg, h.kept hash old hold]
    rintro rfl
    exact hfresh (h.contains ⟨old, hold⟩)
  grown hash new hnew := by
    rw [ChainState.insertBlock_get] at hnew
    split at hnew
    · obtain rfl := Option.some.inj hnew
      exact .inr hblock
    · exact h.grown hash new hnew

theorem mono {forest' : List Block} (h : Between initial forest provider)
    (hsub : forest ⊆ forest') :
    Between initial forest' provider where
  kept := h.kept
  grown hash block hnew := (h.grown hash block hnew).imp_right fun hmem => hsub hmem

theorem trans {forest' : List Block} (h : Between initial forest provider)
    (h' : Between provider forest' provider') : Between initial (forest ++ forest') provider' where
  kept hash block hold := h'.kept hash block (h.kept hash block hold)
  grown hash block hnew := by
    rcases h'.grown hash block hnew with hmiddle | hmem
    · exact (h.grown hash block hmiddle).imp_right (List.mem_append_left _)
    · exact .inr (List.mem_append_right forest hmem)

/-- A stored block was stored before, or has the hash of an added one. -/
theorem contains_cases (h : Between initial forest provider) {hash : B256}
    (hstored : provider.Contains hash) :
    initial.Contains hash ∨ ∃ block ∈ forest, block.hash = hash := by
  obtain ⟨block, hget⟩ := hstored
  rcases h.grown hash block hget with hold | hmem
  · exact .inl ⟨block, hold⟩
  · exact .inr ⟨block, hmem, ChainState.hash_of_get hget⟩

theorem sealedHeader (h : Between initial forest provider) {hash : B256} {header : SealedHeader}
    (hstored : initial.sealedHeader hash = some header) :
    provider.sealedHeader hash = some header := by
  obtain ⟨block, hget, rfl⟩ := ChainState.sealedHeader_eq_some.mp hstored
  exact ChainState.sealedHeader_eq_some.mpr ⟨block, h.kept hash block hget, rfl⟩

end Between

/-! ## What an insertion into the buffer makes ready -/

/-- The inserted block is ready if its proof was there; nothing else becomes
ready. -/
theorem FedExcept.ready_of_insertBlock {buffer : BlockBuffer X.Proof} {block : Block}
    (h : FedExcept feed block.hash buffer) {hash : B256} {block' : Block} {proof : X.Proof}
    (hready : (buffer.insertBlock block).Ready hash block' proof) :
    (hash = block.hash ∧ block' = block ∧ buffer.proofs.get hash = some proof) ∨
      (hash ≠ block.hash ∧ buffer.Ready hash block' proof) := by
  obtain ⟨hblock, hproof⟩ := hready
  obtain ⟨evicted, -, hkept, -, hgetBlock, hgetProof⟩ := BlockBuffer.get_insertBlock h.agrees block
  rw [hgetBlock] at hblock
  rw [hgetProof] at hproof
  by_cases hhash : hash = block.hash
  · rw [if_pos hhash] at hblock
    rw [hhash, if_neg hkept, ← hhash] at hproof
    cases hblock
    exact .inl ⟨hhash, rfl, hproof⟩
  · rw [if_neg hhash] at hblock
    refine .inr ⟨hhash, ?_⟩
    split at hblock
    · cases hblock
    · next hne =>
        rw [if_neg hne] at hproof
        exact ⟨hblock, hproof⟩

/-- The same with a proof for the block. -/
theorem FedBy.ready_of_bufferWith {buffer : BlockBuffer X.Proof} (h : FedBy feed buffer)
    {block : Block} {maybeProof : Option X.Proof}
    (hproof : ∀ proof, maybeProof = some proof → proof ∈ feed.proofs block.hash) {hash : B256}
    {block' : Block} {proof' : X.Proof}
    (hready : (EngineTree.bufferWith buffer block maybeProof).Ready hash block' proof') :
    (hash = block.hash ∧ block' = block) ∨
      (hash ≠ block.hash ∧ buffer.Ready hash block' proof') := by
  cases maybeProof with
  | none =>
      refine ((h.except block.hash).ready_of_insertBlock hready).imp_left ?_
      exact fun hown => ⟨hown.1, hown.2.1⟩
  | some proof =>
      refine ((h.insertProof (hproof proof rfl)).ready_of_insertBlock hready).imp ?_ ?_
      · exact fun hown => ⟨hown.1, hown.2.1⟩
      · rintro ⟨hne, hblock, hget⟩
        simp only [BlockBuffer.insertProof, FiniteMap.get_insert, if_neg hne] at hget
        exact ⟨hne, hblock, hget⟩

namespace EngineTree

variable {tree tree' : EngineTree X}

/-! ## What is added to the provider -/

/-- An insertion adds its block at most. -/
theorem Inserts.between {block : Block} {maybeProof : Option X.Proof}
    {result : Except InsertBlockErrorKind InsertPayloadOk}
    (h : Inserts tree block maybeProof result tree') :
      Between tree.provider [block] tree'.provider := by
  have hadded : ∀ proof, ¬tree.provider.Contains block.hash →
      Between tree.provider [block] (tree.addVerified block proof).provider := fun proof fresh =>
    (Between.refl _ _).insertBlock (List.mem_singleton_self block) fresh (some proof)
  match h with
  | .alreadySeen _ | .malformed _ _ | .rejected _ _ _ _ _ | .disconnected _ _ _
  | .noProof _ _ _ _ =>
      exact .refl _ _
  | .verified fresh _ _ _ _ => exact hadded _ fresh

theorem Connects.between {child : Block} {proof : X.Proof}
    {result : Except InsertBlockFatalError Unit} (h : Connects tree child proof result tree') :
    Between tree.provider [child] tree'.provider := by
  match h with
  | .inserted inserts _ => exact inserts.between
  | .syncTarget inserts _ => exact inserts.between.of_sameBlocks (makeCanonical_blocksByHash _ _)
  | .failed inserts fails | .failedFatally inserts fails =>
      rw [fails.provider]
      exact inserts.between

/-- The loop adds descendants only. -/
theorem connectBlocks_between (blocks : List (Block × X.Proof)) (tree : EngineTree X) :
    Between tree.provider (blocks.map Prod.fst) (connectBlocks blocks tree).2.provider := by
  induction blocks generalizing tree with
  | nil => exact .refl _ _
  | cons pair blocks ih =>
      obtain ⟨child, proof⟩ := pair
      rcases connectBlocks_cons tree child proof blocks with
        ⟨tree₁, hconnects, heq⟩ | ⟨fatal, tree₁, hconnects, heq⟩
      · rw [heq]
        exact hconnects.between.trans (ih tree₁)
      · rw [heq]
        exact hconnects.between.mono (List.singleton_sublist.mpr List.mem_cons_self).subset

/-! ## Stranded blocks -/

/-- **Unstranded**: apart from excepted hashes, no block is buffered with its
proof while its parent is stored. -/
def Unstranded (tree : EngineTree X) (excepted : Set B256) : Prop :=
  ∀ hash block proof, tree.blockBuffer.Ready hash block proof → hash ∉ excepted →
    ¬tree.provider.Contains block.parentHash

/-- With fewer stored and buffered blocks, no block becomes stranded. -/
theorem Unstranded.of_sub {excepted : Set B256} (h : tree.Unstranded excepted)
    (hprovider : ∀ hash, tree'.provider.Contains hash → tree.provider.Contains hash)
    (hbuffer : BlockBuffer.Sub tree'.blockBuffer tree.blockBuffer) : tree'.Unstranded excepted :=
  fun hash block proof hready hnot hstored =>
    h hash block proof (hbuffer.ready hready) hnot (hprovider _ hstored)

/-! ## The loop over the descendants -/

/-- **The invariant of the loop**: no buffered block waits with its proof for a
stored block, or for one that is still to be inserted. -/
structure Draining (feed : Feed X) (root : B256) (rest : List (Block × X.Proof))
    (tree : EngineTree X) : Prop where
  fed : FedBy feed tree.blockBuffer
  pending : ∀ pair ∈ rest, pair.1 ∈ feed.blocks ∧ pair.2 ∈ feed.proofs pair.1.hash
  ordered : rest.Pairwise fun earlier later =>
    earlier.1.hash ≠ root → earlier.1.parentHash ≠ later.1.hash
  rooted : tree.provider.Contains root
  unawaited : ∀ hash block proof, tree.blockBuffer.Ready hash block proof →
    ¬tree.provider.Contains block.parentHash ∧ block.parentHash ∉ BlockBuffer.hashes rest

/-- One block of the descendants. -/
theorem Connects.draining {root : B256} {child : Block} {proof : X.Proof}
    {rest : List (Block × X.Proof)} {result : Except InsertBlockFatalError Unit}
    (h : Draining feed root ((child, proof) :: rest) tree)
    (hconnects : Connects tree child proof result tree') : Draining feed root rest tree' := by
  obtain ⟨hchild, hproof⟩ := h.pending (child, proof) List.mem_cons_self
  obtain ⟨hhead, htail⟩ := List.pairwise_cons.mp h.ordered
  have hproof' : ∀ proof', some proof = some proof' → proof' ∈ feed.proofs child.hash := by
    rintro proof' ⟨⟩
    exact hproof
  -- what is buffered waits neither for the child nor for a later block
  have hkept : ∀ hash block proof, tree.blockBuffer.Ready hash block proof →
      ¬tree.provider.Contains block.parentHash ∧ block.parentHash ≠ child.hash ∧
        block.parentHash ∉ BlockBuffer.hashes rest := by
    intro hash block proof hready
    obtain ⟨horphan, hnot⟩ := h.unawaited hash block proof hready
    rw [BlockBuffer.hashes_cons, List.mem_cons, not_or] at hnot
    exact ⟨horphan, hnot⟩
  have hinserted : ∀ {result tree₁}, Inserts tree child (some proof) result tree₁ →
      ∀ hash block proof, tree₁.blockBuffer.Ready hash block proof →
        ¬tree₁.provider.Contains block.parentHash ∧
          block.parentHash ∉ BlockBuffer.hashes rest := by
    intro result tree₁ inserts hash block proof' hready
    cases inserts with
    | alreadySeen => exact ⟨(hkept _ _ _ hready).1, (hkept _ _ _ hready).2.2⟩
    | malformed => exact ⟨(hkept _ _ _ hready).1, (hkept _ _ _ hready).2.2⟩
    | rejected => exact ⟨(hkept _ _ _ hready).1, (hkept _ _ _ hready).2.2⟩
    | noProof _ _ _ unproved => cases unproved
    | verified =>
        obtain ⟨horphan, hne, hrest⟩ := hkept _ _ _ hready
        exact ⟨fun hstored => (ChainState.contains_insertBlock.mp hstored).elim hne horphan, hrest⟩
    | disconnected fresh _ orphan =>
        rcases h.fed.ready_of_bufferWith hproof' hready with ⟨-, rfl⟩ | ⟨-, hold⟩
        · -- the parent of the child is not among the later blocks
          refine ⟨orphan, fun hmem => ?_⟩
          obtain ⟨later, hlater, heq⟩ := List.mem_map.mp hmem
          exact hhead later hlater (fun hroot => fresh (hroot ▸ h.rooted)) heq.symm
        · exact ⟨(hkept _ _ _ hold).1, (hkept _ _ _ hold).2.2⟩
  refine ⟨(hconnects.takes h.fed hchild hproof).fed,
    fun pair hpair => h.pending pair (List.mem_cons_of_mem _ hpair), htail,
    hconnects.contains h.rooted, ?_⟩
  cases hconnects with
  | inserted inserts => exact hinserted inserts
  | syncTarget inserts =>
      intro hash block proof hready
      rw [makeCanonical_blockBuffer] at hready
      rw [contains_makeCanonical]
      exact hinserted inserts hash block proof hready
  | failed inserts fails
  | failedFatally inserts fails =>
      rw [fails.provider, fails.blockBuffer]
      exact hinserted inserts

/-- The descendants taken out of the buffer, before the first is inserted. -/
theorem Draining.of_removed {root : B256} (σ : SetOrder B256) (hfed : FedBy feed tree.blockBuffer)
    (hroot : tree.provider.Contains root)
    (hothers : ∀ hash block proof, tree.blockBuffer.Ready hash block proof →
      block.parentHash ≠ root → ¬tree.provider.Contains block.parentHash) :
    Draining feed root (tree.blockBuffer.removeBlockWithChildren σ root).1
      { tree with blockBuffer := (tree.blockBuffer.removeBlockWithChildren σ root).2 } := by
  have hremoved := BlockBuffer.removeBlockWithChildren_spec σ root hfed.wellFormed
  refine ⟨hfed.of_sub hremoved.wellFormed hremoved.sub, fun pair hpair => ?_, hremoved.ordered,
    hroot, fun hash block proof hready => ?_⟩
  · obtain ⟨hblock, -, hproof⟩ := hfed.ready_fed (hremoved.ready pair hpair)
    exact ⟨hblock, hproof⟩
  · obtain ⟨hne, hnot⟩ := hremoved.complete hash block proof hready
    exact ⟨hothers hash block proof (hremoved.sub.ready hready) hne, hnot⟩

/-- **Connecting strands nothing**, also when a fatal error ends it. -/
theorem tryConnectBufferedBlocks_unstranded {σ : SetOrder B256} {root : B256}
    {result : Except InsertBlockFatalError Unit}
    (h : tryConnectBufferedBlocks σ tree root = (result, tree'))
    (hfed : FedBy feed tree.blockBuffer) (hroot : tree.provider.Contains root)
    (hothers : ∀ hash block proof, tree.blockBuffer.Ready hash block proof →
      block.parentHash ≠ root → ¬tree.provider.Contains block.parentHash) :
    tree'.Unstranded ∅ := by
  obtain ⟨rest, hdraining, -⟩ := connectBlocks_preserves (Draining feed root)
    (fun h hconnects => hconnects.draining h) _ (Draining.of_removed σ hfed hroot hothers)
  rw [tryConnectBufferedBlocks_eq] at h
  rw [h] at hdraining
  exact fun hash block proof hready _ => (hdraining.unawaited hash block proof hready).1

/-! ## The handlers -/

/-- **Handling a block strands nothing.**  Without a proof for it there must be
none in the buffer either. -/
theorem Handles.unstranded {σ : SetOrder B256} {check : B256} {block : Block}
    {maybeProof : Option X.Proof}
    {result : Except InsertBlockFatalError (TreeOutcome PayloadStatus)}
    (h : Handles σ tree check block maybeProof result tree') (hfed : FedBy feed tree.blockBuffer)
    (hblock : block ∈ feed.blocks)
    (hproof : ∀ proof, maybeProof = some proof → proof ∈ feed.proofs block.hash)
    (hnone : maybeProof = none → tree.blockBuffer.proofs.get block.hash = none)
    (hunstranded : tree.Unstranded ∅) : tree'.Unstranded ∅ := by
  have hchecked : ∀ {status tree₁}, Checks tree check block.hash status tree₁ →
      FedBy feed tree₁.blockBuffer ∧ tree₁.Unstranded ∅ := by
    intro status tree₁ checks
    unfold Unstranded
    rw [checks.provider, checks.blockBuffer]
    exact ⟨hfed, hunstranded⟩
  have hconnect : ∀ {tree₁ tree₂ tree₃ result r}, Checks tree check block.hash none tree₁ →
      Inserts tree₁ block maybeProof (.ok result) tree₂ →
      (result = .inserted .valid ∨ result = .alreadySeen) →
      tryConnectBufferedBlocks σ tree₂ block.hash = (r, tree₃) → tree₃.Unstranded ∅ := by
    intro tree₁ tree₂ tree₃ result r checks inserts isIn connects
    obtain ⟨hfed₁, h₁⟩ := hchecked checks
    refine tryConnectBufferedBlocks_unstranded connects (inserts.takes hfed₁ hblock hproof).fed
      (inserts.contains_self isIn) fun hash block' proof hready hne => ?_
    cases inserts with
    | alreadySeen => exact h₁ hash block' proof hready (Set.notMem_empty hash)
    | verified =>
        intro hstored
        rcases ChainState.contains_insertBlock.mp hstored with heq | hold
        · exact hne heq
        · exact h₁ hash block' proof hready (Set.notMem_empty hash) hold
    | disconnected => simp at isIn
    | noProof => simp at isIn
  have hfail : ∀ {tree₁ tree₂ tree₃ kind r}, Checks tree check block.hash none tree₁ →
      Inserts tree₁ block maybeProof (.error kind) tree₂ → Fails tree₂ block kind r tree₃ →
      tree₃.Unstranded ∅ := by
    intro tree₁ tree₂ tree₃ kind r checks inserts fails
    obtain ⟨rfl, -⟩ := inserts.reason hproof
    unfold Unstranded
    rw [fails.provider, fails.blockBuffer]
    exact (hchecked checks).2
  cases h with
  | invalidAncestor checks => exact (hchecked checks).2
  | connected checks inserts isIn connects => exact hconnect checks inserts isIn connects
  | connectFailed checks inserts isIn connects => exact hconnect checks inserts isIn connects
  | seen checks inserts =>
      cases inserts with
      | alreadySeen => exact (hchecked checks).2
  | disconnected checks inserts =>
      obtain ⟨hfed₁, h₁⟩ := hchecked checks
      cases inserts with
      | disconnected _ _ orphan =>
          intro hash block' proof hready hnot
          rcases hfed₁.ready_of_bufferWith hproof hready with ⟨-, rfl⟩ | ⟨-, hold⟩
          · exact orphan
          · exact h₁ hash block' proof hold hnot
  | noProof checks inserts =>
      obtain ⟨hfed₁, h₁⟩ := hchecked checks
      have hbuffer := checks.blockBuffer
      cases inserts with
      | noProof _ _ _ unproved =>
          intro hash block' proof hready hnot
          rcases (hfed₁.except block.hash).ready_of_insertBlock hready with
            ⟨rfl, -, hget⟩ | ⟨-, hold⟩
          · rw [hbuffer, hnone unproved] at hget
            cases hget
          · exact h₁ hash block' proof hold hnot
  | failed checks inserts fails => exact hfail checks inserts fails
  | failedFatally checks inserts fails => exact hfail checks inserts fails

/-- The clean-up takes blocks out of provider and buffer only. -/
theorem cleanUp_sub (σ : SetOrder B256) (hfed : FedBy feed tree.blockBuffer)
    (finalizedHash : B256) :
    (∀ hash, (cleanUp σ tree finalizedHash).provider.Contains hash → tree.provider.Contains hash) ∧
      BlockBuffer.Sub (cleanUp σ tree finalizedHash).blockBuffer tree.blockBuffer := by
  unfold cleanUp
  simp only
  split
  · next finalizedNumber _ =>
      exact ⟨fun _ => ChainState.contains_of_onFinalized,
        (BlockBuffer.evictOldBlocks_spec σ hfed.wellFormed finalizedNumber).2⟩
  · exact ⟨fun _ => ChainState.contains_of_onFinalized, .refl _⟩

theorem contains_onCanonicalChainUpdate {update : NewCanonicalChain} {hash : B256} :
    (tree.onCanonicalChainUpdate update).provider.Contains hash ↔ tree.provider.Contains hash := by
  show (tree.provider.onChainUpdate update.new.headers update.old).Contains hash ↔ _
  unfold ChainState.Contains
  rw [(ChainState.onChainUpdate_sameBlocks _ _ _).blocksByHash]

/-- **Fork-choice updates** take blocks out of provider and buffer only. -/
theorem Updates.sub {σ : SetOrder B256} {state : ForkchoiceState}
    {result : Except ProviderError (TreeOutcome OnForkChoiceUpdated)}
    (h : Updates σ tree state result tree') (hfed : FedBy feed tree.blockBuffer) :
    (∀ hash, tree'.provider.Contains hash → tree.provider.Contains hash) ∧
      BlockBuffer.Sub tree'.blockBuffer tree.blockBuffer := by
  have hpeeks : ∀ {tree₁}, Peeks tree tree₁ →
      (∀ hash, tree₁.provider.Contains hash → tree.provider.Contains hash) ∧
        BlockBuffer.Sub tree₁.blockBuffer tree.blockBuffer := by
    intro tree₁ peeks
    rw [peeks.provider, peeks.blockBuffer]
    exact ⟨fun _ h => h, .refl _⟩
  cases h with
  | refused peeks => exact hpeeks peeks
  | atHead peeks => exact hpeeks peeks
  | inconsistent peeks =>
      obtain ⟨hprovider, hbuffer⟩ := hpeeks peeks
      exact ⟨fun hash hstored => hprovider hash (contains_onCanonicalChainUpdate.mp hstored),
        hbuffer⟩
  | @applied tree₁ update _ peeks =>
      obtain ⟨hprovider, hbuffer⟩ := hpeeks peeks
      have hfed' : FedBy feed (tree₁.onCanonicalChainUpdate update).blockBuffer := by
        show FedBy feed tree₁.blockBuffer
        rwa [peeks.blockBuffer]
      obtain ⟨hpruned, hevicted⟩ := cleanUp_sub σ hfed' state.finalizedBlockHash
      exact ⟨fun hash hstored =>
          hprovider hash (contains_onCanonicalChainUpdate.mp (hpruned hash hstored)),
        hevicted.trans hbuffer⟩
  | known peeks => exact hpeeks peeks
  | syncing peeks => exact hpeeks peeks

end EngineTree

end ZkRess
