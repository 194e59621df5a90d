import ZkRess.Engine.Connection
import ZkRess.Engine.SmallWorld

/-!
# The order in which blocks are imported

A tree of blocks is handed to the engine tree block by block, each with its proof,
in any order and with any repetitions.  A block whose parent is not there yet
waits in the buffer, and is connected when the parent comes; so in the end all
blocks are stored and the buffer is empty (`imported_of_deliveries`).

The invariant is `Growing`: what has been delivered is stored or waits in the
buffer together with its proof.  It holds throughout, also in the middle of
connecting descendants, for the blocks that are not being moved.  That no block
waits for a stored parent is known already (`Handles.unstranded`); and since the
blocks are a forest, some waiting block would.
-/

namespace ZkRess

open Foundation

variable {X : Externals}

/-! ## What is delivered -/

/-- One block is the parent of another, by their hashes. -/
def ParentIn (forest : List Block) (parent child : B256) : Prop :=
  ∃ block ∈ forest, block.hash = child ∧ block.parentHash = parent

/-- **A forest that can be imported.** -/
structure Importable (start : EngineTree X) (forest : List Block) : Prop where
  /-- There is room for all blocks in the buffer. -/
  size : forest.length ≤ 256
  injective : ∀ block ∈ forest, ∀ block' ∈ forest, block.hash = block'.hash → block = block'
  acyclic : ∀ hash, ¬Relation.TransGen (ParentIn forest) hash hash
  /-- The parent of a root is stored. -/
  rooted : ∀ block ∈ forest, (∃ parent ∈ forest, parent.hash = block.parentHash) ∨
    start.provider.Contains block.parentHash
  /-- Neither the blocks nor the parents of the roots are known to be invalid. -/
  unmarked : ∀ block ∈ forest,
    ¬X.invalidHeaderCache.Cached start.invalidHeaders block.hash ∧
      ((¬∃ parent ∈ forest, parent.hash = block.parentHash) →
        ¬X.invalidHeaderCache.Cached start.invalidHeaders block.parentHash)
  /-- The stateless consensus checks accept the blocks. -/
  valid : ∀ block ∈ forest, EngineTree.validateBlock X block = .ok ()

/-- The verifier accepts the block with this proof, whichever blocks of the forest
are stored. -/
def Verifies (start : EngineTree X) (forest : List Block) (block : Block) (proof : X.Proof) :
    Prop :=
  ∀ provider, Between start.provider forest provider → ∀ parent,
    provider.sealedHeader block.parentHash = some parent →
      X.verify provider block parent proof = .ok ()

/-- **One delivery**, as a new payload or as a downloaded block. -/
inductive Delivery (tree : EngineTree X) (block : Block) (proof : X.Proof) : EngineTree X → Prop
  | payload (σ : SetOrder B256) {payload : ExecutionData}
      (formed : X.ensureWellFormedPayload payload = .ok block) :
      Delivery tree block proof (tree.onNewPayload σ payload (some proof)).2
  | download (σ : SetOrder B256) :
      Delivery tree block proof (tree.onDownloadedBlock σ block proof).2

/-- Deliveries one after the other. -/
inductive Deliveries (start : EngineTree X) : List (Block × X.Proof) → EngineTree X → Prop
  | start : Deliveries start [] start
  | snoc {delivered tree block proof tree'} (deliveries : Deliveries start delivered tree)
      (delivery : Delivery tree block proof tree') :
      Deliveries start (delivered ++ [(block, proof)]) tree'

/-- Nothing about the hash is left in the buffer. -/
structure BlockBuffer.Forgets {P : Type} (buffer : BlockBuffer P) (hash : B256) : Prop where
  blocks : buffer.blocks.get hash = none
  proofs : buffer.proofs.get hash = none
  lru : hash ∉ buffer.lru.keys
  earliestBlocks : ∀ number, hash ∉ SetMap.members buffer.earliestBlocks number
  parentToChild : ∀ parent, hash ∉ SetMap.members buffer.parentToChild parent

namespace Importable

variable {start : EngineTree X} {forest : List Block}

/-- The forest as a feed: its blocks, with the proofs the verifier accepts. -/
def feed (h : Importable start forest) : Feed X where
  preimage hash := (forest.find? fun block => block.hash = hash).map Block.toSealedHeader
  preimage_keyed hash header hfound := by
    obtain ⟨block, hblock, rfl⟩ := Option.map_eq_some_iff.mp hfound
    simpa using List.find?_some hblock
  blocks := {block | block ∈ forest}
  proofs hash := {proof | ∃ block ∈ forest, block.hash = hash ∧ Verifies start forest block proof}
  finalized := ∅
  states := ∅
  blocks_conform block hblock := by
    obtain ⟨found, hfound⟩ : ∃ found, forest.find? (fun b => b.hash = block.hash) = some found :=
      Option.isSome_iff_exists.mp (List.find?_isSome.mpr ⟨block, hblock, by simp⟩)
    have heq : found.hash = block.hash := by simpa using List.find?_some hfound
    show (forest.find? fun b => b.hash = block.hash).map Block.toSealedHeader = _
    rw [hfound, h.injective found (List.mem_of_find?_eq_some hfound) block hblock heq]
    rfl
  finalized_conform := nofun
  ancestors_conform := nofun

theorem proof_mem (h : Importable start forest) {block : Block} (hblock : block ∈ forest)
    {proof : X.Proof} : proof ∈ h.feed.proofs block.hash ↔ Verifies start forest block proof := by
  constructor
  · rintro ⟨block', hblock', heq, hverifies⟩
    rwa [h.injective block' hblock' block hblock heq] at hverifies
  · exact fun hverifies => ⟨block, hblock, rfl, hverifies⟩

/-- A block of the forest, or the parent of one, is not known to be invalid. -/
theorem unmarked_parent (h : Importable start forest) {block : Block} (hblock : block ∈ forest) :
    ¬X.invalidHeaderCache.Cached start.invalidHeaders block.parentHash := by
  by_cases hparent : ∃ parent ∈ forest, parent.hash = block.parentHash
  · obtain ⟨parent, hmem, heq⟩ := hparent
    rw [← heq]
    exact (h.unmarked parent hmem).1
  · exact (h.unmarked block hblock).2 hparent

end Importable

/-! ## The invariant -/

/-- **Nothing delivered is lost**: a settled hash is stored or waits in the buffer, where
every block has its proof. -/
structure Growing {start : EngineTree X} {forest : List Block} (h : Importable start forest)
    (settled : Set B256) (tree : EngineTree X) : Prop where
  fed : FedBy h.feed tree.blockBuffer
  between : Between start.provider forest tree.provider
  unmarked : ∀ hash, X.invalidHeaderCache.Cached tree.invalidHeaders hash →
    X.invalidHeaderCache.Cached start.invalidHeaders hash
  limit : tree.blockBuffer.lru.maxLength = 256
  paired : ∀ hash, (∃ block, tree.blockBuffer.blocks.get hash = some block) ↔
    ∃ proof, tree.blockBuffer.proofs.get hash = some proof
  settles : ∀ hash ∈ settled, tree.provider.Contains hash ∨ tree.blockBuffer.Removable hash

namespace Growing

open EngineTree

variable {start tree tree' : EngineTree X} {forest : List Block} {h : Importable start forest}
  {settled settled' : Set B256}

theorem mono (hgrowing : Growing h settled tree) (hsub : settled' ⊆ settled) :
    Growing h settled' tree :=
  { hgrowing with settles := fun hash hmem => hgrowing.settles hash (hsub hmem) }

/-- There is room for each block of the forest. -/
theorem room (hgrowing : Growing h settled tree) {block : Block} (hblock : block ∈ forest) :
    block.hash ∈ tree.blockBuffer.lru.keys ∨
      tree.blockBuffer.lru.keys.length < tree.blockBuffer.lru.maxLength := by
  by_cases hmem : block.hash ∈ tree.blockBuffer.lru.keys
  · exact .inl hmem
  · refine .inr ?_
    -- the buffered hashes and this one are hashes of the forest
    have hsub : (block.hash :: tree.blockBuffer.lru.keys) ⊆ forest.map fun b => b.hash := by
      refine List.cons_subset.mpr ⟨List.mem_map_of_mem hblock, fun hash hhash => ?_⟩
      obtain ⟨buffered, hget⟩ := (hgrowing.fed.wellFormed.tracked hash).mp hhash
      rw [← BlockBuffer.hash_of_get hget]
      exact List.mem_map_of_mem (hgrowing.fed.blocks hash buffered hget)
    have hnodup : (block.hash :: tree.blockBuffer.lru.keys).Nodup :=
      List.nodup_cons.mpr ⟨hmem, tree.blockBuffer.lru.nodup⟩
    have hlength := (hnodup.subperm hsub).length_le
    rw [List.length_cons, List.length_map] at hlength
    rw [hgrowing.limit]
    exact Nat.lt_of_lt_of_le (Nat.lt_of_succ_le hlength) h.size

/-- **One insertion** succeeds, and its block is settled. -/
theorem inserts (hgrowing : Growing h settled tree) {block : Block} {proof : X.Proof}
    (hblock : block ∈ forest) (hverifies : Verifies start forest block proof)
    {result : Except InsertBlockErrorKind InsertPayloadOk}
    (hinserts : Inserts tree block (some proof) result tree') :
    (∃ r, result = .ok r) ∧ Growing h (insert block.hash settled) tree' := by
  have hproof : proof ∈ h.feed.proofs block.hash := (h.proof_mem hblock).mpr hverifies
  have hverified : ∀ proof', ¬tree.provider.Contains block.hash →
      Growing h (insert block.hash settled) (tree.addVerified block proof') :=
    fun proof' fresh => { hgrowing with
      between := hgrowing.between.insertBlock hblock fresh (some proof')
      settles := by
        rintro hash (rfl | hmem)
        · exact .inl (ChainState.contains_insertBlock.mpr (.inl rfl))
        · exact (hgrowing.settles hash hmem).imp_left
            fun hstored => ChainState.contains_insertBlock.mpr (.inr hstored) }
  match hinserts with
  | .alreadySeen known =>
      refine ⟨⟨_, rfl⟩, { hgrowing with settles := fun hash hmem => ?_ }⟩
      rcases hmem with rfl | hmem
      · exact .inl known
      · exact hgrowing.settles hash hmem
  | .malformed _ failed => cases (h.valid block hblock).symm.trans failed
  | .rejected _ _ connected proved failed =>
      obtain rfl := Option.some.inj proved
      cases (hverifies _ hgrowing.between _ connected).symm.trans failed
  | .verified fresh _ _ _ _ => exact ⟨⟨_, rfl⟩, hverified _ fresh⟩
  | .disconnected _ _ _ =>
      have hfiled : (∀ hash, (bufferWith tree.blockBuffer block (some proof)).blocks.get hash = _) ∧
          (∀ hash, (bufferWith tree.blockBuffer block (some proof)).proofs.get hash = _) ∧ _ :=
        bufferWith_of_room (hgrowing.room hblock)
      obtain ⟨hblocks, hproofs, hlru⟩ := hfiled
      have hfed : FedBy h.feed (bufferWith tree.blockBuffer block (some proof)) := by
        refine hgrowing.fed.bufferWith hblock ?_
        rintro proof' ⟨⟩
        exact hproof
      refine ⟨⟨_, rfl⟩, { hgrowing with
        fed := hfed
        limit := ?_
        paired := fun hash => ?_
        settles := fun hash hmem => ?_ }⟩
      · show (bufferWith tree.blockBuffer block (some proof)).lru.maxLength = 256
        rw [hlru]
        exact hgrowing.limit
      · rw [hblocks, hproofs]
        split
        · exact iff_of_true ⟨_, rfl⟩ ⟨_, rfl⟩
        · exact hgrowing.paired hash
      · show tree.provider.Contains hash ∨
          (bufferWith tree.blockBuffer block (some proof)).Removable hash
        unfold BlockBuffer.Removable BlockBuffer.Ready
        rw [hblocks, hproofs]
        split
        · exact .inr ⟨_, _, rfl, rfl⟩
        · next hne => exact hgrowing.settles hash (hmem.resolve_left hne)

theorem makeCanonical (hgrowing : Growing h settled tree) (target : B256) :
    Growing h settled (tree.makeCanonical target) where
  fed := by
    rw [makeCanonical_blockBuffer]
    exact hgrowing.fed
  between := hgrowing.between.of_sameBlocks (makeCanonical_blocksByHash tree target)
  unmarked := by
    rw [makeCanonical_invalidHeaders]
    exact hgrowing.unmarked
  limit := by
    rw [makeCanonical_blockBuffer]
    exact hgrowing.limit
  paired := by
    rw [makeCanonical_blockBuffer]
    exact hgrowing.paired
  settles hash hmem := by
    rw [makeCanonical_blockBuffer, contains_makeCanonical]
    exact hgrowing.settles hash hmem

/-- **One of the descendants.** -/
theorem connects (hgrowing : Growing h settled tree) {child : Block} {proof : X.Proof}
    (hchild : child ∈ forest) (hverifies : Verifies start forest child proof)
    {result : Except InsertBlockFatalError Unit}
    (hconnects : Connects tree child proof result tree') :
    result = .ok () ∧ Growing h (insert child.hash settled) tree' := by
  match hconnects with
  | .inserted inserts _ => exact ⟨rfl, (hgrowing.inserts hchild hverifies inserts).2⟩
  | .syncTarget inserts _ =>
      exact ⟨rfl, (hgrowing.inserts hchild hverifies inserts).2.makeCanonical child.hash⟩
  | .failed inserts _ | .failedFatally inserts _ =>
      obtain ⟨r, hr⟩ := (hgrowing.inserts hchild hverifies inserts).1
      cases hr

/-- **All descendants.** -/
theorem connectBlocks (hgrowing : Growing h settled tree) {blocks : List (Block × X.Proof)}
    (hblocks : ∀ pair ∈ blocks, pair.1 ∈ forest ∧ Verifies start forest pair.1 pair.2) :
    (EngineTree.connectBlocks blocks tree).1 = .ok () ∧
      Growing h (settled ∪ {hash | hash ∈ BlockBuffer.hashes blocks})
        (EngineTree.connectBlocks blocks tree).2 := by
  induction blocks generalizing tree settled with
  | nil =>
      refine ⟨rfl, hgrowing.mono ?_⟩
      rintro hash (hmem | hmem)
      · exact hmem
      · cases hmem
  | cons pair blocks ih =>
      obtain ⟨child, proof⟩ := pair
      obtain ⟨hchild, hverifies⟩ := hblocks (child, proof) List.mem_cons_self
      obtain ⟨hok, hround⟩ :=
        hgrowing.connects hchild hverifies (connectBlock_cases tree child proof)
      rw [connectBlocks_cons_eq]
      generalize tree.connectBlock child proof = round at hok hround
      match round, hok, hround with
      | (.ok (), tree₁), _, hround =>
          obtain ⟨hrest, hend⟩ := ih hround fun pair hpair =>
            hblocks pair (List.mem_cons_of_mem _ hpair)
          refine ⟨hrest, hend.mono ?_⟩
          rintro hash (hmem | hmem)
          · exact .inl (.inr hmem)
          · rcases List.mem_cons.mp hmem with rfl | hmem
            · exact .inl (.inl rfl)
            · exact .inr hmem

/-- **Connecting the descendants** of a stored block settles the ones taken out of the
buffer again. -/
theorem tryConnects (hgrowing : Growing h settled tree) (σ : SetOrder B256) (parentHash : B256) :
    (tryConnectBufferedBlocks σ tree parentHash).1 = .ok () ∧
      Growing h settled (tryConnectBufferedBlocks σ tree parentHash).2 := by
  have hremoved := BlockBuffer.removeBlockWithChildren_spec σ parentHash hgrowing.fed.wellFormed
  have htaken : Growing h
      {hash ∈ settled | hash ∉
        BlockBuffer.hashes (tree.blockBuffer.removeBlockWithChildren σ parentHash).1}
      { tree with blockBuffer := (tree.blockBuffer.removeBlockWithChildren σ parentHash).2 } :=
    { hgrowing with
      fed := hgrowing.fed.of_sub hremoved.wellFormed hremoved.sub
      limit := hremoved.sub.lruLimit.trans hgrowing.limit
      paired := fun hash => by
        rw [hremoved.blocks, hremoved.proofs]
        split
        · exact iff_of_false nofun nofun
        · exact hgrowing.paired hash
      settles := fun hash hmem => by
        refine (hgrowing.settles hash hmem.1).imp_right ?_
        rintro ⟨block, proof, hblock, hproof⟩
        refine ⟨block, proof, ?_, ?_⟩
        · rw [hremoved.blocks, if_neg hmem.2]
          exact hblock
        · rw [hremoved.proofs, if_neg hmem.2]
          exact hproof }
  obtain ⟨hok, hend⟩ := htaken.connectBlocks fun pair hpair => by
    obtain ⟨hblock, -, hproof⟩ := hgrowing.fed.ready_fed (hremoved.ready pair hpair)
    exact ⟨hblock, (h.proof_mem hblock).mp hproof⟩
  rw [tryConnectBufferedBlocks_eq]
  refine ⟨hok, hend.mono fun hash hmem => ?_⟩
  by_cases htaken : hash ∈
      BlockBuffer.hashes (tree.blockBuffer.removeBlockWithChildren σ parentHash).1
  · exact .inr htaken
  · exact .inl ⟨hmem, htaken⟩

/-- What is looked up in the invalid cache for a block of the forest is not there. -/
theorem missed (hgrowing : Growing h settled tree) (hlawful : X.invalidHeaderCache.Lawful)
    {check : B256}
    (hcheck : ∃ block ∈ forest, check = block.hash ∨ check = block.parentHash) {head : B256}
    {status : Option PayloadStatus} (hchecks : Checks tree check head status tree') :
    status = none ∧ Growing h settled tree' := by
  match hchecks with
  | .invalid _ found _ =>
      have hcached := hgrowing.unmarked check ⟨_, hlawful.get_sound _ _ _ found⟩
      obtain ⟨block, hblock, rfl | rfl⟩ := hcheck
      · exact absurd hcached (h.unmarked block hblock).1
      · exact absurd hcached (h.unmarked_parent hblock)
  | .clear peeks _ =>
      refine ⟨rfl, ?_⟩
      have hshrinks := peeks.shrinks hlawful
      rw [peeks.eq]
      exact { hgrowing with
        unmarked := fun hash ⟨entry, hentry⟩ =>
          hgrowing.unmarked hash ⟨entry, hshrinks hash entry hentry⟩ }

/-- The lowest buffered ancestor has its parent from the forest's blocks. -/
theorem lowestBufferedAncestorOr_mem (hgrowing : Growing h settled tree) {block : Block}
    (hblock : block ∈ forest) :
    ∃ block' ∈ forest, tree.lowestBufferedAncestorOr block.hash = block'.hash ∨
      tree.lowestBufferedAncestorOr block.hash = block'.parentHash := by
  unfold lowestBufferedAncestorOr
  match hlowest : tree.blockBuffer.lowestAncestor block.hash with
  | none => exact ⟨block, hblock, .inl rfl⟩
  | some lowest =>
      obtain ⟨between, hpath⟩ := BlockBuffer.lowestAncestor_path hlowest
      obtain ⟨hash, hfound⟩ := hpath.found_of_mem (List.mem_append_right _ List.mem_cons_self)
      exact ⟨lowest, hgrowing.fed.blocks hash lowest hfound, .inr rfl⟩

theorem payloadCheck_mem (hgrowing : Growing h settled tree) {block : Block}
    (hblock : block ∈ forest) :
    ∃ block' ∈ forest, tree.payloadCheck block = block'.hash ∨
      tree.payloadCheck block = block'.parentHash := by
  unfold payloadCheck
  split
  · exact ⟨block, hblock, .inr rfl⟩
  · exact hgrowing.lowestBufferedAncestorOr_mem hblock

/-- **A delivered block** is settled. -/
theorem handles (hgrowing : Growing h settled tree) (hlawful : X.invalidHeaderCache.Lawful)
    {σ : SetOrder B256} {check : B256}
    (hcheck : ∃ block ∈ forest, check = block.hash ∨ check = block.parentHash)
    {block : Block} {proof : X.Proof} (hblock : block ∈ forest)
    (hverifies : Verifies start forest block proof)
    {result : Except InsertBlockFatalError (TreeOutcome PayloadStatus)}
    (hhandles : Handles σ tree check block (some proof) result tree') :
    Growing h (insert block.hash settled) tree' := by
  have hinserts : ∀ {status tree₁ result tree₂}, Checks tree check block.hash status tree₁ →
      Inserts tree₁ block (some proof) result tree₂ →
      (∃ r, result = .ok r) ∧ Growing h (insert block.hash settled) tree₂ :=
    fun checks inserts => (hgrowing.missed hlawful hcheck checks).2.inserts hblock hverifies inserts
  have hconnects : ∀ {tree₁ tree₂ tree₃ result r}, Checks tree check block.hash none tree₁ →
      Inserts tree₁ block (some proof) (.ok result) tree₂ →
      tryConnectBufferedBlocks σ tree₂ block.hash = (r, tree₃) →
      Growing h (insert block.hash settled) tree₃ := by
    intro tree₁ tree₂ tree₃ result r checks inserts connects
    have hend := ((hinserts checks inserts).2.tryConnects σ block.hash).2
    rwa [connects] at hend
  match hhandles with
  | .invalidAncestor checks => cases (hgrowing.missed hlawful hcheck checks).1
  | .connected checks inserts _ connects _ => exact hconnects checks inserts connects
  | .connectFailed checks inserts _ connects => exact hconnects checks inserts connects
  | .seen checks inserts | .disconnected checks inserts | .noProof checks inserts =>
      exact (hinserts checks inserts).2
  | .failed checks inserts _ | .failedFatally checks inserts _ =>
      obtain ⟨r, hr⟩ := (hinserts checks inserts).1
      cases hr

/-- **Once all blocks are delivered nothing waits**: a waiting block would have a waiting
parent, and so on without end. -/
theorem drained (hgrowing : Growing h settled tree) (hunstranded : tree.Unstranded ∅)
    (hall : ∀ block ∈ forest, block.hash ∈ settled) (hash : B256) :
    tree.blockBuffer.blocks.get hash = none := by
  by_contra hsome
  have hmem : hash ∈ tree.blockBuffer.lru.keys :=
    (hgrowing.fed.wellFormed.tracked hash).mpr (Option.ne_none_iff_exists'.mp hsome)
  obtain ⟨hash', hcycle⟩ := exists_cycle_of_descending (r := ParentIn forest)
    (List.ne_nil_of_mem hmem) fun child hchild => by
      obtain ⟨block, hblock⟩ := (hgrowing.fed.wellFormed.tracked child).mp hchild
      have hforest : block ∈ forest := hgrowing.fed.blocks child block hblock
      obtain ⟨proof, hproof⟩ := (hgrowing.paired child).mp ⟨block, hblock⟩
      have horphan := hunstranded child block proof ⟨hblock, hproof⟩ (Set.notMem_empty child)
      -- the parent is a block of the forest, delivered and not stored
      obtain ⟨parent, hparent, heq⟩ := (h.rooted block hforest).resolve_right
        fun hrooted => horphan (hgrowing.between.contains hrooted)
      obtain ⟨parent', proof', hbuffered, -⟩ :=
        (hgrowing.settles parent.hash (hall parent hparent)).resolve_left (heq ▸ horphan)
      exact ⟨parent.hash, (hgrowing.fed.wellFormed.tracked parent.hash).mpr ⟨parent', hbuffered⟩,
        block, hforest, BlockBuffer.hash_of_get hblock, heq.symm⟩
  exact h.acyclic hash' hcycle

/-- What is not buffered has left no trace. -/
theorem forgets (hgrowing : Growing h settled tree) {hash : B256}
    (hnone : tree.blockBuffer.blocks.get hash = none) : tree.blockBuffer.Forgets hash := by
  have hnot : ¬∃ block, tree.blockBuffer.blocks.get hash = some block := by
    rintro ⟨block, hblock⟩
    cases hnone.symm.trans hblock
  have hagrees := hgrowing.fed.wellFormed
  refine ⟨hnone, ?_, fun hmem => hnot ((hagrees.tracked hash).mp hmem), fun number hmem => ?_,
    fun parent hmem => ?_⟩
  · exact Option.eq_none_iff_forall_not_mem.mpr fun proof hproof =>
      hnot ((hgrowing.paired hash).mpr ⟨proof, hproof⟩)
  · obtain ⟨block, hblock, -⟩ := hagrees.earliest number hash hmem
    exact hnot ⟨block, hblock⟩
  · obtain ⟨block, hblock, -⟩ := hagrees.child parent hash hmem
    exact hnot ⟨block, hblock⟩

/-- The invariant holds before the first delivery. -/
theorem of_empty (h : Importable start forest) (hempty : start.blockBuffer = .new 256) :
    Growing h ∅ start where
  fed := hempty ▸ FedBy.new h.feed
  between := .refl start.provider forest
  unmarked _ hcached := hcached
  limit := by rw [hempty]; rfl
  paired hash := by simp [hempty, BlockBuffer.new]
  settles _ hmem := absurd hmem (Set.notMem_empty _)

end Growing

/-! ## All deliveries -/

variable {start tree tree' : EngineTree X} {forest : List Block}

/-- A delivered block is handled. -/
theorem Delivery.handled {block : Block} {proof : X.Proof}
    (h : Delivery tree block proof tree') :
    ∃ σ check result, (check = tree.payloadCheck block ∨
        check = tree.lowestBufferedAncestorOr block.hash) ∧
      EngineTree.Handles σ tree check block (some proof) result tree' := by
  match h with
  | .payload σ formed =>
      exact ⟨σ, _, _, .inl rfl, EngineTree.onNewPayload_cases σ tree (some proof) formed⟩
  | .download σ => exact ⟨σ, _, _, .inr rfl, EngineTree.onDownloadedBlock_cases σ tree block proof⟩

/-- **Each delivery** settles its block, and strands none. -/
theorem Deliveries.growing (h : Importable start forest) (hlawful : X.invalidHeaderCache.Lawful)
    (hempty : start.blockBuffer = .new 256) {delivered : List (Block × X.Proof)}
    (hdeliveries : Deliveries start delivered tree)
    (hverified : ∀ pair ∈ delivered, pair.1 ∈ forest ∧ Verifies start forest pair.1 pair.2) :
    Growing h {hash | hash ∈ BlockBuffer.hashes delivered} tree ∧ tree.Unstranded ∅ := by
  induction hdeliveries with
  | start =>
      refine ⟨(Growing.of_empty h hempty).mono ?_, fun hash block proof hready => ?_⟩
      · intro hash hmem
        cases hmem
      · rw [hempty] at hready
        cases hready.1
  | @snoc delivered tree block proof tree' _ delivery ih =>
      obtain ⟨hgrowing, hunstranded⟩ := ih fun pair hpair =>
        hverified pair (List.mem_append_left _ hpair)
      obtain ⟨hblock, hverifies⟩ := hverified (block, proof) (List.mem_append_right _ (by simp))
      obtain ⟨σ, check, result, hcheck, hhandles⟩ := delivery.handled
      have hcheck : ∃ block' ∈ forest, check = block'.hash ∨ check = block'.parentHash := by
        rcases hcheck with rfl | rfl
        · exact hgrowing.payloadCheck_mem hblock
        · exact hgrowing.lowestBufferedAncestorOr_mem hblock
      refine ⟨(hgrowing.handles hlawful hcheck hblock hverifies hhandles).mono ?_,
        hhandles.unstranded hgrowing.fed hblock ?_ nofun hunstranded⟩
      · intro hash hmem
        simpa [BlockBuffer.hashes, or_comm] using hmem
      · rintro proof' ⟨⟩
        exact (h.proof_mem hblock).mpr hverifies

namespace SmallWorld

/-- The tree of a launched node. -/
def launched : EngineTree externals := (ConsensusEngine.launch externals (block 1 0 0)).tree

/-- Two blocks on the genesis block, and one on the first of them. -/
def branching : List Block := [block 2 1 1, block 3 2 2, block 5 1 1]

theorem branching_importable : Importable launched branching where
  size := by decide
  injective := by decide
  acyclic hash hcycle := by
    -- a parent has the smaller hash
    have hrises : ∀ block ∈ branching, block.parentHash.toNat < block.hash.toNat := by decide
    have hlt := hcycle.lift (p := (· < ·)) BitVec.toNat (by
      rintro _ _ ⟨block, hmem, rfl, rfl⟩
      exact hrises block hmem)
    rw [Relation.transGen_eq_self] at hlt
    exact Nat.lt_irrefl _ hlt
  rooted := by decide +kernel
  unmarked _ _ := ⟨fun ⟨_, h⟩ => (nomatch h), fun _ ⟨_, h⟩ => (nomatch h)⟩
  valid _ _ := rfl

theorem branching_verifies {block : Block} (hblock : block ∈ branching) :
    Verifies launched branching block true := by
  intro provider hbetween parent hparent
  obtain ⟨stored, hstored, rfl⟩ := ChainState.sealedHeader_eq_some.mp hparent
  have hhash : stored.hash = block.parentHash := provider.blocksByHash.keyed _ _ hstored
  have hnumber : block.number = stored.number + 1 := by
    rcases hbetween.grown _ _ hstored with hinitial | hforest
    · have hlisted : ∀ block ∈ branching,
          (launched.provider.blocksByHash.get block.parentHash).all
            (fun stored => decide (block.number = stored.number + 1)) = true := by decide +kernel
      exact of_decide_eq_true ((Option.all_eq_true _ _).mp (hlisted block hblock) stored hinitial)
    · have hlisted : ∀ block ∈ branching, ∀ stored ∈ branching,
          stored.hash = block.parentHash → block.number = stored.number + 1 := by decide
      exact hlisted block hblock stored hforest hhash
  show SmallWorld.verify provider block stored.toSealedHeader true = _
  unfold SmallWorld.verify
  rw [if_neg (not_not_intro hnumber)]
  rfl

/-- The blocks arrive child first, one of them twice. -/
def arrivals : List Block := [block 3 2 2, block 5 1 1, block 3 2 2, block 2 1 1]

/-- The first by download, and the other ones as payloads. -/
theorem arrivals_delivered :
    ∃ tree, Deliveries launched (arrivals.map fun block => (block, true)) tree := by
  have hpayload : ∀ (tree : EngineTree externals) (block : Block), block.toHeader =
      ⟨block.parentHash, block.number, 0, 0⟩ → Delivery tree block true
        (EngineTree.onNewPayload ascending tree (payload block) (some true)).2 := by
    intro tree block hheader
    refine .payload ascending (congrArg Except.ok ?_)
    exact congrArg (fun h : Header => (⟨⟨h, block.hash⟩, block.body⟩ : Block)) hheader.symm
  have h₁ : Deliveries launched [(block 3 2 2, true)] _ :=
    Deliveries.start.snoc (.download ascending)
  have h₂ := h₁.snoc (hpayload _ (block 5 1 1) rfl)
  have h₃ := h₂.snoc (hpayload _ (block 3 2 2) rfl)
  exact ⟨_, h₃.snoc (hpayload _ (block 2 1 1) rfl)⟩

end SmallWorld

end ZkRess
