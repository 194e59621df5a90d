import ZkRess.Engine.Canonicalization
import ZkRess.Properties.ArrivalOrder

/-!
# A chain that is downloaded from its top

The blocks of a chain come one by one, the topmost first, each with its proof.  A block
above a missing parent waits in the buffer, and the tree asks for the parent
(`Waiting.disconnects`).  The lowest block is verified, and with it all that wait above it
(`Waiting.connects`): they are taken out of the buffer in the order of the chain, whatever
the order of the hash sets, so each is verified when exactly the blocks below it are stored.
-/

namespace ZkRess

open Foundation

/-! ## Chains of blocks -/

/-- **Blocks that rise from a hash**, the lowest first, and the hash of the topmost one. -/
inductive Rises : B256 → List Block → B256 → Prop
  | nil (hash : B256) : Rises hash [] hash
  | cons {root : B256} {block : Block} {blocks : List Block} {top : B256}
      (parent : block.parentHash = root) (rest : Rises block.hash blocks top) :
      Rises root (block :: blocks) top

namespace Rises

variable {root top : B256} {block : Block} {blocks below : List Block}

theorem split (h : Rises root (below ++ blocks) top) :
    ∃ hash, Rises root below hash ∧ Rises hash blocks top := by
  induction below generalizing root with
  | nil => exact ⟨root, .nil root, h⟩
  | cons block below ih =>
      cases h with
      | cons parent rest =>
          obtain ⟨hash, hbelow, hblocks⟩ := ih rest
          exact ⟨hash, .cons parent hbelow, hblocks⟩

/-- The topmost hash is that of a block. -/
theorem top_mem (h : Rises root blocks top) (hne : blocks ≠ []) :
    ∃ block ∈ blocks, block.hash = top := by
  induction h with
  | nil => exact absurd rfl hne
  | @cons root block blocks top parent rest ih =>
      cases rest with
      | nil => exact ⟨block, List.mem_cons_self, rfl⟩
      | cons _ _ =>
          obtain ⟨block', hmem, heq⟩ := ih (List.cons_ne_nil _ _)
          exact ⟨block', List.mem_cons_of_mem _ hmem, heq⟩

/-- The parent of a block above others is the topmost of these. -/
theorem parent (h : Rises root (below ++ block :: blocks) top) (hne : below ≠ []) :
    ∃ parent ∈ below, parent.hash = block.parentHash := by
  obtain ⟨hash, hbelow, habove⟩ := h.split
  cases habove with
  | cons parent =>
      rw [parent]
      exact hbelow.top_mem hne

/-- What holds of the root and passes from parents to children holds of all blocks. -/
theorem forall_mem {p : B256 → Prop} (h : Rises root blocks top) (hroot : p root)
    (hstep : ∀ block ∈ blocks, p block.parentHash → p block.hash) :
    ∀ block ∈ blocks, p block.hash := by
  induction h with
  | nil => exact List.forall_mem_nil _
  | cons parent rest ih =>
      have hfirst := hstep _ List.mem_cons_self (parent ▸ hroot)
      exact List.forall_mem_cons.mpr
        ⟨hfirst, ih hfirst fun block hmem => hstep block (List.mem_cons_of_mem _ hmem)⟩

/-- The parent of a block is the root or another block, but never the block itself. -/
theorem parent_mem (h : Rises root blocks top) (hmem : block ∈ blocks) :
    block.parentHash = root ∨ block.parentHash ∈ blocks.map fun block => block.hash := by
  induction h with
  | nil => cases hmem
  | cons parent rest ih =>
      rcases List.mem_cons.mp hmem with rfl | hmem
      · exact .inl parent
      · refine .inr ?_
        rcases ih hmem with heq | hparent
        · exact List.mem_cons.mpr (.inl heq)
        · exact List.mem_cons_of_mem _ hparent

theorem parent_ne (h : Rises root blocks top)
    (hnodup : (root :: blocks.map fun block => block.hash).Nodup) (hmem : block ∈ blocks) :
    block.parentHash ≠ block.hash := by
  induction h with
  | nil => cases hmem
  | cons parent rest ih =>
      rw [List.map_cons] at hnodup
      rcases List.mem_cons.mp hmem with rfl | hmem
      · intro heq
        exact (List.nodup_cons.mp hnodup).1 (parent ▸ heq ▸ List.mem_cons_self)
      · exact ih (List.nodup_cons.mp hnodup).2 hmem

/-- **A list in which no block comes after one of its children** is the chain, if it has
the blocks of the chain, each once. -/
theorem eq_of_ordered {P : Type} (h : Rises root blocks top) {removed : List (Block × P)}
    (hnodup : (root :: blocks.map fun block => block.hash).Nodup)
    (hmem : ∀ pair ∈ removed, pair.1 ∈ blocks)
    (hall : ∀ block ∈ blocks, block.hash ∈ BlockBuffer.hashes removed)
    (hremoved : (BlockBuffer.hashes removed).Nodup)
    (hordered : removed.Pairwise fun earlier later => earlier.1.parentHash ≠ later.1.hash) :
    removed.map Prod.fst = blocks := by
  induction h generalizing removed with
  | nil =>
      cases removed with
      | nil => rfl
      | cons pair removed => cases hmem pair List.mem_cons_self
  | @cons root block blocks top parent rest ih =>
      rw [List.map_cons] at hnodup
      have hbelow := (List.nodup_cons.mp hnodup).2
      cases removed with
      | nil => cases hall block List.mem_cons_self
      | cons first removed =>
          have hfirst : first.1 = block := by
            refine (List.mem_cons.mp (hmem first List.mem_cons_self)).resolve_right fun habove => ?_
            -- its parent would come later
            have hne := rest.parent_ne hbelow habove
            have hparent : first.1.parentHash ∈ (block :: blocks).map fun block => block.hash :=
              List.mem_cons.mpr (rest.parent_mem habove)
            obtain ⟨parent, hparent, heq⟩ := List.mem_map.mp hparent
            have hlisted := hall parent hparent
            rw [heq] at hlisted
            rcases List.mem_cons.mp hlisted with hself | hlater
            · exact hne hself
            · obtain ⟨later, hlater, heq'⟩ := List.mem_map.mp hlater
              exact (List.pairwise_cons.mp hordered).1 later hlater heq'.symm
          rw [List.map_cons, hfirst, ih hbelow ?_ ?_ (List.nodup_cons.mp hremoved).2
            (List.pairwise_cons.mp hordered).2]
          · intro pair hpair
            refine (List.mem_cons.mp (hmem pair (List.mem_cons_of_mem _ hpair))).resolve_left ?_
            intro heq
            refine (List.nodup_cons.mp hremoved).1 (List.mem_map.mpr ⟨pair, hpair, ?_⟩)
            show pair.1.hash = first.1.hash
            rw [heq, hfirst]
          · intro other hother
            refine (List.mem_cons.mp (hall other (List.mem_cons_of_mem _ hother))).resolve_left ?_
            intro heq
            refine (List.nodup_cons.mp hbelow).1 (List.mem_map.mpr ⟨other, hother, ?_⟩)
            exact heq.trans (congrArg (fun block : Block => block.hash) hfirst)

end Rises

variable {X : Externals} {feed : Feed X}

/-- **The blocks are stored one after the other**, each with one of its proofs. -/
inductive Stores (feed : Feed X) (provider : ChainState X.Proof) :
    List Block → ChainState X.Proof → Prop
  | nil : Stores feed provider [] provider
  | snoc {below : List Block} {provider' : ChainState X.Proof} {block : Block} {proof : X.Proof}
      (stores : Stores feed provider below provider') (fed : proof ∈ feed.proofs block.hash) :
      Stores feed provider (below ++ [block]) (provider'.insertBlock block (some proof))

/-- A block is stored with one of its proofs. -/
def ChainState.Has (provider : ChainState X.Proof) (feed : Feed X) (block : Block) : Prop :=
  provider.blocksByHash.get block.hash = some block ∧
    ∃ proof ∈ feed.proofs block.hash, provider.proofs.get block.hash = some proof

/-- A stored chain is a path down from its top. -/
theorem Rises.storedPath {root top : B256} {blocks : List Block} {provider : ChainState X.Proof}
    (h : Rises root blocks top)
    (hstored : ∀ block ∈ blocks, provider.sealedHeader block.hash = some block.toSealedHeader) :
    provider.StoredPath top (blocks.reverse.map Block.toSealedHeader) root := by
  induction h with
  | nil hash => exact .nil hash
  | cons parent rest ih =>
      have hpath := ih fun block hmem => hstored block (List.mem_cons_of_mem _ hmem)
      have hown := hpath.snoc (hstored _ List.mem_cons_self)
      rw [List.reverse_cons, List.map_append, ← parent]
      exact hown

namespace Stores

variable {provider provider' : ChainState X.Proof} {below : List Block}

theorem of_nil (h : Stores feed provider [] provider') : provider' = provider := by
  generalize hnil : ([] : List Block) = none at h
  cases h with
  | nil => rfl
  | snoc => simp at hnil

theorem blocksByHash (h : Stores feed provider below provider') {hash : B256}
    (hnot : hash ∉ below.map fun block => block.hash) :
    provider'.blocksByHash.get hash = provider.blocksByHash.get hash := by
  induction h with
  | nil => rfl
  | snoc stores fed ih =>
      rw [List.map_append, List.mem_append, not_or, List.map_singleton, List.mem_singleton] at hnot
      rw [ChainState.insertBlock_get, if_neg hnot.2, ih hnot.1]

theorem contains_iff (h : Stores feed provider below provider') {hash : B256}
    (hnot : hash ∉ below.map fun block => block.hash) :
    provider'.Contains hash ↔ provider.Contains hash := by
  unfold ChainState.Contains
  rw [h.blocksByHash hnot]

/-- The blocks are there, if no two of them have one hash. -/
theorem has (h : Stores feed provider below provider')
    (hnodup : (below.map fun block => block.hash).Nodup) :
    ∀ block ∈ below, provider'.Has feed block := by
  induction h with
  | nil => exact List.forall_mem_nil _
  | @snoc below provider' last proof stores fed ih =>
      rw [List.map_append, List.map_singleton] at hnodup
      obtain ⟨hbelow, -, hapart⟩ := List.nodup_append'.mp hnodup
      refine List.forall_mem_append.mpr ⟨fun block hmem => ?_, List.forall_mem_singleton.mpr ?_⟩
      · have hne : block.hash ≠ last.hash := fun heq =>
          hapart (List.mem_map_of_mem hmem) (heq ▸ List.mem_singleton_self _)
        obtain ⟨hblock, proof', hfed, hproof⟩ := ih hbelow block hmem
        refine ⟨?_, proof', hfed, ?_⟩
        · rw [ChainState.insertBlock_get, if_neg hne, hblock]
        · show (provider'.proofs.insert last.hash proof).get block.hash = some proof'
          rw [FiniteMap.get_insert, if_neg hne, hproof]
      · refine ⟨?_, proof, fed, FiniteMap.get_insert_self _ _ _⟩
        rw [ChainState.insertBlock_get, if_pos rfl]

end Stores

/-! ## What is downloaded -/

open EngineTree

/-- **A chain that can be downloaded** on top of what a tree has stored: its blocks are new,
and accepted when those below them are stored. -/
structure Downloadable (feed : Feed X) (start : EngineTree X) (chain : List Block)
    (root target : B256) : Prop where
  rises : Rises root chain target
  nonempty : chain ≠ []
  nodup : (chain.map fun block => block.hash).Nodup
  rooted : start.provider.Contains root
  fed : ∀ block ∈ chain, block ∈ feed.blocks
  fresh : ∀ block ∈ chain, ¬start.provider.Contains block.hash
  unmarked : ∀ block ∈ chain, start.Unmarked block.hash
  recovers : ∀ block ∈ chain, X.tryRecover block = true
  valid : ∀ block ∈ chain, validateBlock X block = .ok ()
  verified : ∀ below block above, chain = below ++ block :: above →
    ∀ provider, Stores feed start.provider below provider →
      ∀ parent, provider.sealedHeader block.parentHash = some parent →
        ∀ proof ∈ feed.proofs block.hash, X.verify provider block parent proof = .ok ()
  /-- Nothing of the chain is buffered. -/
  noBlock : ∀ block ∈ chain, start.blockBuffer.blocks.get block.hash = none
  noProof : ∀ block ∈ chain, start.blockBuffer.proofs.get block.hash = none
  /-- Nothing else waits with its proof. -/
  noneReady : ∀ hash, ¬start.blockBuffer.Removable hash
  /-- There is room for the chain. -/
  room : start.blockBuffer.lru.keys.length + chain.length ≤ start.blockBuffer.lru.maxLength

/-- **The upper part of the chain waits** in the buffer, each block with a proof; apart from
that the tree is as it was. -/
structure Waiting (feed : Feed X) (start : EngineTree X) (above : List Block)
    (tree : EngineTree X) : Prop where
  rest : tree = { start with blockBuffer := tree.blockBuffer }
  fed : FedBy feed tree.blockBuffer
  sound : tree.blockBuffer.Sound feed.preimage
  ready : ∀ block ∈ above, ∃ proof, tree.blockBuffer.Ready block.hash block proof
  blocks : ∀ hash, hash ∉ above.map (fun block => block.hash) →
    tree.blockBuffer.blocks.get hash = start.blockBuffer.blocks.get hash
  proofs : ∀ hash, hash ∉ above.map (fun block => block.hash) →
    tree.blockBuffer.proofs.get hash = start.blockBuffer.proofs.get hash
  limit : tree.blockBuffer.lru.maxLength = start.blockBuffer.lru.maxLength
  length : tree.blockBuffer.lru.keys.length = start.blockBuffer.lru.keys.length + above.length

/-- Making a block canonical changes canonical hashes only. -/
theorem EngineTree.makeCanonical_sameBlocks (tree : EngineTree X) (target : B256) :
    tree.provider.SameBlocks (tree.makeCanonical target).provider := by
  unfold makeCanonical
  split
  · exact ChainState.onChainUpdate_sameBlocks _ _ _
  · exact .refl _

/-- **The chain is connected**: all its blocks are stored, and none is left in the buffer. -/
structure Connected (feed : Feed X) (start : EngineTree X) (chain : List Block)
    (tree : EngineTree X) : Prop where
  has : ∀ block ∈ chain, tree.provider.Has feed block
  kept : ∀ hash header, start.provider.sealedHeader hash = some header →
    tree.provider.sealedHeader hash = some header
  blocks : ∀ hash, tree.blockBuffer.blocks.get hash = start.blockBuffer.blocks.get hash
  proofs : ∀ hash, tree.blockBuffer.proofs.get hash = start.blockBuffer.proofs.get hash

theorem Connected.carryOut {start tree : EngineTree X} {chain : List Block}
    (h : Connected feed start chain tree)
    {event : Option TreeEvent} : Connected feed start chain (tree.carryOut event) := by
  match event with
  | none => exact h
  | some (.download _) => exact h
  | some (.treeAction (.makeCanonical target)) =>
      have hsame := makeCanonical_sameBlocks tree target
      have hbuffer := makeCanonical_blockBuffer tree target
      refine ⟨fun block hmem => ?_, fun hash header hheader => ?_, fun hash => ?_, fun hash => ?_⟩
      · obtain ⟨hblock, proof, hfed, hproof⟩ := h.has block hmem
        rw [← hsame.blocksByHash] at hblock
        rw [← hsame.proofs] at hproof
        exact ⟨hblock, proof, hfed, hproof⟩
      · exact (congrFun (makeCanonical_sealedHeader tree target) hash).trans
          (h.kept hash header hheader)
      · show (tree.makeCanonical target).blockBuffer.blocks.get hash = _
        rw [hbuffer]
        exact h.blocks hash
      · show (tree.makeCanonical target).blockBuffer.proofs.get hash = _
        rw [hbuffer]
        exact h.proofs hash

/-- **The branch of a hash meets the canonical chain** at a stored block. -/
def EngineTree.Joins (tree : EngineTree X) (root : B256) : Prop :=
  ∃ new old ancestor, tree.provider.Branches root tree.canonicalHead.hash new old ancestor ∧
    tree.provider.Contains ancestor ∧ ∀ header ∈ new, header ∉ old

/-- The canonical head is stored then. -/
theorem EngineTree.Joins.contains_head {tree : EngineTree X} {root : B256} (h : tree.Joins root) :
    tree.provider.Contains tree.canonicalHead.hash := by
  obtain ⟨new, old, ancestor, hbranches, hstored, -⟩ := h
  cases hbranches.old with
  | nil => exact hstored
  | cons found _ => exact ChainState.contains_iff_sealedHeader.mpr ⟨_, found⟩

namespace Downloadable

variable {start tree : EngineTree X} {chain below above : List Block} {block : Block}
  {root target : B256}

/-- The hashes below and above a block are others than its own. -/
theorem apart (h : Downloadable feed start chain root target)
    (hchain : chain = below ++ block :: above) :
    block.hash ∉ below.map (fun block => block.hash) ∧
      block.hash ∉ above.map fun block => block.hash := by
  have hnodup := h.nodup
  rw [hchain, List.map_append, List.map_cons] at hnodup
  obtain ⟨-, habove, hapart⟩ := List.nodup_append'.mp hnodup
  exact ⟨fun hmem => hapart hmem List.mem_cons_self, (List.nodup_cons.mp habove).1⟩

/-- Only the topmost block has the target hash. -/
theorem eq_target_iff (h : Downloadable feed start chain root target)
    (hchain : chain = below ++ block :: above) : block.hash = target ↔ above = [] := by
  have hrises := h.rises
  rw [hchain] at hrises
  obtain ⟨hash, -, hrest⟩ := hrises.split
  cases hrest with
  | cons _ rest =>
      constructor
      · intro heq
        by_contra hne
        obtain ⟨top, hmem, htop⟩ := rest.top_mem hne
        exact (h.apart hchain).2 (List.mem_map.mpr ⟨top, hmem, htop.trans heq.symm⟩)
      · rintro rfl
        cases rest
        rfl

/-- **A block is verified** when the blocks below it are stored. -/
theorem inserts (h : Downloadable feed start chain root target)
    (hchain : chain = below ++ block :: above)
    (hstores : Stores feed start.provider below tree.provider) {proof : X.Proof}
    (hproof : proof ∈ feed.proofs block.hash) :
    tree.insertBlock block (some proof)
      = (.ok (.inserted .valid), tree.addVerified block proof) := by
  have hmem : block ∈ chain := hchain ▸ List.mem_append_right _ List.mem_cons_self
  have hfresh : ¬tree.provider.Contains block.hash := by
    rw [hstores.contains_iff (h.apart hchain).1]
    exact h.fresh block hmem
  have hnodup := h.nodup
  rw [hchain, List.map_append] at hnodup
  have hparent : tree.provider.Contains block.parentHash := by
    have hrises := h.rises
    rw [hchain] at hrises
    by_cases hnil : below = []
    · subst hnil
      rw [hstores.of_nil]
      cases hrises with
      | cons parent _ => exact parent ▸ h.rooted
    · obtain ⟨parent, hbelow, heq⟩ := hrises.parent hnil
      rw [← heq]
      exact ⟨parent, (hstores.has (List.nodup_append'.mp hnodup).1 parent hbelow).1⟩
  have hinserts := insertBlock_cases tree block (some proof)
  generalize tree.insertBlock block (some proof) = inserted at hinserts ⊢
  obtain ⟨result, tree'⟩ := inserted
  cases hinserts with
  | alreadySeen known => exact absurd known hfresh
  | malformed _ failed => cases (h.valid block hmem).symm.trans failed
  | disconnected _ _ orphan => exact absurd hparent orphan
  | noProof _ _ _ unproved => cases unproved
  | rejected _ _ connected proved failed =>
      cases proved
      have hpassed := h.verified below block above hchain _ hstores _ connected proof hproof
      cases hpassed.symm.trans failed
  | verified _ _ _ proved _ =>
      cases proved
      rfl

/-- **Blocks of the chain are connected** in its order: all of them are stored, and the
buffer is left alone. -/
theorem connectBlocks (h : Downloadable feed start chain root target)
    {pairs : List (Block × X.Proof)} (hchain : chain = below ++ pairs.map Prod.fst)
    (hproofs : ∀ pair ∈ pairs, pair.2 ∈ feed.proofs pair.1.hash) (htargets : tree.Targets target)
    (hstores : Stores feed start.provider below tree.provider) :
    (EngineTree.connectBlocks pairs tree).1 = .ok () ∧
      (EngineTree.connectBlocks pairs tree).2.blockBuffer = tree.blockBuffer ∧
      ∃ provider, Stores feed start.provider chain provider ∧
        provider.SameBlocks (EngineTree.connectBlocks pairs tree).2.provider := by
  induction pairs generalizing below tree with
  | nil =>
      rw [List.map_nil, List.append_nil] at hchain
      subst hchain
      exact ⟨rfl, rfl, tree.provider, hstores, .refl _⟩
  | cons pair pairs ih =>
      obtain ⟨child, proof⟩ := pair
      rw [List.map_cons] at hchain
      have hproof := hproofs (child, proof) List.mem_cons_self
      have hinsert := h.inserts hchain hstores hproof
      have hstored : Stores feed start.provider (below ++ [child])
          (tree.addVerified child proof).provider := hstores.snoc hproof
      have htargets' : (tree.addVerified child proof).Targets target := htargets
      rw [connectBlocks_cons_eq, connectBlock, hinsert]
      by_cases htop : child.hash = target
      · -- it is the topmost block, and made canonical
        have hnil : pairs = [] := List.map_eq_nil_iff.mp ((h.eq_target_iff hchain).mp htop)
        subst hnil
        rw [List.map_nil] at hchain
        simp only [htargets'.isSyncTargetHead_iff.mpr htop, decide_true, Bool.and_self, if_true]
        refine ⟨rfl, makeCanonical_blockBuffer _ _, _, hchain ▸ hstored, ?_⟩
        exact makeCanonical_sameBlocks _ _
      · have hnot : (tree.addVerified child proof).isSyncTargetHead child.hash = false :=
          Bool.eq_false_iff.mpr (htargets'.isSyncTargetHead_iff.not.mpr htop)
        simp only [hnot, Bool.false_and, Bool.false_eq_true, if_false]
        refine ih ?_ (fun pair hmem => hproofs pair (List.mem_cons_of_mem _ hmem)) htargets' hstored
        rw [hchain, List.append_assoc, List.singleton_append]

end Downloadable

namespace Waiting

variable {start tree : EngineTree X} {chain below above : List Block} {block : Block}
  {root target : B256} {proof : X.Proof}

/-- Nothing of a block that has not come is in the tree. -/
theorem untouched (hw : Waiting feed start above tree)
    (h : Downloadable feed start chain root target) (hchain : chain = below ++ block :: above) :
    tree.blockBuffer.blocks.get block.hash = none ∧ tree.blockBuffer.proofs.get block.hash = none ∧
      tree.blockBuffer.lru.keys.length < tree.blockBuffer.lru.maxLength ∧
      ¬tree.provider.Contains block.hash ∧ tree.Unmarked block.hash := by
  have hmem : block ∈ chain := hchain ▸ List.mem_append_right _ List.mem_cons_self
  have hnot := (h.apart hchain).2
  have hroom := h.room
  rw [hchain, List.length_append, List.length_cons] at hroom
  refine ⟨(hw.blocks _ hnot).trans (h.noBlock block hmem),
    (hw.proofs _ hnot).trans (h.noProof block hmem), ?_, ?_, ?_⟩
  · rw [hw.limit, hw.length]
    omega
  · rw [hw.rest]
    exact h.fresh block hmem
  · rw [hw.rest]
    exact h.unmarked block hmem

/-- **A block above a missing parent waits**, and the parent is asked for. -/
theorem disconnects (hsteady : X.invalidHeaderCache.Steady)
    (h : Downloadable feed start chain root target) (hchain : chain = below ++ block :: above)
    (hne : below ≠ []) (hw : Waiting feed start above tree)
    (hproof : proof ∈ feed.proofs block.hash) (σ : SetOrder B256) :
    ∃ tree', onDownloadedBlock σ tree block proof
        = (.ok ⟨⟨.syncing, none⟩, some (.downloadBlock block.parentHash)⟩, tree') ∧
      Waiting feed start (block :: above) tree' := by
  have hmem : block ∈ chain := hchain ▸ List.mem_append_right _ List.mem_cons_self
  obtain ⟨hnoBlock, -, hroom, hfresh, hunmarked⟩ := hw.untouched h hchain
  -- the parent is another block of the chain: neither stored nor buffered
  have hrises := h.rises
  rw [hchain] at hrises
  obtain ⟨parent, hparent, heq⟩ := hrises.parent hne
  have hparentChain : parent ∈ chain := hchain ▸ List.mem_append_left _ hparent
  have horphan : ¬tree.provider.Contains block.parentHash := by
    rw [← heq, hw.rest]
    exact h.fresh parent hparentChain
  have hnoParent : tree.blockBuffer.blocks.get block.parentHash = none := by
    have hnot : parent.hash ∉ above.map fun block => block.hash := by
      have hnodup := h.nodup
      rw [hchain, List.map_append, List.map_cons] at hnodup
      intro habove
      exact (List.nodup_append'.mp hnodup).2.2 (List.mem_map_of_mem hparent)
        (List.mem_cons_of_mem _ habove)
    rw [← heq, hw.blocks _ hnot]
    exact h.noBlock parent hparentChain
  have hmissing : tree.missingAncestor block = block.parentNumHash := by
    unfold missingAncestor BlockBuffer.lowestAncestor
    rw [hnoParent]
    rfl
  have hinserts := insertBlock_cases tree block (some proof)
  refine ⟨{ tree with blockBuffer := bufferWith tree.blockBuffer block (some proof) }, ?_, ?_⟩
  · unfold onDownloadedBlock
    rw [lowestBufferedAncestorOr_of_get_none hnoBlock,
      checkInvalidAncestorWithHead_of_unmarked hsteady hunmarked]
    simp only
    generalize tree.insertBlock block (some proof) = inserted at hinserts ⊢
    obtain ⟨result, tree'⟩ := inserted
    cases hinserts with
    | alreadySeen known => exact absurd known hfresh
    | malformed _ failed => cases (h.valid block hmem).symm.trans failed
    | disconnected =>
        rw [hmissing]
        rfl
    | noProof _ _ connected => exact absurd connected horphan
    | rejected _ _ connected | verified _ _ connected =>
        exact absurd (ChainState.contains_iff_sealedHeader.mpr ⟨_, connected⟩) horphan
  · have hfiled : (∀ hash, (bufferWith tree.blockBuffer block (some proof)).blocks.get hash = _) ∧
        (∀ hash, (bufferWith tree.blockBuffer block (some proof)).proofs.get hash = _) ∧ _ :=
      bufferWith_of_room (.inr hroom)
    obtain ⟨hblocks, hproofs, hlru⟩ := hfiled
    have hnew : block.hash ∉ tree.blockBuffer.lru.keys := by
      rw [hw.sound.agrees.tracked]
      rintro ⟨old, hold⟩
      cases hnoBlock.symm.trans hold
    have hfed : FedBy feed (bufferWith tree.blockBuffer block (some proof)) :=
      hw.fed.bufferWith (h.fed block hmem) (by
        rintro _ ⟨⟩
        exact hproof)
    have hcalls := Calls.bufferWith tree.blockBuffer (h.fed block hmem) (some proof)
    have hlength : (bufferWith tree.blockBuffer block (some proof)).lru.keys.length
        = start.blockBuffer.lru.keys.length + (above.length + 1) := by
      rw [hlru, Lru.keys_getOrInsert (.inl hroom), List.erase_of_not_mem hnew, List.length_append,
        hw.length]
      rfl
    refine
      { rest := ?_
        fed := hfed
        sound := hcalls.sound hw.sound
        ready := ?_
        blocks := fun hash hnot => ?_
        proofs := fun hash hnot => ?_
        limit := ?_
        length := hlength }
    · rw [hw.rest]
    · refine List.forall_mem_cons.mpr ⟨⟨proof, ?_, ?_⟩, fun other hother => ?_⟩
      · rw [hblocks, if_pos rfl]
      · rw [hproofs, if_pos rfl]
      · obtain ⟨proof', hready⟩ := hw.ready other hother
        have hne : other.hash ≠ block.hash := fun heq =>
          (h.apart hchain).2 (heq ▸ List.mem_map_of_mem hother)
        refine ⟨proof', ?_, ?_⟩
        · rw [hblocks, if_neg hne]
          exact hready.1
        · rw [hproofs, if_neg hne]
          exact hready.2
    · rw [List.map_cons, List.mem_cons, not_or] at hnot
      show (bufferWith tree.blockBuffer block (some proof)).blocks.get hash = _
      rw [hblocks, if_neg hnot.1]
      exact hw.blocks hash hnot.2
    · rw [List.map_cons, List.mem_cons, not_or] at hnot
      show (bufferWith tree.blockBuffer block (some proof)).proofs.get hash = _
      rw [hproofs, if_neg hnot.1]
      exact hw.proofs hash hnot.2
    · show (bufferWith tree.blockBuffer block (some proof)).lru.maxLength = _
      rw [hlru]
      exact hw.limit

/-- **What is taken out of the buffer for the lowest block is the chain above it**, in its
order. -/
theorem removed (h : Downloadable feed start chain root target) (hchain : chain = block :: above)
    (hw : Waiting feed start above tree) (σ : SetOrder B256) :
    (tree.blockBuffer.removeBlockWithChildren σ block.hash).1.map Prod.fst = above := by
  have hspec := BlockBuffer.removeBlockWithChildren_spec σ block.hash hw.fed.wellFormed
  have hrises := h.rises
  have hnodup := h.nodup
  rw [hchain] at hrises hnodup
  rw [List.map_cons] at hnodup
  have hnot := (List.nodup_cons.mp hnodup).1
  have habove : Rises block.hash above target := by
    cases hrises with
    | cons _ rest => exact rest
  have hmem : ∀ pair ∈ (tree.blockBuffer.removeBlockWithChildren σ block.hash).1,
      pair.1 ∈ above := by
    intro pair hpair
    have hready := hspec.ready pair hpair
    by_cases hlisted : pair.1.hash ∈ above.map fun block => block.hash
    · obtain ⟨other, hother, heq⟩ := List.mem_map.mp hlisted
      obtain ⟨proof, hready'⟩ := hw.ready other hother
      have hsame := hready.1
      rw [← heq, hready'.1] at hsame
      exact Option.some.inj hsame ▸ hother
    · refine absurd ⟨pair.1, pair.2, ?_, ?_⟩ (h.noneReady pair.1.hash)
      · rw [← hw.blocks _ hlisted]
        exact hready.1
      · rw [← hw.proofs _ hlisted]
        exact hready.2
  refine habove.eq_of_ordered hnodup hmem ?_ hspec.nodup ?_
  · -- a block left behind would have a parent that was taken out
    have hall := habove.forall_mem (p := fun hash => hash = block.hash ∨
      hash ∈ BlockBuffer.hashes (tree.blockBuffer.removeBlockWithChildren σ block.hash).1)
      (.inl rfl) fun child hchild hparent => ?_
    · intro child hchild
      refine (hall child hchild).resolve_left fun heq => hnot ?_
      exact heq ▸ List.mem_map_of_mem hchild
    · by_contra hleft
      rw [not_or] at hleft
      obtain ⟨proof, hready⟩ := hw.ready child hchild
      have hcomplete := hspec.complete child.hash child proof ⟨?_, ?_⟩
      · exact hparent.elim hcomplete.1 hcomplete.2
      · rw [hspec.blocks, if_neg hleft.2]
        exact hready.1
      · rw [hspec.proofs, if_neg hleft.2]
        exact hready.2
  · refine hspec.ordered.imp_of_mem fun {earlier later} hearlier _ hne => hne ?_
    intro heq
    exact hnot (heq ▸ List.mem_map_of_mem (hmem earlier hearlier))

/-- **The lowest block connects the chain**: all its blocks are stored, none of them is left
in the buffer, and there is nothing more to download. -/
theorem connects (hsteady : X.invalidHeaderCache.Steady)
    (h : Downloadable feed start chain root target) (hchain : chain = block :: above)
    (hw : Waiting feed start above tree) (htargets : start.Targets target)
    (hproof : proof ∈ feed.proofs block.hash) (σ : SetOrder B256) :
    ∃ event tree', onDownloadedBlock σ tree block proof
        = (.ok ⟨⟨.valid, some block.hash⟩, event⟩, tree') ∧
      (event = none ∨ event = some (.makeCanonical target)) ∧
      Connected feed start chain tree' := by
  have hchain₁ : chain = [] ++ block :: above := hchain
  obtain ⟨hnoBlock, -, -, -, hunmarked⟩ := hw.untouched h hchain₁
  have hprovider : tree.provider = start.provider := by rw [hw.rest]
  have htargets₁ : (tree.addVerified block proof).Targets target :=
    htargets.of_tracker (by rw [hw.rest]; rfl)
  have hnothing : Stores feed start.provider [] tree.provider := by
    rw [hprovider]
    exact .nil
  have hinsert := h.inserts hchain₁ hnothing hproof
  have hspec := BlockBuffer.removeBlockWithChildren_spec σ block.hash hw.fed.wellFormed
  have hremoved := hw.removed h hchain σ
  -- the descendants are connected in the tree with the block
  have hstored : Stores feed start.provider ([] ++ [block])
      (tree.addVerified block proof).provider := hnothing.snoc hproof
  obtain ⟨hok, hbuffer, provider, hstores, hsame⟩ :
      (tryConnectBufferedBlocks σ (tree.addVerified block proof) block.hash).1 = .ok () ∧
      (tryConnectBufferedBlocks σ (tree.addVerified block proof) block.hash).2.blockBuffer
        = (tree.blockBuffer.removeBlockWithChildren σ block.hash).2 ∧
      ∃ provider, Stores feed start.provider chain provider ∧ provider.SameBlocks
        (tryConnectBufferedBlocks σ (tree.addVerified block proof) block.hash).2.provider := by
    rw [tryConnectBufferedBlocks_eq]
    refine h.connectBlocks ?_ ?_ htargets₁ hstored
    · show chain = [block] ++
        (tree.blockBuffer.removeBlockWithChildren σ block.hash).1.map Prod.fst
      rw [hremoved]
      exact hchain
    · exact fun pair hmem => (hw.fed.ready_fed (hspec.ready pair hmem)).2.2
  generalize htry : tryConnectBufferedBlocks σ (tree.addVerified block proof) block.hash
    = connected at hok hbuffer hsame
  obtain ⟨result, tree'⟩ := connected
  simp only at hok hbuffer hsame
  subst hok
  refine ⟨(tree.addVerified block proof).syncTargetEvent block.hash, tree', ?_, ?_, ?_, ?_, ?_, ?_⟩
  · unfold onDownloadedBlock
    rw [lowestBufferedAncestorOr_of_get_none hnoBlock,
      checkInvalidAncestorWithHead_of_unmarked hsteady hunmarked]
    simp only [hinsert, htry]
    rfl
  · unfold syncTargetEvent
    split
    · next htop =>
        rw [htargets₁.isSyncTargetHead_iff.mp htop]
        exact .inr rfl
    · exact .inl rfl
  · intro member hmember
    obtain ⟨hblock, proof', hfed, hproof'⟩ := hstores.has h.nodup member hmember
    rw [← hsame.blocksByHash] at hblock
    rw [← hsame.proofs] at hproof'
    exact ⟨hblock, proof', hfed, hproof'⟩
  · intro hash header hheader
    have hnot : hash ∉ chain.map fun block => block.hash := by
      intro hmem
      obtain ⟨member, hmember, rfl⟩ := List.mem_map.mp hmem
      exact h.fresh member hmember (ChainState.contains_iff_sealedHeader.mpr ⟨header, hheader⟩)
    rw [← hheader]
    unfold ChainState.sealedHeader
    rw [hsame.blocksByHash, hstores.blocksByHash hnot]
  · intro hash
    rw [hbuffer, hspec.blocks]
    split
    · next hmem =>
        obtain ⟨pair, hpair, rfl⟩ := List.mem_map.mp hmem
        have habove : pair.1 ∈ above := hremoved ▸ List.mem_map_of_mem hpair
        exact (h.noBlock pair.1 (hchain ▸ List.mem_cons_of_mem _ habove)).symm
    · next hnot =>
        refine hw.blocks hash ?_
        rw [← hremoved, List.map_map]
        exact hnot
  · intro hash
    rw [hbuffer, hspec.proofs]
    split
    · next hmem =>
        obtain ⟨pair, hpair, rfl⟩ := List.mem_map.mp hmem
        have habove : pair.1 ∈ above := hremoved ▸ List.mem_map_of_mem hpair
        exact (h.noProof pair.1 (hchain ▸ List.mem_cons_of_mem _ habove)).symm
    · next hnot =>
        refine hw.proofs hash ?_
        rw [← hremoved, List.map_map]
        exact hnot

/-- All other blocks above the lowest one are inserted before the target. -/
private theorem mem_insertedBefore (hw : Waiting feed start above tree)
    (h : Downloadable feed start chain root target) (hchain : chain = block :: above)
    (σ : SetOrder B256) {child : Block} (hmem : child ∈ above) (hne : child.hash ≠ target) :
    child.hash ∈ insertedBefore σ tree block target := by
  unfold insertedBefore
  have hhashes : BlockBuffer.hashes (tree.blockBuffer.removeBlockWithChildren σ block.hash).1
      = above.map fun block => block.hash := by
    rw [← hw.removed h hchain σ, List.map_map]
    rfl
  obtain ⟨earlier, later, rfl⟩ := List.append_of_mem hmem
  rw [hhashes, List.append_cons, List.map_append, List.takeWhile_append_of_pos]
  · exact List.mem_append_left _ (List.mem_map_of_mem (List.mem_append_right _ List.mem_cons_self))
  · -- none of these is the topmost block
    intro hash hhash
    obtain ⟨other, hother, rfl⟩ := List.mem_map.mp hhash
    refine decide_eq_true fun heq => ?_
    rcases List.mem_append.mp hother with hearlier | hlast
    · obtain ⟨below, between, rfl⟩ := List.append_of_mem hearlier
      have hsplit : chain = (block :: below) ++ other :: (between ++ child :: later) := by
        rw [hchain, List.append_assoc, List.cons_append, List.cons_append]
      have hnil := (h.eq_target_iff hsplit).mp heq
      simp at hnil
    · exact hne (List.mem_singleton.mp hlast ▸ heq)

/-- **The head of the chain is installed** when its lowest block is handled. -/
theorem installs {genesis : Block} (hgenesis : feed.IsGenesis genesis)
    (hw : Waiting feed start above tree) (h : Downloadable feed start chain root target)
    (hchain : chain = block :: above) (hhead : HeadGrounded feed genesis start)
    (htargets : start.Targets target) (hjoins : start.Joins root) {σ : SetOrder B256}
    {proof : X.Proof} {outcome : TreeOutcome PayloadStatus} {tree' : EngineTree X}
    (hhandled : onDownloadedBlock σ tree block proof = (.ok outcome, tree'))
    (hgrounded : Grounded feed genesis (tree'.carryOut outcome.event).provider)
    (hconnected : Connected feed start chain (tree'.carryOut outcome.event)) :
    (tree'.carryOut outcome.event).canonicalHead.hash = target ∧
      ∀ block ∈ chain, (tree'.carryOut outcome.event).provider.canonicalHashesByNumber.get
        block.number = some block.hash := by
  obtain ⟨new, old, ancestor, hbranches, -, hdisjoint⟩ := hjoins
  have hprovider : tree.provider = start.provider := by rw [hw.rest]
  have hsameHead : tree.canonicalHead = start.canonicalHead := by rw [hw.rest]
  have hstored : ∀ member ∈ chain, (tree'.carryOut outcome.event).provider.sealedHeader member.hash
      = some member.toSealedHeader := fun member hmem =>
    ChainState.sealedHeader_eq_some.mpr ⟨member, (hconnected.has member hmem).1, rfl⟩
  obtain ⟨top, htop, htopHash⟩ := h.rises.top_mem h.nonempty
  have hfresh : ¬tree.provider.Contains target := by
    rw [hprovider, ← htopHash]
    exact h.fresh top htop
  -- the sync target gets its turn
  have hhandles := onDownloadedBlock_cases σ tree block proof
  rw [hhandled] at hhandles
  have hturn := hhandles.takesTurn (htargets.of_tracker (by rw [hw.rest])) hfresh
    (ChainState.contains_iff_sealedHeader.mpr ⟨_, htopHash ▸ hstored top htop⟩)
  generalize tree'.carryOut outcome.event = final at *
  -- and the chain is the upper part of its branch
  have hfinal : final.provider.Branches target tree.canonicalHead.hash
      (chain.reverse.map Block.toSealedHeader ++ new) old ancestor := by
    rw [hsameHead]
    exact ⟨(h.rises.storedPath hstored).append (hbranches.new.mono hconnected.kept),
      hbranches.old.mono hconnected.kept⟩
  have hatHeight := hhead.atHeight hgenesis hgrounded
  rw [← hsameHead] at hatHeight
  have hinstalled := (hturn.installed_iff hw.fed.wellFormed (hgrounded.leveled hgenesis) hatHeight
    hfinal).mpr ⟨fun _ => ⟨_, old, [], (List.append_nil _).symm, (List.append_nil _).symm, ?_⟩, ?_⟩
  · refine ⟨hinstalled.head, fun member hmem => hinstalled.mapped member.toSealedHeader ?_⟩
    exact List.mem_append_left _ (List.mem_map_of_mem (List.mem_reverse.mpr hmem))
  · have hold : ∀ hash header, start.provider.sealedHeader hash = some header →
        tree.provider.Contains header.hash := by
      intro hash header hheader
      rw [hprovider, ChainState.hash_of_sealedHeader hheader]
      exact ChainState.contains_iff_sealedHeader.mpr ⟨header, hheader⟩
    intro header hmem
    rw [List.append_assoc] at hmem
    rcases List.mem_append.mp hmem with hmem | hmem
    · obtain ⟨member, hmember, rfl⟩ := List.mem_map.mp hmem
      rw [List.mem_reverse, hchain] at hmember
      rcases List.mem_cons.mp hmember with rfl | habove
      · exact .inr (.inl rfl)
      · by_cases hown : member.hash = target
        · exact .inr (.inr (.inl hown))
        · exact .inr (.inr (.inr (mem_insertedBefore hw h hchain σ habove hown)))
    · obtain ⟨hash, hfound⟩ : ∃ hash, start.provider.sealedHeader hash = some header :=
        (List.mem_append.mp hmem).elim hbranches.new.found_of_mem hbranches.old.found_of_mem
      exact .inl (hold hash header hfound)
  · -- what is on both branches was stored before, and below the fork
    intro header hnew hold
    rcases List.mem_append.mp hnew with hmem | hmem
    · obtain ⟨member, hmember, rfl⟩ := List.mem_map.mp hmem
      obtain ⟨hash, hfound⟩ := hbranches.old.found_of_mem hold
      have hkey : member.hash = hash := ChainState.hash_of_sealedHeader hfound
      refine absurd (ChainState.contains_iff_sealedHeader.mpr ⟨_, hfound⟩) ?_
      rw [← hkey]
      exact h.fresh member (List.mem_reverse.mp hmember)
    · exact absurd hold (hdisjoint header hmem)

end Waiting

end ZkRess
