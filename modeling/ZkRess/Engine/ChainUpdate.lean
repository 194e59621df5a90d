import ZkRess.Engine.TreeSteps

/-!
# Chain updates

What `on_new_head` finds and what applying it does to the canonical hashes.

The provider is `Grounded`: every stored block is the genesis block or numbered
one above its known parent.  In a grounded provider the ancestor walks of
`on_new_head` go through positions, and a chain update it returns consists of
two walks to one position (`onNewHead_spec`), whichever way the two chains lie.

`Canonical` is the invariant of head and canonical hashes: the canonical map
lists positions below the head only.  Verifying, pruning and advancing keep it.
-/

namespace ZkRess

open Foundation

variable {X : Externals}

namespace Feed

/-- Walks between positions of known headers. -/
abbrev ChainWalk (feed : Feed X) (hash : B256) (number : ℕ) (headers : List SealedHeader)
    (reached : B256) (reachedNumber : ℕ) : Prop :=
  Walk feed.preimage (fun header => header.parentHash) (fun header => header.number) hash number
    headers reached reachedNumber

/-- A position is met when walking down from another. -/
abbrev ChainReaches (feed : Feed X) (hash : B256) (number : ℕ) (reached : B256)
    (reachedNumber : ℕ) : Prop :=
  Reaches feed.preimage (fun header => header.parentHash) (fun header => header.number) hash
    number reached reachedNumber

/-- If the hash is known, it has this number. -/
def Positioned (feed : Feed X) (hash : B256) (number : ℕ) : Prop :=
  ∀ header, feed.preimage hash = some header → header.number = number

/-- The genesis block has number zero and no known parent. -/
structure IsGenesis (feed : Feed X) (genesis : Block) : Prop where
  conforms : genesis.toSealedHeader.Conforms feed.preimage
  number : genesis.number = 0
  noParent : feed.preimage genesis.parentHash = none

end Feed

/-! ## Stored blocks -/

/-- A provider of known blocks, with an exact index. -/
structure Stocked (feed : Feed X) (provider : ChainState X.Proof) : Prop where
  indexed : provider.Indexed
  conforms : ∀ hash block, provider.blocksByHash.get hash = some block →
    block.toSealedHeader.Conforms feed.preimage

/-- What a finalized download does to the blocks: the finalized one is stored. -/
theorem insertFinalized_sameBlocks (tree : EngineTree X) (block : Block)
    (ancestors : List SealedHeader) :
    ChainState.SameBlocks (tree.provider.insertBlock block none)
      (ConsensusEngine.insertFinalized tree block ancestors).provider := by
  have hinsert : ChainState.SameBlocks (tree.provider.insertBlock block none)
      ((tree.provider.insertCanonicalHash block.number block.hash).insertBlock block none) :=
    ⟨rfl, rfl, rfl⟩
  exact hinsert.trans (ChainState.insertCanonicalHashes_sameBlocks ancestors _)

theorem insertFinalized_get (tree : EngineTree X) (block : Block) (ancestors : List SealedHeader)
    (hash : B256) :
    (ConsensusEngine.insertFinalized tree block ancestors).provider.blocksByHash.get hash
      = if hash = block.hash then some block else tree.provider.blocksByHash.get hash := by
  rw [(insertFinalized_sameBlocks tree block ancestors).blocksByHash, ChainState.insertBlock_get]

theorem contains_insertFinalized {tree : EngineTree X} {block : Block}
    {ancestors : List SealedHeader} {hash : B256} :
    (ConsensusEngine.insertFinalized tree block ancestors).provider.Contains hash
      ↔ hash = block.hash ∨ tree.provider.Contains hash := by
  unfold ChainState.Contains
  rw [insertFinalized_get]
  by_cases heq : hash = block.hash <;> simp [heq]

/-- The canonical hashes a finalized download writes: its block's, then its ancestors'. -/
theorem insertFinalized_canonical (tree : EngineTree X) (block : Block)
    (ancestors : List SealedHeader) :
    (ConsensusEngine.insertFinalized tree block ancestors).provider.canonicalHashesByNumber
      = FiniteMap.insertList (fun header : SealedHeader => header.number)
          (fun header => header.hash) (block.toSealedHeader :: ancestors)
          tree.provider.canonicalHashesByNumber := by
  simp only [ConsensusEngine.insertFinalized, ChainState.insertCanonicalHashes_canonical]
  rfl

/-- The blocks of a launched node: the genesis block. -/
theorem launch_get (genesis : Block) (hash : B256) :
    (ConsensusEngine.launch X genesis).tree.provider.blocksByHash.get hash
      = if hash = genesis.hash then some genesis else none :=
  ChainState.insertBlock_get .empty genesis none hash

namespace Stocked

variable {feed : Feed X} {provider provider' : ChainState X.Proof}

theorem preimage_of_sealedHeader (h : Stocked feed provider) {hash : B256} {header : SealedHeader}
    (hstored : provider.sealedHeader hash = some header) : feed.preimage hash = some header := by
  obtain ⟨block, hget, rfl⟩ := ChainState.sealedHeader_eq_some.mp hstored
  have hconf := h.conforms hash block hget
  unfold SealedHeader.Conforms at hconf
  rwa [ChainState.hash_of_get hget] at hconf

theorem insertBlock (h : Stocked feed provider) {block : Block} {maybeProof : Option X.Proof}
    (hconf : block.toSealedHeader.Conforms feed.preimage) :
    Stocked feed (provider.insertBlock block maybeProof) where
  indexed := by
    refine h.indexed.insertBlock fun old hold => ?_
    have hconf' := h.conforms _ old hold
    unfold SealedHeader.Conforms at hconf hconf'
    rw [ChainState.hash_of_get hold, hconf] at hconf'
    rw [← Option.some.inj hconf']
  conforms hash block' hget := by
    rw [ChainState.insertBlock_get] at hget
    split at hget
    · cases hget
      exact hconf
    · exact h.conforms hash block' hget

/-- With fewer blocks, the provider stays stocked. -/
theorem of_sub (h : Stocked feed provider) (hindexed : provider'.Indexed)
    (hsub : ∀ hash block, provider'.blocksByHash.get hash = some block →
      provider.blocksByHash.get hash = some block) : Stocked feed provider' where
  indexed := hindexed
  conforms hash block hget := h.conforms hash block (hsub hash block hget)

theorem of_sameBlocks (h : Stocked feed provider)
    (same : ChainState.SameBlocks provider provider') :
    Stocked feed provider' :=
  h.of_sub (h.indexed.of_sameBlocks same) fun hash block hget => by rwa [same.blocksByHash] at hget

theorem removeBlocksOnFinalized (h : Stocked feed provider) (finalizedHash : B256) :
    Stocked feed (provider.removeBlocksOnFinalized finalizedHash) := by
  cases hfin : provider.blocksByHash.get finalizedHash with
  | none => rwa [ChainState.removeBlocksOnFinalized_of_none hfin]
  | some finalized =>
      exact h.of_sub (h.indexed.removeBlocksOnFinalized finalizedHash) fun hash block hget =>
        ((ChainState.removeBlocksOnFinalized_get h.indexed hfin).mp hget).1

/-- **Every small step keeps the provider stocked.** -/
theorem step {tree tree' : EngineTree X} {mark : Option Mark} (step : TreeStep feed tree tree' mark)
    (h : Stocked feed tree.provider) : Stocked feed tree'.provider := by
  cases step with
  | quiet provider => rwa [provider]
  | condemn _ _ _ provider => rwa [provider]
  | inherit _ _ _ provider => rwa [provider]
  | verify fed _ _ _ _ _ provider => exact provider ▸ h.insertBlock (feed.blocks_conform _ fed)
  | advance _ provider =>
      exact provider ▸ h.of_sameBlocks (ChainState.onChainUpdate_sameBlocks _ _ _)
  | prune _ _ _ provider => exact provider ▸ h.removeBlocksOnFinalized _

theorem insertFinalized {tree : EngineTree X} (h : Stocked feed tree.provider) {block : Block}
    {ancestors : List SealedHeader} (hfed : (block, ancestors) ∈ feed.finalized) :
    Stocked feed (ConsensusEngine.insertFinalized tree block ancestors).provider :=
  (h.insertBlock (feed.finalized_conform _ hfed)).of_sameBlocks
    (insertFinalized_sameBlocks tree block ancestors)

theorem launch {genesis : Block} (hconf : genesis.toSealedHeader.Conforms feed.preimage) :
    Stocked feed (ConsensusEngine.launch X genesis).tree.provider := by
  have hempty : Stocked feed (ChainState.empty : ChainState X.Proof) :=
    ⟨ChainState.indexed_empty, fun hash block hget => by simp [ChainState.empty] at hget⟩
  have hinsert : Stocked feed ((ChainState.empty : ChainState X.Proof).insertBlock genesis none) :=
    hempty.insertBlock hconf
  exact hinsert.of_sameBlocks ⟨rfl, rfl, rfl⟩

theorem of_history {genesis : Block} (hconf : genesis.toSealedHeader.Conforms feed.preimage)
    {marks : List Mark} {tree : EngineTree X}
    (history : ConsensusEngine.History feed (ConsensusEngine.launch X genesis).tree marks tree) :
    Stocked feed tree.provider := by
  induction history with
  | start => exact .launch hconf
  | step _ step ih => exact ih.step step
  | finalized _ _ _ fed ih => exact ih.insertFinalized fed

/-- Two blocks of one hash, one fed and one stored, have one number. -/
theorem number_eq (h : Stocked feed provider)
    {stored block : Block} (hstored : provider.blocksByHash.get block.hash = some stored)
    (hblock : block ∈ feed.blocks) : stored.number = block.number := by
  have hconf : feed.preimage stored.hash = some stored.toSealedHeader := h.conforms _ _ hstored
  have hconf' : feed.preimage block.hash = some block.toSealedHeader :=
    feed.blocks_conform block hblock
  rw [ChainState.hash_of_get hstored, hconf'] at hconf
  exact congrArg (fun header : SealedHeader => header.number) (Option.some.inj hconf).symm

end Stocked

/-- A stocked provider whose blocks are each the genesis block or one above their
known parent. -/
structure Grounded (feed : Feed X) (genesis : Block) (provider : ChainState X.Proof) : Prop
    extends Stocked feed provider where
  linked : ∀ hash block, provider.blocksByHash.get hash = some block →
    block.hash = genesis.hash ∨
      ∃ parent, feed.preimage block.parentHash = some parent ∧ block.number = parent.number + 1

namespace Grounded

variable {feed : Feed X} {genesis : Block} {provider : ChainState X.Proof}

/-- A stored header is the genesis header or one above its known parent. -/
theorem header_cases (hgenesis : feed.IsGenesis genesis) (h : Grounded feed genesis provider)
    {hash : B256} {header : SealedHeader} (hstored : provider.sealedHeader hash = some header) :
    header = genesis.toSealedHeader ∨
      ∃ parent, feed.preimage header.parentHash = some parent ∧
        header.number = parent.number + 1 := by
  obtain ⟨block, hget, rfl⟩ := ChainState.sealedHeader_eq_some.mp hstored
  rcases h.linked hash block hget with heq | hparent
  · left
    have hconf := h.conforms hash block hget
    have hconf' := hgenesis.conforms
    unfold SealedHeader.Conforms at hconf hconf'
    rw [heq, hconf'] at hconf
    exact (Option.some.inj hconf).symm
  · exact .inr hparent

/-- The parent of a stored block has the position below it. -/
theorem parent_positioned (hgenesis : feed.IsGenesis genesis) (h : Grounded feed genesis provider)
    {hash : B256} {header : SealedHeader} (hstored : provider.sealedHeader hash = some header)
    {number : ℕ} (hnumber : header.number = number + 1) :
    feed.Positioned header.parentHash number := by
  intro parent hparent
  rcases h.header_cases hgenesis hstored with rfl | ⟨parent', hparent', hnumber'⟩
  · rw [hgenesis.noParent] at hparent
    cases hparent
  · rw [hparent'] at hparent
    cases hparent
    omega

/-- A stored block of number zero is the genesis block. -/
theorem eq_genesis_of_number_zero (hgenesis : feed.IsGenesis genesis)
    (h : Grounded feed genesis provider) {hash : B256} {header : SealedHeader}
    (hstored : provider.sealedHeader hash = some header) (hnumber : header.number = 0) :
    header = genesis.toSealedHeader := by
  rcases h.header_cases hgenesis hstored with heq | ⟨parent, -, hstep⟩
  · exact heq
  · omega

theorem insertBlock (h : Grounded feed genesis provider) {block : Block}
    {maybeProof : Option X.Proof} (hconf : block.toSealedHeader.Conforms feed.preimage)
    (hparent : ∃ parent, feed.preimage block.parentHash = some parent ∧
      block.number = parent.number + 1) :
    Grounded feed genesis (provider.insertBlock block maybeProof) where
  toStocked := h.toStocked.insertBlock hconf
  linked hash block' hget := by
    rw [ChainState.insertBlock_get] at hget
    split at hget
    · cases hget
      exact .inr hparent
    · exact h.linked hash block' hget

theorem of_sameBlocks {provider' : ChainState X.Proof} (h : Grounded feed genesis provider)
    (same : ChainState.SameBlocks provider provider') : Grounded feed genesis provider' where
  toStocked := h.toStocked.of_sameBlocks same
  linked hash block hget := h.linked hash block (by rwa [same.blocksByHash] at hget)

theorem removeBlocksOnFinalized (h : Grounded feed genesis provider) (finalizedHash : B256) :
    Grounded feed genesis (provider.removeBlocksOnFinalized finalizedHash) where
  toStocked := h.toStocked.removeBlocksOnFinalized finalizedHash
  linked hash block hget := by
    cases hfin : provider.blocksByHash.get finalizedHash with
    | none =>
        rw [ChainState.removeBlocksOnFinalized_of_none hfin] at hget
        exact h.linked hash block hget
    | some finalized =>
        exact h.linked hash block
          ((ChainState.removeBlocksOnFinalized_get h.indexed hfin).mp hget).1

/-- **Every small step keeps the provider grounded**, when verified blocks are numbered
one above their parents. -/
theorem step (hverifies : X.VerifiesNumber) {tree tree' : EngineTree X} {mark : Option Mark}
    (step : TreeStep feed tree tree' mark) (h : Grounded feed genesis tree.provider) :
    Grounded feed genesis tree'.provider := by
  match step with
  | .quiet provider _ _ => rwa [provider]
  | .condemn _ _ _ provider _ _ => rwa [provider]
  | .inherit _ _ _ provider _ _ => rwa [provider]
  | .verify fed _ _ _ connected passed provider _ _ =>
      rw [provider]
      exact h.insertBlock (feed.blocks_conform _ fed)
        ⟨_, h.preimage_of_sealedHeader connected, hverifies _ _ _ _ passed⟩
  | .advance _ provider _ _ =>
      rw [provider]
      exact h.of_sameBlocks (ChainState.onChainUpdate_sameBlocks _ _ _)
  | .prune _ _ _ provider _ _ =>
      rw [provider]
      exact h.removeBlocksOnFinalized _

/-- A launched node has the genesis block only. -/
theorem launch (hgenesis : feed.IsGenesis genesis) :
    Grounded feed genesis (ConsensusEngine.launch X genesis).tree.provider where
  toStocked := .launch hgenesis.conforms
  linked hash block hblock := by
    rw [launch_get] at hblock
    split at hblock
    · cases hblock
      exact .inl rfl
    · cases hblock

end Grounded

/-! ## What `on_new_head` finds -/

namespace EngineTree

variable {feed : Feed X} {genesis : Block} {provider : ChainState X.Proof}

/-- A round of the loop goes on from the parent of the header it found. -/
theorem gatherAncestors_succ_eq_some {n : ℕ} {start reached : B256} {headers : List SealedHeader} :
    gatherAncestors provider (n + 1) start = some (headers, reached) ↔
      ∃ header rest, provider.sealedHeader start = some header ∧
        gatherAncestors provider n header.parentHash = some (rest, reached) ∧
        headers = header :: rest := by
  rw [gatherAncestors]
  cases provider.sealedHeader start with
  | none => simp
  | some header =>
      cases hrest : gatherAncestors provider n header.parentHash with
      | none => simp [hrest]
      | some gathered =>
          obtain ⟨rest, reached'⟩ := gathered
          simp only [Option.some_inj, Prod.mk.injEq, exists_and_left, exists_eq_left', hrest]
          constructor
          · rintro ⟨rfl, rfl⟩
            exact ⟨rest, ⟨rfl, rfl⟩, rfl⟩
          · rintro ⟨rest', ⟨rfl, rfl⟩, rfl⟩
            exact ⟨rfl, rfl⟩

/-- The walk is over where the chains meet, and goes on from both parents where not. -/
theorem walkToForkPoint_cases {n : ℕ} {oldHash currentHash : B256}
    {olds currents : List SealedHeader}
    (h : walkToForkPoint provider (n + 1) oldHash currentHash = some (olds, currents)) :
    (oldHash = currentHash ∧ olds = [] ∧ currents = []) ∨
      oldHash ≠ currentHash ∧ ∃ old current olds' currents',
        provider.sealedHeader oldHash = some old ∧
        provider.sealedHeader currentHash = some current ∧
        walkToForkPoint provider n old.parentHash current.parentHash = some (olds', currents') ∧
        olds = old :: olds' ∧ currents = current :: currents' := by
  unfold walkToForkPoint at h
  split at h
  · next heq =>
      cases h
      exact .inl ⟨heq, rfl, rfl⟩
  · next hne =>
      split at h
      · next old current hold hcurrent =>
          split at h
          · cases h
          · next olds' currents' hrest =>
              cases h
              exact .inr ⟨hne, old, current, olds', currents', hold, hcurrent, hrest, rfl, rfl⟩
      · cases h

theorem gatherAncestors_walk (hgenesis : feed.IsGenesis genesis)
    (hgrounded : Grounded feed genesis provider) {n : ℕ} {start reached : B256} {number : ℕ}
    {headers : List SealedHeader} (hpos : feed.Positioned start number) (hle : n ≤ number)
    (h : gatherAncestors provider n start = some (headers, reached)) :
    feed.ChainWalk start number headers reached (number - n) ∧
      feed.Positioned reached (number - n) := by
  induction n generalizing start number headers with
  | zero =>
      cases h
      rw [Nat.sub_zero]
      exact ⟨.nil _ _, hpos⟩
  | succ n ih =>
      obtain ⟨header, rest, hstored, hrest, rfl⟩ := gatherAncestors_succ_eq_some.mp h
      obtain ⟨number, rfl⟩ : ∃ k, number = k + 1 := ⟨number - 1, by omega⟩
      have hfound := hgrounded.preimage_of_sealedHeader hstored
      have hnumber := hpos header hfound
      obtain ⟨hwalk, hreached⟩ := ih
        (hgrounded.parent_positioned hgenesis hstored hnumber) (by omega) hrest
      rw [Nat.add_sub_add_right]
      exact ⟨.cons hfound hnumber hwalk, hreached⟩

theorem walkToForkPoint_walk (hgenesis : feed.IsGenesis genesis)
    (hgrounded : Grounded feed genesis provider) {n : ℕ} {oldHash currentHash : B256} {number : ℕ}
    {olds currents : List SealedHeader} (hold : feed.Positioned oldHash number)
    (hcurrent : feed.Positioned currentHash number)
    (h : walkToForkPoint provider n oldHash currentHash = some (olds, currents)) :
    ∃ fork forkNumber, feed.ChainWalk oldHash number olds fork forkNumber ∧
      feed.ChainWalk currentHash number currents fork forkNumber := by
  induction n generalizing oldHash currentHash number olds currents with
  | zero => cases h
  | succ n ih =>
      obtain ⟨rfl, rfl, rfl⟩ | ⟨hne, old, current, olds', currents', hstoredOld, hstoredCurrent,
        hrest, rfl, rfl⟩ := walkToForkPoint_cases h
      · exact ⟨oldHash, number, .nil _ _, .nil _ _⟩
      · have hfoundOld := hgrounded.preimage_of_sealedHeader hstoredOld
        have hfoundCurrent := hgrounded.preimage_of_sealedHeader hstoredCurrent
        have hnumberOld := hold old hfoundOld
        have hnumberCurrent := hcurrent current hfoundCurrent
        obtain ⟨number, rfl⟩ : ∃ k, number = k + 1 := by
          -- two different blocks of number zero would both be genesis
          refine ⟨number - 1, (Nat.sub_add_cancel (Nat.pos_of_ne_zero fun hzero => ?_)).symm⟩
          have holdGenesis := hgrounded.eq_genesis_of_number_zero hgenesis hstoredOld (by omega)
          have hcurrentGenesis := hgrounded.eq_genesis_of_number_zero hgenesis hstoredCurrent
            (by omega)
          apply hne
          rw [← ChainState.hash_of_sealedHeader hstoredOld,
            ← ChainState.hash_of_sealedHeader hstoredCurrent, holdGenesis, hcurrentGenesis]
        obtain ⟨fork, forkNumber, hwalkOld, hwalkCurrent⟩ := ih
          (hgrounded.parent_positioned hgenesis hstoredOld hnumberOld)
          (hgrounded.parent_positioned hgenesis hstoredCurrent hnumberCurrent) hrest
        exact ⟨fork, forkNumber, .cons hfoundOld hnumberOld hwalkOld,
          .cons hfoundCurrent hnumberCurrent hwalkCurrent⟩

/-- The canonical head is stored, at its own number. -/
structure HeadStored (tree : EngineTree X) : Prop where
  stored : ∃ header, tree.provider.sealedHeader tree.canonicalHead.hash = some header ∧
    header.number = tree.canonicalHead.number

/-- What a chain update found for a head consists of: two walks, from the new and
from the old head, to one position. -/
structure Meets (feed : Feed X) (tree : EngineTree X) (newHead : B256)
    (update : NewCanonicalChain) (header : SealedHeader) (fork : B256) (forkNumber : ℕ) : Prop where
  stored : tree.provider.sealedHeader newHead = some header
  tip : update.tip = header
  nonzero : header.number ≠ 0
  new : feed.ChainWalk newHead header.number update.new.headers.reverse fork forkNumber
  old : feed.ChainWalk tree.canonicalHead.hash tree.canonicalHead.number update.old.reverse fork
    forkNumber

/-- A walk of at least one block ends at the hash of a known header or of the
genesis block's parent; the latter only from the genesis block itself. -/
private theorem reached_ne_genesis_parent (hgenesis : feed.IsGenesis genesis)
    (hgrounded : Grounded feed genesis provider) {n : ℕ} {start reached : B256} {number : ℕ}
    {headers : List SealedHeader} (hpos : feed.Positioned start number) (hle : n ≤ number)
    (hknown : ∃ header, feed.preimage start = some header)
    (h : gatherAncestors provider n start = some (headers, reached)) :
    ∃ header, feed.preimage reached = some header := by
  induction n generalizing start number headers with
  | zero =>
      cases h
      exact hknown
  | succ n ih =>
      obtain ⟨header, rest, hstored, hrest, rfl⟩ := gatherAncestors_succ_eq_some.mp h
      obtain ⟨number, rfl⟩ : ∃ k, number = k + 1 := ⟨number - 1, by omega⟩
      have hnumber := hpos header (hgrounded.preimage_of_sealedHeader hstored)
      refine ih (hgrounded.parent_positioned hgenesis hstored hnumber) (by omega) ?_ hrest
      rcases hgrounded.header_cases hgenesis hstored with rfl | ⟨parent, hparent, -⟩
      · rw [hgenesis.number] at hnumber
        omega
      · exact ⟨parent, hparent⟩

/-- Nothing is found for the genesis block: its parent is on no chain. -/
private theorem onNewHead_genesis (hgenesis : feed.IsGenesis genesis) {tree : EngineTree X}
    (hgrounded : Grounded feed genesis tree.provider) (hhead : tree.HeadStored) {newHead : B256}
    {header : SealedHeader} (hstored : tree.provider.sealedHeader newHead = some header)
    (hzero : header.number = 0) : tree.onNewHead newHead = none := by
  obtain ⟨headHeader, hheadStored, hheadNumber⟩ := hhead.stored
  have hheadKnown := hgrounded.preimage_of_sealedHeader hheadStored
  have heq := hgrounded.eq_genesis_of_number_zero hgenesis hstored hzero
  subst heq
  have hunknown : tree.provider.sealedHeader genesis.parentHash = none := by
    cases hparent : tree.provider.sealedHeader genesis.parentHash with
    | none => rfl
    | some parent =>
        have := hgrounded.preimage_of_sealedHeader hparent
        rw [hgenesis.noParent] at this
        cases this
  have hne : ∀ {hash : B256}, (∃ header, feed.preimage hash = some header) →
      hash ≠ genesis.parentHash := by
    rintro hash ⟨header, hknown⟩ rfl
    rw [hgenesis.noParent] at hknown
    cases hknown
  have hsub : genesis.number - 1 - tree.canonicalHead.number = 0 := by
    rw [hgenesis.number]
    omega
  unfold onNewHead
  rw [hstored]
  simp only [SealedHeader.parentNumHash, hsub, gatherAncestors]
  rw [if_neg (hne ⟨headHeader, hheadKnown⟩).symm]
  cases hgather : gatherAncestors tree.provider (tree.canonicalHead.number - (genesis.number - 1))
      tree.canonicalHead.hash with
  | none => rfl
  | some gathered =>
      obtain ⟨oldChain, oldHash⟩ := gathered
      have hpos : feed.Positioned tree.canonicalHead.hash tree.canonicalHead.number := by
        intro header' hknown
        rw [hheadKnown] at hknown
        cases hknown
        exact hheadNumber
      have hknown := reached_ne_genesis_parent hgenesis hgrounded hpos (Nat.sub_le _ _)
        ⟨headHeader, hheadKnown⟩ hgather
      simp only [walkToForkPoint, if_neg (hne hknown), hunknown]
      cases tree.provider.sealedHeader oldHash <;> rfl

/-- **What `on_new_head` finds.** -/
theorem onNewHead_spec (hgenesis : feed.IsGenesis genesis) {tree : EngineTree X}
    (hgrounded : Grounded feed genesis tree.provider) (hhead : tree.HeadStored) {newHead : B256}
    {update : NewCanonicalChain} (h : tree.onNewHead newHead = some update) :
    ∃ header fork forkNumber, Meets feed tree newHead update header fork forkNumber := by
  obtain ⟨headHeader, hheadStored, hheadNumber⟩ := hhead.stored
  have hheadKnown := hgrounded.preimage_of_sealedHeader hheadStored
  have hheadPos : feed.Positioned tree.canonicalHead.hash tree.canonicalHead.number := by
    intro header hknown
    rw [hheadKnown] at hknown
    cases hknown
    exact hheadNumber
  cases hstored : tree.provider.sealedHeader newHead with
  | none => simp [onNewHead, hstored] at h
  | some header =>
      by_cases hzero : header.number = 0
      · rw [onNewHead_genesis hgenesis hgrounded hhead hstored hzero] at h
        cases h
      · obtain ⟨number, hnumber⟩ : ∃ k, header.number = k + 1 := ⟨header.number - 1, by omega⟩
        have hfound := hgrounded.preimage_of_sealedHeader hstored
        have hparentPos := hgrounded.parent_positioned hgenesis hstored hnumber
        unfold onNewHead at h
        simp only [hstored, SealedHeader.parentNumHash, hnumber, Nat.add_sub_cancel] at h
        cases hgather : gatherAncestors tree.provider (number - tree.canonicalHead.number)
            header.parentHash with
        | none => simp [hgather] at h
        | some gathered =>
            obtain ⟨newChain, currentHash⟩ := gathered
            simp only [hgather] at h
            obtain ⟨hwalk, hcurrentPos⟩ := gatherAncestors_walk hgenesis hgrounded hparentPos
              (Nat.sub_le _ _) hgather
            split at h
            · next heq =>
                cases h
                have hsame : number - (number - tree.canonicalHead.number)
                    = tree.canonicalHead.number := by
                  exact (hcurrentPos headHeader (heq ▸ hheadKnown)).symm.trans hheadNumber
                rw [hsame, heq] at hwalk
                refine ⟨header, tree.canonicalHead.hash, tree.canonicalHead.number, hstored,
                  HeadChain.ofWalk_tip header newChain, hzero, ?_, .nil _ _⟩
                simp only [NewCanonicalChain.new, HeadChain.ofWalk, List.reverse_reverse]
                rw [hnumber]
                exact .cons hfound hnumber hwalk
            · cases hgatherOld : gatherAncestors tree.provider (tree.canonicalHead.number - number)
                  tree.canonicalHead.hash with
              | none => simp [hgatherOld] at h
              | some gathered =>
                  obtain ⟨oldChain, oldHash⟩ := gathered
                  simp only [hgatherOld] at h
                  obtain ⟨hwalkOld, holdPos⟩ := gatherAncestors_walk hgenesis hgrounded hheadPos
                    (Nat.sub_le _ _) hgatherOld
                  -- both walks have come down to the lower of the two heights
                  have hlevel : number - (number - tree.canonicalHead.number)
                      = tree.canonicalHead.number - (tree.canonicalHead.number - number) := by
                    omega
                  rw [← hlevel] at hwalkOld holdPos
                  cases hfork : walkToForkPoint tree.provider
                      (tree.provider.blocksByHash.card + 1) oldHash currentHash with
                  | none => simp [hfork] at h
                  | some walked =>
                      obtain ⟨olds, currents⟩ := walked
                      simp only [hfork, Option.some_inj] at h
                      subst h
                      obtain ⟨fork, forkNumber, hwalkOld', hwalk'⟩ := walkToForkPoint_walk hgenesis
                        hgrounded holdPos hcurrentPos hfork
                      refine ⟨header, fork, forkNumber, hstored, HeadChain.ofWalk_tip header _,
                        hzero, ?_, ?_⟩
                      · simp only [NewCanonicalChain.new, HeadChain.ofWalk, List.reverse_reverse]
                        rw [hnumber]
                        exact .cons hfound hnumber (hwalk.append hwalk')
                      · simp only [NewCanonicalChain.old, List.reverse_reverse]
                        exact hwalkOld.append hwalkOld'

end EngineTree

/-! ## The invariant of the canonical chain -/

/-- The canonical hashes are positions below the head, which is stored. -/
structure Canonical (feed : Feed X) (genesis : Block) (tree : EngineTree X) : Prop where
  grounded : Grounded feed genesis tree.provider
  head : tree.HeadStored
  index : IndexedBy feed.preimage (fun header => header.parentHash) (fun header => header.number)
    tree.provider.canonicalHashesByNumber.get tree.canonicalHead.hash tree.canonicalHead.number
  /-- Every canonical hash is that of a known header with that number. -/
  known : ∀ number hash, tree.provider.canonicalHashesByNumber.get number = some hash →
    ∃ header, feed.preimage hash = some header ∧ header.number = number

namespace Canonical

variable {feed : Feed X} {genesis : Block} {tree tree' : EngineTree X}

/-- A canonical hash is reached from the head, at its own height. -/
theorem reaches (h : Canonical feed genesis tree) {hash : B256}
    (hcanonical : tree.provider.isHashCanonical hash) :
    ∃ header, feed.preimage hash = some header ∧ header.number ≤ tree.canonicalHead.number ∧
      tree.provider.canonicalHashesByNumber.get header.number = some hash ∧
      feed.ChainReaches tree.canonicalHead.hash tree.canonicalHead.number hash header.number := by
  obtain ⟨number, hget⟩ := hcanonical
  obtain ⟨header, hknown, rfl⟩ := h.known number hash hget
  exact ⟨header, hknown, h.index.le_top hget, hget, h.index.below _ _ hget⟩

/-- The number of a stored canonical block is at most the head's. -/
theorem number_le (h : Canonical feed genesis tree) {hash : B256} {block : Block}
    (hstored : tree.provider.blocksByHash.get hash = some block)
    (hcanonical : tree.provider.isHashCanonical hash) :
    block.number ≤ tree.canonicalHead.number := by
  obtain ⟨header, hknown, hle, -, -⟩ := h.reaches hcanonical
  have hheader := h.grounded.preimage_of_sealedHeader
    (ChainState.sealedHeader_eq_some.mpr ⟨block, hstored, rfl⟩)
  rw [hknown] at hheader
  cases hheader
  exact hle

/-- Only provider and head matter. -/
theorem of_same (h : Canonical feed genesis tree) (provider : tree'.provider = tree.provider)
    (head : tree'.canonicalHead = tree.canonicalHead) : Canonical feed genesis tree' where
  grounded := provider ▸ h.grounded
  head := ⟨by rw [provider, head]; exact h.head.stored⟩
  index := by rw [provider, head]; exact h.index
  known := by rw [provider]; exact h.known

private theorem verify (h : Canonical feed genesis tree)
    (grounded : Grounded feed genesis tree'.provider) {block : Block} {proof : X.Proof}
    (hfresh : ¬tree.provider.Contains block.hash)
    (provider : tree'.provider = tree.provider.insertBlock block (some proof))
    (head : tree'.canonicalHead = tree.canonicalHead) : Canonical feed genesis tree' where
  grounded := grounded
  head := by
    obtain ⟨header, hstored, hnumber⟩ := h.head.stored
    refine ⟨header, ?_, by rw [head, hnumber]⟩
    have hne : tree.canonicalHead.hash ≠ block.hash := fun heq =>
      hfresh (heq ▸ ChainState.contains_iff_sealedHeader.mpr ⟨header, hstored⟩)
    rw [provider, head]
    unfold ChainState.sealedHeader
    rw [ChainState.insertBlock_get, if_neg hne]
    exact hstored
  index := by rw [provider, head]; exact h.index
  known := by rw [provider]; exact h.known

/-- The canonical hashes after a chain update. -/
private theorem get_onChainUpdate {provider : ChainState X.Proof} {new old : List SealedHeader}
    {number : ℕ} {hash : B256}
    (hget : (provider.onChainUpdate new old).canonicalHashesByNumber.get number = some hash) :
    (∃ header ∈ new, header.number = number ∧ header.hash = hash) ∨
      (provider.canonicalHashesByNumber.get number = some hash ∧
        ¬∃ header ∈ old, header.number = number ∧ header.hash = hash) := by
  rw [ChainState.onChainUpdate_canonical] at hget
  rcases FiniteMap.get_insertList_cases _ _ hget with hnew | ⟨-, hold⟩
  · exact .inl hnew
  · exact .inr ((FiniteMap.get_withdrawList _ _).mp hold)

/-- Headers met on one walk at one height are the same. -/
private theorem hash_of_number {start reached : B256} {number reachedNumber : ℕ}
    {headers : List SealedHeader}
    (hwalk : feed.ChainWalk start number headers reached reachedNumber)
    {header header' : SealedHeader} (hmem : header ∈ headers) (hmem' : header' ∈ headers)
    (heq : header'.number = header.number) : header'.hash = header.hash := by
  obtain ⟨hash, hknown, -, -, hreach⟩ := hwalk.position_of_mem hmem
  obtain ⟨hash', hknown', -, -, hreach'⟩ := hwalk.position_of_mem hmem'
  rw [heq] at hreach'
  rw [feed.preimage_keyed _ _ hknown, feed.preimage_keyed _ _ hknown']
  exact hreach'.unique hreach

private theorem advance (hgenesis : feed.IsGenesis genesis) (h : Canonical feed genesis tree)
    (grounded : Grounded feed genesis tree'.provider) {target : B256}
    {update : NewCanonicalChain} (found : tree.onNewHead target = some update)
    (provider : tree'.provider = tree.provider.onChainUpdate update.new.headers update.old)
    (head : tree'.canonicalHead = update.tip.numHash) : Canonical feed genesis tree' := by
  obtain ⟨header, fork, forkNumber, hmeets⟩ :=
    EngineTree.onNewHead_spec hgenesis h.grounded h.head found
  have hsame := ChainState.onChainUpdate_sameBlocks tree.provider update.new.headers update.old
  have hhash : header.hash = target := ChainState.hash_of_sealedHeader hmeets.stored
  have hheadEq : tree'.canonicalHead = ⟨header.number, target⟩ := by
    rw [head, hmeets.tip, SealedHeader.numHash, hhash]
  have htip : header ∈ update.new.headers := by
    rw [← hmeets.tip]
    exact List.getLast_mem update.new.nonempty
  have htop : (tree.provider.onChainUpdate update.new.headers
      update.old).canonicalHashesByNumber.get header.number = some target := by
    rw [ChainState.onChainUpdate_canonical, ← hhash]
    refine FiniteMap.get_insertList_of_mem _ _ _ htip fun header' hmem' heq => ?_
    exact hash_of_number hmeets.new (List.mem_reverse.mpr htip) (List.mem_reverse.mpr hmem') heq
  exact
    { grounded := grounded
      head := by
        refine ⟨header, ?_, by rw [hheadEq]⟩
        rw [provider, hheadEq]
        unfold ChainState.sealedHeader
        rw [hsame.blocksByHash]
        exact hmeets.stored
      index := by
        rw [provider, hheadEq]
        refine h.index.switch (fun hash header => feed.preimage_keyed hash header) hmeets.new
          hmeets.old htop fun number hash hget => ?_
        simpa only [List.mem_reverse] using get_onChainUpdate hget
      known := by
        rw [provider]
        intro number hash hget
        rcases get_onChainUpdate hget with ⟨header', hmem, rfl, rfl⟩ | ⟨hold, -⟩
        · obtain ⟨hash, hknown, -⟩ := hmeets.new.position_of_mem (List.mem_reverse.mpr hmem)
          refine ⟨header', ?_, rfl⟩
          rwa [feed.preimage_keyed _ _ hknown]
        · exact h.known number hash hold }

private theorem prune (h : Canonical feed genesis tree)
    (grounded : Grounded feed genesis tree'.provider) {finalizedHash : B256} {finalized : Block}
    (stored : tree.provider.blocksByHash.get finalizedHash = some finalized)
    (canonical : tree.provider.isHashCanonical finalizedHash)
    (provider : tree'.provider = tree.provider.removeBlocksOnFinalized finalizedHash)
    (head : tree'.canonicalHead = tree.canonicalHead) : Canonical feed genesis tree' := by
  have hle := h.number_le stored canonical
  have hcanon := ChainState.removeBlocksOnFinalized_canonical stored
  exact
    { grounded := grounded
      head := by
        obtain ⟨header, hstored, hnumber⟩ := h.head.stored
        obtain ⟨block, hget, rfl⟩ := ChainState.sealedHeader_eq_some.mp hstored
        refine ⟨block.toSealedHeader, ?_, by rw [head, hnumber]⟩
        rw [provider, head]
        refine ChainState.sealedHeader_eq_some.mpr ⟨block, ?_, rfl⟩
        exact (ChainState.removeBlocksOnFinalized_get h.grounded.indexed stored).mpr
          ⟨hget, by omega⟩
      index := by
        rw [provider, head]
        refine h.index.restrict (fun number hash hget => ?_) ?_
        · rw [hcanon] at hget
          split at hget
          · cases hget
          · exact hget
        · rw [hcanon, if_neg (by omega)]
      known := by
        rw [provider]
        intro number hash hget
        rw [hcanon] at hget
        split at hget
        · cases hget
        · exact h.known number hash hget }

/-- **Every small step keeps the canonical chain**, when verified blocks are
numbered one above their parents. -/
theorem step (hgenesis : feed.IsGenesis genesis) (hverifies : X.VerifiesNumber)
    {mark : Option Mark} (step : TreeStep feed tree tree' mark) (h : Canonical feed genesis tree) :
    Canonical feed genesis tree' := by
  have hgrounded := h.grounded.step hverifies step
  match step with
  | .quiet provider head _ => exact h.of_same provider head
  | .condemn _ _ _ provider head _ => exact h.of_same provider head
  | .inherit _ _ _ provider head _ => exact h.of_same provider head
  | .verify _ _ fresh _ _ _ provider head _ => exact h.verify hgrounded fresh provider head
  | .advance found provider head _ => exact h.advance hgenesis hgrounded found provider head
  | .prune _ stored canonical provider head _ =>
      exact h.prune hgrounded stored canonical provider head

end Canonical

/-! ## Finalized downloads -/

/-- Each header is the parent of the one before it, one below it. -/
inductive HashLinked : SealedHeader → List SealedHeader → Prop
  | last (header : SealedHeader) : HashLinked header []
  | cons {header parent : SealedHeader} {ancestors : List SealedHeader}
      (hash : header.parentHash = parent.hash) (number : header.number = parent.number + 1)
      (rest : HashLinked parent ancestors) : HashLinked header (parent :: ancestors)

theorem hashLinked_cons {header parent : SealedHeader} {ancestors : List SealedHeader} :
    HashLinked header (parent :: ancestors) ↔ header.parentHash = parent.hash ∧
      header.number = parent.number + 1 ∧ HashLinked parent ancestors := by
  constructor
  · rintro ⟨⟩
    next hash number rest => exact ⟨hash, number, rest⟩
  · rintro ⟨hash, number, rest⟩
    exact .cons hash number rest

instance HashLinked.decidable :
    ∀ (header : SealedHeader) (ancestors : List SealedHeader),
      Decidable (HashLinked header ancestors)
  | _, [] => isTrue (.last _)
  | _, parent :: ancestors =>
      have : Decidable (HashLinked parent ancestors) := decidable parent ancestors
      decidable_of_iff _ hashLinked_cons.symm

/-- Finalized blocks come with a hash-linked list of ancestors, not empty. -/
def Feed.Linked (feed : Feed X) : Prop :=
  ∀ pair ∈ feed.finalized, pair.2 ≠ [] ∧ HashLinked pair.1.toSealedHeader pair.2

/-- **A finalized download in order**: every canonical hash that it does not
overwrite is an ancestor of the finalized block, at its own height. -/
def InOrder (feed : Feed X) (tree : EngineTree X) (block : Block)
    (ancestors : List SealedHeader) : Prop :=
  ∀ number hash, tree.provider.canonicalHashesByNumber.get number = some hash →
    (∃ header ∈ block.toSealedHeader :: ancestors, header.number = number) ∨
      feed.ChainReaches block.hash block.number hash number

namespace HashLinked

variable {feed : Feed X} {header : SealedHeader} {ancestors : List SealedHeader}

/-- Linked headers are positions below the first. -/
theorem reaches (h : HashLinked header ancestors) (hconf : header.Conforms feed.preimage)
    (hconfs : ∀ ancestor ∈ ancestors, ancestor.Conforms feed.preimage) :
    ∀ ancestor ∈ header :: ancestors,
      feed.ChainReaches header.hash header.number ancestor.hash ancestor.number := by
  induction h with
  | last header =>
      intro ancestor hmem
      rw [List.mem_singleton.mp hmem]
      exact .refl _ _
  | @cons header parent ancestors hash number rest ih =>
      intro ancestor hmem
      rcases List.mem_cons.mp hmem with rfl | hmem
      · exact .refl _ _
      · have hbelow := ih (hconfs parent List.mem_cons_self)
          (fun ancestor hmem => hconfs ancestor (List.mem_cons_of_mem _ hmem)) ancestor hmem
        obtain ⟨headers, hwalk⟩ := hbelow
        rw [number]
        rw [← hash] at hwalk
        exact ⟨header :: headers, .cons hconf number hwalk⟩

/-- Linked headers have every number, down to the length of the list below the first. -/
theorem exists_mem_of_number (h : HashLinked header ancestors) {number : ℕ}
    (hlow : header.number ≤ number + ancestors.length) (hhigh : number ≤ header.number) :
    ∃ ancestor ∈ header :: ancestors, ancestor.number = number := by
  induction h with
  | last header => exact ⟨header, List.mem_cons_self, Nat.le_antisymm hlow hhigh⟩
  | @cons header parent ancestors _ hnumber _ ih =>
      by_cases htop : number = header.number
      · exact ⟨header, List.mem_cons_self, htop.symm⟩
      · rw [List.length_cons] at hlow
        obtain ⟨ancestor, hmem, heq⟩ := ih (by omega) (by omega)
        exact ⟨ancestor, List.mem_cons_of_mem _ hmem, heq⟩

end HashLinked

/-- A finalized download comes with the parent of its block. -/
theorem Grounded.insertFinalized {feed : Feed X} {genesis : Block} {tree : EngineTree X}
    (h : Grounded feed genesis tree.provider) (hlinked : feed.Linked) {block : Block}
    {ancestors : List SealedHeader} (hfed : (block, ancestors) ∈ feed.finalized) :
    Grounded feed genesis (ConsensusEngine.insertFinalized tree block ancestors).provider := by
  obtain ⟨hnonempty, hchain⟩ := hlinked _ hfed
  have hparent : ∃ parent, feed.preimage block.parentHash = some parent ∧
      block.number = parent.number + 1 := by
    cases hchain with
    | last => exact absurd rfl hnonempty
    | @cons _ parent ancestors hash number rest =>
        refine ⟨parent, ?_, number⟩
        have hconf := feed.ancestors_conform _ hfed parent List.mem_cons_self
        rwa [SealedHeader.Conforms, ← hash] at hconf
  exact (h.insertBlock (feed.finalized_conform _ hfed) hparent).of_sameBlocks
    (insertFinalized_sameBlocks tree block ancestors)

namespace Canonical

variable {feed : Feed X} {genesis : Block} {tree : EngineTree X}

/-- **A finalized download in order keeps the canonical chain.** -/
theorem insertFinalized (h : Canonical feed genesis tree) (hlinked : feed.Linked) {block : Block}
    {ancestors : List SealedHeader} (hfed : (block, ancestors) ∈ feed.finalized)
    (horder : InOrder feed tree block ancestors) :
    Canonical feed genesis (ConsensusEngine.insertFinalized tree block ancestors) := by
  obtain ⟨-, hchain⟩ := hlinked _ hfed
  have hconf := feed.finalized_conform _ hfed
  have hconfs := feed.ancestors_conform _ hfed
  have hreaches := hchain.reaches hconf hconfs
  have hconfAll : ∀ header ∈ block.toSealedHeader :: ancestors, header.Conforms feed.preimage := by
    intro header hmem
    rcases List.mem_cons.mp hmem with rfl | hmem
    · exact hconf
    · exact hconfs header hmem
  exact
    { grounded := h.grounded.insertFinalized hlinked hfed
      head := by
        refine ⟨block.toSealedHeader, ChainState.sealedHeader_eq_some.mpr ⟨block, ?_, rfl⟩, rfl⟩
        rw [insertFinalized_get]
        exact if_pos rfl
      index := by
        constructor
        · rw [insertFinalized_canonical]
          have hmem : block.toSealedHeader ∈ block.toSealedHeader :: ancestors := List.mem_cons_self
          refine FiniteMap.get_insertList_of_mem (fun header : SealedHeader => header.number)
            (fun header => header.hash) _ hmem fun header hmem heq => ?_
          have hreach := hreaches header hmem
          rw [heq] at hreach
          exact hreach.unique (.refl _ _)
        · rw [insertFinalized_canonical]
          intro number hash hget
          rcases FiniteMap.get_insertList_cases _ _ hget with
            ⟨header, hmem, rfl, rfl⟩ | ⟨hnone, hold⟩
          · exact hreaches header hmem
          · rcases horder number hash hold with ⟨header, hmem, hnumber⟩ | hreach
            · exact absurd hnumber (hnone header hmem)
            · exact hreach
      known := by
        rw [insertFinalized_canonical]
        intro number hash hget
        rcases FiniteMap.get_insertList_cases _ _ hget with ⟨header, hmem, rfl, rfl⟩ | ⟨-, hold⟩
        · exact ⟨header, hconfAll header hmem, rfl⟩
        · exact h.known number hash hold }

/-- A download in order is of a block that is not below the canonical head. -/
theorem head_le_of_inOrder (h : Canonical feed genesis tree) {block : Block}
    {ancestors : List SealedHeader}
    (hreaches : ∀ header ∈ block.toSealedHeader :: ancestors,
      feed.ChainReaches block.hash block.number header.hash header.number)
    (horder : InOrder feed tree block ancestors) : tree.canonicalHead.number ≤ block.number := by
  rcases horder _ _ h.index.top with ⟨header, hmem, hnumber⟩ | hreach
  · exact hnumber ▸ (hreaches header hmem).le
  · exact hreach.le

/-- The launched node has its canonical chain. -/
theorem launch (hgenesis : feed.IsGenesis genesis) :
    Canonical feed genesis (ConsensusEngine.launch X genesis).tree := by
  have hcanon : ∀ number,
      (ConsensusEngine.launch X genesis).tree.provider.canonicalHashesByNumber.get number
        = if number = 0 then some genesis.hash else none := by
    intro number
    exact FiniteMap.get_insert ∅ 0 number genesis.hash
  exact
    { grounded := .launch hgenesis
      head := ⟨genesis.toSealedHeader, ChainState.sealedHeader_eq_some.mpr
        ⟨genesis, (launch_get genesis _).trans (if_pos rfl), rfl⟩, rfl⟩
      index := by
        constructor
        · exact (hcanon _).trans (if_pos hgenesis.number)
        · intro number hash hnumber
          rw [hcanon] at hnumber
          split at hnumber
          · next hzero =>
              cases hnumber
              rw [hzero, ← hgenesis.number]
              exact .refl _ _
          · cases hnumber
      known := by
        intro number hash hnumber
        rw [hcanon] at hnumber
        split at hnumber
        · next hzero =>
            cases hnumber
            exact ⟨genesis.toSealedHeader, hgenesis.conforms, hgenesis.number.trans hzero.symm⟩
        · cases hnumber }

end Canonical

/-! ## Ordered runs -/

open ConsensusEngine

/-- Finalized downloads arrive in order. -/
def DeliveredInOrder (feed : Feed X) (engine : ConsensusEngine X) : Processed X.Proof → Prop
  | .outcome (.finalizedBlock block ancestors) => InOrder feed engine.tree block ancestors
  | _ => True

/-- Runs with deliveries of the feed, their finalized downloads in order. -/
abbrev OrderedRun (feed : Feed X) : ConsensusEngine X → List (Processed X.Proof) →
    ConsensusEngine X → Prop :=
  Run fun engine event => feed.Provides event ∧ DeliveredInOrder feed engine event

/-- **The invariant of ordered runs.** -/
theorem OrderedRun.canonical {feed : Feed X} {genesis : Block} (hgenesis : feed.IsGenesis genesis)
    (hlinked : feed.Linked) (hverifies : X.VerifiesNumber) {trace : List (Processed X.Proof)}
    {engine : ConsensusEngine X} (run : OrderedRun feed (launch X genesis) trace engine) :
    Canonical feed genesis engine.tree ∧ FedBy feed engine.tree.blockBuffer := by
  refine Run.preserves (fun _ _ met => met.1)
    (fun _ _ _ step h => h.step hgenesis hverifies step) (fun engine block ancestors met h => ?_)
    run (.new feed) (.launch hgenesis)
  exact h.insertFinalized hlinked met.1 met.2

end ZkRess
