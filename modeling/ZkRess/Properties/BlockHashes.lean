import ZkRess.Engine.SmallWorld

/-!
# Block-hash lookups survive pruning

Executing a block asks for the hashes of its recent ancestors.  The chain state
answers from the stored blocks and from the canonical hashes; finalization cuts
the first at the finalized block and the second 256 numbers below it.  The two
cuts never leave a gap: above the finalized block, every lookup down to 256 below
it finds the ancestor, before and after the cut.
-/

namespace ZkRess

open Foundation

variable {P : Type}

namespace ChainState

/-- Lookups from the block find its ancestors, down to the lowest number. -/
structure ReadsAncestors (preimage : Preimage) (cs : ChainState P) (block : Block)
    (lowest : ℕ) : Prop where
  /-- The answer is the one ancestor, or the block itself, at that number. -/
  found : ∀ number, lowest ≤ number → number ≤ block.number →
    ∃ hash, AncestorAt preimage block number hash ∧
      (∀ other, AncestorAt preimage block number other → other = hash) ∧
      cs.blockHash ⟨block.number, block.hash⟩ number = some hash
  /-- There is none above the block. -/
  above : ∀ number, block.number < number →
    cs.blockHash ⟨block.number, block.hash⟩ number = none
  /-- What a child of the block may ask for, its 256 last ancestors, is found. -/
  recent : ∀ number, block.number < number + 256 → number ≤ block.number →
    ∃ hash, AncestorAt preimage block number hash ∧
      cs.blockHash ⟨block.number, block.hash⟩ number = some hash

theorem Window.readsAncestors {preimage : Preimage} {cs : ChainState P} {top bottom : Block}
    (h : Window preimage cs top bottom) : ReadsAncestors preimage cs top (bottom.number - 256) where
  found number hlow hhigh := by
    obtain ⟨hash, hreach, hanswer⟩ := h.blockHash hlow hhigh
    exact ⟨hash, hreach, fun other hother => hother.unique hreach, hanswer⟩
  above number hlt := blockHash_of_above h.numbersStep h.topStored hlt
  recent number hrecent hhigh := by
    have hle := h.connected.le
    exact h.blockHash (by omega) hhigh

/-- **Lookups are right, and survive pruning**: for a canonical block whose
ancestors are canonical 256 numbers down, and a block connected to it by stored
blocks. -/
theorem readsAncestors_of_ops {preimage : Preimage} {ops : List (ChainOp P)}
    (hops : ∀ op ∈ ops, op.Conforms preimage)
    (hnumbers : (empty.applyAll ops).NumbersStep) {finalized block : Block}
    (hfinalized : (empty.applyAll ops).blocksByHash.get finalized.hash = some finalized)
    (hblock : (empty.applyAll ops).blocksByHash.get block.hash = some block)
    (hconnected : (empty.applyAll ops).StoredReaches block.hash block.number finalized.hash
      finalized.number)
    (hcanonical : ∀ number, finalized.number - 256 ≤ number → number ≤ finalized.number →
      ∃ hash, AncestorAt preimage finalized number hash ∧
        (empty.applyAll ops).canonicalHashesByNumber.get number = some hash) :
    ReadsAncestors preimage (empty.applyAll ops) block (finalized.number - 256) ∧
      ReadsAncestors preimage ((empty.applyAll ops).removeBlocksOnFinalized finalized.hash) block
        (finalized.number - 256) := by
  have hwindow : Window preimage (empty.applyAll ops) block finalized :=
    ⟨Sound.empty.applyAll hops, hblock, hfinalized, hconnected, hnumbers, hcanonical⟩
  exact ⟨hwindow.readsAncestors, hwindow.prune.readsAncestors⟩

end ChainState

namespace SmallWorld

/-- The chain of four blocks; all but the last are canonical. -/
def straightChain : List (ChainOp Bool) :=
  [.insertBlock (block 1 0 0) none, .insertBlock (block 2 1 1) (some true),
    .insertBlock (block 3 2 2) (some true), .insertBlock (block 4 3 3) (some true),
    .insertCanonicalHash 0 1, .insertCanonicalHash 1 2, .insertCanonicalHash 2 3]

/-- With block 3 finalized, lookups from block 4 find all its ancestors. -/
theorem readsAncestors_of_straightChain :
    ChainState.ReadsAncestors forkFeed.preimage
        ((ChainState.empty.applyAll straightChain).removeBlocksOnFinalized 3) (block 4 3 3) 0 := by
  have hops : ∀ op ∈ straightChain, op.Conforms forkFeed.preimage := by
    intro op hmem
    simp only [straightChain, List.mem_cons, List.not_mem_nil, or_false] at hmem
    rcases hmem with rfl | rfl | rfl | rfl | rfl | rfl | rfl
    · show (block 1 0 0).toSealedHeader.Conforms forkFeed.preimage
      decide +kernel
    · show (block 2 1 1).toSealedHeader.Conforms forkFeed.preimage
      decide +kernel
    · show (block 3 2 2).toSealedHeader.Conforms forkFeed.preimage
      decide +kernel
    · show (block 4 3 3).toSealedHeader.Conforms forkFeed.preimage
      decide +kernel
    all_goals trivial
  have hthird : forkFeed.preimage 3 = some (header 3 2 2) := by decide +kernel
  have hsecond : forkFeed.preimage 2 = some (header 2 1 1) := by decide +kernel
  have hcanonical : ∀ number, (block 3 2 2).number - 256 ≤ number → number ≤ (block 3 2 2).number →
      ∃ hash, ChainState.AncestorAt forkFeed.preimage (block 3 2 2) number hash ∧
        (ChainState.empty.applyAll straightChain).canonicalHashesByNumber.get number
          = some hash := by
    intro number _ hle
    obtain rfl | rfl | rfl : number = 0 ∨ number = 1 ∨ number = 2 := by
      have : (block 3 2 2).number = 2 := rfl
      omega
    · exact ⟨1, ⟨_, .cons hthird rfl (.cons hsecond rfl (.nil _ _))⟩, by decide +kernel⟩
    · exact ⟨2, ⟨_, .cons hthird rfl (.nil _ _)⟩, by decide +kernel⟩
    · exact ⟨3, .refl _ _, by decide +kernel⟩
  have hfourth :
      (ChainState.empty.applyAll straightChain).sealedHeader 4 = some (header 4 3 3) := by
    decide +kernel
  have hbelow : (ChainState.empty.applyAll straightChain).StoredReaches (block 4 3 3).hash
      (block 4 3 3).number (block 3 2 2).hash (block 3 2 2).number :=
    ⟨_, .cons hfourth rfl (.nil _ _)⟩
  have hboth : ChainState.ReadsAncestors forkFeed.preimage (ChainState.empty.applyAll straightChain)
        (block 4 3 3) ((block 3 2 2).number - 256) ∧
      ChainState.ReadsAncestors forkFeed.preimage
        ((ChainState.empty.applyAll straightChain).removeBlocksOnFinalized (block 3 2 2).hash)
        (block 4 3 3) ((block 3 2 2).number - 256) :=
    ChainState.readsAncestors_of_ops hops
      (fork_numbersStep (ChainState.Sound.empty.applyAll hops)) (by decide +kernel)
      (by decide +kernel) hbelow hcanonical
  exact hboth.2

end SmallWorld

end ZkRess
