import ZkRess.Engine.SmallWorld

/-!
# The indexes of the chain state, and pruning

Four maps are edited by hand in every operation of the chain state.  After any
sequence of operations from the empty state they still fit (`IndexesFit`), and
because they fit the two loops of pruning, which only look at the ordered maps,
cut off exactly what lies below their bounds (`PrunedAt`).
-/

namespace ZkRess

open Foundation

variable {P : Type}

namespace ChainState

/-- What pruning at a finalized block leaves. -/
structure PrunedAt (finalized : Block) (cs cs' : ChainState P) : Prop where
  /-- The finalized block and everything numbered at least like it, of all forks. -/
  blocks : ∀ hash block, cs'.blocksByHash.get hash = some block ↔
    cs.blocksByHash.get hash = some block ∧ finalized.number ≤ block.number
  kept : cs'.blocksByHash.get finalized.hash = some finalized
  /-- The proofs of these blocks. -/
  proofs : ∀ hash proof, cs'.proofs.get hash = some proof ↔
    cs.proofs.get hash = some proof ∧ cs'.Contains hash
  /-- The canonical hashes of the last 256 heights before it, and above. -/
  canonical : ∀ number hash, cs'.canonicalHashesByNumber.get number = some hash ↔
    cs.canonicalHashesByNumber.get number = some hash ∧ finalized.number - 256 ≤ number

/-- The maps fit, and pruning is exact. -/
structure IndexesFit (cs : ChainState P) : Prop where
  /-- A hash is listed under a number if and only if its block is stored and has
  this number. -/
  indexed : ∀ number hash, hash ∈ SetMap.members cs.blockHashesByNumber number ↔
    ∃ block, cs.blocksByHash.get hash = some block ∧ block.number = number
  proofsStored : ∀ hash proof, cs.proofs.get hash = some proof → cs.Contains hash
  /-- Nothing is pruned at a block that is not stored. -/
  unchanged : ∀ hash, ¬cs.Contains hash → cs.removeBlocksOnFinalized hash = cs
  pruned : ∀ hash finalized, cs.blocksByHash.get hash = some finalized →
    PrunedAt finalized cs (cs.removeBlocksOnFinalized hash)

/-- Pruning is exact when the index by number is, and proofs are kept of stored
blocks. -/
theorem Indexed.prunedAt {cs : ChainState P} (h : cs.Indexed) (hproofs : cs.ProofsStored)
    {hash : B256} {finalized : Block} (hfin : cs.blocksByHash.get hash = some finalized) :
    PrunedAt finalized cs (cs.removeBlocksOnFinalized hash) where
  blocks _ _ := removeBlocksOnFinalized_get h hfin
  kept := by
    rw [hash_of_get hfin]
    exact (removeBlocksOnFinalized_get h hfin).mpr ⟨hfin, le_rfl⟩
  proofs hash' proof := by
    rw [removeBlocksOnFinalized_proofs h hfin]
    apply and_congr_right
    intro hproof
    constructor
    · intro hkept
      obtain ⟨block, hblock⟩ := hproofs hash' proof hproof
      exact ⟨block, (removeBlocksOnFinalized_get h hfin).mpr ⟨hblock, hkept block hblock⟩⟩
    · rintro ⟨block, hblock⟩ block' hblock'
      obtain ⟨hstored, hle⟩ := (removeBlocksOnFinalized_get h hfin).mp hblock
      cases hstored.symm.trans hblock'
      exact hle
  canonical number hash' := by
    rw [removeBlocksOnFinalized_canonical hfin]
    by_cases hlt : number < finalized.number - 256
    · rw [if_pos hlt]
      exact ⟨nofun, fun hand => absurd hlt (Nat.not_lt_of_le hand.2)⟩
    · rw [if_neg hlt]
      exact (and_iff_left (Nat.le_of_not_lt hlt)).symm

/-- **The indexes fit** after every sequence of operations. -/
theorem indexesFit_of_ops {preimage : Preimage} {ops : List (ChainOp P)}
    (hops : ∀ op ∈ ops, op.Conforms preimage) : (empty.applyAll ops).IndexesFit := by
  have hsound : (empty.applyAll ops : ChainState P).Sound preimage := Sound.empty.applyAll hops
  have hstart : (empty : ChainState P).ProofsStored := by
    intro hash proof hget
    cases (FiniteMap.get_empty hash).symm.trans hget
  have hproofs := hstart.applyAll Sound.empty hops
  exact
    { indexed := hsound.indexed
      proofsStored := hproofs
      unchanged := fun hash hfresh => removeBlocksOnFinalized_of_none (not_contains_iff.mp hfresh)
      pruned := fun hash finalized hfin => hsound.indexed.prunedAt hproofs hfin }

end ChainState

namespace SmallWorld

/-- Two branches, one of them canonical, cut at the fork. -/
def cutFork : List (ChainOp Bool) :=
  [.insertBlock (block 1 0 0) none, .insertBlock (block 2 1 1) (some true),
    .insertBlock (block 5 1 1) (some true), .insertCanonicalHash 1 2,
    .removeBlocksOnFinalized 2, .insertBlock (block 3 2 2) (some true)]

theorem indexesFit_of_cutFork : (ChainState.empty.applyAll cutFork).IndexesFit := by
  have hops : ∀ op ∈ cutFork, op.Conforms forkFeed.preimage := by
    intro op hmem
    have hheader : ∀ header ∈ forkHeaders, header.Conforms forkFeed.preimage := by decide +kernel
    simp only [cutFork, List.mem_cons, List.not_mem_nil, or_false] at hmem
    rcases hmem with rfl | rfl | rfl | rfl | rfl | rfl
    · exact hheader (header 1 0 0) (by decide)
    · exact hheader (header 2 1 1) (by decide)
    · exact hheader (header 5 1 1) (by decide)
    · trivial
    · trivial
    · exact hheader (header 3 2 2) (by decide)
  exact ChainState.indexesFit_of_ops hops

end SmallWorld

end ZkRess
