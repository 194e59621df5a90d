import ZkRess.Network.ProofProtocol
import ZkRess.Properties.AncestorLookups
import ZkRess.Verifier.ExecutionWitness
import ZkRess.Verifier.SmallTries

/-!
# A verified proof is verified anywhere

Whether a node accepts a block with a proof depends on the node: the execution reads block
hashes from its provider.  But it reads nothing else of it, and what providers answer are the
ancestors of the block (`LooksUpAncestors`), the same everywhere.  So a proof that one node has
stored, which means that it verified a block with it, is accepted for this block by every other
node, or runs into an ancestor that the other node does not find.  In the second case the error
is an internal one, so that the block is not called invalid.
-/

namespace ZkRess

open Foundation ConsensusEngine

namespace VerifierExternals

variable {X : VerifierExternals} {P : Type}

/-! ## One block, two providers -/

/-- Lookups of the same ancestors are compatible. -/
theorem compatible_of_looksUp {preimage : Preimage} {provider provider' : ChainState P}
    {parent : BlockNumHash} (hright : LooksUpFrom preimage provider parent)
    (hright' : LooksUpFrom preimage provider' parent) (trie : X.StateTrie)
    (bytecodes : FiniteMap B256 X.Bytecode) :
    Query.Compatible
      (WitnessDatabase.answer (X := X.toEvmExternals) ⟨provider, parent, trie, bytecodes⟩)
      (WitnessDatabase.answer (X := X.toEvmExternals) ⟨provider', parent, trie, bytecodes⟩) := by
  intro query a a' ha ha'
  cases query with
  | basic address => exact Except.ok.inj (ha'.symm.trans ha)
  | storage address slot => exact Except.ok.inj (ha'.symm.trans ha)
  | codeByHash codeHash => exact Except.ok.inj (ha'.symm.trans ha)
  | blockHash number =>
      have hfound : ∀ {cs : ChainState P} {hash : B256},
          WitnessDatabase.blockHash (X := X.toEvmExternals) ⟨cs, parent, trie, bytecodes⟩ number
            = .ok hash → cs.blockHash parent number = some hash := by
        intro cs hash hok
        unfold WitnessDatabase.blockHash at hok
        split at hok
        · next hget =>
            cases hok
            exact hget
        · cases hok
      exact (hright' number a' (hfound ha')).unique (hright number a (hfound ha))

/-- The execution of an accepted block, with another provider, ends as before or at an
ancestor that is not found. -/
theorem execute_elsewhere {preimage : Preimage} {provider provider' : ChainState P}
    {parent : BlockNumHash} (hright : LooksUpFrom preimage provider parent)
    (hright' : LooksUpFrom preimage provider' parent) {trie : X.StateTrie}
    {bytecodes : FiniteMap B256 X.Bytecode} {block : Block} {output : X.BlockExecutionOutput}
    (hok : X.execute provider parent trie bytecodes block = .ok output) :
    X.execute provider' parent trie bytecodes block = .ok output ∨
      ∃ number ancestor, provider.blockHash parent number = some ancestor ∧
        provider'.blockHash parent number = none ∧
        X.execute provider' parent trie bytecodes block
          = .error (.internal (.stateForNumberNotFound number)) := by
  unfold execute executeWith at hok ⊢
  split at hok
  · cases hok
  · next result hrun =>
    subst hok
    rcases Query.run_of_compatible (compatible_of_looksUp hright hright' trie bytecodes) hrun with
      hsame | ⟨query, a, error, ha, hfails, herror⟩
    · left
      rw [hsame]
    · right
      rw [herror]
      cases query with
      | basic address => cases ha.symm.trans hfails
      | storage address slot => cases ha.symm.trans hfails
      | codeByHash codeHash => cases ha.symm.trans hfails
      | blockHash number =>
          replace ha : WitnessDatabase.blockHash _ number = .ok a := ha
          replace hfails : WitnessDatabase.blockHash _ number = .error error := hfails
          unfold WitnessDatabase.blockHash at ha hfails
          split at ha
          · next hash hget =>
              split at hfails
              · cases hfails
              · next hnone =>
                  cases hfails
                  exact ⟨number, hash, hget, hnone, rfl⟩
          · cases ha

/-- **Accepted unless an ancestor is not found**: the verifier accepts, or it stops with an
internal error at an ancestor of the parent that the provider does not find. -/
def AcceptsUnlessUnknown (X : VerifierExternals)
    (schedule : List X.StorageResult → List X.StorageResult) (preimage : Preimage)
    (provider : ChainState P) (block : Block) (parent : SealedHeader)
    (proof : ExecutionStateWitness) : Prop :=
  X.verify schedule provider block parent proof = .ok () ∨
    ∃ number ancestor, Reaches preimage (fun header => header.parentHash)
        (fun header => header.number) parent.hash parent.number ancestor number ∧
      provider.blockHash parent.numHash number = none ∧
      X.verify schedule provider block parent proof
        = .error (.execution (.internal (.stateForNumberNotFound number)))

/-- **Checked**: a provider that finds ancestors only has let the verifier accept the block
with this proof. -/
def CheckedProof (X : VerifierExternals)
    (schedule : List X.StorageResult → List X.StorageResult) (preimage : Preimage)
    (block : Block) (proof : ExecutionStateWitness) : Prop :=
  ∃ (provider : ChainState ExecutionStateWitness) (parent : SealedHeader),
    preimage block.parentHash = some parent ∧ parent.hash = block.parentHash ∧
      LooksUpFrom preimage provider parent.numHash ∧
      X.verify schedule provider block parent proof = .ok ()

/-- **A checked proof is accepted elsewhere**, unless an ancestor is not found. -/
theorem CheckedProof.acceptsUnlessUnknown
    {schedule : List X.StorageResult → List X.StorageResult} {preimage : Preimage} {block : Block}
    {proof : ExecutionStateWitness} (h : CheckedProof X schedule preimage block proof)
    (hnumbers : ∀ header parent, X.validateHeaderAgainstParent header parent = .ok () →
      header.number = parent.number + 1) {provider : ChainState ExecutionStateWitness}
    {parent : SealedHeader} (hparent : preimage block.parentHash = some parent)
    (hright : LooksUpFrom preimage provider parent.numHash) :
    AcceptsUnlessUnknown X schedule preimage provider block parent proof := by
  obtain ⟨provider₀, parent₀, hparent₀, hhash, hright₀, hok⟩ := h
  obtain rfl : parent₀ = parent := Option.some.inj (hparent₀.symm.trans hparent)
  have hposition : block.parentNumHash = parent₀.numHash := by
    have hnumber := hnumbers _ _ (verify_ok hok).1
    show (⟨block.number - 1, block.parentHash⟩ : BlockNumHash) = ⟨parent₀.number, parent₀.hash⟩
    rw [hnumber, hhash]
    rfl
  obtain ⟨trie, output, hexecute, helsewhere⟩ := verify_stages hok
  rw [hposition] at hexecute helsewhere
  rcases execute_elsewhere hright₀ hright hexecute with hsame | ⟨number, ancestor, hfound, hnone,
    herror⟩
  · exact .inl ((helsewhere provider).1 hsame)
  · exact .inr ⟨number, ancestor, hright₀ number ancestor hfound, hnone,
      (helsewhere provider).2 _ herror⟩

/-! ## The proofs of a run -/

section Runs

variable {engine : Externals} {schedule : List X.StorageResult → List X.StorageResult}
  {feed : Feed (engine.withExecutionWitnesses X schedule)} {genesis : Block}

/-- A tree whose stored proofs are checked. -/
private structure StoresChecked (feed : Feed (engine.withExecutionWitnesses X schedule))
    (genesis : Block) (tree : EngineTree (engine.withExecutionWitnesses X schedule)) : Prop where
  canonical : Canonical feed genesis tree
  checked : ∀ hash proof, tree.provider.proofs.get hash = some proof → ∃ block, block.hash = hash ∧
    block ∈ feed.blocks ∧ CheckedProof X schedule feed.preimage block proof

private theorem StoresChecked.step (hgenesis : feed.IsGenesis genesis)
    (hverifies : (engine.withExecutionWitnesses X schedule).VerifiesNumber)
    {tree tree' : EngineTree (engine.withExecutionWitnesses X schedule)} {mark : Option Mark}
    (step : TreeStep feed tree tree' mark) (h : StoresChecked feed genesis tree) :
    StoresChecked feed genesis tree' where
  canonical := h.canonical.step hgenesis hverifies step
  checked hash proof hget := by
    cases step with
    | quiet provider => exact h.checked hash proof (provider ▸ hget)
    | condemn _ _ _ provider => exact h.checked hash proof (provider ▸ hget)
    | inherit _ _ _ provider => exact h.checked hash proof (provider ▸ hget)
    | @verify block parent proof' fed _ _ _ connected passed provider =>
        rw [provider] at hget
        replace hget : (tree.provider.proofs.insert block.hash proof').get hash = some proof := hget
        rw [FiniteMap.get_insert] at hget
        split at hget
        · next heq =>
            cases hget
            have hhash := ChainState.hash_of_sealedHeader connected
            exact ⟨block, heq.symm, fed, tree.provider, parent,
              h.canonical.grounded.preimage_of_sealedHeader connected, hhash,
              h.canonical.looksUpAncestors hgenesis _ _ connected, passed⟩
        · exact h.checked hash proof hget
    | advance _ provider =>
        rw [provider, (ChainState.onChainUpdate_sameBlocks _ _ _).proofs] at hget
        exact h.checked hash proof hget
    | prune _ stored _ provider =>
        rw [provider, ChainState.removeBlocksOnFinalized_proofs h.canonical.grounded.indexed stored]
          at hget
        exact h.checked hash proof hget.1

/-- **Proofs stored in an ordered run are checked.** -/
theorem checkedProofs_of_orderedRun (hgenesis : feed.IsGenesis genesis) (hlinked : feed.Linked)
    (hverifies : (engine.withExecutionWitnesses X schedule).VerifiesNumber)
    {trace : List (Processed ExecutionStateWitness)}
    {engine' : ConsensusEngine (engine.withExecutionWitnesses X schedule)}
    (run : OrderedRun feed (launch _ genesis) trace engine') :
    ∀ hash proof, engine'.tree.provider.proof hash = some proof → ∃ block, block.hash = hash ∧
      block ∈ feed.blocks ∧ CheckedProof X schedule feed.preimage block proof := by
  have hstart : StoresChecked feed genesis (launch _ genesis).tree := by
    refine ⟨.launch hgenesis, fun hash proof hget => ?_⟩
    replace hget : (∅ : FiniteMap B256 ExecutionStateWitness).get hash = some proof := hget
    rw [FiniteMap.get_empty] at hget
    cases hget
  refine (@Run.preserves _ feed _ (StoresChecked feed genesis) (fun _ _ met => met.1)
    (fun _ _ _ step h => h.step hgenesis hverifies step) (fun _ block ancestors met h => ?_) _ _ _
    run (.new feed) hstart).1.checked
  refine ⟨h.canonical.insertFinalized hlinked met.1 met.2, fun hash proof hget => ?_⟩
  rw [(insertFinalized_sameBlocks _ block ancestors).proofs] at hget
  exact h.checked hash proof hget

end Runs

end VerifierExternals

end ZkRess
