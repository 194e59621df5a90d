import ZkRess.Network.ProofProtocol
import ZkRess.Properties.VerifiedTree

/-!
# A node serves what it has verified

Peers ask a node for headers, bodies and proofs of the blocks it stores.  In every state of
a run, the three answers for one hash fit together: the header is the one of this hash, and
the block they make up is the genesis block, a finalized download, or has been verified in
this run with the very proof that is served (`ServesVerified`).
-/

namespace ZkRess

open Foundation ConsensusEngine

variable {X : Externals} {feed : Feed X}

/-! ## Where stored proofs come from -/

/-- **Verified with the proof**: the history passes through a state that has the block's
parent, in which the verifier accepted the block with this proof, and goes on with both
stored. -/
def VerifiedWith (feed : Feed X) (start finish : EngineTree X) (block : Block)
    (proof : X.Proof) : Prop :=
  ∃ marks tree parent tree' marks', History feed start marks tree ∧
    tree.provider.sealedHeader block.parentHash = some parent ∧
    X.verify tree.provider block parent proof = .ok () ∧
    tree'.provider = tree.provider.insertBlock block (some proof) ∧
    History feed tree' marks' finish

namespace VerifiedWith

variable {start tree tree' : EngineTree X} {block : Block} {proof : X.Proof}

theorem step (h : VerifiedWith feed start tree block proof) {mark : Option Mark}
    (step : TreeStep feed tree tree' mark) : VerifiedWith feed start tree' block proof := by
  obtain ⟨marks, tree₁, parent, tree₂, marks', hbefore, hparent, hpassed, hadded, hafter⟩ := h
  exact ⟨marks, tree₁, parent, tree₂, _, hbefore, hparent, hpassed, hadded, hafter.step step⟩

theorem finalized (h : VerifiedWith feed start tree block proof) {final : Block}
    {ancestors : List SealedHeader} (fed : (final, ancestors) ∈ feed.finalized) :
    VerifiedWith feed start (insertFinalized tree final ancestors) block proof := by
  obtain ⟨marks, tree₁, parent, tree₂, marks', hbefore, hparent, hpassed, hadded, hafter⟩ := h
  exact ⟨marks, tree₁, parent, tree₂, _, hbefore, hparent, hpassed, hadded,
    hafter.finalized final ancestors fed⟩

end VerifiedWith

/-- Stored proofs, and the blocks stored with them, in a state with a history. -/
structure Proven (feed : Feed X) (genesis : Block) (tree : EngineTree X) : Prop where
  stocked : Stocked feed tree.provider
  proofs : ∀ hash proof, tree.provider.proof hash = some proof →
    proof ∈ feed.proofs hash ∧ tree.provider.Contains hash ∧ ∃ block, block.hash = hash ∧
      block ∈ feed.blocks ∧ VerifiedWith feed (launch X genesis).tree tree block proof
  blocks : ∀ hash block, tree.provider.blocksByHash.get hash = some block →
    block = genesis ∨ (∃ ancestors, (block, ancestors) ∈ feed.finalized) ∨
      ∃ proof, tree.provider.proof hash = some proof ∧
        VerifiedWith feed (launch X genesis).tree tree block proof

namespace Proven

variable {genesis : Block} {tree tree' : EngineTree X}

private theorem launched (hconf : genesis.toSealedHeader.Conforms feed.preimage) :
    Proven feed genesis (launch X genesis).tree where
  stocked := .launch hconf
  proofs hash proof hget := by
    replace hget : (∅ : FiniteMap B256 X.Proof).get hash = some proof := hget
    rw [FiniteMap.get_empty] at hget
    cases hget
  blocks hash block hget := by
    rw [launch_get] at hget
    split at hget
    · cases hget
      exact .inl rfl
    · cases hget

/-- With the same blocks and proofs. -/
private theorem of_sameBlocks (h : Proven feed genesis tree) {mark : Option Mark}
    (step : TreeStep feed tree tree' mark)
    (same : ChainState.SameBlocks tree.provider tree'.provider) : Proven feed genesis tree' where
  stocked := h.stocked.step step
  proofs hash proof hget := by
    replace hget : tree'.provider.proofs.get hash = some proof := hget
    rw [same.proofs] at hget
    obtain ⟨hfed, ⟨stored, hstored⟩, block, hhash, hblock, hverified⟩ := h.proofs hash proof hget
    exact ⟨hfed, ⟨stored, by rwa [same.blocksByHash]⟩, block, hhash, hblock, hverified.step step⟩
  blocks hash block hget := by
    rw [same.blocksByHash] at hget
    rcases h.blocks hash block hget with hgenesis | hfinal | ⟨proof, hproof, hverified⟩
    · exact .inl hgenesis
    · exact .inr (.inl hfinal)
    · refine .inr (.inr ⟨proof, ?_, hverified.step step⟩)
      show tree'.provider.proofs.get hash = some proof
      rw [same.proofs]
      exact hproof

private theorem verify (h : Proven feed genesis tree) {block : Block} {parent : SealedHeader}
    {proof : X.Proof} (step : TreeStep feed tree tree' (some (.verified block)))
    (fed : block ∈ feed.blocks) (proofFed : proof ∈ feed.proofs block.hash)
    (connected : tree.provider.sealedHeader block.parentHash = some parent)
    (passed : X.verify tree.provider block parent proof = .ok ())
    (provider : tree'.provider = tree.provider.insertBlock block (some proof))
    (history : ∃ marks, History feed (launch X genesis).tree marks tree) :
    Proven feed genesis tree' := by
  have hown : VerifiedWith feed (launch X genesis).tree tree' block proof := by
    obtain ⟨marks, history⟩ := history
    exact ⟨marks, tree, parent, tree', [], history, connected, passed, provider, .start⟩
  have hproof : ∀ hash, tree'.provider.proof hash
      = if hash = block.hash then some proof else tree.provider.proof hash := by
    intro hash
    rw [provider]
    exact FiniteMap.get_insert _ _ _ _
  refine ⟨h.stocked.step step, fun hash proof' hget => ?_, fun hash block' hget => ?_⟩
  · rw [hproof] at hget
    split at hget
    · next heq =>
        subst heq
        cases hget
        refine ⟨proofFed, ?_, block, rfl, fed, hown⟩
        rw [provider]
        exact ChainState.contains_insertBlock.mpr (.inl rfl)
    · obtain ⟨hfed, hstored, block', hhash, hblock, hverified⟩ := h.proofs hash proof' hget
      refine ⟨hfed, ?_, block', hhash, hblock, hverified.step step⟩
      rw [provider]
      exact ChainState.contains_insertBlock.mpr (.inr hstored)
  · rw [provider, ChainState.insertBlock_get] at hget
    rw [hproof]
    split at hget
    · next heq =>
        cases hget
        exact .inr (.inr ⟨proof, if_pos heq, hown⟩)
    · next hne =>
        rw [if_neg hne]
        refine (h.blocks hash block' hget).imp_right fun horigin => horigin.imp_right ?_
        rintro ⟨proof', hproof', hverified⟩
        exact ⟨proof', hproof', hverified.step step⟩

/-- A pruned block goes with its proof. -/
private theorem prune (h : Proven feed genesis tree) {finalizedHash : B256} {finalized : Block}
    (step : TreeStep feed tree tree' (some (.pruned finalized.number)))
    (stored : tree.provider.blocksByHash.get finalizedHash = some finalized)
    (provider : tree'.provider = tree.provider.removeBlocksOnFinalized finalizedHash) :
    Proven feed genesis tree' := by
  have hblock : ∀ hash block, tree'.provider.blocksByHash.get hash = some block ↔
      tree.provider.blocksByHash.get hash = some block ∧ finalized.number ≤ block.number := by
    intro hash block
    rw [provider]
    exact ChainState.removeBlocksOnFinalized_get h.stocked.indexed stored
  have hproof : ∀ hash proof, tree'.provider.proof hash = some proof ↔
      tree.provider.proof hash = some proof ∧ ∀ block,
        tree.provider.blocksByHash.get hash = some block → finalized.number ≤ block.number := by
    intro hash proof
    rw [provider]
    exact ChainState.removeBlocksOnFinalized_proofs h.stocked.indexed stored
  refine ⟨h.stocked.step step, fun hash proof hget => ?_, fun hash block hget => ?_⟩
  · obtain ⟨hold, hkept⟩ := (hproof hash proof).mp hget
    obtain ⟨hfed, ⟨stored', hstored⟩, block, hhash, hblock', hverified⟩ := h.proofs hash proof hold
    exact ⟨hfed, ⟨stored', (hblock hash stored').mpr ⟨hstored, hkept stored' hstored⟩⟩, block,
      hhash, hblock', hverified.step step⟩
  · obtain ⟨hold, hle⟩ := (hblock hash block).mp hget
    refine (h.blocks hash block hold).imp_right fun horigin => horigin.imp_right ?_
    rintro ⟨proof, hget', hverified⟩
    refine ⟨proof, (hproof hash proof).mpr ⟨hget', fun block' hget'' => ?_⟩, hverified.step step⟩
    rw [hold] at hget''
    exact Option.some.inj hget'' ▸ hle

private theorem insertFinalized (h : Proven feed genesis tree) {block : Block}
    {ancestors : List SealedHeader} (fed : (block, ancestors) ∈ feed.finalized) :
    Proven feed genesis (ConsensusEngine.insertFinalized tree block ancestors) where
  stocked := h.stocked.insertFinalized fed
  proofs hash proof hget := by
    replace hget : (ConsensusEngine.insertFinalized tree block ancestors).provider.proofs.get hash
      = some proof := hget
    rw [(insertFinalized_sameBlocks tree block ancestors).proofs] at hget
    obtain ⟨hfed, hstored, block', hhash, hblock, hverified⟩ := h.proofs hash proof hget
    exact ⟨hfed, contains_insertFinalized.mpr (.inr hstored), block', hhash, hblock,
      hverified.finalized fed⟩
  blocks hash block' hget := by
    rw [insertFinalized_get] at hget
    split at hget
    · cases hget
      exact .inr (.inl ⟨ancestors, fed⟩)
    · refine (h.blocks hash block' hget).imp_right fun horigin => horigin.imp_right ?_
      rintro ⟨proof, hproof, hverified⟩
      refine ⟨proof, ?_, hverified.finalized fed⟩
      show (ConsensusEngine.insertFinalized tree block ancestors).provider.proofs.get hash
        = some proof
      rw [(insertFinalized_sameBlocks tree block ancestors).proofs]
      exact hproof

/-- **Over a history**, proofs are stored with the blocks they verified. -/
theorem of_history (hconf : genesis.toSealedHeader.Conforms feed.preimage)
    {marks : List Mark} {tree : EngineTree X}
    (history : History feed (launch X genesis).tree marks tree) : Proven feed genesis tree := by
  induction history with
  | start => exact launched hconf
  | @step marks tree tree' mark history step ih =>
      have hstep := step
      cases step with
      | quiet provider => exact ih.of_sameBlocks hstep (provider ▸ .refl _)
      | condemn _ _ _ provider => exact ih.of_sameBlocks hstep (provider ▸ .refl _)
      | inherit _ _ _ provider => exact ih.of_sameBlocks hstep (provider ▸ .refl _)
      | verify fed proofFed _ _ connected passed provider =>
          exact ih.verify hstep fed proofFed connected passed provider ⟨marks, history⟩
      | advance _ provider =>
          exact ih.of_sameBlocks hstep (provider ▸ ChainState.onChainUpdate_sameBlocks _ _ _)
      | prune _ stored _ provider => exact ih.prune hstep stored provider
  | finalized _ block ancestors fed ih => exact ih.insertFinalized fed

/-- **Over a run**, with what the run was given. -/
theorem of_run (hconf : genesis.toSealedHeader.Conforms feed.preimage)
    {trace : List (Processed X.Proof)} {engine : ConsensusEngine X}
    (run : FedRun feed (launch X genesis) trace engine) :
    Proven (feed.within trace) genesis engine.tree := by
  obtain ⟨⟨marks, history⟩, -⟩ := Run.history (fun _ _ met => met) run.within (.new _)
  have hconf' : genesis.toSealedHeader.Conforms (feed.within trace).preimage := hconf
  exact of_history hconf' history

end Proven

/-! ## What is served -/

/-- **A node serves what it has verified**, in a state reached with this trace. -/
structure ServesVerified (feed : Feed X) (genesis : Block) (trace : List (Processed X.Proof))
    (tree : EngineTree X) : Prop where
  /-- A header served is the one of its hash. -/
  header : ∀ hash header, tree.provider.header hash = some header →
    feed.preimage hash = some ⟨header, hash⟩
  /-- A proof served was delivered in this run, for a block of that hash, and verified a block
  with the header served. -/
  proof : ∀ hash proof, tree.provider.proof hash = some proof →
    .outcome (.proof hash proof) ∈ trace ∧ ∃ block, block.hash = hash ∧
      tree.provider.header hash = some block.toHeader ∧
      VerifiedWith (feed.within trace) (launch X genesis).tree tree block proof
  /-- The block made up of header and body is genesis, a finalized download, or verified with the
  proof that is served. -/
  block : ∀ hash header body, tree.provider.header hash = some header →
    tree.provider.blockBody hash = some body →
      let block : Block := ⟨⟨header, hash⟩, body⟩
      block = genesis ∨ (∃ ancestors, .outcome (.finalizedBlock block ancestors) ∈ trace) ∨
        ∃ proof, tree.provider.proof hash = some proof ∧
          VerifiedWith (feed.within trace) (launch X genesis).tree tree block proof

/-- **Served answers are verified**, in every state of a run. -/
theorem servesVerified_of_run {genesis : Block}
    (hconf : genesis.toSealedHeader.Conforms feed.preimage) {trace : List (Processed X.Proof)}
    {engine : ConsensusEngine X} (run : FedRun feed (launch X genesis) trace engine) :
    ServesVerified feed genesis trace engine.tree := by
  have hproven := Proven.of_run hconf run
  have hheader : ∀ hash block, engine.tree.provider.blocksByHash.get hash = some block →
      feed.preimage hash = some block.toSealedHeader := fun hash block hget =>
    hproven.stocked.preimage_of_sealedHeader (ChainState.sealedHeader_eq_some.mpr ⟨block, hget, rfl⟩)
  refine ⟨fun hash header hserved => ?_, fun hash proof hserved => ?_,
    fun hash header body hserved hbody => ?_⟩
  · obtain ⟨block, hget, rfl⟩ := Option.map_eq_some_iff.mp hserved
    rw [hheader hash block hget, ← ChainState.hash_of_get hget]
  · obtain ⟨⟨-, hdelivered⟩, ⟨stored, hstored⟩, block, hhash, hblock, hverified⟩ :=
      hproven.proofs hash proof hserved
    refine ⟨hdelivered, block, hhash, Option.map_eq_some_iff.mpr ⟨stored, hstored, ?_⟩, hverified⟩
    have hconf := feed.blocks_conform block hblock.1
    rw [SealedHeader.Conforms, hhash, hheader hash stored hstored] at hconf
    exact congrArg SealedHeader.toHeader (Option.some.inj hconf)
  · obtain ⟨block, hget, rfl⟩ := Option.map_eq_some_iff.mp hserved
    obtain ⟨block', hget', rfl⟩ := Option.map_eq_some_iff.mp hbody
    obtain rfl : block = block' := Option.some.inj (hget.symm.trans hget')
    obtain rfl := ChainState.hash_of_get hget
    refine (hproven.blocks _ block hget).imp_right fun horigin => horigin.imp_left ?_
    rintro ⟨ancestors, -, hmem⟩
    exact ⟨ancestors, hmem⟩

namespace SmallWorld

/-- After the payload is unlocked, its block is served with the proof. -/
theorem servesVerified_of_unlockedPayload : ∃ engine : ConsensusEngine externals,
    (engine.tree.provider.proof 2).isSome = true ∧
      ServesVerified straightFeed (straightBlock 0) unlockedPayload engine.tree := by
  have hprovides : ∀ event ∈ unlockedPayload, straightFeed.Provides event := by
    simp only [unlockedPayload, List.forall_mem_cons]
    refine ⟨fun block hformed => ?_, trivial, List.forall_mem_nil _⟩
    cases hformed
    exact ⟨straight_conforms (by decide), rfl⟩
  have hends : (replay ascending unlockedPayload (launch externals (straightBlock 0))).any
      (fun engine => (engine.tree.provider.proof 2).isSome) = true := by decide +kernel
  obtain ⟨engine, hreplay, hstored⟩ := (Option.any_eq_true _ _).mp hends
  exact ⟨engine, hstored, servesVerified_of_run (straight_conforms (by decide))
    (.of_replay (fun _ => hprovides) hreplay)⟩

end SmallWorld

end ZkRess
