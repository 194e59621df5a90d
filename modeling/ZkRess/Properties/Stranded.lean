import ZkRess.Engine.Connection
import ZkRess.Engine.SmallWorld

/-!
# No block is stranded in the buffer

A block that is buffered with its proof waits for its parent.  New payloads and
downloads that put a block into the provider connect the blocks that wait for it,
so after every such event no waiting block has a stored parent.

The download of a finalized block puts it into the provider, too, and connects
nothing: `on_downloaded_block` is called only if the block itself was buffered
with a proof, and then it finds the block in the provider and stops.  So what
waits for a finalized block stays behind when that block is downloaded
(`finalized_download_strands`), and the property holds in runs in which nothing
waits for a finalized block at its arrival.
-/

namespace ZkRess

open Foundation ConsensusEngine EngineTree

variable {X : Externals} {feed : Feed X}

/-- No buffered block waits with its proof for the finalized block that arrives. -/
def Unawaited (engine : ConsensusEngine X) : Processed X.Proof → Prop
  | .outcome (.finalizedBlock block _) => ∀ hash block' proof,
      engine.tree.blockBuffer.Ready hash block' proof → block'.parentHash ≠ block.hash
  | _ => True

/-- Runs in which nothing waits for a finalized block when it arrives. -/
abbrev UnawaitedRun (feed : Feed X) : ConsensusEngine X → List (Processed X.Proof) →
    ConsensusEngine X → Prop :=
  Run fun engine event => feed.Provides event ∧ Unawaited engine event

namespace ConsensusEngine

variable {engine engine' : ConsensusEngine X} {σ : SetOrder B256}

private theorem unstranded_carryOut {tree : EngineTree X} {event : Option TreeEvent}
    (h : tree.Unstranded ∅) : (tree.carryOut event).Unstranded ∅ :=
  h.of_sub (fun _ => contains_carryOut.mp) (carryOut_blockBuffer tree event ▸ .refl _)

theorem Receives.unstranded {payload : ExecutionData} {tx : ℕ}
    (h : Receives σ engine payload tx engine') (hfed : FedBy feed engine.tree.blockBuffer)
    (hprovides : feed.Provides (.message (.newPayload payload tx)))
    (hunstranded : engine.tree.Unstranded ∅) : engine'.tree.Unstranded ∅ := by
  let buffer := (engine.tree.blockBuffer.removeProof payload.blockHash).2
  have hbuffer : FedBy feed buffer := hfed.removeProof payload.blockHash
  have hcall : { engine.tree with blockBuffer := buffer }.Unstranded ∅ := by
    rintro hash block proof ⟨hblock, hproof⟩ hnot
    simp only [buffer, BlockBuffer.removeProof, FiniteMap.get_erase] at hproof
    split at hproof
    · cases hproof
    · exact hunstranded hash block proof ⟨hblock, hproof⟩ hnot
  have hhandled : ∀ {result tree'}, callNewPayload σ engine.tree payload = (result, tree') →
      tree'.Unstranded ∅ := by
    intro result tree' handled
    replace handled : onNewPayload σ { engine.tree with blockBuffer := buffer } payload
      (engine.tree.blockBuffer.removeProof payload.blockHash).1 = (result, tree') := handled
    cases hformed : X.ensureWellFormedPayload payload with
    | error error =>
        obtain ⟨latestValidHash, tree₁, hpeeks, heq⟩ := onNewPayload_malformed σ
          { engine.tree with blockBuffer := buffer }
          (engine.tree.blockBuffer.removeProof payload.blockHash).1 hformed
        cases heq.symm.trans handled
        refine hcall.of_sub (fun hash hstored => ?_) ?_
        · rwa [hpeeks.provider] at hstored
        · rw [hpeeks.blockBuffer]
          exact .refl _
    | ok block =>
        obtain ⟨hblock, hhash⟩ := hprovides block hformed
        have hhandles := onNewPayload_cases σ { engine.tree with blockBuffer := buffer }
          (engine.tree.blockBuffer.removeProof payload.blockHash).1 hformed
        rw [handled] at hhandles
        refine hhandles.unstranded hbuffer hblock (fun proof hproof => ?_) (fun _ => ?_) hcall
        · rw [hhash]
          exact hfed.removeProof_fed hproof
        · -- the proof has been taken out for the call
          simp only [buffer, BlockBuffer.removeProof, FiniteMap.get_erase, hhash, if_true]
  cases h with
  | parked handled _ _ tree =>
      rw [tree]
      exact hhandled handled
  | answered handled tree =>
      rw [tree]
      exact unstranded_carryOut (hhandled handled)

theorem Chooses.unstranded {state : ForkchoiceState} {payloadAttrs : Option PayloadAttributes}
    {tx : ℕ} {version : UInt8} (h : Chooses σ engine state payloadAttrs tx version engine')
    (hfed : FedBy feed engine.tree.blockBuffer) (hunstranded : engine.tree.Unstranded ∅) :
    engine'.tree.Unstranded ∅ := by
  cases h with
  | @answered result tree' handled tree =>
      have hupdates := onForkchoiceUpdated_cases σ engine.tree state payloadAttrs version
      rw [handled] at hupdates
      obtain ⟨hprovider, hbuffer⟩ := hupdates.sub hfed
      have htracked : (tree'.track state result).Unstranded ∅ :=
        (hunstranded.of_sub hprovider hbuffer).of_sub (by simp) (by simp [BlockBuffer.Sub.refl])
      rw [tree]
      exact unstranded_carryOut htracked

/-- What has been stored may be stranded until it is unlocked. -/
theorem Unlocks.unstranded {hash : B256} (h : Unlocks σ engine hash engine')
    (hfed : FedExcept feed hash engine.tree.blockBuffer)
    (hunstranded : engine.tree.Unstranded {hash}) : engine'.tree.Unstranded ∅ := by
  cases h with
  | locked missing same =>
      rw [same]
      intro hash' block proof hready _
      refine hunstranded hash' block proof hready ?_
      rintro rfl
      exact missing ⟨block, proof, hready⟩
  | @handled block proof result tree' ready handled tree =>
      have hcall : (takeOut engine.tree hash block).Unstranded ∅ := by
        rintro hash' block' proof' hready' -
        refine hunstranded hash' block' proof'
          ((BlockBuffer.drop_sub engine.tree.blockBuffer hash block).ready hready') ?_
        rintro rfl
        have hget := hready'.1
        simp only [takeOut, BlockBuffer.get_drop_blocks, if_true, reduceCtorEq] at hget
      have hhandles := onDownloadedBlock_cases σ (takeOut engine.tree hash block) block proof
      rw [handled] at hhandles
      rw [tree]
      refine unstranded_carryOut (hhandles.unstranded (hfed.drop ready) (hfed.blocks _ _ ready.1)
        (fun proof' hproof => ?_) nofun hcall)
      cases hproof
      rw [BlockBuffer.hash_of_get ready.1]
      exact hfed.proofs _ _ ready.2

/-- Storing downloaded data can strand the hash that is unlocked next, and what
waits for a finalized block. -/
theorem store_unstranded {data : DownloadData X.Proof}
    (hfed : FedBy feed engine.tree.blockBuffer) (hunawaited : Unawaited engine (.outcome data))
    (hunstranded : engine.tree.Unstranded ∅) :
    (store engine.tree data).Unstranded {unlockedHash data} := by
  intro hash block proof hready hnot
  cases data with
  | finalizedBlock finalized ancestors =>
      intro hstored
      obtain ⟨parent, hget⟩ := hstored
      rw [store, insertFinalized_get] at hget
      split at hget
      · next heq => exact hunawaited hash block proof hready heq
      · exact hunstranded hash block proof hready (Set.notMem_empty hash) ⟨parent, hget⟩
  | fullBlock inserted =>
      rcases (hfed.except inserted.hash).ready_of_insertBlock hready with ⟨rfl, -, -⟩ | ⟨-, hold⟩
      · exact absurd rfl hnot
      · exact hunstranded hash block proof hold (Set.notMem_empty hash)
  | proof blockHash inserted =>
      obtain ⟨hblock, hproof⟩ := hready
      have hne : hash ≠ blockHash := hnot
      simp only [store, BlockBuffer.insertProof, FiniteMap.get_insert, if_neg hne] at hproof
      exact hunstranded hash block proof ⟨hblock, hproof⟩ (Set.notMem_empty hash)

/-- **Every event strands nothing**, unless a block is awaited that arrives
finalized. -/
theorem Step.unstranded {event : Processed X.Proof} (step : Step engine event engine')
    (hprovides : feed.Provides event) (hunawaited : Unawaited engine event)
    (hfed : FedBy feed engine.tree.blockBuffer) (hunstranded : engine.tree.Unstranded ∅) :
    engine'.tree.Unstranded ∅ := by
  cases step with
  | timeout => exact hunstranded
  | message σ message =>
      cases message with
      | newPayload payload tx =>
          exact (onEngineMessage_newPayload σ engine payload tx).unstranded hfed hprovides
            hunstranded
      | forkchoiceUpdated state payloadAttrs tx version =>
          exact (onEngineMessage_forkchoiceUpdated σ engine state payloadAttrs tx
            version).unstranded hfed hunstranded
  | outcome σ data handled =>
      cases onDownloadOutcome_cases handled with
      | dropped _ same =>
          rw [same]
          exact hunstranded
      | stored unlocks =>
          exact unlocks.unstranded (FedBy.store hfed hprovides)
            (store_unstranded hfed hunawaited hunstranded)

end ConsensusEngine

/-- **No block is stranded** in a run from the launch on, if nothing waits for a
finalized block when it arrives. -/
theorem unstranded_of_unawaitedRun {genesis : Block} {trace : List (Processed X.Proof)}
    {engine : ConsensusEngine X} (run : UnawaitedRun feed (launch X genesis) trace engine) :
    engine.tree.Unstranded ∅ := by
  have hinv : engine.tree.Unstranded ∅ ∧ FedBy feed engine.tree.blockBuffer := by
    induction run with
    | start => exact ⟨fun _ _ _ hready => (nomatch hready.1), .new feed⟩
    | polled _ _ ih => exact ih
    | step _ met step ih =>
        exact ⟨step.unstranded met.1 met.2 ih.2 ih.1, (step.takes ih.2 met.1).fed⟩
  exact hinv.1

namespace SmallWorld

/-- Block 3 is downloaded with its proof and waits for block 2, which the
consensus client finalizes. -/
def awaitedFinalized : List (Processed externals.Proof) :=
  deliver (block 3 2 2) ++ [.message (.forkchoiceUpdated ⟨3, 2, 2⟩ none 0 3),
    .outcome (.finalizedBlock (block 2 1 1) [header 1 0 0])]

/-- **A finalized download strands** the block that waits for it. -/
theorem finalized_download_strands :
    ¬∀ trace engine, FedRun forkFeed (launch externals (block 1 0 0)) trace engine →
      engine.tree.Unstranded ∅ := by
  intro hall
  have hprovides : ∀ event ∈ awaitedFinalized, forkFeed.Provides event := by decide +kernel
  have hends : (replay ascending awaitedFinalized (launch externals (block 1 0 0))).any
      (fun engine => decide (engine.tree.blockBuffer.blocks.get 3 = some (block 3 2 2) ∧
        (engine.tree.blockBuffer.proofs.get 3).isSome ∧
        engine.tree.provider.Contains 2)) = true := by
    decide +kernel
  obtain ⟨engine, hreplay, hstate⟩ := (Option.any_eq_true _ _).mp hends
  obtain ⟨hblock, hproof, hstored⟩ := of_decide_eq_true hstate
  obtain ⟨proof, hproof⟩ := Option.isSome_iff_exists.mp hproof
  exact hall _ engine (.of_replay (fun _ => hprovides) hreplay) 3 (block 3 2 2) proof
    ⟨hblock, hproof⟩ (Set.notMem_empty _) hstored

/-- Block 3 is downloaded with its proof and waits for block 2, which is
downloaded, too. -/
def awaitedDownload : List (Processed externals.Proof) :=
  deliver (block 3 2 2) ++ deliver (block 2 1 1)

/-- A run in which a waiting block is connected. -/
theorem unstranded_of_download :
    ∃ engine : ConsensusEngine externals, engine.tree.provider.Contains 3 ∧
      engine.tree.Unstranded ∅ := by
  have hmeets : ∀ engine : ConsensusEngine externals, ∀ event ∈ awaitedDownload,
      forkFeed.Provides event ∧ Unawaited engine event := by
    intro engine event hmem
    have hprovides : ∀ event ∈ awaitedDownload, forkFeed.Provides event := by decide +kernel
    refine ⟨hprovides event hmem, ?_⟩
    simp only [awaitedDownload, deliver, List.cons_append, List.nil_append, List.mem_cons,
      List.not_mem_nil, or_false] at hmem
    rcases hmem with rfl | rfl | rfl | rfl <;> trivial
  have hends : (replay ascending awaitedDownload (launch externals (block 1 0 0))).any
      (fun engine => decide (engine.tree.provider.Contains 3)) = true := by decide +kernel
  obtain ⟨engine, hreplay, hstored⟩ := (Option.any_eq_true _ _).mp hends
  exact ⟨engine, of_decide_eq_true hstored,
    unstranded_of_unawaitedRun (.of_replay hmeets hreplay)⟩

end SmallWorld

end ZkRess
