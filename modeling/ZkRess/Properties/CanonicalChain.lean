import ZkRess.Engine.SmallWorld

/-!
# The canonical chain of a run

Head and canonical hashes over whole runs of a launched node.  Fork-choice
updates, `make_canonical` and pruning keep them in step whatever is delivered
(`Canonical.step`).  The third path that moves the head does not: a finalized
download sets it, and writes the hashes it brings over the canonical hashes
without withdrawing the others, as a chain update does with the old chain.

So the invariant is proved for runs whose finalized downloads arrive in order,
which means that every canonical hash a download leaves standing is an ancestor
of the finalized block.  `late_download_breaks_chain` is a run with a download
that arrives after the head has moved on.
-/

namespace ZkRess

open Foundation ConsensusEngine

variable {X : Externals}

/-- **Head and canonical hashes agree**: the head is stored and canonical at its
number, nothing is canonical above it, and neighbouring entries are parent and
child. -/
structure CanonicalChain (feed : Feed X) (tree : EngineTree X) : Prop where
  stored : tree.provider.Contains tree.canonicalHead.hash
  listed : tree.provider.canonicalHashesByNumber.get tree.canonicalHead.number
    = some tree.canonicalHead.hash
  top : ∀ number hash, tree.provider.canonicalHashesByNumber.get number = some hash →
    number ≤ tree.canonicalHead.number
  linked : ∀ number hash hash', tree.provider.canonicalHashesByNumber.get number = some hash →
    tree.provider.canonicalHashesByNumber.get (number + 1) = some hash' →
      ∃ header, feed.preimage hash' = some header ∧ header.parentHash = hash

theorem Canonical.canonicalChain {feed : Feed X} {genesis : Block} {tree : EngineTree X}
    (h : Canonical feed genesis tree) : CanonicalChain feed tree where
  stored := by
    obtain ⟨header, hstored, -⟩ := h.head.stored
    exact ChainState.contains_iff_sealedHeader.mpr ⟨header, hstored⟩
  listed := h.index.top
  top _ _ hget := h.index.le_top hget
  linked number hash hash' hget hget' := by
    obtain ⟨header, hknown, -, hparent⟩ := h.index.linked hget hget'
    exact ⟨header, hknown, hparent⟩

/-- **Canonical chain of ordered runs.**  In every state that a launched node
reaches, head and canonical hashes agree. -/
theorem canonicalChain_of_orderedRun {feed : Feed X} {genesis : Block}
    (hgenesis : feed.IsGenesis genesis) (hlinked : feed.Linked) (hverifies : X.VerifiesNumber)
    {trace : List (Processed X.Proof)} {engine : ConsensusEngine X}
    (run : OrderedRun feed (launch X genesis) trace engine) : CanonicalChain feed engine.tree :=
  (OrderedRun.canonical hgenesis hlinked hverifies run).1.canonicalChain

namespace SmallWorld

theorem straight_isGenesis : straightFeed.IsGenesis (straightBlock 0) where
  conforms := straight_conforms (by decide)
  number := rfl
  noParent := rfl

/-- Block 1 as a finalized download. -/
def firstDownload : Processed externals.Proof :=
  .outcome (.finalizedBlock (straightBlock 1) (straightAncestors 1 1))

/-- A finalized download right after the launch is in order. -/
theorem canonicalChain_after_download :
    ∃ engine : ConsensusEngine externals, engine.tree.canonicalHead = ⟨1, 2⟩ ∧
      CanonicalChain straightFeed engine.tree := by
  have hmet : straightFeed.Provides firstDownload ∧
      DeliveredInOrder straightFeed (launch externals (straightBlock 0)) firstDownload := by
    refine ⟨straightFeed_finalized (by decide), fun number hash hget => .inl ?_⟩
    -- only the hash of the genesis block is canonical, and the download brings it again
    replace hget : (FiniteMap.insert ∅ 0 _).get number = some hash := hget
    rw [FiniteMap.get_insert] at hget
    split at hget
    · next hzero => exact ⟨straightHeader 0, by decide, hzero.symm⟩
    · cases hget
  exact ⟨_, rfl, canonicalChain_of_orderedRun straight_isGenesis feed_linked verifiesNumber
    (.step .start hmet (.outcome ascending _ rfl))⟩

/-- The consensus client finalizes block 290 and then block 300, both unknown;
the second download is answered first. -/
def lateDownload : List (Processed externals.Proof) :=
  [.message (.forkchoiceUpdated ⟨291, 291, 291⟩ none 0 3),
    .message (.forkchoiceUpdated ⟨301, 301, 301⟩ none 1 3),
    .outcome (.finalizedBlock (straightBlock 300) (straightAncestors 300 256)),
    .outcome (.finalizedBlock (straightBlock 290) (straightAncestors 290 256))]

/-- **A late download breaks the chain**: the head falls back to block 290, and
block 300 stays canonical above it. -/
theorem late_download_breaks_chain :
    ¬∀ trace engine, FedRun straightFeed (launch externals (straightBlock 0)) trace engine →
      CanonicalChain straightFeed engine.tree := by
  intro hall
  have hprovides : ∀ event ∈ lateDownload, straightFeed.Provides event := by
    simp only [lateDownload, List.forall_mem_cons]
    exact ⟨trivial, trivial, straightFeed_finalized (by decide),
      straightFeed_finalized (by decide), nofun⟩
  have hends :
      (replay ascending lateDownload (launch externals (straightBlock 0))).any (fun engine =>
        decide (engine.tree.canonicalHead.number = 290 ∧
        engine.tree.provider.canonicalHashesByNumber.get 300 = some 301)) = true := by
    decide +kernel
  obtain ⟨engine, hreplay, hbad⟩ := (Option.any_eq_true _ _).mp hends
  obtain ⟨hhead, hcanon⟩ := of_decide_eq_true hbad
  have htop := (hall _ engine (.of_replay (fun _ => hprovides) hreplay)).top 300 301 hcanon
  omega

end SmallWorld

end ZkRess
