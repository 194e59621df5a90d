import ZkRess.Engine.ChainUpdate
import ZkRess.Engine.SmallWorld

/-!
# Block-hash lookups answer with ancestors

The verifier reads the hashes of a block's ancestors from the provider: first from the
stored blocks, and below those from the canonical hashes.  After any number of reorgs and
prunings, such a lookup may find nothing, but what it finds is the ancestor at the number
asked for (`LooksUpAncestors`), also where the block is on a fork and the canonical hashes
are those of another branch.
-/

namespace ZkRess

open Foundation ConsensusEngine

variable {X : Externals} {feed : Feed X}

/-- **Lookups from a position** that find something find the ancestor at that number. -/
def LooksUpFrom {P : Type} (preimage : Preimage) (provider : ChainState P)
    (start : BlockNumHash) : Prop :=
  ∀ number hash, provider.blockHash start number = some hash →
    Reaches preimage (fun header => header.parentHash) (fun header => header.number) start.hash
      start.number hash number

/-- Lookups from all stored blocks. -/
def LooksUpAncestors {P : Type} (preimage : Preimage) (provider : ChainState P) : Prop :=
  ∀ hash header, provider.sealedHeader hash = some header →
    LooksUpFrom preimage provider header.numHash

namespace Grounded

variable {genesis : Block} {provider : ChainState X.Proof}

/-- The positions met by a lookup: the walk stands on an ancestor, or it has just left the
genesis block. -/
private def Met (feed : Feed X) (genesis : Block) (start ancestor : BlockNumHash) : Prop :=
  (feed.ChainReaches start.hash start.number ancestor.hash ancestor.number ∧
      feed.Positioned ancestor.hash ancestor.number) ∨ ancestor.hash = genesis.parentHash

/-- **The walk goes along ancestors**, and ends on one. -/
private theorem walkToNumber_met (hgenesis : feed.IsGenesis genesis)
    (h : Grounded feed genesis provider) (number fuel : ℕ) {start ancestor : BlockNumHash}
    (hmet : Met feed genesis start ancestor) :
    (∀ hash, provider.walkToNumber number fuel ancestor = .inl hash →
        feed.ChainReaches start.hash start.number hash number) ∧
      ∀ stop, provider.walkToNumber number fuel ancestor = .inr stop →
        Met feed genesis start stop := by
  induction fuel generalizing ancestor with
  | zero =>
      refine ⟨fun hash hhash => ?_, fun stop hstop => ?_⟩
      · cases hhash
      · cases hstop
        exact hmet
  | succ fuel ih =>
      rw [ChainState.walkToNumber]
      cases hget : provider.blocksByHash.get ancestor.hash with
      | none =>
          refine ⟨fun hash hhash => ?_, fun stop hstop => ?_⟩
          · cases hhash
          · cases hstop
            exact hmet
      | some block =>
          have hheader := ChainState.sealedHeader_eq_some.mpr ⟨block, hget, rfl⟩
          have hknown := h.preimage_of_sealedHeader hheader
          obtain ⟨hreach, hpositioned⟩ := hmet.resolve_right fun heq => by
            rw [heq, hgenesis.noParent] at hknown
            cases hknown
          have hnumber : block.number = ancestor.number := hpositioned _ hknown
          by_cases hfound : block.number = number
          · simp only [if_pos hfound]
            refine ⟨fun hash hhash => ?_, fun stop hstop => ?_⟩
            · rw [← Sum.inl.inj hhash, ChainState.hash_of_get hget, ← hfound, hnumber]
              exact hreach
            · cases hstop
          · simp only [if_neg hfound]
            refine ih ?_
            -- the parent of the genesis block is met, but not known
            rcases h.header_cases hgenesis hheader with heq | ⟨parent, hparent, hstep⟩
            · exact .inr (congrArg (fun header : SealedHeader => header.parentHash) heq)
            · have hbelow : block.number - 1 = parent.number := by
                rw [hstep]
                rfl
              refine .inl ⟨?_, fun header hsame => ?_⟩
              · rw [← hnumber, hstep] at hreach
                show feed.ChainReaches start.hash start.number block.parentHash (block.number - 1)
                rw [hbelow]
                exact hreach.trans ⟨[_], .cons hknown hstep (.nil _ _)⟩
              · replace hsame : feed.preimage block.parentHash = some header := hsame
                show header.number = block.number - 1
                rw [hbelow, ← Option.some.inj (hparent.symm.trans hsame)]

end Grounded

/-- **Canonical hashes continue the stored ancestors.** -/
theorem Canonical.looksUpAncestors {genesis : Block} {tree : EngineTree X}
    (hgenesis : feed.IsGenesis genesis) (h : Canonical feed genesis tree) :
    LooksUpAncestors feed.preimage tree.provider := by
  intro hash header hstored number found hfound
  have hknown := h.grounded.preimage_of_sealedHeader hstored
  have hhash := ChainState.hash_of_sealedHeader hstored
  have hstart : Grounded.Met feed genesis header.numHash header.numHash := by
    refine .inl ⟨.refl _ _, fun header' hheader' => ?_⟩
    replace hheader' : feed.preimage header.hash = some header' := hheader'
    rw [hhash, hknown] at hheader'
    rw [← Option.some.inj hheader']
    rfl
  obtain ⟨hinside, hoff⟩ :=
    h.grounded.walkToNumber_met hgenesis number tree.provider.blocksByHash.card hstart
  unfold ChainState.blockHash at hfound
  cases hstop : tree.provider.walkToNumber number tree.provider.blocksByHash.card
      header.numHash with
  | inl hash' =>
      rw [hstop] at hfound
      obtain rfl := Option.some.inj hfound
      exact hinside _ hstop
  | inr stop =>
      rw [hstop] at hfound
      simp only at hfound
      split at hfound
      · next hcanonical =>
          obtain ⟨hle, hget⟩ := hcanonical
          -- the walk has stopped on a canonical hash, which is an ancestor of the head
          obtain ⟨hreach, -⟩ := (hoff stop hstop).resolve_right fun heq => by
            obtain ⟨known, hknown', -⟩ := h.known _ _ hget
            rw [heq, hgenesis.noParent] at hknown'
            cases hknown'
          exact hreach.trans ((h.index.below _ _ hget).lower (h.index.below _ _ hfound) hle)
      · cases hfound

/-- **Block-hash lookups answer with ancestors**, in every state of a run whose finalized
downloads come in order. -/
theorem looksUpAncestors_of_orderedRun {genesis : Block} (hgenesis : feed.IsGenesis genesis)
    (hlinked : feed.Linked) (hverifies : X.VerifiesNumber) {trace : List (Processed X.Proof)}
    {engine : ConsensusEngine X} (run : OrderedRun feed (launch X genesis) trace engine) :
    LooksUpAncestors feed.preimage engine.tree.provider :=
  (OrderedRun.canonical hgenesis hlinked hverifies run).1.looksUpAncestors hgenesis

namespace SmallWorld

/-- Without finalized downloads, every run is in order. -/
theorem orderedRun_of_replay {trace : List (Processed externals.Proof)} {genesis : Block}
    {engine : ConsensusEngine externals} (hprovides : ∀ event ∈ trace, forkFeed.Provides event)
    (hnone : ∀ event ∈ trace, ∀ block ancestors, event ≠ .outcome (.finalizedBlock block ancestors))
    (h : replay ascending trace (launch externals genesis) = some engine) :
    OrderedRun forkFeed (launch externals genesis) trace engine := by
  refine .of_replay (fun _ event hmem => ⟨hprovides event hmem, ?_⟩) h
  match event, hnone event hmem with
  | .outcome (.finalizedBlock block ancestors), hnot => exact absurd rfl (hnot block ancestors)
  | .outcome (.fullBlock _), _ => trivial
  | .outcome (.proof _ _), _ => trivial
  | .message _, _ => trivial
  | .timeout _, _ => trivial

/-- The chain is chosen while the fork is stored beside it. -/
def forkChoice : List (Processed externals.Proof) :=
  deliver (block 2 1 1) ++ deliver (block 3 2 2) ++ deliver (block 5 1 1) ++ deliver (block 6 5 2) ++
    [.message (.forkchoiceUpdated ⟨3, 0, 0⟩ none 0 3)]

/-- Lookups from the fork stay on it, though another hash is canonical. -/
theorem looksUpAncestors_of_forkChoice : ∃ engine : ConsensusEngine externals,
    engine.tree.provider.canonicalHashesByNumber.get 1 = some 2 ∧
      engine.tree.provider.blockHash ⟨2, 6⟩ 1 = some 5 ∧
      LooksUpAncestors forkFeed.preimage engine.tree.provider := by
  have hends : (replay ascending forkChoice (launch externals (block 1 0 0))).any (fun engine =>
      decide (engine.tree.provider.canonicalHashesByNumber.get 1 = some 2 ∧
        engine.tree.provider.blockHash ⟨2, 6⟩ 1 = some 5)) = true := by
    decide +kernel
  obtain ⟨engine, hreplay, hstored⟩ := (Option.any_eq_true _ _).mp hends
  obtain ⟨hcanonical, hlookup⟩ := of_decide_eq_true hstored
  have hrun := orderedRun_of_replay (by decide +kernel) (by simp [forkChoice, deliver]) hreplay
  exact ⟨engine, hcanonical, hlookup,
    looksUpAncestors_of_orderedRun fork_isGenesis feed_linked verifiesNumber hrun⟩

end SmallWorld

end ZkRess
