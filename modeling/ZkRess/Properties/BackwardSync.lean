import ZkRess.Engine.PendingRequests
import ZkRess.Engine.SmallWorld
import ZkRess.Engine.WaitingChain

/-!
# Backward sync

A fork-choice update names a head that is not known.  The engine asks for the head, then for
its parent, and so on down to a stored block; each block comes with its proof, in either order
and after any number of rounds in which nothing comes.  With the lowest block the whole chain
is verified, and the head becomes canonical.

The state between two rounds is `Filling`: the upper part of the chain waits in the buffer,
and of the next block the parts that have not come are exactly the pending requests
(`Arrived`).  So the downloader is never idle before the chain is synced, and every outcome
it delivers is one step (`Filling.delivers`).
-/

namespace ZkRess

open Foundation EngineTree

/-! ## The downloader -/

namespace EngineDownloader

variable {P : Type} {downloader : EngineDownloader P}

theorem pendingRequests_eq_nil : downloader.pendingRequests = [] ↔ downloader.Idle := by
  unfold pendingRequests inFlight
  simp only [List.append_eq_nil_iff, List.map_eq_nil_iff]
  constructor
  · rintro ⟨⟨⟨hfinalized, hfullBlocks⟩, hproofs⟩, houtcomes⟩
    exact ⟨hfullBlocks, hproofs, hfinalized, houtcomes⟩
  · exact fun h => ⟨⟨⟨h.finalizedBlocks, h.fullBlocks⟩, h.proofs⟩, h.outcomes⟩

theorem Idle.eq_new (h : downloader.Idle) : downloader = .new := by
  obtain ⟨fullBlocks, proofs, finalizedBlocks, outcomes⟩ := downloader
  obtain ⟨rfl, rfl, rfl, rfl⟩ := h
  rfl

/-- An idle downloader is asked for a block, and for its proof. -/
theorem Idle.follow_downloadBlock (h : downloader.Idle) {buffer : BlockBuffer P} {hash : B256}
    (hproof : buffer.proofs.get hash = none) :
    (downloader.follow buffer (some (.downloadBlock hash))).pendingRequests
        = [(.fullBlock, hash), (.proof, hash)] ∧
      (downloader.follow buffer (some (.downloadBlock hash))).outcomes = [] := by
  rw [h.eq_new]
  have hfollow : EngineDownloader.new.follow buffer (some (.downloadBlock hash))
      = (EngineDownloader.new.downloadFullBlock hash).downloadProof hash := by
    show (if (buffer.proofs.get hash).isSome = true then _ else _) = _
    rw [hproof]
    rfl
  rw [hfollow]
  exact ⟨rfl, rfl⟩

end EngineDownloader

namespace ConsensusEngine

variable {X : Externals} {feed : Feed X} {genesis : Block}

/-! ## One outcome -/

/-- A block that has come completely is handled by the tree, whose event is carried out. -/
theorem onUnlockedHash_of_ready (σ : SetOrder B256) {engine : ConsensusEngine X}
    (unparked : engine.parkedPayload = none) {hash : B256} {block : Block} {proof : X.Proof}
    (hready : engine.tree.blockBuffer.Ready hash block proof)
    {result : Except InsertBlockFatalError (TreeOutcome PayloadStatus)} {tree' : EngineTree X}
    (hhandled : onDownloadedBlock σ (takeOut engine.tree hash block) block proof
      = (result, tree')) :
    engine.onUnlockedHash σ hash = { engine with
      tree := tree'.carryOut (resultEvent result)
      downloader := engine.downloader.follow tree'.blockBuffer (resultEvent result) } := by
  unfold onUnlockedHash
  rw [BlockBuffer.removeBlock_of_ready hready]
  simp only
  rw [show ({ engine.tree with blockBuffer := engine.tree.blockBuffer.drop hash block } :
    EngineTree X) = takeOut engine.tree hash block from rfl, hhandled]
  simp only [onMaybeTreeEvent_eq, unparked]

/-- Without the other part nothing happens. -/
theorem onUnlockedHash_of_missing (σ : SetOrder B256) {engine : ConsensusEngine X} {hash : B256}
    (hmissing : ¬engine.tree.blockBuffer.Removable hash) :
    engine.onUnlockedHash σ hash = engine := by
  unfold onUnlockedHash
  rw [BlockBuffer.removeBlock_of_not_removable hmissing]

/-- **What has come of the next block**, and the requests that are pending for it. -/
inductive Arrived (feed : Feed X) (base : EngineTree X) (block : Block) :
    EngineTree X → List (RequestKind × B256) → Prop
  | nothing : Arrived feed base block base [(.fullBlock, block.hash), (.proof, block.hash)]
  | fullBlock : Arrived feed base block (store base (.fullBlock block)) [(.proof, block.hash)]
  | proof {proof : X.Proof} (fed : proof ∈ feed.proofs block.hash) :
      Arrived feed base block (store base (.proof block.hash proof)) [(.fullBlock, block.hash)]

/-- **Data of a chain**: one of its blocks, or a proof. -/
inductive Fetched (feed : Feed X) (chain : List Block) : DownloadData X.Proof → Prop
  | fullBlock {block : Block} (mem : block ∈ chain) : Fetched feed chain (.fullBlock block)
  | proof {hash : B256} {proof : X.Proof} (fed : proof ∈ feed.proofs hash) :
      Fetched feed chain (.proof hash proof)

variable {start base : EngineTree X} {chain below above : List Block} {block : Block}
  {root target : B256} {tree : EngineTree X} {engine : ConsensusEngine X}
  {data : DownloadData X.Proof} {pending : List (RequestKind × B256)}

theorem Fetched.onDownloadOutcome (hfetched : Fetched feed chain data)
    (h : Downloadable feed start chain root target) (σ : SetOrder B256)
    (engine : ConsensusEngine X) :
    engine.onDownloadOutcome σ data
      = (.ok (), { engine with tree := store engine.tree data }.onUnlockedHash σ
          (unlockedHash data)) := by
  cases hfetched with
  | fullBlock mem =>
      simp only [ConsensusEngine.onDownloadOutcome, h.recovers _ mem, if_true]
      rfl
  | proof => rfl

/-- Data for the next block is this block, or a proof for it. -/
theorem Fetched.of_request (hfetched : Fetched feed chain data)
    (h : Downloadable feed start chain root target) (hmem : block ∈ chain)
    (hrequest : data.request.2 = block.hash) :
    data = .fullBlock block ∨ ∃ proof ∈ feed.proofs block.hash, data = .proof block.hash proof := by
  cases hfetched with
  | fullBlock mem => exact .inl (by rw [List.inj_on_of_nodup_map h.nodup mem hmem hrequest])
  | @proof hash proof fed =>
      obtain rfl : hash = block.hash := hrequest
      exact .inr ⟨proof, fed, rfl⟩

/-- **The last part of a block hands it to the tree**, as if nothing of it had been
buffered before. -/
private theorem onUnlockedHash_of_both (hw : Waiting feed start above base)
    (h : Downloadable feed start chain root target) (hchain : chain = below ++ block :: above)
    (unparked : engine.parkedPayload = none) {proof : X.Proof} {filed : EngineTree X}
    (hboth : filed = { base with
      blockBuffer := (base.blockBuffer.insertBlock block).insertProof block.hash proof })
    (σ : SetOrder B256)
    {result : Except InsertBlockFatalError (TreeOutcome PayloadStatus)} {tree' : EngineTree X}
    (hhandled : onDownloadedBlock σ base block proof = (result, tree')) :
    { engine with tree := filed }.onUnlockedHash σ block.hash = { engine with
      tree := tree'.carryOut (resultEvent result)
      downloader := engine.downloader.follow tree'.blockBuffer (resultEvent result) } := by
  obtain ⟨hnoBlock, hnoProof, hroom, -, -⟩ := hw.untouched h hchain
  have hready : filed.blockBuffer.Ready block.hash block proof := by
    rw [hboth]
    refine ⟨?_, FiniteMap.get_insert_self _ _ _⟩
    show (base.blockBuffer.insertBlock block).blocks.get block.hash = some block
    rw [BlockBuffer.insertBlock_of_room (.inr hroom)]
    exact KeyedMap.get_insert_self _ block
  have htaken : takeOut filed block.hash block = base := by
    rw [hboth]
    show { base with blockBuffer :=
      ((base.blockBuffer.insertBlock block).insertProof block.hash proof).drop block.hash block }
        = base
    rw [BlockBuffer.drop_insertProof_insertBlock hw.sound hnoBlock hnoProof hroom]
  rw [← htaken] at hhandled
  have hunparked : { engine with tree := filed }.parkedPayload = none := unparked
  exact onUnlockedHash_of_ready σ hunparked hready hhandled

/-- **An outcome for the next block** is filed as its first part, or hands the block to the
tree as its last. -/
theorem Arrived.receives (harrived : Arrived feed base block engine.tree pending)
    (hw : Waiting feed start above base) (h : Downloadable feed start chain root target)
    (hchain : chain = below ++ block :: above) (unparked : engine.parkedPayload = none)
    (hfetched : Fetched feed chain data) (hrequested : data.request ∈ pending)
    (σ : SetOrder B256) :
    (∃ tree' pending', engine.onDownloadOutcome σ data = (.ok (), { engine with tree := tree' }) ∧
        Arrived feed base block tree' pending' ∧ pending.Perm (data.request :: pending')) ∨
      pending = [data.request] ∧ ∃ proof ∈ feed.proofs block.hash, ∀ result tree',
        onDownloadedBlock σ base block proof = (result, tree') →
          engine.onDownloadOutcome σ data = (.ok (), { engine with
            tree := tree'.carryOut (resultEvent result)
            downloader := engine.downloader.follow tree'.blockBuffer (resultEvent result) }) := by
  have hmem : block ∈ chain := hchain ▸ List.mem_append_right _ List.mem_cons_self
  obtain ⟨hnoBlock, hnoProof, hroom, -, -⟩ := hw.untouched h hchain
  have houtcome := hfetched.onDownloadOutcome h σ engine
  generalize hbefore : engine.tree = before at harrived
  have hown : data.request.2 = block.hash := by
    cases harrived with
    | nothing =>
        rcases List.mem_pair.mp hrequested with heq | heq
        · rw [heq]
        · rw [heq]
    | fullBlock => rw [List.mem_singleton.mp hrequested]
    | proof => rw [List.mem_singleton.mp hrequested]
  rcases hfetched.of_request h hmem hown with rfl | ⟨proof, hproof, rfl⟩
  · cases harrived with
    | nothing =>
        refine .inl ⟨_, _, houtcome.trans (congrArg (Prod.mk _) (onUnlockedHash_of_missing σ ?_)),
          hbefore ▸ .fullBlock, .refl _⟩
        rintro ⟨block', proof, hready⟩
        have hfiled : (base.blockBuffer.insertBlock block).proofs.get block.hash = some proof := by
          rw [← hbefore]
          exact hready.2
        rw [BlockBuffer.insertBlock_of_room (.inr hroom)] at hfiled
        cases hnoProof.symm.trans hfiled
    | fullBlock => cases List.mem_singleton.mp hrequested
    | @proof proof fed =>
        refine .inr ⟨rfl, proof, fed, fun result tree' hhandled => houtcome.trans ?_⟩
        refine congrArg (Prod.mk _) (onUnlockedHash_of_both hw h hchain unparked ?_ σ hhandled)
        rw [hbefore, ← BlockBuffer.insertBlock_insertProof hroom]
        rfl
  · cases harrived with
    | nothing =>
        refine .inl ⟨_, _, houtcome.trans (congrArg (Prod.mk _) (onUnlockedHash_of_missing σ ?_)),
          hbefore ▸ .proof hproof, .swap _ _ _⟩
        rintro ⟨block', proof', hready⟩
        have hfiled : base.blockBuffer.blocks.get block.hash = some block' := by
          rw [← hbefore]
          exact hready.1
        cases hnoBlock.symm.trans hfiled
    | fullBlock =>
        refine .inr ⟨rfl, proof, hproof, fun result tree' hhandled => houtcome.trans ?_⟩
        refine congrArg (Prod.mk _) (onUnlockedHash_of_both hw h hchain unparked ?_ σ hhandled)
        rw [hbefore]
        rfl
    | proof => cases List.mem_singleton.mp hrequested

/-! ## Rounds -/

/-- **The download under way**: the blocks above wait, and of the next one the parts that
have not come are pending. -/
structure Filling (feed : Feed X) (genesis : Block) (start : EngineTree X)
    (chain below : List Block) (block : Block) (above : List Block)
    (pending : List (RequestKind × B256)) (engine : ConsensusEngine X) : Prop where
  split : chain = below ++ block :: above
  run : ∃ trace, FedRun feed (launch X genesis) trace engine
  unparked : engine.parkedPayload = none
  arrived : ∃ base, Waiting feed start above base ∧ Arrived feed base block engine.tree pending
  pending : engine.downloader.pendingRequests.Perm pending
  queued : ∀ data ∈ engine.downloader.outcomes, Fetched feed chain data

/-- **The chain is synced**: it is connected and canonical up to its head, and there is
nothing left to do. -/
structure Synced (feed : Feed X) (start : EngineTree X) (chain : List Block) (target : B256)
    (engine : ConsensusEngine X) : Prop where
  connected : Connected feed start chain engine.tree
  head : engine.tree.canonicalHead.hash = target
  canonical : ∀ block ∈ chain,
    engine.tree.provider.canonicalHashesByNumber.get block.number = some block.hash
  idle : engine.downloader.Idle
  unparked : engine.parkedPayload = none

/-- **A chain that is synced**, with the number of outcomes that are still to come. -/
inductive Syncing (feed : Feed X) (genesis : Block) (start : EngineTree X) (chain : List Block)
    (target : B256) : ℕ → ConsensusEngine X → Prop
  | filling {below : List Block} {block : Block} {above : List Block}
      {pending : List (RequestKind × B256)} {engine : ConsensusEngine X}
      (filling : Filling feed genesis start chain below block above pending engine) :
      Syncing feed genesis start chain target (2 * below.length + pending.length) engine
  | synced {engine : ConsensusEngine X} (synced : Synced feed start chain target engine) :
      Syncing feed genesis start chain target 0 engine

/-- **What a backward sync starts from**: a sync target above a chain that can be downloaded,
on a branch that meets the canonical one. -/
structure Starts (feed : Feed X) (genesis : Block) (start : EngineTree X) (chain : List Block)
    (root target : B256) : Prop where
  downloadable : Downloadable feed start chain root target
  head : HeadGrounded feed genesis start
  targets : start.Targets target
  joins : start.Joins root

/-- Data of the chain is provided by its feed. -/
theorem Fetched.provided (hfetched : Fetched feed chain data)
    (h : Downloadable feed start chain root target) : feed.Provides (.outcome data) := by
  cases hfetched with
  | fullBlock mem => exact h.fed _ mem
  | proof fed => exact fed

/-- **Honest answers**: the blocks of the chain, and their proofs. -/
structure Honest (feed : Feed X) (chain : List Block) (answers : DownloadAnswers X.Proof) :
    Prop where
  fullBlock : ∀ block ∈ chain, ∀ answer, answers.fullBlock block.hash = some answer →
    answer = block
  proof : ∀ block ∈ chain, ∀ proof, answers.proof block.hash = some proof →
    proof ∈ feed.proofs block.hash

/-- Each block of the chain is answered, and each proof. -/
def generous (chain : List Block) (input : PollInput X) : Bool :=
  chain.all fun block =>
    (input.answers.fullBlock block.hash).isSome && (input.answers.proof block.hash).isSome

/-- The engine after rounds with these inputs. -/
def rounds (engine : ConsensusEngine X) (inputs : List (PollInput X)) : ConsensusEngine X :=
  inputs.foldl (fun engine input => (poll input engine).2.2) engine

/-- What is pending is a part of a block of the chain. -/
theorem Arrived.request_mem (harrived : Arrived feed base block tree pending)
    {request : RequestKind × B256} (hmem : request ∈ pending) :
    request = (.fullBlock, block.hash) ∨ request = (.proof, block.hash) := by
  cases harrived with
  | nothing => exact List.mem_pair.mp hmem
  | fullBlock => exact .inr (List.mem_singleton.mp hmem)
  | proof => exact .inl (List.mem_singleton.mp hmem)

theorem Arrived.exists_request (harrived : Arrived feed base block tree pending) :
    ∃ request, request ∈ pending := by
  cases harrived with
  | nothing | fullBlock | proof => exact ⟨_, List.mem_cons_self⟩

/-- The answer to such a request is that part. -/
theorem Honest.answer {answers : DownloadAnswers X.Proof} (hhonest : Honest feed chain answers)
    (hmem : block ∈ chain) {request : RequestKind × B256}
    (hrequest : request = (.fullBlock, block.hash) ∨ request = (.proof, block.hash))
    (hanswer : answers.answer request = some data) :
    data.request = request ∧ Fetched feed chain data := by
  rcases hrequest with rfl | rfl
  · obtain ⟨answer, hsome, rfl⟩ := Option.map_eq_some_iff.mp hanswer
    obtain rfl := hhonest.fullBlock block hmem answer hsome
    exact ⟨rfl, .fullBlock hmem⟩
  · obtain ⟨proof, hsome, rfl⟩ := Option.map_eq_some_iff.mp hanswer
    exact ⟨rfl, .proof (hhonest.proof block hmem proof hsome)⟩

/-- Generous answers answer such a request. -/
theorem answer_of_generous {input : PollInput X} (hgenerous : generous chain input = true)
    (hmem : block ∈ chain) {request : RequestKind × B256}
    (hrequest : request = (.fullBlock, block.hash) ∨ request = (.proof, block.hash)) :
    input.answers.answer request ≠ none := by
  have hboth := List.all_eq_true.mp hgenerous block hmem
  rw [Bool.and_eq_true] at hboth
  rcases hrequest with rfl | rfl
  · exact fun hnone => Option.isSome_iff_ne_none.mp hboth.1 (Option.map_eq_none_iff.mp hnone)
  · exact fun hnone => Option.isSome_iff_ne_none.mp hboth.2 (Option.map_eq_none_iff.mp hnone)

section Rounds

variable (hgenesis : feed.IsGenesis genesis) (hlinked : feed.Linked) (hverifies : X.VerifiesNumber)
  (hsteady : X.invalidHeaderCache.Steady) (h : Starts feed genesis start chain root target)

include hgenesis hlinked hverifies hsteady h

/-- **An outcome is one step** towards the synced chain. -/
theorem Filling.delivers
    (hfilling : Filling feed genesis start chain below block above pending engine)
    {downloader : EngineDownloader X.Proof}
    (hrest : (data.request :: downloader.pendingRequests).Perm pending)
    (hqueued : ∀ data ∈ downloader.outcomes, Fetched feed chain data)
    (hfetched : Fetched feed chain data) (σ : SetOrder B256) :
    ∃ engine', { engine with downloader }.onDownloadOutcome σ data = (.ok (), engine') ∧
      Syncing feed genesis start chain target (2 * below.length + pending.length - 1) engine' := by
  obtain ⟨base, hw, harrived⟩ := hfilling.arrived
  obtain ⟨trace, hrun⟩ := hfilling.run
  have hpolled := hrun.polled downloader
  have harrived₁ : Arrived feed base block { engine with downloader }.tree pending := harrived
  have hruns : ∀ {engine'},
      { engine with downloader }.onDownloadOutcome σ data = (.ok (), engine') →
        FedRun feed (launch X genesis) (trace ++ [.outcome data]) engine' := fun houtcome =>
    hpolled.step (hfetched.provided h.downloadable) (.outcome σ data houtcome)
  rcases harrived₁.receives hw h.downloadable hfilling.split hfilling.unparked hfetched
    (hrest.mem_iff.mp List.mem_cons_self) σ with
    ⟨tree', pending', houtcome, hnext, hperm⟩ | ⟨hlast, proof, hproof, hhandles⟩
  · -- the first part is filed
    refine ⟨_, houtcome, ?_⟩
    have hlength := hperm.length_eq
    rw [List.length_cons] at hlength
    rw [hlength, ← Nat.add_assoc, Nat.add_sub_cancel]
    exact .filling
      { split := hfilling.split
        run := ⟨_, hruns houtcome⟩
        unparked := hfilling.unparked
        arrived := ⟨base, hw, hnext⟩
        pending := (hrest.trans hperm).cons_inv
        queued := hqueued }
  · -- the block is complete, and the downloader idle
    have hidle : downloader.Idle := by
      rw [hlast] at hrest
      exact EngineDownloader.pendingRequests_eq_nil.mp hrest.cons_inv.eq_nil
    rw [hlast, List.length_singleton, Nat.add_sub_cancel]
    rcases List.eq_nil_or_concat' below with rfl | ⟨below, next, rfl⟩
    · obtain ⟨event, tree', hhandled, hevent, hconnected⟩ :=
        hw.connects hsteady h.downloadable hfilling.split h.targets hproof σ
      have houtcome := hhandles _ _ hhandled
      have hgrounded := (HeadGrounded.of_run hgenesis hlinked hverifies (hruns houtcome)).1.grounded
      obtain ⟨hhead, hcanonical⟩ := hw.installs hgenesis h.downloadable hfilling.split h.head
        h.targets h.joins hhandled hgrounded hconnected.carryOut
      refine ⟨_, houtcome, .synced ⟨hconnected.carryOut, hhead, hcanonical, ?_, hfilling.unparked⟩⟩
      show (downloader.follow tree'.blockBuffer event).Idle
      rcases hevent with rfl | rfl
      · exact hidle
      · exact hidle
    · obtain ⟨tree', hhandled, hwaiting⟩ := hw.disconnects hsteady h.downloadable hfilling.split
        (List.append_ne_nil_of_right_ne_nil _ (List.cons_ne_nil _ _)) hproof σ
      have houtcome := hhandles _ _ hhandled
      have hsplit : chain = below ++ next :: (block :: above) := by
        rw [hfilling.split, List.append_assoc, List.singleton_append]
      -- the parent is the next block of the chain
      have hparent : block.parentHash = next.hash := by
        have hrises := h.downloadable.rises
        rw [hsplit] at hrises
        obtain ⟨hash, -, hnext⟩ := hrises.split
        cases hnext with
        | cons _ hrest =>
            cases hrest with
            | cons parent _ => exact parent
      obtain ⟨-, hnoProof, -⟩ := hwaiting.untouched h.downloadable hsplit
      rw [hparent] at houtcome
      obtain ⟨hasked, hnone⟩ := hidle.follow_downloadBlock hnoProof
      refine ⟨_, houtcome, ?_⟩
      have hfilling' : Filling feed genesis start chain below next (block :: above)
          [(.fullBlock, next.hash), (.proof, next.hash)] _ :=
        { split := hsplit
          run := ⟨_, hruns houtcome⟩
          unparked := hfilling.unparked
          arrived := ⟨tree', hwaiting, .nothing⟩
          pending := hasked ▸ .refl _
          queued := by
            intro data hmem
            have hmem' : data ∈ (downloader.follow tree'.blockBuffer
              (some (.downloadBlock next.hash))).outcomes := hmem
            rw [hnone] at hmem'
            cases hmem' }
      have hcount : 2 * (below ++ [next]).length
          = 2 * below.length
            + [(RequestKind.fullBlock, next.hash), (.proof, next.hash)].length := by
        rw [List.length_append]
        rfl
      rw [hcount]
      exact .filling hfilling'

/-- **A round** without a message processes at most one outcome, and one if all requests are
answered; it never fails. -/
theorem Syncing.poll {remaining : ℕ}
    (hsyncing : Syncing feed genesis start chain target remaining engine) {input : PollInput X}
    (hquiet : input.message = none) (hhonest : Honest feed chain input.answers) :
    (∀ fatal, (ConsensusEngine.poll input engine).1 ≠ .failed fatal) ∧
      ∃ remaining', Syncing feed genesis start chain target remaining'
          (ConsensusEngine.poll input engine).2.2 ∧
        remaining' ≤ remaining ∧ (generous chain input = true → remaining' ≤ remaining - 1) := by
  cases hsyncing with
  | synced synced =>
      have hnone : engine.downloader.poll input.answers = (none, .new) := by
        rw [synced.idle.eq_new]
        rfl
      have hpoll : ConsensusEngine.poll input engine
          = (.pending, [], { engine with downloader := .new }) := by
        unfold ConsensusEngine.poll pollMessage
        rw [hnone]
        simp only [synced.unparked, hquiet]
      rw [hpoll]
      exact ⟨nofun, 0, .synced { synced with idle := ⟨rfl, rfl, rfl, rfl⟩ }, le_rfl,
        fun _ => le_rfl⟩
  | @filling below block above pending _ hfilling =>
      have hmem : block ∈ chain := hfilling.split ▸ List.mem_append_right _ List.mem_cons_self
      obtain ⟨base, hw, harrived⟩ := hfilling.arrived
      obtain ⟨trace, hrun⟩ := hfilling.run
      have hpart : ∀ request ∈ engine.downloader.inFlight,
          request = (.fullBlock, block.hash) ∨ request = (.proof, block.hash) :=
        fun request hflying => harrived.request_mem
          (hfilling.pending.mem_iff.mp (List.mem_append_left _ hflying))
      have hfits : input.answers.Fits engine.downloader.inFlight :=
        fun request hflying data hanswer =>
          (hhonest.answer hmem (hpart request hflying) hanswer).1
      generalize hpoll : engine.downloader.poll input.answers = polled
      obtain ⟨outcome, downloader⟩ := polled
      have hperm := (EngineDownloader.poll_pendingRequests hfits hpoll).trans hfilling.pending
      have hdata : ∀ data, outcome = some data ∨ data ∈ downloader.outcomes →
          Fetched feed chain data := by
        intro data hcome
        rcases EngineDownloader.poll_outcomes hpoll hcome with hold | ⟨request, hflying, hanswer⟩
        · exact hfilling.queued data hold
        · exact (hhonest.answer hmem (hpart request hflying) hanswer).2
      cases outcome with
      | none =>
          have hround : ConsensusEngine.poll input engine
              = (.pending, [], { engine with downloader }) := by
            unfold ConsensusEngine.poll pollMessage
            rw [hpoll]
            simp only [hfilling.unparked, hquiet]
          rw [hround]
          refine ⟨nofun, _, .filling
            { hfilling with
              run := ⟨trace, hrun.polled downloader⟩
              arrived := ⟨base, hw, harrived⟩
              pending := hperm
              queued := fun data hqueued => hdata data (.inr hqueued) }, le_rfl,
            fun hgenerous => ?_⟩
          -- something was pending, and would have been answered
          obtain ⟨hdrained, hsilent⟩ := EngineDownloader.poll_eq_none hpoll
          obtain ⟨request, hrequest⟩ := harrived.exists_request
          have hflying : request ∈ engine.downloader.inFlight := by
            have hpending := hfilling.pending.mem_iff.mpr hrequest
            unfold EngineDownloader.pendingRequests at hpending
            rwa [hdrained, List.map_nil, List.append_nil] at hpending
          exact absurd (hsilent request hflying)
            (answer_of_generous hgenerous hmem (hpart request hflying))
      | some data =>
          obtain ⟨engine', houtcome, hsyncing⟩ := hfilling.delivers hgenesis hlinked hverifies
            hsteady h hperm (fun data hqueued => hdata data (.inr hqueued)) (hdata data (.inl rfl))
            input.order
          have hround : ConsensusEngine.poll input engine
              = (.continue, [.outcome data], engine') := by
            unfold ConsensusEngine.poll
            rw [hpoll]
            simp only [houtcome]
          rw [hround]
          exact ⟨nofun, _, hsyncing, Nat.sub_le _ _, fun _ => le_rfl⟩

/-- **Some rounds**, one after the other. -/
theorem Syncing.rounds {inputs : List (PollInput X)}
    (hinputs : ∀ input ∈ inputs, input.message = none ∧ Honest feed chain input.answers)
    {remaining : ℕ} (hsyncing : Syncing feed genesis start chain target remaining engine) :
    ∃ remaining', Syncing feed genesis start chain target remaining' (engine.rounds inputs) ∧
      remaining' ≤ remaining - inputs.countP (generous chain) := by
  induction inputs generalizing engine remaining with
  | nil => exact ⟨remaining, hsyncing, le_rfl⟩
  | cons input inputs ih =>
      obtain ⟨hquiet, hhonest⟩ := hinputs input List.mem_cons_self
      obtain ⟨-, between, hbetween, hle, hless⟩ :=
        hsyncing.poll hgenesis hlinked hverifies hsteady h hquiet hhonest
      obtain ⟨remaining', hrest, hcount⟩ :=
        ih (fun input hmem => hinputs input (List.mem_cons_of_mem _ hmem)) hbetween
      refine ⟨remaining', hrest, hcount.trans ?_⟩
      rw [List.countP_cons]
      split
      · next hgenerous =>
          have hstep := hless hgenerous
          omega
      · omega

end Rounds

/-! ## The whole sync -/

/-- **The engine lacks a chain** up to the head of a fork-choice update: finalized and safe
block are known, and nothing is pending. -/
structure Lacks (feed : Feed X) (engine : ConsensusEngine X) (chain : List Block) (root : B256)
    (state : ForkchoiceState) : Prop where
  downloadable : Downloadable feed engine.tree chain root state.headBlockHash
  joins : engine.tree.Joins root
  announced : state ∈ feed.states
  head : state.headBlockHash ≠ 0
  finalized : state.finalizedBlockHash = 0 ∨
    engine.tree.isBlockPersistedOrBuffered state.finalizedBlockHash = true
  safe : state.safeBlockHash = 0 ∨
    engine.tree.isBlockPersistedOrBuffered state.safeBlockHash = true
  idle : engine.downloader.Idle
  unparked : engine.parkedPayload = none

/-- **The chain is synced from its head**, whatever the rounds after the update: there is
something to wait for until it is, and it is after as many generous rounds as there are blocks
and proofs. -/
structure SyncsBackwards (feed : Feed X) (engine requested : ConsensusEngine X)
    (chain : List Block) (target : B256) (tx : ℕ) (inputs : List (PollInput X)) : Prop where
  answered : requested.responses
    = engine.responses ++ [.forkchoice tx (.ok (.valid ⟨.syncing, none⟩))]
  neverFails : ∀ before input after, inputs = before ++ input :: after →
    ∀ fatal, (poll input (requested.rounds before)).1 ≠ .failed fatal
  idle : (requested.rounds inputs).downloader.Idle →
    Synced feed engine.tree chain target (requested.rounds inputs)
  generous : 2 * chain.length ≤ inputs.countP (generous chain) →
    Synced feed engine.tree chain target (requested.rounds inputs)

/-- The update is answered with `Syncing`, and its head is asked for. -/
theorem Lacks.onForkchoiceUpdated {state : ForkchoiceState}
    (h : Lacks feed engine chain root state) (hsteady : X.invalidHeaderCache.Steady)
    (σ : SetOrder B256) (payloadAttrs : Option PayloadAttributes) (version : UInt8) :
    EngineTree.onForkchoiceUpdated σ engine.tree state payloadAttrs version
      = (.ok ⟨.valid ⟨.syncing, none⟩, some (.downloadBlock state.headBlockHash)⟩,
        engine.tree) := by
  obtain ⟨top, hmem, htop⟩ := h.downloadable.rises.top_mem h.downloadable.nonempty
  have hfresh := h.downloadable.fresh top hmem
  have hnoBlock := h.downloadable.noBlock top hmem
  have hunmarked := h.downloadable.unmarked top hmem
  have hlowest := lowestBufferedAncestorOr_of_get_none hnoBlock
  rw [htop] at hfresh hnoBlock hunmarked hlowest
  have hunknown : engine.tree.provider.sealedHeader state.headBlockHash = none :=
    ChainState.sealedHeader_eq_none.mpr (ChainState.not_contains_iff.mp hfresh)
  have hnew : engine.tree.onNewHead state.headBlockHash = none := by
    unfold onNewHead
    rw [hunknown]
  have hother : engine.tree.canonicalHead.hash ≠ state.headBlockHash := by
    intro heq
    exact hfresh (heq ▸ h.joins.contains_head)
  have hchecked : engine.tree.checkInvalidAncestor state.headBlockHash = (none, engine.tree) := by
    have hnone : (X.invalidHeaderCache.contents engine.tree.invalidHeaders).get
        state.headBlockHash = none :=
      Option.eq_none_iff_forall_not_mem.mpr fun entry hentry => hunmarked ⟨entry, hentry⟩
    unfold checkInvalidAncestor
    rw [hsteady _ _ hnone]
  have hmissing : engine.tree.isBlockPersistedOrBuffered state.headBlockHash = false := by
    unfold isBlockPersistedOrBuffered
    rw [hunknown, hnoBlock]
    rfl
  have hdownload : engine.tree.syncDownload state = some (.downloadBlock state.headBlockHash) := by
    unfold syncDownload
    have hfinalized : ¬(state.finalizedBlockHash ≠ 0 ∧
        ¬engine.tree.isBlockPersistedOrBuffered state.finalizedBlockHash = true) := by
      rintro ⟨hne, hnot⟩
      exact h.finalized.elim hne hnot
    have hsafe : ¬(state.safeBlockHash ≠ 0 ∧
        ¬engine.tree.isBlockPersistedOrBuffered state.safeBlockHash = true) := by
      rintro ⟨hne, hnot⟩
      exact h.safe.elim hne hnot
    have hdiffers : state.headBlockHash ≠ state.finalizedBlockHash := by
      intro heq
      rcases h.finalized with hzero | hknown
      · exact h.head (heq.trans hzero)
      · rw [← heq, hmissing] at hknown
        cases hknown
    simp only [if_neg hfinalized, if_neg hsafe, hlowest]
    rw [if_pos ⟨hdiffers, by rw [hmissing]; exact Bool.false_ne_true⟩]
  unfold EngineTree.onForkchoiceUpdated preValidateForkchoiceUpdate
  rw [if_neg h.head, hlowest, hchecked]
  simp only [if_neg hother, hnew, hunknown, hdownload]

/-- After the update all parts of the topmost block are pending. -/
private theorem Lacks.requested {state : ForkchoiceState} {trace : List (Processed X.Proof)}
    (h : Lacks feed engine chain root state) (hgenesis : feed.IsGenesis genesis)
    (hlinked : feed.Linked) (hverifies : X.VerifiesNumber)
    (hsteady : X.invalidHeaderCache.Steady) (htracker : X.forkchoiceStateTracker.Lawful)
    (htracks : X.TracksSyncing) (run : FedRun feed (launch X genesis) trace engine)
    (σ : SetOrder B256) (payloadAttrs : Option PayloadAttributes) (tx : ℕ) (version : UInt8)
    {requested : ConsensusEngine X}
    (hrequested : engine.onEngineMessage σ (.forkchoiceUpdated state payloadAttrs tx version)
      = requested) :
    requested.responses = engine.responses ++ [.forkchoice tx (.ok (.valid ⟨.syncing, none⟩))] ∧
      (requested.tree.provider = engine.tree.provider ∧
        requested.tree.blockBuffer = engine.tree.blockBuffer) ∧
      Starts feed genesis requested.tree chain root state.headBlockHash ∧
      Syncing feed genesis requested.tree chain state.headBlockHash (2 * chain.length)
        requested := by
  have hhandled := h.onForkchoiceUpdated hsteady σ payloadAttrs version
  have hstep : Step engine (.message (.forkchoiceUpdated state payloadAttrs tx version))
      requested := hrequested ▸ .message σ _ h.unparked
  have hprovides : feed.Provides (.message (.forkchoiceUpdated state payloadAttrs tx version)) :=
    h.announced
  have hrun := run.step hprovides hstep
  obtain ⟨hhead, hfed⟩ := HeadGrounded.of_run hgenesis hlinked hverifies hrun
  have hsound := FedRun.sound_buffer hrun
  simp only [onEngineMessage, hhandled, onMaybeTreeEvent_eq] at hrequested
  obtain ⟨below, block, hchain⟩ : ∃ below block, chain = below ++ [block] := by
    rcases List.eq_nil_or_concat' chain with hnil | hconcat
    · exact absurd hnil h.downloadable.nonempty
    · exact hconcat
  have htop : block.hash = state.headBlockHash :=
    (h.downloadable.eq_target_iff hchain).mpr rfl
  have hmem : block ∈ chain := hchain ▸ List.mem_append_right _ List.mem_cons_self
  have hnoProof := h.downloadable.noProof block hmem
  rw [htop] at hnoProof
  obtain ⟨hasked, hnone⟩ := h.idle.follow_downloadBlock hnoProof
  have htargets : requested.tree.Targets state.headBlockHash := by
    have hstatus : X.forkchoiceStatus (.valid ⟨.syncing, none⟩) = .syncing :=
      (htracks _).mpr ⟨none, rfl⟩
    refine ⟨state, ?_, rfl⟩
    rw [← hrequested]
    show X.forkchoiceStateTracker.syncTargetState (X.forkchoiceStateTracker.setLatest _ state
      (X.forkchoiceStatus (.valid ⟨.syncing, none⟩))) = some state
    rw [hstatus]
    exact htracker.syncing _ _
  subst hrequested
  have hdownloadable := h.downloadable
  refine ⟨rfl, ⟨rfl, rfl⟩, ⟨{ hdownloadable with }, hhead, htargets, h.joins⟩, ?_⟩
  have hfilling : Filling feed genesis _ chain below block []
      [(.fullBlock, block.hash), (.proof, block.hash)] _ :=
    { split := hchain
      run := ⟨_, hrun⟩
      unparked := h.unparked
      arrived := ⟨_, ⟨rfl, hfed, hsound, List.forall_mem_nil _, fun _ _ => rfl, fun _ _ => rfl, rfl,
        rfl⟩, .nothing⟩
      pending := by
        rw [htop, ← hasked]
        exact .refl _
      queued := fun data hqueued => by
        have hqueued' : data ∈ (engine.downloader.follow engine.tree.blockBuffer
          (some (.downloadBlock state.headBlockHash))).outcomes := hqueued
        rw [hnone] at hqueued'
        cases hqueued' }
  have hcount : 2 * chain.length
      = 2 * below.length + [(RequestKind.fullBlock, block.hash), (.proof, block.hash)].length := by
    rw [hchain, List.length_append]
    rfl
  rw [hcount]
  exact .filling hfilling

end ConsensusEngine

namespace SmallWorld

open ConsensusEngine

/-- The feed of the two chains, with complete proofs only. -/
def provenFeed : Feed externals :=
  feed (preimageOf forkHeaders) (preimageOf_keyed forkHeaders) {true}

/-- Two blocks on the genesis block. -/
def missingChain : List Block := [block 2 1 1, block 3 2 2]

/-- Each of them has the number after its parent's. -/
private theorem missingChain_verified {below above : List Block} {block : Block}
    (hchain : missingChain = below ++ block :: above) {provider : ChainState Bool}
    (hstores : Stores provenFeed (launchProvider (SmallWorld.block 1 0 0)) below provider)
    {parent : SealedHeader} (hparent : provider.sealedHeader block.parentHash = some parent) :
    verify provider block parent true = .ok () := by
  have hmem : block ∈ missingChain := hchain ▸ List.mem_append_right _ List.mem_cons_self
  obtain ⟨stored, hstored, rfl⟩ := ChainState.sealedHeader_eq_some.mp hparent
  have hnumber : block.number = stored.number + 1 := by
    by_cases hbelow : block.parentHash ∈ below.map fun block => block.hash
    · obtain ⟨member, hmember, heq⟩ := List.mem_map.mp hbelow
      have hnodup : (below.map fun block => block.hash).Nodup := by
        have hall : (missingChain.map fun block => block.hash).Nodup := by decide
        rw [hchain, List.map_append] at hall
        exact (List.nodup_append'.mp hall).1
      obtain ⟨hfound, -⟩ := hstores.has hnodup member hmember
      rw [heq, hstored] at hfound
      obtain rfl := Option.some.inj hfound
      have hlisted : ∀ block ∈ missingChain, ∀ stored ∈ missingChain,
          stored.hash = block.parentHash → block.number = stored.number + 1 := by decide
      exact hlisted block hmem stored (hchain ▸ List.mem_append_left _ hmember) heq
    · rw [hstores.blocksByHash hbelow] at hstored
      have hlisted : ∀ block ∈ missingChain,
          ((launchProvider (SmallWorld.block 1 0 0) : ChainState Bool).blocksByHash.get
            block.parentHash).all (fun stored => decide (block.number = stored.number + 1))
              = true := by decide +kernel
      exact of_decide_eq_true ((Option.all_eq_true _ _).mp (hlisted block hmem) stored hstored)
  unfold SmallWorld.verify
  rw [if_neg (not_not_intro hnumber)]
  rfl

theorem missingChain_lacking :
    Lacks provenFeed (launch externals (block 1 0 0)) missingChain 1 ⟨3, 1, 1⟩ where
  downloadable :=
    { rises := .cons rfl (.cons rfl (.nil 3))
      nonempty := by decide
      nodup := by decide
      rooted := by decide +kernel
      fed := by
        have hprovides : ∀ block ∈ missingChain,
            forkFeed.Provides (.outcome (.fullBlock block)) := by decide +kernel
        exact hprovides
      fresh := by decide +kernel
      unmarked := fun _ _ ⟨_, h⟩ => by cases h
      recovers := fun _ _ => rfl
      valid := fun _ _ => rfl
      verified := by
        rintro below block above hchain provider hstores parent hparent _ ⟨⟩
        exact missingChain_verified hchain hstores hparent
      noBlock := by decide +kernel
      noProof := fun _ _ => FiniteMap.get_empty _
      noneReady := by
        rintro hash ⟨block, proof, hready⟩
        cases hready.1
      room := by decide }
  joins := ⟨[], [], 1, ⟨.nil _, .nil _⟩, by decide +kernel, List.forall_mem_nil _⟩
  announced := trivial
  head := by decide
  finalized := .inr (by decide +kernel)
  safe := .inr (by decide +kernel)
  idle := ⟨rfl, rfl, rfl, rfl⟩
  unparked := rfl

/-- A round in which the requests for some blocks are answered, and all for proofs. -/
def answering (blocks : List Block) : PollInput externals where
  answers :=
    { fullBlock := fun hash => blocks.find? fun block => block.hash = hash
      proof := fun _ => some true
      finalizedBlock := fun _ => none }
  timeoutElapsed := false
  message := none
  order := ascending

end SmallWorld

end ZkRess
