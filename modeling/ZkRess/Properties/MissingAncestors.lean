import ZkRess.Engine.SmallWorld
import ZkRess.Engine.TreeSteps

/-!
# The missing ancestor of a disconnected block

A block whose parent is not stored is buffered, and the engine downloads what its
lowest buffered ancestor names as parent.  Since hashes make no cycle, the walk through
the buffer ends (`BlockBuffer.lowestAncestor_parent`), so what is named is an ancestor,
and it is not buffered.

That it is not stored is another matter.  The buffer also holds blocks that only wait
for their proof, and then the chain of buffered blocks hangs on a stored one
(`ExtendsStored`): the engine asks for a block it has.  These are all the cases
(`namesMissing_iff`).
-/

namespace ZkRess

open Foundation

variable {X : Externals} {feed : Feed X} {genesis : Block}

/-- The tree of a run, or one that an event of the run passes through. -/
def Reached (feed : Feed X) (genesis : Block) (tree : EngineTree X) : Prop :=
  ∃ trace engine, FedRun feed (ConsensusEngine.launch X genesis) trace engine ∧
    Takes feed engine.tree tree

/-- Walking down through buffered blocks. -/
abbrev BlockBuffer.Chain {P : Type} (buffer : BlockBuffer P) : B256 → List Block → B256 → Prop :=
  Path buffer.blocks.get fun block => block.parentHash

/-- **What is missing for a block**: a proper ancestor, such that the blocks strictly
between the two are buffered, and it is itself neither buffered nor stored. -/
structure NamesMissing (tree : EngineTree X) (block : Block) (missing : BlockNumHash) : Prop where
  ancestor : ∃ between, tree.blockBuffer.Chain block.parentHash between missing.hash
  proper : missing.hash ≠ block.hash
  notBuffered : tree.blockBuffer.blocks.get missing.hash = none
  notStored : ¬tree.provider.Contains missing.hash

/-- The buffered blocks below the block end with one whose parent is stored. -/
def ExtendsStored (tree : EngineTree X) (block : Block) : Prop :=
  ∃ between lowest,
    tree.blockBuffer.Chain block.parentHash (between ++ [lowest]) lowest.parentHash ∧
    tree.blockBuffer.blocks.get lowest.parentHash = none ∧
    tree.provider.Contains lowest.parentHash

/-- Inserting the block into a full buffer evicts none of the buffered blocks below
it. -/
def KeepsAncestors (tree : EngineTree X) (block : Block) : Prop :=
  ∀ victim, (tree.blockBuffer.insertHashAndGetEvicted block.hash).1 = some victim →
    ∀ between reached, tree.blockBuffer.Chain block.parentHash between reached →
      ∀ ancestor ∈ between, ancestor.hash ≠ victim

namespace EngineTree

variable {tree tree' : EngineTree X} {block : Block}

/-- Walking down from a hash to its lowest buffered ancestor, and on to the parent of that,
goes through the buffer and ends where nothing is buffered. -/
theorem lowestBufferedAncestorOr_chain
    (hacyclic : NoReturn tree.blockBuffer.blocks.get fun block => block.parentHash) (hash : B256) :
    ∃ between, tree.blockBuffer.Chain hash between (tree.lowestBufferedAncestorOr hash) ∧
      tree.blockBuffer.blocks.get (tree.lowestBufferedAncestorOr hash) = none := by
  unfold lowestBufferedAncestorOr
  match hlowest : tree.blockBuffer.lowestAncestor hash with
  | none =>
      exact ⟨[], .nil _, Option.map_eq_none_iff.mp hlowest⟩
  | some lowest =>
      obtain ⟨between, hpath⟩ := BlockBuffer.lowestAncestor_path hlowest
      exact ⟨between ++ [lowest], hpath, BlockBuffer.lowestAncestor_parent hacyclic hlowest⟩

theorem missingAncestor_hash (tree : EngineTree X) (block : Block) :
    (tree.missingAncestor block).hash = tree.lowestBufferedAncestorOr block.parentHash := by
  unfold missingAncestor lowestBufferedAncestorOr
  match tree.blockBuffer.lowestAncestor block.parentHash with
  | none => rfl
  | some lowest => rfl

/-- **The walk for the missing ancestor** goes through the buffer and ends where nothing
is buffered. -/
theorem missingAncestor_chain (hfed : FedBy feed tree.blockBuffer) (hacyclic : feed.Acyclic)
    (block : Block) :
    ∃ between, tree.blockBuffer.Chain block.parentHash between (tree.missingAncestor block).hash ∧
      tree.blockBuffer.blocks.get (tree.missingAncestor block).hash = none := by
  rw [missingAncestor_hash]
  exact lowestBufferedAncestorOr_chain (hfed.noReturn hacyclic) block.parentHash

/-- A walk down from the parent of a delivered block does not come to the block. -/
theorem hash_ne_of_chain (hfed : FedBy feed tree.blockBuffer) (hacyclic : feed.Acyclic)
    (hblock : block ∈ feed.blocks) {between : List Block} {reached : B256}
    (hchain : tree.blockBuffer.Chain block.parentHash between reached) : reached ≠ block.hash := by
  rintro rfl
  have hreturn := hacyclic block.hash _
    (.cons (feed.blocks_conform block hblock) (hfed.path_headers hchain))
  exact List.cons_ne_nil _ _ hreturn

/-- What is named is missing exactly if it is not stored. -/
theorem namesMissing_iff_not_contains (hfed : FedBy feed tree.blockBuffer)
    (hacyclic : feed.Acyclic) (hblock : block ∈ feed.blocks) :
    NamesMissing tree block (tree.missingAncestor block) ↔
      ¬tree.provider.Contains (tree.missingAncestor block).hash := by
  obtain ⟨between, hchain, hnone⟩ := missingAncestor_chain hfed hacyclic block
  exact ⟨fun h => h.notStored, fun hnot =>
    ⟨⟨between, hchain⟩, hash_ne_of_chain hfed hacyclic hblock hchain, hnone, hnot⟩⟩

/-- It is stored exactly if the buffered blocks hang on a stored one. -/
theorem contains_missingAncestor_iff (hfed : FedBy feed tree.blockBuffer)
    (hacyclic : feed.Acyclic) (horphan : ¬tree.provider.Contains block.parentHash) :
    tree.provider.Contains (tree.missingAncestor block).hash ↔ ExtendsStored tree block := by
  obtain ⟨between, hchain, hnone⟩ := missingAncestor_chain hfed hacyclic block
  constructor
  · intro hstored
    rcases List.eq_nil_or_concat' between with rfl | ⟨between, lowest, rfl⟩
    · -- nothing below the block is buffered, and its parent is not stored
      generalize (tree.missingAncestor block).hash = reached at hchain hstored
      cases hchain
      exact absurd hstored horphan
    · have hstop := hchain.stop_of_snoc
      rw [hstop] at hchain hnone hstored
      exact ⟨between, lowest, hchain, hnone, hstored⟩
  · rintro ⟨between', lowest, hchain', hnone', hstored⟩
    obtain ⟨-, heq⟩ := hchain.unique_of_stop hnone hchain' hnone'
    rwa [heq]

/-- What is buffered after the block was. -/
theorem get_bufferWith (hfed : FedBy feed tree.blockBuffer) (block : Block)
    (maybeProof : Option X.Proof) (hash : B256) :
    (bufferWith tree.blockBuffer block maybeProof).blocks.get hash
      = if hash = block.hash then some block
        else if (tree.blockBuffer.insertHashAndGetEvicted block.hash).1 = some hash then none
        else tree.blockBuffer.blocks.get hash := by
  match maybeProof with
  | none =>
      obtain ⟨evicted, rfl, -, -, hblocks, -⟩ :=
        BlockBuffer.get_insertBlock hfed.wellFormed block
      exact hblocks hash
  | some proof =>
      obtain ⟨evicted, rfl, -, -, hblocks, -⟩ :=
        BlockBuffer.get_insertBlock (hfed.wellFormed.insertProof block.hash proof) block
      exact hblocks hash

/-- An ancestor met below a delivered block is not the block. -/
theorem ancestor_hash_ne (hfed : FedBy feed tree.blockBuffer) (hacyclic : feed.Acyclic)
    (hblock : block ∈ feed.blocks) {between : List Block} {reached : B256}
    (hchain : tree.blockBuffer.Chain block.parentHash between reached) {ancestor : Block}
    (hmem : ancestor ∈ between) : ancestor.hash ≠ block.hash := by
  obtain ⟨above, -, -, hto, -⟩ := hchain.through_mem tree.blockBuffer.blocks.keyed hmem
  exact hash_ne_of_chain hfed hacyclic hblock hto

/-- Walking down from the parent, the block itself is not met, so a walk after it was
buffered is one from before. -/
theorem chain_of_bufferWith (hfed : FedBy feed tree.blockBuffer) (hacyclic : feed.Acyclic)
    (hblock : block ∈ feed.blocks) {maybeProof : Option X.Proof} {hash reached : B256}
    {above between : List Block} (habove : tree.blockBuffer.Chain block.parentHash above hash)
    (hchain : (bufferWith tree.blockBuffer block maybeProof).Chain hash between reached) :
    tree.blockBuffer.Chain hash between reached := by
  induction hchain generalizing above with
  | nil => exact .nil _
  | cons found _ ih =>
      rw [get_bufferWith hfed, if_neg (hash_ne_of_chain hfed hacyclic hblock habove)] at found
      split at found
      · cases found
      · exact .cons found (ih (habove.snoc found))

/-- **Once the block is buffered** its missing ancestor is named as before, unless a
block in between was evicted. -/
theorem namesMissing_bufferWith_iff (hfed : FedBy feed tree.blockBuffer) (hacyclic : feed.Acyclic)
    (hblock : block ∈ feed.blocks) (maybeProof : Option X.Proof) :
    NamesMissing { tree with blockBuffer := bufferWith tree.blockBuffer block maybeProof } block
        (tree.missingAncestor block) ↔
      NamesMissing tree block (tree.missingAncestor block) ∧ KeepsAncestors tree block := by
  have hget := get_bufferWith hfed block maybeProof
  obtain ⟨between, hchain, hnone⟩ := missingAncestor_chain hfed hacyclic block
  constructor
  · rintro ⟨⟨between', hchain'⟩, hproper, -, hnot⟩
    obtain ⟨rfl, -⟩ := (chain_of_bufferWith hfed hacyclic hblock (.nil _) hchain').unique_of_stop
      hnone hchain hnone
    refine ⟨⟨⟨between', hchain⟩, hproper, hnone, hnot⟩, fun victim hvictim part reached hpart => ?_⟩
    rintro ancestor hmem rfl
    -- the walk to the missing ancestor is the longest, so it meets the victim as well
    obtain ⟨rest, rfl, -⟩ := hpart.split hchain (hchain.length_le_of_stop hnone hpart)
    obtain ⟨hash, hfound⟩ := hchain'.found_of_mem (List.mem_append_left rest hmem)
    obtain rfl := BlockBuffer.hash_of_get hfound
    replace hfound : (bufferWith tree.blockBuffer block maybeProof).blocks.get ancestor.hash
        = some ancestor := hfound
    rw [hget, if_neg (ancestor_hash_ne hfed hacyclic hblock hpart hmem), if_pos hvictim] at hfound
    cases hfound
  · rintro ⟨⟨-, hproper, -, hnot⟩, hkeeps⟩
    refine ⟨⟨between, hchain.mono_of_mem fun hash ancestor hmem hfound => ?_⟩, hproper, ?_, hnot⟩
    · obtain rfl := BlockBuffer.hash_of_get hfound
      show (bufferWith tree.blockBuffer block maybeProof).blocks.get ancestor.hash = some ancestor
      rw [hget, if_neg (ancestor_hash_ne hfed hacyclic hblock hchain hmem), if_neg, hfound]
      exact fun hvictim => hkeeps _ hvictim between _ hchain ancestor hmem rfl
    · show (bufferWith tree.blockBuffer block maybeProof).blocks.get
        (tree.missingAncestor block).hash = none
      rw [hget, if_neg hproper, hnone, ite_self]

end EngineTree

/-- **Exactly the disconnected blocks whose buffered ancestors do not hang on a stored
block name an ancestor that is missing**, seen from the state they are inserted in; and
seen from the state after it, if also none of these ancestors was evicted. -/
theorem namesMissing_iff (hacyclic : feed.Acyclic) {tree tree' : EngineTree X}
    (hreached : Reached feed genesis tree) {block : Block} (hblock : block ∈ feed.blocks)
    {maybeProof : Option X.Proof} {head missing : BlockNumHash}
    (hinsert : tree.insertBlock block maybeProof
      = (.ok (.inserted (.disconnected head missing)), tree')) :
    (NamesMissing tree block missing ↔ ¬ExtendsStored tree block) ∧
      (NamesMissing tree' block missing ↔
        ¬ExtendsStored tree block ∧ KeepsAncestors tree block) := by
  obtain ⟨trace, engine, -, htakes⟩ := hreached
  have hfed := htakes.fed
  have hcases := EngineTree.insertBlock_cases tree block maybeProof
  rw [hinsert] at hcases
  cases hcases with
  | disconnected fresh valid orphan =>
      have hmissing := (EngineTree.namesMissing_iff_not_contains hfed hacyclic hblock).trans
        (not_congr (EngineTree.contains_missingAncestor_iff hfed hacyclic orphan))
      exact ⟨hmissing,
        (EngineTree.namesMissing_bufferWith_iff hfed hacyclic hblock maybeProof).trans
        (and_congr_left fun _ => hmissing)⟩

namespace SmallWorld

open ConsensusEngine

/-- In the forked chain the numbers fall from child to parent. -/
theorem fork_acyclic : forkFeed.Acyclic := by
  have hlisted : ∀ header ∈ forkHeaders, ∀ parent ∈ forkHeaders,
      parent.hash = header.parentHash → parent.number < header.number := by
    decide +kernel
  refine noReturn_of_rank (fun header => header.number) fun hash header parent hheader hparent => ?_
  exact hlisted header (mem_of_preimageOf hheader) parent (mem_of_preimageOf hparent)
    (preimageOf_keyed _ _ _ hparent)

private theorem third_mem_forkFeed : block 3 2 2 ∈ forkFeed.blocks := by
  show (header 3 2 2).Conforms (preimageOf forkHeaders)
  decide +kernel

/-- Nothing else was delivered before block 3: its missing ancestor is its parent. -/
theorem namesMissing_of_launch :
    NamesMissing (launch externals (block 1 0 0)).tree (block 3 2 2) ⟨1, 2⟩ := by
  have hreached : Reached forkFeed (block 1 0 0) (launch externals (block 1 0 0)).tree :=
    ⟨[], _, .start, .refl (.new forkFeed)⟩
  have hinsert : (launch externals (block 1 0 0)).tree.insertBlock (block 3 2 2) (some true)
      = (.ok (.inserted (.disconnected ⟨0, 1⟩ ⟨1, 2⟩)),
        ((launch externals (block 1 0 0)).tree.insertBlock (block 3 2 2) (some true)).2) := rfl
  refine (namesMissing_iff fork_acyclic hreached third_mem_forkFeed hinsert).1.mpr ?_
  -- nothing is buffered
  rintro ⟨between, lowest, hchain, -⟩
  cases between with
  | nil =>
      cases hchain with
      | cons found => cases found
  | cons first between =>
      cases hchain with
      | cons found => cases found

/-- Block 2 on the genesis block is announced, and waits for its proof. -/
def awaitingProof : List (Processed externals.Proof) :=
  [.message (.newPayload (payload (block 2 1 1)) 0)]

/-- **A block on one that waits for its proof**: what block 3 is said to miss is the
genesis block, and when its proof comes the engine downloads the genesis block. -/
theorem genesis_named_missing :
    (¬∀ trace engine, FedRun forkFeed (launch externals (block 1 0 0)) trace engine →
      ∀ block ∈ forkFeed.blocks, ∀ maybeProof head missing tree',
        engine.tree.insertBlock block maybeProof
          = (.ok (.inserted (.disconnected head missing)), tree') →
            NamesMissing engine.tree block missing) ∧
      (replay ascending (awaitingProof ++ deliver (block 3 2 2))
          (launch externals (block 1 0 0))).any
        (fun engine => decide (engine.tree.provider.Contains 1 ∧
          engine.downloader.inflightFullBlockRequests = [1])) = true := by
  constructor
  · intro hall
    have hprovides : ∀ event ∈ awaitingProof, forkFeed.Provides event := by decide +kernel
    have hends : (replay ascending awaitingProof (launch externals (block 1 0 0))).any
        (fun engine => decide (engine.tree.provider.Contains 1 ∧
          (engine.tree.insertBlock (block 3 2 2) none).1.toOption
            = some (.inserted (.disconnected ⟨0, 1⟩ ⟨0, 1⟩)))) = true := by
      decide +kernel
    obtain ⟨engine, hreplay, hstate⟩ := (Option.any_eq_true _ _).mp hends
    obtain ⟨hstored, hresult⟩ := of_decide_eq_true hstate
    have hrun : FedRun forkFeed (launch externals (block 1 0 0)) awaitingProof engine :=
      .of_replay (fun _ => hprovides) hreplay
    match hinsert : engine.tree.insertBlock (block 3 2 2) none with
    | (.error _, _) =>
        rw [hinsert] at hresult
        cases hresult
    | (.ok result, tree') =>
        rw [hinsert] at hresult
        obtain rfl := Option.some.inj hresult
        exact (hall awaitingProof engine hrun (block 3 2 2) third_mem_forkFeed none ⟨0, 1⟩ ⟨0, 1⟩
          tree' hinsert).notStored hstored
  · decide +kernel

end SmallWorld

end ZkRess
