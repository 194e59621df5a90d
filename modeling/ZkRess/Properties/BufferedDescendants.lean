import ZkRess.Engine.Connection
import ZkRess.Engine.SmallWorld
import ZkRess.Properties.MissingAncestors

/-!
# Failing descendants

The descendants of an imported block are all taken out of the buffer before the first
of them is inserted.  A descendant that is not valid is recorded as invalid, one whose
parent was not valid goes back into the buffer, and there is room for it: nothing else
has been buffered since (`Settling`).  So nothing is lost, and the imported block is
answered with `VALID`, as long as no descendant fails for another reason than itself.

A fatal error ends the loop.  The descendants not yet inserted are then nowhere, and
the answer for the imported block is the error (`sparesOthers_iff`).
-/

namespace ZkRess

open Foundation

variable {X : Externals} {feed : Feed X} {genesis : Block}

/-! ## What is recorded in the cache -/

namespace InvalidHeaderCache

variable (cache : InvalidHeaderCache)

/-- One use of the cache. -/
inductive Use : cache.State → cache.State → Prop
  | get (s : cache.State) (hash : B256) : Use s (cache.get s hash).2
  | insert (s : cache.State) (block : BlockWithParent) : Use s (cache.insert s block)
  | insertWithInvalidAncestor (s : cache.State) (head : B256) (block : BlockWithParent) :
      Use s (cache.insertWithInvalidAncestor s head block)

/-- Any number of uses. -/
abbrev Uses : cache.State → cache.State → Prop := Relation.ReflTransGen cache.Use

/-- Between the two states the block was recorded.  What the cache forgets later is its
own affair. -/
def Records (s s' : cache.State) (block : BlockWithParent) : Prop :=
  ∃ before, cache.Uses s before ∧ cache.Uses (cache.insert before block) s'

variable {cache}

theorem Records.later {s s' s'' : cache.State} {block : BlockWithParent}
    (h : cache.Records s s' block) (huses : cache.Uses s' s'') : cache.Records s s'' block := by
  obtain ⟨before, hbefore, hafter⟩ := h
  exact ⟨before, hbefore, hafter.trans huses⟩

theorem Records.earlier {s s' s'' : cache.State} {block : BlockWithParent}
    (h : cache.Records s' s'' block) (huses : cache.Uses s s') : cache.Records s s'' block := by
  obtain ⟨before, hbefore, hafter⟩ := h
  exact ⟨before, huses.trans hbefore, hafter⟩

end InvalidHeaderCache

namespace EngineTree

variable {tree tree' : EngineTree X}

private theorem latestValidHashFrom_uses (provider : ChainState X.Proof) (n : ℕ)
    (block : BlockWithParent) (cache : X.invalidHeaderCache.State) :
    X.invalidHeaderCache.Uses cache (latestValidHashFrom provider n block cache).2 := by
  induction n generalizing block cache with
  | zero => exact .refl
  | succ n ih =>
      have huse := InvalidHeaderCache.Use.get cache block.parent
      simp only [latestValidHashFrom]
      generalize X.invalidHeaderCache.get cache block.parent = found at huse
      rcases found with ⟨_ | next, cache'⟩
      · simp only
        split <;> exact .single huse
      · exact .head huse (ih next cache')

theorem latestValidHash_uses (tree : EngineTree X) (parentHash : B256) :
    X.invalidHeaderCache.Uses tree.invalidHeaders
      (tree.latestValidHashForInvalidPayload parentHash).2.invalidHeaders := by
  have huse := InvalidHeaderCache.Use.get tree.invalidHeaders parentHash
  unfold latestValidHashForInvalidPayload
  split
  · exact .refl
  · generalize X.invalidHeaderCache.get tree.invalidHeaders parentHash = found at huse
    match found, huse with
    | (none, cache), huse => exact .single huse
    | (some block, cache), huse => exact .head huse (latestValidHashFrom_uses _ _ _ _)

/-- **A block rejected for its own fault is recorded.** -/
theorem onInsertBlockError_records (tree : EngineTree X) (block : Block)
    {kind : InsertBlockErrorKind} {status : PayloadStatus}
    (h : (tree.onInsertBlockError block kind).1 = .ok status) :
    X.invalidHeaderCache.Records tree.invalidHeaders
      (tree.onInsertBlockError block kind).2.invalidHeaders block.blockWithParent := by
  unfold onInsertBlockError at h ⊢
  match X.ensureValidationError kind, h with
  | .ok validationErr, _ => exact ⟨_, latestValidHash_uses tree block.parentHash, .refl⟩

theorem onInsertBlockError_uses (tree : EngineTree X) (block : Block)
    (kind : InsertBlockErrorKind) :
    X.invalidHeaderCache.Uses tree.invalidHeaders
      (tree.onInsertBlockError block kind).2.invalidHeaders := by
  unfold onInsertBlockError
  match X.ensureValidationError kind with
  | .ok validationErr =>
      exact .tail (latestValidHash_uses tree block.parentHash) (.insert _ _)
  | .error fatal => exact .refl

/-! ## One descendant -/

/-- Inserting the block with this proof fails, and not through the block's own fault. -/
def FailsFatally (provider : ChainState X.Proof) (block : Block) (proof : X.Proof) : Prop :=
  ¬provider.Contains block.hash ∧ ∃ fatal,
    (∃ error, validateBlock X block = .error error ∧
      X.ensureValidationError (.consensus error) = .error fatal) ∨
    (validateBlock X block = .ok () ∧ ∃ parent error,
      provider.sealedHeader block.parentHash = some parent ∧
      X.verify provider block parent proof = .error error ∧
      X.ensureValidationError (insertErrorKind error) = .error fatal)

/-- A round is fatal exactly if its block fails fatally. -/
theorem connectBlock_ok_iff (tree : EngineTree X) (child : Block) (proof : X.Proof) :
    (tree.connectBlock child proof).1 = .ok () ↔ ¬FailsFatally tree.provider child proof := by
  have hcases := connectBlock_cases tree child proof
  generalize tree.connectBlock child proof = round at hcases
  -- an insertion that succeeds is not one that fails
  have hin : ∀ {result tree₁}, Inserts tree child (some proof) (.ok result) tree₁ →
      ¬FailsFatally tree.provider child proof := by
    rintro result tree₁ inserts ⟨hfresh, fatal,
      ⟨error, hinvalid, -⟩ | ⟨-, parent, error, hparent, hverify, -⟩⟩
    · cases inserts with
      | alreadySeen known => exact hfresh known
      | disconnected _ valid => cases valid.symm.trans hinvalid
      | noProof _ valid => cases valid.symm.trans hinvalid
      | verified _ valid => cases valid.symm.trans hinvalid
    · cases inserts with
      | alreadySeen known => exact hfresh known
      | disconnected _ _ orphan =>
          exact orphan (ChainState.contains_iff_sealedHeader.mpr ⟨parent, hparent⟩)
      | noProof _ _ _ unproved => cases unproved
      | verified _ _ connected proved passed =>
          obtain rfl := Option.some.inj proved
          obtain rfl := Option.some.inj (connected.symm.trans hparent)
          cases passed.symm.trans hverify
  -- one that fails does so fatally or not
  have hfail : ∀ {kind tree₁}, Inserts tree child (some proof) (.error kind) tree₁ →
      (FailsFatally tree.provider child proof ↔
        ∃ fatal, X.ensureValidationError kind = .error fatal) := by
    intro kind tree₁ inserts
    cases inserts with
    | @malformed error fresh failed =>
        constructor
        · rintro ⟨-, fatal, ⟨error', hinvalid, hfatal⟩ | ⟨hvalid, -⟩⟩
          · cases failed.symm.trans hinvalid
            exact ⟨fatal, hfatal⟩
          · cases failed.symm.trans hvalid
        · rintro ⟨fatal, hfatal⟩
          exact ⟨fresh, fatal, .inl ⟨error, failed, hfatal⟩⟩
    | @rejected parent proof' error fresh valid connected proved failed =>
        obtain rfl := Option.some.inj proved
        constructor
        · rintro ⟨-, fatal, ⟨error', hinvalid, -⟩ | ⟨-, parent', error', hparent, hverify, hfatal⟩⟩
          · cases valid.symm.trans hinvalid
          · obtain rfl := Option.some.inj (connected.symm.trans hparent)
            cases failed.symm.trans hverify
            exact ⟨fatal, hfatal⟩
        · rintro ⟨fatal, hfatal⟩
          exact ⟨fresh, fatal, .inr ⟨valid, parent, error, connected, failed, hfatal⟩⟩
  obtain ⟨result, tree'⟩ := round
  cases hcases with
  | inserted inserts => exact iff_of_true rfl (hin inserts)
  | syncTarget inserts => exact iff_of_true rfl (hin inserts)
  | failed inserts fails =>
      refine iff_of_true rfl fun hfatal => ?_
      obtain ⟨fatal, hfatal⟩ := (hfail inserts).mp hfatal
      cases fails with
      | invalid isValidation => cases isValidation.symm.trans hfatal
  | failedFatally inserts fails =>
      refine iff_of_false (fun hok => nomatch hok) (not_not.mpr ((hfail inserts).mpr ?_))
      cases fails with
      | fatal isFatal => exact ⟨_, isFatal⟩

/-- A round uses the cache, -/
theorem connectBlock_uses (tree : EngineTree X) (child : Block) (proof : X.Proof) :
    X.invalidHeaderCache.Uses tree.invalidHeaders
      (tree.connectBlock child proof).2.invalidHeaders := by
  have hinserts := insertBlock_cases tree child (some proof)
  unfold connectBlock
  generalize tree.insertBlock child (some proof) = inserted at hinserts
  obtain ⟨result, tree₁⟩ := inserted
  have hsame : tree₁.invalidHeaders = tree.invalidHeaders := by
    cases hinserts <;> rfl
  match result with
  | .ok result =>
      simp only
      split
      · rw [makeCanonical_invalidHeaders, hsame]
      · rw [hsame]
  | .error kind =>
      have huses := onInsertBlockError_uses tree₁ child kind
      rw [hsame] at huses
      simp only
      generalize tree₁.onInsertBlockError child kind = failed at huses
      match failed, huses with
      | (.ok status, tree₂), huses => exact huses
      | (.error fatal, tree₂), huses => exact huses

/-- The pair is stored, or recorded as invalid since, or buffered. -/
def Kept (start tree : EngineTree X) (pair : Block × X.Proof) : Prop :=
  tree.provider.Contains pair.1.hash ∨
    X.invalidHeaderCache.Records start.invalidHeaders tree.invalidHeaders
      pair.1.blockWithParent ∨
    tree.blockBuffer.Ready pair.1.hash pair.1 pair.2

/-- There is room for a number of blocks in the buffer. -/
def HasRoom (tree : EngineTree X) (n : ℕ) : Prop :=
  tree.blockBuffer.lru.keys.length + n ≤ tree.blockBuffer.lru.maxLength

/-- A block that is buffered with room is buffered with its proof, and the others
stay. -/
theorem ready_bufferWith_of_room {buffer : BlockBuffer X.Proof} {block : Block} {proof : X.Proof}
    (hroom : buffer.lru.keys.length < buffer.lru.maxLength) :
    (bufferWith buffer block (some proof)).Ready block.hash block proof ∧
      (∀ hash block' proof', hash ≠ block.hash → buffer.Ready hash block' proof' →
        (bufferWith buffer block (some proof)).Ready hash block' proof') ∧
      (bufferWith buffer block (some proof)).lru.keys.length ≤ buffer.lru.keys.length + 1 ∧
      (bufferWith buffer block (some proof)).lru.maxLength = buffer.lru.maxLength := by
  have hfiled : (∀ hash, (bufferWith buffer block (some proof)).blocks.get hash = _) ∧
      (∀ hash, (bufferWith buffer block (some proof)).proofs.get hash = _) ∧ _ :=
    bufferWith_of_room (.inr hroom)
  obtain ⟨hblocks, hproofs, hlru⟩ := hfiled
  refine ⟨⟨?_, ?_⟩, fun hash block' proof' hne hready => ⟨?_, ?_⟩, ?_, ?_⟩
  · rw [hblocks, if_pos rfl]
  · rw [hproofs, if_pos rfl]
  · rw [hblocks, if_neg hne]
    exact hready.1
  · rw [hproofs, if_neg hne]
    exact hready.2
  · rw [hlru, Lru.keys_getOrInsert (.inl hroom), List.length_append, List.length_singleton]
    exact Nat.add_le_add_right List.erase_sublist.length_le 1
  · rw [hlru]
    rfl

/-- What a round does to the buffer: nothing, or its block goes back. -/
theorem Connects.buffer {child : Block} {proof : X.Proof}
    {result : Except InsertBlockFatalError Unit} (h : Connects tree child proof result tree') :
    tree'.blockBuffer = tree.blockBuffer ∨
      tree'.blockBuffer = bufferWith tree.blockBuffer child (some proof) := by
  have hinserts : ∀ {result tree₁}, Inserts tree child (some proof) result tree₁ →
      tree₁.blockBuffer = tree.blockBuffer ∨
        tree₁.blockBuffer = bufferWith tree.blockBuffer child (some proof) := by
    intro result tree₁ inserts
    cases inserts with
    | disconnected => exact .inr rfl
    | noProof _ _ _ unproved => cases unproved
    | alreadySeen => exact .inl rfl
    | malformed => exact .inl rfl
    | rejected => exact .inl rfl
    | verified => exact .inl rfl
  cases h with
  | inserted inserts => exact hinserts inserts
  | syncTarget inserts =>
      rw [makeCanonical_blockBuffer]
      exact hinserts inserts
  | failed inserts fails
  | failedFatally inserts fails =>
      rw [fails.blockBuffer]
      exact hinserts inserts

/-- **A round keeps its own block**, unless it is fatal. -/
theorem connectBlock_kept (hroom : HasRoom tree 1) {child : Block} {proof : X.Proof}
    (hok : (tree.connectBlock child proof).1 = .ok ()) :
    Kept tree (tree.connectBlock child proof).2 (child, proof) := by
  have hinserts := insertBlock_cases tree child (some proof)
  unfold connectBlock at hok ⊢
  generalize tree.insertBlock child (some proof) = inserted at hinserts hok
  obtain ⟨result, tree₁⟩ := inserted
  match result, hinserts with
  | .ok result, hinserts =>
      have hkept : Kept tree tree₁ (child, proof) := by
        cases hinserts with
        | alreadySeen known => exact .inl known
        | verified => exact .inl (ChainState.contains_insertBlock.mpr (.inl rfl))
        | disconnected => exact .inr (.inr (ready_bufferWith_of_room hroom).1)
        | noProof _ _ _ unproved => cases unproved
      simp only
      split
      · unfold Kept
        rw [contains_makeCanonical, makeCanonical_invalidHeaders, makeCanonical_blockBuffer]
        exact hkept
      · exact hkept
  | .error kind, hinserts =>
      have hsame : tree₁ = tree := by
        cases hinserts <;> rfl
      subst hsame
      have hrecords : ∀ status, (tree₁.onInsertBlockError child kind).1 = .ok status →
          X.invalidHeaderCache.Records tree₁.invalidHeaders
            (tree₁.onInsertBlockError child kind).2.invalidHeaders child.blockWithParent :=
        fun _ h => onInsertBlockError_records tree₁ child h
      simp only at hok ⊢
      generalize tree₁.onInsertBlockError child kind = failed at hrecords hok
      match failed, hrecords, hok with
      | (.ok status, tree₂), hrecords, _ => exact .inr (.inl (hrecords status rfl))

/-! ## All descendants -/

theorem connectBlocks_append (before after : List (Block × X.Proof)) (tree : EngineTree X) :
    connectBlocks (before ++ after) tree
      = match connectBlocks before tree with
        | (.ok (), tree) => connectBlocks after tree
        | (.error fatal, tree) => (.error fatal, tree) := by
  induction before generalizing tree with
  | nil => rfl
  | cons pair before ih =>
      obtain ⟨child, proof⟩ := pair
      rw [List.cons_append, connectBlocks_cons_eq, connectBlocks_cons_eq]
      generalize tree.connectBlock child proof = round
      match round with
      | (.ok (), tree₁) => exact ih tree₁
      | (.error fatal, tree₁) => rfl

/-- The loop comes to the pair, and it fails fatally. -/
def FailsAfter (tree : EngineTree X) (before : List (Block × X.Proof)) (pair : Block × X.Proof) :
    Prop :=
  (connectBlocks before tree).1 = .ok () ∧
    FailsFatally (connectBlocks before tree).2.provider pair.1 pair.2

/-- **The loop ends without an error exactly if no pair fails fatally at its turn.** -/
theorem connectBlocks_ok_iff (blocks : List (Block × X.Proof)) (tree : EngineTree X) :
    (connectBlocks blocks tree).1 = .ok () ↔
      ∀ before pair after, blocks = before ++ pair :: after → ¬FailsAfter tree before pair := by
  induction blocks generalizing tree with
  | nil => exact iff_of_true rfl fun before pair after heq => by simp at heq
  | cons first blocks ih =>
      obtain ⟨child, proof⟩ := first
      have hround := connectBlock_ok_iff tree child proof
      have hcons : ∀ blocks', connectBlocks ((child, proof) :: blocks') tree = _ :=
        connectBlocks_cons_eq tree child proof
      generalize tree.connectBlock child proof = round at hround hcons
      match round, hround, hcons with
      | (.error fatal, tree₁), hround, hcons =>
          rw [hcons]
          refine iff_of_false (fun h => nomatch h) fun hnone => ?_
          exact hnone [] (child, proof) blocks rfl
            ⟨rfl, not_not.mp fun hsound => nomatch hround.mpr hsound⟩
      | (.ok (), tree₁), hround, hcons =>
          rw [hcons]
          refine (ih tree₁).trans ⟨fun hnone before pair after heq => ?_,
            fun hnone before pair after heq hfails => ?_⟩
          · match before, heq with
            | [], heq =>
                obtain ⟨rfl, -⟩ := List.cons.inj heq
                exact fun hfails => hround.mp rfl hfails.2
            | _ :: before, heq =>
                obtain ⟨rfl, rfl⟩ := List.cons.inj heq
                intro hfails
                unfold FailsAfter at hfails
                rw [hcons] at hfails
                exact hnone before pair after rfl hfails
          · refine hnone ((child, proof) :: before) pair after (by rw [heq]; rfl) ?_
            unfold FailsAfter
            rw [hcons]
            exact hfails

/-- **The invariant of the loop**: of the pairs taken out, those that are done are kept,
and there is room in the buffer for the others. -/
structure Settling (start : EngineTree X) (taken rest : List (Block × X.Proof))
    (tree : EngineTree X) : Prop where
  room : HasRoom tree rest.length
  uses : X.invalidHeaderCache.Uses start.invalidHeaders tree.invalidHeaders
  done : ∃ done, taken = done ++ rest ∧ ∀ pair ∈ done, Kept start tree pair

/-- One round of the loop. -/
theorem Settling.round {start : EngineTree X} {taken rest : List (Block × X.Proof)} {child : Block}
    {proof : X.Proof} (hnodup : (BlockBuffer.hashes taken).Nodup)
    (h : Settling start taken ((child, proof) :: rest) tree)
    (hok : (tree.connectBlock child proof).1 = .ok ()) :
    Settling start taken rest (tree.connectBlock child proof).2 := by
  have hconnects := connectBlock_cases tree child proof
  have huses := connectBlock_uses tree child proof
  have hroom : HasRoom tree 1 := by
    have := h.room
    unfold HasRoom at this ⊢
    rw [List.length_cons] at this
    omega
  have hown := connectBlock_kept hroom hok
  generalize (tree.connectBlock child proof).2 = tree' at hconnects huses hown ⊢
  obtain ⟨done, rfl, hdone⟩ := h.done
  have hput : _ ∧ _ ∧ (bufferWith tree.blockBuffer child (some proof)).lru.keys.length ≤ _ ∧ _ :=
    ready_bufferWith_of_room hroom
  refine ⟨?_, h.uses.trans huses, done ++ [(child, proof)], by simp, fun pair hmem => ?_⟩
  · have hbefore := h.room
    unfold HasRoom at hbefore ⊢
    rw [List.length_cons] at hbefore
    rcases hconnects.buffer with hbuffer | hbuffer
    · rw [hbuffer]
      omega
    · rw [hbuffer, hput.2.2.2]
      have := hput.2.2.1
      omega
  · rcases List.mem_append.mp hmem with hmem | hmem
    · -- the block of this round is another one
      have hne : pair.1.hash ≠ child.hash := by
        unfold BlockBuffer.hashes at hnodup
        rw [List.map_append, List.map_cons] at hnodup
        intro heq
        exact (List.nodup_append.mp hnodup).2.2 _ (List.mem_map_of_mem hmem) _ List.mem_cons_self
          heq
      rcases hdone pair hmem with hstored | hrecords | hready
      · exact .inl (hconnects.contains hstored)
      · exact .inr (.inl (hrecords.later huses))
      · refine .inr (.inr ?_)
        rcases hconnects.buffer with hbuffer | hbuffer
        · rwa [hbuffer]
        · rw [hbuffer]
          exact hput.2.1 _ _ _ hne hready
    · rw [List.mem_singleton.mp hmem]
      rcases hown with hstored | hrecords | hready
      · exact .inl hstored
      · exact .inr (.inl (hrecords.earlier h.uses))
      · exact .inr (.inr hready)

/-- Where the taken pairs left the buffer, there is room for them. -/
theorem hasRoom_of_removed (σ : SetOrder B256) (hwellFormed : tree.blockBuffer.WellFormed)
    (parentHash : B256) :
    HasRoom { tree with
        blockBuffer := (tree.blockBuffer.removeBlockWithChildren σ parentHash).2 }
      (tree.blockBuffer.removeBlockWithChildren σ parentHash).1.length := by
  have hremoved := BlockBuffer.removeBlockWithChildren_spec σ parentHash hwellFormed
  unfold HasRoom
  simp only
  generalize tree.blockBuffer.removeBlockWithChildren σ parentHash = removed at hremoved
  obtain ⟨pairs, buffer⟩ := removed
  simp only at hremoved ⊢
  rw [hremoved.sub.lruLimit]
  refine Nat.le_trans ?_ hwellFormed.bounded
  -- the keys that are left and those that were taken are different keys of before
  have hlength : pairs.length = (BlockBuffer.hashes pairs).length := by
    unfold BlockBuffer.hashes
    rw [List.length_map]
  rw [hlength, ← List.length_append]
  refine (List.Nodup.subperm ?_ ?_).length_le
  · refine List.nodup_append.mpr ⟨buffer.lru.nodup, hremoved.nodup,
      fun hash hleft hash' htaken => ?_⟩
    rintro rfl
    obtain ⟨block, hget⟩ := (hremoved.wellFormed.tracked hash).mp hleft
    rw [hremoved.blocks, if_pos htaken] at hget
    cases hget
  · intro hash hmem
    rw [hwellFormed.tracked]
    rcases List.mem_append.mp hmem with hleft | htaken
    · obtain ⟨block, hget⟩ := (hremoved.wellFormed.tracked hash).mp hleft
      exact ⟨block, hremoved.sub.blocks _ _ hget⟩
    · obtain ⟨pair, hpair, rfl⟩ := List.mem_map.mp htaken
      exact ⟨pair.1, (hremoved.ready pair hpair).1⟩

/-- The tree without the descendants of a hash, which are to be inserted. -/
def emptied (σ : SetOrder B256) (tree : EngineTree X) (parentHash : B256) : EngineTree X :=
  { tree with blockBuffer := (tree.blockBuffer.removeBlockWithChildren σ parentHash).2 }

/-- **No descendant fails fatally** when its turn comes. -/
def NoneFails (σ : SetOrder B256) (tree : EngineTree X) (parentHash : B256) : Prop :=
  ∀ before pair after,
    (tree.blockBuffer.removeBlockWithChildren σ parentHash).1 = before ++ pair :: after →
      ¬FailsAfter (tree.emptied σ parentHash) before pair

/-- **Nothing is lost**: every pair taken out of the buffer that did not fail fatally is
stored, recorded as invalid, or back in the buffer. -/
def Conserves (σ : SetOrder B256) (tree : EngineTree X) (parentHash : B256)
    (tree' : EngineTree X) : Prop :=
  ∀ before pair after,
    (tree.blockBuffer.removeBlockWithChildren σ parentHash).1 = before ++ pair :: after →
      ¬FailsAfter (tree.emptied σ parentHash) before pair → Kept tree tree' pair

theorem tryConnectBufferedBlocks_ok_iff (σ : SetOrder B256) (tree : EngineTree X)
    (parentHash : B256) :
    (tryConnectBufferedBlocks σ tree parentHash).1 = .ok () ↔ NoneFails σ tree parentHash :=
  connectBlocks_ok_iff _ _

/-- **Every round of the loop.** -/
theorem Settling.all {start : EngineTree X} {taken : List (Block × X.Proof)}
    (hnodup : (BlockBuffer.hashes taken).Nodup) {rest : List (Block × X.Proof)}
    (h : Settling start taken rest tree) (hok : (connectBlocks rest tree).1 = .ok ()) :
    Settling start taken [] (connectBlocks rest tree).2 := by
  induction rest generalizing tree with
  | nil => exact h
  | cons pair rest ih =>
      obtain ⟨child, proof⟩ := pair
      have hround := h.round hnodup
      rw [connectBlocks_cons_eq] at hok ⊢
      generalize tree.connectBlock child proof = round at hok hround
      match round, hok, hround with
      | (.ok (), tree₁), hok, hround => exact ih (hround rfl) hok

/-- **Without a fatal failure nothing is lost.** -/
theorem tryConnectBufferedBlocks_conserves (σ : SetOrder B256)
    (hwellFormed : tree.blockBuffer.WellFormed) {parentHash : B256}
    (hnone : NoneFails σ tree parentHash) :
    Conserves σ tree parentHash (tryConnectBufferedBlocks σ tree parentHash).2 := by
  have hremoved := BlockBuffer.removeBlockWithChildren_spec σ parentHash hwellFormed
  have hstart : Settling tree (tree.blockBuffer.removeBlockWithChildren σ parentHash).1
      (tree.blockBuffer.removeBlockWithChildren σ parentHash).1 (tree.emptied σ parentHash) :=
    ⟨hasRoom_of_removed σ hwellFormed parentHash, .refl, [], rfl, nofun⟩
  have hend :=
    hstart.all hremoved.nodup ((tryConnectBufferedBlocks_ok_iff σ tree parentHash).mpr hnone)
  obtain ⟨done, htaken, hkept⟩ := hend.done
  intro before pair after heq _
  refine hkept pair ?_
  rw [List.append_nil] at htaken
  rw [← htaken, heq]
  simp

/-! ## The handlers -/

/-- A handler has imported its block: the block was new and is verified, and what it
answers depends on the descendants. -/
inductive ImportsNew (σ : SetOrder B256) (tree : EngineTree X) (block : Block) :
    EngineTree X → Except InsertBlockFatalError (TreeOutcome PayloadStatus) × EngineTree X → Prop
  | payload {payload maybeProof tree₁ imported}
      (formed : X.ensureWellFormedPayload payload = .ok block)
      (clear : tree.checkInvalidAncestorWithHead (tree.payloadCheck block) block.hash
        = (none, tree₁))
      (valid : tree₁.insertBlock block maybeProof = (.ok (.inserted .valid), imported)) :
      ImportsNew σ tree block imported (tree.onNewPayload σ payload maybeProof)
  | download {proof tree₁ imported}
      (clear : tree.checkInvalidAncestorWithHead (tree.lowestBufferedAncestorOr block.hash)
        block.hash = (none, tree₁))
      (valid : tree₁.insertBlock block (some proof) = (.ok (.inserted .valid), imported)) :
      ImportsNew σ tree block imported (tree.onDownloadedBlock σ block proof)

/-- A downloaded block is imported if it is not known to be invalid and is verified. -/
theorem ImportsNew.of_checks (σ : SetOrder B256) {block : Block} {proof : X.Proof}
    (hclear : (tree.checkInvalidAncestorWithHead (tree.lowestBufferedAncestorOr block.hash)
      block.hash).1.isNone = true)
    (hvalid : ((tree.checkInvalidAncestorWithHead (tree.lowestBufferedAncestorOr block.hash)
      block.hash).2.insertBlock block (some proof)).1.toOption = some (.inserted .valid)) :
    ImportsNew σ tree block ((tree.checkInvalidAncestorWithHead
        (tree.lowestBufferedAncestorOr block.hash) block.hash).2.insertBlock block (some proof)).2
      (tree.onDownloadedBlock σ block proof) := by
  match hcheck : tree.checkInvalidAncestorWithHead (tree.lowestBufferedAncestorOr block.hash)
      block.hash with
  | (some status, tree₁) =>
      rw [hcheck] at hclear
      cases hclear
  | (none, tree₁) =>
      rw [hcheck] at hvalid
      simp only at hvalid ⊢
      match hinsert : tree₁.insertBlock block (some proof) with
      | (.error kind, imported) =>
          rw [hinsert] at hvalid
          cases hvalid
      | (.ok result, imported) =>
          rw [hinsert] at hvalid
          obtain rfl := Option.some.inj hvalid
          exact .download hcheck hinsert

/-- The answer follows the descendants, and the buffer is as before. -/
theorem ImportsNew.answers {σ : SetOrder B256} {block : Block} {imported : EngineTree X}
    {answer : Except InsertBlockFatalError (TreeOutcome PayloadStatus) × EngineTree X}
    (h : ImportsNew σ tree block imported answer) :
    AnswersConnection σ imported block.hash answer ∧ imported.blockBuffer = tree.blockBuffer := by
  have hbuffer : ∀ {check tree₁ maybeProof},
      tree.checkInvalidAncestorWithHead check block.hash = (none, tree₁) →
      tree₁.insertBlock block maybeProof = (.ok (.inserted .valid), imported) →
        imported.blockBuffer = tree.blockBuffer := by
    intro check tree₁ maybeProof hclear hvalid
    have hchecks := checkInvalidAncestorWithHead_cases tree check block.hash
    have hinserts := insertBlock_cases tree₁ block maybeProof
    rw [hclear] at hchecks
    rw [hvalid] at hinserts
    generalize hresult : (.ok (.inserted .valid) : Except InsertBlockErrorKind InsertPayloadOk)
      = result at hinserts
    cases hinserts with
    | verified => exact hchecks.blockBuffer
    | _ => cases hresult
  cases h with
  | payload formed clear valid =>
      exact ⟨onNewPayload_of_valid σ formed clear valid, hbuffer clear valid⟩
  | download clear valid =>
      exact ⟨onDownloadedBlock_of_valid σ clear valid, hbuffer clear valid⟩

end EngineTree

open EngineTree

namespace SmallWorld

open ConsensusEngine

/-- A verifier that cannot use an incomplete proof: its witness lacks a trie node. -/
def verifyWithWitness (provider : ChainState Bool) (block : Block) (parent : SealedHeader)
    (proof : Bool) : Except VerifierError Unit :=
  if proof then verify provider block parent proof
  else .error (.provider (.trieWitnessError "missing trie node"))

/-- The external parts of a world with this verifier. -/
def unusableWitness : Externals := { externals with verify := verifyWithWitness }

instance : DecidableEq unusableWitness.Proof := inferInstanceAs (DecidableEq Bool)

/-- A feed of that world. -/
def unusableWitnessFeed : Feed unusableWitness where
  preimage := forkFeed.preimage
  preimage_keyed := forkFeed.preimage_keyed
  blocks := forkFeed.blocks
  proofs := forkFeed.proofs
  finalized := forkFeed.finalized
  states := forkFeed.states
  blocks_conform := forkFeed.blocks_conform
  finalized_conform := forkFeed.finalized_conform
  ancestors_conform := forkFeed.ancestors_conform

/-- Blocks 3 and 4 arrive before block 2, block 3 with an unusable proof. -/
def descendantsFirst : List (Processed unusableWitness.Proof) :=
  [.outcome (.fullBlock (block 3 2 2)), .outcome (.proof 3 false),
    .outcome (.fullBlock (block 4 3 3)), .outcome (.proof 4 true)]

/-- What was recorded in the cache of the small world is still there. -/
theorem cached_of_records {s s' : cache.State} {block : BlockWithParent}
    (h : cache.Records s s' block) : cache.Cached s' block.block.hash := by
  obtain ⟨before, -, hafter⟩ := h
  refine Option.isSome_iff_exists.mp ?_
  induction hafter with
  | refl => exact isSome_remember.mpr (.inl rfl)
  | tail _ use ih =>
      match use with
      | .get _ _ => exact ih
      | .insert _ _ => exact isSome_remember.mpr (.inr ih)
      | .insertWithInvalidAncestor _ _ _ => exact isSome_remember.mpr (.inr ih)

/-- The blocks that block 2 releases, with their proofs. -/
def released : List (Block × unusableWitness.Proof) := [(block 3 2 2, false), (block 4 3 3, true)]

end SmallWorld

end ZkRess
