import ZkRess.Engine.BufferOperations
import ZkRess.Engine.ChainUpdate
import ZkRess.Engine.Connection
import ZkRess.Engine.Downloads

/-!
# What becomes of a pending block

Handling a block moves other blocks about: buffered descendants are inserted,
rejected, or put back, and a block that is buffered may push the oldest one out.
Seen from one hash there are only three outcomes (`Fate`): nothing changed; block
and proof have both left the buffer; or both wait in it for a parent that is not
stored.  The handled block itself may also be buffered without a proof (`Own`).
-/

namespace ZkRess

open Foundation

variable {X : Externals} {feed : Feed X}

namespace EngineTree

variable {tree tree' tree'' : EngineTree X} {hash : B256}

/-- **What becomes of a hash** while another block is handled. -/
inductive Fate (tree tree' : EngineTree X) (hash : B256) : Prop
  | kept (blocks : tree'.blockBuffer.blocks.get hash = tree.blockBuffer.blocks.get hash)
      (proofs : tree'.blockBuffer.proofs.get hash = tree.blockBuffer.proofs.get hash)
      (stored : tree'.provider.Contains hash ↔ tree.provider.Contains hash)
  | left (blocks : tree'.blockBuffer.blocks.get hash = none)
      (proofs : tree'.blockBuffer.proofs.get hash = none)
      (stored : tree.provider.Contains hash → tree'.provider.Contains hash)
  | waiting {block proof} (ready : tree'.blockBuffer.Ready hash block proof)
      (fresh : ¬tree.provider.Contains hash) (fresh' : ¬tree'.provider.Contains hash)

namespace Fate

theorem refl (tree : EngineTree X) (hash : B256) : Fate tree tree hash := .kept rfl rfl Iff.rfl

/-- Nothing but what is not buffered or stored changed. -/
theorem of_eq (hbuffer : tree'.blockBuffer = tree.blockBuffer)
    (hprovider : tree'.provider.Contains hash ↔ tree.provider.Contains hash) :
    Fate tree tree' hash :=
  .kept (by rw [hbuffer]) (by rw [hbuffer]) hprovider

theorem trans (h : Fate tree tree' hash) (h' : Fate tree' tree'' hash) : Fate tree tree'' hash := by
  cases h' with
  | kept block' proof' stored' =>
      cases h with
      | kept block proof stored =>
          exact .kept (block'.trans block) (proof'.trans proof) (stored'.trans stored)
      | left block proof stored =>
          exact .left (block'.trans block) (proof'.trans proof) fun h => stored'.mpr (stored h)
      | waiting ready fresh fresh' =>
          exact .waiting ⟨block'.trans ready.1, proof'.trans ready.2⟩ fresh
            fun h => fresh' (stored'.mp h)
  | left block' proof' stored' =>
      refine .left block' proof' fun hstored => stored' ?_
      cases h with
      | kept _ _ stored => exact stored.mpr hstored
      | left _ _ stored => exact stored hstored
      | waiting _ fresh => exact absurd hstored fresh
  | waiting ready' fresh fresh' =>
      refine .waiting ready' (fun hstored => fresh ?_) fresh'
      cases h with
      | kept _ _ stored => exact stored.mpr hstored
      | left _ _ stored => exact stored hstored
      | waiting _ fresh => exact absurd hstored fresh

end Fate

/-- **What becomes of the handled block**, whose proof is not buffered before. -/
inductive Own (tree tree' : EngineTree X) (block : Block) (maybeProof : Option X.Proof) : Prop
  /-- It is refused, and nothing changed for it. -/
  | refused (blocks : tree'.blockBuffer.blocks.get block.hash
        = tree.blockBuffer.blocks.get block.hash)
      (proofs : tree'.blockBuffer.proofs.get block.hash = none)
      (stored : tree'.provider.Contains block.hash ↔ tree.provider.Contains block.hash)
  /-- It is stored; a buffered copy without proof may stay. -/
  | stored (stored : tree'.provider.Contains block.hash)
      (blocks : tree'.blockBuffer.blocks.get block.hash = none ∨
        tree'.blockBuffer.blocks.get block.hash = tree.blockBuffer.blocks.get block.hash)
      (proofs : tree'.blockBuffer.proofs.get block.hash = none)
  /-- It waits in the buffer, with its proof if it came with one. -/
  | buffered (blocks : tree'.blockBuffer.blocks.get block.hash = some block)
      (proofs : tree'.blockBuffer.proofs.get block.hash = maybeProof)
      (fresh : ¬tree'.provider.Contains block.hash)

/-- A block whose own fate is known, and that was not buffered before. -/
theorem Own.fate {block : Block} {proof : X.Proof} (h : Own tree tree' block (some proof))
    (hblock : tree.blockBuffer.blocks.get block.hash = none)
    (hproof : tree.blockBuffer.proofs.get block.hash = none)
    (hstored : tree.provider.Contains block.hash → tree'.provider.Contains block.hash) :
    Fate tree tree' block.hash := by
  cases h with
  | refused blocks proofs stored => exact .kept blocks (proofs.trans hproof.symm) stored
  | stored stored blocks proofs =>
      exact .left (blocks.elim id fun heq => heq.trans hblock) proofs fun _ => stored
  | buffered blocks proofs fresh =>
      exact .waiting ⟨blocks, proofs⟩ (fun h => fresh (hstored h)) fresh

/-! ## One insertion -/

/-- An insertion leaves another hash where it is, or its block is evicted with its
proof. -/
structure Undisturbed (tree tree' : EngineTree X) (hash : B256) : Prop where
  buffer : (tree'.blockBuffer.blocks.get hash = tree.blockBuffer.blocks.get hash ∧
      tree'.blockBuffer.proofs.get hash = tree.blockBuffer.proofs.get hash) ∨
    (tree'.blockBuffer.blocks.get hash = none ∧ tree'.blockBuffer.proofs.get hash = none)
  stored : tree'.provider.Contains hash ↔ tree.provider.Contains hash

theorem Undisturbed.fate (h : Undisturbed tree tree' hash) : Fate tree tree' hash := by
  rcases h.buffer with ⟨hblock, hproof⟩ | ⟨hblock, hproof⟩
  · exact .kept hblock hproof h.stored
  · exact .left hblock hproof h.stored.mpr

theorem Undisturbed.refl (tree : EngineTree X) (hash : B256) : Undisturbed tree tree hash :=
  ⟨.inl ⟨rfl, rfl⟩, Iff.rfl⟩

theorem undisturbed_of_insertBlock {buffer : BlockBuffer X.Proof} {unlisted unnumbered : Set B256}
    (hagrees : buffer.Agrees unlisted unnumbered) (block : Block)
    (hblocks : buffer.blocks = tree.blockBuffer.blocks)
    (hproofs : buffer.proofs.get hash = tree.blockBuffer.proofs.get hash)
    (hbuffer : tree'.blockBuffer = buffer.insertBlock block)
    (hprovider : tree'.provider = tree.provider) (hne : hash ≠ block.hash) :
    Undisturbed tree tree' hash := by
  obtain ⟨evicted, -, -, -, hblock, hproof⟩ := BlockBuffer.get_insertBlock hagrees block
  refine ⟨?_, by rw [hprovider]⟩
  rw [hbuffer, hblock, hproof, if_neg hne]
  by_cases hevicted : evicted = some hash
  · rw [if_pos hevicted, if_pos hevicted]
    exact .inr ⟨rfl, rfl⟩
  · rw [if_neg hevicted, if_neg hevicted, hblocks]
    exact .inl ⟨rfl, hproofs⟩

theorem Inserts.undisturbed {block : Block} {maybeProof : Option X.Proof}
    {result : Except InsertBlockErrorKind InsertPayloadOk}
    (h : Inserts tree block maybeProof result tree') (hfed : FedBy feed tree.blockBuffer)
    (hproof : ∀ proof, maybeProof = some proof → proof ∈ feed.proofs block.hash)
    (hne : hash ≠ block.hash) : Undisturbed tree tree' hash := by
  cases h with
  | alreadySeen | malformed | rejected => exact .refl tree hash
  | verified => exact ⟨.inl ⟨rfl, rfl⟩, ChainState.contains_insertBlock.trans (or_iff_right hne)⟩
  | noProof => exact undisturbed_of_insertBlock hfed.wellFormed block rfl rfl rfl rfl hne
  | disconnected =>
      cases maybeProof with
      | none => exact undisturbed_of_insertBlock hfed.wellFormed block rfl rfl rfl rfl hne
      | some proof =>
          exact undisturbed_of_insertBlock (hfed.insertProof (hproof proof rfl)).agrees block rfl
            (FiniteMap.get_insert_of_ne _ _ hne) rfl rfl hne

/-- The inserted block is in the buffer, with the proof that was there. -/
theorem get_insertBlock_self {P : Type} {buffer : BlockBuffer P}
    {unlisted unnumbered : Set B256} (hagrees : buffer.Agrees unlisted unnumbered) (block : Block) :
    (buffer.insertBlock block).blocks.get block.hash = some block ∧
      (buffer.insertBlock block).proofs.get block.hash = buffer.proofs.get block.hash := by
  obtain ⟨evicted, -, hkept, -, hblocks, hproofs⟩ := BlockBuffer.get_insertBlock hagrees block
  exact ⟨(hblocks _).trans (if_pos rfl), (hproofs _).trans (if_neg hkept)⟩

theorem Inserts.own {block : Block} {maybeProof : Option X.Proof}
    {result : Except InsertBlockErrorKind InsertPayloadOk}
    (h : Inserts tree block maybeProof result tree') (hfed : FedBy feed tree.blockBuffer)
    (hproof : ∀ proof, maybeProof = some proof → proof ∈ feed.proofs block.hash)
    (hnone : tree.blockBuffer.proofs.get block.hash = none) : Own tree tree' block maybeProof := by
  cases h with
  | alreadySeen known => exact .stored known (.inr rfl) hnone
  | malformed | rejected => exact .refused rfl hnone Iff.rfl
  | verified => exact .stored (ChainState.contains_insertBlock.mpr (.inl rfl)) (.inr rfl) hnone
  | noProof fresh _ _ unproved =>
      obtain ⟨hblock, hget⟩ := get_insertBlock_self hfed.wellFormed block
      exact .buffered hblock (hget.trans (hnone.trans unproved.symm)) fresh
  | disconnected fresh =>
      cases maybeProof with
      | none =>
          obtain ⟨hblock, hget⟩ := get_insertBlock_self hfed.wellFormed block
          exact .buffered hblock (hget.trans hnone) fresh
      | some proof =>
          obtain ⟨hblock, hget⟩ := get_insertBlock_self
            (hfed.insertProof (hproof proof rfl)).agrees block
          exact .buffered hblock (hget.trans (FiniteMap.get_insert_self _ _ _)) fresh

/-! ## The descendants -/

/-- **The invariant of the loop**: the blocks that are left are not buffered, and
since the start every hash has had one of the fates. -/
structure Connecting (feed : Feed X) (initial : EngineTree X) (rest : List (Block × X.Proof))
    (tree : EngineTree X) : Prop where
  fed : FedBy feed tree.blockBuffer
  pending : ∀ pair ∈ rest, pair.1 ∈ feed.blocks ∧ pair.2 ∈ feed.proofs pair.1.hash
  nodup : (BlockBuffer.hashes rest).Nodup
  gone : ∀ pair ∈ rest, tree.blockBuffer.blocks.get pair.1.hash = none ∧
    tree.blockBuffer.proofs.get pair.1.hash = none
  fates : ∀ hash, Fate initial tree hash

/-- One block of the descendants is inserted; what follows touches neither buffer
nor stored blocks. -/
theorem Connects.insertion {child : Block} {proof : X.Proof}
    {result : Except InsertBlockFatalError Unit} (h : Connects tree child proof result tree') :
    ∃ r tree₁, Inserts tree child (some proof) r tree₁ ∧ tree'.blockBuffer = tree₁.blockBuffer ∧
      ∀ hash, tree'.provider.Contains hash ↔ tree₁.provider.Contains hash := by
  cases h with
  | inserted inserts => exact ⟨_, _, inserts, rfl, fun _ => Iff.rfl⟩
  | syncTarget inserts =>
      exact ⟨_, _, inserts, makeCanonical_blockBuffer _ _, fun _ => contains_makeCanonical⟩
  | failed inserts fails | failedFatally inserts fails =>
      exact ⟨_, _, inserts, fails.blockBuffer, fun _ => by rw [fails.provider]⟩

theorem Connects.connecting {initial : EngineTree X} {child : Block} {proof : X.Proof}
    {rest : List (Block × X.Proof)} {result : Except InsertBlockFatalError Unit}
    (h : Connecting feed initial ((child, proof) :: rest) tree)
    (hconnects : Connects tree child proof result tree') :
    Connecting feed initial rest tree' := by
  obtain ⟨hchild, hproof⟩ := h.pending (child, proof) List.mem_cons_self
  obtain ⟨hblock, hget⟩ := h.gone (child, proof) List.mem_cons_self
  have hnodup := h.nodup
  rw [BlockBuffer.hashes_cons, List.nodup_cons] at hnodup
  have hproof' : ∀ proof', some proof = some proof' → proof' ∈ feed.proofs child.hash := by
    rintro proof' ⟨⟩
    exact hproof
  obtain ⟨r, tree₁, inserts, hbuffer, hstored⟩ := hconnects.insertion
  have hafter : ∀ hash, Fate tree₁ tree' hash := fun hash => .of_eq hbuffer (hstored hash)
  have hothers : ∀ hash, hash ≠ child.hash → Undisturbed tree tree₁ hash :=
    fun hash hne => inserts.undisturbed h.fed hproof' hne
  refine ⟨(hconnects.takes h.fed hchild hproof).fed,
    fun pair hpair => h.pending pair (List.mem_cons_of_mem _ hpair), hnodup.2, fun pair hpair => ?_,
    fun hash => ?_⟩
  · -- a later block has another hash
    have hne : pair.1.hash ≠ child.hash := fun heq => hnodup.1 (List.mem_map.mpr ⟨pair, hpair, heq⟩)
    obtain ⟨hgone, hgone'⟩ := h.gone pair (List.mem_cons_of_mem _ hpair)
    rw [hbuffer]
    rcases (hothers _ hne).buffer with ⟨hsame, hsame'⟩ | hevicted
    · exact ⟨hsame.trans hgone, hsame'.trans hgone'⟩
    · exact hevicted
  · refine (h.fates hash).trans (.trans ?_ (hafter hash))
    by_cases heq : hash = child.hash
    · rw [heq]
      exact (inserts.own h.fed hproof' hget).fate hblock hget inserts.contains
    · exact (hothers hash heq).fate

/-- **The descendants** of a stored block, taken out of the buffer and connected. -/
theorem tryConnectBufferedBlocks_fate (σ : SetOrder B256) (hfed : FedBy feed tree.blockBuffer)
    {parentHash : B256} {result : Except InsertBlockFatalError Unit}
    (h : tryConnectBufferedBlocks σ tree parentHash = (result, tree')) (hash : B256) :
    Fate tree tree' hash := by
  have hremoved := BlockBuffer.removeBlockWithChildren_spec σ parentHash hfed.wellFormed
  have hstart : Connecting feed tree (tree.blockBuffer.removeBlockWithChildren σ parentHash).1
      { tree with
        blockBuffer := (tree.blockBuffer.removeBlockWithChildren σ parentHash).2 } := by
    refine ⟨hfed.of_sub hremoved.wellFormed hremoved.sub, fun pair hpair => ?_, hremoved.nodup,
      fun pair hpair => ?_, fun hash => ?_⟩
    · obtain ⟨hblock, -, hproof⟩ := hfed.ready_fed (hremoved.ready pair hpair)
      exact ⟨hblock, hproof⟩
    · have hmem : pair.1.hash ∈ BlockBuffer.hashes
          (tree.blockBuffer.removeBlockWithChildren σ parentHash).1 :=
        List.mem_map.mpr ⟨pair, hpair, rfl⟩
      exact ⟨(hremoved.blocks _).trans (if_pos hmem), (hremoved.proofs _).trans (if_pos hmem)⟩
    · by_cases hmem : hash ∈ BlockBuffer.hashes
        (tree.blockBuffer.removeBlockWithChildren σ parentHash).1
      · exact .left ((hremoved.blocks _).trans (if_pos hmem))
          ((hremoved.proofs _).trans (if_pos hmem)) id
      · exact .kept ((hremoved.blocks _).trans (if_neg hmem))
          ((hremoved.proofs _).trans (if_neg hmem)) Iff.rfl
  obtain ⟨_, hconnected, -⟩ := connectBlocks_preserves (Connecting feed tree)
    (fun h hconnects => hconnects.connecting h) _ hstart
  rw [tryConnectBufferedBlocks_eq] at h
  rw [h] at hconnected
  exact hconnected.fates hash

/-! ## The handlers -/

section Handlers

variable {σ : SetOrder B256} {check : B256} {block : Block} {maybeProof : Option X.Proof}
  {result : Except InsertBlockFatalError (TreeOutcome PayloadStatus)}
  (h : Handles σ tree check block maybeProof result tree') (hfed : FedBy feed tree.blockBuffer)
  (hblock : block ∈ feed.blocks)
  (hproof : ∀ proof, maybeProof = some proof → proof ∈ feed.proofs block.hash)

include h hfed hblock hproof

/-- **The other blocks** while one is handled. -/
theorem Handles.fate (hne : hash ≠ block.hash) : Fate tree tree' hash := by
  have hinsert : ∀ {status tree₁ tree₂ r}, Checks tree check block.hash status tree₁ →
      Inserts tree₁ block maybeProof r tree₂ → Fate tree tree₂ hash := by
    intro status tree₁ tree₂ r checks inserts
    have hchecked : Fate tree tree₁ hash := .of_eq checks.blockBuffer (by rw [checks.provider])
    exact hchecked.trans
      (inserts.undisturbed (checks.blockBuffer ▸ hfed) hproof hne).fate
  have hconnect : ∀ {tree₁ tree₂ tree₃ r c}, Checks tree check block.hash none tree₁ →
      Inserts tree₁ block maybeProof (.ok r) tree₂ →
      tryConnectBufferedBlocks σ tree₂ block.hash = (c, tree₃) → Fate tree tree₃ hash := by
    intro tree₁ tree₂ tree₃ r c checks inserts connects
    have hfed₂ := (inserts.takes (checks.blockBuffer ▸ hfed) hblock hproof).fed
    exact (hinsert checks inserts).trans (tryConnectBufferedBlocks_fate σ hfed₂ connects hash)
  have hfail : ∀ {tree₁ tree₂ tree₃ kind r}, Checks tree check block.hash none tree₁ →
      Inserts tree₁ block maybeProof (.error kind) tree₂ → Fails tree₂ block kind r tree₃ →
      Fate tree tree₃ hash := by
    intro tree₁ tree₂ tree₃ kind r checks inserts fails
    exact (hinsert checks inserts).trans (.of_eq fails.blockBuffer (by rw [fails.provider]))
  cases h with
  | invalidAncestor checks => exact .of_eq checks.blockBuffer (by rw [checks.provider])
  | connected checks inserts _ connects => exact hconnect checks inserts connects
  | connectFailed checks inserts _ connects => exact hconnect checks inserts connects
  | seen checks inserts | disconnected checks inserts | noProof checks inserts =>
      exact hinsert checks inserts
  | failed checks inserts fails | failedFatally checks inserts fails =>
      exact hfail checks inserts fails

/-- **The handled block**, if its proof is not buffered. -/
theorem Handles.own (hnone : tree.blockBuffer.proofs.get block.hash = none) :
    Own tree tree' block maybeProof := by
  have hinsert : ∀ {status tree₁ tree₂ r}, Checks tree check block.hash status tree₁ →
      Inserts tree₁ block maybeProof r tree₂ → Own tree tree₂ block maybeProof := by
    intro status tree₁ tree₂ r checks inserts
    have hbuffer := checks.blockBuffer
    have hprovider := checks.provider
    have hown := inserts.own (hbuffer ▸ hfed) hproof (hbuffer ▸ hnone)
    cases hown with
    | refused blocks proofs stored =>
        exact .refused (hbuffer ▸ blocks) proofs (hprovider ▸ stored)
    | stored stored blocks proofs => exact .stored stored (hbuffer ▸ blocks) proofs
    | buffered blocks proofs fresh => exact .buffered blocks proofs fresh
  have hconnect : ∀ {tree₁ tree₂ tree₃ r c}, Checks tree check block.hash none tree₁ →
      Inserts tree₁ block maybeProof (.ok r) tree₂ → (r = .inserted .valid ∨ r = .alreadySeen) →
      tryConnectBufferedBlocks σ tree₂ block.hash = (c, tree₃) →
        Own tree tree₃ block maybeProof := by
    intro tree₁ tree₂ tree₃ r c checks inserts isIn connects
    have hfed₂ := (inserts.takes (checks.blockBuffer ▸ hfed) hblock hproof).fed
    have hstored := inserts.contains_self isIn
    have hfate := tryConnectBufferedBlocks_fate σ hfed₂ connects block.hash
    cases hinsert checks inserts with
    | refused blocks proofs =>
        cases hfate with
        | kept blocks' proofs' stored' =>
            exact .stored (stored'.mpr hstored) (.inr (blocks'.trans blocks)) (proofs'.trans proofs)
        | left blocks' proofs' stored' => exact .stored (stored' hstored) (.inl blocks') proofs'
        | waiting _ fresh => exact absurd hstored fresh
    | stored _ blocks proofs =>
        cases hfate with
        | kept blocks' proofs' stored' =>
            exact .stored (stored'.mpr hstored)
              (blocks.imp (fun h => blocks'.trans h) fun h => blocks'.trans h)
              (proofs'.trans proofs)
        | left blocks' proofs' stored' => exact .stored (stored' hstored) (.inl blocks') proofs'
        | waiting _ fresh => exact absurd hstored fresh
    | buffered _ _ fresh => exact absurd hstored fresh
  have hfail : ∀ {tree₁ tree₂ tree₃ kind r}, Checks tree check block.hash none tree₁ →
      Inserts tree₁ block maybeProof (.error kind) tree₂ → Fails tree₂ block kind r tree₃ →
      Own tree tree₃ block maybeProof := by
    intro tree₁ tree₂ tree₃ kind r checks inserts fails
    obtain ⟨rfl, -⟩ := inserts.reason hproof
    have hbuffer : tree₃.blockBuffer = tree.blockBuffer :=
      fails.blockBuffer.trans checks.blockBuffer
    have hprovider : tree₃.provider = tree.provider := fails.provider.trans checks.provider
    exact .refused (by rw [hbuffer]) (by rw [hbuffer, hnone]) (by rw [hprovider])
  cases h with
  | invalidAncestor checks =>
      exact .refused (by rw [checks.blockBuffer]) (by rw [checks.blockBuffer, hnone])
        (by rw [checks.provider])
  | connected checks inserts isIn connects => exact hconnect checks inserts isIn connects
  | connectFailed checks inserts isIn connects => exact hconnect checks inserts isIn connects
  | seen checks inserts | disconnected checks inserts | noProof checks inserts =>
      exact hinsert checks inserts
  | failed checks inserts fails | failedFatally checks inserts fails =>
      exact hfail checks inserts fails

end Handlers

/-- What is stored stays stored. -/
theorem Handles.contains {σ : SetOrder B256} {check : B256} {block : Block}
    {maybeProof : Option X.Proof}
    {result : Except InsertBlockFatalError (TreeOutcome PayloadStatus)}
    (h : Handles σ tree check block maybeProof result tree')
    (hstored : tree.provider.Contains hash) : tree'.provider.Contains hash := by
  have hinsert : ∀ {status tree₁ tree₂ r}, Checks tree check block.hash status tree₁ →
      Inserts tree₁ block maybeProof r tree₂ → tree₂.provider.Contains hash :=
    fun checks inserts => inserts.contains (checks.provider ▸ hstored)
  cases h with
  | invalidAncestor checks => exact checks.provider ▸ hstored
  | connected checks inserts _ connects | connectFailed checks inserts _ connects =>
      exact tryConnectBufferedBlocks_contains connects (hinsert checks inserts)
  | seen checks inserts | disconnected checks inserts | noProof checks inserts =>
      exact hinsert checks inserts
  | failed checks inserts fails | failedFatally checks inserts fails =>
      exact fails.provider ▸ hinsert checks inserts

/-- **The checks a block has to pass**: the hash it is checked under is not known
to be invalid, the stateless checks accept it, and so does the verifier if its
parent is stored. -/
structure Accepts (tree : EngineTree X) (check : B256) (block : Block) (proof : X.Proof) :
    Prop where
  clear : (X.invalidHeaderCache.get tree.invalidHeaders check).1 = none
  valid : validateBlock X block = .ok ()
  verified : ∀ parent, tree.provider.sealedHeader block.parentHash = some parent →
    X.verify tree.provider block parent proof = .ok ()

/-- A block that passes them is stored, or waits with its proof. -/
theorem Handles.accepted {σ : SetOrder B256} {check : B256} {block : Block} {proof : X.Proof}
    {result : Except InsertBlockFatalError (TreeOutcome PayloadStatus)}
    (h : Handles σ tree check block (some proof) result tree') (hfed : FedBy feed tree.blockBuffer)
    (hproof : proof ∈ feed.proofs block.hash) (haccepts : Accepts tree check block proof) :
    tree'.provider.Contains block.hash ∨
      tree'.blockBuffer.proofs.get block.hash = some proof := by
  have hfail : ∀ {tree₁ tree₂ kind}, Checks tree check block.hash none tree₁ →
      ¬Inserts tree₁ block (some proof) (.error kind) tree₂ := by
    intro tree₁ tree₂ kind checks inserts
    cases inserts with
    | malformed _ failed => cases haccepts.valid.symm.trans failed
    | rejected _ _ connected proved failed =>
        cases proved
        rw [checks.provider] at connected failed
        cases (haccepts.verified _ connected).symm.trans failed
  cases h with
  | invalidAncestor checks =>
      cases checks with
      | invalid _ found => cases haccepts.clear.symm.trans found
  | connected _ inserts isIn connects | connectFailed _ inserts isIn connects =>
      exact .inl (tryConnectBufferedBlocks_contains connects (inserts.contains_self isIn))
  | seen _ inserts => exact .inl (inserts.contains_self (.inr rfl))
  | disconnected checks inserts =>
      have hfed' : FedBy feed _ := checks.blockBuffer ▸ hfed
      cases inserts with
      | disconnected =>
          have hget := (get_insertBlock_self (hfed'.insertProof hproof).agrees block).2
          exact .inr (hget.trans (FiniteMap.get_insert_self _ _ _))
  | noProof _ inserts =>
      cases inserts with
      | noProof _ _ _ unproved => cases unproved
  | failed checks inserts | failedFatally checks inserts => exact absurd inserts (hfail checks)

/-- A block that becomes stored came with a proof and passed the checks, on top of
a stored parent. -/
theorem Handles.verified {σ : SetOrder B256} {check : B256} {block : Block}
    {maybeProof : Option X.Proof}
    {result : Except InsertBlockFatalError (TreeOutcome PayloadStatus)}
    (h : Handles σ tree check block maybeProof result tree')
    (hfresh : ¬tree.provider.Contains block.hash) (hstored : tree'.provider.Contains block.hash) :
    ∃ proof, maybeProof = some proof ∧ tree.provider.Contains block.parentHash ∧
      Accepts tree check block proof := by
  have hinsert : ∀ {tree₁ tree₂ r}, Checks tree check block.hash none tree₁ →
      Inserts tree₁ block maybeProof r tree₂ → tree₂.provider.Contains block.hash →
      ∃ proof, maybeProof = some proof ∧ tree.provider.Contains block.parentHash ∧
        Accepts tree check block proof := by
    intro tree₁ tree₂ r checks inserts hin
    have hprovider := checks.provider
    cases inserts with
    | verified _ valid connected proved passed =>
        rw [hprovider] at connected passed
        refine ⟨_, proved, ChainState.contains_iff_sealedHeader.mpr ⟨_, connected⟩, ?_, valid, ?_⟩
        · cases checks with
          | clear _ missed => exact missed
        · intro parent hparent
          cases hparent.symm.trans connected
          exact passed
    | alreadySeen | malformed | disconnected | noProof | rejected =>
        exact absurd (hprovider ▸ hin) hfresh
  cases h with
  | invalidAncestor checks => exact absurd (checks.provider ▸ hstored) hfresh
  | connected checks inserts isIn | connectFailed checks inserts isIn =>
      exact hinsert checks inserts (inserts.contains_self isIn)
  | seen checks inserts | disconnected checks inserts | noProof checks inserts =>
      exact hinsert checks inserts hstored
  | failed checks inserts fails | failedFatally checks inserts fails =>
      exact hinsert checks inserts (fails.provider ▸ hstored)

/-- A block without a proof is stored already, refused, or the caller is asked for
what is missing. -/
theorem Handles.asks {σ : SetOrder B256} {check : B256} {block : Block}
    {result : Except InsertBlockFatalError (TreeOutcome PayloadStatus)}
    (h : Handles σ tree check block none result tree') :
    tree'.provider.Contains block.hash ∨ tree'.blockBuffer = tree.blockBuffer ∨
      (∃ missing, ConsensusEngine.resultEvent result = some (.downloadBlock missing)) ∨
      ConsensusEngine.resultEvent result = some (.downloadProof block.hash) := by
  have hfail : ∀ {tree₁ tree₂ tree₃ kind r}, Checks tree check block.hash none tree₁ →
      Inserts tree₁ block none (.error kind) tree₂ → Fails tree₂ block kind r tree₃ →
      tree₃.blockBuffer = tree.blockBuffer := by
    intro tree₁ tree₂ tree₃ kind r checks inserts fails
    rw [fails.blockBuffer, ← checks.blockBuffer]
    cases inserts <;> rfl
  cases h with
  | invalidAncestor checks => exact .inr (.inl checks.blockBuffer)
  | connected _ inserts isIn connects | connectFailed _ inserts isIn connects =>
      exact .inl (tryConnectBufferedBlocks_contains connects (inserts.contains_self isIn))
  | seen _ inserts => exact .inl (inserts.contains_self (.inr rfl))
  | disconnected => exact .inr (.inr (.inl ⟨_, rfl⟩))
  | noProof => exact .inr (.inr (.inr rfl))
  | failed checks inserts fails => exact .inr (.inl (hfail checks inserts fails))
  | failedFatally checks inserts fails => exact .inr (.inl (hfail checks inserts fails))

end EngineTree

/-! ## Finalization -/

namespace BlockBuffer

variable {P : Type} {buffer : BlockBuffer P} {hash : B256}

/-- Block and proof of a hash are those of the initial buffer, or both are gone. -/
def Intact (initial : BlockBuffer P) (hash : B256) (buffer : BlockBuffer P) : Prop :=
  (buffer.blocks.get hash = initial.blocks.get hash ∧
    buffer.proofs.get hash = initial.proofs.get hash) ∨
  (buffer.blocks.get hash = none ∧ buffer.proofs.get hash = none)

theorem intact_hereditary (initial : BlockBuffer P) (hash : B256) :
    Hereditary (initial.Intact hash) where
  drop buffer dropped block _ h := by
    unfold Intact
    rw [get_drop_blocks, get_drop_proofs]
    by_cases heq : hash = dropped
    · rw [if_pos heq, if_pos heq]
      exact .inr ⟨rfl, rfl⟩
    · rw [if_neg heq, if_neg heq]
      exact h
  unlink buffer parentHash h := h

theorem evictOldBlocks_intact (σ : SetOrder B256) (buffer : BlockBuffer P) (blockNumber : ℕ)
    (hash : B256) : buffer.Intact hash (evictOldBlocks σ buffer blockNumber) :=
  (intact_hereditary buffer hash).evictOldBlocks (fun _ => .inl ⟨rfl, rfl⟩) σ blockNumber

theorem get_evictEach_of_mem {evicted : List B256} (hmem : hash ∈ evicted) :
    (buffer.evictEach evicted).blocks.get hash = none := by
  induction evicted generalizing buffer with
  | nil => cases hmem
  | cons first evicted ih =>
      show ((buffer.evictBlock first).2.evictEach evicted).blocks.get hash = none
      rcases List.mem_cons.mp hmem with rfl | hmem
      · cases hget : ((buffer.evictBlock hash).2.evictEach evicted).blocks.get hash with
        | none => rfl
        | some block =>
            have hleft := (evictEach_sub _ _).blocks _ _ hget
            cases hblock : buffer.blocks.get hash with
            | none =>
                rw [evictBlock_of_get_none hblock, hblock] at hleft
                cases hleft
            | some block' =>
                rw [evictBlock_of_get hblock, get_drop_blocks, if_pos rfl] at hleft
                cases hleft
      · exact ih hmem

/-- What is still buffered after old blocks are evicted is newer. -/
theorem lt_number_of_evictOldBlocks {σ : SetOrder B256} (h : buffer.WellFormed) {blockNumber : ℕ}
    {block : Block} (hget : (evictOldBlocks σ buffer blockNumber).blocks.get hash = some block) :
    blockNumber < block.number := by
  by_contra hold
  have hinitial := (evictOldBlocks_spec σ h blockNumber).2.blocks hash block hget
  have hlisted : hash ∈ oldHashes σ buffer blockNumber :=
    mem_oldHashes.mpr ⟨block.number, Nat.le_of_not_lt hold,
      h.numberIndexed hash block hinitial (Set.notMem_empty hash)⟩
  rw [evictOldBlocks_eq] at hget
  have hsub : Sub (evictChildren σ
      ((buffer.popOld blockNumber).evictEach (oldHashes σ buffer blockNumber))
      (oldHashes σ buffer blockNumber))
      ((buffer.popOld blockNumber).evictEach (oldHashes σ buffer blockNumber)) :=
    (sub_hereditary _).evictChildren σ _ (.refl _)
  cases (get_evictEach_of_mem hlisted).symm.trans (hsub.blocks _ _ hget)

end BlockBuffer

namespace EngineTree

variable {tree tree' : EngineTree X} {hash : B256}

/-- **What a fork-choice update does to a hash**: block and proof stay where they
are or are both evicted, and a block that stays buffered is not pruned. -/
structure Weathers (tree tree' : EngineTree X) (hash : B256) : Prop where
  buffer : tree.blockBuffer.Intact hash tree'.blockBuffer
  stored : ∀ block, tree'.blockBuffer.blocks.get hash = some block →
    tree.provider.Contains hash → tree'.provider.Contains hash
  old : tree'.provider.Contains hash → tree.provider.Contains hash

namespace Weathers

/-- Nothing but what is not buffered or stored changed. -/
theorem of_eq (hbuffer : tree'.blockBuffer = tree.blockBuffer)
    (hprovider : tree'.provider.Contains hash ↔ tree.provider.Contains hash) :
    Weathers tree tree' hash :=
  ⟨.inl ⟨by rw [hbuffer], by rw [hbuffer]⟩, fun _ _ => hprovider.mpr, hprovider.mp⟩

/-- What happened before the clean-up touched neither buffer nor stored blocks. -/
theorem of_before {tree₁ : EngineTree X} (hbuffer : tree₁.blockBuffer = tree.blockBuffer)
    (hprovider : tree₁.provider.Contains hash ↔ tree.provider.Contains hash)
    (h : Weathers tree₁ tree' hash) : Weathers tree tree' hash :=
  ⟨hbuffer ▸ h.buffer, fun block hget hstored => h.stored block hget (hprovider.mpr hstored),
    fun hstored => hprovider.mp (h.old hstored)⟩

end Weathers

theorem cleanUp_weathers (σ : SetOrder B256) (hfed : FedBy feed tree.blockBuffer)
    (hstocked : Stocked feed tree.provider) (finalizedHash : B256) (hash : B256) :
    Weathers tree (cleanUp σ tree finalizedHash) hash := by
  refine ⟨?_, fun block hget hstored => ?_, (cleanUp_sub σ hfed finalizedHash).1 hash⟩
  · unfold cleanUp
    simp only
    split
    · exact BlockBuffer.evictOldBlocks_intact σ _ _ hash
    · exact .inl ⟨rfl, rfl⟩
  · have hinitial := (cleanUp_sub σ hfed finalizedHash).2.blocks hash block hget
    obtain rfl : block.hash = hash := tree.blockBuffer.blocks.keyed hash block hinitial
    obtain ⟨stored, hstored⟩ := hstored
    have hnumber := hstocked.number_eq hstored (hfed.blocks _ _ hinitial)
    show (cleanUp σ tree finalizedHash).provider.Contains block.hash
    rw [cleanUp_provider]
    by_cases hzero : finalizedHash = 0
    · rw [ChainState.onFinalized, if_pos hzero]
      exact ⟨stored, hstored⟩
    cases hfinal : tree.provider.blocksByHash.get finalizedHash with
    | none =>
        rw [ChainState.onFinalized, if_neg hzero, ChainState.removeBlocksOnFinalized_of_none hfinal]
        exact ⟨stored, hstored⟩
    | some finalized =>
        have hkept : (tree.provider.onFinalized finalizedHash).blocksByHash.get finalizedHash
            = some finalized := by
          rw [ChainState.onFinalized, if_neg hzero]
          exact (ChainState.removeBlocksOnFinalized_get hstocked.indexed hfinal).mpr
            ⟨hfinal, le_rfl⟩
        have hbuffer : (cleanUp σ tree finalizedHash).blockBuffer
            = tree.blockBuffer.evictOldBlocks σ finalized.number := by
          unfold cleanUp ChainState.blockNumber
          simp only [hkept, Option.map_some]
        rw [hbuffer] at hget
        have hlt := BlockBuffer.lt_number_of_evictOldBlocks hfed.wellFormed hget
        rw [ChainState.onFinalized, if_neg hzero]
        exact ⟨stored, (ChainState.removeBlocksOnFinalized_get hstocked.indexed hfinal).mpr
          ⟨hstored, by omega⟩⟩

/-- **A fork-choice update** evicts and prunes, and does nothing else to a hash. -/
theorem Updates.weathers {σ : SetOrder B256} {state : ForkchoiceState}
    {result : Except ProviderError (TreeOutcome OnForkChoiceUpdated)}
    (h : Updates σ tree state result tree') (hfed : FedBy feed tree.blockBuffer)
    (hstocked : Stocked feed tree.provider) (hash : B256) : Weathers tree tree' hash := by
  have hpeeks : ∀ {tree₁}, Peeks tree tree₁ → Weathers tree tree₁ hash :=
    fun peeks => .of_eq peeks.blockBuffer (by rw [peeks.provider])
  cases h with
  | refused peeks | atHead peeks | known peeks | syncing peeks => exact hpeeks peeks
  | @inconsistent tree₁ update peeks =>
      refine .of_eq peeks.blockBuffer (contains_onCanonicalChainUpdate.trans ?_)
      rw [peeks.provider]
  | @applied tree₁ update _ peeks =>
      have hbuffer : (tree₁.onCanonicalChainUpdate update).blockBuffer = tree.blockBuffer :=
        peeks.blockBuffer
      refine .of_before hbuffer ?_ (cleanUp_weathers σ (hbuffer ▸ hfed) ?_ _ hash)
      · rw [contains_onCanonicalChainUpdate, peeks.provider]
      · exact (peeks.provider ▸ hstocked).of_sameBlocks
          (ChainState.onChainUpdate_sameBlocks _ _ _)

end EngineTree

/-! ## The engine -/

namespace ConsensusEngine

variable {engine engine' : ConsensusEngine X} {σ : SetOrder B256} {hash : B256}

/-- **Unlocking a hash** handles its block, if that has both parts.  For every hash
this is one of the fates, and a block that is left with both parts is not stored. -/
theorem Unlocks.fate {unlocked : B256} (h : Unlocks σ engine unlocked engine')
    (hfed : FedExcept feed unlocked engine.tree.blockBuffer) :
    (∀ hash, EngineTree.Fate engine.tree engine'.tree hash) ∧
      ∀ block proof, engine'.tree.blockBuffer.Ready unlocked block proof →
        ¬engine'.tree.provider.Contains unlocked := by
  cases h with
  | locked missing same =>
      rw [same]
      exact ⟨EngineTree.Fate.refl _,
        fun block proof hready => absurd ⟨block, proof, hready⟩ missing⟩
  | @handled block proof result tree' ready handled tree answers =>
      obtain rfl : block.hash = unlocked := BlockBuffer.hash_of_get ready.1
      have hproof : ∀ proof', some proof = some proof' → proof' ∈ feed.proofs block.hash := by
        rintro _ ⟨⟩
        exact hfed.proofs _ _ ready.2
      have hhandles := EngineTree.onDownloadedBlock_cases σ (takeOut engine.tree block.hash block)
        block proof
      rw [handled] at hhandles
      have htaken :
          ∀ hash, EngineTree.Fate engine.tree (takeOut engine.tree block.hash block) hash := by
        intro hash
        by_cases heq : hash = block.hash
        · exact .left ((BlockBuffer.get_drop_blocks ..).trans (if_pos heq))
            ((BlockBuffer.get_drop_proofs ..).trans (if_pos heq)) id
        · exact .kept ((BlockBuffer.get_drop_blocks ..).trans (if_neg heq))
            ((BlockBuffer.get_drop_proofs ..).trans (if_neg heq)) Iff.rfl
      have hnoBlock :
          (takeOut engine.tree block.hash block).blockBuffer.blocks.get block.hash = none :=
        (BlockBuffer.get_drop_blocks ..).trans (if_pos rfl)
      have hnoProof :
          (takeOut engine.tree block.hash block).blockBuffer.proofs.get block.hash = none :=
        (BlockBuffer.get_drop_proofs ..).trans (if_pos rfl)
      have hown := hhandles.own (hfed.drop ready) (hfed.blocks _ _ ready.1) hproof hnoProof
      have hcarried : ∀ hash, EngineTree.Fate tree' engine'.tree hash := by
        intro hash
        rw [tree]
        exact .of_eq (tree'.carryOut_blockBuffer _) EngineTree.contains_carryOut
      refine ⟨fun hash => ((htaken hash).trans ?_).trans (hcarried hash),
        fun block' proof' hready => ?_⟩
      · by_cases heq : hash = block.hash
        · rw [heq]
          exact hown.fate hnoBlock hnoProof hhandles.contains
        · exact hhandles.fate (hfed.drop ready) (hfed.blocks _ _ ready.1) hproof heq
      · rw [tree, EngineTree.contains_carryOut]
        rw [tree, EngineTree.carryOut_blockBuffer] at hready
        cases hown with
        | refused _ proofs | stored _ _ proofs => cases proofs.symm.trans hready.2
        | buffered _ _ fresh => exact fresh

/-! ### New payloads -/

/-- Carrying out an event changes nothing for the handled block. -/
theorem own_carryOut {tree tree' : EngineTree X} {block : Block} {maybeProof : Option X.Proof}
    (h : EngineTree.Own tree tree' block maybeProof) (event : Option TreeEvent) :
    EngineTree.Own tree (tree'.carryOut event) block maybeProof := by
  have hbuffer := tree'.carryOut_blockBuffer event
  have hprovider : (tree'.carryOut event).provider.Contains block.hash
      ↔ tree'.provider.Contains block.hash := EngineTree.contains_carryOut
  cases h with
  | refused blocks proofs stored =>
      exact .refused (by rwa [hbuffer]) (by rwa [hbuffer]) (hprovider.trans stored)
  | stored stored blocks proofs =>
      exact .stored (hprovider.mpr stored) (by rwa [hbuffer]) (by rwa [hbuffer])
  | buffered blocks proofs fresh =>
      exact .buffered (by rwa [hbuffer]) (by rwa [hbuffer]) fun h => fresh (hprovider.mp h)

/-- The tree a new payload is handled in. -/
def takeProof (tree : EngineTree X) (hash : B256) : EngineTree X :=
  { tree with blockBuffer := (tree.blockBuffer.removeProof hash).2 }

/-- **What a new payload does to the blocks.** -/
structure Brings (feed : Feed X) (engine : ConsensusEngine X) (payload : ExecutionData)
    (engine' : ConsensusEngine X) : Prop where
  /-- The other hashes. -/
  fates : ∀ hash, hash ≠ payload.blockHash → EngineTree.Fate engine.tree engine'.tree hash
  /-- What is stored stays stored. -/
  stored : ∀ hash, engine.tree.provider.Contains hash → engine'.tree.provider.Contains hash
  /-- A malformed payload costs the proof of the hash it claims. -/
  malformed : ∀ error, X.ensureWellFormedPayload payload = .error error →
    engine'.tree.blockBuffer = (engine.tree.blockBuffer.removeProof payload.blockHash).2 ∧
      engine'.tree.provider = engine.tree.provider
  /-- The block of a well-formed one. -/
  own : ∀ block, X.ensureWellFormedPayload payload = .ok block →
    EngineTree.Own (takeProof engine.tree payload.blockHash) engine'.tree block
      (engine.tree.blockBuffer.proofs.get payload.blockHash)
  /-- Without a proof it is stored, refused, or its proof is requested. -/
  asks : ∀ block, X.ensureWellFormedPayload payload = .ok block →
    engine.tree.blockBuffer.proofs.get payload.blockHash = none →
      engine'.tree.provider.Contains block.hash ∨
        engine'.tree.blockBuffer = (engine.tree.blockBuffer.removeProof payload.blockHash).2 ∨
        engine'.downloader.ProofPending block.hash
  /-- With its proof it is stored or waits with it, if it passes the checks. -/
  accepted : ∀ block proof, X.ensureWellFormedPayload payload = .ok block →
    engine.tree.blockBuffer.proofs.get payload.blockHash = some proof →
      engine.tree.Accepts (engine.tree.payloadCheck block) block proof →
        engine'.tree.provider.Contains block.hash ∨
          engine'.tree.blockBuffer.proofs.get block.hash = some proof
  /-- It becomes stored on top of its parent, and only after it passed the checks. -/
  verified : ∀ block, X.ensureWellFormedPayload payload = .ok block →
    ¬engine.tree.provider.Contains block.hash → engine'.tree.provider.Contains block.hash →
      ∃ proof, engine.tree.blockBuffer.proofs.get payload.blockHash = some proof ∧
        engine.tree.provider.Contains block.parentHash ∧
        engine.tree.Accepts (engine.tree.payloadCheck block) block proof

/-- The checks do not look at the buffered proofs. -/
theorem accepts_takeProof {tree : EngineTree X} {hash check : B256} {block : Block}
    {proof : X.Proof} :
    (takeProof tree hash).Accepts check block proof ↔ tree.Accepts check block proof :=
  ⟨fun h => ⟨h.clear, h.valid, h.verified⟩, fun h => ⟨h.clear, h.valid, h.verified⟩⟩

theorem onEngineMessage_brings (σ : SetOrder B256) (engine : ConsensusEngine X)
    (payload : ExecutionData) (tx : ℕ) (hfed : FedBy feed engine.tree.blockBuffer)
    (hprovides : feed.Provides (.message (.newPayload payload tx))) :
    Brings feed engine payload (engine.onEngineMessage σ (.newPayload payload tx)) := by
  have hreceives := onEngineMessage_newPayload σ engine payload tx
  have hfully := onEngineMessage_newPayload_fully σ engine payload tx
  generalize engine.onEngineMessage σ (.newPayload payload tx) = engine' at hreceives hfully
  -- either way the tree is the one the call leaves, up to the event carried out
  have htree : engine'.tree = (callNewPayload σ engine.tree payload).2.carryOut
      (resultEvent (callNewPayload σ engine.tree payload).1) := by
    cases hreceives with
    | parked handled _ event tree =>
        rw [handled, tree]
        simp only [resultEvent, event]
        rfl
    | answered handled tree => rw [handled, tree]
  have hfed' : FedBy feed (takeProof engine.tree payload.blockHash).blockBuffer :=
    hfed.removeProof payload.blockHash
  have hproof : ∀ proof, engine.tree.blockBuffer.proofs.get payload.blockHash = some proof →
      proof ∈ feed.proofs payload.blockHash := fun proof => hfed.removeProof_fed
  have hothers : ∀ hash, hash ≠ payload.blockHash →
      EngineTree.Fate engine.tree (takeProof engine.tree payload.blockHash) hash :=
    fun hash hne => .kept rfl (FiniteMap.get_erase_of_ne _ hne) Iff.rfl
  have hcarried :
      ∀ hash, EngineTree.Fate (callNewPayload σ engine.tree payload).2 engine'.tree hash := by
    intro hash
    rw [htree]
    exact .of_eq (EngineTree.carryOut_blockBuffer _ _) EngineTree.contains_carryOut
  cases hformed : X.ensureWellFormedPayload payload with
  | error error =>
      obtain ⟨latestValidHash, tree', peeks, hcall⟩ := EngineTree.onNewPayload_malformed σ
        (takeProof engine.tree payload.blockHash)
        (engine.tree.blockBuffer.proofs.get payload.blockHash) hformed
      replace hcall : callNewPayload σ engine.tree payload = _ := hcall
      rw [hcall] at htree hcarried
      refine ⟨fun hash hne => ((hothers hash hne).trans (.of_eq peeks.blockBuffer ?_)).trans
        (hcarried hash), fun hash hstored => ?_, fun _ _ => ?_, fun _ hok =>
        (nomatch hformed.symm.trans hok),
        fun _ hok => (nomatch hformed.symm.trans hok),
        fun _ _ hok => (nomatch hformed.symm.trans hok),
        fun _ hok => (nomatch hformed.symm.trans hok)⟩
      · rw [peeks.provider]
      · rw [htree]
        exact peeks.provider ▸ hstored
      · rw [htree]
        exact ⟨peeks.blockBuffer, peeks.provider⟩
  | ok block =>
      obtain ⟨hblock, hhash⟩ := hprovides block hformed
      have hhandles := EngineTree.onNewPayload_cases σ (takeProof engine.tree payload.blockHash)
        (engine.tree.blockBuffer.proofs.get payload.blockHash) hformed
      replace hhandles : EngineTree.Handles σ (takeProof engine.tree payload.blockHash) _ block
        (engine.tree.blockBuffer.proofs.get payload.blockHash)
        (callNewPayload σ engine.tree payload).1 (callNewPayload σ engine.tree payload).2 :=
          hhandles
      replace hproof : ∀ proof, engine.tree.blockBuffer.proofs.get payload.blockHash = some proof →
          proof ∈ feed.proofs block.hash := fun proof hget => hhash ▸ hproof proof hget
      have hnone :
          (takeProof engine.tree payload.blockHash).blockBuffer.proofs.get block.hash = none := by
        rw [hhash]
        exact FiniteMap.get_erase_self _ _
      refine ⟨fun hash hne => ((hothers hash hne).trans
        (hhandles.fate hfed' hblock hproof (hhash ▸ hne))).trans (hcarried hash),
        fun hash hstored => ?_, fun _ herror =>
          (nomatch hformed.symm.trans herror), fun block' hformed' => ?_,
        fun block' hformed' hunproved => ?_, fun block' proof hformed' hproved haccepts => ?_,
        fun block' hformed' hfresh hstored => ?_⟩
      · rw [htree, EngineTree.contains_carryOut]
        exact hhandles.contains hstored
      · cases hformed.symm.trans hformed'
        rw [htree]
        exact own_carryOut (hhandles.own hfed' hblock hproof hnone) _
      · cases hformed.symm.trans hformed'
        rw [hunproved] at hhandles
        have hbuffer : engine'.tree.blockBuffer
            = (callNewPayload σ engine.tree payload).2.blockBuffer := by
          rw [htree, EngineTree.carryOut_blockBuffer]
        rcases hhandles.asks with hstored | hsame | hasks
        · rw [htree, EngineTree.contains_carryOut]
          exact .inl hstored
        · exact .inr (.inl (hbuffer.trans hsame))
        · refine .inr (.inr ?_)
          cases hfully with
          | @parked outcome tree' blockHash handled _ event after =>
              rw [handled] at hasks
              rw [after]
              refine EngineDownloader.proofPending_downloadProof.mpr (.inr ?_)
              rcases hasks with ⟨missing, hasks⟩ | hasks
              · cases event.symm.trans hasks
              · cases event.symm.trans hasks
                rfl
          | quiet handled event =>
              rw [handled, event] at hasks
              rcases hasks with ⟨missing, hasks⟩ | hasks
              · cases hasks
              · cases hasks
          | eventful _ _ _ after =>
              have hasked :
                  (engine.tree.blockBuffer.removeProof payload.blockHash).1.isSome = false := by
                show (engine.tree.blockBuffer.proofs.get payload.blockHash).isSome = false
                rw [hunproved]
                rfl
              rw [after, hasked, hhash]
              exact EngineDownloader.proofPending_downloadProof.mpr (.inr rfl)
      · cases hformed.symm.trans hformed'
        rw [hproved] at hhandles
        rw [htree, EngineTree.contains_carryOut, EngineTree.carryOut_blockBuffer]
        exact hhandles.accepted hfed' (hproof proof hproved) (accepts_takeProof.mpr haccepts)
      · cases hformed.symm.trans hformed'
        rw [htree, EngineTree.contains_carryOut] at hstored
        obtain ⟨proof, hproved, hparent, haccepts⟩ := hhandles.verified hfresh hstored
        exact ⟨proof, hproved, hparent, accepts_takeProof.mp haccepts⟩

/-! ### Fork-choice updates and sessions -/

theorem onEngineMessage_weathers (σ : SetOrder B256) (engine : ConsensusEngine X)
    (state : ForkchoiceState) (payloadAttrs : Option PayloadAttributes) (tx : ℕ) (version : UInt8)
    (hfed : FedBy feed engine.tree.blockBuffer) (hstocked : Stocked feed engine.tree.provider)
    (hash : B256) :
    EngineTree.Weathers engine.tree
      (engine.onEngineMessage σ (.forkchoiceUpdated state payloadAttrs tx version)).tree hash := by
  have hchooses := onEngineMessage_forkchoiceUpdated σ engine state payloadAttrs tx version
  generalize engine.onEngineMessage σ (.forkchoiceUpdated state payloadAttrs tx version) = engine'
    at hchooses
  obtain ⟨handled, tree, -, -⟩ := hchooses
  have hupdates := EngineTree.onForkchoiceUpdated_cases σ engine.tree state payloadAttrs version
  rw [handled] at hupdates
  have hweathers := hupdates.weathers hfed hstocked hash
  rw [tree]
  constructor
  · rw [EngineTree.carryOut_blockBuffer, EngineTree.track_blockBuffer]
    exact hweathers.buffer
  · rw [EngineTree.carryOut_blockBuffer, EngineTree.track_blockBuffer,
      EngineTree.contains_carryOut, EngineTree.track_provider]
    exact hweathers.stored
  · rw [EngineTree.contains_carryOut, EngineTree.track_provider]
    exact hweathers.old

/-- In a session from the launch the buffer holds deliveries, and the provider
blocks, that conform. -/
theorem Session.sound {meets : SetOrder B256 → ConsensusEngine X → Processed X.Proof → Prop}
    (hmeets : ∀ σ engine event, meets σ engine event → feed.Provides event) {genesis : Block}
    (hconf : genesis.toSealedHeader.Conforms feed.preimage) {trace : List (Processed X.Proof)}
    (session : Session meets (launch X genesis) trace engine) :
    FedBy feed engine.tree.blockBuffer ∧ Stocked feed engine.tree.provider := by
  obtain ⟨⟨marks, history⟩, hfed⟩ :=
    Run.history (fun _ _ met => met) (session.fedRun hmeets) (.new feed)
  exact ⟨hfed, .of_history hconf history⟩

end ConsensusEngine

end ZkRess
