import ZkRess.Foundation.SetMap
import ZkRess.Primitives

/-!
# The in-memory chain

`ChainState` holds the validated blocks of all forks, an index of their hashes by
number, the proofs they were validated with, and the canonical hashes by number.
The definitions follow `chain_state.rs` and `provider.rs`; the read-write lock
and the chain specification are dropped, everything else is what the code does.

Each operation is followed by what the four maps read afterwards, and pruning is
described under the one property it relies on: `Indexed`, that the index by
number lists exactly the stored blocks.
-/

namespace ZkRess

open Foundation

variable {P : Type}

/-- In-memory blockchain tree state. -/
structure ChainState (P : Type) where
  /-- Canonical block hashes by block number. -/
  canonicalHashesByNumber : FiniteMap ℕ B256
  /-- All validated blocks, of all forks. -/
  blocksByHash : BlocksByHash
  /-- All block hashes by number. -/
  blockHashesByNumber : SetMap ℕ B256
  /-- Block proofs by block hash. -/
  proofs : FiniteMap B256 P

namespace ChainState

/-- The state of a new provider. -/
def empty : ChainState P := ⟨∅, ∅, ∅, ∅⟩

/-- The hash is canonical at some number. -/
def isHashCanonical (cs : ChainState P) (hash : B256) : Prop :=
  cs.canonicalHashesByNumber.ContainsValue hash

instance (cs : ChainState P) (hash : B256) : Decidable (cs.isHashCanonical hash) :=
  inferInstanceAs (Decidable (cs.canonicalHashesByNumber.ContainsValue hash))

/-- Block by hash. -/
def recoveredBlock (cs : ChainState P) (hash : B256) : Option Block :=
  cs.blocksByHash.get hash

/-- Sealed header by hash. -/
def sealedHeader (cs : ChainState P) (hash : B256) : Option SealedHeader :=
  (cs.blocksByHash.get hash).map Block.toSealedHeader

/-- Block number by hash. -/
def blockNumber (cs : ChainState P) (hash : B256) : Option ℕ :=
  (cs.blocksByHash.get hash).map fun block => block.number

/-- The ancestor walk of `block_hash`: either the block at `number`, or the first
ancestor that is not stored.  More steps than stored blocks are never taken
along distinct blocks. -/
def walkToNumber (cs : ChainState P) (number : ℕ) :
    ℕ → BlockNumHash → B256 ⊕ BlockNumHash
  | 0, ancestor => .inr ancestor
  | n + 1, ancestor =>
      match cs.blocksByHash.get ancestor.hash with
      | some block =>
          if block.number = number then .inl block.hash
          else walkToNumber cs number n block.parentNumHash
      | none => .inr ancestor

/-- Hash of the ancestor of `parent` at `number`: among the stored blocks first,
then among the canonical hashes, provided the walk ended on a canonical one. -/
def blockHash (cs : ChainState P) (parent : BlockNumHash) (number : ℕ) : Option B256 :=
  match cs.walkToNumber number cs.blocksByHash.card parent with
  | .inl hash => some hash
  | .inr ancestor =>
      if number ≤ ancestor.number ∧
          cs.canonicalHashesByNumber.get ancestor.number = some ancestor.hash then
        cs.canonicalHashesByNumber.get number
      else none

/-- Insert canonical hash for block number. -/
def insertCanonicalHash (cs : ChainState P) (number : ℕ) (hash : B256) : ChainState P :=
  { cs with canonicalHashesByNumber := cs.canonicalHashesByNumber.insert number hash }

/-- Remove canonical hash for block number if it matches. -/
def removeCanonicalHash (cs : ChainState P) (number : ℕ) (hash : B256) : ChainState P :=
  if cs.canonicalHashesByNumber.get number = some hash then
    { cs with canonicalHashesByNumber := cs.canonicalHashesByNumber.erase number }
  else cs

/-- Insert recovered block. -/
def insertBlock (cs : ChainState P) (block : Block) (maybeProof : Option P) : ChainState P :=
  { cs with
    blockHashesByNumber := SetMap.addMember cs.blockHashesByNumber block.number block.hash
    blocksByHash := cs.blocksByHash.insert block
    proofs := match maybeProof with
      | some proof => cs.proofs.insert block.hash proof
      | none => cs.proofs }

/-- Remove all blocks before finalized as well as all canonical block hashes
before `finalized.number - 256`. -/
def removeBlocksOnFinalized (cs : ChainState P) (finalizedHash : B256) : ChainState P :=
  match cs.blocksByHash.get finalizedHash with
  | none => cs
  | some finalized =>
      let finalizedNumber := finalized.number
      -- the blocks before finalized, by ascending number
      let (popped, blockHashesByNumber) :=
        FiniteMap.popFirstWhile (fun number => decide (number < finalizedNumber))
          cs.blockHashesByNumber.keys.card cs.blockHashesByNumber
      let lastBlockHashNumber := finalizedNumber - 256
      { blockHashesByNumber
        blocksByHash := popped.foldl (fun blocks entry => blocks.eraseAll entry.2) cs.blocksByHash
        proofs := popped.foldl (fun proofs entry => proofs.eraseAll entry.2) cs.proofs
        canonicalHashesByNumber :=
          (FiniteMap.popFirstWhile (fun number => decide (number < lastBlockHashNumber))
            cs.canonicalHashesByNumber.keys.card cs.canonicalHashesByNumber).2 }

/-- `ZkRessProvider::on_chain_update`: update canonical hashes. -/
def onChainUpdate (cs : ChainState P) (new old : List SealedHeader) : ChainState P :=
  let removed := old.foldl (fun cs header => cs.removeCanonicalHash header.number header.hash) cs
  new.foldl (fun cs header => cs.insertCanonicalHash header.number header.hash) removed

/-- `ZkRessProvider::on_finalized`: prune unless the hash is zero. -/
def onFinalized (cs : ChainState P) (finalizedHash : B256) : ChainState P :=
  if finalizedHash = 0 then cs else cs.removeBlocksOnFinalized finalizedHash

/-! ## What lookups read -/

theorem hash_of_get {cs : ChainState P} {hash : B256} {block : Block}
    (h : cs.blocksByHash.get hash = some block) : block.hash = hash :=
  cs.blocksByHash.keyed hash block h

theorem sealedHeader_eq_some {cs : ChainState P} {hash : B256} {header : SealedHeader} :
    cs.sealedHeader hash = some header ↔
      ∃ block, cs.blocksByHash.get hash = some block ∧ block.toSealedHeader = header := by
  unfold sealedHeader
  rw [Option.map_eq_some_iff]

theorem sealedHeader_eq_none {cs : ChainState P} {hash : B256} :
    cs.sealedHeader hash = none ↔ cs.blocksByHash.get hash = none := by
  unfold sealedHeader
  rw [Option.map_eq_none_iff]

theorem hash_of_sealedHeader {cs : ChainState P} {hash : B256} {header : SealedHeader}
    (h : cs.sealedHeader hash = some header) : header.hash = hash := by
  obtain ⟨block, hget, rfl⟩ := sealedHeader_eq_some.mp h
  exact hash_of_get hget

/-- The block is stored. -/
def Contains (cs : ChainState P) (hash : B256) : Prop :=
  ∃ block, cs.blocksByHash.get hash = some block

theorem contains_iff_sealedHeader {cs : ChainState P} {hash : B256} :
    cs.Contains hash ↔ ∃ header, cs.sealedHeader hash = some header := by
  simp only [Contains, sealedHeader_eq_some]
  exact ⟨fun ⟨b, h⟩ => ⟨_, b, h, rfl⟩, fun ⟨_, b, h, _⟩ => ⟨b, h⟩⟩

theorem contains_iff_isSome {cs : ChainState P} {hash : B256} :
    cs.Contains hash ↔ (cs.sealedHeader hash).isSome = true := by
  rw [contains_iff_sealedHeader, Option.isSome_iff_exists]

theorem not_contains_iff {cs : ChainState P} {hash : B256} :
    ¬cs.Contains hash ↔ cs.blocksByHash.get hash = none := by
  simp [Contains, Option.eq_none_iff_forall_not_mem, Option.mem_def]

instance (cs : ChainState P) (hash : B256) : Decidable (cs.Contains hash) :=
  decidable_of_iff _ contains_iff_isSome.symm

/-! ## Insertion of a block -/

@[simp] theorem insertBlock_blocksByHash (cs : ChainState P) (block : Block)
    (maybeProof : Option P) :
    (cs.insertBlock block maybeProof).blocksByHash = cs.blocksByHash.insert block := rfl

@[simp] theorem insertBlock_canonicalHashesByNumber (cs : ChainState P) (block : Block)
    (maybeProof : Option P) :
    (cs.insertBlock block maybeProof).canonicalHashesByNumber = cs.canonicalHashesByNumber := rfl

theorem insertBlock_get (cs : ChainState P) (block : Block) (maybeProof : Option P)
    (hash : B256) :
    (cs.insertBlock block maybeProof).blocksByHash.get hash
      = if hash = block.hash then some block else cs.blocksByHash.get hash :=
  KeyedMap.get_insert cs.blocksByHash block hash

theorem contains_insertBlock {cs : ChainState P} {block : Block} {maybeProof : Option P}
    {hash : B256} :
    (cs.insertBlock block maybeProof).Contains hash ↔ hash = block.hash ∨ cs.Contains hash := by
  unfold Contains
  rw [insertBlock_get]
  by_cases heq : hash = block.hash <;> simp [heq]

/-! ## Canonical hashes -/

@[simp] theorem insertCanonicalHash_blocksByHash (cs : ChainState P) (number : ℕ) (hash : B256) :
    (cs.insertCanonicalHash number hash).blocksByHash = cs.blocksByHash := rfl

@[simp] theorem removeCanonicalHash_blocksByHash (cs : ChainState P) (number : ℕ) (hash : B256) :
    (cs.removeCanonicalHash number hash).blocksByHash = cs.blocksByHash := by
  unfold removeCanonicalHash
  split <;> rfl

/-- Everything but the canonical hashes is the same. -/
structure SameBlocks (cs cs' : ChainState P) : Prop where
  blocksByHash : cs'.blocksByHash = cs.blocksByHash
  blockHashesByNumber : cs'.blockHashesByNumber = cs.blockHashesByNumber
  proofs : cs'.proofs = cs.proofs

theorem SameBlocks.refl (cs : ChainState P) : SameBlocks cs cs := ⟨rfl, rfl, rfl⟩

theorem SameBlocks.trans {cs cs' cs'' : ChainState P} (h : SameBlocks cs cs')
    (h' : SameBlocks cs' cs'') : SameBlocks cs cs'' :=
  ⟨h'.blocksByHash.trans h.blocksByHash, h'.blockHashesByNumber.trans h.blockHashesByNumber,
    h'.proofs.trans h.proofs⟩

private theorem foldl_remove (old : List SealedHeader) (cs : ChainState P) :
    SameBlocks cs
        (old.foldl (fun cs header => cs.removeCanonicalHash header.number header.hash) cs) ∧
      (old.foldl (fun cs header => cs.removeCanonicalHash header.number header.hash)
          cs).canonicalHashesByNumber
        = FiniteMap.withdrawList (fun header : SealedHeader => header.number)
            (fun header => header.hash) old cs.canonicalHashesByNumber := by
  induction old generalizing cs with
  | nil => exact ⟨.refl cs, rfl⟩
  | cons header old ih =>
      have hone : SameBlocks cs (cs.removeCanonicalHash header.number header.hash) := by
        unfold removeCanonicalHash
        split <;> exact ⟨rfl, rfl, rfl⟩
      obtain ⟨hsame, hcanon⟩ := ih (cs.removeCanonicalHash header.number header.hash)
      refine ⟨hone.trans hsame, hcanon.trans ?_⟩
      unfold removeCanonicalHash FiniteMap.withdrawList
      rw [List.foldl_cons]
      split <;> rfl

private theorem foldl_insert (new : List SealedHeader) (cs : ChainState P) :
    SameBlocks cs
        (new.foldl (fun cs header => cs.insertCanonicalHash header.number header.hash) cs) ∧
      (new.foldl (fun cs header => cs.insertCanonicalHash header.number header.hash)
          cs).canonicalHashesByNumber
        = FiniteMap.insertList (fun header : SealedHeader => header.number)
            (fun header => header.hash) new cs.canonicalHashesByNumber := by
  induction new generalizing cs with
  | nil => exact ⟨.refl cs, rfl⟩
  | cons header new ih =>
      obtain ⟨hsame, hcanon⟩ := ih (cs.insertCanonicalHash header.number header.hash)
      have hone : SameBlocks cs (cs.insertCanonicalHash header.number header.hash) :=
        ⟨rfl, rfl, rfl⟩
      exact ⟨hone.trans hsame, hcanon⟩

/-- Writing canonical hashes one after the other, as a write of the whole list. -/
theorem insertCanonicalHashes_canonical (headers : List SealedHeader) (cs : ChainState P) :
    (headers.foldl (fun cs header => cs.insertCanonicalHash header.number header.hash)
        cs).canonicalHashesByNumber
      = FiniteMap.insertList (fun header : SealedHeader => header.number)
          (fun header => header.hash) headers cs.canonicalHashesByNumber :=
  (foldl_insert headers cs).2

theorem insertCanonicalHashes_sameBlocks (headers : List SealedHeader) (cs : ChainState P) :
    SameBlocks cs
      (headers.foldl (fun cs header => cs.insertCanonicalHash header.number header.hash) cs) :=
  (foldl_insert headers cs).1

/-- A chain update leaves the blocks alone. -/
theorem onChainUpdate_sameBlocks (cs : ChainState P) (new old : List SealedHeader) :
    SameBlocks cs (cs.onChainUpdate new old) :=
  (foldl_remove old cs).1.trans (foldl_insert new _).1

/-- The canonical hashes after a chain update: the old ones withdrawn where they
still stand, then the new ones written. -/
theorem onChainUpdate_canonical (cs : ChainState P) (new old : List SealedHeader) :
    (cs.onChainUpdate new old).canonicalHashesByNumber
      = FiniteMap.insertList (fun header : SealedHeader => header.number)
          (fun header => header.hash) new
          (FiniteMap.withdrawList (fun header : SealedHeader => header.number)
            (fun header => header.hash) old cs.canonicalHashesByNumber) := by
  unfold onChainUpdate
  rw [(foldl_insert new _).2, (foldl_remove old cs).2]

/-! ## Pruning -/

/-- The index by number lists exactly the stored blocks. -/
def Indexed (cs : ChainState P) : Prop :=
  ∀ number hash, hash ∈ SetMap.members cs.blockHashesByNumber number ↔
    ∃ block, cs.blocksByHash.get hash = some block ∧ block.number = number

theorem indexed_empty : (empty : ChainState P).Indexed := by
  intro number hash
  simp [empty]

theorem Indexed.of_sameBlocks {cs cs' : ChainState P} (h : cs.Indexed) (same : SameBlocks cs cs') :
    cs'.Indexed := by
  intro number hash
  rw [same.blocksByHash, same.blockHashesByNumber]
  exact h number hash

/-- Insertion keeps the index exact when a block that is stored again keeps its
number. -/
theorem Indexed.insertBlock {cs : ChainState P} (h : cs.Indexed) {block : Block}
    {maybeProof : Option P}
    (hagain : ∀ old, cs.blocksByHash.get block.hash = some old → old.number = block.number) :
    (cs.insertBlock block maybeProof).Indexed := by
  intro number hash
  rw [insertBlock_get]
  simp only [ChainState.insertBlock, SetMap.mem_members_addMember]
  by_cases hhash : hash = block.hash
  · -- the inserted block is listed under its own number only
    subst hhash
    simp only [if_true, Option.some_inj, exists_eq_left', and_true]
    rw [h number block.hash]
    constructor
    · rintro (rfl | ⟨old, hold, rfl⟩)
      · rfl
      · exact (hagain old hold).symm
    · exact fun heq => .inl heq.symm
  · simp [hhash, h number hash]

private theorem lt_downward (bound : ℕ) :
    ∀ a b : ℕ, a ≤ b → decide (b < bound) = true → decide (a < bound) = true := by
  intro a b hle hlt
  rw [decide_eq_true_eq] at hlt ⊢
  omega

private theorem foldl_eraseAll_get (popped : List (ℕ × Finset B256)) (hash : B256)
    (blocks : BlocksByHash) :
    (popped.foldl (fun blocks entry => blocks.eraseAll entry.2) blocks).get hash
      = if ∃ entry ∈ popped, hash ∈ entry.2 then none else blocks.get hash := by
  induction popped generalizing blocks with
  | nil => simp
  | cons entry popped ih =>
      rw [List.foldl_cons, ih, KeyedMap.get_eraseAll]
      by_cases hrest : ∃ entry ∈ popped, hash ∈ entry.2
      · simp [hrest]
      · by_cases hmem : hash ∈ entry.2 <;> simp [hrest, hmem]

/-- An unknown finalized hash prunes nothing. -/
theorem removeBlocksOnFinalized_of_none {cs : ChainState P} {finalizedHash : B256}
    (h : cs.blocksByHash.get finalizedHash = none) :
    cs.removeBlocksOnFinalized finalizedHash = cs := by
  unfold removeBlocksOnFinalized
  rw [h]

/-- The hashes of the pruned blocks are those listed below the finalized number. -/
private theorem popped_iff {cs : ChainState P} (h : cs.Indexed) (bound : ℕ) (hash : B256) :
    (∃ entry ∈ (FiniteMap.popFirstWhile (fun number => decide (number < bound))
        cs.blockHashesByNumber.keys.card cs.blockHashesByNumber).1, hash ∈ entry.2) ↔
      ∃ block, cs.blocksByHash.get hash = some block ∧ block.number < bound := by
  have hmem := fun number hashes => FiniteMap.mem_popFirstWhile (lt_downward bound) number hashes
    cs.blockHashesByNumber.keys.card cs.blockHashesByNumber le_rfl
  constructor
  · rintro ⟨⟨number, hashes⟩, hentry, hhash⟩
    obtain ⟨hlt, hget⟩ := (hmem number hashes).mp hentry
    obtain ⟨block, hblock, rfl⟩ :=
      (h number hash).mp (SetMap.mem_members_iff.mpr ⟨hashes, hget, hhash⟩)
    exact ⟨block, hblock, by simpa using hlt⟩
  · rintro ⟨block, hblock, hlt⟩
    obtain ⟨hashes, hget, hhash⟩ :=
      SetMap.mem_members_iff.mp ((h block.number hash).mpr ⟨block, hblock, rfl⟩)
    exact ⟨(block.number, hashes), (hmem _ _).mpr ⟨by simpa using hlt, hget⟩, hhash⟩

/-- **Pruning, blocks**: exactly the blocks numbered below the finalized one are
gone. -/
theorem removeBlocksOnFinalized_get {cs : ChainState P} (h : cs.Indexed) {finalizedHash : B256}
    {finalized : Block} (hfin : cs.blocksByHash.get finalizedHash = some finalized)
    {hash : B256} {block : Block} :
    (cs.removeBlocksOnFinalized finalizedHash).blocksByHash.get hash = some block ↔
      cs.blocksByHash.get hash = some block ∧ finalized.number ≤ block.number := by
  unfold removeBlocksOnFinalized
  rw [hfin]
  simp only [foldl_eraseAll_get, popped_iff h]
  constructor
  · intro hget
    split at hget
    · cases hget
    · next hkept => exact ⟨hget, Nat.le_of_not_lt fun hlt => hkept ⟨block, hget, hlt⟩⟩
  · rintro ⟨hget, hle⟩
    rw [if_neg, hget]
    rintro ⟨block', hget', hlt⟩
    rw [hget] at hget'
    cases hget'
    omega

/-- **Pruning, proofs**: exactly those of the blocks numbered below the finalized
one are gone. -/
theorem removeBlocksOnFinalized_proofs {cs : ChainState P} (h : cs.Indexed) {finalizedHash : B256}
    {finalized : Block} (hfin : cs.blocksByHash.get finalizedHash = some finalized)
    {hash : B256} {proof : P} :
    (cs.removeBlocksOnFinalized finalizedHash).proofs.get hash = some proof ↔
      cs.proofs.get hash = some proof ∧
        ∀ block, cs.blocksByHash.get hash = some block → finalized.number ≤ block.number := by
  unfold removeBlocksOnFinalized
  rw [hfin]
  simp only [FiniteMap.get_foldl_eraseAll, popped_iff h]
  constructor
  · intro hget
    split at hget
    · cases hget
    · next hkept =>
        exact ⟨hget, fun block hblock => Nat.le_of_not_lt fun hlt => hkept ⟨block, hblock, hlt⟩⟩
  · rintro ⟨hget, hle⟩
    rw [if_neg, hget]
    rintro ⟨block, hblock, hlt⟩
    exact Nat.not_lt_of_le (hle block hblock) hlt

/-- Pruning adds no block. -/
theorem contains_of_onFinalized {cs : ChainState P} {finalizedHash hash : B256}
    (h : (cs.onFinalized finalizedHash).Contains hash) : cs.Contains hash := by
  unfold onFinalized at h
  split at h
  · exact h
  · cases hstored : cs.blocksByHash.get finalizedHash with
    | none => rwa [removeBlocksOnFinalized_of_none hstored] at h
    | some finalized =>
        obtain ⟨block, hget⟩ := h
        unfold removeBlocksOnFinalized at hget
        rw [hstored] at hget
        simp only [foldl_eraseAll_get] at hget
        split at hget
        · cases hget
        · exact ⟨block, hget⟩

/-- **Pruning, canonical hashes**: exactly those 257 or more below the finalized
number are gone. -/
theorem removeBlocksOnFinalized_canonical {cs : ChainState P} {finalizedHash : B256}
    {finalized : Block} (hfin : cs.blocksByHash.get finalizedHash = some finalized)
    (number : ℕ) :
    (cs.removeBlocksOnFinalized finalizedHash).canonicalHashesByNumber.get number
      = if number < finalized.number - 256 then none
        else cs.canonicalHashesByNumber.get number := by
  unfold removeBlocksOnFinalized
  rw [hfin]
  have hpop := FiniteMap.popFirstWhile_get (lt_downward (finalized.number - 256)) number
    cs.canonicalHashesByNumber.keys.card cs.canonicalHashesByNumber le_rfl
  simpa using hpop

/-- The hashes canonical after pruning: those not too far below the finalized
block, if that is stored. -/
theorem isHashCanonical_onFinalized {cs : ChainState P} {finalizedHash hash : B256} :
    (cs.onFinalized finalizedHash).isHashCanonical hash ↔
      ∃ number, cs.canonicalHashesByNumber.get number = some hash ∧
        (finalizedHash ≠ 0 → ∀ finalized, cs.blocksByHash.get finalizedHash = some finalized →
          finalized.number - 256 ≤ number) := by
  unfold onFinalized
  by_cases hzero : finalizedHash = 0
  · simp only [hzero, if_true, ne_eq, not_true_eq_false, false_implies, and_true]
    exact Iff.rfl
  · rw [if_neg hzero]
    cases hstored : cs.blocksByHash.get finalizedHash with
    | none =>
        rw [removeBlocksOnFinalized_of_none hstored]
        simp only [reduceCtorEq, false_implies, implies_true, and_true]
        exact Iff.rfl
    | some finalized =>
        simp only [isHashCanonical, FiniteMap.ContainsValue,
          removeBlocksOnFinalized_canonical hstored, Option.some_inj, forall_eq', hzero, ne_eq,
          not_false_eq_true, forall_const]
        refine exists_congr fun number => ?_
        by_cases hlt : number < finalized.number - 256
        · simp only [hlt, if_true, reduceCtorEq, false_iff, not_and]
          omega
        · simp [hlt, Nat.le_of_not_lt hlt]

/-- Pruning keeps the index exact. -/
theorem Indexed.removeBlocksOnFinalized {cs : ChainState P} (h : cs.Indexed)
    (finalizedHash : B256) : (cs.removeBlocksOnFinalized finalizedHash).Indexed := by
  cases hfin : cs.blocksByHash.get finalizedHash with
  | none => rwa [removeBlocksOnFinalized_of_none hfin]
  | some finalized =>
      intro number hash
      have hindex : (cs.removeBlocksOnFinalized finalizedHash).blockHashesByNumber.get number
          = if number < finalized.number then none else cs.blockHashesByNumber.get number := by
        unfold ChainState.removeBlocksOnFinalized
        rw [hfin]
        have hpop := FiniteMap.popFirstWhile_get (lt_downward finalized.number) number
          cs.blockHashesByNumber.keys.card cs.blockHashesByNumber le_rfl
        simpa using hpop
      simp only [SetMap.mem_members_iff, hindex, removeBlocksOnFinalized_get h hfin]
      by_cases hlt : number < finalized.number
      · simp only [hlt, if_true, reduceCtorEq, false_and, exists_false, false_iff]
        rintro ⟨block, ⟨-, hle⟩, rfl⟩
        omega
      · simp only [hlt, if_false]
        rw [← SetMap.mem_members_iff, h number hash]
        constructor
        · rintro ⟨block, hget, rfl⟩
          exact ⟨block, ⟨hget, by omega⟩, rfl⟩
        · rintro ⟨block, ⟨hget, -⟩, rfl⟩
          exact ⟨block, hget, rfl⟩

end ChainState

end ZkRess
