import ZkRess.Foundation.Lru
import ZkRess.Foundation.Worklist
import ZkRess.Provider.ChainState

/-!
# The block buffer

Pending blocks that cannot be executed yet, with the proofs that arrived for
them.  The definitions follow `block_buffer.rs`: five collections, updated one
after the other exactly as the code does; only the metrics are dropped.

A hash set is iterated in an unspecified order, which each function that does so
takes as an argument.  The two descendant traversals are work lists, and run
through `Foundation.drain`; the walk to the lowest ancestor visits distinct
blocks as long as parent links have no cycle, so the number of buffered blocks
bounds it.

The collections agree with each other in the sense of `WellFormed`.  The child
index is the subtle one: it lists buffered blocks only, but it does *not* list
all of them — a block without a proof is struck from it when its parent is
connected, and stays in the buffer.  What the index does promise is that a block
that has both parts is listed under its parent.  Inside an operation the promise
is suspended for some hashes; `Agrees` says for which.
-/

namespace ZkRess

open Foundation

variable {P : Type}

/-- The tree of pending blocks. -/
structure BlockBuffer (P : Type) where
  /-- All blocks in the buffer stored by their block hash. -/
  blocks : BlocksByHash
  /-- All proofs stored by their block hash. -/
  proofs : FiniteMap B256 P
  /-- Map of any parent block hash to the buffered children. -/
  parentToChild : SetMap B256 B256
  /-- The buffered blocks by block number. -/
  earliestBlocks : SetMap ℕ B256
  /-- Tracks the oldest inserted blocks. -/
  lru : Lru B256

namespace BlockBuffer

/-- Create new buffer with max limit of blocks. -/
def new (limit : ℕ) : BlockBuffer P := ⟨∅, ∅, ∅, ∅, .empty limit⟩

/-- The requested proof. -/
def proof (buffer : BlockBuffer P) (hash : B256) : Option P := buffer.proofs.get hash

/-- The walk of `lowest_ancestor`: to the parent while that is buffered. -/
def lowestFrom (blocks : BlocksByHash) : ℕ → Block → Block
  | 0, currentBlock => currentBlock
  | n + 1, currentBlock =>
      match blocks.get currentBlock.parentHash with
      | some parent => lowestFrom blocks n parent
      | none => currentBlock

/-- The lowest ancestor of the given block in the buffer. -/
def lowestAncestor (buffer : BlockBuffer P) (hash : B256) : Option Block :=
  (buffer.blocks.get hash).map (lowestFrom buffer.blocks buffer.blocks.card)

/-- Insert a proof into the buffer. -/
def insertProof (buffer : BlockBuffer P) (blockHash : B256) (proof : P) : BlockBuffer P :=
  { buffer with proofs := buffer.proofs.insert blockHash proof }

/-- Remove proof from the buffer. -/
def removeProof (buffer : BlockBuffer P) (blockHash : B256) : Option P × BlockBuffer P :=
  (buffer.proofs.get blockHash, { buffer with proofs := buffer.proofs.erase blockHash })

/-- Remove block entry. -/
def removeFromEarliestBlocks (buffer : BlockBuffer P) (number : ℕ) (hash : B256) : BlockBuffer P :=
  { buffer with earliestBlocks := SetMap.removeMember buffer.earliestBlocks number hash }

/-- Remove from parent child connection. This method does not remove children. -/
def removeFromParent (buffer : BlockBuffer P) (parentHash hash : B256) : BlockBuffer P :=
  { buffer with parentToChild := SetMap.removeMember buffer.parentToChild parentHash hash }

/-- Removes block from inner collections, if it is present with its proof. -/
def removeBlock (buffer : BlockBuffer P) (hash : B256) : Option (Block × P) × BlockBuffer P :=
  match buffer.blocks.get hash with
  | none => (none, buffer)
  | some block =>
      match buffer.removeProof hash with
      | (none, buffer) => (none, buffer)
      | (some proof, buffer) =>
          let buffer := { buffer with blocks := buffer.blocks.erase hash }
          let buffer := buffer.removeFromEarliestBlocks block.number hash
          let buffer := buffer.removeFromParent block.parentHash hash
          (some (block, proof), { buffer with lru := buffer.lru.remove hash })

/-- Evicts the block from inner collections, with or without a proof. -/
def evictBlock (buffer : BlockBuffer P) (hash : B256) : Option Block × BlockBuffer P :=
  match buffer.blocks.get hash with
  | none => (none, buffer)
  | some block =>
      let buffer := { buffer with blocks := buffer.blocks.erase hash }
      let buffer := (buffer.removeProof hash).2
      let buffer := buffer.removeFromEarliestBlocks block.number hash
      let buffer := buffer.removeFromParent block.parentHash hash
      (some block, { buffer with lru := buffer.lru.remove hash })

/-- Inserts the hash and returns the oldest evicted hash if any. -/
def insertHashAndGetEvicted (buffer : BlockBuffer P) (entry : B256) :
    Option B256 × BlockBuffer P :=
  let (evicted, lru) :=
    if entry ∉ buffer.lru.keys ∧ buffer.lru.maxLength ≤ buffer.lru.keys.length then
      buffer.lru.popOldest
    else (none, buffer.lru)
  (evicted, { buffer with lru := lru.getOrInsert entry })

/-- Insert a correct block inside the buffer. -/
def insertBlock (buffer : BlockBuffer P) (block : Block) : BlockBuffer P :=
  let buffer :=
    { buffer with
      parentToChild := SetMap.addMember buffer.parentToChild block.parentHash block.hash
      earliestBlocks := SetMap.addMember buffer.earliestBlocks block.number block.hash
      blocks := buffer.blocks.insert block }
  match buffer.insertHashAndGetEvicted block.hash with
  | (none, buffer) => buffer
  | (some evictedHash, buffer) =>
      -- evict the block if limit is hit
      match buffer.evictBlock evictedHash with
      | (none, buffer) => buffer
      | (some evictedBlock, buffer) => buffer.removeFromParent evictedBlock.parentHash evictedHash

/-- Remove the listed children one after the other, collecting those that had
both parts. -/
def removeEach : List B256 → List (Block × P) × BlockBuffer P → List (Block × P) × BlockBuffer P
  | [], acc => acc
  | childHash :: children, (removed, buffer) =>
      match buffer.removeBlock childHash with
      | (some pair, buffer) => removeEach children (removed ++ [pair], buffer)
      | (none, buffer) => removeEach children (removed, buffer)

/-- One round of `remove_children`: take the children of a parent off the index,
remove them, and push them as the next parents. -/
def removeVisit (σ : SetOrder B256) (parentHash : B256)
    (acc : List (Block × P) × BlockBuffer P) : List B256 × (List (Block × P) × BlockBuffer P) :=
  match FiniteMap.get acc.2.parentToChild parentHash with
  | none => ([], acc)
  | some parentChildren =>
      let buffer :=
        { acc.2 with parentToChild := FiniteMap.erase acc.2.parentToChild parentHash }
      ((σ.toList parentChildren).reverse, removeEach (σ.toList parentChildren) (acc.1, buffer))

/-- Remove all children and their descendants for the given blocks and return
them; the last of the parents is visited first. -/
def removeChildren (σ : SetOrder B256) (buffer : BlockBuffer P) (parentHashes : List B256) :
    List (Block × P) × BlockBuffer P :=
  drain (removeVisit σ) (SetMap.size buffer.parentToChild + parentHashes.length)
    parentHashes.reverse ([], buffer)

/-- Removes the given block from the buffer and also all the children of the
block. -/
def removeBlockWithChildren (σ : SetOrder B256) (buffer : BlockBuffer P) (parentHash : B256) :
    List (Block × P) × BlockBuffer P :=
  let (own, buffer) := buffer.removeBlock parentHash
  let (children, buffer) := removeChildren σ buffer [parentHash]
  (own.toList ++ children, buffer)

/-- Evict the listed blocks one after the other. -/
def evictEach (buffer : BlockBuffer P) (hashes : List B256) : BlockBuffer P :=
  hashes.foldl (fun buffer hash => (buffer.evictBlock hash).2) buffer

/-- One round of `evict_children`. -/
def evictVisit (σ : SetOrder B256) (parentHash : B256) (buffer : BlockBuffer P) :
    List B256 × BlockBuffer P :=
  match FiniteMap.get buffer.parentToChild parentHash with
  | none => ([], buffer)
  | some parentChildren =>
      let buffer :=
        { buffer with parentToChild := FiniteMap.erase buffer.parentToChild parentHash }
      ((σ.toList parentChildren).reverse, buffer.evictEach (σ.toList parentChildren))

/-- Remove all children and their descendants for the given blocks. -/
def evictChildren (σ : SetOrder B256) (buffer : BlockBuffer P) (parentHashes : List B256) :
    BlockBuffer P :=
  drain (evictVisit σ) (SetMap.size buffer.parentToChild + parentHashes.length)
    parentHashes.reverse buffer

/-- Discard all blocks up to the block number from the buffer, with their
descendants. -/
def evictOldBlocks (σ : SetOrder B256) (buffer : BlockBuffer P) (blockNumber : ℕ) :
    BlockBuffer P :=
  let (popped, earliestBlocks) :=
    FiniteMap.popFirstWhile (fun number => decide (number ≤ blockNumber))
      buffer.earliestBlocks.keys.card buffer.earliestBlocks
  let blockHashesToRemove := popped.flatMap fun entry => σ.toList entry.2
  let buffer := { buffer with earliestBlocks }
  evictChildren σ (buffer.evictEach blockHashesToRemove) blockHashesToRemove

/-! ## Agreement of the collections -/

/-- The block is buffered together with its proof. -/
def Ready (buffer : BlockBuffer P) (hash : B256) (block : Block) (proof : P) : Prop :=
  buffer.blocks.get hash = some block ∧ buffer.proofs.get hash = some proof

/-- The hash is buffered with its proof. -/
def Removable (buffer : BlockBuffer P) (hash : B256) : Prop :=
  ∃ block proof, buffer.Ready hash block proof

/-- The five collections agree, up to hashes that may be missing from the child
index (`unlisted`) or from the index by number (`unnumbered`). -/
structure Agrees (buffer : BlockBuffer P) (unlisted unnumbered : Set B256) : Prop where
  /-- Listed children are buffered blocks with that parent. -/
  child : ∀ parent hash, hash ∈ SetMap.members buffer.parentToChild parent →
    ∃ block, buffer.blocks.get hash = some block ∧ block.parentHash = parent
  /-- A hash listed under a number is a buffered block with that number. -/
  earliest : ∀ number hash, hash ∈ SetMap.members buffer.earliestBlocks number →
    ∃ block, buffer.blocks.get hash = some block ∧ block.number = number
  /-- The LRU tracks the buffered blocks. -/
  tracked : ∀ hash, hash ∈ buffer.lru.keys ↔ ∃ block, buffer.blocks.get hash = some block
  /-- There is room for a block. -/
  room : 1 ≤ buffer.lru.maxLength
  /-- The limit is kept. -/
  bounded : buffer.lru.keys.length ≤ buffer.lru.maxLength
  /-- A block buffered with its proof is listed under its parent. -/
  proofIndexed : ∀ hash block proof, buffer.Ready hash block proof → hash ∉ unlisted →
    hash ∈ SetMap.members buffer.parentToChild block.parentHash
  /-- A buffered block is listed under its number. -/
  numberIndexed : ∀ hash block, buffer.blocks.get hash = some block → hash ∉ unnumbered →
    hash ∈ SetMap.members buffer.earliestBlocks block.number

/-- The agreement of the five collections between two operations. -/
abbrev WellFormed (buffer : BlockBuffer P) : Prop := buffer.Agrees ∅ ∅

theorem wellFormed_new {limit : ℕ} (hlimit : 1 ≤ limit) :
    (new limit : BlockBuffer P).WellFormed where
  child parent hash h := by simp [new] at h
  earliest number hash h := by simp [new] at h
  tracked hash := by simp [new]
  room := hlimit
  bounded := by simp [new]
  proofIndexed hash block proof h := by simp [new, Ready] at h
  numberIndexed hash block h := by simp [new] at h

theorem hash_of_get {buffer : BlockBuffer P} {hash : B256} {block : Block}
    (h : buffer.blocks.get hash = some block) : block.hash = hash :=
  buffer.blocks.keyed hash block h

section Agreement

variable {buffer : BlockBuffer P} {unlisted unnumbered : Set B256}

/-- An exception for a hash that is not there is no exception. -/
theorem Agrees.settle {unlisted' unnumbered' : Set B256} (h : buffer.Agrees unlisted unnumbered)
    (hlisted : ∀ hash ∈ unlisted, buffer.Removable hash → hash ∈ unlisted')
    (hnumbered : ∀ hash ∈ unnumbered, ∀ block, buffer.blocks.get hash = some block →
      hash ∈ unnumbered') : buffer.Agrees unlisted' unnumbered' where
  child := h.child
  earliest := h.earliest
  tracked := h.tracked
  room := h.room
  bounded := h.bounded
  proofIndexed hash block proof hready hnot :=
    h.proofIndexed hash block proof hready fun hmem =>
      hnot (hlisted hash hmem ⟨block, proof, hready⟩)
  numberIndexed hash block hget hnot :=
    h.numberIndexed hash block hget fun hmem => hnot (hnumbered hash hmem block hget)

theorem Agrees.insertProof (h : buffer.Agrees unlisted unnumbered) (hash : B256) (proof : P) :
    (buffer.insertProof hash proof).Agrees (unlisted ∪ {hash}) unnumbered where
  child := h.child
  earliest := h.earliest
  tracked := h.tracked
  room := h.room
  bounded := h.bounded
  proofIndexed hash' block proof' hready hnot := by
    obtain ⟨hblock, hproof⟩ := hready
    have hne : hash' ≠ hash := fun heq => hnot (.inr heq)
    refine h.proofIndexed hash' block proof' ⟨hblock, ?_⟩ fun hmem => hnot (.inl hmem)
    rwa [BlockBuffer.insertProof, FiniteMap.get_insert_of_ne _ _ hne] at hproof
  numberIndexed := h.numberIndexed

theorem Agrees.removeProof (h : buffer.Agrees unlisted unnumbered) (hash : B256) :
    (buffer.removeProof hash).2.Agrees unlisted unnumbered where
  child := h.child
  earliest := h.earliest
  tracked := h.tracked
  room := h.room
  bounded := h.bounded
  proofIndexed hash' block proof' hready hnot := by
    obtain ⟨hblock, hproof⟩ := hready
    refine h.proofIndexed hash' block proof' ⟨hblock, ?_⟩ hnot
    simp only [BlockBuffer.removeProof, FiniteMap.get_erase] at hproof
    split at hproof
    · cases hproof
    · exact hproof
  numberIndexed := h.numberIndexed

/-! ## Taking one block out -/

/-- The buffer without a block it holds: what `remove_block` and `evict_block`
leave behind. -/
def drop (buffer : BlockBuffer P) (hash : B256) (block : Block) : BlockBuffer P where
  blocks := buffer.blocks.erase hash
  proofs := buffer.proofs.erase hash
  parentToChild := SetMap.removeMember buffer.parentToChild block.parentHash hash
  earliestBlocks := SetMap.removeMember buffer.earliestBlocks block.number hash
  lru := buffer.lru.remove hash

theorem removeBlock_of_ready {hash : B256} {block : Block} {proof : P}
    (h : buffer.Ready hash block proof) :
    buffer.removeBlock hash = (some (block, proof), buffer.drop hash block) := by
  obtain ⟨hblock, hproof⟩ := h
  unfold removeBlock
  rw [hblock]
  simp only [BlockBuffer.removeProof, hproof]
  rfl

/-- A hash that lacks a part is left where it is. -/
theorem removeBlock_of_not_removable {hash : B256} (h : ¬buffer.Removable hash) :
    buffer.removeBlock hash = (none, buffer) := by
  unfold removeBlock
  cases hblock : buffer.blocks.get hash with
  | none => rfl
  | some block =>
      cases hproof : buffer.proofs.get hash with
      | some proof => exact absurd ⟨block, proof, hblock, hproof⟩ h
      | none =>
          simp only [BlockBuffer.removeProof, hproof, FiniteMap.erase_of_get_eq_none hproof]

theorem evictBlock_of_get {hash : B256} {block : Block} (h : buffer.blocks.get hash = some block) :
    buffer.evictBlock hash = (some block, buffer.drop hash block) := by
  unfold evictBlock
  rw [h]
  rfl

theorem evictBlock_of_get_none {hash : B256} (h : buffer.blocks.get hash = none) :
    buffer.evictBlock hash = (none, buffer) := by
  unfold evictBlock
  rw [h]

theorem get_drop_blocks (buffer : BlockBuffer P) (hash hash' : B256) (block : Block) :
    (buffer.drop hash block).blocks.get hash'
      = if hash' = hash then none else buffer.blocks.get hash' :=
  KeyedMap.get_erase buffer.blocks hash hash'

theorem get_drop_proofs (buffer : BlockBuffer P) (hash hash' : B256) (block : Block) :
    (buffer.drop hash block).proofs.get hash'
      = if hash' = hash then none else buffer.proofs.get hash' :=
  FiniteMap.get_erase buffer.proofs hash hash'

/-- A dropped block needs no exception any more. -/
theorem Agrees.drop (h : buffer.Agrees unlisted unnumbered) {hash : B256} {block : Block}
    (hget : buffer.blocks.get hash = some block) :
    (buffer.drop hash block).Agrees (unlisted \ {hash}) (unnumbered \ {hash}) where
  child parent hash' hmem := by
    obtain ⟨hlisted, hnot⟩ := SetMap.mem_members_removeMember.mp hmem
    obtain ⟨block', hget', hparent⟩ := h.child parent hash' hlisted
    refine ⟨block', ?_, hparent⟩
    rw [get_drop_blocks, if_neg, hget']
    rintro rfl
    rw [hget] at hget'
    cases hget'
    exact hnot ⟨hparent.symm, rfl⟩
  earliest number hash' hmem := by
    obtain ⟨hlisted, hnot⟩ := SetMap.mem_members_removeMember.mp hmem
    obtain ⟨block', hget', hnumber⟩ := h.earliest number hash' hlisted
    refine ⟨block', ?_, hnumber⟩
    rw [get_drop_blocks, if_neg, hget']
    rintro rfl
    rw [hget] at hget'
    cases hget'
    exact hnot ⟨hnumber.symm, rfl⟩
  tracked hash' := by
    simp only [BlockBuffer.drop, Lru.mem_remove, h.tracked hash', KeyedMap.get_erase]
    by_cases heq : hash' = hash <;> simp [heq]
  room := h.room
  bounded := (List.erase_sublist.length_le).trans h.bounded
  proofIndexed hash' block' proof' hready hnot := by
    obtain ⟨hblock', hproof'⟩ := hready
    rw [get_drop_blocks] at hblock'
    rw [get_drop_proofs] at hproof'
    by_cases heq : hash' = hash
    · simp [heq] at hblock'
    · rw [if_neg heq] at hblock' hproof'
      refine SetMap.mem_members_removeMember.mpr ⟨?_, fun hand => heq hand.2⟩
      exact h.proofIndexed hash' block' proof' ⟨hblock', hproof'⟩ fun hmem => hnot ⟨hmem, heq⟩
  numberIndexed hash' block' hblock' hnot := by
    rw [get_drop_blocks] at hblock'
    by_cases heq : hash' = hash
    · simp [heq] at hblock'
    · rw [if_neg heq] at hblock'
      refine SetMap.mem_members_removeMember.mpr ⟨?_, fun hand => heq hand.2⟩
      exact h.numberIndexed hash' block' hblock' fun hmem => hnot ⟨hmem, heq⟩

/-- After `remove_block` the hash needs no exception in the child index. -/
theorem Agrees.removeBlock (h : buffer.Agrees unlisted unnumbered) (hash : B256) :
    (buffer.removeBlock hash).2.Agrees (unlisted \ {hash}) unnumbered := by
  by_cases hrem : buffer.Removable hash
  · obtain ⟨block, proof, hready⟩ := hrem
    rw [removeBlock_of_ready hready]
    exact (h.drop hready.1).settle (fun _ hmem _ => hmem) fun _ hmem _ _ => hmem.1
  · rw [removeBlock_of_not_removable hrem]
    refine h.settle (fun hash' hmem hrem' => ⟨hmem, ?_⟩) fun _ hmem _ _ => hmem
    rintro rfl
    exact hrem hrem'

/-- After `evict_block` the hash needs no exception at all. -/
theorem Agrees.evictBlock (h : buffer.Agrees unlisted unnumbered) (hash : B256) :
    (buffer.evictBlock hash).2.Agrees (unlisted \ {hash}) (unnumbered \ {hash}) := by
  cases hget : buffer.blocks.get hash with
  | some block =>
      rw [evictBlock_of_get hget]
      exact h.drop hget
  | none =>
      rw [evictBlock_of_get_none hget]
      refine h.settle (fun hash' hmem hrem => ⟨hmem, ?_⟩) fun hash' hmem block hget' =>
        ⟨hmem, ?_⟩
      · rintro rfl
        obtain ⟨block, proof, hblock, -⟩ := hrem
        rw [hget] at hblock
        cases hblock
      · rintro rfl
        rw [hget] at hget'
        cases hget'

/-! ## Putting one block in -/

/-- The first three writes of `insert_block`. -/
def file (buffer : BlockBuffer P) (block : Block) : BlockBuffer P :=
  { buffer with
    parentToChild := SetMap.addMember buffer.parentToChild block.parentHash block.hash
    earliestBlocks := SetMap.addMember buffer.earliestBlocks block.number block.hash
    blocks := buffer.blocks.insert block }

/-- The hash is not buffered for a block with another header. -/
def Admits (buffer : BlockBuffer P) (block : Block) : Prop :=
  ∀ old, buffer.blocks.get block.hash = some old → old.toSealedHeader = block.toSealedHeader

/-- With the block there already, or below the limit, nothing is evicted. -/
theorem insertBlock_of_room {block : Block}
    (hroom : block.hash ∈ buffer.lru.keys ∨ buffer.lru.keys.length < buffer.lru.maxLength) :
    buffer.insertBlock block
      = { buffer.file block with lru := buffer.lru.getOrInsert block.hash } := by
  have hkeep : ¬(block.hash ∉ buffer.lru.keys ∧
      buffer.lru.maxLength ≤ buffer.lru.keys.length) := by
    rintro ⟨hnew, hfull⟩
    rcases hroom with hold | hlt
    · exact hnew hold
    · omega
  unfold insertBlock insertHashAndGetEvicted
  simp only [if_neg hkeep]
  rfl

/-- A new block in a full buffer evicts the least recently inserted one. -/
theorem insertBlock_of_full {block : Block} (h : buffer.Agrees unlisted unnumbered)
    (hnew : block.hash ∉ buffer.lru.keys) (hfull : buffer.lru.maxLength ≤ buffer.lru.keys.length) :
    ∃ victim victimBlock, buffer.lru.keys = victim :: buffer.lru.keys.tail ∧
      victim ≠ block.hash ∧ buffer.blocks.get victim = some victimBlock ∧
      buffer.insertBlock block
        = ({ buffer.file block with
              lru := buffer.lru.popOldest.2.getOrInsert block.hash }.drop victim
            victimBlock).removeFromParent victimBlock.parentHash victim := by
  cases hkeys : buffer.lru.keys with
  | nil =>
      have := h.room
      rw [hkeys] at hfull
      simp only [List.length_nil] at hfull
      omega
  | cons victim rest =>
      have hmem : victim ∈ buffer.lru.keys := by rw [hkeys]; exact List.mem_cons_self
      have hne : victim ≠ block.hash := fun heq => hnew (heq ▸ hmem)
      obtain ⟨victimBlock, hget⟩ := (h.tracked victim).mp hmem
      refine ⟨victim, victimBlock, rfl, hne, hget, ?_⟩
      have hpop : buffer.lru.popOldest = (some victim, buffer.lru.popOldest.2) :=
        Prod.ext (by simp [Lru.popOldest, hkeys]) rfl
      have hevict : block.hash ∉ buffer.lru.keys ∧
          buffer.lru.maxLength ≤ buffer.lru.keys.length := ⟨hnew, hfull⟩
      have hget' : { buffer.file block with
          lru := buffer.lru.popOldest.2.getOrInsert block.hash }.blocks.get victim
            = some victimBlock := by
        show (buffer.blocks.insert block).get victim = some victimBlock
        rw [KeyedMap.get_insert, if_neg hne, hget]
      unfold insertBlock insertHashAndGetEvicted
      simp only [if_pos hevict]
      rw [hpop]
      have hblock := evictBlock_of_get hget'
      simp only [file] at hblock ⊢
      rw [hblock]

/-- Filing a block lists it, and nothing else changes for the other hashes. -/
private theorem Agrees.fileWith (h : buffer.Agrees unlisted unnumbered) {block : Block}
    (hadmits : buffer.Admits block) {lru : Lru B256}
    (htracked : ∀ hash, hash ∈ lru.keys ↔ hash = block.hash ∨ hash ∈ buffer.lru.keys)
    (hroom : 1 ≤ lru.maxLength) (hbounded : lru.keys.length ≤ lru.maxLength) :
    { buffer.file block with lru }.Agrees (unlisted \ {block.hash})
    (unnumbered \ {block.hash}) where
  child parent hash hmem := by
    show ∃ block', (buffer.blocks.insert block).get hash = some block' ∧ _
    rw [KeyedMap.get_insert]
    rcases SetMap.mem_members_addMember.mp hmem with ⟨rfl, rfl⟩ | hold
    · exact ⟨block, if_pos rfl, rfl⟩
    · obtain ⟨block', hget, hparent⟩ := h.child parent hash hold
      by_cases heq : hash = block.hash
      · subst heq
        refine ⟨block, if_pos rfl, ?_⟩
        rw [← hparent, ← hadmits block' hget]
      · exact ⟨block', by rw [if_neg heq, hget], hparent⟩
  earliest number hash hmem := by
    show ∃ block', (buffer.blocks.insert block).get hash = some block' ∧ _
    rw [KeyedMap.get_insert]
    rcases SetMap.mem_members_addMember.mp hmem with ⟨rfl, rfl⟩ | hold
    · exact ⟨block, if_pos rfl, rfl⟩
    · obtain ⟨block', hget, hnumber⟩ := h.earliest number hash hold
      by_cases heq : hash = block.hash
      · subst heq
        refine ⟨block, if_pos rfl, ?_⟩
        rw [← hnumber, ← hadmits block' hget]
      · exact ⟨block', by rw [if_neg heq, hget], hnumber⟩
  tracked hash := by
    show hash ∈ lru.keys ↔ ∃ block', (buffer.blocks.insert block).get hash = some block'
    rw [htracked, KeyedMap.get_insert, h.tracked]
    by_cases heq : hash = block.hash <;> simp [heq]
  room := hroom
  bounded := hbounded
  proofIndexed hash block' proof hready hnot := by
    obtain ⟨hget, hproof⟩ := hready
    refine SetMap.mem_members_addMember.mpr ?_
    replace hget : (buffer.blocks.insert block).get hash = some block' := hget
    rw [KeyedMap.get_insert] at hget
    by_cases heq : hash = block.hash
    · rw [if_pos heq] at hget
      cases hget
      exact .inl ⟨rfl, heq⟩
    · rw [if_neg heq] at hget
      exact .inr (h.proofIndexed hash block' proof ⟨hget, hproof⟩ fun hmem => hnot ⟨hmem, heq⟩)
  numberIndexed hash block' hget hnot := by
    refine SetMap.mem_members_addMember.mpr ?_
    replace hget : (buffer.blocks.insert block).get hash = some block' := hget
    rw [KeyedMap.get_insert] at hget
    by_cases heq : hash = block.hash
    · rw [if_pos heq] at hget
      cases hget
      exact .inl ⟨rfl, heq⟩
    · rw [if_neg heq] at hget
      exact .inr (h.numberIndexed hash block' hget fun hmem => hnot ⟨hmem, heq⟩)

/-- Only the set of tracked hashes and the limit of the LRU matter. -/
private theorem Agrees.withLru (h : buffer.Agrees unlisted unnumbered) (lru : Lru B256)
    (htracked : ∀ hash, hash ∈ lru.keys ↔ hash ∈ buffer.lru.keys)
    (hroom : 1 ≤ lru.maxLength) (hbounded : lru.keys.length ≤ lru.maxLength) :
    { buffer with lru }.Agrees unlisted unnumbered where
  child := h.child
  earliest := h.earliest
  tracked hash := (htracked hash).trans (h.tracked hash)
  room := hroom
  bounded := hbounded
  proofIndexed := h.proofIndexed
  numberIndexed := h.numberIndexed

/-- Striking a hash that is not buffered. -/
private theorem Agrees.removeFromParent (h : buffer.Agrees unlisted unnumbered)
    {parentHash hash : B256} (hgone : buffer.blocks.get hash = none) :
    (buffer.removeFromParent parentHash hash).Agrees unlisted unnumbered where
  child parent hash' hmem := h.child parent hash' (SetMap.mem_members_removeMember.mp hmem).1
  earliest := h.earliest
  tracked := h.tracked
  room := h.room
  bounded := h.bounded
  proofIndexed hash' block proof hready hnot := by
    refine SetMap.mem_members_removeMember.mpr
      ⟨h.proofIndexed hash' block proof hready hnot, ?_⟩
    rintro ⟨-, rfl⟩
    have hget := hready.1
    rw [BlockBuffer.removeFromParent, hgone] at hget
    cases hget
  numberIndexed := h.numberIndexed

/-- **Insertion** keeps the agreement, and the inserted block is indexed. -/
theorem Agrees.insertBlock (h : buffer.Agrees unlisted unnumbered) {block : Block}
    (hadmits : buffer.Admits block) :
    (buffer.insertBlock block).Agrees (unlisted \ {block.hash}) (unnumbered \ {block.hash}) := by
  by_cases hroom : block.hash ∈ buffer.lru.keys ∨ buffer.lru.keys.length < buffer.lru.maxLength
  · rw [insertBlock_of_room hroom]
    refine h.fileWith hadmits (fun hash => ?_) h.room (Lru.length_getOrInsert_le _ _)
    rw [Lru.mem_getOrInsert]
    rcases hroom with hold | hlt
    · exact .inr ⟨hold, h.bounded⟩
    · exact .inl hlt
  · rw [not_or, not_lt] at hroom
    obtain ⟨hnew, hfull⟩ := hroom
    obtain ⟨victim, victimBlock, hkeys, hne, hget, heq⟩ := insertBlock_of_full h hnew hfull
    rw [heq]
    -- with one more place the block fits, and then the victim goes
    let wide : Lru B256 :=
      { maxLength := buffer.lru.maxLength + 1
        keys := block.hash :: buffer.lru.keys
        nodup := List.nodup_cons.mpr ⟨hnew, buffer.lru.nodup⟩ }
    have hwide : { buffer.file block with lru := wide }.Agrees (unlisted \ {block.hash})
        (unnumbered \ {block.hash}) :=
      h.fileWith hadmits (fun hash => List.mem_cons) (Nat.le_add_left 1 _)
        (Nat.succ_le_succ h.bounded)
    have hvictim : { buffer.file block with lru := wide }.blocks.get victim = some victimBlock := by
      show (buffer.blocks.insert block).get victim = some victimBlock
      rw [KeyedMap.get_insert, if_neg hne, hget]
    have hdrop : (BlockBuffer.drop { buffer.file block with lru := wide } victim
        victimBlock).Agrees (unlisted \ {block.hash}) (unnumbered \ {block.hash}) :=
      (hwide.drop hvictim).settle (fun _ hmem _ => hmem.1) fun _ hmem _ _ => hmem.1
    have hpopped : buffer.lru.popOldest.2.keys.length < buffer.lru.popOldest.2.maxLength := by
      have hlen := congrArg List.length hkeys
      have hbounded := h.bounded
      simp only [List.length_cons] at hlen
      simp only [Lru.popOldest]
      omega
    have hnodup := buffer.lru.nodup
    rw [hkeys, List.nodup_cons] at hnodup
    refine Agrees.removeFromParent (hdrop.withLru
      ((buffer.lru.popOldest.2.getOrInsert block.hash).remove victim) (fun hash => ?_) h.room ?_) ?_
    · rw [Lru.mem_remove, Lru.mem_getOrInsert (.inl hpopped)]
      show _ ↔ hash ∈ (wide.remove victim).keys
      rw [Lru.mem_remove]
      show _ ↔ hash ∈ block.hash :: buffer.lru.keys ∧ _
      rw [List.mem_cons, hkeys, List.mem_cons]
      show (hash = block.hash ∨ hash ∈ buffer.lru.keys.tail) ∧ _ ↔ _
      tauto
    · exact List.erase_sublist.length_le.trans (Lru.length_getOrInsert_le _ _)
    · show (({ buffer.file block with lru := wide }.drop victim victimBlock).blocks).get
        victim = none
      rw [get_drop_blocks, if_pos rfl]

/-- **Insertion, contents**: the block is in, and at most one other hash, the
evicted one, is out with its proof; none, if there was room. -/
theorem get_insertBlock (h : buffer.Agrees unlisted unnumbered) (block : Block) :
    ∃ evicted : Option B256, evicted = (buffer.insertHashAndGetEvicted block.hash).1 ∧
      evicted ≠ some block.hash ∧
      ((block.hash ∈ buffer.lru.keys ∨ buffer.lru.keys.length < buffer.lru.maxLength) →
        evicted = none) ∧
      (∀ hash, (buffer.insertBlock block).blocks.get hash
        = if hash = block.hash then some block
          else if evicted = some hash then none else buffer.blocks.get hash) ∧
      ∀ hash, (buffer.insertBlock block).proofs.get hash
        = if evicted = some hash then none else buffer.proofs.get hash := by
  by_cases hroom : block.hash ∈ buffer.lru.keys ∨ buffer.lru.keys.length < buffer.lru.maxLength
  · rw [insertBlock_of_room hroom]
    refine ⟨none, ?_, nofun, fun _ => rfl, fun hash => ?_, fun hash => rfl⟩
    · have hkeep : ¬(block.hash ∉ buffer.lru.keys ∧
          buffer.lru.maxLength ≤ buffer.lru.keys.length) := by
        rintro ⟨hnew, hfull⟩
        exact hroom.elim hnew (Nat.not_lt_of_le hfull)
      unfold insertHashAndGetEvicted
      rw [if_neg hkeep]
    · exact KeyedMap.get_insert buffer.blocks block hash
  · rw [not_or, not_lt] at hroom
    obtain ⟨hnew, hfull⟩ := hroom
    obtain ⟨victim, victimBlock, hkeys, hne, -, heq⟩ := insertBlock_of_full h hnew hfull
    rw [heq]
    refine ⟨some victim, ?_, fun hsome => hne (Option.some.inj hsome), fun hroom => ?_,
      fun hash => ?_, fun hash => ?_⟩
    · unfold insertHashAndGetEvicted
      rw [if_pos ⟨hnew, hfull⟩]
      show some victim = buffer.lru.keys.head?
      rw [hkeys, List.head?_cons]
    · rcases hroom with hold | hlt
      · exact absurd hold hnew
      · omega
    · show (BlockBuffer.drop _ victim victimBlock).blocks.get hash = _
      rw [get_drop_blocks]
      show (if hash = victim then none else (buffer.blocks.insert block).get hash) = _
      rw [KeyedMap.get_insert]
      by_cases hv : hash = victim
      · subst hv
        simp [hne]
      · simp [hv, Ne.symm hv]
    · show (BlockBuffer.drop _ victim victimBlock).proofs.get hash = _
      rw [get_drop_proofs]
      simp only [Option.some_inj, eq_comm]
      rfl

end Agreement

end BlockBuffer

end ZkRess
