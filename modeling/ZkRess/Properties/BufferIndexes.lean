import ZkRess.Engine.BufferOperations
import ZkRess.Engine.SmallWorld

/-!
# The indexes and the limit of the block buffer

The buffer as a store of its own, under any sequence of calls from the empty
buffer on.

`CapacityKept` is what a bounded buffer with an index by number promises: the
LRU and the index hold exactly the buffered blocks, there are never more than the
limit, and an insertion evicts a block only if it has to — then the one whose
last insertion is oldest.

`ChildIndexExact` asks the same of the index by parent.  It holds in runs that
never remove the descendants of a block while one of them lacks its proof
(`ProvenRun`): such a descendant stays in the buffer, but is listed no longer.
-/

namespace ZkRess

open Foundation

variable {P : Type}

namespace BlockBuffer

/-! ## Capacity, eviction order and the index by number -/

/-- What the buffer promises after the insertions of the history. -/
structure CapacityKept (limit : ℕ) (history : List B256) (buffer : BlockBuffer P) : Prop where
  /-- The LRU has the buffered blocks. -/
  tracked : ∀ hash, hash ∈ buffer.lru.keys ↔ ∃ block, buffer.blocks.get hash = some block
  /-- So has the index by number. -/
  numbered : ∀ number hash, hash ∈ SetMap.members buffer.earliestBlocks number ↔
    ∃ block, buffer.blocks.get hash = some block ∧ block.number = number
  inhabited : SetMap.Inhabited buffer.earliestBlocks
  bounded : buffer.blocks.card ≤ limit
  /-- A new block in a full buffer takes the place of the one that was inserted
  least recently, which goes with its proof. -/
  evictsOldest : ∀ block, buffer.blocks.get block.hash = none → buffer.blocks.card = limit →
    ∃ victim, (∃ victimBlock, buffer.blocks.get victim = some victimBlock) ∧
      (∀ other otherBlock, buffer.blocks.get other = some otherBlock → other ≠ victim →
        LastBefore history victim other) ∧
      (∀ hash, (buffer.insertBlock block).blocks.get hash
        = if hash = block.hash then some block
          else if hash = victim then none else buffer.blocks.get hash) ∧
      ∀ hash, (buffer.insertBlock block).proofs.get hash
        = if hash = victim then none else buffer.proofs.get hash
  /-- Otherwise everything stays. -/
  evictsNone : ∀ block, (∃ old, buffer.blocks.get block.hash = some old) ∨
      buffer.blocks.card < limit →
    (∀ hash, (buffer.insertBlock block).blocks.get hash
      = if hash = block.hash then some block else buffer.blocks.get hash) ∧
    ∀ hash, (buffer.insertBlock block).proofs.get hash = buffer.proofs.get hash

theorem Sound.capacityKept {preimage : Preimage} {buffer : BlockBuffer P} {limit : ℕ}
    {history : List B256} (h : buffer.Sound preimage) (htracks : buffer.Tracks limit history) :
    CapacityKept limit history buffer where
  tracked := h.agrees.tracked
  numbered number hash := by
    refine ⟨h.agrees.earliest number hash, ?_⟩
    rintro ⟨block, hget, rfl⟩
    exact h.agrees.numberIndexed hash block hget (Set.notMem_empty hash)
  inhabited := h.numbers
  bounded := by
    rw [h.agrees.card_blocks, ← htracks.limit]
    exact h.agrees.bounded
  evictsOldest block hnew hfull := by
    rw [h.agrees.card_blocks, ← htracks.limit] at hfull
    have hnot : block.hash ∉ buffer.lru.keys := by
      intro hmem
      obtain ⟨old, hold⟩ := (h.agrees.tracked _).mp hmem
      rw [hnew] at hold
      cases hold
    obtain ⟨victim, victimBlock, hkeys, hne, hget, heq⟩ :=
      insertBlock_of_full h.agrees hnot hfull.ge
    refine ⟨victim, ⟨victimBlock, hget⟩, fun other otherBlock hother hdistinct => ?_,
      fun hash => ?_, fun hash => ?_⟩
    · have hmem : other ∈ buffer.lru.keys := (h.agrees.tracked other).mpr ⟨otherBlock, hother⟩
      rw [hkeys] at hmem
      exact htracks.follows.oldest hkeys other ((List.mem_cons.mp hmem).resolve_left hdistinct)
    · rw [heq]
      show (BlockBuffer.drop _ victim victimBlock).blocks.get hash = _
      rw [get_drop_blocks]
      show (if hash = victim then none else (buffer.blocks.insert block).get hash) = _
      rw [KeyedMap.get_insert]
      by_cases hvictim : hash = victim
      · rw [if_pos hvictim, if_neg (hvictim ▸ hne), if_pos hvictim]
      · rw [if_neg hvictim, if_neg hvictim]
    · rw [heq]
      show (BlockBuffer.drop _ victim victimBlock).proofs.get hash = _
      rw [get_drop_proofs]
      rfl
  evictsNone block hroom := by
    rw [h.agrees.card_blocks, ← htracks.limit, ← h.agrees.tracked] at hroom
    rw [insertBlock_of_room hroom]
    exact ⟨fun hash => KeyedMap.get_insert buffer.blocks block hash, fun hash => rfl⟩

/-- **The buffer keeps its limit** and its order of eviction, whatever is called. -/
theorem capacityKept_of_calls {limit : ℕ} (hlimit : 1 ≤ limit) {preimage : Preimage}
    {ops : List (BufferOp P)} (hops : ∀ op ∈ ops, op.Conforms preimage) :
    CapacityKept limit (inserted ops) ((new limit).applyAll ops) := by
  have hstart : (new limit : BlockBuffer P).Tracks limit [] := ⟨rfl, Lru.follows_empty limit⟩
  exact ((Sound.new hlimit).applyAll hops).capacityKept
    (hstart.applyAll (Sound.new hlimit) hops)

/-! ## The child index -/

/-- The child index lists exactly the buffered blocks, each under its parent. -/
structure ChildIndexExact (buffer : BlockBuffer P) : Prop where
  listed : ∀ parent hash, hash ∈ SetMap.members buffer.parentToChild parent ↔
    ∃ block, buffer.blocks.get hash = some block ∧ block.parentHash = parent
  inhabited : SetMap.Inhabited buffer.parentToChild

/-- No descendant without a proof is in the way of the call. -/
def Unhindered (buffer : BlockBuffer P) : BufferOp P → Prop
  | .removeBlockWithChildren _ parentHash => buffer.DescendantsProven parentHash
  | _ => True

/-- Descendants are removed only when all of them have their proofs. -/
def ProvenRun : BlockBuffer P → List (BufferOp P) → Prop
  | _, [] => True
  | buffer, op :: ops => buffer.Unhindered op ∧ ProvenRun (buffer.apply op) ops

theorem Listed.apply {preimage : Preimage} {buffer : BlockBuffer P} (h : buffer.Listed ∅)
    (hsound : buffer.Sound preimage) {op : BufferOp P} (hop : buffer.Unhindered op) :
    (buffer.apply op).Listed ∅ := by
  cases op with
  | insertBlock block => exact h.insertBlock hsound block
  | insertProof blockHash proof => exact h
  | removeProof blockHash => exact h
  | removeBlock hash => exact h.removeBlock_mono hash
  | removeBlockWithChildren σ parentHash => exact h.removeBlockWithChildren hsound σ hop
  | evictOldBlocks σ blockNumber => exact h.evictOldBlocks σ blockNumber

theorem Listed.applyAll {preimage : Preimage} {buffer : BlockBuffer P} {ops : List (BufferOp P)}
    (h : buffer.Listed ∅) (hsound : buffer.Sound preimage)
    (hops : ∀ op ∈ ops, op.Conforms preimage) (hproven : buffer.ProvenRun ops) :
    (buffer.applyAll ops).Listed ∅ := by
  induction ops generalizing buffer with
  | nil => exact h
  | cons op ops ih =>
      rw [List.forall_mem_cons] at hops
      exact ih (h.apply hsound hproven.1) (hsound.apply hops.1) hops.2 hproven.2

/-- **The child index is exact** after every sequence of calls that removes no
descendants while one of them lacks its proof. -/
theorem childIndexExact_of_provenRun {limit : ℕ} (hlimit : 1 ≤ limit) {preimage : Preimage}
    {ops : List (BufferOp P)} (hops : ∀ op ∈ ops, op.Conforms preimage)
    (hproven : (new limit).ProvenRun ops) : ((new limit).applyAll ops).ChildIndexExact := by
  have hsound := (Sound.new (P := P) hlimit).applyAll hops
  have hstart : (new limit : BlockBuffer P).Listed ∅ := by
    intro hash block hget
    simp [new] at hget
  have hlisted := hstart.applyAll (Sound.new hlimit) hops hproven
  refine ⟨fun parent hash => ⟨hsound.agrees.child parent hash, ?_⟩, hsound.children⟩
  rintro ⟨block, hget, rfl⟩
  exact hlisted hash block hget (Set.notMem_empty hash)

end BlockBuffer

namespace SmallWorld

/-- Two blocks in a buffer of two places, the older of them inserted again. -/
def reinserted : List (BufferOp Bool) :=
  [.insertBlock (block 2 1 1), .insertProof 3 true, .insertBlock (block 3 2 2),
    .insertBlock (block 2 1 1)]

theorem capacityKept_of_reinserted :
    BlockBuffer.CapacityKept 2 [2, 3, 2] ((BlockBuffer.new 2).applyAll reinserted) := by
  have hops : ∀ op ∈ reinserted, op.Conforms forkFeed.preimage := by
    intro op hmem
    simp only [reinserted, List.mem_cons, List.not_mem_nil, or_false] at hmem
    rcases hmem with rfl | rfl | rfl | rfl
    · show (block 2 1 1).toSealedHeader.Conforms forkFeed.preimage
      decide +kernel
    · trivial
    · show (block 3 2 2).toSealedHeader.Conforms forkFeed.preimage
      decide +kernel
    · show (block 2 1 1).toSealedHeader.Conforms forkFeed.preimage
      decide +kernel
  exact BlockBuffer.capacityKept_of_calls (by decide) hops

/-- The third block takes the place of the one that was not inserted again. -/
example :
    ((((BlockBuffer.new 2).applyAll reinserted).insertBlock (block 4 3 3)).blocks.get 3,
      (((BlockBuffer.new 2).applyAll reinserted).insertBlock (block 4 3 3)).proofs.get 3)
        = (none, none) := by
  decide +kernel

/-- A block without its proof when the descendants of its parent are removed. -/
def removedBeforeProof : List (BufferOp Bool) :=
  [.insertBlock (block 3 2 2), .removeBlockWithChildren ascending 2]

/-- **A block without its proof falls out of the child index.** -/
theorem unproven_child_unlisted :
    ¬∀ (limit : ℕ) (ops : List (BufferOp Bool)), 1 ≤ limit →
      (∀ op ∈ ops, op.Conforms forkFeed.preimage) →
        ((BlockBuffer.new limit).applyAll ops).ChildIndexExact := by
  intro hall
  have hops : ∀ op ∈ removedBeforeProof, op.Conforms forkFeed.preimage := by
    intro op hmem
    simp only [removedBeforeProof, List.mem_cons, List.not_mem_nil, or_false] at hmem
    rcases hmem with rfl | rfl
    · show (block 3 2 2).toSealedHeader.Conforms forkFeed.preimage
      decide +kernel
    · trivial
  have hexact := hall 2 removedBeforeProof (by decide) hops
  have hblock : ((BlockBuffer.new 2).applyAll removedBeforeProof).blocks.get 3
      = some (block 3 2 2) := by
    decide +kernel
  have hunlisted : (3 : B256) ∉ SetMap.members
      ((BlockBuffer.new 2).applyAll removedBeforeProof).parentToChild 2 := by
    decide +kernel
  exact hunlisted ((hexact.listed 2 3).mpr ⟨block 3 2 2, hblock, rfl⟩)

/-- The same removal after the proof has arrived. -/
def removedAfterProof : List (BufferOp Bool) :=
  [.insertProof 3 true, .insertBlock (block 3 2 2), .removeBlockWithChildren ascending 2]

theorem childIndexExact_of_removedAfterProof :
    ((BlockBuffer.new 2).applyAll removedAfterProof).ChildIndexExact := by
  have hops : ∀ op ∈ removedAfterProof, op.Conforms forkFeed.preimage := by
    intro op hmem
    simp only [removedAfterProof, List.mem_cons, List.not_mem_nil, or_false] at hmem
    rcases hmem with rfl | rfl | rfl
    · trivial
    · show (block 3 2 2).toSealedHeader.Conforms forkFeed.preimage
      decide +kernel
    · trivial
  refine BlockBuffer.childIndexExact_of_provenRun (by decide) hops
    ⟨trivial, trivial, fun hash _ block' hget => ?_, trivial⟩
  -- the only buffered block is block 3
  have hroom : (block 3 2 2).hash ∈ ((BlockBuffer.new 2).insertProof 3 true).lru.keys ∨
      ((BlockBuffer.new 2).insertProof 3 true).lru.keys.length
        < ((BlockBuffer.new 2).insertProof 3 true).lru.maxLength := by
    decide +kernel
  replace hget : ((BlockBuffer.insertProof (BlockBuffer.new 2) 3 true).insertBlock
      (block 3 2 2)).blocks.get hash = some block' := hget
  rw [BlockBuffer.insertBlock_of_room hroom] at hget
  replace hget : (KeyedMap.insert ∅ (block 3 2 2) : BlocksByHash).get hash = some block' := hget
  rw [KeyedMap.get_insert] at hget
  split at hget
  · next heq =>
      subst heq
      exact ⟨true, by decide +kernel⟩
  · cases hget

end SmallWorld

end ZkRess
