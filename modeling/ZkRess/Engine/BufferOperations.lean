import ZkRess.Engine.BufferTraversal

/-!
# Sequences of buffer operations

The buffer as a component of its own: any of its six public methods may be
called at any time, in any order (`BufferOp`, `applyAll`).

Two kinds of facts are kept by every call.  `Sound` collects those that hold
whatever is called: the number index and the LRU agree with the blocks, nothing
is indexed that is not buffered, and no set of an index is empty.  That the
child index also lists *every* buffered block (`Listed`) is kept by all calls
but one: `remove_block_with_children` takes the children of a visited parent off
the index before it knows whether each of them can be removed, so a descendant
without a proof stays in the buffer unlisted.  `DescendantsProven` is the
condition under which there is no such descendant.

What the removals have in common is stated once (`Hereditary`): a property that
dropping one block and unlinking one parent keep, every removal keeps.
-/

namespace ZkRess

open Foundation

variable {P : Type}

/-- A call of one of the buffer's methods; a method that iterates over hash sets
comes with the order. -/
inductive BufferOp (P : Type)
  | insertBlock (block : Block)
  | insertProof (blockHash : B256) (proof : P)
  | removeProof (blockHash : B256)
  | removeBlock (hash : B256)
  | removeBlockWithChildren (σ : SetOrder B256) (parentHash : B256)
  | evictOldBlocks (σ : SetOrder B256) (blockNumber : ℕ)

namespace BufferOp

/-- The hash of the inserted block. -/
def insertedHash : BufferOp P → Option B256
  | .insertBlock block => some block.hash
  | _ => none

/-- An inserted block is the one its hash stands for. -/
def Conforms (preimage : Preimage) : BufferOp P → Prop
  | .insertBlock block => block.toSealedHeader.Conforms preimage
  | _ => True

end BufferOp

/-- The hashes of the inserted blocks, in order. -/
def inserted (ops : List (BufferOp P)) : List B256 := ops.filterMap BufferOp.insertedHash

namespace BlockBuffer

/-- The buffer after a call. -/
def apply (buffer : BlockBuffer P) : BufferOp P → BlockBuffer P
  | .insertBlock block => buffer.insertBlock block
  | .insertProof blockHash proof => buffer.insertProof blockHash proof
  | .removeProof blockHash => (buffer.removeProof blockHash).2
  | .removeBlock hash => (buffer.removeBlock hash).2
  | .removeBlockWithChildren σ parentHash => (removeBlockWithChildren σ buffer parentHash).2
  | .evictOldBlocks σ blockNumber => evictOldBlocks σ buffer blockNumber

/-- The buffer after a sequence of calls. -/
def applyAll (buffer : BlockBuffer P) (ops : List (BufferOp P)) : BlockBuffer P :=
  ops.foldl apply buffer

@[simp] theorem applyAll_nil (buffer : BlockBuffer P) : buffer.applyAll [] = buffer := rfl

@[simp] theorem applyAll_cons (buffer : BlockBuffer P) (op : BufferOp P) (ops : List (BufferOp P)) :
    buffer.applyAll (op :: ops) = (buffer.apply op).applyAll ops := rfl

/-! ## What every removal keeps -/

/-- A property kept by dropping one block and by unlinking one parent. -/
structure Hereditary (Inv : BlockBuffer P → Prop) : Prop where
  drop : ∀ buffer hash block, buffer.blocks.get hash = some block → Inv buffer →
    Inv (buffer.drop hash block)
  unlink : ∀ buffer parentHash, Inv buffer → Inv (buffer.unlink parentHash)

namespace Hereditary

variable {Inv : BlockBuffer P → Prop} {buffer : BlockBuffer P}

theorem removeBlock (hinv : Hereditary Inv) (hash : B256) (h : Inv buffer) :
    Inv (buffer.removeBlock hash).2 := by
  by_cases hrem : buffer.Removable hash
  · obtain ⟨block, proof, hready⟩ := hrem
    rw [removeBlock_of_ready hready]
    exact hinv.drop buffer hash block hready.1 h
  · rw [removeBlock_of_not_removable hrem]
    exact h

theorem evictBlock (hinv : Hereditary Inv) (hash : B256) (h : Inv buffer) :
    Inv (buffer.evictBlock hash).2 := by
  cases hget : buffer.blocks.get hash with
  | some block =>
      rw [evictBlock_of_get hget]
      exact hinv.drop buffer hash block hget h
  | none =>
      rw [evictBlock_of_get_none hget]
      exact h

theorem removeEach (hinv : Hereditary Inv) (children : List B256)
    (acc : List (Block × P) × BlockBuffer P) (h : Inv acc.2) :
    Inv (BlockBuffer.removeEach children acc).2 := by
  induction children generalizing acc with
  | nil => exact h
  | cons child children ih =>
      rw [removeEach_cons]
      exact ih _ (hinv.removeBlock child h)

theorem evictEach (hinv : Hereditary Inv) (evicted : List B256) (h : Inv buffer) :
    Inv (buffer.evictEach evicted) := by
  induction evicted generalizing buffer with
  | nil => exact h
  | cons hash evicted ih => exact ih (hinv.evictBlock hash h)

theorem removeChildren (hinv : Hereditary Inv) (σ : SetOrder B256) (parentHashes : List B256)
    (h : Inv buffer) : Inv (BlockBuffer.removeChildren σ buffer parentHashes).2 := by
  unfold BlockBuffer.removeChildren
  refine drain_preserves (fun acc : List (Block × P) × BlockBuffer P => Inv acc.2) ?_ _ _ _ h
  intro key acc hacc
  show Inv (removeVisit σ key acc).2.2
  unfold removeVisit
  cases FiniteMap.get acc.2.parentToChild key with
  | none => exact hacc
  | some children =>
      exact hinv.removeEach (σ.toList children) (acc.1, acc.2.unlink key)
        (hinv.unlink acc.2 key hacc)

theorem removeBlockWithChildren (hinv : Hereditary Inv) (σ : SetOrder B256) (parentHash : B256)
    (h : Inv buffer) : Inv (BlockBuffer.removeBlockWithChildren σ buffer parentHash).2 :=
  hinv.removeChildren σ [parentHash] (hinv.removeBlock parentHash h)

theorem evictChildren (hinv : Hereditary Inv) (σ : SetOrder B256) (parentHashes : List B256)
    (h : Inv buffer) : Inv (BlockBuffer.evictChildren σ buffer parentHashes) := by
  unfold BlockBuffer.evictChildren
  refine drain_preserves Inv ?_ _ _ _ h
  intro key buffer hbuffer
  unfold evictVisit
  cases FiniteMap.get buffer.parentToChild key with
  | none => exact hbuffer
  | some children =>
      exact hinv.evictEach (σ.toList children) (hinv.unlink buffer key hbuffer)

/-- For what does not depend on the index by number. -/
theorem evictOldBlocks (hinv : Hereditary Inv)
    (hpop : ∀ blockNumber, Inv (buffer.popOld blockNumber))
    (σ : SetOrder B256) (blockNumber : ℕ) :
    Inv (BlockBuffer.evictOldBlocks σ buffer blockNumber) := by
  rw [evictOldBlocks_eq]
  exact hinv.evictChildren σ _ (hinv.evictEach _ (hpop blockNumber))

end Hereditary

theorem sub_hereditary (initial : BlockBuffer P) :
    Hereditary fun buffer : BlockBuffer P => Sub buffer initial where
  drop buffer hash block _ h := (drop_sub buffer hash block).trans h
  unlink buffer parentHash h := (unlink_sub buffer parentHash).trans h

/-! ## What every call keeps -/

/-- The facts about the collections that no call can break. -/
structure Sound (preimage : Preimage) (buffer : BlockBuffer P) : Prop where
  agrees : buffer.Agrees Set.univ ∅
  conforms : ∀ hash block, buffer.blocks.get hash = some block →
    block.toSealedHeader.Conforms preimage
  children : SetMap.Inhabited buffer.parentToChild
  numbers : SetMap.Inhabited buffer.earliestBlocks

namespace Sound

variable {preimage : Preimage} {buffer : BlockBuffer P}

theorem new {limit : ℕ} (hlimit : 1 ≤ limit) :
    (BlockBuffer.new limit : BlockBuffer P).Sound preimage where
  agrees := (wellFormed_new hlimit).settle (fun _ _ _ => trivial) fun _ hmem _ _ => hmem
  conforms hash block hget := by simp [BlockBuffer.new] at hget
  children := SetMap.Inhabited.empty
  numbers := SetMap.Inhabited.empty

/-- A block that conforms can only replace itself. -/
theorem admits (h : buffer.Sound preimage) {block : Block}
    (hconforms : block.toSealedHeader.Conforms preimage) : buffer.Admits block := by
  intro old hget
  have hold := h.conforms block.hash old hget
  have hkey : old.hash = block.hash := hash_of_get hget
  unfold SealedHeader.Conforms at hold hconforms
  rw [hkey, hconforms] at hold
  exact (Option.some.inj hold).symm

private theorem childrenInhabited :
    Hereditary fun buffer : BlockBuffer P => SetMap.Inhabited buffer.parentToChild where
  drop _ _ _ _ h := h.removeMember _ _
  unlink _ _ h := h.erase _

private theorem numbersInhabited :
    Hereditary fun buffer : BlockBuffer P => SetMap.Inhabited buffer.earliestBlocks where
  drop _ _ _ _ h := h.removeMember _ _
  unlink _ _ h := h

theorem hereditary (preimage : Preimage) : Hereditary (P := P) (Sound preimage) where
  drop buffer hash block hget h :=
    { agrees := (h.agrees.drop hget).settle (fun _ _ _ => trivial) fun _ hmem _ _ => hmem.1
      conforms := fun hash' block' hget' =>
        h.conforms hash' block' ((drop_sub buffer hash block).blocks hash' block' hget')
      children := h.children.removeMember _ _
      numbers := h.numbers.removeMember _ _ }
  unlink buffer parentHash h :=
    { agrees :=
        { child := fun parent hash hmem =>
            h.agrees.child parent hash ((unlink_sub buffer parentHash).children parent hmem)
          earliest := h.agrees.earliest
          tracked := h.agrees.tracked
          room := h.agrees.room
          bounded := h.agrees.bounded
          proofIndexed := fun _ _ _ _ hnot => absurd trivial hnot
          numberIndexed := h.agrees.numberIndexed }
      conforms := h.conforms
      children := h.children.erase parentHash
      numbers := h.numbers }

theorem insertBlock (h : buffer.Sound preimage) {block : Block}
    (hconforms : block.toSealedHeader.Conforms preimage) :
    (buffer.insertBlock block).Sound preimage where
  agrees := (h.agrees.insertBlock (h.admits hconforms)).settle (fun _ _ _ => trivial)
    fun _ hmem _ _ => hmem.1
  conforms hash block' hget := by
    obtain ⟨evicted, -, -, -, hblocks, -⟩ := get_insertBlock h.agrees block
    rw [hblocks] at hget
    split at hget
    · cases hget
      exact hconforms
    · split at hget
      · cases hget
      · exact h.conforms hash block' hget
  children := by
    by_cases hroom : block.hash ∈ buffer.lru.keys ∨ buffer.lru.keys.length < buffer.lru.maxLength
    · rw [insertBlock_of_room hroom]
      exact h.children.addMember _ _
    · rw [not_or, not_lt] at hroom
      obtain ⟨victim, victimBlock, -, -, -, heq⟩ := insertBlock_of_full h.agrees hroom.1 hroom.2
      rw [heq]
      exact ((h.children.addMember _ _).removeMember _ _).removeMember _ _
  numbers := by
    by_cases hroom : block.hash ∈ buffer.lru.keys ∨ buffer.lru.keys.length < buffer.lru.maxLength
    · rw [insertBlock_of_room hroom]
      exact h.numbers.addMember _ _
    · rw [not_or, not_lt] at hroom
      obtain ⟨victim, victimBlock, -, -, -, heq⟩ := insertBlock_of_full h.agrees hroom.1 hroom.2
      rw [heq]
      exact (h.numbers.addMember _ _).removeMember _ _

theorem evictOldBlocks (h : buffer.Sound preimage) (σ : SetOrder B256) (blockNumber : ℕ) :
    (BlockBuffer.evictOldBlocks σ buffer blockNumber).Sound preimage := by
  rw [evictOldBlocks_eq]
  refine (hereditary preimage).evictChildren σ _ ?_
  have hsub := (evictEach_sub (buffer.popOld blockNumber) (oldHashes σ buffer blockNumber)).trans
    (popOld_sub buffer blockNumber)
  have hnumbers : SetMap.Inhabited (buffer.popOld blockNumber).earliestBlocks := by
    intro number set hget
    rw [get_popOld] at hget
    split at hget
    · cases hget
    · exact h.numbers number set hget
  exact
    { agrees := h.agrees.evictOld σ blockNumber
      conforms := fun hash block hget => h.conforms hash block (hsub.blocks hash block hget)
      children := childrenInhabited.evictEach _ h.children
      numbers := numbersInhabited.evictEach _ hnumbers }

/-- **No call breaks the soundness.** -/
theorem apply (h : buffer.Sound preimage) {op : BufferOp P} (hop : op.Conforms preimage) :
    (buffer.apply op).Sound preimage := by
  cases op with
  | insertBlock block => exact h.insertBlock hop
  | insertProof blockHash proof =>
      exact { h with
        agrees := (h.agrees.insertProof blockHash proof).settle (fun _ _ _ => trivial)
          fun _ hmem _ _ => hmem }
  | removeProof blockHash => exact { h with agrees := h.agrees.removeProof blockHash }
  | removeBlock hash => exact (hereditary preimage).removeBlock hash h
  | removeBlockWithChildren σ parentHash =>
      exact (hereditary preimage).removeBlockWithChildren σ parentHash h
  | evictOldBlocks σ blockNumber => exact h.evictOldBlocks σ blockNumber

theorem applyAll (h : buffer.Sound preimage) {ops : List (BufferOp P)}
    (hops : ∀ op ∈ ops, op.Conforms preimage) : (buffer.applyAll ops).Sound preimage := by
  induction ops generalizing buffer with
  | nil => exact h
  | cons op ops ih =>
      rw [List.forall_mem_cons] at hops
      exact ih (h.apply hops.1) hops.2

end Sound

/-! ## The order of the LRU -/

/-- The LRU has the given limit, and keeps the hashes in the order of their last
insertions. -/
structure Tracks (buffer : BlockBuffer P) (limit : ℕ) (history : List B256) : Prop where
  limit : buffer.lru.maxLength = limit
  follows : buffer.lru.Follows history

namespace Tracks

variable {buffer : BlockBuffer P} {limit : ℕ} {history : List B256}

theorem hereditary (limit : ℕ) (history : List B256) :
    Hereditary fun buffer : BlockBuffer P => buffer.Tracks limit history where
  drop _ _ _ _ h := ⟨h.limit, h.follows.sublist List.erase_sublist⟩
  unlink _ _ h := ⟨h.limit, h.follows⟩

theorem insertBlock (h : buffer.Tracks limit history) {preimage : Preimage}
    (hsound : buffer.Sound preimage) (block : Block) :
    (buffer.insertBlock block).Tracks limit (history ++ [block.hash]) := by
  by_cases hroom : block.hash ∈ buffer.lru.keys ∨ buffer.lru.keys.length < buffer.lru.maxLength
  · rw [insertBlock_of_room hroom]
    exact ⟨h.limit, h.follows.getOrInsert block.hash⟩
  · rw [not_or, not_lt] at hroom
    obtain ⟨victim, victimBlock, -, -, -, heq⟩ := insertBlock_of_full hsound.agrees hroom.1 hroom.2
    rw [heq]
    exact ⟨h.limit, (h.follows.popOldest.getOrInsert block.hash).sublist List.erase_sublist⟩

theorem apply (h : buffer.Tracks limit history) {preimage : Preimage}
    (hsound : buffer.Sound preimage) (op : BufferOp P) :
    (buffer.apply op).Tracks limit (history ++ op.insertedHash.toList) := by
  cases op with
  | insertBlock block => exact h.insertBlock hsound block
  | insertProof blockHash proof =>
      show BlockBuffer.Tracks _ limit (history ++ [])
      rw [List.append_nil]
      exact ⟨h.limit, h.follows⟩
  | removeProof blockHash =>
      show BlockBuffer.Tracks _ limit (history ++ [])
      rw [List.append_nil]
      exact ⟨h.limit, h.follows⟩
  | removeBlock hash =>
      show BlockBuffer.Tracks _ limit (history ++ [])
      rw [List.append_nil]
      exact (hereditary limit history).removeBlock hash h
  | removeBlockWithChildren σ parentHash =>
      show BlockBuffer.Tracks _ limit (history ++ [])
      rw [List.append_nil]
      exact (hereditary limit history).removeBlockWithChildren σ parentHash h
  | evictOldBlocks σ blockNumber =>
      show BlockBuffer.Tracks _ limit (history ++ [])
      rw [List.append_nil]
      exact (hereditary limit history).evictOldBlocks (fun _ => ⟨h.limit, h.follows⟩) σ blockNumber

theorem applyAll (h : buffer.Tracks limit history) {preimage : Preimage}
    (hsound : buffer.Sound preimage) {ops : List (BufferOp P)}
    (hops : ∀ op ∈ ops, op.Conforms preimage) :
    (buffer.applyAll ops).Tracks limit (history ++ inserted ops) := by
  induction ops generalizing buffer history with
  | nil => simpa [inserted] using h
  | cons op ops ih =>
      rw [List.forall_mem_cons] at hops
      have hrest := ih (h.apply hsound op) (hsound.apply hops.1) hops.2
      have hinserted : inserted (op :: ops) = op.insertedHash.toList ++ inserted ops := by
        unfold inserted
        rw [List.filterMap_cons]
        cases op.insertedHash <;> rfl
      rwa [List.append_assoc, ← hinserted] at hrest

end Tracks

/-- The LRU counts the blocks. -/
theorem Agrees.card_blocks {buffer : BlockBuffer P} {unlisted unnumbered : Set B256}
    (h : buffer.Agrees unlisted unnumbered) : buffer.blocks.card = buffer.lru.keys.length := by
  rw [← List.toFinset_card_of_nodup buffer.lru.nodup]
  refine congrArg Finset.card ?_
  ext hash
  rw [List.mem_toFinset, h.tracked]
  exact FiniteMap.mem_keys_iff

/-! ## The child index -/

/-- Every buffered block is listed under its parent, some hashes excepted. -/
def Listed (buffer : BlockBuffer P) (unlisted : Set B256) : Prop :=
  ∀ hash block, buffer.blocks.get hash = some block → hash ∉ unlisted →
    hash ∈ SetMap.members buffer.parentToChild block.parentHash

/-- The hash is buffered as a child of the parent. -/
def ChildOf (buffer : BlockBuffer P) (parent hash : B256) : Prop :=
  ∃ block, buffer.blocks.get hash = some block ∧ block.parentHash = parent

/-- The hash is not buffered, or it is buffered with its proof. -/
def Proven (buffer : BlockBuffer P) (hash : B256) : Prop :=
  ∀ block, buffer.blocks.get hash = some block → ∃ proof, buffer.proofs.get hash = some proof

theorem proven_hereditary (hash : B256) :
    Hereditary fun buffer : BlockBuffer P => buffer.Proven hash where
  drop buffer dropped _ _ h block hget := by
    rw [get_drop_blocks] at hget
    rw [get_drop_proofs]
    split at hget
    · cases hget
    · next hne =>
        rw [if_neg hne]
        exact h block hget
  unlink _ _ h := h

/-- Every buffered descendant of the hash has its proof. -/
def DescendantsProven (buffer : BlockBuffer P) (parentHash : B256) : Prop :=
  ∀ hash, Relation.TransGen buffer.ChildOf parentHash hash →
    buffer.Proven hash

namespace Listed

variable {buffer : BlockBuffer P} {unlisted : Set B256}

theorem mono {unlisted' : Set B256} (h : buffer.Listed unlisted) (hsub : unlisted ⊆ unlisted') :
    buffer.Listed unlisted' :=
  fun hash block hget hnot => h hash block hget fun hmem => hnot (hsub hmem)

theorem drop (h : buffer.Listed unlisted) (hash : B256) (block : Block) :
    (buffer.drop hash block).Listed (unlisted \ {hash}) := by
  intro hash' block' hget hnot
  rw [get_drop_blocks] at hget
  split at hget
  · cases hget
  · next hne =>
      refine SetMap.mem_members_removeMember.mpr ⟨?_, fun hand => hne hand.2⟩
      exact h hash' block' hget fun hmem => hnot ⟨hmem, hne⟩

theorem unlink (h : buffer.Listed ∅) {parentHash : B256} {children : Finset B256}
    (hget : FiniteMap.get buffer.parentToChild parentHash = some children) :
    (buffer.unlink parentHash).Listed {hash | hash ∈ children} := by
  intro hash block hblock hnot
  have hlisted := h hash block hblock (Set.notMem_empty hash)
  rw [BlockBuffer.unlink, SetMap.members_erase]
  by_cases hparent : block.parentHash = parentHash
  · rw [hparent, SetMap.members_of_get hget] at hlisted
    exact absurd hlisted hnot
  · rwa [if_neg hparent]

/-- A hash that is not buffered needs no exception. -/
theorem settle (h : buffer.Listed unlisted) {hash : B256} (hgone : buffer.blocks.get hash = none) :
    buffer.Listed (unlisted \ {hash}) := by
  intro hash' block hget hnot
  refine h hash' block hget fun hmem => hnot ⟨hmem, ?_⟩
  rintro rfl
  rw [hgone] at hget
  cases hget

theorem evictBlock (h : buffer.Listed unlisted) (hash : B256) :
    (buffer.evictBlock hash).2.Listed (unlisted \ {hash}) := by
  cases hget : buffer.blocks.get hash with
  | some block =>
      rw [evictBlock_of_get hget]
      exact h.drop hash block
  | none =>
      rw [evictBlock_of_get_none hget]
      exact h.settle hget

theorem removeBlock_mono (h : buffer.Listed unlisted) (hash : B256) :
    (buffer.removeBlock hash).2.Listed unlisted := by
  by_cases hrem : buffer.Removable hash
  · obtain ⟨block, proof, hready⟩ := hrem
    rw [removeBlock_of_ready hready]
    exact (h.drop hash block).mono Set.sdiff_subset
  · rwa [removeBlock_of_not_removable hrem]

/-- A block that has its proof, if it is there at all, is taken out. -/
theorem removeBlock (h : buffer.Listed unlisted) {hash : B256}
    (hproven : buffer.Proven hash) : (buffer.removeBlock hash).2.Listed (unlisted \ {hash}) := by
  cases hget : buffer.blocks.get hash with
  | some block =>
      obtain ⟨proof, hproof⟩ := hproven block hget
      rw [removeBlock_of_ready ⟨hget, hproof⟩]
      exact h.drop hash block
  | none =>
      rw [removeBlock_of_not_removable]
      · exact h.settle hget
      · rintro ⟨block, proof, hblock, -⟩
        rw [hget] at hblock
        cases hblock

theorem evictEach (h : buffer.Listed unlisted) (evicted : List B256) :
    (buffer.evictEach evicted).Listed (unlisted \ {hash | hash ∈ evicted}) := by
  induction evicted generalizing buffer unlisted with
  | nil => exact h.mono fun hash hmem => ⟨hmem, nofun⟩
  | cons hash evicted ih =>
      refine (ih (h.evictBlock hash)).mono ?_
      rintro hash' ⟨⟨hmem, hne⟩, hnot⟩
      exact ⟨hmem, fun hcons => (List.mem_cons.mp hcons).elim hne hnot⟩

theorem insertBlock {preimage : Preimage} (h : buffer.Listed unlisted)
    (hsound : buffer.Sound preimage) (block : Block) :
    (buffer.insertBlock block).Listed unlisted := by
  have hfile : ∀ lru, { buffer.file block with lru }.Listed unlisted := by
    intro lru hash block' hget hnot
    refine SetMap.mem_members_addMember.mpr ?_
    replace hget : (buffer.blocks.insert block).get hash = some block' := hget
    rw [KeyedMap.get_insert] at hget
    split at hget
    · next heq =>
        cases hget
        exact .inl ⟨rfl, heq⟩
    · exact .inr (h hash block' hget hnot)
  by_cases hroom : block.hash ∈ buffer.lru.keys ∨ buffer.lru.keys.length < buffer.lru.maxLength
  · rw [insertBlock_of_room hroom]
    exact hfile _
  · rw [not_or, not_lt] at hroom
    obtain ⟨victim, victimBlock, -, -, -, heq⟩ := insertBlock_of_full hsound.agrees hroom.1 hroom.2
    rw [heq]
    intro hash block' hget hnot
    have hlisted := (hfile _).drop victim victimBlock hash block' hget fun hmem => hnot hmem.1
    refine SetMap.mem_members_removeMember.mpr ⟨hlisted, ?_⟩
    rintro ⟨-, rfl⟩
    replace hget : (BlockBuffer.drop _ hash victimBlock).blocks.get hash = some block' := hget
    rw [get_drop_blocks, if_pos rfl] at hget
    cases hget

/-- Children that all have their proofs are taken out, and need no exception. -/
theorem removeEach (children : List B256) (acc : List (Block × P) × BlockBuffer P)
    (h : acc.2.Listed {hash | hash ∈ children})
    (hproven : ∀ hash ∈ children, acc.2.Proven hash) :
    (BlockBuffer.removeEach children acc).2.Listed ∅ := by
  induction children generalizing acc with
  | nil => exact h.mono fun hash hmem => nomatch hmem
  | cons child children ih =>
      rw [removeEach_cons]
      refine ih _ ((h.removeBlock (hproven child List.mem_cons_self)).mono ?_) ?_
      · rintro hash ⟨hmem, hne⟩
        exact (List.mem_cons.mp hmem).resolve_left hne
      · intro hash hmem
        exact (proven_hereditary hash).removeBlock child
          (hproven hash (List.mem_cons_of_mem _ hmem))

end Listed

/-- The removal loop started below `root`: what is on the stack is `root` or
below it, and everything below it has its proof, if it is still there. -/
private structure Clearing (preimage : Preimage) (initial : BlockBuffer P) (root : B256)
    (stack : List B256) (buffer : BlockBuffer P) : Prop where
  sound : buffer.Sound preimage
  listed : buffer.Listed ∅
  sub : Sub buffer initial
  proven : ∀ hash, Relation.TransGen initial.ChildOf root hash → buffer.Proven hash
  below : ∀ key ∈ stack, Relation.ReflTransGen initial.ChildOf root key

private theorem Clearing.visit {preimage : Preimage} {initial : BlockBuffer P} {root key : B256}
    {stack : List B256} {acc : List (Block × P) × BlockBuffer P} (σ : SetOrder B256)
    (h : Clearing preimage initial root (key :: stack) acc.2) :
    Clearing preimage initial root ((removeVisit σ key acc).1 ++ stack)
      (removeVisit σ key acc).2.2 := by
  unfold removeVisit
  cases hget : FiniteMap.get acc.2.parentToChild key with
  | none => exact { h with below := fun key' hmem => h.below key' (List.mem_cons_of_mem _ hmem) }
  | some children =>
      have hbelow : ∀ child ∈ children, Relation.TransGen initial.ChildOf root child := by
        intro child hchild
        obtain ⟨block, hblock, hparent⟩ := h.sound.agrees.child key child
          (by rwa [SetMap.members_of_get hget])
        exact Relation.TransGen.tail' (h.below key List.mem_cons_self)
          ⟨block, h.sub.blocks child block hblock, hparent⟩
      have hmem : ∀ child, child ∈ σ.toList children ↔ child ∈ children := σ.mem_toList children
      exact
        { sound := (Sound.hereditary preimage).removeEach _ (acc.1, acc.2.unlink key)
            ((Sound.hereditary preimage).unlink acc.2 key h.sound)
          listed := by
            refine Listed.removeEach _ (acc.1, acc.2.unlink key)
              ((h.listed.unlink hget).mono fun child hchild => (hmem child).mpr hchild) ?_
            intro child hchild
            exact h.proven child (hbelow child ((hmem child).mp hchild))
          sub := (sub_hereditary initial).removeEach _ (acc.1, acc.2.unlink key)
            ((sub_hereditary initial).unlink acc.2 key h.sub)
          proven := fun hash hroot =>
            (proven_hereditary hash).removeEach _ (acc.1, acc.2.unlink key) (h.proven hash hroot)
          below := by
            intro key' hkey'
            rcases List.mem_append.mp hkey' with hpushed | hold
            · exact (hbelow key' ((hmem key').mp (List.mem_reverse.mp hpushed))).to_reflTransGen
            · exact h.below key' (List.mem_cons_of_mem _ hold) }

namespace Listed

variable {buffer : BlockBuffer P}

theorem removeBlockWithChildren {preimage : Preimage} (h : buffer.Listed ∅)
    (hsound : buffer.Sound preimage) (σ : SetOrder B256) {parentHash : B256}
    (hproven : buffer.DescendantsProven parentHash) :
    (BlockBuffer.removeBlockWithChildren σ buffer parentHash).2.Listed ∅ := by
  have hstart : Clearing preimage buffer parentHash [parentHash]
      (buffer.removeBlock parentHash).2 :=
    { sound := (Sound.hereditary preimage).removeBlock parentHash hsound
      listed := h.removeBlock_mono parentHash
      sub := removeBlock_sub buffer parentHash
      proven := fun hash hbelow =>
        (proven_hereditary hash).removeBlock parentHash (hproven hash hbelow)
      below := fun key hkey => by
        rw [List.mem_singleton.mp hkey] }
  have hend := drain_induction
    (fun stack (acc : List (Block × P) × BlockBuffer P) =>
      Clearing preimage buffer parentHash stack acc.2)
    (fun acc => SetMap.size acc.2.parentToChild) (fun key stack acc hacc => hacc.visit σ)
    (removeVisit_weight σ) _ [parentHash] ([], (buffer.removeBlock parentHash).2) le_rfl hstart
  exact hend.listed

theorem evictOldBlocks (h : buffer.Listed ∅) (σ : SetOrder B256) (blockNumber : ℕ) :
    (BlockBuffer.evictOldBlocks σ buffer blockNumber).Listed ∅ := by
  have hold : (buffer.popOld blockNumber).Listed ∅ := h
  rw [evictOldBlocks_eq, BlockBuffer.evictChildren]
  refine drain_preserves (fun rest : BlockBuffer P => rest.Listed ∅) ?_ _ _ _
    ((hold.evictEach _).mono Set.sdiff_subset)
  intro key rest hrest
  unfold evictVisit
  cases hget : FiniteMap.get rest.parentToChild key with
  | none => exact hrest
  | some children =>
      refine ((hrest.unlink hget).evictEach (σ.toList children)).mono ?_
      rintro hash ⟨hmem, hnot⟩
      exact absurd ((σ.mem_toList children hash).mpr hmem) hnot

end Listed

end BlockBuffer

end ZkRess
