import ZkRess.Properties.DescendantRemoval

/-!
# Eviction of old blocks

`evict_old_blocks` takes the old blocks off the index by number, evicts them, and
then walks down the child index from blocks that are no longer there.  What it
evicts is the least set that has the old blocks and every child of a member
(`OldClosed`), whatever the numbers of a block and its parent are.

Two kinds of facts are kept.  `Evicting` collects those that dropping any block
keeps: what happens to the proofs, the LRU and the index by number.  `Evicts`
adds what the walk knows: the child index is exact in every round, and a child of
an evicted block that is still there has its parent on the stack.
-/

namespace ZkRess

open Foundation

variable {P : Type}

namespace BlockBuffer

/-- The index by number lists exactly the buffered blocks. -/
def NumbersExact (buffer : BlockBuffer P) : Prop :=
  ∀ number hash, hash ∈ SetMap.members buffer.earliestBlocks number ↔
    ∃ block, buffer.blocks.get hash = some block ∧ block.number = number

/-- The set has every old block, and with a hash every buffered child of it. -/
structure OldClosed (buffer : BlockBuffer P) (blockNumber : ℕ) (hashes : Set B256) : Prop where
  old : ∀ hash block, buffer.blocks.get hash = some block → block.number ≤ blockNumber →
    hash ∈ hashes
  child : ∀ parent ∈ hashes, ∀ hash, buffer.ChildOf parent hash → hash ∈ hashes

/-- The hashes of the blocks that the second buffer no longer has. -/
def evicted (buffer buffer' : BlockBuffer P) : Set B256 :=
  {hash | (∃ block, buffer.blocks.get hash = some block) ∧ buffer'.blocks.get hash = none}

theorem Sound.numbersExact {preimage : Preimage} {buffer : BlockBuffer P}
    (h : buffer.Sound preimage) : buffer.NumbersExact := by
  intro number hash
  refine ⟨h.agrees.earliest number hash, ?_⟩
  rintro ⟨block, hget, rfl⟩
  exact h.agrees.numberIndexed hash block hget (Set.notMem_empty hash)

/-! ## What dropping a block keeps -/

/-- The other collections while old blocks are evicted. -/
private structure Evicting (initial : BlockBuffer P) (blockNumber : ℕ) (buffer : BlockBuffer P) :
    Prop where
  sub : Sub buffer initial
  kept : ∀ hash, hash ∉ evicted initial buffer →
    buffer.blocks.get hash = initial.blocks.get hash ∧
      buffer.proofs.get hash = initial.proofs.get hash
  gone : ∀ hash ∈ evicted initial buffer, buffer.proofs.get hash = none
  used : buffer.lru.keys.Sublist initial.lru.keys
  tracked : ∀ hash, hash ∈ buffer.lru.keys ↔
    hash ∈ initial.lru.keys ∧ hash ∉ evicted initial buffer
  numbered : ∀ number hash, hash ∈ SetMap.members buffer.earliestBlocks number ↔
    blockNumber < number ∧ ∃ block, buffer.blocks.get hash = some block ∧ block.number = number
  /-- The index by number has been cut off. -/
  cut : ∀ number ≤ blockNumber, FiniteMap.get buffer.earliestBlocks number = none

private theorem mem_evicted_drop {initial buffer : BlockBuffer P} (hsub : Sub buffer initial)
    {hash : B256} {block : Block} (hget : buffer.blocks.get hash = some block) (hash' : B256) :
    hash' ∈ evicted initial (buffer.drop hash block) ↔
      hash' = hash ∨ hash' ∈ evicted initial buffer := by
  show (∃ block', _) ∧ (buffer.drop hash block).blocks.get hash' = none ↔ _ ∨ (∃ block', _) ∧ _
  rw [get_drop_blocks]
  by_cases heq : hash' = hash
  · subst heq
    simp only [if_true, and_true, true_or, iff_true]
    exact ⟨block, hsub.blocks hash' block hget⟩
  · simp only [heq, if_false, false_or]

private theorem evicting_hereditary (initial : BlockBuffer P) (blockNumber : ℕ) :
    Hereditary (Evicting initial blockNumber) where
  drop buffer hash block hget h := by
    have hmem := mem_evicted_drop h.sub hget
    exact
      { sub := (drop_sub buffer hash block).trans h.sub
        kept := fun hash' hnot => by
          rw [hmem, not_or] at hnot
          rw [get_drop_blocks, get_drop_proofs, if_neg hnot.1, if_neg hnot.1]
          exact h.kept hash' hnot.2
        gone := fun hash' hgone => by
          rw [get_drop_proofs]
          by_cases heq : hash' = hash
          · exact if_pos heq
          · rw [if_neg heq]
            exact h.gone hash' (((hmem hash').mp hgone).resolve_left heq)
        used := List.erase_sublist.trans h.used
        tracked := fun hash' => by
          rw [hmem, not_or]
          show hash' ∈ (buffer.lru.remove hash).keys ↔ _
          rw [Lru.mem_remove, h.tracked]
          tauto
        numbered := fun number hash' => by
          show hash' ∈ SetMap.members (SetMap.removeMember _ _ _) number ↔ _
          rw [SetMap.mem_members_removeMember, h.numbered, get_drop_blocks]
          by_cases heq : hash' = hash
          · subst heq
            simp only [hget, Option.some_inj, exists_eq_left', if_true, reduceCtorEq, false_and,
              exists_false, and_false, iff_false, and_true]
            exact fun hand => hand.2 hand.1.2.symm
          · simp [heq]
        cut := fun number hle => by
          show FiniteMap.get (SetMap.removeMember _ _ _) number = none
          exact SetMap.get_removeMember_eq_none (h.cut number hle) }
  unlink buffer parentHash h :=
    { sub := (unlink_sub buffer parentHash).trans h.sub
      kept := h.kept
      gone := h.gone
      used := h.used
      tracked := h.tracked
      numbered := h.numbered
      cut := h.cut }

private theorem evicting_popOld {buffer : BlockBuffer P} (hnumbers : buffer.NumbersExact)
    (blockNumber : ℕ) : Evicting buffer blockNumber (buffer.popOld blockNumber) where
  sub := popOld_sub buffer blockNumber
  kept hash _ := ⟨rfl, rfl⟩
  gone hash hmem := by
    obtain ⟨⟨block, hget⟩, hnone⟩ := hmem
    cases hget.symm.trans hnone
  used := List.Sublist.refl _
  tracked hash := by
    refine (and_iff_left ?_).symm
    rintro ⟨⟨block, hget⟩, hnone⟩
    cases hget.symm.trans hnone
  numbered number hash := by
    rw [SetMap.mem_members_iff, get_popOld]
    by_cases hle : number ≤ blockNumber
    · simp only [hle, if_true, reduceCtorEq, false_and, exists_false, false_iff, not_and]
      exact fun hlt => absurd hle (Nat.not_le_of_lt hlt)
    · rw [if_neg hle, ← SetMap.mem_members_iff, hnumbers number hash]
      exact (and_iff_right (Nat.lt_of_not_le hle)).symm
  cut number hle := by rw [get_popOld, if_pos hle]

/-! ## The walk -/

/-- **The invariant of the eviction loop**, started on `initial`. -/
private structure Evicts (initial : BlockBuffer P) (blockNumber : ℕ) (stack : List B256)
    (buffer : BlockBuffer P) : Prop where
  evicting : Evicting initial blockNumber buffer
  exact : buffer.ChildrenExact
  /-- Nothing is evicted that need not be. -/
  least : ∀ hashes, initial.OldClosed blockNumber hashes → evicted initial buffer ⊆ hashes
  old : ∀ hash block, buffer.blocks.get hash = some block → blockNumber < block.number
  onStack : ∀ key ∈ stack, key ∈ evicted initial buffer
  /-- A child of an evicted block that is still there will be reached. -/
  pending : ∀ parent ∈ evicted initial buffer, ∀ hash, buffer.ChildOf parent hash → parent ∈ stack

theorem evictEach_blocks (buffer : BlockBuffer P) (hashes : List B256) (hash : B256) :
    (buffer.evictEach hashes).blocks.get hash
      = if hash ∈ hashes then none else buffer.blocks.get hash := by
  induction hashes generalizing buffer with
  | nil => rfl
  | cons evictedHash hashes ih =>
      have hone : (buffer.evictBlock evictedHash).2.blocks.get hash
          = if hash = evictedHash then none else buffer.blocks.get hash := by
        cases hget : buffer.blocks.get evictedHash with
        | some block =>
            rw [evictBlock_of_get hget]
            exact get_drop_blocks buffer evictedHash hash block
        | none =>
            rw [evictBlock_of_get_none hget]
            by_cases heq : hash = evictedHash
            · rw [if_pos heq, heq, hget]
            · rw [if_neg heq]
      show ((buffer.evictBlock evictedHash).2.evictEach hashes).blocks.get hash = _
      rw [ih, hone]
      by_cases hmem : hash ∈ hashes <;> by_cases heq : hash = evictedHash <;> simp [hmem, heq]

theorem ExactOutside.evictEach {buffer : BlockBuffer P} {away : Set B256}
    (h : buffer.ExactOutside away) (hashes : List B256) :
    (buffer.evictEach hashes).ExactOutside away := by
  induction hashes generalizing buffer with
  | nil => exact h
  | cons hash hashes ih =>
      show ((buffer.evictBlock hash).2.evictEach hashes).ExactOutside away
      apply ih
      cases hget : buffer.blocks.get hash with
      | some block =>
          rw [evictBlock_of_get hget]
          exact h.drop hget
      | none =>
          rw [evictBlock_of_get_none hget]
          exact h

/-- What is evicted afterwards: what was before, and the listed blocks. -/
private theorem mem_evicted_evictEach {initial buffer : BlockBuffer P} (buffer' : BlockBuffer P)
    (hashes : List B256) (hsub : Sub buffer initial) (hblocks : buffer'.blocks = buffer.blocks)
    (hbuffered : ∀ hash ∈ hashes, ∃ block, buffer.blocks.get hash = some block) (hash : B256) :
    hash ∈ evicted initial (buffer'.evictEach hashes) ↔
      hash ∈ hashes ∨ hash ∈ evicted initial buffer := by
  show (∃ block, _) ∧ (buffer'.evictEach hashes).blocks.get hash = none ↔ _ ∨ (∃ block, _) ∧ _
  rw [evictEach_blocks, hblocks]
  by_cases hmem : hash ∈ hashes
  · obtain ⟨block, hget⟩ := hbuffered hash hmem
    simp only [hmem, if_true, and_true, true_or, iff_true]
    exact ⟨block, hsub.blocks hash block hget⟩
  · simp only [hmem, if_false, false_or]

private theorem Evicts.visit {initial buffer : BlockBuffer P} {blockNumber : ℕ} {key : B256}
    {stack : List B256} (h : Evicts initial blockNumber (key :: stack) buffer)
    (σ : SetOrder B256) :
    Evicts initial blockNumber ((evictVisit σ key buffer).1 ++ stack)
      (evictVisit σ key buffer).2 := by
  unfold evictVisit
  cases hget : FiniteMap.get buffer.parentToChild key with
  | none =>
      refine
        { evicting := h.evicting
          exact := h.exact
          least := h.least
          old := h.old
          onStack := fun key' hmem => h.onStack key' (List.mem_cons_of_mem _ hmem)
          pending := fun parent hparent hash hchild => ?_ }
      refine (List.mem_cons.mp (h.pending parent hparent hash hchild)).resolve_left ?_
      rintro rfl
      have hlisted := (h.exact parent hash).mpr hchild
      rw [SetMap.members_of_get_none hget] at hlisted
      exact Finset.notMem_empty hash hlisted
  | some children =>
      have hchildren : ∀ hash, hash ∈ σ.toList children ↔ buffer.ChildOf key hash := by
        intro hash
        rw [σ.mem_toList, ← SetMap.members_of_get hget, h.exact]
      have hbuffered :
          ∀ hash ∈ σ.toList children, ∃ block, buffer.blocks.get hash = some block := by
        intro hash hmem
        obtain ⟨block, hblock, -⟩ := (hchildren hash).mp hmem
        exact ⟨block, hblock⟩
      have hmem := mem_evicted_evictEach (buffer.unlink key) (σ.toList children) h.evicting.sub rfl
        hbuffered
      have hchild : ∀ {parent hash},
          ((buffer.unlink key).evictEach (σ.toList children)).ChildOf parent hash →
            buffer.ChildOf parent hash ∧ hash ∉ σ.toList children := by
        rintro parent hash ⟨block, hblock, hparent⟩
        rw [evictEach_blocks] at hblock
        split at hblock
        · cases hblock
        · next hnot => exact ⟨⟨block, hblock, hparent⟩, hnot⟩
      refine
        { evicting := (evicting_hereditary initial blockNumber).evictEach _
            ((evicting_hereditary initial blockNumber).unlink buffer key h.evicting)
          exact := ((h.exact.unlink key).evictEach (σ.toList children)).settle ?_
          least := fun hashes hclosed hash hevicted => ?_
          old := fun hash block hblock => h.old hash block ?_
          onStack := fun key' hkey' => (hmem key').mpr ?_
          pending := fun parent hparent hash hof => ?_ }
      · intro hash hof
        exact (hchild hof).2 ((hchildren hash).mpr (hchild hof).1)
      · rcases (hmem hash).mp hevicted with hnew | hold
        · have hkey := h.least hashes hclosed (h.onStack key List.mem_cons_self)
          exact hclosed.child key hkey hash
            (h.evicting.sub.childOf _ _ ((hchildren hash).mp hnew))
        · exact h.least hashes hclosed hold
      · rw [evictEach_blocks] at hblock
        split at hblock
        · cases hblock
        · exact hblock
      · rcases List.mem_append.mp hkey' with hpushed | hrest
        · exact .inl (List.mem_reverse.mp hpushed)
        · exact .inr (h.onStack key' (List.mem_cons_of_mem _ hrest))
      · rcases (hmem parent).mp hparent with hnew | hold
        · exact List.mem_append_left _ (List.mem_reverse.mpr hnew)
        · refine List.mem_append_right _
            ((List.mem_cons.mp (h.pending parent hold hash (hchild hof).1)).resolve_left ?_)
          rintro rfl
          exact (hchild hof).2 ((hchildren hash).mpr (hchild hof).1)

/-- The walk starts after the old blocks themselves have been evicted. -/
private theorem evicts_start {buffer : BlockBuffer P} (hexact : buffer.ChildrenExact)
    (hnumbers : buffer.NumbersExact) (σ : SetOrder B256) (blockNumber : ℕ) :
    Evicts buffer blockNumber (oldHashes σ buffer blockNumber).reverse
      ((buffer.popOld blockNumber).evictEach (oldHashes σ buffer blockNumber)) := by
  have hold : ∀ hash, hash ∈ oldHashes σ buffer blockNumber ↔
      ∃ block, buffer.blocks.get hash = some block ∧ block.number ≤ blockNumber := by
    intro hash
    simp only [mem_oldHashes, hnumbers _ hash]
    constructor
    · rintro ⟨number, hle, block, hget, rfl⟩
      exact ⟨block, hget, hle⟩
    · rintro ⟨block, hget, hle⟩
      exact ⟨block.number, hle, block, hget, rfl⟩
  have hmem := mem_evicted_evictEach (buffer.popOld blockNumber) (oldHashes σ buffer blockNumber)
    (Sub.refl buffer) rfl fun hash hin => by
      obtain ⟨block, hget, -⟩ := (hold hash).mp hin
      exact ⟨block, hget⟩
  have hevicted : ∀ hash,
      hash ∈ evicted buffer
        ((buffer.popOld blockNumber).evictEach (oldHashes σ buffer blockNumber)) ↔
        hash ∈ oldHashes σ buffer blockNumber := by
    intro hash
    rw [hmem]
    refine or_iff_left ?_
    rintro ⟨⟨block, hget⟩, hnone⟩
    cases hget.symm.trans hnone
  have hexact' : (buffer.popOld blockNumber).ExactOutside ∅ := exactOutside_empty.mpr hexact
  refine
    { evicting := (evicting_hereditary buffer blockNumber).evictEach _
        (evicting_popOld hnumbers blockNumber)
      exact := exactOutside_empty.mp (hexact'.evictEach _)
      least := fun hashes hclosed hash hin => ?_
      old := fun hash block hget => ?_
      onStack := fun key hkey => (hevicted key).mpr (List.mem_reverse.mp hkey)
      pending := fun parent hparent hash _ => List.mem_reverse.mpr ((hevicted parent).mp hparent) }
  · obtain ⟨block, hget, hle⟩ := (hold hash).mp ((hevicted hash).mp hin)
    exact hclosed.old hash block hget hle
  · rw [evictEach_blocks] at hget
    split at hget
    · cases hget
    · next hnot => exact Nat.lt_of_not_le fun hle => hnot ((hold hash).mpr ⟨block, hget, hle⟩)

/-! ## The whole call -/

/-- What `evict_old_blocks` promises. -/
structure EvictsOld (σ : SetOrder B256) (buffer : BlockBuffer P) (blockNumber : ℕ)
    (buffer' : BlockBuffer P) : Prop where
  /-- The walk ends. -/
  terminates : Drains (evictVisit σ) (oldHashes σ buffer blockNumber).reverse
    ((buffer.popOld blockNumber).evictEach (oldHashes σ buffer blockNumber)) buffer'
  /-- Evicted is the least set with the old blocks and every child of a member. -/
  least : IsLeast {hashes | buffer.OldClosed blockNumber hashes} (evicted buffer buffer')
  /-- The proofs of these blocks are gone, too. -/
  gone : ∀ hash ∈ evicted buffer buffer', buffer'.proofs.get hash = none
  /-- Everything else is untouched. -/
  kept : ∀ hash, hash ∉ evicted buffer buffer' →
    buffer'.blocks.get hash = buffer.blocks.get hash ∧
      buffer'.proofs.get hash = buffer.proofs.get hash
  children : buffer'.ChildrenExact
  numbers : buffer'.NumbersExact
  /-- The LRU loses the evicted blocks, and keeps its order. -/
  lru : buffer'.lru.keys.Sublist buffer.lru.keys ∧
    ∀ hash, hash ∈ buffer'.lru.keys ↔ hash ∈ buffer.lru.keys ∧ hash ∉ evicted buffer buffer'
  /-- So it is exact if it was. -/
  tracked : (∀ hash, hash ∈ buffer.lru.keys ↔ ∃ block, buffer.blocks.get hash = some block) →
    ∀ hash, hash ∈ buffer'.lru.keys ↔ ∃ block, buffer'.blocks.get hash = some block
  /-- Doing it again, up to no higher number, changes nothing. -/
  again : ∀ (σ' : SetOrder B256) (blockNumber' : ℕ), blockNumber' ≤ blockNumber →
    evictOldBlocks σ' buffer' blockNumber' = buffer'

/-- Nothing happens when the index by number has been cut off already. -/
private theorem evictOldBlocks_of_cut {buffer : BlockBuffer P} {blockNumber : ℕ}
    (hcut : ∀ number ≤ blockNumber, FiniteMap.get buffer.earliestBlocks number = none)
    (σ : SetOrder B256) : evictOldBlocks σ buffer blockNumber = buffer := by
  have hpop : FiniteMap.popFirstWhile (fun number => decide (number ≤ blockNumber))
      buffer.earliestBlocks.keys.card buffer.earliestBlocks = ([], buffer.earliestBlocks) := by
    apply FiniteMap.popFirstWhile_of_none
    intro number hle
    exact hcut number (of_decide_eq_true hle)
  have hnone : oldHashes σ buffer blockNumber = [] := by
    unfold oldHashes
    rw [hpop]
    rfl
  have hsame : buffer.popOld blockNumber = buffer := by
    unfold popOld
    rw [hpop]
  rw [evictOldBlocks_eq, hnone, hsame]
  exact drain_nil (evictVisit σ) _ buffer

/-- **Eviction of old blocks** is exact, keeps the indexes exact, and is done
once. -/
theorem evictsOld {buffer : BlockBuffer P} (hexact : buffer.ChildrenExact)
    (hnumbers : buffer.NumbersExact) (σ : SetOrder B256) (blockNumber : ℕ) :
    EvictsOld σ buffer blockNumber (evictOldBlocks σ buffer blockNumber) := by
  have hstart := evicts_start hexact hnumbers σ blockNumber
  have hends : Drains (evictVisit σ) (oldHashes σ buffer blockNumber).reverse
      ((buffer.popOld blockNumber).evictEach (oldHashes σ buffer blockNumber))
      (evictOldBlocks σ buffer blockNumber) := by
    rw [evictOldBlocks_eq, BlockBuffer.evictChildren]
    apply drains_drain fun buffer : BlockBuffer P => SetMap.size buffer.parentToChild
    · exact evictVisit_weight σ
    · rw [List.length_reverse]
  have hend : Evicts buffer blockNumber [] (evictOldBlocks σ buffer blockNumber) := by
    rw [evictOldBlocks_eq, BlockBuffer.evictChildren]
    refine drain_induction (Evicts buffer blockNumber)
      (fun buffer => SetMap.size buffer.parentToChild) (fun key stack _ h => h.visit σ)
      (evictVisit_weight σ) _ _ _ ?_ hstart
    rw [List.length_reverse]
  generalize evictOldBlocks σ buffer blockNumber = buffer' at hends hend ⊢
  have hevicting := hend.evicting
  exact
    { terminates := hends
      least := by
        refine ⟨⟨fun hash block hget hle => ⟨⟨block, hget⟩, ?_⟩,
          fun parent hparent hash hchild => ?_⟩,
          fun hashes hclosed => hend.least hashes hclosed⟩
        · by_contra hleft
          obtain ⟨block', hget'⟩ := Option.ne_none_iff_exists'.mp hleft
          cases hget.symm.trans (hevicting.sub.blocks hash block' hget')
          exact Nat.not_lt_of_le hle (hend.old hash block hget')
        · obtain ⟨block, hget, hof⟩ := hchild
          refine ⟨⟨block, hget⟩, ?_⟩
          by_contra hleft
          obtain ⟨block', hget'⟩ := Option.ne_none_iff_exists'.mp hleft
          cases hget.symm.trans (hevicting.sub.blocks hash block' hget')
          exact List.not_mem_nil (hend.pending parent hparent hash ⟨block, hget', hof⟩)
      gone := hevicting.gone
      kept := hevicting.kept
      children := hend.exact
      numbers := by
        intro number hash
        rw [hevicting.numbered]
        refine and_iff_right_of_imp ?_
        rintro ⟨block, hget, rfl⟩
        exact hend.old hash block hget
      lru := ⟨hevicting.used, hevicting.tracked⟩
      tracked := by
        intro htracked hash
        rw [hevicting.tracked, htracked]
        constructor
        · rintro ⟨⟨block, hget⟩, hkept⟩
          rw [(hevicting.kept hash hkept).1]
          exact ⟨block, hget⟩
        · rintro ⟨block, hget⟩
          refine ⟨⟨block, hevicting.sub.blocks hash block hget⟩, fun hgone => ?_⟩
          cases hget.symm.trans hgone.2
      again := fun σ' blockNumber' hle =>
        evictOldBlocks_of_cut (fun number hle' => hevicting.cut number (hle'.trans hle)) σ' }

end BlockBuffer

namespace SmallWorld

theorem evictsOld_of_gappedBranch :
    BlockBuffer.EvictsOld ascending ((BlockBuffer.new 256).applyAll gappedBranch) 2
      (BlockBuffer.evictOldBlocks ascending ((BlockBuffer.new 256).applyAll gappedBranch) 2) :=
  BlockBuffer.evictsOld gappedBranch_childrenExact gappedBranch_sound.numbersExact ascending 2

/-- Block 4 goes with its parent, although its number is higher. -/
example : (BlockBuffer.evictOldBlocks ascending
    ((BlockBuffer.new 256).applyAll gappedBranch) 2).lru.keys = [] := by
  decide +kernel

end SmallWorld

end ZkRess
