import ZkRess.Engine.BlockBuffer

/-!
# Descendant traversals of the block buffer

What `remove_block_with_children` and `evict_old_blocks` do to the buffer, for
every iteration order of the hash sets.

The removal loop is described by `Removal`, the invariant of its work list: the
keys on the stack lack a part, so a block removed later is never the parent of
one removed before, and every ready block whose parent has been removed still
has that parent on the stack.  At the empty stack this says that the returned
list comes parents first and that no ready child of a removed block is left
behind (`RemovedWith`).
-/

namespace ZkRess

open Foundation

variable {P : Type}

namespace BlockBuffer

/-- The hashes of the removed blocks. -/
def hashes (removed : List (Block × P)) : List B256 := removed.map fun pair => pair.1.hash

@[simp] theorem hashes_nil : hashes ([] : List (Block × P)) = [] := rfl

@[simp] theorem hashes_cons (pair : Block × P) (removed : List (Block × P)) :
    hashes (pair :: removed) = pair.1.hash :: hashes removed := rfl

@[simp] theorem hashes_append (removed removed' : List (Block × P)) :
    hashes (removed ++ removed') = hashes removed ++ hashes removed' := List.map_append

/-- Nothing is added: what the second buffer holds, the first one held. -/
structure Sub (buffer' buffer : BlockBuffer P) : Prop where
  blocks : ∀ hash block, buffer'.blocks.get hash = some block → buffer.blocks.get hash = some block
  proofs : ∀ hash proof, buffer'.proofs.get hash = some proof → buffer.proofs.get hash = some proof
  children : ∀ parent, SetMap.members buffer'.parentToChild parent
    ⊆ SetMap.members buffer.parentToChild parent
  lruLimit : buffer'.lru.maxLength = buffer.lru.maxLength

namespace Sub

variable {buffer buffer' buffer'' : BlockBuffer P}

theorem refl (buffer : BlockBuffer P) : Sub buffer buffer :=
  ⟨fun _ _ h => h, fun _ _ h => h, fun _ => subset_rfl, rfl⟩

theorem trans (h' : Sub buffer'' buffer') (h : Sub buffer' buffer) : Sub buffer'' buffer :=
  ⟨fun hash block hget => h.blocks hash block (h'.blocks hash block hget),
    fun hash proof hget => h.proofs hash proof (h'.proofs hash proof hget),
    fun parent => (h'.children parent).trans (h.children parent), h'.lruLimit.trans h.lruLimit⟩

theorem ready (h : Sub buffer' buffer) {hash : B256} {block : Block} {proof : P}
    (hready : buffer'.Ready hash block proof) : buffer.Ready hash block proof :=
  ⟨h.blocks hash block hready.1, h.proofs hash proof hready.2⟩

theorem removable (h : Sub buffer' buffer) {hash : B256} (hrem : buffer'.Removable hash) :
    buffer.Removable hash := by
  obtain ⟨block, proof, hready⟩ := hrem
  exact ⟨block, proof, h.ready hready⟩

end Sub

section Steps

variable {buffer : BlockBuffer P} {unlisted unnumbered : Set B256}

theorem drop_sub (buffer : BlockBuffer P) (hash : B256) (block : Block) :
    Sub (buffer.drop hash block) buffer where
  blocks hash' block' hget := by
    rw [get_drop_blocks] at hget
    split at hget
    · cases hget
    · exact hget
  proofs hash' proof hget := by
    rw [get_drop_proofs] at hget
    split at hget
    · cases hget
    · exact hget
  children parent hash' hmem := (SetMap.mem_members_removeMember.mp hmem).1
  lruLimit := rfl

theorem removeBlock_sub (buffer : BlockBuffer P) (hash : B256) :
    Sub (buffer.removeBlock hash).2 buffer := by
  by_cases hrem : buffer.Removable hash
  · obtain ⟨block, proof, hready⟩ := hrem
    rw [removeBlock_of_ready hready]
    exact drop_sub buffer hash block
  · rw [removeBlock_of_not_removable hrem]
    exact Sub.refl buffer

theorem evictBlock_sub (buffer : BlockBuffer P) (hash : B256) :
    Sub (buffer.evictBlock hash).2 buffer := by
  cases hget : buffer.blocks.get hash with
  | some block =>
      rw [evictBlock_of_get hget]
      exact drop_sub buffer hash block
  | none =>
      rw [evictBlock_of_get_none hget]
      exact Sub.refl buffer

/-- The buffer without the children listed under a parent. -/
def unlink (buffer : BlockBuffer P) (parentHash : B256) : BlockBuffer P :=
  { buffer with parentToChild := FiniteMap.erase buffer.parentToChild parentHash }

theorem unlink_sub (buffer : BlockBuffer P) (parentHash : B256) :
    Sub (buffer.unlink parentHash) buffer where
  blocks _ _ h := h
  proofs _ _ h := h
  children parent hash hmem := by
    rw [unlink, SetMap.members_erase] at hmem
    split at hmem
    · simp at hmem
    · exact hmem
  lruLimit := rfl

private theorem Agrees.unlink (h : buffer.WellFormed) {parentHash : B256} {children : Finset B256}
    (hget : FiniteMap.get buffer.parentToChild parentHash = some children) :
    (buffer.unlink parentHash).Agrees {hash | hash ∈ children} ∅ where
  child parent hash hmem :=
    h.child parent hash ((unlink_sub buffer parentHash).children parent hmem)
  earliest := h.earliest
  tracked := h.tracked
  room := h.room
  bounded := h.bounded
  proofIndexed hash block proof hready hnot := by
    have hlisted := h.proofIndexed hash block proof hready (Set.notMem_empty hash)
    rw [BlockBuffer.unlink, SetMap.members_erase]
    by_cases hparent : block.parentHash = parentHash
    · rw [hparent, SetMap.members_of_get hget] at hlisted
      exact absurd hlisted hnot
    · rwa [if_neg hparent]
  numberIndexed := h.numberIndexed

end Steps

/-- What is taken out of a buffer: ready blocks with their proofs, each once, and
nothing else. -/
structure Takes (initial : BlockBuffer P) (removed : List (Block × P))
    (buffer : BlockBuffer P) : Prop where
  sub : Sub buffer initial
  blocks : ∀ hash, buffer.blocks.get hash
    = if hash ∈ hashes removed then none else initial.blocks.get hash
  proofs : ∀ hash, buffer.proofs.get hash
    = if hash ∈ hashes removed then none else initial.proofs.get hash
  ready : ∀ pair ∈ removed, initial.Ready pair.1.hash pair.1 pair.2
  nodup : (hashes removed).Nodup

namespace Takes

variable {initial buffer buffer' : BlockBuffer P} {removed removed' : List (Block × P)}

theorem refl (buffer : BlockBuffer P) : Takes buffer [] buffer :=
  ⟨.refl buffer, fun _ => rfl, fun _ => rfl, nofun, .nil⟩

theorem not_removable (h : Takes initial removed buffer) {hash : B256}
    (hmem : hash ∈ hashes removed) : ¬buffer.Removable hash := by
  rintro ⟨block, proof, hget, -⟩
  rw [h.blocks, if_pos hmem] at hget
  cases hget

theorem drop {hash : B256} {block : Block} {proof : P} (hready : buffer.Ready hash block proof) :
    Takes buffer [(block, proof)] (buffer.drop hash block) := by
  obtain rfl : block.hash = hash := hash_of_get hready.1
  refine ⟨drop_sub buffer block.hash block, fun hash => ?_, fun hash => ?_, ?_,
    List.nodup_singleton _⟩
  · simp only [get_drop_blocks, hashes_cons, hashes_nil, List.mem_singleton]
  · simp only [get_drop_proofs, hashes_cons, hashes_nil, List.mem_singleton]
  · intro pair hpair
    rwa [List.mem_singleton.mp hpair]

/-- The child index holds no blocks. -/
theorem unlink (h : Takes initial removed buffer) (key : B256) :
    Takes initial removed (buffer.unlink key) :=
  ⟨(unlink_sub buffer key).trans h.sub, h.blocks, h.proofs, h.ready, h.nodup⟩

theorem trans (h : Takes initial removed buffer) (h' : Takes buffer removed' buffer') :
    Takes initial (removed ++ removed') buffer' where
  sub := h'.sub.trans h.sub
  blocks hash := by
    rw [h'.blocks, h.blocks, hashes_append]
    by_cases hold : hash ∈ hashes removed <;> by_cases hnew : hash ∈ hashes removed' <;>
      simp [hold, hnew]
  proofs hash := by
    rw [h'.proofs, h.proofs, hashes_append]
    by_cases hold : hash ∈ hashes removed <;> by_cases hnew : hash ∈ hashes removed' <;>
      simp [hold, hnew]
  ready pair hpair := by
    rcases List.mem_append.mp hpair with hold | hnew
    · exact h.ready pair hold
    · exact h.sub.ready (h'.ready pair hnew)
  nodup := by
    rw [hashes_append]
    refine List.nodup_append.mpr ⟨h.nodup, h'.nodup, ?_⟩
    rintro hash hold hash' hnew rfl
    obtain ⟨pair, hpair, rfl⟩ := List.mem_map.mp hnew
    exact h.not_removable hold ⟨pair.1, pair.2, h'.ready pair hpair⟩

end Takes

/-! ## Removal -/

theorem removeEach_cons (child : B256) (children : List B256)
    (acc : List (Block × P) × BlockBuffer P) :
    removeEach (child :: children) acc
      = removeEach children
          (acc.1 ++ (acc.2.removeBlock child).1.toList, (acc.2.removeBlock child).2) := by
  obtain ⟨removed, buffer⟩ := acc
  rw [removeEach]
  split
  · next heq => rw [heq, Option.toList_some]
  · next heq => rw [heq, Option.toList_none, List.append_nil]

/-- What removing a list of children does. -/
structure Removes (children : List B256) (acc acc' : List (Block × P) × BlockBuffer P)
    (added : List (Block × P)) : Prop where
  list : acc'.1 = acc.1 ++ added
  sub : Sub acc'.2 acc.2
  sublist : (hashes added).Sublist children
  ready : ∀ pair ∈ added, acc.2.Ready pair.1.hash pair.1 pair.2
  blocks : ∀ hash, acc'.2.blocks.get hash
    = if hash ∈ hashes added then none else acc.2.blocks.get hash
  proofs : ∀ hash, acc'.2.proofs.get hash
    = if hash ∈ hashes added then none else acc.2.proofs.get hash
  spent : ∀ hash ∈ children, ¬acc'.2.Removable hash
  /-- Only the removed blocks are struck, each under its parent. -/
  listed : ∀ parent hash, hash ∈ SetMap.members acc'.2.parentToChild parent ↔
    hash ∈ SetMap.members acc.2.parentToChild parent ∧
      ¬∃ pair ∈ added, pair.1.parentHash = parent ∧ pair.1.hash = hash

theorem Removes.takes {children : List B256} {acc acc' : List (Block × P) × BlockBuffer P}
    {added : List (Block × P)} (h : Removes children acc acc' added) (hnodup : children.Nodup) :
    Takes acc.2 added acc'.2 :=
  ⟨h.sub, h.blocks, h.proofs, h.ready, h.sublist.nodup hnodup⟩

theorem exists_removes (children : List B256) (hnodup : children.Nodup)
    (acc : List (Block × P) × BlockBuffer P) :
    ∃ added, Removes children acc (removeEach children acc) added := by
  induction children generalizing acc with
  | nil =>
      refine ⟨[], ?_⟩
      exact { list := by simp [removeEach]
              sub := Sub.refl acc.2
              sublist := .slnil
              ready := fun pair hpair => by cases hpair
              blocks := fun hash => rfl
              proofs := fun hash => rfl
              spent := fun hash hmem => by cases hmem
              listed := fun parent hash => by simp [removeEach] }
  | cons child children ih =>
      rw [List.nodup_cons] at hnodup
      obtain ⟨hfresh, hnodup⟩ := hnodup
      by_cases hrem : acc.2.Removable child
      · obtain ⟨block, proof, hready⟩ := hrem
        have hkey : block.hash = child := hash_of_get hready.1
        have heq : removeEach (child :: children) acc
            = removeEach children (acc.1 ++ [(block, proof)], acc.2.drop child block) := by
          rw [removeEach_cons, removeBlock_of_ready hready, Option.toList_some]
        obtain ⟨added, hadded⟩ := ih hnodup (acc.1 ++ [(block, proof)], acc.2.drop child block)
        rw [heq]
        refine ⟨(block, proof) :: added, ?_⟩
        have htaken := (Takes.drop hready).trans (hadded.takes hnodup)
        exact
          { list := by rw [hadded.list, List.append_assoc, List.singleton_append]
            sub := htaken.sub
            sublist := by
              rw [hashes_cons, hkey]
              exact hadded.sublist.cons_cons child
            ready := htaken.ready
            blocks := htaken.blocks
            proofs := htaken.proofs
            spent := by
              intro hash hmem
              rcases List.mem_cons.mp hmem with rfl | hmem
              · exact htaken.not_removable (hkey ▸ List.mem_cons_self)
              · exact hadded.spent hash hmem
            listed := by
              intro parent hash
              rw [hadded.listed]
              show hash ∈ SetMap.members (SetMap.removeMember _ _ _) parent ∧ _ ↔ _
              rw [SetMap.mem_members_removeMember, and_assoc, ← not_or, List.exists_mem_cons_iff,
                hkey, eq_comm (a := parent), eq_comm (a := hash)] }
      · have heq : removeEach (child :: children) acc = removeEach children acc := by
          rw [removeEach_cons, removeBlock_of_not_removable hrem, Option.toList_none,
            List.append_nil]
        obtain ⟨added, hadded⟩ := ih hnodup acc
        rw [heq]
        refine ⟨added, { hadded with sublist := hadded.sublist.cons child, spent := ?_ }⟩
        intro hash hmem
        rcases List.mem_cons.mp hmem with rfl | hmem
        · exact fun hrem' => hrem (hadded.sub.removable hrem')
        · exact hadded.spent hash hmem

private theorem Agrees.removeEach (children : List B256) (acc : List (Block × P) × BlockBuffer P)
    (h : acc.2.Agrees {hash | hash ∈ children} ∅) :
    (BlockBuffer.removeEach children acc).2.WellFormed := by
  induction children generalizing acc with
  | nil => exact h.settle (fun hash hmem _ => by simp at hmem) fun _ hmem _ _ => hmem
  | cons child children ih =>
      rw [removeEach_cons]
      apply ih
      refine (h.removeBlock child).settle (fun hash hmem _ => ?_) fun _ hmem _ _ => hmem
      exact (List.mem_cons.mp hmem.1).resolve_left hmem.2

/-- **The invariant of the removal loop**, started on `initial` with the parents
`roots`. -/
private structure Removal (initial : BlockBuffer P) (roots : List B256) (stack : List B256)
    (acc : List (Block × P) × BlockBuffer P) : Prop where
  wellFormed : acc.2.WellFormed
  sub : Sub acc.2 initial
  blocks : ∀ hash, acc.2.blocks.get hash
    = if hash ∈ hashes acc.1 then none else initial.blocks.get hash
  proofs : ∀ hash, acc.2.proofs.get hash
    = if hash ∈ hashes acc.1 then none else initial.proofs.get hash
  ready : ∀ pair ∈ acc.1, initial.Ready pair.1.hash pair.1 pair.2
  nodup : (hashes acc.1).Nodup
  /-- A key on the stack will not be removed any more. -/
  spent : ∀ hash ∈ stack, ¬acc.2.Removable hash
  /-- Nor will the parent of a removed block. -/
  parentSpent : ∀ pair ∈ acc.1, ¬acc.2.Removable pair.1.parentHash
  ordered : acc.1.Pairwise fun earlier later => earlier.1.parentHash ≠ later.1.hash
  /-- Ready children of a root or a removed block are still to be visited. -/
  pending : ∀ hash block proof, acc.2.Ready hash block proof →
    block.parentHash ∈ roots ∨ block.parentHash ∈ hashes acc.1 → block.parentHash ∈ stack

private theorem Removal.takes {initial : BlockBuffer P} {roots stack : List B256}
    {acc : List (Block × P) × BlockBuffer P} (h : Removal initial roots stack acc) :
    Takes initial acc.1 acc.2 :=
  ⟨h.sub, h.blocks, h.proofs, h.ready, h.nodup⟩

private theorem Removal.visit {initial : BlockBuffer P} {roots stack : List B256} {key : B256}
    {acc : List (Block × P) × BlockBuffer P} (σ : SetOrder B256)
    (h : Removal initial roots (key :: stack) acc) :
    Removal initial roots ((removeVisit σ key acc).1 ++ stack) (removeVisit σ key acc).2 := by
  cases hget : FiniteMap.get acc.2.parentToChild key with
  | none =>
      have heq : removeVisit σ key acc = ([], acc) := by
        unfold removeVisit
        rw [hget]
      rw [heq, List.nil_append]
      refine { h with spent := fun hash hmem => h.spent hash (List.mem_cons_of_mem _ hmem)
                      pending := fun hash block proof hready hparent => ?_ }
      -- a ready child of the visited key would be listed
      refine (List.mem_cons.mp (h.pending hash block proof hready hparent)).resolve_left ?_
      rintro heq
      have hlisted := h.wellFormed.proofIndexed hash block proof hready (Set.notMem_empty hash)
      rw [heq, SetMap.members_of_get_none hget] at hlisted
      simp at hlisted
  | some children =>
      have heq : removeVisit σ key acc = ((σ.toList children).reverse,
          removeEach (σ.toList children) (acc.1, acc.2.unlink key)) := by
        unfold removeVisit
        rw [hget]
        rfl
      have hchildren : ∀ hash, hash ∈ σ.toList children ↔ hash ∈ children :=
        fun hash => σ.mem_toList children hash
      have hunlink : (acc.2.unlink key).Agrees {hash | hash ∈ σ.toList children} ∅ := by
        refine (h.wellFormed.unlink hget).settle (fun hash hmem _ => ?_) fun _ hmem _ _ => hmem
        exact (hchildren hash).mpr hmem
      obtain ⟨added, hadded⟩ :=
        exists_removes (σ.toList children) (σ.nodup children) (acc.1, acc.2.unlink key)
      rw [heq]
      have hsub : Sub (removeEach (σ.toList children) (acc.1, acc.2.unlink key)).2 acc.2 :=
        hadded.sub.trans (unlink_sub acc.2 key)
      -- an added block was ready, and the visited key is its parent
      have hready : ∀ pair ∈ added, acc.2.Ready pair.1.hash pair.1 pair.2 := hadded.ready
      have hmem : ∀ pair ∈ added, pair.1.hash ∈ children := fun pair hpair =>
        (hchildren _).mp (hadded.sublist.subset (List.mem_map.mpr ⟨pair, hpair, rfl⟩))
      have hparent : ∀ pair ∈ added, pair.1.parentHash = key := by
        intro pair hpair
        have hlisted : pair.1.hash ∈ SetMap.members acc.2.parentToChild key := by
          rw [SetMap.members_of_get hget]
          exact hmem pair hpair
        obtain ⟨block, hblock, hkey⟩ := h.wellFormed.child key pair.1.hash hlisted
        rw [(hready pair hpair).1] at hblock
        cases hblock
        exact hkey
      have hkeySpent : ¬acc.2.Removable key := h.spent key List.mem_cons_self
      have htaken := (h.takes.unlink key).trans (hadded.takes (σ.nodup children))
      rw [← hadded.list] at htaken
      refine
        { wellFormed := Agrees.removeEach (σ.toList children) (acc.1, acc.2.unlink key) hunlink
          sub := htaken.sub
          blocks := htaken.blocks
          proofs := htaken.proofs
          ready := htaken.ready
          nodup := htaken.nodup
          spent := ?_
          parentSpent := ?_
          ordered := ?_
          pending := ?_ }
      · intro hash hstack
        rcases List.mem_append.mp hstack with hpushed | hrest
        · exact hadded.spent hash (List.mem_reverse.mp hpushed)
        · exact fun hrem => h.spent hash (List.mem_cons_of_mem _ hrest) (hsub.removable hrem)
      · rw [hadded.list]
        intro pair hpair hrem
        rcases List.mem_append.mp hpair with hold | hnew
        · exact h.parentSpent pair hold (hsub.removable hrem)
        · rw [hparent pair hnew] at hrem
          exact hkeySpent (hsub.removable hrem)
      · rw [hadded.list]
        refine List.pairwise_append.mpr ⟨h.ordered, ?_, ?_⟩
        · refine List.pairwise_of_forall_mem_list fun earlier hearlier later hlater heq => ?_
          rw [hparent earlier hearlier] at heq
          exact hkeySpent ⟨later.1, later.2, heq ▸ hready later hlater⟩
        · intro earlier hearlier later hlater heq
          exact h.parentSpent earlier hearlier ⟨later.1, later.2, heq ▸ hready later hlater⟩
      · rw [hadded.list]
        intro hash block proof hready' hcase
        have hold := hsub.ready hready'
        have hne : block.parentHash ≠ key := by
          -- a ready child of the visited key has just been removed
          intro hkey
          have hlisted := h.wellFormed.proofIndexed hash block proof hold (Set.notMem_empty hash)
          rw [hkey, SetMap.members_of_get hget] at hlisted
          exact hadded.spent hash ((hchildren hash).mpr hlisted) ⟨block, proof, hready'⟩
        rw [hashes_append, List.mem_append] at hcase
        rcases hcase with hroot | hremoved | hnew
        · exact List.mem_append_right _
            ((List.mem_cons.mp (h.pending hash block proof hold (.inl hroot))).resolve_left hne)
        · exact List.mem_append_right _
            ((List.mem_cons.mp (h.pending hash block proof hold (.inr hremoved))).resolve_left hne)
        · exact List.mem_append_left _ (List.mem_reverse.mpr (hadded.sublist.subset hnew))

/-- Every round of the removal loop is paid for by the child index. -/
private theorem removeEach_children (children : List B256) (acc : List (Block × P) × BlockBuffer P)
    (parent : B256) : SetMap.members (removeEach children acc).2.parentToChild parent
      ⊆ SetMap.members acc.2.parentToChild parent := by
  induction children generalizing acc with
  | nil => exact subset_rfl
  | cons child children ih =>
      rw [removeEach_cons]
      exact (ih _).trans ((removeBlock_sub acc.2 child).children parent)

theorem removeVisit_weight (σ : SetOrder B256) (key : B256)
    (acc : List (Block × P) × BlockBuffer P) :
    SetMap.size (removeVisit σ key acc).2.2.parentToChild + (removeVisit σ key acc).1.length
      ≤ SetMap.size acc.2.parentToChild := by
  unfold removeVisit
  cases hget : FiniteMap.get acc.2.parentToChild key with
  | none => simp
  | some children =>
      have hsize := SetMap.size_erase_add hget
      have hle := SetMap.size_le_size (removeEach_children (σ.toList children)
        (acc.1, { acc.2 with parentToChild := FiniteMap.erase acc.2.parentToChild key }))
      simp only [List.length_reverse, σ.length_toList]
      simp only at hle
      omega

/-- What taking a block and its descendants out of the buffer returns and
leaves. -/
structure RemovedWith (initial : BlockBuffer P) (parentHash : B256) (removed : List (Block × P))
    (buffer : BlockBuffer P) : Prop where
  wellFormed : buffer.WellFormed
  sub : Sub buffer initial
  /-- Exactly the returned blocks are gone, with their proofs. -/
  blocks : ∀ hash, buffer.blocks.get hash
    = if hash ∈ hashes removed then none else initial.blocks.get hash
  proofs : ∀ hash, buffer.proofs.get hash
    = if hash ∈ hashes removed then none else initial.proofs.get hash
  /-- Each comes with its own proof. -/
  ready : ∀ pair ∈ removed, initial.Ready pair.1.hash pair.1 pair.2
  nodup : (hashes removed).Nodup
  /-- No block comes after one of its children, the requested one apart. -/
  ordered : removed.Pairwise fun earlier later =>
    earlier.1.hash ≠ parentHash → earlier.1.parentHash ≠ later.1.hash
  /-- No ready child of the requested or a returned block is left. -/
  complete : ∀ hash block proof, buffer.Ready hash block proof →
    block.parentHash ≠ parentHash ∧ block.parentHash ∉ hashes removed

private theorem weaken_ordered {removed : List (Block × P)} (parentHash : B256)
    (h : removed.Pairwise fun earlier later => earlier.1.parentHash ≠ later.1.hash) :
    removed.Pairwise fun earlier later =>
      earlier.1.hash ≠ parentHash → earlier.1.parentHash ≠ later.1.hash := by
  refine h.imp ?_
  intro earlier later hne _
  exact hne

private theorem removal_removeChildren {buffer : BlockBuffer P} (σ : SetOrder B256)
    {parentHash : B256} (h : buffer.WellFormed) (hspent : ¬buffer.Removable parentHash) :
    Removal buffer [parentHash] [] (removeChildren σ buffer [parentHash]) := by
  unfold removeChildren
  rw [List.reverse_singleton]
  refine drain_induction (Removal buffer [parentHash])
    (fun acc => SetMap.size acc.2.parentToChild) (fun key stack acc => Removal.visit σ)
    (removeVisit_weight σ) _ [parentHash] ([], buffer) le_rfl ?_
  exact
    { wellFormed := h
      sub := (Takes.refl buffer).sub
      blocks := (Takes.refl buffer).blocks
      proofs := (Takes.refl buffer).proofs
      ready := (Takes.refl buffer).ready
      nodup := (Takes.refl buffer).nodup
      spent := fun hash hmem => by rwa [List.mem_singleton.mp hmem]
      parentSpent := nofun
      ordered := .nil
      pending := fun hash block proof _ hcase => by simpa using hcase }

/-- **Removal of a block with its descendants.** -/
theorem removeBlockWithChildren_spec {buffer : BlockBuffer P} (σ : SetOrder B256)
    (parentHash : B256) (h : buffer.WellFormed) :
    RemovedWith buffer parentHash (removeBlockWithChildren σ buffer parentHash).1
      (removeBlockWithChildren σ buffer parentHash).2 := by
  by_cases hrem : buffer.Removable parentHash
  · obtain ⟨block, proof, hready⟩ := hrem
    have hkey : block.hash = parentHash := hash_of_get hready.1
    have hdrop : (buffer.drop parentHash block).WellFormed :=
      (h.drop hready.1).settle (fun _ hmem _ => hmem.1) fun _ hmem _ _ => hmem.1
    have hroot := Takes.drop hready
    have hgone : ¬(buffer.drop parentHash block).Removable parentHash :=
      hroot.not_removable (hkey ▸ List.mem_cons_self)
    have hchildren := removal_removeChildren σ hdrop hgone
    have htaken := hroot.trans hchildren.takes
    have heq : removeBlockWithChildren σ buffer parentHash
        = ((block, proof) :: (removeChildren σ (buffer.drop parentHash block) [parentHash]).1,
            (removeChildren σ (buffer.drop parentHash block) [parentHash]).2) := by
      unfold removeBlockWithChildren
      rw [removeBlock_of_ready hready]
      rfl
    rw [heq]
    exact
      { wellFormed := hchildren.wellFormed
        sub := htaken.sub
        blocks := htaken.blocks
        proofs := htaken.proofs
        ready := htaken.ready
        nodup := htaken.nodup
        ordered := List.pairwise_cons.mpr
          ⟨fun pair _ hroot => absurd hkey hroot, weaken_ordered parentHash hchildren.ordered⟩
        complete := by
          intro hash block' proof' hready'
          have hpending := hchildren.pending hash block' proof' hready'
          rw [hashes_cons, hkey]
          refine ⟨fun hroot => ?_, fun hmem => ?_⟩
          · exact List.not_mem_nil (hpending (.inl (List.mem_singleton.mpr hroot)))
          · rcases List.mem_cons.mp hmem with hroot | hremoved
            · exact List.not_mem_nil (hpending (.inl (List.mem_singleton.mpr hroot)))
            · exact List.not_mem_nil (hpending (.inr hremoved)) }
  · have hchildren := removal_removeChildren σ h hrem
    have heq : removeBlockWithChildren σ buffer parentHash
        = removeChildren σ buffer [parentHash] := by
      unfold removeBlockWithChildren
      rw [removeBlock_of_not_removable hrem]
      rfl
    rw [heq]
    exact
      { wellFormed := hchildren.wellFormed
        sub := hchildren.sub
        blocks := hchildren.blocks
        proofs := hchildren.proofs
        ready := hchildren.ready
        nodup := hchildren.nodup
        ordered := weaken_ordered parentHash hchildren.ordered
        complete := fun hash block proof hready =>
          ⟨fun hroot => List.not_mem_nil (hchildren.pending hash block proof hready
              (.inl (List.mem_singleton.mpr hroot))),
            fun hremoved => List.not_mem_nil (hchildren.pending hash block proof hready
              (.inr hremoved))⟩ }

/-! ## Eviction of old blocks -/

theorem Agrees.evictEach {buffer : BlockBuffer P} {unlisted unnumbered : Set B256}
    (h : buffer.Agrees unlisted unnumbered) (evicted : List B256) :
    (buffer.evictEach evicted).Agrees (unlisted \ {hash | hash ∈ evicted})
      (unnumbered \ {hash | hash ∈ evicted}) := by
  induction evicted generalizing buffer unlisted unnumbered with
  | nil => exact h.settle (fun hash hmem _ => ⟨hmem, nofun⟩) fun hash hmem _ _ => ⟨hmem, nofun⟩
  | cons hash evicted ih =>
      refine (ih (h.evictBlock hash)).settle (fun hash' hmem _ => ?_) fun hash' hmem _ _ => ?_ <;>
        exact ⟨hmem.1.1, fun hcons => (List.mem_cons.mp hcons).elim hmem.1.2 hmem.2⟩

theorem evictEach_sub (buffer : BlockBuffer P) (evicted : List B256) :
    Sub (buffer.evictEach evicted) buffer := by
  induction evicted generalizing buffer with
  | nil => exact Sub.refl buffer
  | cons hash evicted ih => exact (ih _).trans (evictBlock_sub buffer hash)

private theorem evictVisit_preserves (σ : SetOrder B256) (key : B256)
    {buffer initial : BlockBuffer P} (h : buffer.WellFormed ∧ Sub buffer initial) :
    (evictVisit σ key buffer).2.WellFormed ∧ Sub (evictVisit σ key buffer).2 initial := by
  unfold evictVisit
  cases hget : FiniteMap.get buffer.parentToChild key with
  | none => exact h
  | some children =>
      refine ⟨((h.1.unlink hget).evictEach (σ.toList children)).settle ?_ ?_,
        ((evictEach_sub _ _).trans (unlink_sub buffer key)).trans h.2⟩
      · exact fun hash hmem _ => absurd ((σ.mem_toList children hash).mpr hmem.1) hmem.2
      · exact fun hash hmem _ _ => hmem.1

theorem evictVisit_weight (σ : SetOrder B256) (key : B256) (buffer : BlockBuffer P) :
    SetMap.size (evictVisit σ key buffer).2.parentToChild + (evictVisit σ key buffer).1.length
      ≤ SetMap.size buffer.parentToChild := by
  unfold evictVisit
  cases hget : FiniteMap.get buffer.parentToChild key with
  | none => simp
  | some children =>
      have hsize := SetMap.size_erase_add hget
      have hle := SetMap.size_le_size
        (evictEach_sub (buffer.unlink key) (σ.toList children)).children
      simp only [List.length_reverse, σ.length_toList]
      simp only [unlink] at hle
      omega

/-- The hashes `evict_old_blocks` takes off the index by number. -/
def oldHashes (σ : SetOrder B256) (buffer : BlockBuffer P) (blockNumber : ℕ) : List B256 :=
  (FiniteMap.popFirstWhile (fun number => decide (number ≤ blockNumber))
    buffer.earliestBlocks.keys.card buffer.earliestBlocks).1.flatMap fun entry => σ.toList entry.2

/-- The buffer without these entries of the index by number. -/
def popOld (buffer : BlockBuffer P) (blockNumber : ℕ) : BlockBuffer P :=
  { buffer with
    earliestBlocks := (FiniteMap.popFirstWhile (fun number => decide (number ≤ blockNumber))
      buffer.earliestBlocks.keys.card buffer.earliestBlocks).2 }

theorem evictOldBlocks_eq (σ : SetOrder B256) (buffer : BlockBuffer P) (blockNumber : ℕ) :
    evictOldBlocks σ buffer blockNumber
      = evictChildren σ ((buffer.popOld blockNumber).evictEach (oldHashes σ buffer blockNumber))
          (oldHashes σ buffer blockNumber) := rfl

private theorem old_downward (blockNumber : ℕ) (a b : ℕ) (hle : a ≤ b)
    (hb : decide (b ≤ blockNumber) = true) : decide (a ≤ blockNumber) = true := by
  rw [decide_eq_true_eq] at hb ⊢
  omega

theorem get_popOld (buffer : BlockBuffer P) (blockNumber number : ℕ) :
    FiniteMap.get (buffer.popOld blockNumber).earliestBlocks number
      = if number ≤ blockNumber then none else FiniteMap.get buffer.earliestBlocks number := by
  rw [popOld, FiniteMap.popFirstWhile_get (old_downward blockNumber) number _ _ le_rfl]
  simp

theorem mem_oldHashes {buffer : BlockBuffer P} {σ : SetOrder B256} {blockNumber : ℕ}
    {hash : B256} : hash ∈ oldHashes σ buffer blockNumber ↔
      ∃ number ≤ blockNumber, hash ∈ SetMap.members buffer.earliestBlocks number := by
  have hmem := fun number entry => FiniteMap.mem_popFirstWhile (old_downward blockNumber) number
    entry buffer.earliestBlocks.keys.card buffer.earliestBlocks le_rfl
  simp only [oldHashes, List.mem_flatMap, Prod.exists, hmem, decide_eq_true_eq, σ.mem_toList,
    SetMap.mem_members_iff]
  constructor
  · rintro ⟨number, set, ⟨hle, hget⟩, hin⟩
    exact ⟨number, hle, set, hget, hin⟩
  · rintro ⟨number, hle, set, hget, hin⟩
    exact ⟨number, set, ⟨hle, hget⟩, hin⟩

theorem popOld_sub (buffer : BlockBuffer P) (blockNumber : ℕ) :
    Sub (buffer.popOld blockNumber) buffer :=
  ⟨fun _ _ h => h, fun _ _ h => h, fun _ => subset_rfl, rfl⟩

/-- Eviction of old blocks takes them off the index by number first; the blocks
themselves follow. -/
theorem Agrees.popOld {buffer : BlockBuffer P} {unlisted : Set B256} (σ : SetOrder B256)
    (h : buffer.Agrees unlisted ∅) (blockNumber : ℕ) :
    (buffer.popOld blockNumber).Agrees unlisted
      {hash | hash ∈ oldHashes σ buffer blockNumber} where
  child := h.child
  earliest number hash hlisted := by
    refine h.earliest number hash ?_
    obtain ⟨set, hset, hin⟩ := SetMap.mem_members_iff.mp hlisted
    rw [get_popOld] at hset
    split at hset
    · cases hset
    · exact SetMap.mem_members_iff.mpr ⟨set, hset, hin⟩
  tracked := h.tracked
  room := h.room
  bounded := h.bounded
  proofIndexed := h.proofIndexed
  numberIndexed hash block hblock hkept := by
    have hlisted := h.numberIndexed hash block hblock (Set.notMem_empty hash)
    have hnew : ¬block.number ≤ blockNumber := fun hle =>
      hkept (mem_oldHashes.mpr ⟨block.number, hle, hlisted⟩)
    obtain ⟨set, hset, hin⟩ := SetMap.mem_members_iff.mp hlisted
    refine SetMap.mem_members_iff.mpr ⟨set, ?_, hin⟩
    rw [get_popOld, if_neg hnew, hset]

/-- Evicting the blocks taken off the index by number restores the agreement. -/
theorem Agrees.evictOld {buffer : BlockBuffer P} {unlisted : Set B256} (σ : SetOrder B256)
    (h : buffer.Agrees unlisted ∅) (blockNumber : ℕ) :
    ((buffer.popOld blockNumber).evictEach (oldHashes σ buffer blockNumber)).Agrees unlisted ∅ :=
  ((h.popOld σ blockNumber).evictEach _).settle (fun _ hmem _ => hmem.1)
    fun _ hmem _ _ => absurd hmem.1 hmem.2

/-- **Eviction of old blocks** keeps the agreement and adds nothing. -/
theorem evictOldBlocks_spec {buffer : BlockBuffer P} (σ : SetOrder B256) (h : buffer.WellFormed)
    (blockNumber : ℕ) :
    (evictOldBlocks σ buffer blockNumber).WellFormed ∧
      Sub (evictOldBlocks σ buffer blockNumber) buffer := by
  rw [evictOldBlocks_eq]
  refine drain_induction (fun _ evicted => evicted.WellFormed ∧ Sub evicted buffer)
    (fun evicted => SetMap.size evicted.parentToChild)
    (fun key stack evicted hinv => evictVisit_preserves σ key hinv) (evictVisit_weight σ) _ _ _ ?_
    ⟨h.evictOld σ blockNumber, (evictEach_sub _ _).trans (popOld_sub buffer blockNumber)⟩
  rw [List.length_reverse]

end BlockBuffer

end ZkRess
