import ZkRess.Properties.BufferIndexes

/-!
# Removal of a block with its descendants

`remove_block_with_children` walks the child index with a work list and takes the
index apart as it goes.  Here the only thing known of the buffer is that the
child index is exact and that parent links have no cycle; nothing is said of the
other collections.

The invariant is `Descent`.  It keeps the set of the visited keys: the index is
the initial one without these keys, the removed blocks are their ready children,
and every child of a visited key is visited or still on the stack.  At the empty
stack the visited keys are all that can be reached, so the removed blocks are all
that could be removed.  A block without its proof is passed through.
-/

namespace ZkRess

open Foundation

variable {P : Type}

namespace BlockBuffer

/-- The child index lists exactly the children of each hash. -/
def ChildrenExact (buffer : BlockBuffer P) : Prop :=
  ∀ parent hash, hash ∈ SetMap.members buffer.parentToChild parent ↔ buffer.ChildOf parent hash

/-- No block is its own descendant. -/
def Acyclic (buffer : BlockBuffer P) : Prop :=
  ∀ hash, ¬Relation.TransGen buffer.ChildOf hash hash

/-- A block has one parent. -/
theorem ChildOf.unique {buffer : BlockBuffer P} {parent parent' hash : B256}
    (h : buffer.ChildOf parent hash) (h' : buffer.ChildOf parent' hash) : parent = parent' := by
  obtain ⟨block, hget, rfl⟩ := h
  obtain ⟨block', hget', rfl⟩ := h'
  cases hget.symm.trans hget'
  rfl

theorem Sub.childOf {buffer buffer' : BlockBuffer P} (h : Sub buffer' buffer) :
    buffer'.ChildOf ≤ buffer.ChildOf := by
  rintro parent hash ⟨block, hget, hparent⟩
  exact ⟨block, h.blocks hash block hget, hparent⟩

theorem Ready.childOf {buffer : BlockBuffer P} {hash : B256} {block : Block} {proof : P}
    (h : buffer.Ready hash block proof) : buffer.ChildOf block.parentHash hash :=
  ⟨block, h.1, rfl⟩

theorem Acyclic.of_sub {buffer buffer' : BlockBuffer P} (h : buffer.Acyclic)
    (hsub : Sub buffer' buffer) : buffer'.Acyclic :=
  fun hash hcycle => h hash (Relation.TransGen.mono hsub.childOf hash hash hcycle)

/-- The child index lists exactly the children of the hashes outside a set. -/
def ExactOutside (buffer : BlockBuffer P) (away : Set B256) : Prop :=
  ∀ parent hash, hash ∈ SetMap.members buffer.parentToChild parent ↔
    parent ∉ away ∧ buffer.ChildOf parent hash

theorem exactOutside_empty {buffer : BlockBuffer P} :
    buffer.ExactOutside ∅ ↔ buffer.ChildrenExact := by
  simp only [ExactOutside, Set.mem_empty_iff_false, not_false_eq_true, true_and]
  exact Iff.rfl

theorem childOf_drop {buffer : BlockBuffer P} {hash parent child : B256} {block : Block} :
    (buffer.drop hash block).ChildOf parent child ↔
      buffer.ChildOf parent child ∧ child ≠ hash := by
  unfold ChildOf
  rw [get_drop_blocks]
  by_cases heq : child = hash
  · simp [heq]
  · simp [heq]

/-- Dropping a block keeps the child index exact. -/
theorem ExactOutside.drop {buffer : BlockBuffer P} {away : Set B256} (h : buffer.ExactOutside away)
    {hash : B256} {block : Block} (hget : buffer.blocks.get hash = some block) :
    (buffer.drop hash block).ExactOutside away := by
  intro parent child
  show child ∈ SetMap.members (SetMap.removeMember _ _ _) parent ↔ _
  rw [SetMap.mem_members_removeMember, h parent child, childOf_drop, and_assoc]
  refine and_congr_right fun _ => and_congr_right fun hchild => ?_
  constructor
  · rintro hnot rfl
    exact hnot ⟨hchild.unique ⟨block, hget, rfl⟩, rfl⟩
  · exact fun hne hand => hne hand.2

theorem ChildrenExact.drop {buffer : BlockBuffer P} (h : buffer.ChildrenExact) {hash : B256}
    {block : Block} (hget : buffer.blocks.get hash = some block) :
    (buffer.drop hash block).ChildrenExact :=
  exactOutside_empty.mp ((exactOutside_empty.mpr h).drop hget)

/-- A parent that is unlinked is an exception. -/
theorem ChildrenExact.unlink {buffer : BlockBuffer P} (h : buffer.ChildrenExact) (key : B256) :
    (buffer.unlink key).ExactOutside {key} := by
  intro parent hash
  show hash ∈ SetMap.members (FiniteMap.erase buffer.parentToChild key) parent ↔ _
  rw [SetMap.members_erase, Set.mem_singleton_iff]
  by_cases heq : parent = key
  · simp [heq]
  · rw [if_neg heq, h parent hash]
    exact (and_iff_right heq).symm

/-- As long as it has children. -/
theorem ExactOutside.settle {buffer : BlockBuffer P} {key : B256} (h : buffer.ExactOutside {key})
    (hnone : ∀ hash, ¬buffer.ChildOf key hash) : buffer.ChildrenExact := by
  intro parent hash
  rw [h parent hash]
  refine and_iff_right_of_imp fun hchild hkey => ?_
  rw [Set.mem_singleton_iff.mp hkey] at hchild
  exact hnone hash hchild

/-- The child index is exact as long as every buffered block is listed. -/
theorem Listed.childrenExact {preimage : Preimage} {buffer : BlockBuffer P}
    (h : buffer.Listed ∅) (hsound : buffer.Sound preimage) : buffer.ChildrenExact := by
  intro parent hash
  refine ⟨hsound.agrees.child parent hash, ?_⟩
  rintro ⟨block, hget, rfl⟩
  exact h hash block hget (Set.notMem_empty hash)

/-- Parent links that descend in some rank have no cycle. -/
theorem acyclic_of_rank {buffer : BlockBuffer P} (rank : B256 → ℕ)
    (h : ∀ parent hash, buffer.ChildOf parent hash → rank parent < rank hash) :
    buffer.Acyclic := by
  intro hash hcycle
  have hlt : ∀ {a b}, Relation.TransGen buffer.ChildOf a b → rank a < rank b := by
    intro a b hreach
    induction hreach with
    | single hchild => exact h _ _ hchild
    | tail _ hchild ih => exact ih.trans (h _ _ hchild)
  exact lt_irrefl _ (hlt hcycle)

/-! ## The loop -/

/-- **The invariant of the removal loop**, started on `initial` with the parent
`root`, when the keys in `seen` have been visited. -/
private structure Descent (initial : BlockBuffer P) (root : B256) (seen : Set B256)
    (stack : List B256) (acc : List (Block × P) × BlockBuffer P) : Prop where
  sub : Sub acc.2 initial
  /-- The index is the initial one without the visited keys. -/
  listed : ∀ parent hash, hash ∈ SetMap.members acc.2.parentToChild parent ↔
    parent ∉ seen ∧ initial.ChildOf parent hash
  blocks : ∀ hash, acc.2.blocks.get hash
    = if hash ∈ hashes acc.1 then none else initial.blocks.get hash
  proofs : ∀ hash, acc.2.proofs.get hash
    = if hash ∈ hashes acc.1 then none else initial.proofs.get hash
  /-- Removed are the ready children of the visited keys. -/
  removed : ∀ hash, hash ∈ hashes acc.1 ↔
    initial.Removable hash ∧ ∃ parent ∈ seen, initial.ChildOf parent hash
  ready : ∀ pair ∈ acc.1, initial.Ready pair.1.hash pair.1 pair.2
  nodup : (hashes acc.1).Nodup
  ordered : acc.1.Pairwise fun earlier later => earlier.1.parentHash ≠ later.1.hash
  rooted : root ∈ seen ∨ root ∈ stack
  closed : ∀ parent ∈ seen, ∀ hash, initial.ChildOf parent hash → hash ∈ seen ∨ hash ∈ stack
  /-- Apart from the root, a key comes onto the stack as a child of a visited key. -/
  pushed : ∀ hash, hash ∈ seen ∨ hash ∈ stack →
    hash = root ∨ ∃ parent ∈ seen, initial.ChildOf parent hash
  below : ∀ hash, hash ∈ seen ∨ hash ∈ stack → Relation.ReflTransGen initial.ChildOf root hash

section Visits

variable {initial : BlockBuffer P} {root key : B256} {seen : Set B256} {stack : List B256}
  {acc : List (Block × P) × BlockBuffer P}

private theorem Descent.takes (h : Descent initial root seen stack acc) :
    Takes initial acc.1 acc.2 :=
  ⟨h.sub, h.blocks, h.proofs, h.ready, h.nodup⟩

/-- A visited key, and one on the stack, will not be removed any more. -/
private theorem Descent.spent (h : Descent initial root seen stack acc)
    (hroot : ¬initial.Removable root) {hash : B256} (hmem : hash ∈ seen ∨ hash ∈ stack) :
    ¬acc.2.Removable hash := by
  rintro ⟨block, proof, hready⟩
  have hinitial := h.sub.ready hready
  rcases h.pushed hash hmem with rfl | hchild
  · exact hroot ⟨block, proof, hinitial⟩
  · have hremoved := (h.removed hash).mpr ⟨⟨block, proof, hinitial⟩, hchild⟩
    exact h.takes.not_removable hremoved ⟨block, proof, hready⟩

/-- A key without listed children has none, or was visited before. -/
private theorem Descent.visit_unlisted (h : Descent initial root seen (key :: stack) acc)
    (hnone : FiniteMap.get acc.2.parentToChild key = none) :
    Descent initial root (insert key seen) stack acc := by
  have hchild : ∀ hash, initial.ChildOf key hash → key ∈ seen := by
    intro hash hchild
    by_contra hfresh
    have hlisted := (h.listed key hash).mpr ⟨hfresh, hchild⟩
    rw [SetMap.members_of_get_none hnone] at hlisted
    exact absurd hlisted (Finset.notMem_empty hash)
  have hmoved : ∀ hash, hash ∈ insert key seen ∨ hash ∈ stack →
    hash ∈ seen ∨ hash ∈ key :: stack := by
    rintro hash ((rfl | hseen) | hstack)
    · exact .inr List.mem_cons_self
    · exact .inl hseen
    · exact .inr (List.mem_cons_of_mem _ hstack)
  have hback : ∀ hash, hash ∈ seen ∨ hash ∈ key :: stack →
    hash ∈ insert key seen ∨ hash ∈ stack := by
    rintro hash (hseen | hstack)
    · exact .inl (.inr hseen)
    · exact (List.mem_cons.mp hstack).imp .inl id
  refine
    { sub := h.sub
      listed := fun parent hash => ?_
      blocks := h.blocks
      proofs := h.proofs
      removed := fun hash => ?_
      ready := h.ready
      nodup := h.nodup
      ordered := h.ordered
      rooted := hback root h.rooted
      closed := fun parent hparent hash hof => hback hash ?_
      pushed := fun hash hmem => ?_
      below := fun hash hmem => h.below hash (hmoved hash hmem) }
  · rw [h.listed]
    refine and_congr_left fun hof => not_congr ⟨.inr, ?_⟩
    rintro (rfl | hseen)
    · exact hchild hash hof
    · exact hseen
  · rw [h.removed]
    refine and_congr_right fun _ => ⟨fun ⟨parent, hparent, hof⟩ => ⟨parent, .inr hparent, hof⟩, ?_⟩
    rintro ⟨parent, rfl | hparent, hof⟩
    · exact ⟨parent, hchild hash hof, hof⟩
    · exact ⟨parent, hparent, hof⟩
  · rcases hparent with rfl | hparent
    · exact h.closed parent (hchild hash hof) hash hof
    · exact h.closed parent hparent hash hof
  · refine (h.pushed hash (hmoved hash hmem)).imp_right ?_
    exact fun ⟨parent, hparent, hof⟩ => ⟨parent, .inr hparent, hof⟩

/-- The children of a key are taken off the index, removed if they are ready, and
pushed. -/
private theorem Descent.visit_listed (h : Descent initial root seen (key :: stack) acc)
    (hroot : ¬initial.Removable root) (σ : SetOrder B256) {children : Finset B256}
    (hget : FiniteMap.get acc.2.parentToChild key = some children) :
    Descent initial root (insert key seen) ((σ.toList children).reverse ++ stack)
      (BlockBuffer.removeEach (σ.toList children) (acc.1, acc.2.unlink key)) := by
  have hchildren : ∀ hash, hash ∈ σ.toList children ↔ key ∉ seen ∧ initial.ChildOf key hash := by
    intro hash
    rw [σ.mem_toList, ← SetMap.members_of_get hget, h.listed]
  obtain ⟨added, hadded⟩ :=
    exists_removes (σ.toList children) (σ.nodup children) (acc.1, acc.2.unlink key)
  generalize BlockBuffer.removeEach (σ.toList children) (acc.1, acc.2.unlink key) = acc' at hadded
  have htaken := (h.takes.unlink key).trans (hadded.takes (σ.nodup children))
  rw [← hadded.list] at htaken
  have hready : ∀ pair ∈ added, acc.2.Ready pair.1.hash pair.1 pair.2 := hadded.ready
  have hmem : ∀ pair ∈ added, pair.1.hash ∈ σ.toList children := fun pair hpair =>
    hadded.sublist.subset (List.mem_map.mpr ⟨pair, hpair, rfl⟩)
  have hparent : ∀ pair ∈ added, pair.1.parentHash = key := fun pair hpair =>
    (h.sub.ready (hready pair hpair)).childOf.unique ((hchildren _).mp (hmem pair hpair)).2
  have hdisjoint : ∀ pair ∈ added, pair.1.hash ∉ hashes acc.1 := fun pair hpair hold =>
    h.takes.not_removable hold ⟨pair.1, pair.2, hready pair hpair⟩
  have hadd : ∀ hash, hash ∈ hashes added ↔
      initial.Removable hash ∧ key ∉ seen ∧ initial.ChildOf key hash ∧ hash ∉ hashes acc.1 := by
    intro hash
    constructor
    · intro hnew
      obtain ⟨pair, hpair, rfl⟩ := List.mem_map.mp hnew
      obtain ⟨hfresh, hof⟩ := (hchildren _).mp (hmem pair hpair)
      exact ⟨⟨pair.1, pair.2, h.sub.ready (hready pair hpair)⟩, hfresh, hof, hdisjoint pair hpair⟩
    · rintro ⟨⟨block, proof, hblock, hproof⟩, hfresh, hof, hkept⟩
      -- a ready child that was not removed would still be ready
      by_contra hnot
      refine hadded.spent hash ((hchildren hash).mpr ⟨hfresh, hof⟩) ⟨block, proof, ?_, ?_⟩
      · rw [hadded.blocks, if_neg hnot]
        show acc.2.blocks.get hash = _
        rw [h.blocks, if_neg hkept, hblock]
      · rw [hadded.proofs, if_neg hnot]
        show acc.2.proofs.get hash = _
        rw [h.proofs, if_neg hkept, hproof]
  have hback : ∀ hash, hash ∈ seen ∨ hash ∈ key :: stack →
      hash ∈ insert key seen ∨ hash ∈ (σ.toList children).reverse ++ stack := by
    rintro hash (hseen | hstack)
    · exact .inl (.inr hseen)
    · exact (List.mem_cons.mp hstack).imp .inl (List.mem_append_right _)
  have hmoved : ∀ hash, hash ∈ insert key seen ∨ hash ∈ (σ.toList children).reverse ++ stack →
      (hash ∈ seen ∨ hash ∈ key :: stack) ∨ initial.ChildOf key hash := by
    rintro hash ((rfl | hseen) | hstack)
    · exact .inl (.inr List.mem_cons_self)
    · exact .inl (.inl hseen)
    · rcases List.mem_append.mp hstack with hpushed | hrest
      · exact .inr ((hchildren hash).mp (List.mem_reverse.mp hpushed)).2
      · exact .inl (.inr (List.mem_cons_of_mem _ hrest))
  refine
    { sub := htaken.sub
      listed := fun parent hash => ?_
      blocks := htaken.blocks
      proofs := htaken.proofs
      removed := fun hash => ?_
      ready := htaken.ready
      nodup := htaken.nodup
      ordered := ?_
      rooted := hback root h.rooted
      closed := fun parent hseen hash hof => ?_
      pushed := fun hash hpushed => ?_
      below := fun hash hpushed => ?_ }
  · rw [hadded.listed]
    show hash ∈ SetMap.members (FiniteMap.erase acc.2.parentToChild key) parent ∧ _ ↔ _
    rw [SetMap.members_erase, Set.mem_insert_iff, not_or]
    by_cases heq : parent = key
    · simp [heq]
    · rw [if_neg heq, h.listed]
      refine ⟨fun hand => ⟨⟨heq, hand.1.1⟩, hand.1.2⟩, fun hand => ⟨⟨hand.1.2, hand.2⟩, ?_⟩⟩
      rintro ⟨pair, hpair, hparent', -⟩
      exact heq (hparent'.symm.trans (hparent pair hpair))
  · rw [hadded.list, hashes_append, List.mem_append, hadd]
    constructor
    · rintro (hold | ⟨hrem, -, hof, -⟩)
      · obtain ⟨hrem, parent, hseen, hof⟩ := (h.removed hash).mp hold
        exact ⟨hrem, parent, .inr hseen, hof⟩
      · exact ⟨hrem, key, .inl rfl, hof⟩
    · rintro ⟨hrem, parent, hseen, hof⟩
      by_cases hold : hash ∈ hashes acc.1
      · exact .inl hold
      · right
        have hfresh : parent ∉ seen := fun hin =>
          hold ((h.removed hash).mpr ⟨hrem, parent, hin, hof⟩)
        obtain rfl := hseen.resolve_right hfresh
        exact ⟨hrem, hfresh, hof, hold⟩
  · -- a parent that is removed at all is removed before its key is visited
    have hlater : ∀ later ∈ added, ∀ parent, parent ∈ seen ∨ parent ∈ key :: stack →
        parent ≠ later.1.hash := by
      rintro later hlater parent hvisited rfl
      exact h.spent hroot hvisited ⟨later.1, later.2, hready later hlater⟩
    rw [hadded.list]
    refine List.pairwise_append.mpr ⟨h.ordered, ?_, ?_⟩
    · refine List.pairwise_of_forall_mem_list fun earlier hearlier later hlater' => ?_
      rw [hparent earlier hearlier]
      exact hlater later hlater' key (.inr List.mem_cons_self)
    · intro earlier hearlier later hlater'
      obtain ⟨-, parent, hseen, hof⟩ := (h.removed _).mp (List.mem_map.mpr ⟨earlier, hearlier, rfl⟩)
      rw [(h.ready earlier hearlier).childOf.unique hof]
      exact hlater later hlater' parent (.inl hseen)
  · by_cases hfresh : parent ∈ seen
    · exact hback hash (h.closed parent hfresh hash hof)
    · obtain rfl := hseen.resolve_right hfresh
      exact .inr (List.mem_append_left _
        (List.mem_reverse.mpr ((hchildren hash).mpr ⟨hfresh, hof⟩)))
  · rcases hmoved hash hpushed with hold | hof
    · refine (h.pushed hash hold).imp_right ?_
      exact fun ⟨parent, hparent', hof⟩ => ⟨parent, .inr hparent', hof⟩
    · exact .inr ⟨key, .inl rfl, hof⟩
  · rcases hmoved hash hpushed with hold | hof
    · exact h.below hash hold
    · exact (h.below key (.inr List.mem_cons_self)).tail hof

end Visits

/-- What the loop has done when the stack is empty. -/
private theorem descent_removeChildren {initial : BlockBuffer P} (hexact : initial.ChildrenExact)
    {root : B256} (hroot : ¬initial.Removable root) (σ : SetOrder B256) :
    ∃ seen, Descent initial root seen [] (removeChildren σ initial [root]) := by
  unfold removeChildren
  rw [List.reverse_singleton]
  refine drain_induction
    (fun stack acc => ∃ seen, Descent initial root seen stack acc)
    (fun acc => SetMap.size acc.2.parentToChild) ?_ (removeVisit_weight σ) _ [root] ([], initial)
    le_rfl ⟨∅, ?_⟩
  · rintro key stack acc ⟨seen, h⟩
    refine ⟨insert key seen, ?_⟩
    unfold removeVisit
    cases hget : FiniteMap.get acc.2.parentToChild key with
    | none => exact h.visit_unlisted hget
    | some children => exact h.visit_listed hroot σ hget
  · exact
      { sub := (Takes.refl initial).sub
        listed := fun parent hash => by simpa using hexact parent hash
        blocks := (Takes.refl initial).blocks
        proofs := (Takes.refl initial).proofs
        removed := fun hash => by simp
        ready := (Takes.refl initial).ready
        nodup := (Takes.refl initial).nodup
        ordered := .nil
        rooted := .inr List.mem_cons_self
        closed := nofun
        pushed := fun hash hmem => by simpa using hmem
        below := fun hash hmem => by
          obtain rfl : hash = root := by simpa using hmem
          exact .refl }

/-! ## The whole call -/

/-- What taking the requested block out, if it is ready, returns and leaves. -/
private structure TakesRoot (buffer : BlockBuffer P) (root : B256) (own : List (Block × P))
    (buffer' : BlockBuffer P) : Prop where
  exact : buffer'.ChildrenExact
  sub : Sub buffer' buffer
  spent : ¬buffer'.Removable root
  nodup : (hashes own).Nodup
  taken : buffer.Removable root → root ∈ hashes own
  ready : ∀ pair ∈ own, pair.1.hash = root ∧ buffer.Ready root pair.1 pair.2
  blocks : ∀ hash, buffer'.blocks.get hash
    = if hash ∈ hashes own then none else buffer.blocks.get hash
  proofs : ∀ hash, buffer'.proofs.get hash
    = if hash ∈ hashes own then none else buffer.proofs.get hash

private theorem TakesRoot.takes {buffer buffer' : BlockBuffer P} {root : B256}
    {own : List (Block × P)} (h : TakesRoot buffer root own buffer') :
    Takes buffer own buffer' where
  sub := h.sub
  blocks := h.blocks
  proofs := h.proofs
  ready pair hpair := by
    obtain ⟨heq, hready⟩ := h.ready pair hpair
    rwa [heq]
  nodup := h.nodup

private theorem takesRoot {buffer : BlockBuffer P} (hexact : buffer.ChildrenExact) (root : B256) :
    TakesRoot buffer root (buffer.removeBlock root).1.toList (buffer.removeBlock root).2 := by
  by_cases hrem : buffer.Removable root
  · obtain ⟨block, proof, hready⟩ := hrem
    have hkey : block.hash = root := hash_of_get hready.1
    have htaken := Takes.drop hready
    rw [removeBlock_of_ready hready, Option.toList_some]
    exact
      { exact := hexact.drop hready.1
        sub := htaken.sub
        spent := htaken.not_removable (hkey ▸ List.mem_cons_self)
        nodup := htaken.nodup
        taken := fun _ => hkey ▸ List.mem_cons_self
        ready := fun pair hpair => by
          rw [List.mem_singleton.mp hpair]
          exact ⟨hkey, hready⟩
        blocks := htaken.blocks
        proofs := htaken.proofs }
  · rw [removeBlock_of_not_removable hrem, Option.toList_none]
    exact
      { exact := hexact
        sub := (Takes.refl buffer).sub
        spent := hrem
        nodup := (Takes.refl buffer).nodup
        taken := fun h => absurd h hrem
        ready := nofun
        blocks := (Takes.refl buffer).blocks
        proofs := (Takes.refl buffer).proofs }

/-- The loop of `remove_children` ends. -/
private theorem drains_removeChildren (σ : SetOrder B256) (buffer : BlockBuffer P) (root : B256) :
    Drains (removeVisit σ) [root] ([], buffer) (removeChildren σ buffer [root]) := by
  unfold removeChildren
  rw [List.reverse_singleton]
  apply drains_drain fun acc : List (Block × P) × BlockBuffer P => SetMap.size acc.2.parentToChild
  · exact removeVisit_weight σ
  · exact le_rfl

/-- What `remove_block_with_children` promises. -/
structure RemovesDescendants (σ : SetOrder B256) (buffer : BlockBuffer P) (parentHash : B256)
    (removed : List (Block × P)) (buffer' : BlockBuffer P) : Prop where
  /-- The loop ends: the requested block comes first, and what the loop collected
  after it. -/
  terminates : ∃ descendants,
    Drains (removeVisit σ) [parentHash] ([], (buffer.removeBlock parentHash).2)
      (descendants, buffer') ∧
    removed = (buffer.removeBlock parentHash).1.toList ++ descendants
  /-- Removed are the blocks with a proof among the requested one and those below
  it. -/
  exact : ∀ hash, hash ∈ hashes removed ↔
    buffer.Removable hash ∧ Relation.ReflTransGen buffer.ChildOf parentHash hash
  /-- Each comes with its own proof, -/
  own : ∀ pair ∈ removed, buffer.Ready pair.1.hash pair.1 pair.2
  /-- once, -/
  once : (hashes removed).Nodup
  /-- and not before its parent. -/
  ordered : removed.Pairwise fun earlier later => earlier.1.parentHash ≠ later.1.hash
  /-- Nothing else is changed. -/
  blocks : ∀ hash, hash ∉ hashes removed → buffer'.blocks.get hash = buffer.blocks.get hash
  proofs : ∀ hash, hash ∉ hashes removed → buffer'.proofs.get hash = buffer.proofs.get hash
  gone : ∀ hash ∈ hashes removed,
    buffer'.blocks.get hash = none ∧ buffer'.proofs.get hash = none

/-- **Removal of descendants** is exact, ordered and without duplicates, whatever
the order of the hash sets. -/
theorem removesDescendants {buffer : BlockBuffer P} (hexact : buffer.ChildrenExact)
    (hacyclic : buffer.Acyclic) (σ : SetOrder B256) (parentHash : B256) :
    RemovesDescendants σ buffer parentHash (removeBlockWithChildren σ buffer parentHash).1
      (removeBlockWithChildren σ buffer parentHash).2 := by
  have hroot := takesRoot hexact parentHash
  have hends := drains_removeChildren σ (buffer.removeBlock parentHash).2 parentHash
  have hremoved : (removeBlockWithChildren σ buffer parentHash).1
      = (buffer.removeBlock parentHash).1.toList
        ++ (removeChildren σ (buffer.removeBlock parentHash).2 [parentHash]).1 := rfl
  have hbuffer : (removeBlockWithChildren σ buffer parentHash).2
      = (removeChildren σ (buffer.removeBlock parentHash).2 [parentHash]).2 := rfl
  obtain ⟨seen, hloop⟩ := descent_removeChildren hroot.exact hroot.spent σ
  rw [hremoved, hbuffer]
  generalize removeChildren σ (buffer.removeBlock parentHash).2 [parentHash] = loop at hends hloop ⊢
  generalize hown : (buffer.removeBlock parentHash).1.toList = own at hroot ⊢
  have hother : ∀ hash, hash ≠ parentHash → hash ∉ hashes own := by
    intro hash hne hmem
    obtain ⟨pair, hpair, rfl⟩ := List.mem_map.mp hmem
    exact hne (hroot.ready pair hpair).1
  have hkeptChild : ∀ {parent hash}, hash ≠ parentHash → buffer.ChildOf parent hash →
      (buffer.removeBlock parentHash).2.ChildOf parent hash := by
    rintro parent hash hne ⟨block, hget, hparent⟩
    exact ⟨block, by rw [hroot.blocks, if_neg (hother hash hne), hget], hparent⟩
  have hnever : ∀ {parent hash}, Relation.ReflTransGen buffer.ChildOf parentHash parent →
      buffer.ChildOf parent hash → hash ≠ parentHash := by
    rintro parent hash hreach hchild rfl
    exact hacyclic hash (Relation.TransGen.tail' hreach hchild)
  -- everything below the requested block has been visited
  have hseen : ∀ hash, Relation.ReflTransGen buffer.ChildOf parentHash hash → hash ∈ seen := by
    intro hash hreach
    induction hreach with
    | refl => exact hloop.rooted.resolve_right List.not_mem_nil
    | tail hreach hchild ih =>
        exact (hloop.closed _ ih _ (hkeptChild (hnever hreach hchild) hchild)).resolve_right
          List.not_mem_nil
  have htaken := hroot.takes.trans hloop.takes
  refine
    { terminates := ⟨loop.1, hends, by rw [hown]⟩
      exact := fun hash => ?_
      own := htaken.ready
      once := htaken.nodup
      ordered := ?_
      blocks := fun hash hnot => by rw [htaken.blocks, if_neg hnot]
      proofs := fun hash hnot => by rw [htaken.proofs, if_neg hnot]
      gone := fun hash hmem => by
        rw [htaken.blocks, htaken.proofs, if_pos hmem, if_pos hmem]
        exact ⟨rfl, rfl⟩ }
  · rw [hashes_append, List.mem_append]
    constructor
    · rintro (hmem | hmem)
      · obtain ⟨pair, hpair, rfl⟩ := List.mem_map.mp hmem
        obtain ⟨heq, hready⟩ := hroot.ready pair hpair
        rw [heq]
        exact ⟨⟨pair.1, pair.2, hready⟩, .refl⟩
      · obtain ⟨hrem, parent, hparent, hchild⟩ := (hloop.removed hash).mp hmem
        refine ⟨hroot.sub.removable hrem, ?_⟩
        have hreach := hloop.below parent (.inl hparent)
        exact (Relation.ReflTransGen.mono hroot.sub.childOf _ _ hreach).tail
          (hroot.sub.childOf _ _ hchild)
    · rintro ⟨⟨block, proof, hready⟩, hreach⟩
      rcases Relation.ReflTransGen.cases_tail hreach with rfl | ⟨parent, hparent, hchild⟩
      · exact .inl (hroot.taken ⟨block, proof, hready⟩)
      · have hne := hnever hparent hchild
        refine .inr ((hloop.removed hash).mpr ⟨⟨block, proof, ?_, ?_⟩, parent, hseen parent hparent,
          hkeptChild hne hchild⟩)
        · rw [hroot.blocks, if_neg (hother hash hne), hready.1]
        · rw [hroot.proofs, if_neg (hother hash hne), hready.2]
  · refine List.pairwise_append.mpr ⟨?_, hloop.ordered, ?_⟩
    · refine List.pairwise_of_forall_mem_list fun earlier hearlier later hlater heq => ?_
      obtain ⟨hkey, hready⟩ := hroot.ready earlier hearlier
      rw [(hroot.ready later hlater).1] at heq
      exact hnever .refl (heq ▸ hready.childOf) rfl
    · intro earlier hearlier later hlater heq
      -- the parent of the requested block is not below it
      obtain ⟨hkey, hready⟩ := hroot.ready earlier hearlier
      obtain ⟨hrem, parent, hparent, hchild⟩ :=
        (hloop.removed _).mp (List.mem_map.mpr ⟨later, hlater, rfl⟩)
      have hreach := (Relation.ReflTransGen.mono hroot.sub.childOf _ _
        (hloop.below parent (.inl hparent))).tail (hroot.sub.childOf _ _ hchild)
      exact hnever hreach (heq ▸ hready.childOf) rfl

end BlockBuffer

namespace SmallWorld

/-- A buffered branch 2, 3, 4 in which block 3 lacks its proof. -/
def gappedBranch : List (BufferOp Bool) :=
  [.insertProof 2 true, .insertProof 4 true, .insertBlock (block 2 1 1),
    .insertBlock (block 3 2 2), .insertBlock (block 4 3 3)]

theorem gappedBranch_conforms : ∀ op ∈ gappedBranch, op.Conforms forkFeed.preimage := by
  have hheader : ∀ header ∈ forkHeaders, header.Conforms forkFeed.preimage := by decide +kernel
  intro op hmem
  simp only [gappedBranch, List.mem_cons, List.not_mem_nil, or_false] at hmem
  rcases hmem with rfl | rfl | rfl | rfl | rfl
  · trivial
  · trivial
  · exact hheader (header 2 1 1) (by decide)
  · exact hheader (header 3 2 2) (by decide)
  · exact hheader (header 4 3 3) (by decide)

theorem gappedBranch_sound :
    ((BlockBuffer.new 256).applyAll gappedBranch).Sound forkFeed.preimage :=
  (BlockBuffer.Sound.new (by decide)).applyAll gappedBranch_conforms

theorem gappedBranch_childrenExact :
    ((BlockBuffer.new 256).applyAll gappedBranch).ChildrenExact := by
  have hstart : (BlockBuffer.new 256 : BlockBuffer Bool).Listed ∅ := by
    intro hash block hget
    simp [BlockBuffer.new] at hget
  have hlisted := hstart.applyAll (BlockBuffer.Sound.new (by decide)) gappedBranch_conforms
    ⟨trivial, trivial, trivial, trivial, trivial, trivial⟩
  exact hlisted.childrenExact gappedBranch_sound

theorem removesDescendants_of_gappedBranch :
    BlockBuffer.RemovesDescendants ascending ((BlockBuffer.new 256).applyAll gappedBranch) 2
      (BlockBuffer.removeBlockWithChildren ascending
        ((BlockBuffer.new 256).applyAll gappedBranch) 2).1
      (BlockBuffer.removeBlockWithChildren ascending
        ((BlockBuffer.new 256).applyAll gappedBranch) 2).2 := by
  have hdescend : ∀ header ∈ forkHeaders, header.parentHash.toNat < header.hash.toNat := by
    decide +kernel
  refine BlockBuffer.removesDescendants gappedBranch_childrenExact
    (BlockBuffer.acyclic_of_rank BitVec.toNat ?_) ascending 2
  rintro parent hash ⟨block, hget, rfl⟩
  have hconforms := gappedBranch_sound.conforms hash block hget
  rw [← BlockBuffer.hash_of_get hget]
  exact hdescend _ (mem_of_preimageOf hconforms)

/-- The block without its proof is passed through. -/
example : BlockBuffer.hashes (BlockBuffer.removeBlockWithChildren ascending
    ((BlockBuffer.new 256).applyAll gappedBranch) 2).1 = [2, 4] := by
  decide +kernel

end SmallWorld

end ZkRess
