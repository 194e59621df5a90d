import ZkRess.Engine.ChainDifference
import ZkRess.Engine.SmallWorld

/-!
# `on_new_head` finds the difference of two chains

For every stored block of number one or more: what `on_new_head` returns, when it
returns nothing, and what applying the result does to the canonical chain.  The
provider is any in which block numbers step by one along parent links, whichever
way the target lies — above the canonical head, on a longer or shorter fork, the
head itself or one of its ancestors.
-/

namespace ZkRess

open Foundation

namespace ChainState

variable {P : Type}

/-- Stored headers in ascending order, each the parent of the next, from a child
of `below` up to `top`. -/
structure Segment (cs : ChainState P) (headers : List SealedHeader) (below top : B256) : Prop where
  path : cs.StoredPath top headers.reverse below
  linked : headers.IsChain fun a b => b.parentHash = a.hash ∧ b.number = a.number + 1

theorem Segment.of_path {cs : ChainState P} (hleveled : cs.Leveled) {headers : List SealedHeader}
    {below top : B256} (h : cs.StoredPath top headers.reverse below) :
    cs.Segment headers below top where
  path := h
  linked := by
    rw [← List.reverse_reverse headers, List.isChain_reverse]
    generalize headers.reverse = descending at h ⊢
    induction h with
    | nil => exact .nil
    | cons found rest ih =>
        cases rest with
        | nil => exact .singleton _
        | cons found' rest' =>
            refine .cons_cons ⟨(hash_of_sealedHeader found').symm, ?_⟩ ih
            exact hleveled.step _ _ _ found found'

end ChainState

namespace EngineTree

variable {X : Externals}

open ChainState

/-- What `on_new_head` returns for a stored block, and what that does. -/
structure FindsDifference (tree : EngineTree X) (target : B256) (header : SealedHeader) : Prop where
  /-- The loops end, without underflow and with the assertion true. -/
  checked : tree.onNewHeadChecked target = .ok (tree.onNewHead target)
  /-- A commit is returned exactly for a proper descendant of the head. -/
  commit_iff : (∃ new, tree.onNewHead target = some (.commit new)) ↔
    ∃ headers, headers ≠ [] ∧ tree.provider.Segment headers tree.canonicalHead.hash target
  commit : ∀ new, tree.onNewHead target = some (.commit new) →
    tree.provider.Segment new.headers tree.canonicalHead.hash target
  /-- A reorg consists of the shortest chains up to the target and to the head
  that start at children of one hash. -/
  reorg : ∀ new old, tree.onNewHead target = some (.reorg new old) → old ≠ [] ∧
    (∃ fork, tree.provider.Segment new.headers fork target ∧
      tree.provider.Segment old fork tree.canonicalHead.hash) ∧
    ∀ new' old' fork', new' ≠ [] → tree.provider.Segment new' fork' target →
      tree.provider.Segment old' fork' tree.canonicalHead.hash →
        new.headers.length ≤ new'.length ∧ old.length ≤ old'.length
  /-- Nothing is returned exactly if there are no such chains. -/
  none_iff : tree.onNewHead target = none ↔ ¬∃ new old fork, new ≠ [] ∧ old ≠ [] ∧
    tree.provider.Segment new fork target ∧ tree.provider.Segment old fork tree.canonicalHead.hash
  /-- Rewinding to the head or one of its ancestors. -/
  rewind : ∀ headers, tree.provider.StoredPath tree.canonicalHead.hash headers target →
    tree.onNewHead target
      = some (.reorg (HeadChain.ofWalk header []) (header :: headers.reverse))
  /-- Applying the update makes the target the head, and its ancestors canonical. -/
  applied : ∀ update, tree.onNewHead target = some update →
    (tree.onCanonicalChainUpdate update).canonicalHead = ⟨header.number, target⟩ ∧
      (tree.onCanonicalChainUpdate update).MapsHead

section

variable {tree : EngineTree X} {target : B256} {header : SealedHeader}

private theorem commit_of_descendant (hleveled : tree.provider.Leveled) (hhead : tree.HeadStored)
    (hstored : tree.provider.sealedHeader target = some header) (hnumber : header.number ≠ 0)
    {headers : List SealedHeader} (hne : headers ≠ [])
    (hpath : tree.provider.StoredPath target headers tree.canonicalHead.hash) :
    ∃ new, tree.onNewHead target = some (.commit new) := by
  have hmeet : Meeting tree target headers [] tree.canonicalHead.hash := ⟨hpath, .nil _⟩
  have hheight := hhead.atHeight hleveled
  obtain ⟨update, hupdate⟩ := onNewHead_of_meeting hleveled hheight hstored hnumber hmeet hne
  rcases onNewHead_cases hleveled hheight hstored hnumber hupdate with
    ⟨new, rfl, -⟩ | ⟨new, old, fork, rfl, holdNe, -, hshortest⟩
  · exact ⟨new, hupdate⟩
  · have hle := (hshortest _ _ _ hmeet hne).2
    exact absurd (List.length_eq_zero_iff.mp (Nat.le_zero.mp hle)) holdNe

/-- What is found is a pair of chains that are not empty. -/
private theorem segments_of_found (hleveled : tree.provider.Leveled) (hhead : tree.HeadStored)
    (hstored : tree.provider.sealedHeader target = some header) (hnumber : header.number ≠ 0)
    {update : NewCanonicalChain} (h : tree.onNewHead target = some update) :
    ∃ new old fork, new ≠ [] ∧ old ≠ [] ∧ tree.provider.Segment new fork target ∧
      tree.provider.Segment old fork tree.canonicalHead.hash := by
  rcases onNewHead_cases hleveled (hhead.atHeight hleveled) hstored hnumber h with
    ⟨new, rfl, hpath⟩ | ⟨new, old, fork, rfl, holdNe, hmeet, -⟩
  · -- the head itself and its descendants start at children of the head's parent
    obtain ⟨headHeader, hheadStored, -⟩ := hhead.stored
    refine ⟨headHeader :: new.headers, [headHeader], headHeader.parentHash, List.cons_ne_nil _ _,
      List.cons_ne_nil _ _, .of_path hleveled ?_, .of_path hleveled (.cons hheadStored (.nil _))⟩
    rw [List.reverse_cons]
    exact hpath.snoc hheadStored
  · exact ⟨new.headers, old, fork, new.nonempty, holdNe, .of_path hleveled hmeet.new,
      .of_path hleveled hmeet.old⟩

/-- **`on_new_head` finds the difference** of the canonical chain and the chain of
any stored block above number zero. -/
theorem findsDifference_of_leveled (hleveled : tree.provider.Leveled) (hhead : tree.HeadStored)
    (hmaps : tree.MapsHead) (hstored : tree.provider.sealedHeader target = some header)
    (hnumber : 1 ≤ header.number) : tree.FindsDifference target header := by
  replace hnumber : header.number ≠ 0 := Nat.one_le_iff_ne_zero.mp hnumber
  have hheight := hhead.atHeight hleveled
  have hcases := fun {update : NewCanonicalChain} (h : tree.onNewHead target = some update) =>
    onNewHead_cases hleveled hheight hstored hnumber h
  refine
    { checked := onNewHeadChecked_eq hleveled hhead
      commit_iff := ⟨?_, ?_⟩
      commit := ?_
      reorg := ?_
      none_iff := ⟨?_, ?_⟩
      rewind := ?_
      applied := fun update h =>
        mapsHead_onCanonicalChainUpdate hleveled hhead hmaps hstored hnumber h }
  · rintro ⟨new, h⟩
    rcases hcases h with ⟨new', heq, hpath⟩ | ⟨new', old, fork, heq, -⟩
    · cases heq
      exact ⟨new.headers, new.nonempty, .of_path hleveled hpath⟩
    · cases heq
  · rintro ⟨headers, hne, hsegment⟩
    exact commit_of_descendant hleveled hhead hstored hnumber
      (List.reverse_eq_nil_iff.not.mpr hne) hsegment.path
  · intro new h
    rcases hcases h with ⟨new', heq, hpath⟩ | ⟨new', old, fork, heq, -⟩
    · cases heq
      exact .of_path hleveled hpath
    · cases heq
  · intro new old h
    rcases hcases h with ⟨new', heq, -⟩ | ⟨new', old', fork, heq, holdNe, hmeet, hshortest⟩
    · cases heq
    · cases heq
      refine ⟨holdNe, ⟨fork, .of_path hleveled hmeet.new, .of_path hleveled hmeet.old⟩, ?_⟩
      intro new' old' fork' hne hnew hold
      have hle := hshortest _ _ _ ⟨hnew.path, hold.path⟩ (List.reverse_eq_nil_iff.not.mpr hne)
      simpa only [List.length_reverse] using hle
  · rintro hnone ⟨new, old, fork, hne, -, hnew, hold⟩
    obtain ⟨update, h⟩ := onNewHead_of_meeting hleveled hheight hstored hnumber
      ⟨hnew.path, hold.path⟩ (List.reverse_eq_nil_iff.not.mpr hne)
    rw [hnone] at h
    cases h
  · intro hapart
    cases h : tree.onNewHead target with
    | none => rfl
    | some update => exact absurd (segments_of_found hleveled hhead hstored hnumber h) hapart
  · intro headers hpath
    have hmeet : Meeting tree target [header] (headers ++ [header]) header.parentHash :=
      ⟨.cons hstored (.nil _), hpath.snoc hstored⟩
    obtain ⟨update, h⟩ := onNewHead_of_meeting hleveled hheight hstored hnumber hmeet
      (List.cons_ne_nil _ _)
    rw [h]
    rcases hcases h with ⟨new, rfl, hcommit⟩ | ⟨new, old, fork, rfl, -, hfound, hshortest⟩
    · -- the head is not below its ancestor
      obtain ⟨headHeader, hheadStored, -⟩ := hhead.stored
      have hdown := (StoredPath.atHeight hpath hleveled (hleveled.atHeight hheadStored)).own header
        hstored
      have hup := (StoredPath.atHeight hcommit hleveled (hleveled.atHeight hstored)).own headHeader
        hheadStored
      have hpositive := List.length_pos_of_ne_nil new.nonempty
      rw [List.length_reverse] at hup
      omega
    · have hlevels := hfound.levels hleveled hheight hstored
        (List.reverse_eq_nil_iff.not.mpr new.nonempty)
      have hlevels' := hmeet.levels hleveled hheight hstored (List.cons_ne_nil _ _)
      have hle := (hshortest _ _ _ hmeet (List.cons_ne_nil _ _)).1
      have hpositive := List.length_pos_of_ne_nil new.nonempty
      simp only [List.length_append, List.length_cons, List.length_nil] at hlevels' hle
      rw [List.length_reverse, List.length_reverse] at hlevels
      obtain ⟨hnew, -⟩ := hfound.new.unique hmeet.new (by
        simp only [List.length_reverse, List.length_cons, List.length_nil]
        omega)
      obtain ⟨hold, -⟩ := hfound.old.unique hmeet.old (by
        simp only [List.length_reverse, List.length_append, List.length_cons, List.length_nil]
        omega)
      rw [List.reverse_eq_iff] at hnew hold
      obtain ⟨newHeaders, newNonempty⟩ := new
      subst hnew hold
      rw [List.reverse_append]
      rfl

end

end EngineTree

namespace SmallWorld

theorem fork_leveled {cs : ChainState Bool} (hsound : cs.Sound forkFeed.preimage) :
    cs.Leveled where
  step := fork_numbersStep hsound
  sibling hash hash' header header' hstored hstored' heq := by
    have hlisted : ∀ header ∈ forkHeaders, ∀ header' ∈ forkHeaders,
        header.parentHash = header'.parentHash → header.number = header'.number := by
      decide +kernel
    exact hlisted header (mem_of_preimageOf (hsound.preimage_of_sealedHeader hstored)) header'
      (mem_of_preimageOf (hsound.preimage_of_sealedHeader hstored')) heq

/-- Two blocks on the genesis block, one of them canonical. -/
def siblings : List (ChainOp Bool) :=
  [.insertBlock (block 1 0 0) none, .insertBlock (block 2 1 1) (some true),
    .insertBlock (block 5 1 1) (some true), .insertCanonicalHash 0 1, .insertCanonicalHash 1 2]

theorem siblings_conform : ∀ op ∈ siblings, op.Conforms forkFeed.preimage := by
  intro op hmem
  simp only [siblings, List.mem_cons, List.not_mem_nil, or_false] at hmem
  rcases hmem with rfl | rfl | rfl | rfl | rfl
  · show (block 1 0 0).toSealedHeader.Conforms forkFeed.preimage
    decide +kernel
  · show (block 2 1 1).toSealedHeader.Conforms forkFeed.preimage
    decide +kernel
  · show (block 5 1 1).toSealedHeader.Conforms forkFeed.preimage
    decide +kernel
  all_goals trivial

/-- A tree on the two blocks. -/
def siblingsTree : EngineTree externals :=
  { EngineTree.new (ChainState.empty.applyAll siblings) ⟨0, 1⟩ with canonicalHead := ⟨1, 2⟩ }

/-- The difference to the block that is not canonical. -/
theorem findsDifference_of_siblings : siblingsTree.FindsDifference 5 (header 5 1 1) := by
  have hleveled : siblingsTree.provider.Leveled :=
    fork_leveled (ChainState.Sound.empty.applyAll siblings_conform)
  have hhead : siblingsTree.provider.sealedHeader 2 = some (header 2 1 1) := by decide +kernel
  have hgenesis : siblingsTree.provider.sealedHeader 1 = some (header 1 0 0) := by decide +kernel
  have hnone : siblingsTree.provider.sealedHeader 0 = none := by decide +kernel
  have hmaps : siblingsTree.MapsHead := by
    refine ⟨fun headers hash reached hpath hreached => ?_, fun number hlt => ?_⟩
    · -- the head, the genesis block, and nothing below it
      rcases hpath with _ | ⟨found, rest⟩
      · rw [show siblingsTree.canonicalHead.hash = 2 from rfl, hhead] at hreached
        cases hreached
        decide +kernel
      · rw [show siblingsTree.canonicalHead.hash = 2 from rfl, hhead] at found
        cases found
        rcases rest with _ | ⟨found, rest⟩
        · rw [show (header 2 1 1).parentHash = 1 from rfl, hgenesis] at hreached
          cases hreached
          decide +kernel
        · rw [show (header 2 1 1).parentHash = 1 from rfl, hgenesis] at found
          cases found
          rcases rest with _ | ⟨found, rest⟩
          · rw [show (header 1 0 0).parentHash = 0 from rfl, hnone] at hreached
            cases hreached
          · rw [show (header 1 0 0).parentHash = 0 from rfl, hnone] at found
            cases found
    · have hlt' : 1 < number := hlt
      show FiniteMap.get (FiniteMap.insert (FiniteMap.insert ∅ 0 1) 1 2) number = none
      rw [FiniteMap.get_insert_of_ne _ _ (by omega), FiniteMap.get_insert_of_ne _ _ (by omega),
        FiniteMap.get_empty]
  exact EngineTree.findsDifference_of_leveled hleveled ⟨header 2 1 1, hhead, rfl⟩ hmaps
    (by decide +kernel) (by decide)

end SmallWorld

end ZkRess
