import ZkRess.Engine.ChainDifference
import ZkRess.Engine.Connection

/-!
# Making a block canonical

What `make_canonical` does to the head and to the canonical map, told in terms of a
provider that may have more blocks by then (`Turn`): the chains that meet in the larger
provider are the ones found, or longer, or there are none to be found yet.

Nothing else that happens while a block is handled moves the head or the canonical map
(`Idle`), and among the descendants only the sync target is made canonical, when it is
inserted (`connectBlocks_turn`).
-/

namespace ZkRess

open Foundation

variable {X : Externals} {feed : Feed X} {genesis : Block}

/-! ## Heights in a run -/

namespace Grounded

variable {provider : ChainState X.Proof}

/-- The parent of the genesis block is not stored, all others are one below their child. -/
theorem leveled (hgenesis : feed.IsGenesis genesis) (h : Grounded feed genesis provider) :
    provider.Leveled where
  step hash header parent hstored hparent := by
    have hknown := h.preimage_of_sealedHeader hparent
    rcases h.header_cases hgenesis hstored with rfl | ⟨parent', hparent', hnumber⟩
    · cases hgenesis.noParent.symm.trans hknown
    · obtain rfl := Option.some.inj (hparent'.symm.trans hknown)
      exact hnumber
  sibling hash hash' header header' hstored hstored' heq := by
    rcases h.header_cases hgenesis hstored with rfl | ⟨parent, hparent, hnumber⟩
    · rcases h.header_cases hgenesis hstored' with rfl | ⟨parent', hparent', hnumber'⟩
      · rfl
      · rw [← heq] at hparent'
        cases hgenesis.noParent.symm.trans hparent'
    · rcases h.header_cases hgenesis hstored' with rfl | ⟨parent', hparent', hnumber'⟩
      · rw [heq] at hparent
        cases hgenesis.noParent.symm.trans hparent
      · rw [heq] at hparent
        obtain rfl := Option.some.inj (hparent.symm.trans hparent')
        rw [hnumber, hnumber']

/-- A known header stands at its number, stored or not. -/
theorem atHeight (hgenesis : feed.IsGenesis genesis) (h : Grounded feed genesis provider)
    {hash : B256} {header : SealedHeader} (hknown : feed.preimage hash = some header) :
    provider.AtHeight hash header.number where
  own header' hstored := by
    obtain rfl := Option.some.inj (hknown.symm.trans (h.preimage_of_sealedHeader hstored))
    rfl
  child key child hstored hparent := by
    rcases h.header_cases hgenesis hstored with rfl | ⟨parent, hparent', hnumber⟩
    · rw [← hparent] at hknown
      cases hgenesis.noParent.symm.trans hknown
    · rw [hparent] at hparent'
      obtain rfl := Option.some.inj (hknown.symm.trans hparent')
      omega

end Grounded

/-- A grounded provider, and a head that is a known header at its number. -/
structure HeadGrounded (feed : Feed X) (genesis : Block) (tree : EngineTree X) : Prop where
  grounded : Grounded feed genesis tree.provider
  known : ∃ header, feed.preimage tree.canonicalHead.hash = some header ∧
    header.number = tree.canonicalHead.number

namespace HeadGrounded

variable {tree tree' : EngineTree X}

theorem atHeight (hgenesis : feed.IsGenesis genesis) (h : HeadGrounded feed genesis tree)
    {provider : ChainState X.Proof} (hgrounded : Grounded feed genesis provider) :
    provider.AtHeight tree.canonicalHead.hash tree.canonicalHead.number := by
  obtain ⟨header, hknown, hnumber⟩ := h.known
  rw [← hnumber]
  exact hgrounded.atHeight hgenesis hknown

private theorem of_same (h : HeadGrounded feed genesis tree)
    (grounded : Grounded feed genesis tree'.provider)
    (head : tree'.canonicalHead = tree.canonicalHead) : HeadGrounded feed genesis tree' where
  grounded := grounded
  known := by
    rw [head]
    exact h.known

private theorem of_found (h : HeadGrounded feed genesis tree)
    (grounded : Grounded feed genesis tree'.provider) {target : B256} {update : NewCanonicalChain}
    (found : tree.onNewHead target = some update)
    (head : tree'.canonicalHead = update.tip.numHash) : HeadGrounded feed genesis tree' where
  grounded := grounded
  known := by
    have htip := EngineTree.onNewHead_tip found
    have hknown := h.grounded.preimage_of_sealedHeader htip
    rw [← ChainState.hash_of_sealedHeader htip] at hknown
    rw [head]
    exact ⟨update.tip, hknown, rfl⟩

theorem step (hverifies : X.VerifiesNumber) {mark : Option Mark}
    (step : TreeStep feed tree tree' mark) (h : HeadGrounded feed genesis tree) :
    HeadGrounded feed genesis tree' := by
  have hgrounded := h.grounded.step hverifies step
  match step with
  | .quiet _ head _ => exact h.of_same hgrounded head
  | .condemn _ _ _ _ head _ => exact h.of_same hgrounded head
  | .inherit _ _ _ _ head _ => exact h.of_same hgrounded head
  | .verify _ _ _ _ _ _ _ head _ => exact h.of_same hgrounded head
  | .prune _ _ _ _ head _ => exact h.of_same hgrounded head
  | .advance found _ head _ => exact h.of_found hgrounded found head

theorem insertFinalized (h : HeadGrounded feed genesis tree) (hlinked : feed.Linked)
    {block : Block} {ancestors : List SealedHeader} (hfed : (block, ancestors) ∈ feed.finalized) :
    HeadGrounded feed genesis (ConsensusEngine.insertFinalized tree block ancestors) where
  grounded := h.grounded.insertFinalized hlinked hfed
  known := ⟨block.toSealedHeader, feed.finalized_conform _ hfed, rfl⟩

/-- **In every state of a run** blocks are numbered one above their parents, and the head
is known. -/
theorem of_run (hgenesis : feed.IsGenesis genesis) (hlinked : feed.Linked)
    (hverifies : X.VerifiesNumber) {trace : List (ConsensusEngine.Processed X.Proof)}
    {engine : ConsensusEngine X}
    (run : FedRun feed (.launch X genesis) trace engine) :
    HeadGrounded feed genesis engine.tree ∧ FedBy feed engine.tree.blockBuffer :=
  ConsensusEngine.Run.preserves (fun _ _ met => met) (fun _ _ _ step h => h.step hverifies step)
    (fun _ _ _ met h => h.insertFinalized hlinked met) run (.new feed)
    ⟨.launch hgenesis, genesis.toSealedHeader, hgenesis.conforms, rfl⟩

end HeadGrounded

/-! ## Branches -/

namespace ChainState

variable {P : Type} {cs : ChainState P} {target head : B256} {header : SealedHeader} {number : ℕ}
  {new old new' old' : List SealedHeader} {ancestor ancestor' : B256}

/-- **The branches of two hashes** above a common ancestor, all their blocks stored. -/
structure Branches (cs : ChainState P) (target head : B256) (new old : List SealedHeader)
    (ancestor : B256) : Prop where
  new : cs.StoredPath target new ancestor
  old : cs.StoredPath head old ancestor

namespace Branches

theorem levels (hleveled : cs.Leveled) (hhead : cs.AtHeight head number)
    (hstored : cs.sealedHeader target = some header)
    (h : cs.Branches target head new old ancestor) :
    new.length + number = header.number + old.length := by
  have hnew := StoredPath.atHeight h.new hleveled (hleveled.atHeight hstored)
  have hold := StoredPath.atHeight h.old hleveled hhead
  have hlevel : (header.number : ℤ) - new.length = number - old.length := by
    by_cases hne : new = []
    · subst hne
      cases h.new
      have hown := hold.own header hstored
      rw [List.length_nil]
      omega
    · obtain ⟨key, child, hchild, hparent⟩ := h.new.stop_eq_parent hne
      exact hnew.unique hold hchild hparent
  omega

private theorem split (hleveled : cs.Leveled) (hhead : cs.AtHeight head number)
    (hstored : cs.sealedHeader target = some header)
    (h : cs.Branches target head new old ancestor)
    (h' : cs.Branches target head new' old' ancestor') (hle : new.length ≤ new'.length) :
    ∃ rest, new' = new ++ rest ∧ old' = old ++ rest ∧ cs.StoredPath ancestor rest ancestor' := by
  have hlevels := h.levels hleveled hhead hstored
  have hlevels' := h'.levels hleveled hhead hstored
  obtain ⟨rest, rfl, hrest⟩ := h.new.split h'.new hle
  obtain ⟨restOld, rfl, hrestOld⟩ := h.old.split h'.old (by omega)
  rw [List.length_append] at hlevels' hle
  rw [List.length_append] at hlevels'
  obtain ⟨rfl, -⟩ := hrestOld.unique hrest (by omega)
  exact ⟨restOld, rfl, rfl, hrest⟩

/-- **Of two common ancestors one lies below the other**, and below the upper one the
branches are the same. -/
theorem compare (hleveled : cs.Leveled) (hhead : cs.AtHeight head number)
    (hstored : cs.sealedHeader target = some header)
    (h : cs.Branches target head new old ancestor)
    (h' : cs.Branches target head new' old' ancestor') :
    (∃ rest, new' = new ++ rest ∧ old' = old ++ rest ∧ cs.StoredPath ancestor rest ancestor') ∨
      ∃ rest, new = new' ++ rest ∧ old = old' ++ rest ∧
        cs.StoredPath ancestor' rest ancestor :=
  (Nat.le_total new.length new'.length).imp (h.split hleveled hhead hstored h')
    (h'.split hleveled hhead hstored h)

end Branches

end ChainState

/-! ## The turn of a block -/

namespace EngineTree

open ChainState

/-- **A stored block is made canonical**, when the provider does not have all of the
later blocks yet. -/
structure Turn (later : ChainState X.Proof) (tree : EngineTree X) (target : B256)
    (header : SealedHeader) : Prop where
  leveled : later.Leveled
  head : later.AtHeight tree.canonicalHead.hash tree.canonicalHead.number
  sub : ∀ hash header, tree.provider.sealedHeader hash = some header →
    later.sealedHeader hash = some header
  stored : tree.provider.sealedHeader target = some header
  number : header.number ≠ 0

/-- Branches are stored up to some common ancestor. -/
def StoredSoFar (provider : ChainState X.Proof) (new old : List SealedHeader) : Prop :=
  ∃ new₁ old₁ rest, new = new₁ ++ rest ∧ old = old₁ ++ rest ∧
    ∀ top ∈ new₁ ++ old₁, provider.Contains top.hash

namespace Turn

variable {later : ChainState X.Proof} {tree : EngineTree X} {target : B256}
  {header : SealedHeader} {new old : List SealedHeader} {ancestor : B256}

theorem leveled_tree (h : Turn later tree target header) : tree.provider.Leveled :=
  h.leveled.of_sub h.sub

theorem head_tree (h : Turn later tree target header) :
    tree.provider.AtHeight tree.canonicalHead.hash tree.canonicalHead.number :=
  h.head.of_sub h.sub

/-- What meets now meets later. -/
theorem branches (h : Turn later tree target header)
    (hmeeting : Meeting tree target new old ancestor) :
    later.Branches target tree.canonicalHead.hash new old ancestor :=
  ⟨hmeeting.new.mono h.sub, hmeeting.old.mono h.sub⟩

/-- A later path is there already if its blocks are. -/
private theorem path (h : Turn later tree target header) {start stop : B256}
    {headers : List SealedHeader} (hpath : later.StoredPath start headers stop)
    (hcontains : ∀ top ∈ headers, tree.provider.Contains top.hash) :
    tree.provider.StoredPath start headers stop := by
  refine Path.mono_of_mem hpath fun hash top hmem hstored => ?_
  obtain ⟨top', hstored'⟩ := contains_iff_sealedHeader.mp (hcontains top hmem)
  rw [hash_of_sealedHeader hstored] at hstored'
  obtain rfl := Option.some.inj (hstored.symm.trans (h.sub _ _ hstored'))
  exact hstored'

/-- **A chain update is found exactly if the branches are stored** up to some common
ancestor. -/
theorem found_iff (h : Turn later tree target header)
    (hbranches : later.Branches target tree.canonicalHead.hash new old ancestor) :
    (∃ update, tree.onNewHead target = some update) ↔
      StoredSoFar tree.provider new old := by
  constructor
  · rintro ⟨update, hupdate⟩
    obtain ⟨fork, hmeeting, -⟩ :=
      onNewHead_meeting h.leveled_tree h.head_tree h.stored h.number hupdate
    have hcontains : ∀ top ∈ update.new.headers.reverse ++ update.old.reverse,
        tree.provider.Contains top.hash := by
      intro top hmem
      have hmet : ∃ hash, tree.provider.sealedHeader hash = some top :=
        (List.mem_append.mp hmem).elim hmeeting.new.found_of_mem hmeeting.old.found_of_mem
      obtain ⟨hash, hfound⟩ := hmet
      rw [hash_of_sealedHeader hfound]
      exact contains_iff_sealedHeader.mpr ⟨top, hfound⟩
    rcases (h.branches hmeeting).compare h.leveled h.head (h.sub _ _ h.stored) hbranches with
      ⟨rest, rfl, rfl, -⟩ | ⟨rest, hnew, hold, -⟩
    · exact ⟨_, _, rest, rfl, rfl, hcontains⟩
    · refine ⟨new, old, [], by simp, by simp, fun top hmem => hcontains top ?_⟩
      rw [hnew, hold]
      exact (List.mem_append.mp hmem).elim
        (fun hmem => List.mem_append_left _ (List.mem_append_left _ hmem))
        (fun hmem => List.mem_append_right _ (List.mem_append_left _ hmem))
  · rintro ⟨new₁, old₁, rest, rfl, rfl, hcontains⟩
    obtain ⟨fork, hnew, hrest⟩ := hbranches.new.interrupt new₁.length (by simp)
    obtain ⟨fork', hold, hrest'⟩ := hbranches.old.interrupt old₁.length (by simp)
    rw [List.take_left] at hnew hold
    rw [List.drop_left] at hrest hrest'
    obtain rfl := hrest.start_unique (fun _ _ => hash_of_sealedHeader) hrest'
    have hnew' := h.path hnew fun top hmem => hcontains top (List.mem_append_left _ hmem)
    have hold' := h.path hold fun top hmem => hcontains top (List.mem_append_right _ hmem)
    by_cases hne : new₁ = []
    · -- the target is the ancestor: from its parent on both branches have it
      subst hne
      cases hnew'
      exact onNewHead_of_meeting h.leveled_tree h.head_tree h.stored h.number
        ⟨.cons h.stored (.nil _), hold'.snoc h.stored⟩ (List.cons_ne_nil _ _)
    · exact onNewHead_of_meeting h.leveled_tree h.head_tree h.stored h.number ⟨hnew', hold'⟩ hne

/-- Only the target itself can be both on the new and on the old chain of an update. -/
private theorem apart (h : Turn later tree target header) {fork : B256}
    (hmeeting : Meeting tree target new old fork)
    (hshortest : ∀ new' old' fork', Meeting tree target new' old' fork' → new' ≠ [] →
      new.length ≤ new'.length) {top : SealedHeader} (hnew : top ∈ new) (hold : top ∈ old) :
    top.hash = target := by
  by_contra hne
  have hkey : ∀ hash header, tree.provider.sealedHeader hash = some header →
      header.hash = hash := fun _ _ => hash_of_sealedHeader
  obtain ⟨newAbove, newBelow, rfl, hnewAbove, -⟩ := hmeeting.new.through_mem hkey hnew
  obtain ⟨oldAbove, -, -, holdAbove, -⟩ := hmeeting.old.through_mem hkey hold
  -- the chains would meet at it before
  have hle := hshortest _ _ _ ⟨hnewAbove, holdAbove⟩ (by
    rintro rfl
    cases hnewAbove
    exact hne rfl)
  rw [List.length_append, List.length_cons] at hle
  omega

/-- **What a chain update does to the canonical map.**  The new branch is mapped above the
fork; below it the two branches are the same, and what was mapped stays. -/
theorem applied (h : Turn later tree target header) {update : NewCanonicalChain}
    (hupdate : tree.onNewHead target = some update)
    (hbranches : later.Branches target tree.canonicalHead.hash new old ancestor)
    {top : SealedHeader} (hmem : top ∈ new) :
    (tree.onCanonicalChainUpdate update).provider.canonicalHashesByNumber.get top.number
        = some top.hash ↔
      (top ∈ old → top.hash ≠ target →
        tree.provider.canonicalHashesByNumber.get top.number = some top.hash) := by
  obtain ⟨fork, hmeeting, hshortest⟩ :=
    onNewHead_meeting h.leveled_tree h.head_tree h.stored h.number hupdate
  rw [← List.length_reverse] at hshortest
  have hfound := h.branches hmeeting
  have htarget := h.leveled.atHeight (h.sub _ _ h.stored)
  have hfork := StoredPath.atHeight hfound.new h.leveled htarget
  have hfork' := StoredPath.atHeight hfound.old h.leveled h.head
  have hlevels := hfound.levels h.leveled h.head (h.sub _ _ h.stored)
  have hnewMem := fun {top : SealedHeader} (hmem : top ∈ update.new.headers) =>
    StoredPath.mem_stored hfound.new h.leveled htarget (List.mem_reverse.mpr hmem)
  have holdMem := fun {top : SealedHeader} (hmem : top ∈ update.old) =>
    StoredPath.mem_stored hfound.old h.leveled h.head (List.mem_reverse.mpr hmem)
  show (tree.provider.onChainUpdate update.new.headers update.old).canonicalHashesByNumber.get _
    = _ ↔ _
  rw [onChainUpdate_canonical]
  -- a header of the update is mapped
  have hinserted : top ∈ update.new.headers → _ = some top.hash := fun hmem =>
    FiniteMap.get_insertList_of_mem (fun header : SealedHeader => header.number)
      (fun header => header.hash)
      (FiniteMap.withdrawList (fun header : SealedHeader => header.number)
        (fun header => header.hash) update.old tree.provider.canonicalHashesByNumber) hmem
      fun other hother heq => congrArg _ (eq_of_number_eq
        (StoredPath.falls hfound.new h.leveled htarget) (List.mem_reverse.mpr hother)
        (List.mem_reverse.mpr hmem) heq)
  rcases hfound.compare h.leveled h.head (h.sub _ _ h.stored) hbranches with
    ⟨rest, hnew, hold, hrest⟩ | ⟨rest, hnew, hold, -⟩
  · have hbelow : ∀ {top}, top ∈ rest →
        (top.number : ℤ) ≤ header.number - update.new.headers.reverse.length :=
      fun hmem => (StoredPath.mem_stored hrest h.leveled hfork hmem).2.1
    rw [hnew, List.mem_append] at hmem
    rcases hmem with hmem | hmem
    · refine iff_of_true (hinserted (List.mem_reverse.mp hmem)) fun hmemOld hne => ?_
      rw [hold, List.mem_append] at hmemOld
      rcases hmemOld with hmemOld | hmemRest
      · exact absurd (h.apart hmeeting hshortest hmem hmemOld) hne
      · have hle := hbelow hmemRest
        obtain ⟨-, -, hlt⟩ := hnewMem (List.mem_reverse.mp hmem)
        omega
    · have hle := hbelow hmem
      have hpositive : 0 < update.new.headers.reverse.length := by
        rw [List.length_reverse]
        exact List.length_pos_of_ne_nil update.new.nonempty
      have hne : top.hash ≠ target := by
        intro heq
        obtain ⟨htop, -, -⟩ := StoredPath.mem_stored hrest h.leveled hfork hmem
        rw [heq] at htop
        obtain rfl := Option.some.inj (htop.symm.trans (h.sub _ _ h.stored))
        omega
      rw [FiniteMap.get_insertList_of_forall_ne, FiniteMap.get_withdrawList]
      · refine ⟨fun hget _ _ => hget.1, fun hmapped => ⟨hmapped ?_ hne, ?_⟩⟩
        · rw [hold]
          exact List.mem_append_right _ hmem
        · rintro ⟨other, hother, heq, -⟩
          obtain ⟨-, -, hlt⟩ := holdMem hother
          have heq' : other.number = top.number := heq
          omega
      · intro other hother heq
        obtain ⟨-, -, hlt⟩ := hnewMem hother
        have heq' : other.number = top.number := heq
        omega
  · refine iff_of_true (hinserted ?_) fun hmemOld hne =>
      absurd (h.apart hmeeting hshortest ?_ ?_) hne
    · rw [← List.mem_reverse, hnew]
      exact List.mem_append_left _ hmem
    · rw [hnew]
      exact List.mem_append_left _ hmem
    · rw [hold]
      exact List.mem_append_left _ hmemOld

end Turn

/-! ## What does not move the head -/

/-- Head, canonical map and sync target are as before. -/
structure Idle (tree tree' : EngineTree X) : Prop where
  head : tree'.canonicalHead = tree.canonicalHead
  canonical : tree'.provider.canonicalHashesByNumber = tree.provider.canonicalHashesByNumber
  tracker : tree'.forkchoiceStateTracker = tree.forkchoiceStateTracker

/-- The hash is that of the sync target. -/
def Targets (tree : EngineTree X) (hash : B256) : Prop :=
  ∃ state, X.forkchoiceStateTracker.syncTargetState tree.forkchoiceStateTracker = some state ∧
    state.headBlockHash = hash

section

variable {tree tree' tree'' : EngineTree X} {target : B256}

theorem Idle.refl (tree : EngineTree X) : Idle tree tree := ⟨rfl, rfl, rfl⟩

theorem Idle.trans (h : Idle tree tree') (h' : Idle tree' tree'') : Idle tree tree'' where
  head := h'.head.trans h.head
  canonical := h'.canonical.trans h.canonical
  tracker := h'.tracker.trans h.tracker

theorem Targets.of_tracker (h : tree.Targets target)
    (htracker : tree'.forkchoiceStateTracker = tree.forkchoiceStateTracker) :
    tree'.Targets target := by
  unfold Targets
  rwa [htracker]

theorem Targets.isSyncTargetHead_iff (h : tree.Targets target) {hash : B256} :
    tree.isSyncTargetHead hash = true ↔ hash = target := by
  obtain ⟨state, hstate, rfl⟩ := h
  unfold isSyncTargetHead
  rw [hstate, decide_eq_true_eq, eq_comm]

theorem Targets.syncTargetEvent (h : tree.Targets target) :
    tree.syncTargetEvent target = some (.makeCanonical target) :=
  if_pos (h.isSyncTargetHead_iff.mpr rfl)

theorem Peeks.idle (h : Peeks tree tree') : Idle tree tree' where
  head := h.canonicalHead
  canonical := by rw [h.provider]
  tracker := h.forkchoiceStateTracker

theorem Checks.idle {check head : B256} {status : Option PayloadStatus}
    (h : Checks tree check head status tree') : Idle tree tree' := by
  match h with
  | .clear peeks _ => exact peeks.idle
  | .invalid peeks _ _ => exact ⟨peeks.idle.head, peeks.idle.canonical, peeks.idle.tracker⟩

/-- **A downloaded block that is stored already** changes nothing of that, and there is
nothing to do about it. -/
theorem onDownloadedBlock_of_contains (σ : SetOrder B256) {block : Block}
    (h : tree.provider.Contains block.hash) (proof : X.Proof) :
    ∃ status tree', onDownloadedBlock σ tree block proof = (.ok (.new status), tree') ∧
      Idle tree tree' ∧ tree'.provider = tree.provider := by
  have hchecks := checkInvalidAncestorWithHead_cases tree
    (tree.lowestBufferedAncestorOr block.hash) block.hash
  unfold onDownloadedBlock
  match hcheck : tree.checkInvalidAncestorWithHead (tree.lowestBufferedAncestorOr block.hash)
      block.hash with
  | (some status, tree₁) =>
      rw [hcheck] at hchecks
      exact ⟨status, tree₁, rfl, hchecks.idle, hchecks.provider⟩
  | (none, tree₁) =>
      rw [hcheck] at hchecks
      have hseen : tree₁.insertBlock block (some proof) = (.ok .alreadySeen, tree₁) := by
        rw [← hchecks.provider, contains_iff_sealedHeader, ← Option.isSome_iff_exists] at h
        exact if_pos h
      refine ⟨⟨.valid, some block.hash⟩, tree₁, ?_, hchecks.idle, hchecks.provider⟩
      simp only [hseen]

theorem Inserts.idle {block : Block} {maybeProof : Option X.Proof}
    {result : Except InsertBlockErrorKind InsertPayloadOk}
    (h : Inserts tree block maybeProof result tree') : Idle tree tree' := by
  cases h <;> exact ⟨rfl, rfl, rfl⟩

theorem Fails.idle {block : Block} {error : InsertBlockErrorKind}
    {result : Except InsertBlockFatalError PayloadStatus}
    (h : Fails tree block error result tree') : Idle tree tree' := by
  match h with
  | .fatal _ => exact .refl tree
  | .invalid _ peeks => exact ⟨peeks.idle.head, peeks.idle.canonical, peeks.idle.tracker⟩

/-! ## Descendants -/

/-- The block is stored, and so is its parent. -/
def Attached (provider : ChainState X.Proof) (hash : B256) : Prop :=
  ∃ header, provider.sealedHeader hash = some header ∧ provider.Contains header.parentHash

theorem Attached.contains {provider : ChainState X.Proof} {hash : B256}
    (h : Attached provider hash) : provider.Contains hash := by
  obtain ⟨header, hstored, -⟩ := h
  exact contains_iff_sealedHeader.mpr ⟨header, hstored⟩

theorem Attached.between {provider provider' : ChainState X.Proof} {hash : B256}
    {added : List Block} (h : Attached provider hash)
    (hbetween : Between provider added provider') : Attached provider' hash := by
  obtain ⟨header, hstored, hparent⟩ := h
  exact ⟨header, hbetween.sealedHeader hstored, hbetween.contains hparent⟩

/-- A verified block is attached. -/
theorem Inserts.attached {block : Block} {maybeProof : Option X.Proof}
    (h : Inserts tree block maybeProof (.ok (.inserted .valid)) tree') :
    Attached tree'.provider block.hash := by
  cases h with
  | @verified parent proof fresh valid connected proved passed =>
      refine ⟨block.toSealedHeader, sealedHeader_eq_some.mpr ⟨block, ?_, rfl⟩, ?_⟩
      · exact (ChainState.insertBlock_get _ _ _ _).trans (if_pos rfl)
      · exact ChainState.contains_insertBlock.mpr
          (.inr (contains_iff_sealedHeader.mpr ⟨parent, connected⟩))

/-- The sync target gets its turn when it is inserted: then it is made canonical. -/
structure Turned (tree : EngineTree X) (added : List Block) (target : B256)
    (turn : EngineTree X) : Prop where
  idle : Idle tree turn
  between : Between tree.provider added turn.provider
  attached : Attached turn.provider target

/-- **One of the descendants**: it is the sync target's turn, or nothing moves. -/
theorem Connects.turn {child : Block} {proof : X.Proof}
    {result : Except InsertBlockFatalError Unit} (h : Connects tree child proof result tree')
    (htargets : tree.Targets target) (hfresh : ¬tree.provider.Contains target) :
    (¬tree'.provider.Contains target ∧ Idle tree tree') ∨
      child.hash = target ∧ result = .ok () ∧
        ∃ turn, Turned tree [child] target turn ∧ tree' = turn.makeCanonical target := by
  -- without its turn, the sync target is not inserted
  have hmissed : ∀ {result tree₁}, Inserts tree child (some proof) result tree₁ →
      (child.hash = target → result ≠ .ok (.inserted .valid)) →
        ¬tree₁.provider.Contains target := by
    intro result tree₁ inserts hnot hstored
    cases inserts with
    | verified =>
        rcases ChainState.contains_insertBlock.mp hstored with heq | hold
        · exact hnot heq.symm rfl
        · exact hfresh hold
    | _ => exact hfresh hstored
  cases h with
  | @inserted result tree₁ inserts rest =>
      refine .inl ⟨hmissed inserts fun heq hvalid => rest ⟨?_, ?_⟩, inserts.idle⟩
      · exact (htargets.of_tracker inserts.idle.tracker).isSyncTargetHead_iff.mpr heq
      · exact Except.ok.inj hvalid
  | @syncTarget tree₁ inserts isTarget =>
      have heq := (htargets.of_tracker inserts.idle.tracker).isSyncTargetHead_iff.mp isTarget
      refine .inr ⟨heq, rfl, tree₁, ⟨inserts.idle, inserts.between, ?_⟩, by rw [heq]⟩
      rw [← heq]
      exact inserts.attached
  | failed inserts fails | failedFatally inserts fails =>
      refine .inl ⟨?_, inserts.idle.trans fails.idle⟩
      rw [fails.provider]
      exact hmissed inserts fun _ => nofun

/-- A stored sync target has had its turn: nothing moves. -/
theorem Connects.idle {child : Block} {proof : X.Proof}
    {result : Except InsertBlockFatalError Unit} (h : Connects tree child proof result tree')
    (htargets : tree.Targets target) (hstored : tree.provider.Contains target) :
    Idle tree tree' := by
  match h with
  | .inserted inserts _ => exact inserts.idle
  | .failed inserts fails | .failedFatally inserts fails => exact inserts.idle.trans fails.idle
  | .syncTarget inserts isTarget =>
      have heq := (htargets.of_tracker inserts.idle.tracker).isSyncTargetHead_iff.mp isTarget
      cases inserts with
      | verified fresh => exact absurd (heq ▸ hstored) fresh

theorem connectBlocks_idle (blocks : List (Block × X.Proof)) {tree : EngineTree X}
    (htargets : tree.Targets target) (hstored : tree.provider.Contains target) :
    Idle tree (connectBlocks blocks tree).2 := by
  obtain ⟨_, ⟨hidle, -⟩, -⟩ := connectBlocks_preserves
    (fun _ tree' => Idle tree tree' ∧ tree'.provider.Contains target)
    (fun h hconnects => ⟨h.1.trans (hconnects.idle (htargets.of_tracker h.1.tracker) h.2),
      hconnects.contains h.2⟩) blocks ⟨.refl tree, hstored⟩
  exact hidle

/-- **The loop over the descendants**: somewhere in it is the sync target's turn, or
nothing moves and the sync target is not inserted. -/
theorem connectBlocks_turn (blocks : List (Block × X.Proof)) {tree : EngineTree X}
    (htargets : tree.Targets target) (hfresh : ¬tree.provider.Contains target) :
    (¬(connectBlocks blocks tree).2.provider.Contains target ∧
        Idle tree (connectBlocks blocks tree).2) ∨
      ∃ before pair after turn, blocks = before ++ pair :: after ∧ pair.1.hash = target ∧
        Turned tree ((before ++ [pair]).map Prod.fst) target turn ∧
        connectBlocks blocks tree = connectBlocks after (turn.makeCanonical target) := by
  induction blocks generalizing tree with
  | nil => exact .inl ⟨hfresh, .refl tree⟩
  | cons pair blocks ih =>
      obtain ⟨child, proof⟩ := pair
      rcases connectBlocks_cons tree child proof blocks with
        ⟨tree₁, hconnects, heq⟩ | ⟨fatal, tree₁, hconnects, heq⟩
      · rw [heq]
        rcases hconnects.turn htargets hfresh with
          ⟨hfresh₁, hidle⟩ | ⟨hhash, -, turn, hturned, rfl⟩
        · refine (ih (htargets.of_tracker hidle.tracker) hfresh₁).imp
            (fun h => ⟨h.1, hidle.trans h.2⟩) ?_
          rintro ⟨before, pair, after, turn, rfl, hhash, hturned, hrest⟩
          exact ⟨(child, proof) :: before, pair, after, turn, rfl, hhash,
            ⟨hidle.trans hturned.idle, hconnects.between.trans hturned.between,
              hturned.attached⟩, hrest⟩
        · exact .inr ⟨[], (child, proof), blocks, turn, rfl, hhash, hturned, rfl⟩
      · rw [heq]
        rcases hconnects.turn htargets hfresh with hmissed | ⟨-, hok, -⟩
        · exact .inl hmissed
        · cases hok

/-! ## A whole call -/

/-- **The sync target's turn** in a call for a block, with the tree in the end. -/
inductive TakesTurn (σ : SetOrder B256) (called : EngineTree X) (block : Block) (target : B256)
    (final : EngineTree X) : Prop
  /-- The block is the sync target: it is made canonical at the end. -/
  | own {added turn} (own : block.hash = target) (turned : Turned called added target turn)
      (final_eq : final = turn.makeCanonical target)
  /-- The sync target is one of the descendants: it is made canonical when it is
  inserted. -/
  | descendant {before pair after turn} (other : block.hash ≠ target)
      (taken : (called.blockBuffer.removeBlockWithChildren σ block.hash).1
        = before ++ pair :: after) (hash : pair.1.hash = target)
      (turned : Turned called (block :: (before ++ [pair]).map Prod.fst) target turn)
      (stored : turn.provider.Contains block.hash)
      (idle : Idle (turn.makeCanonical target) final)
      (later : Between turn.provider (after.map Prod.fst) final.provider)

/-- Only a verified block is added to the provider. -/
private theorem Inserts.provider {block : Block} {maybeProof : Option X.Proof}
    {result : Except InsertBlockErrorKind InsertPayloadOk}
    (h : Inserts tree block maybeProof result tree') (hne : result ≠ .ok (.inserted .valid)) :
    tree'.provider = tree.provider := by
  cases h with
  | verified => exact absurd rfl hne
  | _ => rfl

/-- A block that is in is not buffered. -/
private theorem Inserts.blockBuffer {block : Block} {maybeProof : Option X.Proof}
    {result : InsertPayloadOk} (h : Inserts tree block maybeProof (.ok result) tree')
    (isIn : result = .inserted .valid ∨ result = .alreadySeen) :
    tree'.blockBuffer = tree.blockBuffer := by
  cases h with
  | alreadySeen => rfl
  | verified => rfl
  | disconnected | noProof => simp at isIn

/-- The block is in, and its descendants are connected. -/
private theorem takesTurn_of_connected {σ : SetOrder B256} {called tree₂ tree₃ : EngineTree X}
    {block : Block} {event : Option TreeEvent} (hidle : Idle called tree₂)
    (hbetween : Between called.provider [block] tree₂.provider)
    (hin : tree₂.provider.Contains block.hash)
    (hattached : ¬called.provider.Contains block.hash → Attached tree₂.provider block.hash)
    (hbuffer : tree₂.blockBuffer = called.blockBuffer)
    (hconnects : tryConnectBufferedBlocks σ tree₂ block.hash = (.ok (), tree₃))
    (hevent : event = tree₂.syncTargetEvent block.hash ∨
      event = tree₃.syncTargetEvent block.hash)
    (htargets : called.Targets target) (hfresh : ¬called.provider.Contains target)
    (hstored : tree₃.provider.Contains target) :
    TakesTurn σ called block target (tree₃.carryOut event) := by
  rw [tryConnectBufferedBlocks_eq] at hconnects
  -- the loop starts without the descendants in the buffer
  generalize hempty : ({ tree₂ with blockBuffer :=
    (tree₂.blockBuffer.removeBlockWithChildren σ block.hash).2 } : EngineTree X)
      = start at hconnects
  have hstart : Idle called start ∧ start.provider = tree₂.provider := by
    subst hempty
    exact ⟨⟨hidle.head, hidle.canonical, hidle.tracker⟩, rfl⟩
  rw [hbuffer] at hconnects
  obtain ⟨hidleStart, hprovider⟩ := hstart
  rw [← hprovider] at hbetween hin hattached
  have htargetsStart := htargets.of_tracker hidleStart.tracker
  by_cases hown : block.hash = target
  · have hstoredStart : start.provider.Contains target := hown ▸ hin
    have hloop := connectBlocks_idle
      (called.blockBuffer.removeBlockWithChildren σ block.hash).1 htargetsStart hstoredStart
    have hadded := connectBlocks_between
      (called.blockBuffer.removeBlockWithChildren σ block.hash).1 start
    rw [hconnects] at hloop hadded
    have hidleEnd := hidleStart.trans hloop
    have hmakes : event = some (.makeCanonical target) := by
      rcases hevent with rfl | rfl
      · rw [hown, (htargets.of_tracker hidle.tracker).syncTargetEvent]
      · rw [hown, (htargets.of_tracker hidleEnd.tracker).syncTargetEvent]
    rw [hmakes]
    refine .own hown ⟨hidleEnd, hbetween.trans hadded, ?_⟩ rfl
    rw [hown] at hattached
    exact (hattached hfresh).between hadded
  · have hfreshStart : ¬start.provider.Contains target := fun hstart =>
      (hbetween.contains_cases hstart).elim hfresh fun ⟨added, hmem, heq⟩ =>
        hown (List.mem_singleton.mp hmem ▸ heq)
    have hloop := connectBlocks_turn
      (called.blockBuffer.removeBlockWithChildren σ block.hash).1 htargetsStart hfreshStart
    rw [hconnects] at hloop
    rcases hloop with ⟨hmissed, -⟩ | ⟨before, pair, after, turn, htaken, hhash, hturned, hrest⟩
    · exact absurd hstored hmissed
    · have hidleTurn := hidleStart.trans hturned.idle
      have htracker : (turn.makeCanonical target).forkchoiceStateTracker
          = called.forkchoiceStateTracker :=
        (makeCanonical_forkchoiceStateTracker turn target).trans hidleTurn.tracker
      have hidleRest := connectBlocks_idle after (htargets.of_tracker htracker)
        (contains_makeCanonical.mpr hturned.attached.contains)
      have hmade : Between turn.provider [] (turn.makeCanonical target).provider :=
        (Between.refl _ _).of_sameBlocks (makeCanonical_blocksByHash turn target)
      have hlater := hmade.trans (connectBlocks_between after (turn.makeCanonical target))
      rw [← hrest] at hidleRest hlater
      have hnone : ∀ tree' : EngineTree X,
          tree'.forkchoiceStateTracker = called.forkchoiceStateTracker →
            tree'.syncTargetEvent block.hash = none := fun tree' htracker =>
        if_neg ((htargets.of_tracker htracker).isSyncTargetHead_iff.not.mpr hown)
      have hquiet : event = none := by
        rcases hevent with rfl | rfl
        · exact hnone tree₂ hidle.tracker
        · exact hnone tree₃ (hidleRest.tracker.trans htracker)
      rw [hquiet]
      exact .descendant hown htaken hhash
        ⟨hidleTurn, hbetween.trans hturned.between, hturned.attached⟩
        (hturned.between.contains hin) hidleRest hlater

/-- **A call that inserts the sync target** gives it its turn. -/
theorem Handles.takesTurn {σ : SetOrder B256} {called : EngineTree X} {check : B256} {block : Block}
    {maybeProof : Option X.Proof} {outcome : TreeOutcome PayloadStatus}
    (h : Handles σ called check block maybeProof (.ok outcome) tree')
    (htargets : called.Targets target)
    (hfresh : ¬called.provider.Contains target)
    (hstored : (tree'.carryOut outcome.event).provider.Contains target) :
    TakesTurn σ called block target (tree'.carryOut outcome.event) := by
  rw [contains_carryOut] at hstored
  have hsame : ∀ {status tree₁ result tree₂}, Checks called check block.hash status tree₁ →
      Inserts tree₁ block maybeProof result tree₂ → result ≠ .ok (.inserted .valid) →
        tree₂.provider = called.provider :=
    fun checks inserts hne => (inserts.provider hne).trans checks.provider
  match h with
  | .invalidAncestor checks => exact absurd (checks.provider ▸ hstored) hfresh
  | .connected checks inserts isIn connects event_eq =>
      have hbetween := inserts.between
      rw [checks.provider] at hbetween
      have hattached : ¬called.provider.Contains block.hash → Attached _ block.hash :=
        fun hnew => by
        rcases isIn with rfl | rfl
        · exact inserts.attached
        · cases inserts with
          | alreadySeen known => exact absurd (checks.provider ▸ known) hnew
      exact takesTurn_of_connected (checks.idle.trans inserts.idle) hbetween
        (inserts.contains_self isIn) hattached ((inserts.blockBuffer isIn).trans checks.blockBuffer)
          connects
        event_eq htargets hfresh hstored
  | .seen checks inserts | .disconnected checks inserts | .noProof checks inserts =>
      rw [hsame checks inserts nofun] at hstored
      exact absurd hstored hfresh
  | .failed checks inserts fails =>
      rw [fails.provider, hsame checks inserts nofun] at hstored
      exact absurd hstored hfresh

/-! ## When the turn succeeds -/

/-- **The block is the head**, and its branch is mapped. -/
structure Installed (final : EngineTree X) (target : B256) (new : List SealedHeader) : Prop where
  head : final.canonicalHead.hash = target
  mapped : ∀ top ∈ new,
    final.provider.canonicalHashesByNumber.get top.number = some top.hash

/-- **What the branches share was mapped before**; the target itself may be shared, when it
is an ancestor of the old head. -/
def SharedMapped (called : EngineTree X) (target : B256) (new old : List SealedHeader) : Prop :=
  ∀ top ∈ new, top ∈ old → top.hash ≠ target →
    called.provider.canonicalHashesByNumber.get top.number = some top.hash

/-- **Making the target canonical installs it** exactly if the branches are stored up to some
common ancestor, and what they share was mapped. -/
theorem Turn.installed_iff {called final : EngineTree X} {header : SealedHeader}
    {new old : List SealedHeader} {ancestor : B256} (h : Turn final.provider tree target header)
    (hidle : Idle called tree) (hfinal : Idle (tree.makeCanonical target) final)
    (hbranches : final.provider.Branches target called.canonicalHead.hash new old ancestor) :
    Installed final target new ↔
      StoredSoFar tree.provider new old ∧ SharedMapped called target new old := by
  rw [← hidle.head] at hbranches
  rw [← h.found_iff hbranches]
  have hfinalMap := hfinal.canonical
  have hfinalHead := hfinal.head
  unfold makeCanonical at hfinalMap hfinalHead
  match hfound : tree.onNewHead target with
  | some update =>
      rw [hfound] at hfinalMap hfinalHead
      have happlied := fun {top : SealedHeader} (hmem : top ∈ new) =>
        h.applied hfound hbranches hmem
      rw [← hfinalMap, hidle.canonical] at happlied
      refine ⟨fun hinstalled => ⟨⟨update, rfl⟩, fun top hmem =>
        (happlied hmem).mp (hinstalled.mapped top hmem)⟩, fun hmapped => ⟨?_, fun top hmem =>
          (happlied hmem).mpr (hmapped.2 top hmem)⟩⟩
      rw [hfinalHead]
      exact onCanonicalChainUpdate_head hfound
  | none =>
      rw [hfound] at hfinalHead
      refine iff_of_false (fun hinstalled => ?_) fun ⟨⟨_, hsome⟩, _⟩ => nomatch hsome
      -- the target would be the head already, and meet itself
      have hsame : tree.canonicalHead.hash = target :=
        (congrArg BlockNumHash.hash hfinalHead).symm.trans hinstalled.head
      have hself : tree.provider.StoredPath target [header] header.parentHash :=
        .cons h.stored (.nil _)
      obtain ⟨update, hupdate⟩ := onNewHead_of_meeting h.leveled_tree h.head_tree h.stored h.number
        ⟨hself, hsame ▸ hself⟩ (List.cons_ne_nil _ _)
      cases hfound.symm.trans hupdate

/-- The descendants of a block that are inserted before the target. -/
def insertedBefore (σ : SetOrder B256) (called : EngineTree X) (block : Block) (target : B256) :
    List B256 :=
  (BlockBuffer.hashes (called.blockBuffer.removeBlockWithChildren σ block.hash).1).takeWhile
    (· ≠ target)

/-- **The branches are stored in time**: up to some common ancestor, each of their blocks is
stored before the call, or is the block itself, the target, or inserted before it. -/
def InTime (σ : SetOrder B256) (called : EngineTree X) (block : Block) (target : B256)
    (new old : List SealedHeader) : Prop :=
  block.hash ≠ target → ∃ new₁ old₁ rest, new = new₁ ++ rest ∧ old = old₁ ++ rest ∧
    ∀ top ∈ new₁ ++ old₁, called.provider.Contains top.hash ∨ top.hash = block.hash ∨
      top.hash = target ∨ top.hash ∈ insertedBefore σ called block target

theorem makeCanonical_sealedHeader (tree : EngineTree X) (target : B256) :
    (tree.makeCanonical target).provider.sealedHeader = tree.provider.sealedHeader := by
  ext hash : 1
  unfold sealedHeader
  rw [makeCanonical_blocksByHash]

/-- The blocks of branches are stored. -/
theorem contains_of_branches {provider : ChainState X.Proof} {head : B256}
    {new old : List SealedHeader} {ancestor : B256}
    (h : provider.Branches target head new old ancestor) {top : SealedHeader}
    (hmem : top ∈ new ++ old) : provider.Contains top.hash := by
  have hmet : ∃ hash, provider.sealedHeader hash = some top :=
    (List.mem_append.mp hmem).elim h.new.found_of_mem h.old.found_of_mem
  obtain ⟨hash, hfound⟩ := hmet
  rw [hash_of_sealedHeader hfound]
  exact contains_iff_sealedHeader.mpr ⟨top, hfound⟩

/-- Before its turn the target's earlier siblings and ancestors were taken, none of them
twice. -/
private theorem insertedBefore_eq {σ : SetOrder B256} {called : EngineTree X} {block : Block}
    (hwellFormed : called.blockBuffer.WellFormed) {before after : List (Block × X.Proof)}
    {pair : Block × X.Proof}
    (taken : (called.blockBuffer.removeBlockWithChildren σ block.hash).1 = before ++ pair :: after)
    (hash : pair.1.hash = target) :
    insertedBefore σ called block target = BlockBuffer.hashes before ∧
      ∀ hash ∈ BlockBuffer.hashes before, hash ∉ BlockBuffer.hashes after := by
  have hnodup := (BlockBuffer.removeBlockWithChildren_spec σ block.hash hwellFormed).nodup
  rw [taken, BlockBuffer.hashes_append, BlockBuffer.hashes_cons, List.nodup_append'] at hnodup
  obtain ⟨-, -, hdisjoint⟩ := hnodup
  unfold insertedBefore
  rw [taken, BlockBuffer.hashes_append, BlockBuffer.hashes_cons, hash]
  refine ⟨?_, fun hash' hbefore hafter => hdisjoint hbefore (List.mem_cons_of_mem _ hafter)⟩
  rw [List.takeWhile_append_of_pos, List.takeWhile_cons_of_neg (by simp), List.append_nil]
  intro hash' hbefore
  refine decide_eq_true fun heq => hdisjoint hbefore ?_
  rw [heq, hash]
  exact List.mem_cons_self

/-- **A call that inserts the sync target installs it** exactly if the branches are stored in
time, and what they share was mapped. -/
theorem TakesTurn.installed_iff {σ : SetOrder B256} {called final : EngineTree X} {block : Block}
    {new old : List SealedHeader} {ancestor : B256}
    (h : TakesTurn σ called block target final) (hwellFormed : called.blockBuffer.WellFormed)
    (hleveled : final.provider.Leveled)
    (hhead : final.provider.AtHeight called.canonicalHead.hash called.canonicalHead.number)
    (hbranches : final.provider.Branches target called.canonicalHead.hash new old ancestor) :
    Installed final target new ↔
      InTime σ called block target new old ∧ SharedMapped called target new old := by
  have hturn : ∀ turn : EngineTree X, Idle called turn → Attached turn.provider target →
      (∀ hash top, turn.provider.sealedHeader hash = some top →
        final.provider.sealedHeader hash = some top) →
      ∃ header, Turn final.provider turn target header := by
    intro turn hidle hattached hsub
    obtain ⟨header, hstored, hparent⟩ := hattached
    obtain ⟨parent, hparent⟩ := contains_iff_sealedHeader.mp hparent
    have hnumber := hleveled.step _ _ _ (hsub _ _ hstored) (hsub _ _ hparent)
    exact ⟨header, hleveled, hidle.head ▸ hhead, hsub, hstored, by omega⟩
  cases h with
  | @own added turn isTarget turned final_eq =>
      subst final_eq
      obtain ⟨header, h⟩ := hturn turn turned.idle turned.attached fun _ _ hfound => by
        rwa [makeCanonical_sealedHeader]
      rw [h.installed_iff turned.idle (.refl _) hbranches]
      -- by then all blocks are stored
      refine and_congr_left fun _ =>
        iff_of_true ⟨new, old, [], by simp, by simp, fun top hmem => ?_⟩
        fun hne => absurd isTarget hne
      exact contains_makeCanonical.mp (contains_of_branches hbranches hmem)
  | @descendant before pair after turn other taken hash turned stored idle later =>
      obtain ⟨header, h⟩ := hturn turn turned.idle turned.attached fun _ _ => later.sealedHeader
      rw [h.installed_iff turned.idle idle hbranches]
      obtain ⟨hbefore, hdisjoint⟩ := insertedBefore_eq hwellFormed taken hash
      have hsoFar : ∀ top ∈ new ++ old, turn.provider.Contains top.hash ↔
          called.provider.Contains top.hash ∨ top.hash = block.hash ∨ top.hash = target ∨
            top.hash ∈ insertedBefore σ called block target := by
        intro top hmem
        rw [hbefore]
        constructor
        · intro hcontains
          refine (turned.between.contains_cases hcontains).imp_right ?_
          rintro ⟨added, hadded, heq⟩
          rw [← heq]
          rcases List.mem_cons.mp hadded with rfl | hadded
          · exact .inl rfl
          · obtain ⟨taken, htaken, rfl⟩ := List.mem_map.mp hadded
            rcases List.mem_append.mp htaken with hearlier | hlast
            · exact .inr (.inr (List.mem_map_of_mem hearlier))
            · obtain rfl := List.mem_singleton.mp hlast
              exact .inr (.inl hash)
        · rintro (hold | heq | heq | hearlier)
          · exact turned.between.contains hold
          · exact heq ▸ stored
          · exact heq ▸ turned.attached.contains
          · -- it is stored in the end, and is not inserted after the target
            refine (later.contains_cases (contains_of_branches hbranches hmem)).resolve_right ?_
            rintro ⟨added, hadded, heq⟩
            obtain ⟨taken, htaken, rfl⟩ := List.mem_map.mp hadded
            exact hdisjoint _ hearlier (heq ▸ List.mem_map_of_mem htaken)
      have hpart : ∀ new₁ old₁ rest, new = new₁ ++ rest → old = old₁ ++ rest →
          ∀ top ∈ new₁ ++ old₁, top ∈ new ++ old := by
        rintro new₁ old₁ rest rfl rfl top hmem
        simp only [List.mem_append] at hmem ⊢
        tauto
      refine and_congr_left fun _ => ?_
      unfold InTime
      rw [imp_iff_right other]
      constructor
      · rintro ⟨new₁, old₁, rest, hnew, hold, hcontains⟩
        exact ⟨new₁, old₁, rest, hnew, hold, fun top hmem =>
          (hsoFar top (hpart _ _ _ hnew hold top hmem)).mp (hcontains top hmem)⟩
      · rintro ⟨new₁, old₁, rest, hnew, hold, hcontains⟩
        exact ⟨new₁, old₁, rest, hnew, hold, fun top hmem =>
          (hsoFar top (hpart _ _ _ hnew hold top hmem)).mpr (hcontains top hmem)⟩

end

end EngineTree

end ZkRess
