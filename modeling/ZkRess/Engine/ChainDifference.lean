import ZkRess.Engine.ChainUpdate
import ZkRess.Provider.ChainOperations

/-!
# The difference of two chains

`on_new_head` on any provider in which block numbers step by one along parent
links (`ChainState.Leveled`).  A chain of stored blocks is a `StoredPath`: the
headers met from a hash down to another hash, which need not be stored.  Two
chains differ by two such paths, from the new and from the old head, to one
hash, and `on_new_head` returns the shortest ones there are, or none if there
are none (`onNewHead_cases`, `onNewHead_of_meeting`).

Heights are integers here, so that the parent of a block of number zero has one,
too.

The model's loops count the rounds; `onNewHeadChecked` writes out the loops as
the code has them, with their two number cursors, the subtractions and the
assertion, and `onNewHeadChecked_eq` shows that none of them fails.
-/

namespace ZkRess

open Foundation

variable {P : Type}

namespace ChainState

/-- The headers met when walking down along stored blocks. -/
abbrev StoredPath (cs : ChainState P) (start : B256) (headers : List SealedHeader)
    (stop : B256) : Prop :=
  Path cs.sealedHeader (fun header => header.parentHash) start headers stop

/-- Block numbers step by one along parent links; a parent that is not stored has
one number, too. -/
structure Leveled (cs : ChainState P) : Prop where
  step : cs.NumbersStep
  sibling : ∀ hash hash' header header', cs.sealedHeader hash = some header →
    cs.sealedHeader hash' = some header' → header.parentHash = header'.parentHash →
      header.number = header'.number

/-- The hash stands at a height: a block stored under it has this number, and
its children are one above. -/
structure AtHeight (cs : ChainState P) (hash : B256) (height : ℤ) : Prop where
  own : ∀ header, cs.sealedHeader hash = some header → (header.number : ℤ) = height
  child : ∀ key header, cs.sealedHeader key = some header → header.parentHash = hash →
    (header.number : ℤ) = height + 1

section Heights

variable {cs : ChainState P}

theorem Leveled.atHeight (h : cs.Leveled) {hash : B256} {header : SealedHeader}
    (hstored : cs.sealedHeader hash = some header) : cs.AtHeight hash header.number where
  own header' hstored' := by
    rw [hstored] at hstored'
    cases hstored'
    rfl
  child key header' hstored' hparent := by
    have hstep := h.step key header' header hstored' (hparent ▸ hstored)
    omega

theorem Leveled.atHeight_parent (h : cs.Leveled) {hash : B256} {header : SealedHeader}
    (hstored : cs.sealedHeader hash = some header) :
    cs.AtHeight header.parentHash (header.number - 1) where
  own parent hparent := by
    have hstep := h.step hash header parent hstored hparent
    omega
  child key header' hstored' hparent := by
    have hsame := h.sibling key hash header' header hstored' hstored hparent
    omega

/-- With fewer blocks, heights stay. -/
theorem Leveled.of_sub {cs' : ChainState P} (h : cs.Leveled)
    (hsub : ∀ hash header, cs'.sealedHeader hash = some header →
      cs.sealedHeader hash = some header) : cs'.Leveled where
  step hash header parent hstored hparent :=
    h.step hash header parent (hsub _ _ hstored) (hsub _ _ hparent)
  sibling hash hash' header header' hstored hstored' :=
    h.sibling hash hash' header header' (hsub _ _ hstored) (hsub _ _ hstored')

theorem AtHeight.of_sub {cs' : ChainState P} {hash : B256} {height : ℤ}
    (h : cs.AtHeight hash height)
    (hsub : ∀ hash header, cs'.sealedHeader hash = some header →
      cs.sealedHeader hash = some header) : cs'.AtHeight hash height where
  own header hstored := h.own header (hsub _ _ hstored)
  child key header hstored := h.child key header (hsub _ _ hstored)

theorem AtHeight.unique {hash : B256} {m n : ℤ} (h : cs.AtHeight hash m)
    (h' : cs.AtHeight hash n) {key : B256} {header : SealedHeader}
    (hstored : cs.sealedHeader key = some header) (hchild : header.parentHash = hash) : m = n := by
  have hm := h.child key header hstored hchild
  have hn := h'.child key header hstored hchild
  omega

namespace StoredPath

variable {start stop : B256} {headers : List SealedHeader} {height : ℤ}

theorem atHeight (h : cs.StoredPath start headers stop) (hleveled : cs.Leveled)
    (hstart : cs.AtHeight start height) : cs.AtHeight stop (height - headers.length) := by
  induction h generalizing height with
  | nil k => simpa using hstart
  | @cons k a header l found rest ih =>
      have hbelow := hleveled.atHeight_parent found
      rw [hstart.own header found] at hbelow
      have heq : height - 1 - (l.length : ℤ) = height - ((header :: l).length : ℤ) := by
        rw [List.length_cons]
        omega
      exact heq ▸ ih hbelow

/-- The headers met have their own hashes, and numbers between the ends. -/
theorem mem_stored (h : cs.StoredPath start headers stop) (hleveled : cs.Leveled)
    (hstart : cs.AtHeight start height) {header : SealedHeader} (hmem : header ∈ headers) :
    cs.sealedHeader header.hash = some header ∧ (header.number : ℤ) ≤ height ∧
      height - headers.length < header.number := by
  induction h generalizing height with
  | nil => cases hmem
  | @cons k a top l found rest ih =>
      have hbelow := hleveled.atHeight_parent found
      rw [hstart.own top found] at hbelow
      rw [List.length_cons]
      rcases List.mem_cons.mp hmem with rfl | hmem
      · refine ⟨by rwa [hash_of_sealedHeader found], (hstart.own _ found).le, ?_⟩
        rw [hstart.own _ found]
        omega
      · obtain ⟨hstored, hle, hlt⟩ := ih hbelow hmem
        exact ⟨hstored, by omega, by omega⟩

/-- Every height between the ends is that of a header met. -/
theorem exists_mem_of_height (h : cs.StoredPath start headers stop) (hleveled : cs.Leveled)
    (hstart : cs.AtHeight start height) {number : ℕ} (hle : (number : ℤ) ≤ height)
    (hlt : height - headers.length < number) :
    ∃ header passed key, header ∈ headers ∧ header.number = number ∧
      cs.StoredPath start passed key ∧ cs.sealedHeader key = some header := by
  induction h generalizing height with
  | nil =>
      rw [List.length_nil] at hlt
      omega
  | @cons k a top l found rest ih =>
      rw [List.length_cons] at hlt
      have hbelow := hleveled.atHeight_parent found
      rw [hstart.own top found] at hbelow
      by_cases htop : (number : ℤ) = height
      · refine ⟨top, [], k, List.mem_cons_self, ?_, .nil k, found⟩
        have := hstart.own top found
        omega
      · obtain ⟨header, passed, key, hmem, hnumber, hpath, hstored⟩ :=
          ih hbelow (by omega) (by omega)
        exact ⟨header, top :: passed, key, List.mem_cons_of_mem _ hmem, hnumber,
          .cons found hpath, hstored⟩

/-- The numbers of the headers met fall. -/
theorem falls (h : cs.StoredPath start headers stop) (hleveled : cs.Leveled)
    (hstart : cs.AtHeight start height) : headers.Pairwise fun a b => b.number < a.number := by
  induction h generalizing height with
  | nil => exact .nil
  | @cons k a top l found rest ih =>
      have hbelow := hleveled.atHeight_parent found
      refine List.pairwise_cons.mpr ⟨fun header hheader => ?_, ih hbelow⟩
      obtain ⟨-, hle, -⟩ := mem_stored rest hleveled hbelow hheader
      omega

theorem length_le (h : cs.StoredPath start headers stop) (hleveled : cs.Leveled)
    (hstart : cs.AtHeight start height) : headers.length ≤ cs.blocksByHash.card :=
  length_le_of_falls (fun _ hmem => (mem_stored h hleveled hstart hmem).1)
    (falls h hleveled hstart)

end StoredPath

/-! ### The canonical map along a path -/

/-- The canonical map holds the stored hashes on the way down from the tip, at
their numbers, and nothing above the tip. -/
structure MapsTip (cs : ChainState P) (tip : B256) (number : ℕ) : Prop where
  holds : ∀ headers hash header, cs.StoredPath tip headers hash →
    cs.sealedHeader hash = some header → cs.canonicalHashesByNumber.get header.number = some hash
  nothingAbove : ∀ number', number < number' → cs.canonicalHashesByNumber.get number' = none

/-- A chain update leaves the headers alone. -/
theorem onChainUpdate_sealedHeader (cs : ChainState P) (new old : List SealedHeader) :
    (cs.onChainUpdate new old).sealedHeader = cs.sealedHeader := by
  funext hash
  unfold sealedHeader
  rw [(onChainUpdate_sameBlocks cs new old).blocksByHash]

/-- **Two paths to one hash move the map** from the tip of the old one to the
tip of the new one. -/
theorem MapsTip.onChainUpdate (hleveled : cs.Leveled) {tip target fork : B256} {number : ℕ}
    (h : cs.MapsTip tip number) {tipHeader header : SealedHeader}
    (htip : cs.sealedHeader tip = some tipHeader) (hnumber : tipHeader.number = number)
    (htarget : cs.sealedHeader target = some header) {new old : List SealedHeader}
    (hne : new ≠ []) (hnew : cs.StoredPath target new.reverse fork)
    (hold : cs.StoredPath tip old.reverse fork) :
    (cs.onChainUpdate new old).MapsTip target header.number := by
  have htargetHeight := hleveled.atHeight htarget
  have htipHeight := hleveled.atHeight htip
  have hforkHeight := StoredPath.atHeight hnew hleveled htargetHeight
  obtain ⟨key, child, hchild, hparent⟩ := hnew.stop_eq_parent (List.reverse_eq_nil_iff.not.mpr hne)
  have hlevels := hforkHeight.unique (StoredPath.atHeight hold hleveled htipHeight) hchild hparent
  have hlength : 0 < new.reverse.length := by
    rw [List.length_reverse]
    exact List.length_pos_of_ne_nil hne
  have hnewMem := fun {top : SealedHeader} (hmem : top ∈ new) =>
    StoredPath.mem_stored hnew hleveled htargetHeight (List.mem_reverse.mpr hmem)
  have holdMem := fun {top : SealedHeader} (hmem : top ∈ old) =>
    StoredPath.mem_stored hold hleveled htipHeight (List.mem_reverse.mpr hmem)
  refine ⟨?_, ?_⟩
  · unfold StoredPath
    rw [onChainUpdate_sealedHeader, onChainUpdate_canonical]
    intro headers hash reached hpath hreached
    by_cases hshort : headers.length < new.reverse.length
    · -- on the new chain itself
      obtain ⟨rest, hsplit, hrest⟩ := hpath.split hnew hshort.le
      have hmem : reached ∈ new.reverse := by
        cases hrest with
        | nil =>
            rw [hsplit, List.append_nil] at hshort
            exact absurd hshort (lt_irrefl _)
        | cons found _ =>
            rw [hreached] at found
            cases found
            rw [hsplit]
            exact List.mem_append_right _ List.mem_cons_self
      rw [← hash_of_sealedHeader hreached]
      refine FiniteMap.get_insertList_of_mem _ _ _ (List.mem_reverse.mp hmem)
        fun other hother heq => ?_
      exact congrArg _ (eq_of_number_eq (StoredPath.falls hnew hleveled htargetHeight)
        (List.mem_reverse.mpr hother) hmem heq)
    · -- below the fork
      obtain ⟨rest, rfl, hrest⟩ := hnew.split hpath (Nat.le_of_not_lt hshort)
      have hbelow := (StoredPath.atHeight hrest hleveled hforkHeight).own reached hreached
      have hheld := h.holds _ _ _ (hold.append hrest) hreached
      rw [FiniteMap.get_insertList_of_forall_ne]
      · refine (FiniteMap.get_withdrawList _ _).mpr ⟨hheld, ?_⟩
        rintro ⟨other, hother, heq, -⟩
        obtain ⟨-, -, hlt⟩ := holdMem hother
        have heq' : other.number = reached.number := heq
        omega
      · intro other hother heq
        obtain ⟨-, -, hlt⟩ := hnewMem hother
        have heq' : other.number = reached.number := heq
        omega
  · rw [onChainUpdate_canonical]
    intro number' hlt
    rw [FiniteMap.get_insertList_of_forall_ne]
    · refine Option.eq_none_iff_forall_not_mem.mpr fun hash hget => ?_
      obtain ⟨hcanonical, hkept⟩ := (FiniteMap.get_withdrawList _ _).mp hget
      have hle : number' ≤ number := by
        by_contra habove
        rw [h.nothingAbove number' (Nat.lt_of_not_le habove)] at hcanonical
        cases hcanonical
      -- what stands between the two tips was the old chain's, and is withdrawn
      obtain ⟨other, passed, key, hother, rfl, hpath, hstored⟩ :=
        (StoredPath.exists_mem_of_height hold hleveled htipHeight :
          (number' : ℤ) ≤ _ → _) (by omega) (by omega)
      rw [h.holds passed key other hpath hstored] at hcanonical
      cases hcanonical
      exact hkept ⟨other, List.mem_reverse.mp hother, rfl, hash_of_sealedHeader hstored⟩
    · intro other hother heq
      obtain ⟨-, hle, -⟩ := hnewMem hother
      have heq' : other.number = number' := heq
      omega

end Heights

end ChainState

/-! ## The loops of `on_new_head` -/

namespace EngineTree

open ChainState

variable {X : Externals} {provider : ChainState X.Proof}

theorem gatherAncestors_eq_some {n : ℕ} {start stop : B256} {headers : List SealedHeader} :
    gatherAncestors provider n start = some (headers, stop) ↔
      provider.StoredPath start headers stop ∧ headers.length = n := by
  induction n generalizing start headers with
  | zero =>
      constructor
      · intro h
        cases h
        exact ⟨.nil _, rfl⟩
      · rintro ⟨hpath, hlength⟩
        rw [List.length_eq_zero_iff] at hlength
        subst hlength
        cases hpath
        rfl
  | succ n ih =>
      rw [gatherAncestors_succ_eq_some]
      constructor
      · rintro ⟨header, rest, hstored, hrest, rfl⟩
        obtain ⟨hpath, hlength⟩ := ih.mp hrest
        exact ⟨.cons hstored hpath, by rw [List.length_cons, hlength]⟩
      · rintro ⟨hpath, hlength⟩
        cases hpath with
        | nil => cases hlength
        | cons found rest => exact ⟨_, _, found, ih.mpr ⟨rest, Nat.succ.inj hlength⟩, rfl⟩

/-- A path that is long enough lets the loop go through. -/
theorem gatherAncestors_of_path {n : ℕ} {start stop : B256} {headers : List SealedHeader}
    (h : provider.StoredPath start headers stop) (hle : n ≤ headers.length) :
    ∃ reached, gatherAncestors provider n start = some (headers.take n, reached) ∧
      provider.StoredPath reached (headers.drop n) stop := by
  obtain ⟨reached, htake, hdrop⟩ := h.interrupt n hle
  exact ⟨reached, gatherAncestors_eq_some.mpr ⟨htake, List.length_take_of_le hle⟩, hdrop⟩

/-- The walk of both chains stops at the first hash they have in common. -/
theorem walkToForkPoint_shortest {n : ℕ} {oldHash currentHash : B256}
    {olds currents : List SealedHeader}
    (h : walkToForkPoint provider n oldHash currentHash = some (olds, currents)) :
    olds.length = currents.length ∧
      (∃ fork, provider.StoredPath oldHash olds fork ∧
        provider.StoredPath currentHash currents fork) ∧
      ∀ olds' currents' fork', provider.StoredPath oldHash olds' fork' →
        provider.StoredPath currentHash currents' fork' → olds'.length = currents'.length →
          olds.length ≤ olds'.length := by
  induction n generalizing oldHash currentHash olds currents with
  | zero => cases h
  | succ n ih =>
      obtain ⟨rfl, rfl, rfl⟩ | ⟨hne, old, current, olds, currents, hold, hcurrent, hrest, rfl,
        rfl⟩ := walkToForkPoint_cases h
      · exact ⟨rfl, ⟨oldHash, .nil oldHash, .nil oldHash⟩, fun _ _ _ _ _ _ => Nat.zero_le _⟩
      · obtain ⟨hlength, ⟨fork, hpath, hpath'⟩, hshortest⟩ := ih hrest
        refine ⟨by rw [List.length_cons, List.length_cons, hlength],
          ⟨fork, .cons hold hpath, .cons hcurrent hpath'⟩, ?_⟩
        intro olds' currents' fork' hpathOld hpathCurrent hsame
        cases hpathOld with
        | nil =>
            -- the walks meet at the start, where they differ
            have hnil := List.length_eq_zero_iff.mp hsame.symm
            subst hnil
            cases hpathCurrent
            exact absurd rfl hne
        | cons foundOld restOld =>
            cases hpathCurrent with
            | nil => simp at hsame
            | cons foundCurrent restCurrent =>
                rw [hold] at foundOld
                rw [hcurrent] at foundCurrent
                cases foundOld
                cases foundCurrent
                exact Nat.succ_le_succ (hshortest _ _ _ restOld restCurrent (Nat.succ.inj hsame))

/-- With enough rounds, it stops wherever they meet. -/
theorem walkToForkPoint_of_meeting {n : ℕ} {oldHash currentHash fork : B256}
    {olds currents : List SealedHeader} (hold : provider.StoredPath oldHash olds fork)
    (hcurrent : provider.StoredPath currentHash currents fork)
    (hlength : olds.length = currents.length) (hlt : olds.length < n) :
    ∃ walked, walkToForkPoint provider n oldHash currentHash = some walked := by
  induction n generalizing oldHash currentHash olds currents with
  | zero => cases hlt
  | succ n ih =>
      unfold walkToForkPoint
      by_cases heq : oldHash = currentHash
      · exact ⟨([], []), if_pos heq⟩
      · rw [if_neg heq]
        cases hold with
        | nil =>
            have hnil := List.length_eq_zero_iff.mp hlength.symm
            subst hnil
            cases hcurrent
            exact absurd rfl heq
        | cons foundOld restOld =>
            cases hcurrent with
            | nil => simp at hlength
            | cons foundCurrent restCurrent =>
                obtain ⟨walked, hwalked⟩ := ih restOld restCurrent (Nat.succ.inj hlength)
                  (Nat.lt_of_succ_lt_succ hlt)
                simp only [foundOld, foundCurrent, hwalked]
                exact ⟨_, rfl⟩

/-! ## What `on_new_head` returns -/

variable {tree : EngineTree X} {target : B256} {header : SealedHeader}

/-- A path to one hash from the target and from the canonical head. -/
structure Meeting (tree : EngineTree X) (target : B256) (new old : List SealedHeader)
    (fork : B256) : Prop where
  new : tree.provider.StoredPath target new fork
  old : tree.provider.StoredPath tree.canonicalHead.hash old fork

/-- A stored head is at its height. -/
theorem HeadStored.atHeight (h : tree.HeadStored) (hleveled : tree.provider.Leveled) :
    tree.provider.AtHeight tree.canonicalHead.hash tree.canonicalHead.number := by
  obtain ⟨headHeader, hheadStored, hheadNumber⟩ := h.stored
  rw [← hheadNumber]
  exact hleveled.atHeight hheadStored

/-- The number of the header a walk started at settles how far the fork is from
both ends. -/
theorem Meeting.levels (hleveled : tree.provider.Leveled)
    (hhead : tree.provider.AtHeight tree.canonicalHead.hash tree.canonicalHead.number)
    (hstored : tree.provider.sealedHeader target = some header) {new old : List SealedHeader}
    {fork : B256} (h : Meeting tree target new old fork) (hne : new ≠ []) :
    new.length + tree.canonicalHead.number = header.number + old.length := by
  have hnew := StoredPath.atHeight h.new hleveled (hleveled.atHeight hstored)
  have hold := StoredPath.atHeight h.old hleveled hhead
  obtain ⟨key, child, hchildStored, hchild⟩ := h.new.stop_eq_parent hne
  have hfork := hnew.unique hold hchildStored hchild
  omega

/-- **If the chains meet, something is found.** -/
theorem onNewHead_of_meeting (hleveled : tree.provider.Leveled)
    (hhead : tree.provider.AtHeight tree.canonicalHead.hash tree.canonicalHead.number)
    (hstored : tree.provider.sealedHeader target = some header) (hnumber : header.number ≠ 0)
    {new old : List SealedHeader} {fork : B256} (h : Meeting tree target new old fork)
    (hne : new ≠ []) : ∃ update, tree.onNewHead target = some update := by
  have hlevels := h.levels hleveled hhead hstored hne
  obtain ⟨hnew, hold⟩ := h
  have hcard := StoredPath.length_le hold hleveled hhead
  cases hnew with
  | nil => exact absurd rfl hne
  | @cons _ _ top rest found hrest =>
      rw [hstored] at found
      cases found
      rw [List.length_cons] at hlevels
      obtain ⟨currentHash, hgather, hcurrent⟩ := gatherAncestors_of_path hrest
        (n := header.number - 1 - tree.canonicalHead.number) (by omega)
      obtain ⟨oldHash, hgatherOld, holdRest⟩ := gatherAncestors_of_path hold
        (n := tree.canonicalHead.number - (header.number - 1)) (by omega)
      unfold onNewHead
      simp only [hstored, SealedHeader.parentNumHash, hgather]
      split
      · exact ⟨_, rfl⟩
      · obtain ⟨walked, hwalked⟩ := walkToForkPoint_of_meeting
          (n := tree.provider.blocksByHash.card + 1) holdRest hcurrent
          (by simp only [List.length_drop]; omega) (by simp only [List.length_drop]; omega)
        simp only [hgatherOld, hwalked]
        exact ⟨_, rfl⟩

/-- **What is found** is the way from the canonical head to the target, or the
shortest pair of chains that meet. -/
theorem onNewHead_cases (hleveled : tree.provider.Leveled)
    (hhead : tree.provider.AtHeight tree.canonicalHead.hash tree.canonicalHead.number)
    (hstored : tree.provider.sealedHeader target = some header) (hnumber : header.number ≠ 0)
    {update : NewCanonicalChain} (h : tree.onNewHead target = some update) :
    (∃ new, update = .commit new ∧
        tree.provider.StoredPath target new.headers.reverse tree.canonicalHead.hash) ∨
      ∃ new old fork, update = .reorg new old ∧ old ≠ [] ∧
        Meeting tree target new.headers.reverse old.reverse fork ∧
        ∀ new' old' fork', Meeting tree target new' old' fork' → new' ≠ [] →
          new.headers.length ≤ new'.length ∧ old.length ≤ old'.length := by
  unfold onNewHead at h
  simp only [hstored, SealedHeader.parentNumHash] at h
  split at h
  · cases h
  · next newChain currentHash hgather =>
      obtain ⟨hnew, hnewLength⟩ := gatherAncestors_eq_some.mp hgather
      split at h
      · next heq =>
          cases h
          refine .inl ⟨_, rfl, ?_⟩
          show tree.provider.StoredPath target (header :: newChain).reverse.reverse _
          rw [List.reverse_reverse, ← heq]
          exact .cons hstored hnew
      · next hne =>
          split at h
          · cases h
          · next oldChain oldHash hgatherOld =>
              obtain ⟨hold, holdLength⟩ := gatherAncestors_eq_some.mp hgatherOld
              split at h
              · cases h
              · next olds currents hwalk =>
                  cases h
                  obtain ⟨hsame, ⟨fork, hpathOld, hpathCurrent⟩, hshortest⟩ :=
                    walkToForkPoint_shortest hwalk
                  refine .inr ⟨_, _, fork, rfl, ?_, ⟨?_, ?_⟩, ?_⟩
                  · -- with nothing on the old chain, the two would have met at the head
                    intro hnil
                    rw [List.reverse_eq_nil_iff, List.append_eq_nil_iff] at hnil
                    obtain ⟨rfl, rfl⟩ := hnil
                    rw [List.length_nil, eq_comm, List.length_eq_zero_iff] at hsame
                    subst hsame
                    cases hold
                    cases hpathOld
                    cases hpathCurrent
                    exact hne rfl
                  · show tree.provider.StoredPath target
                      (header :: (newChain ++ currents)).reverse.reverse fork
                    rw [List.reverse_reverse]
                    exact .cons hstored (hnew.append hpathCurrent)
                  · rw [List.reverse_reverse]
                    exact hold.append hpathOld
                  · intro new' old' fork' hmeet hne'
                    have hlevels := hmeet.levels hleveled hhead hstored hne'
                    obtain ⟨hnew', hold'⟩ := hmeet
                    cases hnew' with
                    | nil => exact absurd rfl hne'
                    | @cons _ _ top rest found hrest =>
                        rw [hstored] at found
                        cases found
                        rw [List.length_cons] at hlevels
                        obtain ⟨reached, hgather', hcurrent'⟩ := gatherAncestors_of_path hrest
                          (n := header.number - 1 - tree.canonicalHead.number) (by omega)
                        obtain ⟨reachedOld, hgatherOld', holdRest'⟩ := gatherAncestors_of_path hold'
                          (n := tree.canonicalHead.number - (header.number - 1)) (by omega)
                        rw [hgather] at hgather'
                        rw [hgatherOld] at hgatherOld'
                        cases hgather'
                        cases hgatherOld'
                        have hle := hshortest _ _ _ holdRest' hcurrent'
                          (by simp only [List.length_drop]; omega)
                        simp only [List.length_drop] at hle
                        simp only [HeadChain.ofWalk, List.length_reverse, List.length_cons,
                          List.length_append]
                        omega

/-! ## Applying the update -/

/-- The canonical map holds the stored ancestors of the head, and nothing above
it. -/
def MapsHead (tree : EngineTree X) : Prop :=
  tree.provider.MapsTip tree.canonicalHead.hash tree.canonicalHead.number

/-- What an update consists of, whichever kind it is: the shortest pair of chains that
meet. -/
theorem onNewHead_meeting (hleveled : tree.provider.Leveled)
    (hhead : tree.provider.AtHeight tree.canonicalHead.hash tree.canonicalHead.number)
    (hstored : tree.provider.sealedHeader target = some header) (hnumber : header.number ≠ 0)
    {update : NewCanonicalChain} (h : tree.onNewHead target = some update) :
    ∃ fork, Meeting tree target update.new.headers.reverse update.old.reverse fork ∧
      ∀ new' old' fork', Meeting tree target new' old' fork' → new' ≠ [] →
        update.new.headers.length ≤ new'.length := by
  rcases onNewHead_cases hleveled hhead hstored hnumber h with
    ⟨new, rfl, hpath⟩ | ⟨new, old, fork, rfl, -, hmeet, hshortest⟩
  · have hmeet : Meeting tree target new.headers.reverse [] tree.canonicalHead.hash :=
      ⟨hpath, .nil _⟩
    refine ⟨tree.canonicalHead.hash, hmeet, fun new' old' fork' hmeet' hne => ?_⟩
    have hlevels := hmeet.levels hleveled hhead hstored
      (List.reverse_eq_nil_iff.not.mpr new.nonempty)
    have hlevels' := hmeet'.levels hleveled hhead hstored hne
    rw [List.length_reverse, List.length_nil] at hlevels
    show new.headers.length ≤ _
    omega
  · exact ⟨fork, hmeet, fun new' old' fork' hmeet' hne => (hshortest _ _ _ hmeet' hne).1⟩

/-- **Applying an update installs the new chain**: the target is the head, and
the canonical map holds its ancestors instead of the old head's. -/
theorem mapsHead_onCanonicalChainUpdate (hleveled : tree.provider.Leveled)
    (hhead : tree.HeadStored) (hmaps : tree.MapsHead)
    (hstored : tree.provider.sealedHeader target = some header) (hnumber : header.number ≠ 0)
    {update : NewCanonicalChain} (h : tree.onNewHead target = some update) :
    (tree.onCanonicalChainUpdate update).canonicalHead = ⟨header.number, target⟩ ∧
      (tree.onCanonicalChainUpdate update).MapsHead := by
  obtain ⟨headHeader, hheadStored, hheadNumber⟩ := hhead.stored
  obtain ⟨fork, ⟨hnew, hold⟩, -⟩ :=
    onNewHead_meeting hleveled (hhead.atHeight hleveled) hstored hnumber h
  have hheadEq : (tree.onCanonicalChainUpdate update).canonicalHead = ⟨header.number, target⟩ := by
    have htip := onNewHead_tip h
    rw [hstored] at htip
    cases htip
    show (⟨update.tip.number, update.tip.hash⟩ : BlockNumHash) = _
    rw [hash_of_sealedHeader hstored]
  refine ⟨hheadEq, ?_⟩
  unfold MapsHead
  rw [hheadEq]
  exact hmaps.onChainUpdate hleveled hheadStored hheadNumber hstored update.new.nonempty hnew hold

/-! ## The loops as the code has them -/

/-- How a loop of `on_new_head` could go wrong. -/
inductive LoopFault
  /-- A subtraction below zero. -/
  | underflow
  /-- The debug assertion that both cursors are at one height. -/
  | assertionFailed
  /-- More rounds than the bound allows. -/
  | diverged
  deriving DecidableEq, Repr

/-- Walk back while the number is above the bound: the headers met, and the
number and hash reached. -/
def walkBack (provider : ChainState X.Proof) (bound : ℕ) :
    ℕ → ℕ → B256 → Except LoopFault (Option (List SealedHeader × ℕ × B256))
  | 0, _, _ => .error .diverged
  | n + 1, currentNumber, currentHash =>
      if currentNumber > bound then
        match provider.sealedHeader currentHash with
        | none => .ok none
        | some header =>
            if currentNumber < 1 then .error .underflow
            else
              match walkBack provider bound n (currentNumber - 1) header.parentHash with
              | .ok (some (headers, number, hash)) => .ok (some (header :: headers, number, hash))
              | .ok none => .ok none
              | .error fault => .error fault
      else .ok (some ([], currentNumber, currentHash))

/-- Walk both chains until they meet. -/
def walkBothBack (provider : ChainState X.Proof) :
    ℕ → B256 → B256 → Except LoopFault (Option (List SealedHeader × List SealedHeader))
  | 0, _, _ => .error .diverged
  | n + 1, oldHash, currentHash =>
      if oldHash ≠ currentHash then
        match provider.sealedHeader oldHash with
        | none => .ok none
        | some old =>
            match provider.sealedHeader currentHash with
            | none => .ok none
            | some current =>
                match walkBothBack provider n old.parentHash current.parentHash with
                | .ok (some (olds, currents)) => .ok (some (old :: olds, current :: currents))
                | .ok none => .ok none
                | .error fault => .error fault
      else .ok (some ([], []))

/-- `on_new_head` with its cursors, subtractions and assertion. -/
def onNewHeadChecked (tree : EngineTree X) (newHead : B256) :
    Except LoopFault (Option NewCanonicalChain) :=
  match tree.provider.sealedHeader newHead with
  | none => .ok none
  | some newHeadBlock =>
      let parent := newHeadBlock.parentNumHash
      match walkBack tree.provider tree.canonicalHead.number (parent.number + 1) parent.number
          parent.hash with
      | .error fault => .error fault
      | .ok none => .ok none
      | .ok (some (newChain, currentNumber, currentHash)) =>
          if currentHash = tree.canonicalHead.hash then
            .ok (some (.commit (HeadChain.ofWalk newHeadBlock newChain)))
          else
            match walkBack tree.provider currentNumber (tree.canonicalHead.number + 1)
                tree.canonicalHead.number tree.canonicalHead.hash with
            | .error fault => .error fault
            | .ok none => .ok none
            | .ok (some (oldChain, currentCanonicalNumber, oldHash)) =>
                if currentNumber ≠ currentCanonicalNumber then .error .assertionFailed
                else
                  match walkBothBack tree.provider (tree.provider.blocksByHash.card + 1) oldHash
                      currentHash with
                  | .error fault => .error fault
                  | .ok none => .ok none
                  | .ok (some (olds, currents)) =>
                      .ok (some (.reorg (HeadChain.ofWalk newHeadBlock (newChain ++ currents))
                        (oldChain ++ olds).reverse))

/-- A walk back goes as many rounds as the number is above the bound. -/
theorem walkBack_eq (provider : ChainState X.Proof) (bound : ℕ) {n number : ℕ} (hlt : number < n)
    (start : B256) :
    walkBack provider bound n number start
      = .ok ((gatherAncestors provider (number - bound) start).map fun gathered =>
          (gathered.1, number - (number - bound), gathered.2)) := by
  induction n generalizing number start with
  | zero => cases hlt
  | succ n ih =>
      unfold walkBack
      by_cases habove : number > bound
      · obtain ⟨number, rfl⟩ : ∃ m, number = m + 1 := ⟨number - 1, by omega⟩
        obtain ⟨rounds, hrounds⟩ : ∃ m, number + 1 - bound = m + 1 := ⟨number - bound, by omega⟩
        rw [if_pos habove, hrounds, gatherAncestors]
        cases provider.sealedHeader start with
        | none => rfl
        | some header =>
            have hrest := ih (show number < n by omega) header.parentHash
            have hsame : number - bound = rounds := by omega
            rw [hsame] at hrest
            simp only [Nat.add_sub_cancel, hrest,
              if_neg (Nat.not_lt.mpr (Nat.le_add_left 1 number))]
            cases gatherAncestors provider rounds header.parentHash with
            | none => rfl
            | some gathered =>
                have hnumber : number - rounds = number + 1 - (rounds + 1) := by omega
                simp only [Option.map_some, hnumber]
      · have hrounds : number - bound = 0 := by omega
        rw [if_neg habove, hrounds]
        rfl

/-- The walk of both chains ends within as many rounds as the old one has stored
blocks. -/
theorem walkBothBack_eq (provider : ChainState X.Proof) {n : ℕ} (currentHash oldHash : B256)
    (hlt : ∀ headers stop, provider.StoredPath oldHash headers stop → headers.length < n) :
    walkBothBack provider n oldHash currentHash
      = .ok (walkToForkPoint provider n oldHash currentHash) := by
  induction n generalizing currentHash oldHash with
  | zero => exact absurd (hlt [] oldHash (.nil oldHash)) (Nat.not_lt_zero _)
  | succ n ih =>
      unfold walkBothBack walkToForkPoint
      by_cases heq : oldHash = currentHash
      · rw [if_neg (not_not_intro heq), if_pos heq]
      · rw [if_pos heq, if_neg heq]
        cases hold : provider.sealedHeader oldHash with
        | none => rfl
        | some old =>
            cases provider.sealedHeader currentHash with
            | none => rfl
            | some current =>
                have hrest := fun key => ih key old.parentHash
                  fun headers stop hpath =>
                    Nat.lt_of_succ_lt_succ (hlt (old :: headers) stop (.cons hold hpath))
                simp only [hrest]
                cases walkToForkPoint provider n old.parentHash current.parentHash <;> rfl

/-- **The loops end, without underflow and with the assertion true.** -/
theorem onNewHeadChecked_eq (hleveled : tree.provider.Leveled) (hhead : tree.HeadStored) :
    tree.onNewHeadChecked target = .ok (tree.onNewHead target) := by
  obtain ⟨headHeader, hheadStored, -⟩ := hhead.stored
  unfold onNewHeadChecked onNewHead
  cases hstored : tree.provider.sealedHeader target with
  | none => rfl
  | some header =>
      simp only [walkBack_eq _ _ (Nat.lt_succ_self _)]
      cases gatherAncestors tree.provider (header.parentNumHash.number - tree.canonicalHead.number)
          header.parentNumHash.hash with
      | none => rfl
      | some gathered =>
          obtain ⟨newChain, currentHash⟩ := gathered
          simp only [Option.map_some]
          split
          · rfl
          · -- both cursors stand at the lower of the two heights
            have hlevel : tree.canonicalHead.number - (header.parentNumHash.number
                - (header.parentNumHash.number - tree.canonicalHead.number))
                  = tree.canonicalHead.number - header.parentNumHash.number := by
              omega
            rw [hlevel]
            cases hgather : gatherAncestors tree.provider
                (tree.canonicalHead.number - header.parentNumHash.number)
                tree.canonicalHead.hash with
            | none => rfl
            | some gatheredOld =>
                obtain ⟨oldChain, oldHash⟩ := gatheredOld
                have hassert : ¬(header.parentNumHash.number
                    - (header.parentNumHash.number - tree.canonicalHead.number)
                      ≠ tree.canonicalHead.number
                        - (tree.canonicalHead.number - header.parentNumHash.number)) := by
                  omega
                have hwalk := walkBothBack_eq tree.provider currentHash oldHash
                  (n := tree.provider.blocksByHash.card + 1) fun headers stop hpath => by
                    obtain ⟨hold, -⟩ := gatherAncestors_eq_some.mp hgather
                    have hlength := StoredPath.length_le (hold.append hpath) hleveled
                      (hleveled.atHeight hheadStored)
                    rw [List.length_append] at hlength
                    omega
                simp only [Option.map_some, if_neg hassert, hwalk]
                cases walkToForkPoint tree.provider (tree.provider.blocksByHash.card + 1) oldHash
                  currentHash <;> rfl

end EngineTree

end ZkRess
