import ZkRess.Properties.ChainDifferences

/-!
# `is_fork` agrees with `on_new_head`

A stored block other than the canonical head is no fork exactly if the head is one of its
ancestors, and exactly then `on_new_head` returns a commit.  The two walks have different
stopping rules: `is_fork` looks at the number of each header, `on_new_head` counts down
from the number of the target's parent.  Along stored blocks numbers step by one, so the
height settles for both where the head could be (`numbers_of_path`).
-/

namespace ZkRess

open Foundation

namespace ChainState

variable {P : Type} {cs : ChainState P} {start stop : B256} {headers : List SealedHeader}

/-- The number at the top of a path of stored blocks is that at its end, and one more for
each block. -/
theorem numbers_of_path (hsteps : cs.NumbersStep) (h : cs.StoredPath start headers stop)
    {top bottom : SealedHeader} (htop : cs.sealedHeader start = some top)
    (hbottom : cs.sealedHeader stop = some bottom) :
    top.number = bottom.number + headers.length := by
  induction h generalizing top with
  | nil =>
      obtain rfl := Option.some.inj (htop.symm.trans hbottom)
      rfl
  | @cons key stop header headers found rest ih =>
      obtain rfl := Option.some.inj (htop.symm.trans found)
      obtain ⟨parent, hparent⟩ : ∃ parent, cs.sealedHeader top.parentHash = some parent := by
        match rest with
        | .nil _ => exact ⟨bottom, hbottom⟩
        | .cons found' _ => exact ⟨_, found'⟩
      rw [hsteps key top parent htop hparent, ih hparent hbottom, List.length_cons, Nat.add_assoc]

/-- A path has no more blocks than are stored. -/
theorem length_le_card_of_path (hsteps : cs.NumbersStep) (h : cs.StoredPath start headers stop) :
    headers.length ≤ cs.blocksByHash.card := by
  have hreturn : NoReturn cs.sealedHeader fun header => header.parentHash :=
    noReturn_of_rank (fun header => header.number) fun hash header parent hstored hparent => by
      rw [hsteps hash header parent hstored hparent]
      exact Nat.lt_succ_self _
  have hkey : ∀ hash header, cs.sealedHeader hash = some header → header.hash = hash :=
    fun _ _ => hash_of_sealedHeader
  have hnodup := h.nodup_keys hkey hreturn
  have hle := KeyedMap.length_le_card (m := cs.blocksByHash) hnodup fun hash hmem => by
    obtain ⟨header, hheader, rfl⟩ := List.mem_map.mp hmem
    obtain ⟨hash, hfound⟩ := h.found_of_mem hheader
    rw [hash_of_sealedHeader hfound]
    exact contains_iff_sealedHeader.mpr ⟨header, hfound⟩
  rwa [List.length_map] at hle

end ChainState

namespace EngineTree

open ChainState

variable {X : Externals} {tree : EngineTree X} {target : B256} {header : SealedHeader}

/-! ## The loop of `is_fork` -/

/-- `is_fork` with a bound on its rounds. -/
def isForkChecked (provider : ChainState X.Proof) (canonicalHead : BlockNumHash) :
    ℕ → B256 → Except LoopFault Bool
  | 0, _ => .error .diverged
  | n + 1, currentHash =>
      match provider.sealedHeader currentHash with
      | none => .ok true
      | some currentBlock =>
          if currentBlock.hash = canonicalHead.hash then .ok false
          else if currentBlock.number ≤ canonicalHead.number then .ok true
          else isForkChecked provider canonicalHead n currentBlock.parentHash

/-- A loop that has not ended yet has met a stored block in each round. -/
theorem isForkChecked_cases (provider : ChainState X.Proof) (canonicalHead : BlockNumHash) (n : ℕ)
    (start : B256) :
    (isForkChecked provider canonicalHead (n + 1) start
        = .ok (isForkFrom provider canonicalHead n start)) ∨
      ∃ headers stop, provider.StoredPath start headers stop ∧ headers.length = n + 1 := by
  induction n generalizing start with
  | zero =>
      rw [isForkChecked, isForkFrom]
      match hstored : provider.sealedHeader start with
      | none => exact .inl rfl
      | some header => exact .inr ⟨[header], _, .cons hstored (.nil _), rfl⟩
  | succ n ih =>
      rw [isForkChecked, isForkFrom]
      match hstored : provider.sealedHeader start with
      | none => exact .inl rfl
      | some header =>
          dsimp only
          split
          · exact .inl rfl
          · split
            · exact .inl rfl
            · refine (ih header.parentHash).imp_right ?_
              rintro ⟨headers, stop, hpath, hlength⟩
              exact ⟨header :: headers, stop, .cons hstored hpath, congrArg (· + 1) hlength⟩

/-- **The loop of `is_fork` ends**, after as many rounds as there are stored blocks, and
one. -/
theorem isForkChecked_eq (hsteps : tree.provider.NumbersStep) (target : B256) :
    isForkChecked tree.provider tree.canonicalHead (tree.provider.blocksByHash.card + 1) target
      = .ok (tree.isFork target) := by
  refine (isForkChecked_cases tree.provider tree.canonicalHead _ target).resolve_right ?_
  rintro ⟨headers, stop, hpath, hlength⟩
  have hle := length_le_card_of_path hsteps hpath
  omega

/-- A walk that does not find a fork has come to the head. -/
theorem path_of_isForkFrom {provider : ChainState X.Proof} {canonicalHead : BlockNumHash} {n : ℕ}
    {start : B256} (h : isForkFrom provider canonicalHead n start = false) :
    ∃ headers, provider.StoredPath start headers canonicalHead.hash := by
  induction n generalizing start with
  | zero => cases h
  | succ n ih =>
      unfold isForkFrom at h
      match hstored : provider.sealedHeader start with
      | none =>
          rw [hstored] at h
          cases h
      | some header =>
          rw [hstored] at h
          dsimp only at h
          split at h
          · next heq =>
              rw [← heq, hash_of_sealedHeader hstored]
              exact ⟨[], .nil _⟩
          · split at h
            · cases h
            · obtain ⟨headers, hpath⟩ := ih h
              exact ⟨header :: headers, .cons hstored hpath⟩

/-- On a path down to the head it goes on until it is there. -/
theorem isForkFrom_of_path (hsteps : tree.provider.NumbersStep) (hhead : tree.HeadStored)
    {start : B256} {headers : List SealedHeader}
    (h : tree.provider.StoredPath start headers tree.canonicalHead.hash) {n : ℕ}
    (hlt : headers.length < n) : isForkFrom tree.provider tree.canonicalHead n start = false := by
  obtain ⟨bottom, hbottom, hnumber⟩ := hhead.stored
  induction headers generalizing start n with
  | nil =>
      obtain ⟨n, rfl⟩ := Nat.exists_eq_succ_of_ne_zero (Nat.ne_zero_of_lt hlt)
      generalize hstop : tree.canonicalHead.hash = stop at h hbottom
      cases h
      unfold isForkFrom
      rw [hbottom]
      exact if_pos ((hash_of_sealedHeader hbottom).trans hstop.symm)
  | cons header headers ih =>
      obtain ⟨n, rfl⟩ := Nat.exists_eq_succ_of_ne_zero (Nat.ne_zero_of_lt hlt)
      match h with
      | .cons hstored rest =>
          -- the block is above the head, so the walk does not stop here for its number
          have habove := numbers_of_path hsteps (.cons hstored rest) hstored hbottom
          rw [List.length_cons, hnumber] at habove
          unfold isForkFrom
          rw [hstored]
          dsimp only
          split
          · rfl
          · rw [if_neg (by omega)]
            exact ih rest (Nat.lt_of_succ_lt_succ hlt)

/-! ## The loop of `on_new_head` -/

/-- A commit is returned exactly if the head is on the path of stored blocks below the
target. -/
theorem onNewHead_commit_iff (hsteps : tree.provider.NumbersStep) (hhead : tree.HeadStored)
    (hstored : tree.provider.sealedHeader target = some header) :
    (∃ new, tree.onNewHead target = some (.commit new)) ↔
      ∃ headers, headers ≠ [] ∧
        tree.provider.StoredPath target headers tree.canonicalHead.hash := by
  have hgather : (∃ new, tree.onNewHead target = some (.commit new)) ↔
      ∃ headers, gatherAncestors tree.provider (header.number - 1 - tree.canonicalHead.number)
        header.parentHash = some (headers, tree.canonicalHead.hash) := by
    unfold onNewHead
    rw [hstored]
    dsimp only [SealedHeader.parentNumHash]
    match gatherAncestors tree.provider (header.number - 1 - tree.canonicalHead.number)
        header.parentHash with
    | none => exact iff_of_false nofun nofun
    | some (headers, reached) =>
        dsimp only
        split
        · next heq => exact iff_of_true ⟨_, rfl⟩ ⟨headers, by rw [heq]⟩
        · next hne =>
            -- from here on only a reorg can be returned
            refine iff_of_false ?_ ?_
            · rintro ⟨new, hcommit⟩
              split at hcommit
              · cases hcommit
              · split at hcommit
                · cases hcommit
                · cases hcommit
            · rintro ⟨headers', heq⟩
              cases heq
              exact hne rfl
  rw [hgather]
  constructor
  · rintro ⟨headers, hwalk⟩
    exact ⟨header :: headers, List.cons_ne_nil _ _,
      .cons hstored (gatherAncestors_eq_some.mp hwalk).1⟩
  · rintro ⟨headers, hne, hpath⟩
    obtain ⟨bottom, hbottom, hnumber⟩ := hhead.stored
    have habove := numbers_of_path hsteps hpath hstored hbottom
    match headers, hpath with
    | [], _ => exact absurd rfl hne
    | _ :: headers, .cons hfound rest =>
        obtain rfl := Option.some.inj (hstored.symm.trans hfound)
        refine ⟨headers, gatherAncestors_eq_some.mpr ⟨rest, ?_⟩⟩
        rw [habove, hnumber, List.length_cons]
        omega

/-! ## Both classify a block the same way -/

/-- **Fork detection agrees with the chain update**: the loop ends, and says that a stored
block other than the head is no fork exactly if the update to it is a commit, that is, if
the head is a proper ancestor with all blocks between stored. -/
theorem isFork_iff (hsteps : tree.provider.NumbersStep) (hhead : tree.HeadStored)
    (hstored : tree.provider.sealedHeader target = some header)
    (hother : target ≠ tree.canonicalHead.hash) :
    isForkChecked tree.provider tree.canonicalHead (tree.provider.blocksByHash.card + 1) target
        = .ok (tree.isFork target) ∧
      (tree.isFork target = false ↔ ∃ new, tree.onNewHead target = some (.commit new)) ∧
      (tree.isFork target = false ↔ ∃ headers, headers ≠ [] ∧
        tree.provider.StoredPath target headers tree.canonicalHead.hash) := by
  have hancestor : tree.isFork target = false ↔ ∃ headers, headers ≠ [] ∧
      tree.provider.StoredPath target headers tree.canonicalHead.hash := by
    constructor
    · intro h
      obtain ⟨headers, hpath⟩ := path_of_isForkFrom h
      refine ⟨headers, ?_, hpath⟩
      rintro rfl
      generalize tree.canonicalHead.hash = head at hpath hother
      cases hpath
      exact hother rfl
    · rintro ⟨headers, -, hpath⟩
      refine isForkFrom_of_path hsteps hhead hpath ?_
      -- the head is stored, too
      obtain ⟨bottom, hbottom, -⟩ := hhead.stored
      have hle := length_le_card_of_path hsteps (hpath.snoc hbottom)
      rw [List.length_append, List.length_singleton] at hle
      omega
  exact ⟨isForkChecked_eq hsteps target,
    hancestor.trans (onNewHead_commit_iff hsteps hhead hstored).symm, hancestor⟩

end EngineTree

namespace SmallWorld

/-- A tree on the two siblings, the genesis block being the head. -/
def undecidedTree : EngineTree externals :=
  EngineTree.new (ChainState.empty.applyAll siblings) ⟨0, 1⟩

/-- Neither of them is a fork yet. -/
theorem isFork_of_siblings :
    undecidedTree.isFork 5 = false ∧ ∃ new, undecidedTree.onNewHead 5 = some (.commit new) := by
  have hfork : undecidedTree.isFork 5 = false := by decide +kernel
  have hsteps : undecidedTree.provider.NumbersStep :=
    fork_numbersStep (ChainState.Sound.empty.applyAll siblings_conform)
  have hhead : undecidedTree.HeadStored := ⟨header 1 0 0, by decide +kernel, rfl⟩
  have hstored : undecidedTree.provider.sealedHeader 5 = some (header 5 1 1) := by decide +kernel
  exact ⟨hfork, (EngineTree.isFork_iff hsteps hhead hstored (by decide)).2.1.mp hfork⟩

end SmallWorld

end ZkRess
