import Mathlib.Data.Finset.Card
import ZkRess.Foundation.ParentGraph
import ZkRess.Provider.ChainState

/-!
# Sequences of chain-state operations, and block-hash lookups

A chain state is what a sequence of its four mutating methods makes of the empty
one (`ChainOp`, `applyAll`); the index by number is exact in all of them.

`block_hash` stitches its answer from two maps: the stored blocks, walked by
parent hash, and the canonical hashes.  `blockHash_of_window` says when the seam
holds: the blocks from the asked one down to a block `f` are stored, and the
canonical hashes are those of `f` and its ancestors down to the asked height.
Where the stored blocks end does not matter, so the same lemma reads the state
before and after pruning.
-/

namespace ZkRess

open Foundation

variable {P : Type}

/-- A call of one of the chain state's mutating methods. -/
inductive ChainOp (P : Type)
  | insertBlock (block : Block) (maybeProof : Option P)
  | insertCanonicalHash (number : ℕ) (hash : B256)
  | removeCanonicalHash (number : ℕ) (hash : B256)
  | removeBlocksOnFinalized (finalizedHash : B256)

/-- An inserted block is the one its hash stands for. -/
def ChainOp.Conforms (preimage : Preimage) : ChainOp P → Prop
  | .insertBlock block _ => block.toSealedHeader.Conforms preimage
  | _ => True

namespace ChainState

/-- The state after a call. -/
def apply (cs : ChainState P) : ChainOp P → ChainState P
  | .insertBlock block maybeProof => cs.insertBlock block maybeProof
  | .insertCanonicalHash number hash => cs.insertCanonicalHash number hash
  | .removeCanonicalHash number hash => cs.removeCanonicalHash number hash
  | .removeBlocksOnFinalized finalizedHash => cs.removeBlocksOnFinalized finalizedHash

/-- The state after a sequence of calls. -/
def applyAll (cs : ChainState P) (ops : List (ChainOp P)) : ChainState P := ops.foldl apply cs

/-- Every stored block is the one its hash stands for, and is listed under its
number. -/
structure Sound (preimage : Preimage) (cs : ChainState P) : Prop where
  indexed : cs.Indexed
  conforms : ∀ hash block, cs.blocksByHash.get hash = some block →
    block.toSealedHeader.Conforms preimage

namespace Sound

variable {preimage : Preimage} {cs : ChainState P}

theorem empty : (ChainState.empty : ChainState P).Sound preimage where
  indexed := indexed_empty
  conforms hash block hget := by simp [ChainState.empty] at hget

/-- A stored header is the one its hash stands for. -/
theorem preimage_of_sealedHeader (h : cs.Sound preimage) {hash : B256} {header : SealedHeader}
    (hstored : cs.sealedHeader hash = some header) : preimage hash = some header := by
  obtain ⟨block, hget, rfl⟩ := sealedHeader_eq_some.mp hstored
  have hconforms := h.conforms hash block hget
  unfold SealedHeader.Conforms at hconforms
  rwa [hash_of_get hget] at hconforms

/-- With fewer blocks, the state stays sound. -/
theorem of_sub {cs' : ChainState P} (h : cs.Sound preimage) (hindexed : cs'.Indexed)
    (hsub : ∀ hash block, cs'.blocksByHash.get hash = some block →
      cs.blocksByHash.get hash = some block) : cs'.Sound preimage where
  indexed := hindexed
  conforms hash block hget := h.conforms hash block (hsub hash block hget)

theorem insertBlock (h : cs.Sound preimage) {block : Block} (maybeProof : Option P)
    (hconforms : block.toSealedHeader.Conforms preimage) :
    (cs.insertBlock block maybeProof).Sound preimage where
  indexed := by
    refine h.indexed.insertBlock fun old hold => ?_
    have hold' := h.conforms _ old hold
    unfold SealedHeader.Conforms at hconforms hold'
    rw [hash_of_get hold, hconforms] at hold'
    rw [← Option.some.inj hold']
  conforms hash block' hget := by
    rw [insertBlock_get] at hget
    split at hget
    · cases hget
      exact hconforms
    · exact h.conforms hash block' hget

theorem removeBlocksOnFinalized (h : cs.Sound preimage) (finalizedHash : B256) :
    (cs.removeBlocksOnFinalized finalizedHash).Sound preimage := by
  cases hfin : cs.blocksByHash.get finalizedHash with
  | none => rwa [removeBlocksOnFinalized_of_none hfin]
  | some finalized =>
      exact h.of_sub (h.indexed.removeBlocksOnFinalized finalizedHash) fun hash block hget =>
        ((removeBlocksOnFinalized_get h.indexed hfin).mp hget).1

/-- **No call breaks the soundness.** -/
theorem apply (h : cs.Sound preimage) {op : ChainOp P} (hop : op.Conforms preimage) :
    (cs.apply op).Sound preimage := by
  cases op with
  | insertBlock block maybeProof => exact h.insertBlock maybeProof hop
  | insertCanonicalHash number hash => exact h.of_sub h.indexed fun _ _ hget => hget
  | removeCanonicalHash number hash =>
      show (cs.removeCanonicalHash number hash).Sound preimage
      unfold removeCanonicalHash
      split
      · exact h.of_sub h.indexed fun _ _ hget => hget
      · exact h
  | removeBlocksOnFinalized finalizedHash => exact h.removeBlocksOnFinalized finalizedHash

theorem applyAll (h : cs.Sound preimage) {ops : List (ChainOp P)}
    (hops : ∀ op ∈ ops, op.Conforms preimage) : (cs.applyAll ops).Sound preimage := by
  induction ops generalizing cs with
  | nil => exact h
  | cons op ops ih =>
      rw [List.forall_mem_cons] at hops
      exact ih (h.apply hops.1) hops.2

end Sound

/-- Proofs are kept of stored blocks only. -/
def ProofsStored (cs : ChainState P) : Prop :=
  ∀ hash proof, cs.proofs.get hash = some proof → cs.Contains hash

namespace ProofsStored

variable {preimage : Preimage} {cs : ChainState P}

theorem insertBlock (h : cs.ProofsStored) (block : Block) (maybeProof : Option P) :
    (cs.insertBlock block maybeProof).ProofsStored := by
  intro hash proof hget
  rw [contains_insertBlock]
  by_cases heq : hash = block.hash
  · exact .inl heq
  · right
    apply h hash proof
    cases maybeProof with
    | none => exact hget
    | some inserted => rwa [← FiniteMap.get_insert_of_ne cs.proofs inserted heq]

theorem removeBlocksOnFinalized (h : cs.ProofsStored) (hindexed : cs.Indexed)
    (finalizedHash : B256) : (cs.removeBlocksOnFinalized finalizedHash).ProofsStored := by
  cases hfin : cs.blocksByHash.get finalizedHash with
  | none => rwa [removeBlocksOnFinalized_of_none hfin]
  | some finalized =>
      intro hash proof hget
      obtain ⟨hproof, hkept⟩ := (removeBlocksOnFinalized_proofs hindexed hfin).mp hget
      obtain ⟨block, hblock⟩ := h hash proof hproof
      exact ⟨block, (removeBlocksOnFinalized_get hindexed hfin).mpr ⟨hblock, hkept block hblock⟩⟩

theorem apply (h : cs.ProofsStored) (hsound : cs.Sound preimage) (op : ChainOp P) :
    (cs.apply op).ProofsStored := by
  cases op with
  | insertBlock block maybeProof => exact h.insertBlock block maybeProof
  | insertCanonicalHash number hash => exact h
  | removeCanonicalHash number hash =>
      show (cs.removeCanonicalHash number hash).ProofsStored
      unfold removeCanonicalHash
      split <;> exact h
  | removeBlocksOnFinalized finalizedHash =>
      exact h.removeBlocksOnFinalized hsound.indexed finalizedHash

theorem applyAll (h : cs.ProofsStored) (hsound : cs.Sound preimage) {ops : List (ChainOp P)}
    (hops : ∀ op ∈ ops, op.Conforms preimage) : (cs.applyAll ops).ProofsStored := by
  induction ops generalizing cs with
  | nil => exact h
  | cons op ops ih =>
      rw [List.forall_mem_cons] at hops
      exact ih (h.apply hsound op) (hsound.apply hops.1) hops.2

end ProofsStored

/-! ## Walks among stored blocks -/

/-- Walks between positions of stored blocks. -/
abbrev StoredWalk (cs : ChainState P) (hash : B256) (number : ℕ) (headers : List SealedHeader)
    (reached : B256) (reachedNumber : ℕ) : Prop :=
  Walk cs.sealedHeader (fun header => header.parentHash) (fun header => header.number) hash number
    headers reached reachedNumber

/-- The position is met when walking down along stored blocks. -/
abbrev StoredReaches (cs : ChainState P) (hash : B256) (number : ℕ) (reached : B256)
    (reachedNumber : ℕ) : Prop :=
  Reaches cs.sealedHeader (fun header => header.parentHash) (fun header => header.number) hash
    number reached reachedNumber

/-- Block numbers step by one along the parent links of stored blocks. -/
def NumbersStep (cs : ChainState P) : Prop :=
  ∀ hash header parent, cs.sealedHeader hash = some header →
    cs.sealedHeader header.parentHash = some parent → header.number = parent.number + 1

/-- Stored headers with falling numbers are distinct. -/
theorem nodup_of_falls {cs : ChainState P} {headers : List SealedHeader}
    (hstored : ∀ header ∈ headers, cs.sealedHeader header.hash = some header)
    (hfalls : headers.Pairwise fun a b => b.number < a.number) :
    (headers.map fun header => header.hash).Nodup := by
  refine List.pairwise_map.mpr (hfalls.imp_of_mem fun {a b} ha hb hlt heq => ?_)
  have hsame := hstored a ha
  rw [heq, hstored b hb] at hsame
  cases hsame
  exact lt_irrefl _ hlt

/-- Of headers with falling numbers, no two have one number. -/
theorem eq_of_number_eq {headers : List SealedHeader}
    (hfalls : headers.Pairwise fun a b => b.number < a.number) {a b : SealedHeader}
    (ha : a ∈ headers) (hb : b ∈ headers) (heq : a.number = b.number) : a = b := by
  have hnodup : (headers.map fun header => header.number).Nodup :=
    List.pairwise_map.mpr (hfalls.imp fun hlt => hlt.ne')
  exact List.inj_on_of_nodup_map hnodup ha hb heq

/-- There are no more of them than blocks. -/
theorem length_le_of_falls {cs : ChainState P} {headers : List SealedHeader}
    (hstored : ∀ header ∈ headers, cs.sealedHeader header.hash = some header)
    (hfalls : headers.Pairwise fun a b => b.number < a.number) :
    headers.length ≤ cs.blocksByHash.card := by
  have hcard := KeyedMap.length_le_card (m := cs.blocksByHash) (nodup_of_falls hstored hfalls)
    fun key hmem => by
      obtain ⟨header, hheader, rfl⟩ := List.mem_map.mp hmem
      exact contains_iff_sealedHeader.mpr ⟨header, hstored header hheader⟩
  rwa [List.length_map] at hcard

namespace StoredWalk

variable {cs : ChainState P} {hash reached : B256} {number reachedNumber : ℕ}
  {headers : List SealedHeader}

theorem contains_of_mem (h : cs.StoredWalk hash number headers reached reachedNumber)
    {header : SealedHeader} (hmem : header ∈ headers) :
    cs.sealedHeader header.hash = some header ∧ reachedNumber < header.number := by
  obtain ⟨key, hstored, hlt, -⟩ := h.position_of_mem hmem
  rw [hash_of_sealedHeader hstored]
  exact ⟨hstored, hlt⟩

/-- The numbers of the headers met fall. -/
theorem falls (h : cs.StoredWalk hash number headers reached reachedNumber) :
    headers.Pairwise fun a b => b.number < a.number := by
  induction h with
  | nil => exact .nil
  | @cons _ _ _ _ top _ found height rest ih =>
      refine List.pairwise_cons.mpr ⟨fun header hheader => ?_, ih⟩
      obtain ⟨-, -, -, hle, -⟩ := rest.position_of_mem hheader
      have hheight : top.number = _ + 1 := height
      omega

/-- A walk meets no more headers than there are blocks. -/
theorem length_le (h : cs.StoredWalk hash number headers reached reachedNumber) :
    headers.length ≤ cs.blocksByHash.card :=
  length_le_of_falls (fun _ hmem => (contains_of_mem h hmem).1) (falls h)

/-- Before it reaches a stored block, a walk meets fewer. -/
theorem length_lt (h : cs.StoredWalk hash number headers reached reachedNumber) {block : Block}
    (hstored : cs.blocksByHash.get reached = some block) (hnumber : block.number = reachedNumber) :
    headers.length < cs.blocksByHash.card := by
  have hfresh : reached ∉ headers.map fun header => header.hash := by
    intro hmem
    obtain ⟨header, hheader, heq⟩ := List.mem_map.mp hmem
    obtain ⟨hheaderStored, hlt⟩ := contains_of_mem h hheader
    rw [show header.hash = reached from heq, sealedHeader_eq_some] at hheaderStored
    obtain ⟨block', hget, rfl⟩ := hheaderStored
    rw [hstored] at hget
    cases hget
    omega
  have hcard := KeyedMap.length_le_card (m := cs.blocksByHash)
    (List.nodup_cons.mpr
      ⟨hfresh, nodup_of_falls (fun _ hmem => (contains_of_mem h hmem).1) (falls h)⟩)
        fun key hmem => by
      rcases List.mem_cons.mp hmem with rfl | hmem
      · exact ⟨block, hstored⟩
      · obtain ⟨header, hheader, rfl⟩ := List.mem_map.mp hmem
        exact contains_iff_sealedHeader.mpr ⟨header, (contains_of_mem h hheader).1⟩
  rwa [List.length_cons, List.length_map] at hcard

end StoredWalk

/-! ## Block-hash lookups -/

/-- The hash is the block's own at its number, or that of the ancestor at that
height. -/
abbrev AncestorAt (preimage : Preimage) (block : Block) (number : ℕ) (hash : B256) : Prop :=
  Reaches preimage (fun header => header.parentHash) (fun header => header.number) block.hash
    block.number hash number

variable {cs : ChainState P} {preimage : Preimage}

/-- Along a chain of known headers, the stored blocks end at the target or at a
hash above it that is not stored. -/
private theorem storedWalk_or_stops (hsound : cs.Sound preimage) {start target : B256}
    {number targetNumber : ℕ} {headers : List SealedHeader}
    (h : Walk preimage (fun header => header.parentHash) (fun header => header.number) start number
      headers target targetNumber) :
    (cs.StoredWalk start number headers target targetNumber ∧ cs.Contains target) ∨
      ∃ passed stop stopNumber, cs.StoredWalk start number passed stop stopNumber ∧
        ¬cs.Contains stop ∧ targetNumber ≤ stopNumber := by
  induction h with
  | nil k n =>
      by_cases hstored : cs.Contains k
      · exact .inl ⟨.nil k n, hstored⟩
      · exact .inr ⟨[], k, n, .nil k n, hstored, le_rfl⟩
  | @cons k a n m v l found height rest ih =>
      by_cases hstored : cs.Contains k
      · obtain ⟨header, hheader⟩ := contains_iff_sealedHeader.mp hstored
        have hsame := hsound.preimage_of_sealedHeader hheader
        rw [found] at hsame
        cases hsame
        rcases ih with ⟨hwalk, hend⟩ | ⟨passed, stop, stopNumber, hwalk, hstop, hle⟩
        · exact .inl ⟨.cons hheader height hwalk, hend⟩
        · exact .inr ⟨v :: passed, stop, stopNumber, .cons hheader height hwalk, hstop, hle⟩
      · have := rest.length
        exact .inr ⟨[], k, n + 1, .nil k _, hstored, by omega⟩

/-- The walk of `block_hash` finds a stored block at its own number. -/
private theorem walkToNumber_found {start target : B256} {number targetNumber fuel : ℕ}
    {headers : List SealedHeader}
    (h : cs.StoredWalk start number headers target targetNumber) {block : Block}
    (hstored : cs.blocksByHash.get target = some block) (hnumber : block.number = targetNumber)
    (hfuel : headers.length + 1 ≤ fuel) :
    cs.walkToNumber targetNumber fuel ⟨number, start⟩ = .inl target := by
  induction h generalizing fuel with
  | nil k n =>
      obtain ⟨fuel, rfl⟩ : ∃ m, fuel = m + 1 := ⟨fuel - 1, by omega⟩
      simp only [walkToNumber, hstored, if_pos hnumber, hash_of_get hstored]
  | @cons k a n m header l found height rest ih =>
      rw [List.length_cons] at hfuel
      obtain ⟨fuel, rfl⟩ : ∃ m, fuel = m + 1 := ⟨fuel - 1, by omega⟩
      obtain ⟨top, hget, rfl⟩ := sealedHeader_eq_some.mp found
      have hlength := rest.length
      have habove : ¬top.number = m := by omega
      have hbelow : top.parentNumHash = ⟨n, top.parentHash⟩ := by
        show (⟨top.number - 1, top.parentHash⟩ : BlockNumHash) = _
        rw [height, Nat.add_sub_cancel]
      simp only [walkToNumber, hget, if_neg habove, hbelow]
      exact ih hstored hnumber (by omega)

/-- It stops where the stored blocks end. -/
private theorem walkToNumber_stops {start stop : B256} {number stopNumber target fuel : ℕ}
    {headers : List SealedHeader} (h : cs.StoredWalk start number headers stop stopNumber)
    (hstop : ¬cs.Contains stop) (hle : target ≤ stopNumber) (hfuel : headers.length ≤ fuel) :
    cs.walkToNumber target fuel ⟨number, start⟩ = .inr ⟨stopNumber, stop⟩ := by
  induction h generalizing fuel with
  | nil k n =>
      cases fuel with
      | zero => rfl
      | succ fuel => simp only [walkToNumber, not_contains_iff.mp hstop]
  | @cons k a n m header l found height rest ih =>
      rw [List.length_cons] at hfuel
      obtain ⟨fuel, rfl⟩ : ∃ m, fuel = m + 1 := ⟨fuel - 1, by omega⟩
      obtain ⟨top, hget, rfl⟩ := sealedHeader_eq_some.mp found
      have hlength := rest.length
      have habove : ¬top.number = target := by omega
      have hbelow : top.parentNumHash = ⟨n, top.parentHash⟩ := by
        show (⟨top.number - 1, top.parentHash⟩ : BlockNumHash) = _
        rw [height, Nat.add_sub_cancel]
      simp only [walkToNumber, hget, if_neg habove, hbelow]
      exact ih hstop hle (by omega)

/-- The chain below `top` is readable: its blocks are stored down to `bottom`,
and from there the canonical hashes are those of the ancestors. -/
structure Window (preimage : Preimage) (cs : ChainState P) (top bottom : Block) : Prop where
  sound : cs.Sound preimage
  topStored : cs.blocksByHash.get top.hash = some top
  bottomStored : cs.blocksByHash.get bottom.hash = some bottom
  connected : cs.StoredReaches top.hash top.number bottom.hash bottom.number
  numbersStep : cs.NumbersStep
  canonical : ∀ number, bottom.number - 256 ≤ number → number ≤ bottom.number →
    ∃ hash, AncestorAt preimage bottom number hash ∧
      cs.canonicalHashesByNumber.get number = some hash

namespace StoredReaches

variable {start reached : B256} {number reachedNumber : ℕ}

/-- Stored walks are walks of known headers. -/
theorem known (hsound : cs.Sound preimage)
    (h : cs.StoredReaches start number reached reachedNumber) :
    Reaches preimage (fun header => header.parentHash) (fun header => header.number) start number
      reached reachedNumber := by
  obtain ⟨headers, hwalk⟩ := h
  refine ⟨headers, ?_⟩
  induction hwalk with
  | nil k n => exact .nil k n
  | cons found height _ ih => exact .cons (hsound.preimage_of_sealedHeader found) height ih

/-- A stored block that is reached has the number it is reached at. -/
theorem number_eq (hnumbers : cs.NumbersStep)
    (h : cs.StoredReaches start number reached reachedNumber) {top block : Block}
    (htop : cs.blocksByHash.get start = some top) (hnumber : top.number = number)
    (hblock : cs.blocksByHash.get reached = some block) : block.number = reachedNumber := by
  obtain ⟨headers, hwalk⟩ := h
  have hpositioned : ∀ header, cs.sealedHeader start = some header → header.number = number := by
    intro header hheader
    obtain ⟨block', hget, rfl⟩ := sealedHeader_eq_some.mp hheader
    rw [htop] at hget
    cases hget
    exact hnumber
  clear htop hnumber
  induction hwalk with
  | nil k n => exact hpositioned _ (sealedHeader_eq_some.mpr ⟨block, hblock, rfl⟩)
  | @cons k a n m header l found height rest ih =>
      refine ih hblock fun parent hparent => ?_
      have hstep := hnumbers _ _ _ found hparent
      have hheight : header.number = n + 1 := height
      omega

/-- From a hash that is not stored nothing else is reached. -/
theorem eq_of_not_contains (h : cs.StoredReaches start number reached reachedNumber)
    (hstart : ¬cs.Contains start) : start = reached := by
  obtain ⟨headers, hwalk⟩ := h
  cases hwalk with
  | nil => rfl
  | cons found => exact absurd (contains_iff_sealedHeader.mpr ⟨_, found⟩) hstart

end StoredReaches

/-- Above the block there is no answer. -/
theorem blockHash_of_above (hnumbers : cs.NumbersStep) {top : Block}
    (htop : cs.blocksByHash.get top.hash = some top) {number : ℕ} (hlt : top.number < number) :
    cs.blockHash ⟨top.number, top.hash⟩ number = none := by
  have hwalk : ∀ fuel (ancestor : BlockNumHash), ancestor.number < number →
      (∀ header, cs.sealedHeader ancestor.hash = some header → header.number < number) →
        ∃ stop, cs.walkToNumber number fuel ancestor = .inr stop ∧ stop.number < number := by
    intro fuel
    induction fuel with
    | zero => exact fun ancestor hbelow _ => ⟨ancestor, rfl, hbelow⟩
    | succ fuel ih =>
        intro ancestor hbelow hstored
        cases hget : cs.blocksByHash.get ancestor.hash with
        | none => exact ⟨ancestor, by simp only [walkToNumber, hget], hbelow⟩
        | some block =>
            have hheader := sealedHeader_eq_some.mpr ⟨block, hget, rfl⟩
            have hblock : block.number < number := hstored _ hheader
            simp only [walkToNumber, hget, if_neg hblock.ne]
            refine ih block.parentNumHash ?_ fun parent hparent => ?_
            · show block.number - 1 < number
              omega
            · have hstep : block.number = parent.number + 1 :=
                hnumbers _ _ _ hheader hparent
              omega
  obtain ⟨stop, hstop, hbelow⟩ := hwalk cs.blocksByHash.card ⟨top.number, top.hash⟩ hlt <| by
    intro header hheader
    obtain ⟨block, hget, rfl⟩ := sealedHeader_eq_some.mp hheader
    rw [htop] at hget
    cases hget
    exact hlt
  unfold blockHash
  rw [hstop]
  exact if_neg fun hand => Nat.not_le_of_lt hbelow hand.1

/-- A lookup finds an ancestor that is stored, or that is canonical together with the hash at
which the stored blocks end. -/
theorem blockHash_of_ancestor (hsound : cs.Sound preimage) (hnumbers : cs.NumbersStep)
    {top : Block} (htop : cs.blocksByHash.get top.hash = some top) {number : ℕ} {hash : B256}
    (hreach : AncestorAt preimage top number hash)
    (hseam : ∀ stop stopNumber, cs.StoredReaches top.hash top.number stop stopNumber →
      ¬cs.Contains stop → number ≤ stopNumber →
        cs.canonicalHashesByNumber.get stopNumber = some stop ∧
          cs.canonicalHashesByNumber.get number = some hash) :
    cs.blockHash ⟨top.number, top.hash⟩ number = some hash := by
  obtain ⟨headers, hwalk⟩ := hreach
  unfold ChainState.blockHash
  rcases storedWalk_or_stops hsound hwalk with ⟨hstored, hend⟩ | ⟨passed, stop, stopNumber,
    hstored, hstop, hle⟩
  · obtain ⟨block, hget⟩ := hend
    have hnumber := StoredReaches.number_eq hnumbers ⟨headers, hstored⟩ htop rfl hget
    rw [walkToNumber_found hstored hget hnumber (StoredWalk.length_lt hstored hget hnumber)]
  · obtain ⟨hcanonical, hfound⟩ := hseam stop stopNumber ⟨passed, hstored⟩ hstop hle
    rw [walkToNumber_stops hstored hstop hle (StoredWalk.length_le hstored)]
    simp only [if_pos (And.intro hle hcanonical), hfound]

/-- **Lookups in a window** find the ancestor at the height asked for. -/
theorem Window.blockHash {top bottom : Block} (h : Window preimage cs top bottom) {number : ℕ}
    (hlow : bottom.number - 256 ≤ number) (hhigh : number ≤ top.number) :
    ∃ hash, AncestorAt preimage top number hash ∧
      cs.blockHash ⟨top.number, top.hash⟩ number = some hash := by
  have hbottom : AncestorAt preimage top bottom.number bottom.hash := h.connected.known h.sound
  have hancestor : ∃ hash, AncestorAt preimage top number hash := by
    by_cases hbelow : number ≤ bottom.number
    · obtain ⟨hash, hreach, -⟩ := h.canonical number hlow hbelow
      exact ⟨hash, hbottom.trans hreach⟩
    · obtain ⟨headers, hwalk⟩ := hbottom
      exact hwalk.exists_position (Nat.le_of_not_le hbelow) hhigh
  obtain ⟨hash, hreach⟩ := hancestor
  refine ⟨hash, hreach, ?_⟩
  obtain ⟨headers, hwalk⟩ := hreach
  unfold ChainState.blockHash
  rcases storedWalk_or_stops h.sound hwalk with ⟨hstored, hend⟩ | ⟨passed, stop, stopNumber,
    hstored, hstop, hle⟩
  · obtain ⟨block, hget⟩ := hend
    have hnumber := StoredReaches.number_eq h.numbersStep ⟨headers, hstored⟩ h.topStored rfl hget
    rw [walkToNumber_found hstored hget hnumber (StoredWalk.length_lt hstored hget hnumber)]
  · rw [walkToNumber_stops hstored hstop hle (StoredWalk.length_le hstored)]
    have hpassed : cs.StoredReaches top.hash top.number stop stopNumber := ⟨passed, hstored⟩
    have hseam : stopNumber ≤ bottom.number := by
      -- everything from the top down to the bottom is stored
      by_contra habove
      have hrest := hpassed.lower h.connected (Nat.le_of_not_le habove)
      have heq := StoredReaches.eq_of_not_contains hrest hstop
      exact hstop (heq ▸ ⟨bottom, h.bottomStored⟩)
    obtain ⟨seam, hseamReach, hseamCanonical⟩ := h.canonical stopNumber (hlow.trans hle) hseam
    obtain ⟨found, hfoundReach, hfoundCanonical⟩ := h.canonical number hlow (hle.trans hseam)
    have hseamEq : seam = stop :=
      (hbottom.trans hseamReach).unique (hpassed.known h.sound)
    have hfoundEq : found = hash :=
      (hbottom.trans hfoundReach).unique ⟨headers, hwalk⟩
    rw [hseamEq] at hseamCanonical
    rw [hfoundEq] at hfoundCanonical
    exact (if_pos ⟨hle, hseamCanonical⟩).trans hfoundCanonical

/-- Pruning below the window's bottom leaves the window. -/
theorem Window.prune {top bottom : Block} (h : Window preimage cs top bottom) :
    Window preimage (cs.removeBlocksOnFinalized bottom.hash) top bottom := by
  have hget : ∀ {hash block},
      (cs.removeBlocksOnFinalized bottom.hash).blocksByHash.get hash = some block ↔
        cs.blocksByHash.get hash = some block ∧ bottom.number ≤ block.number :=
    removeBlocksOnFinalized_get h.sound.indexed h.bottomStored
  have hheader : ∀ hash header,
      (cs.removeBlocksOnFinalized bottom.hash).sealedHeader hash = some header →
        cs.sealedHeader hash = some header := by
    intro hash header hstored
    obtain ⟨block, hblock, rfl⟩ := sealedHeader_eq_some.mp hstored
    exact sealedHeader_eq_some.mpr ⟨block, (hget.mp hblock).1, rfl⟩
  -- a walk that ends at or above the bottom meets blocks numbered above it
  have hkept : ∀ {start stop number stopNumber headers},
      cs.StoredWalk start number headers stop stopNumber → bottom.number ≤ stopNumber →
        (cs.removeBlocksOnFinalized bottom.hash).StoredWalk start number headers stop
          stopNumber := by
    intro start stop number stopNumber headers hwalk hle
    induction hwalk with
    | nil k n => exact .nil k n
    | @cons k a n m header l found height rest ih =>
        obtain ⟨block, hblock, rfl⟩ := sealedHeader_eq_some.mp found
        have hlength := rest.length
        have hheight : block.number = n + 1 := height
        exact .cons (sealedHeader_eq_some.mpr ⟨block, hget.mpr ⟨hblock, by omega⟩, rfl⟩) height
          (ih hle)
  refine
    { sound := h.sound.removeBlocksOnFinalized bottom.hash
      topStored := hget.mpr ⟨h.topStored, h.connected.le⟩
      bottomStored := hget.mpr ⟨h.bottomStored, le_rfl⟩
      connected := ?_
      numbersStep := fun hash header parent hstored hparent =>
        h.numbersStep hash header parent (hheader _ _ hstored) (hheader _ _ hparent)
      canonical := fun number hlow hhigh => ?_ }
  · obtain ⟨headers, hwalk⟩ := h.connected
    exact ⟨headers, hkept hwalk le_rfl⟩
  · obtain ⟨hash, hreach, hcanonical⟩ := h.canonical number hlow hhigh
    refine ⟨hash, hreach, ?_⟩
    rw [removeBlocksOnFinalized_canonical h.bottomStored, if_neg (Nat.not_lt.mpr hlow)]
    exact hcanonical

end ChainState

end ZkRess
