import ZkRess.Engine.BufferOperations
import ZkRess.Properties.MissingAncestors

/-!
# The lowest buffered ancestor

The walk of `lowest_ancestor` has no counter: it goes on while the parent is buffered.  It
ends since blocks that make no cycle are met once each, and the buffer is finite.  What it
finds depends on the buffer's blocks alone, so it says nothing about how they came there:
`FindsLowest` holds of any buffer without a cycle, in particular after calls that insert
blocks of one hash function (`findsLowest_of_calls`), with whatever was evicted from the
middle of a branch.
-/

namespace ZkRess

open Foundation

namespace BlockBuffer

variable {P : Type} {buffer : BlockBuffer P} {hash parentHash : B256} {lowest : Block}

/-- **The lowest block of the branch below a hash**: every block from the hash down to it
is buffered, and its parent is not. -/
structure IsLowest (buffer : BlockBuffer P) (hash : B256) (lowest : Block) : Prop where
  connected : ∃ between, buffer.Chain hash (between ++ [lowest]) lowest.parentHash
  gap : buffer.blocks.get lowest.parentHash = none

/-- A buffered block and its buffered parent. -/
def Linked (buffer : BlockBuffer P) (hash parentHash : B256) : Prop :=
  ∃ block parent, buffer.blocks.get hash = some block ∧ block.parentHash = parentHash ∧
    buffer.blocks.get parentHash = some parent

/-- Blocks of one connected branch. -/
def SameBranch (buffer : BlockBuffer P) : B256 → B256 → Prop := Relation.EqvGen buffer.Linked

/-- **What the walk to the lowest ancestor does**, for every hash. -/
structure FindsLowest (buffer : BlockBuffer P) : Prop where
  /-- After fewer rounds than there are buffered blocks the condition of the loop fails. -/
  ends : ∀ hash block, buffer.blocks.get hash = some block → ∃ rounds < buffer.blocks.card,
    buffer.blocks.get (lowestFrom buffer.blocks rounds block).parentHash = none
  absent : ∀ hash, buffer.lowestAncestor hash = none ↔ buffer.blocks.get hash = none
  found : ∀ hash block, buffer.blocks.get hash = some block → ∃ lowest,
    buffer.lowestAncestor hash = some lowest ∧ buffer.IsLowest hash lowest ∧
      ∀ other, buffer.IsLowest hash other → other = lowest
  branch : ∀ hash hash', buffer.SameBranch hash hash' →
    buffer.lowestAncestor hash = buffer.lowestAncestor hash'

/-- Two walks that stop at a gap are one. -/
theorem IsLowest.unique {other : Block} (h : buffer.IsLowest hash lowest)
    (h' : buffer.IsLowest hash other) : other = lowest := by
  obtain ⟨between, hchain⟩ := h.connected
  obtain ⟨between', hchain'⟩ := h'.connected
  obtain ⟨hsame, -⟩ := hchain'.unique_of_stop h'.gap hchain h.gap
  simpa using (List.append_inj' hsame rfl).2

/-- What is lowest for the parent is lowest for the block. -/
theorem IsLowest.of_parent (hlinked : buffer.Linked hash parentHash)
    (h : buffer.IsLowest parentHash lowest) : buffer.IsLowest hash lowest := by
  obtain ⟨block, parent, hblock, rfl, -⟩ := hlinked
  obtain ⟨between, hchain⟩ := h.connected
  exact ⟨⟨block :: between, .cons hblock hchain⟩, h.gap⟩

theorem lowestAncestor_eq_none_iff : buffer.lowestAncestor hash = none ↔
    buffer.blocks.get hash = none := by
  simp [lowestAncestor]

section Acyclic

variable (hacyclic : NoReturn buffer.blocks.get fun block => block.parentHash)

include hacyclic

/-- **The ancestor found is the lowest**, and no other block is. -/
theorem lowestAncestor_eq_some_iff :
    buffer.lowestAncestor hash = some lowest ↔ buffer.IsLowest hash lowest := by
  have hfinds : ∀ {found}, buffer.lowestAncestor hash = some found → buffer.IsLowest hash found :=
    fun hfound => ⟨lowestAncestor_path hfound, lowestAncestor_parent hacyclic hfound⟩
  refine ⟨hfinds, fun hlowest => ?_⟩
  match hfound : buffer.lowestAncestor hash with
  | some found => rw [hlowest.unique (hfinds hfound)]
  | none =>
      -- the walk to the lowest block begins at a buffered one
      exfalso
      have habsent := lowestAncestor_eq_none_iff.mp hfound
      obtain ⟨between, hchain⟩ := hlowest.connected
      have hlength := (Path.nil hash).length_le_of_stop habsent hchain
      simp at hlength

/-- A block has the lowest ancestor of its buffered parent. -/
theorem lowestAncestor_linked (hlinked : buffer.Linked hash parentHash) :
    buffer.lowestAncestor hash = buffer.lowestAncestor parentHash := by
  match hparent : buffer.lowestAncestor parentHash with
  | some lowest =>
      rw [lowestAncestor_eq_some_iff hacyclic] at hparent ⊢
      exact hparent.of_parent hlinked
  | none =>
      obtain ⟨block, parent, -, -, hget⟩ := hlinked
      rw [lowestAncestor_eq_none_iff, hget] at hparent
      cases hparent

theorem lowestAncestor_sameBranch {hash' : B256} (hbranch : buffer.SameBranch hash hash') :
    buffer.lowestAncestor hash = buffer.lowestAncestor hash' := by
  induction hbranch with
  | rel hash parentHash hlinked => exact lowestAncestor_linked hacyclic hlinked
  | refl hash => rfl
  | symm hash hash' _ ih => exact ih.symm
  | trans hash middle hash' _ _ ih ih' => exact ih.trans ih'

theorem findsLowest_of_noReturn : buffer.FindsLowest where
  ends hash block hblock := by
    have hpos := KeyedMap.length_le_card (List.nodup_singleton hash) fun key hkey =>
      ⟨block, by rwa [List.mem_singleton.mp hkey]⟩
    rw [List.length_singleton] at hpos
    exact ⟨buffer.blocks.card - 1, by omega, lowestFrom_parent hacyclic (by omega) hblock⟩
  absent hash := lowestAncestor_eq_none_iff
  found hash block hblock := by
    match hfound : buffer.lowestAncestor hash with
    | some lowest =>
        have hlowest := (lowestAncestor_eq_some_iff hacyclic).mp hfound
        exact ⟨lowest, rfl, hlowest, fun other => hlowest.unique⟩
    | none =>
        rw [lowestAncestor_eq_none_iff, hblock] at hfound
        cases hfound
  branch hash hash' := lowestAncestor_sameBranch hacyclic

end Acyclic

/-- Blocks of one hash function make no cycle, whatever was inserted and evicted. -/
theorem Sound.noReturn {preimage : Preimage} (h : buffer.Sound preimage)
    (hacyclic : NoReturn preimage fun header => header.parentHash) :
    NoReturn buffer.blocks.get fun block => block.parentHash :=
  hacyclic.of_map Block.toSealedHeader (fun hash block hget => by
    rw [← hash_of_get hget]
    exact h.conforms hash block hget) fun _ => rfl

/-- **In every run of the buffer's methods** the lowest ancestors are found. -/
theorem findsLowest_of_calls {limit : ℕ} (hlimit : 1 ≤ limit) {preimage : Preimage}
    (hacyclic : NoReturn preimage fun header => header.parentHash) {ops : List (BufferOp P)}
    (hops : ∀ op ∈ ops, op.Conforms preimage) :
    ((BlockBuffer.new limit).applyAll ops).FindsLowest :=
  findsLowest_of_noReturn (((Sound.new hlimit).applyAll hops).noReturn hacyclic)

end BlockBuffer

/-- **The lowest buffered ancestor.**  In a tree whose buffered blocks make no cycle the walk
ends for every hash, with the lowest block of the branch, which all blocks of the branch
share; and what is checked instead of a hash is not buffered. -/
theorem EngineTree.findsLowest {X : Externals} (tree : EngineTree X)
    (hacyclic : NoReturn tree.blockBuffer.blocks.get fun block => block.parentHash) :
    tree.blockBuffer.FindsLowest ∧
      ∀ hash, tree.blockBuffer.blocks.get (tree.lowestBufferedAncestorOr hash) = none := by
  refine ⟨BlockBuffer.findsLowest_of_noReturn hacyclic, fun hash => ?_⟩
  obtain ⟨-, -, hgap⟩ := tree.lowestBufferedAncestorOr_chain hacyclic hash
  exact hgap

namespace SmallWorld

open ConsensusEngine

/-- A chain of three, and a block elsewhere. -/
def withGap : List Block := [block 2 1 1, block 3 2 2, block 4 3 3, block 6 5 2]

/-- In a buffer of three places the first of the chain is evicted. -/
def gapped : BlockBuffer Bool := (BlockBuffer.new 3).applyAll (withGap.map .insertBlock)

private theorem gapped_noReturn : NoReturn gapped.blocks.get fun block => block.parentHash := by
  have hconform : ∀ block ∈ withGap, block.toSealedHeader.Conforms (preimageOf forkHeaders) := by
    decide +kernel
  refine ((BlockBuffer.Sound.new (by decide)).applyAll fun op hmem => ?_).noReturn fork_acyclic
  obtain ⟨block, hblock, rfl⟩ := List.mem_map.mp hmem
  exact hconform block hblock

/-- The lowest ancestors move up to the second of the chain. -/
theorem findsLowest_of_gapped :
    (gapped.FindsLowest ∧
      ∀ hash, gapped.blocks.get
        (EngineTree.lowestBufferedAncestorOr
          { (launch externals (block 1 0 0)).tree with blockBuffer := gapped } hash) = none) ∧
      [4, 3, 2, 6].map (fun hash => (gapped.lowestAncestor hash).map fun lowest => lowest.hash)
        = [some 3, some 3, none, some 6] :=
  ⟨EngineTree.findsLowest { (launch externals (block 1 0 0)).tree with blockBuffer := gapped }
    gapped_noReturn, by decide +kernel⟩

end SmallWorld

end ZkRess
