import ZkRess.Verifier.SmallTries

/-!
# The computed state root

A state root that `calculate_state_root` returns is to be that of the state after the
update.  It is so exactly if nothing is lost that was not revealed
(`calculateStateRoot_eq_iff`, `LosesNothing`): where a storage trie is missing, the
update starts from an empty one, whether the storage is empty or was withheld.  An
account value that was withheld does no harm, since its leaf cannot be changed.
-/

namespace ZkRess

open Foundation

namespace TrieExternals

variable {X : TrieExternals} {trie : X.StateTrie} {S : CompleteState} {update : HashedPostState}

/-- **The returned root is the state root after the update exactly if nothing is
lost**, for every order in which the storage tries arrive. -/
theorem calculateStateRoot_eq_iff (hlawful : X.Lawful) {preimage : TriePreimage}
    (hcomputed : (X.computedState trie S update).Conforms X preimage)
    (hupdated : (S.apply X.keccakEmpty update).Conforms X preimage) (hreveals : X.Reveals trie S)
    {schedule : List X.StorageResult → List X.StorageResult}
    (hschedule : ∀ results, (schedule results).Perm results) {root : B256}
    (hok : X.calculateStateRoot schedule trie update = .ok root) :
    root = (S.apply X.keccakEmpty update).stateRoot X ↔ X.LosesNothing trie S update := by
  rw [calculateStateRoot_spec hlawful hcomputed hreveals hschedule hok,
    ← computedState_eq_apply_iff]
  constructor
  · exact CompleteState.eq_of_stateRoot_eq hlawful hcomputed hupdated
  · intro heq
    rw [heq]

end TrieExternals

namespace SmallTries

/-- Slot 1 of the account, and after it slot 2. -/
def firstSlot : Storage := Storage.empty.update ⟨false, (∅ : FiniteMap B256 U256).insert 1 5⟩

/-- An update that writes slot 2 of the account. -/
def writeSecond : HashedStorage := ⟨false, (∅ : FiniteMap B256 U256).insert 2 6⟩

def secondUpdate : HashedPostState where
  accounts := (∅ : FiniteMap B256 (Option Account)).insert address (some ⟨1, 0, none⟩)
  storages := (∅ : FiniteMap B256 HashedStorage).insert address writeSecond

/-- The leaves of slot 1, of both slots, and of slot 2. -/
def slotLeaves : List (FiniteMap B256 Bytes) :=
  [(∅ : FiniteMap B256 Bytes).insert 1 (encodeNat 5),
    ((∅ : FiniteMap B256 Bytes).insert 1 (encodeNat 5)).insert 2 (encodeNat 6),
    (∅ : FiniteMap B256 Bytes).insert 2 (encodeNat 6)]

/-- The storage tries, and account 1 with each of them. -/
def slotTries : List (FiniteMap B256 Bytes) :=
  ∅ :: slotLeaves ++ [1, 2, 3].map fun root =>
    (∅ : FiniteMap B256 Bytes).insert address (encodeTrieAccount ⟨1, 0, root, 0⟩)

def slotExternals : VerifierExternals := externals slotTries fun _ => .done (.ok ⟨∅, ∅⟩)

/-- The account with slot 1, its storage trie revealed or not. -/
def slotTrie (storages : FiniteMap B256 PartlyHidden) : StateTrie :=
  ⟨⟨(oneAccount 1 firstSlot).leaves slotExternals.toTrieExternals, fun _ => false⟩, false, storages⟩

/-- The storage trie with slot 1. -/
def revealedSlot : FiniteMap B256 PartlyHidden :=
  (∅ : FiniteMap B256 PartlyHidden).insert address
    ⟨firstSlot.leaves slotExternals.toTrieExternals, fun _ => false⟩

/-- After the update, the account has both slots. -/
theorem apply_secondUpdate :
    (oneAccount 1 firstSlot).apply slotExternals.keccakEmpty secondUpdate
      = oneAccount 1 (firstSlot.update writeSecond) :=
  congrArg CompleteState.mk (by decide +kernel)

theorem bothSlots_conforms :
    (oneAccount 1 (firstSlot.update writeSecond)).Conforms slotExternals.toTrieExternals
      (preimage slotTries) :=
  oneAccount_conforms (by decide +kernel) (by decide +kernel) (by decide +kernel)

theorem firstSlot_conforms :
    (oneAccount 1 firstSlot).Conforms slotExternals.toTrieExternals (preimage slotTries) :=
  oneAccount_conforms (by decide +kernel) (by decide +kernel) (by decide +kernel)

theorem slotTrie_reveals_revealed :
    slotExternals.Reveals (slotTrie revealedSlot) (oneAccount 1 firstSlot) := by
  refine ⟨rfl, fun address' storage hstorage => ?_⟩
  have hget : revealedSlot.get address' = some storage := hstorage
  unfold revealedSlot at hget
  rw [FiniteMap.get_insert] at hget
  split_ifs at hget with heq
  · obtain rfl := Option.some.inj hget
    rw [heq, storage_oneAccount]
    rfl
  · cases hget

/-- With its storage trie revealed, the account ends with both slots. -/
theorem root_of_revealed_slot :
    (5 : B256) = ((oneAccount 1 firstSlot).apply slotExternals.keccakEmpty
      secondUpdate).stateRoot slotExternals.toTrieExternals := by
  have hnothing : slotExternals.LosesNothing (slotTrie revealedSlot) (oneAccount 1 firstSlot)
      secondUpdate := by
    refine ⟨fun address' hashed hget _ => .inl ?_, fun address' hashed hget hunlisted => ?_⟩
    · unfold secondUpdate at hget
      rw [FiniteMap.get_insert] at hget
      split_ifs at hget with heq
      · show revealedSlot.get address' ≠ none
        unfold revealedSlot
        rw [FiniteMap.get_insert, if_pos heq]
        exact Option.some_ne_none _
      · cases hget
    · unfold secondUpdate at hget hunlisted
      rw [FiniteMap.get_insert] at hget hunlisted
      split_ifs at hget hunlisted
      cases hget
  have hupdated := bothSlots_conforms
  rw [← apply_secondUpdate] at hupdated
  have hcomputed := hupdated
  rw [← TrieExternals.computedState_eq_apply_iff.mpr hnothing] at hcomputed
  have hroot : (slotExternals.calculateStateRoot id (slotTrie revealedSlot) secondUpdate).toOption
      = some 5 := by
    decide +kernel
  exact (TrieExternals.calculateStateRoot_eq_iff externals_lawful hcomputed hupdated
    slotTrie_reveals_revealed (fun _ => List.Perm.refl _)
    (ok_of_toOption hroot)).mpr hnothing

/-- With its storage trie withheld, slot 1 is lost. -/
theorem not_root_of_withheld_slot :
    ¬∀ (X : TrieExternals) (preimage : TrieExternals.TriePreimage) (trie : X.StateTrie)
      (S : CompleteState) (update : HashedPostState)
      (schedule : List X.StorageResult → List X.StorageResult) (root : B256), X.Lawful →
        S.Conforms X preimage → (S.apply X.keccakEmpty update).Conforms X preimage →
        X.Reveals trie S → (∀ results, (schedule results).Perm results) →
        X.calculateStateRoot schedule trie update = .ok root →
          root = (S.apply X.keccakEmpty update).stateRoot X := by
  intro hclaim
  have hupdated := bothSlots_conforms
  rw [← apply_secondUpdate] at hupdated
  have hok : (slotExternals.calculateStateRoot id (slotTrie ∅) secondUpdate).toOption = some 6 := by
    decide +kernel
  have hroot := hclaim slotExternals.toTrieExternals (preimage slotTries) (slotTrie ∅)
    (oneAccount 1 firstSlot) secondUpdate id 6 externals_lawful firstSlot_conforms hupdated
    ⟨rfl, fun _ _ hstorage => nomatch hstorage⟩ (fun _ => List.Perm.refl _)
    (ok_of_toOption hok)
  rw [apply_secondUpdate] at hroot
  exact absurd hroot (by decide +kernel)

end SmallTries

end ZkRess
