import ZkRess.Evm.SparseStateTrie

/-!
# The state root after an update

`calculate_state_root` of `root.rs`.  The storage tries of the update are taken out of
the state trie and updated in parallel; their results come back over a channel, in an
order that `schedule` stands for, and are put back.  Then the accounts are updated, in
the order of their hashed addresses.

What is computed is the root of *some* complete state: `computedState`, in which a
storage of which nothing is revealed starts empty, and a storage whose account is not
listed stays as it is.  `calculateStateRoot_spec` shows this, and
`computedState_eq_apply_iff` says when it is the state after the update.
-/

namespace ZkRess

open Foundation

namespace TrieExternals

variable (X : TrieExternals)

/-- What the update of a storage trie sends over the channel. -/
abbrev StorageResult := Except X.StateTrieError (B256 × X.sparseTrie.Carrier)

/-- The slots to write, in ascending order; a zero value removes the leaf. -/
def slotWrites (hashed : HashedStorage) : List (B256 × Option Bytes) :=
  (hashed.storage.sortedEntries (· ≤ ·)).map fun entry =>
    (entry.1, if entry.2 = 0 then none else some (X.encodeU256 entry.2))

/-- Update one storage trie. -/
def updateStorage (address : B256) (hashed : HashedStorage)
    (storageTrie : Option X.sparseTrie.Carrier) : X.StorageResult :=
  let storageTrie := storageTrie.getD X.sparseTrie.empty
  match if hashed.wiped then X.sparseTrie.wipe storageTrie else .ok storageTrie with
  | .error error => .error (X.ofTrieError error)
  | .ok storageTrie =>
      match X.sparseTrie.writeAll storageTrie (X.slotWrites hashed) with
      | .error error => .error (X.ofTrieError error)
      | .ok storageTrie => .ok (address, (X.sparseTrie.root storageTrie).2)

/-- Take the storage tries of the update out, and update them. -/
def updateStorages : List (B256 × HashedStorage) → X.StateTrie →
    List X.StorageResult × X.StateTrie
  | [], trie => ([], trie)
  | (address, hashed) :: storages, trie =>
      let (storageTrie, trie) := X.takeStorageTrie trie address
      let (results, trie) := updateStorages storages trie
      (X.updateStorage address hashed storageTrie :: results, trie)

/-- Put the storage tries back, in the order they arrive, up to the first error. -/
def insertStorages : List X.StorageResult → X.StateTrie → Except X.StateTrieError X.StateTrie
  | [], trie => .ok trie
  | .error error :: _, _ => .error error
  | .ok (address, storageTrie) :: results, trie =>
      insertStorages results (X.insertStorageTrie trie address storageTrie)

/-- The storage root of an account. -/
def storageRoot (trie : X.StateTrie) (address : B256) :
    Except X.StateTrieError (B256 × X.StateTrie) :=
  match X.storageTrieMut trie address with
  | some storageTrie =>
      let (root, storageTrie) := X.sparseTrie.root storageTrie
      .ok (root, X.insertStorageTrie trie address storageTrie)
  | none =>
      match X.getAccountValue trie address with
      | some value =>
          match X.decodeTrieAccount value with
          | .error error => .error (X.ofRlpError error)
          | .ok account => .ok (account.storageRoot, trie)
      | none => .ok (X.emptyRootHash, trie)

/-- Update one account. -/
def updateAccount (trie : X.StateTrie) (address : B256) (account : Option Account) :
    Except X.StateTrieError X.StateTrie :=
  let account := account.getD .default
  match X.storageRoot trie address with
  | .error error => .error error
  | .ok (storageRoot, trie) =>
      if account.IsEmpty X.keccakEmpty ∧ storageRoot = X.emptyRootHash then
        X.removeAccountLeaf trie address
      else
        X.updateAccountLeaf trie address
          (X.encodeTrieAccount (account.intoTrieAccount X.keccakEmpty storageRoot))

/-- Update the accounts, up to the first error. -/
def updateAccounts : List (B256 × Option Account) → X.StateTrie →
    Except X.StateTrieError X.StateTrie
  | [], trie => .ok trie
  | (address, account) :: accounts, trie =>
      match X.updateAccount trie address account with
      | .error error => .error error
      | .ok trie => updateAccounts accounts trie

/-- Compute the state root given a revealed sparse trie and hashed state update. -/
def calculateStateRoot (schedule : List X.StorageResult → List X.StorageResult)
    (trie : X.StateTrie) (state : HashedPostState) : Except X.StateTrieError B256 :=
  let (results, trie) := X.updateStorages (state.storages.sortedEntries (· ≤ ·)) trie
  match X.insertStorages (schedule results) trie with
  | .error error => .error error
  | .ok trie =>
      match X.updateAccounts (state.accounts.sortedEntries (· ≤ ·)) trie with
      | .error error => .error error
      | .ok trie => X.root trie

/-! ## The state whose root is computed -/

/-- The storage an update starts from: empty if nothing of it is revealed. -/
def revealedStorage (trie : X.StateTrie) (S : CompleteState) (address : B256) : Storage :=
  match X.storageTrie trie address with
  | some _ => S.storage address
  | none => .empty

/-- The storage after the update, as far as the old one is revealed. -/
def writtenStorage (trie : X.StateTrie) (S : CompleteState) (update : HashedPostState)
    (address : B256) : Storage :=
  match update.storages.get address with
  | some hashed => (X.revealedStorage trie S address).update hashed
  | none => S.storage address

/-- The account after the update: only the listed ones change. -/
def computedAccount (trie : X.StateTrie) (S : CompleteState) (update : HashedPostState)
    (address : B256) : Option FullAccount :=
  match update.accounts.get address with
  | some account =>
      CompleteState.givenAccount X.keccakEmpty account (X.writtenStorage trie S update address)
  | none => S.accounts.get address

/-- The complete state whose root is computed. -/
def computedState (trie : X.StateTrie) (S : CompleteState) (update : HashedPostState) :
    CompleteState where
  accounts :=
    .tabulate (S.accounts.keys ∪ update.accounts.keys) (X.computedAccount trie S update)

variable {X} {trie trie' : X.StateTrie} {S : CompleteState} {update : HashedPostState}

theorem get_computedState (address : B256) :
    (X.computedState trie S update).accounts.get address
      = X.computedAccount trie S update address := by
  refine FiniteMap.get_tabulate_of_forall (fun address' hmem => ?_) address
  rw [Finset.mem_union, not_or] at hmem
  unfold computedAccount
  rw [FiniteMap.get_eq_none_of_not_mem_keys hmem.1, FiniteMap.get_eq_none_of_not_mem_keys hmem.2]

/-! ## Storage tries -/

/-- Writing the slots of an update to the leaves of a storage. -/
theorem leaves_writeAll (storage : Storage) (hashed : HashedStorage) :
    (if hashed.wiped then ∅ else storage.leaves X).writeAll (X.slotWrites hashed)
      = (storage.update hashed).leaves X := by
  have hdistinct : (X.slotWrites hashed).Pairwise fun e e' => e.1 ≠ e'.1 := by
    unfold slotWrites
    rw [List.pairwise_map]
    exact FiniteMap.sortedEntries_pairwise _ _
  refine FiniteMap.ext_get fun slot => ?_
  rw [Storage.get_leaves, Storage.value_update]
  unfold Storage.updatedValue
  cases hget : hashed.storage.get slot with
  | some value =>
      refine FiniteMap.get_writeAll_of_mem hdistinct ?_ _
      exact List.mem_map.mpr ⟨(slot, value), (FiniteMap.mem_sortedEntries _).mpr hget, rfl⟩
  | none =>
      rw [FiniteMap.get_writeAll_of_forall_ne]
      · by_cases hwiped : hashed.wiped
        · simp [hwiped]
        · simp only [hwiped]
          exact Storage.get_leaves _ _
      · intro e he heq
        obtain ⟨⟨slot', value⟩, hmem, rfl⟩ := List.mem_map.mp he
        obtain rfl : slot' = slot := heq
        cases hget.symm.trans ((FiniteMap.mem_sortedEntries _).mp hmem)

/-- An updated storage trie is a part of the storage written. -/
theorem updateStorage_ok (hlawful : X.Lawful) (hreveals : X.Reveals trie S) {address : B256}
    {hashed : HashedStorage} {result : B256 × X.sparseTrie.Carrier}
    (hok : X.updateStorage address hashed (X.storageTrie trie address) = .ok result) :
    result.1 = address ∧ X.sparseTrie.Reveals result.2
      (((X.revealedStorage trie S address).update hashed).leaves X) := by
  have hstart : X.sparseTrie.Reveals ((X.storageTrie trie address).getD X.sparseTrie.empty)
      ((X.revealedStorage trie S address).leaves X) := by
    unfold revealedStorage
    cases htrie : X.storageTrie trie address with
    | none =>
        rw [Storage.leaves_empty]
        exact hlawful.trie.reveals_empty
    | some storageTrie => exact hreveals.storages address storageTrie htrie
  unfold updateStorage at hok
  simp only at hok
  split at hok
  · cases hok
  · next wiped hwipe =>
    have hwiped : X.sparseTrie.Reveals wiped
        (if hashed.wiped then ∅ else (X.revealedStorage trie S address).leaves X) := by
      by_cases hasked : hashed.wiped
      · rw [if_pos hasked] at hwipe ⊢
        exact hlawful.trie.reveals_wipe hstart hwipe
      · rw [if_neg hasked] at hwipe ⊢
        obtain rfl := Except.ok.inj hwipe
        exact hstart
    split at hok
    · cases hok
    · next written hwrite =>
      obtain rfl := Except.ok.inj hok
      refine ⟨rfl, ?_⟩
      rw [← leaves_writeAll]
      exact hlawful.trie.reveals_root (hlawful.trie.reveals_writeAll hwiped hwrite)

/-- The storage tries of the update are taken from the state trie. -/
theorem updateStorages_spec (hlawful : X.Lawful) (trie : X.StateTrie)
    (storages : List (B256 × HashedStorage))
    (hdistinct : storages.Pairwise fun e e' => e.1 ≠ e'.1) :
    (X.updateStorages storages trie).1
        = storages.map (fun e => X.updateStorage e.1 e.2 (X.storageTrie trie e.1)) ∧
      X.accountTrie (X.updateStorages storages trie).2 = X.accountTrie trie ∧
      ∀ address, (∀ e ∈ storages, e.1 ≠ address) →
        X.storageTrie (X.updateStorages storages trie).2 address = X.storageTrie trie address := by
  induction storages generalizing trie with
  | nil => exact ⟨rfl, rfl, fun _ _ => rfl⟩
  | cons e storages ih =>
      obtain ⟨address, hashed⟩ := e
      obtain ⟨hne, hdistinct⟩ := List.pairwise_cons.mp hdistinct
      obtain ⟨hresults, haccounts, hstorages⟩ :=
        ih (X.takeStorageTrie trie address).2 hdistinct
      simp only [updateStorages]
      refine ⟨?_, haccounts.trans (hlawful.accountTrie_take _ _), fun address' hother => ?_⟩
      · rw [List.map_cons, hresults, hlawful.takeStorageTrie_eq]
        congr 1
        refine List.map_congr_left fun e he => ?_
        rw [hlawful.storageTrie_take, if_neg fun heq => hne e he heq.symm]
      · rw [hstorages address' fun e he => hother e (List.mem_cons_of_mem _ he),
          hlawful.storageTrie_take,
          if_neg fun heq => hother _ List.mem_cons_self heq.symm]

/-- Putting tries back, one for each address, whatever the order. -/
theorem insertStorages_ok (hlawful : X.Lawful) {results : List X.StorageResult}
    (hone : ∀ address storageTrie storageTrie', .ok (address, storageTrie) ∈ results →
      .ok (address, storageTrie') ∈ results → storageTrie = storageTrie')
    (hok : X.insertStorages results trie = .ok trie') :
    X.accountTrie trie' = X.accountTrie trie ∧
      (∀ result ∈ results, ∃ entry, result = .ok entry) ∧
      (∀ address storageTrie, .ok (address, storageTrie) ∈ results →
        X.storageTrie trie' address = some storageTrie) ∧
      (∀ address, (∀ storageTrie, .ok (address, storageTrie) ∉ results) →
        X.storageTrie trie' address = X.storageTrie trie address) := by
  induction results generalizing trie with
  | nil =>
      obtain rfl : trie = trie' := Except.ok.inj hok
      exact ⟨rfl, fun _ hmem => (nomatch hmem), fun _ _ hmem => (nomatch hmem), fun _ _ => rfl⟩
  | cons result results ih =>
      match result with
      | .error error => cases hok
      | .ok (address, storageTrie) =>
          obtain ⟨haccounts, hall, hin, hout⟩ :=
            ih (fun a t t' hmem hmem' => hone a t t' (List.mem_cons_of_mem _ hmem)
              (List.mem_cons_of_mem _ hmem')) hok
          refine ⟨haccounts.trans (hlawful.accountTrie_insert _ _ _), ?_, ?_, ?_⟩
          · intro result hmem
            rcases List.mem_cons.mp hmem with rfl | hmem
            · exact ⟨_, rfl⟩
            · exact hall result hmem
          · intro address' storageTrie' hmem
            by_cases hlater : ∃ t, .ok (address', t) ∈ results
            · obtain ⟨t, ht⟩ := hlater
              rw [hone address' storageTrie' t hmem (List.mem_cons_of_mem _ ht)]
              exact hin address' t ht
            · rw [hout address' fun t ht => hlater ⟨t, ht⟩, hlawful.storageTrie_insert]
              rcases List.mem_cons.mp hmem with heq | hmem
              · obtain ⟨rfl, rfl⟩ := Prod.mk.inj (Except.ok.inj heq)
                exact if_pos rfl
              · exact absurd ⟨_, hmem⟩ hlater
          · intro address' hnone
            rw [hout address' fun t ht => hnone t (List.mem_cons_of_mem _ ht),
              hlawful.storageTrie_insert, if_neg]
            rintro rfl
            exact hnone storageTrie List.mem_cons_self

/-- **Between the two phases**: the account trie is a part of the old accounts, each
storage trie of the storage written, and where there is none, none was written. -/
structure StoragesWritten (X : TrieExternals) (trie₀ : X.StateTrie) (S : CompleteState)
    (update : HashedPostState) (trie : X.StateTrie) : Prop where
  reveals : ∀ address storageTrie, X.storageTrie trie address = some storageTrie →
    X.sparseTrie.Reveals storageTrie ((X.writtenStorage trie₀ S update address).leaves X)
  unwritten : ∀ address, X.storageTrie trie address = none →
    X.writtenStorage trie₀ S update address = S.storage address

/-- The first phase, for every order of arrival. -/
theorem storagesWritten (hlawful : X.Lawful) (hreveals : X.Reveals trie S)
    {results : List X.StorageResult}
    (harrived : results.Perm (X.updateStorages (update.storages.sortedEntries (· ≤ ·)) trie).1)
    (hok : X.insertStorages results
      (X.updateStorages (update.storages.sortedEntries (· ≤ ·)) trie).2 = .ok trie') :
    X.accountTrie trie' = X.accountTrie trie ∧ StoragesWritten X trie S update trie' := by
  obtain ⟨hresults, haccounts, hstorages⟩ := updateStorages_spec hlawful trie
    (update.storages.sortedEntries (· ≤ ·)) (FiniteMap.sortedEntries_pairwise _ _)
  rw [hresults] at harrived
  have hmem : ∀ address storageTrie, .ok (address, storageTrie) ∈ results ↔
      ∃ hashed, update.storages.get address = some hashed ∧
        X.updateStorage address hashed (X.storageTrie trie address)
          = .ok (address, storageTrie) := by
    intro address storageTrie
    rw [harrived.mem_iff, List.mem_map]
    constructor
    · rintro ⟨⟨address', hashed⟩, hentry, hresult⟩
      obtain rfl : address = address' := (updateStorage_ok hlawful hreveals hresult).1
      exact ⟨hashed, (FiniteMap.mem_sortedEntries _).mp hentry, hresult⟩
    · rintro ⟨hashed, hget, hresult⟩
      exact ⟨(address, hashed), (FiniteMap.mem_sortedEntries _).mpr hget, hresult⟩
  have hone : ∀ address storageTrie storageTrie', .ok (address, storageTrie) ∈ results →
      .ok (address, storageTrie') ∈ results → storageTrie = storageTrie' := by
    intro address storageTrie storageTrie' h h'
    obtain ⟨hashed, hget, hresult⟩ := (hmem _ _).mp h
    obtain ⟨hashed', hget', hresult'⟩ := (hmem _ _).mp h'
    obtain rfl : hashed = hashed' := Option.some.inj (hget.symm.trans hget')
    exact congrArg Prod.snd (Except.ok.inj (hresult.symm.trans hresult'))
  obtain ⟨haccounts', hall, hin, hout⟩ := insertStorages_ok hlawful hone hok
  -- a storage of the update has a trie, that of its result
  have hwritten : ∀ address hashed, update.storages.get address = some hashed →
      ∃ storageTrie, X.storageTrie trie' address = some storageTrie ∧
        X.sparseTrie.Reveals storageTrie
          (((X.revealedStorage trie S address).update hashed).leaves X) := by
    intro address hashed hget
    obtain ⟨⟨address', storageTrie⟩, hresult⟩ := hall _ (harrived.mem_iff.mpr
      (List.mem_map.mpr ⟨(address, hashed), (FiniteMap.mem_sortedEntries _).mpr hget, rfl⟩))
    obtain ⟨rfl, hpart⟩ := updateStorage_ok hlawful hreveals hresult
    exact ⟨storageTrie, hin _ _ ((hmem _ _).mpr ⟨hashed, hget, hresult⟩), hpart⟩
  have huntouched : ∀ address, update.storages.get address = none →
      X.storageTrie trie' address = X.storageTrie trie address := by
    intro address hget
    rw [hout address, hstorages address]
    · intro e he heq
      have hentry := (FiniteMap.mem_sortedEntries (k := e.1) (v := e.2) _).mp he
      rw [heq, hget] at hentry
      cases hentry
    · intro storageTrie h
      obtain ⟨hashed, hget', -⟩ := (hmem _ _).mp h
      cases hget.symm.trans hget'
  refine ⟨haccounts'.trans haccounts, fun address storageTrie htrie => ?_, fun address htrie => ?_⟩
  · unfold writtenStorage
    cases hget : update.storages.get address with
    | none =>
        rw [huntouched address hget] at htrie
        exact hreveals.storages address storageTrie htrie
    | some hashed =>
        obtain ⟨storageTrie', htrie', hpart⟩ := hwritten address hashed hget
        obtain rfl : storageTrie = storageTrie' := Option.some.inj (htrie.symm.trans htrie')
        exact hpart
  · unfold writtenStorage
    cases hget : update.storages.get address with
    | none => rfl
    | some hashed =>
        obtain ⟨storageTrie', htrie', -⟩ := hwritten address hashed hget
        cases htrie.symm.trans htrie'

/-! ## Accounts -/

/-- The leaf an account of the update ends with. -/
def writtenLeaf (X : TrieExternals) (trie₀ : X.StateTrie) (S : CompleteState)
    (update : HashedPostState) (entry : B256 × Option Account) : B256 × Option Bytes :=
  (entry.1, (CompleteState.givenAccount X.keccakEmpty entry.2
    (X.writtenStorage trie₀ S update entry.1)).map fun account =>
      X.encodeTrieAccount (account.trieAccount X))

/-- A storage written for a listed account is empty if its root is the empty one and
the account is empty. -/
theorem isEmpty_and_root_iff (hlawful : X.Lawful) {preimage : TriePreimage}
    (hconforms : (X.computedState trie S update).Conforms X preimage) {address : B256}
    {account : Option Account} (hget : update.accounts.get address = some account) :
    (account.getD .default).IsEmpty X.keccakEmpty ∧
        (X.writtenStorage trie S update address).root X = X.emptyRootHash ↔
      (account.getD .default).IsEmpty X.keccakEmpty ∧
        X.writtenStorage trie S update address = .empty := by
  refine and_congr_right fun hempty => ⟨fun hroot => ?_, fun hstorage => ?_⟩
  · by_contra hne
    -- the storage would be that of an account of the computed state
    have hcomputed : (X.computedState trie S update).accounts.get address = _ :=
      get_computedState address
    unfold computedAccount CompleteState.givenAccount at hcomputed
    rw [hget] at hcomputed
    simp only [hne, and_false, if_false] at hcomputed
    have hpreimage := hconforms.storages address _ hcomputed
    simp only at hpreimage
    rw [hroot, ← hlawful.commit_empty, hconforms.empty] at hpreimage
    apply hne
    apply Storage.leaves_injective hlawful
    rw [Storage.leaves_empty]
    exact (Option.some.inj hpreimage).symm
  · rw [hstorage, Storage.root, Storage.leaves_empty]
    exact hlawful.commit_empty

/-- The storage root found for an account is that of the storage written, provided
its path is revealed. -/
theorem storageRoot_ok (hlawful : X.Lawful) {trie₀ : X.StateTrie} {m : FiniteMap B256 Bytes}
    (hreveals : X.sparseTrie.Reveals (X.accountTrie trie) m)
    (hwritten : StoragesWritten X trie₀ S update trie) {address : B256}
    (hm : m.get address = (S.leaves X).get address) {root : B256}
    (hok : X.storageRoot trie address = .ok (root, trie')) :
    X.accountTrie trie' = X.accountTrie trie ∧ StoragesWritten X trie₀ S update trie' ∧
      (X.sparseTrie.shows (X.accountTrie trie) address ≠ none →
        root = (X.writtenStorage trie₀ S update address).root X) := by
  unfold storageRoot at hok
  rw [hlawful.storageTrieMut_eq] at hok
  cases htrie : X.storageTrie trie address with
  | some storageTrie =>
      rw [htrie] at hok
      obtain ⟨rfl, rfl⟩ := Prod.mk.inj (Except.ok.inj hok)
      have hpart := hwritten.reveals address storageTrie htrie
      refine ⟨hlawful.accountTrie_insert _ _ _, ⟨fun address' storageTrie' htrie' => ?_,
        fun address' htrie' => ?_⟩, fun _ => hlawful.trie.root_eq hpart⟩
      · rw [hlawful.storageTrie_insert] at htrie'
        split_ifs at htrie' with heq
        · obtain rfl := Option.some.inj htrie'
          rw [heq]
          exact hlawful.trie.reveals_root hpart
        · exact hwritten.reveals address' storageTrie' htrie'
      · rw [hlawful.storageTrie_insert] at htrie'
        split_ifs at htrie'
        exact hwritten.unwritten address' htrie'
  | none =>
      have hstorage := hwritten.unwritten address htrie
      rw [htrie, hlawful.getAccountValue_eq] at hok
      simp only at hok
      cases hvalue : X.sparseTrie.valueOf (X.accountTrie trie) address with
      | some value =>
          rw [hvalue] at hok
          have hleaf := hlawful.trie.get_of_valueOf hreveals hvalue
          rw [hm, CompleteState.get_leaves] at hleaf
          obtain ⟨account, hget, rfl⟩ := Option.map_eq_some_iff.mp hleaf
          simp only [hlawful.decode_trieAccount] at hok
          obtain ⟨rfl, rfl⟩ := Prod.mk.inj (Except.ok.inj hok)
          refine ⟨rfl, hwritten, fun _ => ?_⟩
          rw [hstorage, CompleteState.storage, hget]
          rfl
      | none =>
          rw [hvalue] at hok
          obtain ⟨rfl, rfl⟩ := Prod.mk.inj (Except.ok.inj hok)
          refine ⟨rfl, hwritten, fun hshows => ?_⟩
          have habsent := (hlawful.trie.valueOf_eq_iff hreveals).mpr (.inl hshows)
          rw [hvalue, hm, CompleteState.get_leaves] at habsent
          have hnone := Option.map_eq_none_iff.mp habsent.symm
          rw [hstorage, CompleteState.storage, hnone, ← hlawful.commit_empty]
          show _ = X.sparseTrie.commit (Storage.empty.leaves X)
          rw [Storage.leaves_empty]

/-- **One account**: its leaf becomes that of the computed state. -/
theorem updateAccount_ok (hlawful : X.Lawful) {preimage : TriePreimage} {trie₀ : X.StateTrie}
    (hconforms : (X.computedState trie₀ S update).Conforms X preimage)
    {m : FiniteMap B256 Bytes} (hreveals : X.sparseTrie.Reveals (X.accountTrie trie) m)
    (hwritten : StoragesWritten X trie₀ S update trie) {entry : B256 × Option Account}
    (hget : update.accounts.get entry.1 = some entry.2)
    (hm : m.get entry.1 = (S.leaves X).get entry.1)
    (hok : X.updateAccount trie entry.1 entry.2 = .ok trie') :
    X.sparseTrie.Reveals (X.accountTrie trie')
        (m.write entry.1 (writtenLeaf X trie₀ S update entry).2) ∧
      StoragesWritten X trie₀ S update trie' := by
  unfold updateAccount at hok
  simp only at hok
  split at hok
  · cases hok
  · next root between hroot =>
    obtain ⟨haccounts, hbetween, hrootEq⟩ := storageRoot_ok hlawful hreveals hwritten hm hroot
    have hiff := isEmpty_and_root_iff hlawful hconforms hget
    have hpart : X.sparseTrie.Reveals (X.accountTrie between) m := haccounts ▸ hreveals
    -- both ways to change the leaf fail on a hidden path, so the storage root is right
    have hleaf : ∀ trie'' leaf, X.sparseTrie.write (X.accountTrie between) entry.1 leaf
          = .ok (X.accountTrie trie'') →
        root = (X.writtenStorage trie₀ S update entry.1).root X := by
      intro trie'' leaf hwrite
      apply hrootEq
      rw [← haccounts]
      exact hlawful.trie.shown_of_write hpart hwrite
    have hkept : ∀ {trie''}, (∀ a, X.storageTrie trie'' a = X.storageTrie between a) →
        StoragesWritten X trie₀ S update trie'' := fun hsame =>
      ⟨fun a t ht => hbetween.reveals a t ((hsame a).symm.trans ht),
        fun a ht => hbetween.unwritten a ((hsame a).symm.trans ht)⟩
    split at hok
    · next hremove =>
      obtain ⟨hwrite, hsame⟩ := hlawful.removeAccountLeaf_ok hok
      rw [hleaf trie' none hwrite, hiff] at hremove
      have hnone : (writtenLeaf X trie₀ S update entry).2 = none := by
        unfold writtenLeaf CompleteState.givenAccount
        simp only [if_pos hremove, Option.map_none]
      rw [hnone]
      exact ⟨hlawful.trie.reveals_remove hpart hwrite, hkept hsame⟩
    · next hupdate =>
      obtain ⟨hwrite, hsame⟩ := hlawful.updateAccountLeaf_ok hok
      have hright := hleaf trie' (some _) hwrite
      rw [hright, hiff] at hupdate
      have hsome : (writtenLeaf X trie₀ S update entry).2 = some (X.encodeTrieAccount
          ((entry.2.getD .default).intoTrieAccount X.keccakEmpty root)) := by
        unfold writtenLeaf CompleteState.givenAccount
        simp only [if_neg hupdate, Option.map_some]
        rw [hright]
        rfl
      rw [hsome]
      exact ⟨hlawful.trie.reveals_update hpart hwrite, hkept hsame⟩

/-- **All accounts**, by induction on the list: what is not written yet is still what
it was. -/
theorem updateAccounts_ok (hlawful : X.Lawful) {preimage : TriePreimage} {trie₀ : X.StateTrie}
    (hconforms : (X.computedState trie₀ S update).Conforms X preimage)
    {accounts : List (B256 × Option Account)}
    (hdistinct : accounts.Pairwise fun e e' => e.1 ≠ e'.1)
    (hlisted : ∀ e ∈ accounts, update.accounts.get e.1 = some e.2) {m : FiniteMap B256 Bytes}
    (hreveals : X.sparseTrie.Reveals (X.accountTrie trie) m)
    (hwritten : StoragesWritten X trie₀ S update trie)
    (hm : ∀ e ∈ accounts, m.get e.1 = (S.leaves X).get e.1)
    (hok : X.updateAccounts accounts trie = .ok trie') :
    X.sparseTrie.Reveals (X.accountTrie trie')
      (m.writeAll (accounts.map (writtenLeaf X trie₀ S update))) := by
  induction accounts generalizing trie m with
  | nil =>
      obtain rfl : trie = trie' := Except.ok.inj hok
      exact hreveals
  | cons entry accounts ih =>
      obtain ⟨hne, hdistinct⟩ := List.pairwise_cons.mp hdistinct
      unfold updateAccounts at hok
      split at hok
      · cases hok
      · next trie₁ hone =>
        obtain ⟨hpart, hkept⟩ := updateAccount_ok hlawful hconforms hreveals hwritten
          (hlisted entry List.mem_cons_self) (hm entry List.mem_cons_self) hone
        refine ih hdistinct (fun e he => hlisted e (List.mem_cons_of_mem _ he)) hpart hkept
          (fun e he => ?_) hok
        rw [FiniteMap.get_write, if_neg fun heq => hne e he heq.symm]
        exact hm e (List.mem_cons_of_mem _ he)

/-- **The computed root** is the state root of the computed state, for every order in
which the storage tries arrive. -/
theorem calculateStateRoot_spec (hlawful : X.Lawful) {preimage : TriePreimage}
    (hconforms : (X.computedState trie S update).Conforms X preimage)
    (hreveals : X.Reveals trie S) {schedule : List X.StorageResult → List X.StorageResult}
    (hschedule : ∀ results, (schedule results).Perm results) {root : B256}
    (hok : X.calculateStateRoot schedule trie update = .ok root) :
    root = (X.computedState trie S update).stateRoot X := by
  unfold calculateStateRoot at hok
  simp only at hok
  split at hok
  · cases hok
  · next trie₁ hinsert =>
    obtain ⟨haccounts, hwritten⟩ := storagesWritten hlawful hreveals (hschedule _) hinsert
    split at hok
    · cases hok
    · next trie₂ hupdate =>
      have hstart : X.sparseTrie.Reveals (X.accountTrie trie₁) (S.leaves X) :=
        haccounts ▸ hreveals.accounts
      have hdistinct := FiniteMap.sortedEntries_pairwise (· ≤ ·) update.accounts
      have hend := updateAccounts_ok hlawful hconforms hdistinct
        (fun e he => (FiniteMap.mem_sortedEntries _).mp he) hstart hwritten (fun _ _ => rfl) hupdate
      rw [hlawful.root_ok hok, hlawful.trie.root_eq hend]
      congr 1
      refine FiniteMap.ext_get fun address => ?_
      rw [CompleteState.get_leaves, get_computedState, computedAccount]
      cases hget : update.accounts.get address with
      | none =>
          rw [FiniteMap.get_writeAll_of_forall_ne, CompleteState.get_leaves]
          intro e he heq
          obtain ⟨entry, hentry, rfl⟩ := List.mem_map.mp he
          have hlisted := (FiniteMap.mem_sortedEntries (k := entry.1) (v := entry.2) _).mp hentry
          rw [show entry.1 = address from heq, hget] at hlisted
          cases hlisted
      | some account =>
          refine FiniteMap.get_writeAll_of_mem ?_ ?_ _
          · rw [List.pairwise_map]
            exact hdistinct
          · exact List.mem_map.mpr
              ⟨(address, account), (FiniteMap.mem_sortedEntries _).mpr hget, rfl⟩

/-! ## When the computed state is the one after the update -/

/-- **Nothing is lost that was not revealed**: the storage of a listed account is
revealed in part, or wiped, or written over where it is not zero; the storage of an
account that is not listed does not change. -/
structure LosesNothing (X : TrieExternals) (trie : X.StateTrie) (S : CompleteState)
    (update : HashedPostState) : Prop where
  listed : ∀ address hashed, update.storages.get address = some hashed →
    update.accounts.get address ≠ none →
      X.storageTrie trie address ≠ none ∨ hashed.wiped ∨
        ∀ slot, (S.storage address).value slot ≠ 0 → hashed.storage.get slot ≠ none
  unlisted : ∀ address hashed, update.storages.get address = some hashed →
    update.accounts.get address = none → (S.storage address).update hashed = S.storage address

/-- The storage written is the right one if the old one is revealed, wiped or written
over. -/
theorem writtenStorage_eq_iff {address : B256} :
    X.writtenStorage trie S update address = S.updatedStorage update address ↔
      ∀ hashed, update.storages.get address = some hashed →
        X.storageTrie trie address ≠ none ∨ hashed.wiped ∨
          ∀ slot, (S.storage address).value slot ≠ 0 → hashed.storage.get slot ≠ none := by
  unfold writtenStorage CompleteState.updatedStorage revealedStorage
  cases hget : update.storages.get address with
  | none => exact ⟨fun _ _ hsome => (nomatch hsome), fun _ => rfl⟩
  | some hashed =>
      cases htrie : X.storageTrie trie address with
      | some storageTrie => exact ⟨fun _ _ _ => .inl (Option.some_ne_none _), fun _ => rfl⟩
      | none =>
          show Storage.update .empty hashed = _ ↔ _
          rw [Storage.update_empty_eq_iff]
          constructor
          · rintro h hashed' ⟨⟩
            exact .inr h
          · exact fun h => (h hashed rfl).resolve_left fun hne => hne rfl

/-- **The computed state is the one after the update** exactly if nothing is lost. -/
theorem computedState_eq_apply_iff :
    X.computedState trie S update = S.apply X.keccakEmpty update ↔
      X.LosesNothing trie S update := by
  have hpoint : X.computedState trie S update = S.apply X.keccakEmpty update ↔
      ∀ address, X.computedAccount trie S update address
        = S.updatedAccount X.keccakEmpty update address := by
    constructor
    · intro heq address
      rw [← get_computedState, ← CompleteState.get_apply, heq]
    · intro h
      suffices haccounts : (X.computedState trie S update).accounts
          = (S.apply X.keccakEmpty update).accounts from congrArg CompleteState.mk haccounts
      refine FiniteMap.ext_get fun address => ?_
      rw [get_computedState, CompleteState.get_apply, h address]
  rw [hpoint]
  constructor
  · intro h
    refine ⟨fun address hashed hget hlisted => ?_, fun address hashed hget hunlisted => ?_⟩
    · obtain ⟨account, haccount⟩ := Option.ne_none_iff_exists'.mp hlisted
      have haddress := h address
      unfold computedAccount CompleteState.updatedAccount at haddress
      rw [haccount] at haddress
      exact writtenStorage_eq_iff.mp (CompleteState.givenAccount_injective haddress) hashed hget
    · have haddress := h address
      unfold computedAccount CompleteState.updatedAccount CompleteState.updatedStorage at haddress
      rw [hunlisted, hget] at haddress
      exact CompleteState.keptAccount_injective
        (haddress.symm.trans (CompleteState.keptAccount_self X.keccakEmpty S address).symm)
  · intro h address
    unfold computedAccount CompleteState.updatedAccount
    cases haccount : update.accounts.get address with
    | some account =>
        have hwritten := writtenStorage_eq_iff.mpr fun hashed hget =>
          h.listed address hashed hget (by rw [haccount]; exact Option.some_ne_none _)
        rw [hwritten]
    | none =>
        have hkept : S.updatedStorage update address = S.storage address := by
          unfold CompleteState.updatedStorage
          cases hget : update.storages.get address with
          | none => rfl
          | some hashed => exact h.unlisted address hashed hget haccount
        rw [hkept, CompleteState.keptAccount_self]

end TrieExternals

end ZkRess
