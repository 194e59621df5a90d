import ZkRess.Verifier.SmallTries

/-!
# What the witness database reports

A read of the witness database is to return what the complete state has, or to fail.
Code is always right (`codeByHash_ok`): it is found under the hash it was stored
under.  An account or a slot is right exactly if its path is revealed or the state has
nothing there (`readsExactly_iff`): the lookups of the sparse trie return nothing both
for a proven absence and for a hidden path, and the database takes both for absence.
Missing code, by contrast, is an error.
-/

namespace ZkRess

open Foundation

namespace WitnessDatabase

variable {X : EvmExternals} {P : Type} {db : WitnessDatabase X P} {S : CompleteState}

/-- What the reads of an account, a slot and a code return is what the state has. -/
structure ReadsExactly (db : WitnessDatabase X P) (S : CompleteState)
    (codes : B256 → Option X.Bytecode) (address : Address) (slot : U256) (codeHash : B256) :
    Prop where
  basic : ∀ info, db.basic address = .ok info → S.basic X address = info
  storage : ∀ value, db.storage address slot = .ok value → S.slotValue X address slot = value
  codeByHash : ∀ code, db.codeByHash codeHash = .ok code → codes codeHash = some code

/-- Code found is the code of its hash. -/
theorem codeByHash_ok {bytecodes : List Bytes}
    (hbytecodes : db.bytecodes = X.hashBytecodes bytecodes)
    {codes : B256 → Option X.Bytecode}
    (hcodes : ∀ bytes ∈ bytecodes, codes (X.hashSlow (X.newRaw bytes)) = some (X.newRaw bytes))
    {codeHash : B256} {code : X.Bytecode} (hok : db.codeByHash codeHash = .ok code) :
    codes codeHash = some code := by
  unfold WitnessDatabase.codeByHash at hok
  split at hok
  · next code' hget =>
    obtain rfl := Except.ok.inj hok
    rw [hbytecodes] at hget
    obtain ⟨bytes, hmem, rfl, rfl⟩ := EvmExternals.get_hashBytecodes hget
    exact hcodes bytes hmem
  · cases hok

/-- **Reads are exact exactly where nothing of the state is hidden**: the path of the
account is revealed or there is no account, and the path of the slot is revealed or
the slot is zero. -/
theorem readsExactly_iff (hlawful : X.Lawful) (hreveals : X.Reveals db.trie S)
    {bytecodes : List Bytes} (hbytecodes : db.bytecodes = X.hashBytecodes bytecodes)
    {codes : B256 → Option X.Bytecode}
    (hcodes : ∀ bytes ∈ bytecodes, codes (X.hashSlow (X.newRaw bytes)) = some (X.newRaw bytes))
    (address : Address) (slot : U256) (codeHash : B256) :
    db.ReadsExactly S codes address slot codeHash ↔
      (X.ShowsAccount db.trie (X.hashedAddress address) ∨
        S.accounts.get (X.hashedAddress address) = none) ∧
      (X.ShowsSlot db.trie (X.hashedAddress address) (X.hashedSlot slot) ∨
        S.slotValue X address slot = 0) := by
  rw [← readsAccount_iff hlawful hreveals, ← readsSlot_iff hlawful hreveals]
  constructor
  · exact fun h => ⟨h.basic, h.storage⟩
  · exact fun h => ⟨h.1, h.2, fun _ hok => codeByHash_ok hbytecodes hcodes hok⟩

end WitnessDatabase

namespace SmallTries

/-- The account trie with account 1. -/
def accountTries : List (FiniteMap B256 Bytes) :=
  [∅, (∅ : FiniteMap B256 Bytes).insert address (encodeTrieAccount ⟨1, 0, 0, 0⟩)]

/-- The tries of account 1, without execution. -/
def accountExternals : VerifierExternals := externals accountTries fun _ => .done (.ok ⟨∅, ∅⟩)

/-- The database of a state trie, without bytecodes. -/
def database (trie : StateTrie) : WitnessDatabase accountExternals.toEvmExternals Unit :=
  ⟨.empty, ⟨0, 0⟩, trie, accountExternals.hashBytecodes []⟩

/-- The account trie of account 1, revealed or hidden as a whole. -/
def accountTrie (hidden : Bool) : StateTrie :=
  ⟨⟨(oneAccount 1 .empty).leaves accountExternals.toTrieExternals, fun _ => hidden⟩, false, ∅⟩

theorem accountTrie_reveals (hidden : Bool) :
    accountExternals.Reveals (accountTrie hidden) (oneAccount 1 .empty) :=
  ⟨rfl, fun _ _ hstorage => nomatch hstorage⟩

theorem accountTrie_shows (address : B256) :
    accountExternals.ShowsAccount (accountTrie false) address :=
  Option.some_ne_none _

/-- The account has no storage. -/
theorem slotValue_oneAccount (slot : U256) :
    (oneAccount 1 .empty).slotValue accountExternals.toEvmExternals 1 slot = 0 := by
  have haddress : accountExternals.hashedAddress 1 = address := by decide +kernel
  unfold CompleteState.slotValue
  rw [haddress, storage_oneAccount, Storage.value_empty]

/-- An account that is revealed is read as it is. -/
theorem readsExactly_of_revealed :
    (database (accountTrie false)).ReadsExactly (oneAccount 1 .empty) (fun _ => none) 1 0 0 := by
  have hlawful : accountExternals.Lawful := externals_lawful
  have hiff :
      (database (accountTrie false)).ReadsExactly (oneAccount 1 .empty) (fun _ => none) 1 0 0
      ↔ _ :=
    WitnessDatabase.readsExactly_iff hlawful (accountTrie_reveals false) rfl
      (List.forall_mem_nil _) 1 0 0
  exact hiff.mpr ⟨.inl (accountTrie_shows _), .inr (slotValue_oneAccount 0)⟩

/-- An account that is hidden is reported as absent. -/
theorem not_readsExactly_of_hidden :
    ¬∀ (X : EvmExternals) (db : WitnessDatabase X Unit) (S : CompleteState)
      (bytecodes : List Bytes) (codes : B256 → Option X.Bytecode) (address : Address)
      (slot : U256) (codeHash : B256), X.Lawful → X.Reveals db.trie S →
        db.bytecodes = X.hashBytecodes bytecodes →
        (∀ bytes ∈ bytecodes, codes (X.hashSlow (X.newRaw bytes)) = some (X.newRaw bytes)) →
          db.ReadsExactly S codes address slot codeHash := by
  intro hclaim
  have hbasic := (hclaim accountExternals.toEvmExternals (database (accountTrie true))
    (oneAccount 1 .empty) [] (fun _ => none) 1 0 0 externals_lawful (accountTrie_reveals true) rfl
    nofun).basic none rfl
  unfold CompleteState.basic at hbasic
  rw [Option.map_eq_none_iff, get_oneAccount] at hbasic
  split_ifs at hbasic with heq
  exact heq (by decide +kernel)

end SmallTries

end ZkRess
