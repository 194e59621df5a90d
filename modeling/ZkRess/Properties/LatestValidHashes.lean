import ZkRess.Engine.CacheEntries
import ZkRess.Engine.ChainUpdate
import ZkRess.Engine.SmallWorld
import ZkRess.Properties.MissingAncestors

/-!
# The latest valid hash of a rejected block

A rejected block is answered with the hash of its nearest valid ancestor: zero if that is
a proof-of-work block, null if it cannot be found.  The code looks for the ancestor in two
ways.  A block that fails itself is searched from its parent; a block with an entry in the
invalid cache, or a descendant of one, from the parent of the entry.  Either search walks
from entry to entry until there is none, and asks the provider only for the first and the
last hash of the walk (`Comes`).

So the answer is the specified one only if the nearest valid ancestor is one of these two.
Moreover the first way does not look at the difficulty, and the second answers with zero
when nothing is found (`latestValidHash_iff`).
-/

namespace ZkRess

open Foundation

variable {X : Externals} {feed : Feed X}

/-! ## The walk through the cache -/

namespace InvalidHeaderCache

/-- The hashes looked up from a hash on, from entry to parent, until one has no entry. -/
inductive Trail (cache : InvalidHeaderCache) : cache.State → B256 → List B256 → Prop
  | stop {s hash} (missed : (cache.get s hash).1 = none) : Trail cache s hash [hash]
  | next {s hash entry hashes} (found : (cache.get s hash).1 = some entry)
      (rest : Trail cache (cache.get s hash).2 entry.parent hashes) :
      Trail cache s hash (hash :: hashes)

variable {cache : InvalidHeaderCache} {s : cache.State} {hash : B256} {trail trail' : List B256}

theorem Trail.ne_nil (h : cache.Trail s hash trail) : trail ≠ [] := by
  cases h <;> exact List.cons_ne_nil _ _

theorem Trail.head (h : cache.Trail s hash trail) : trail.head? = some hash := by
  cases h <;> rfl

theorem Trail.unique (h : cache.Trail s hash trail) (h' : cache.Trail s hash trail') :
    trail = trail' := by
  induction h generalizing trail' with
  | stop missed =>
      match h' with
      | .stop _ => rfl
      | .next found _ => cases missed.symm.trans found
  | next found _ ih =>
      match h' with
      | .stop missed => cases missed.symm.trans found
      | .next found' rest =>
          obtain rfl := Option.some.inj (found.symm.trans found')
          rw [ih rest]

section Descending

variable (below : B256 → B256 → Prop) (htrans : ∀ {a b c}, below a b → below b c → below a c)
  (hirrefl : ∀ {a}, ¬below a a) (hlawful : cache.Lawful)

include htrans hirrefl hlawful

/-- A walk comes to an end: the hashes with an entry are met once each. -/
private theorem exists_trail_below {start : cache.State}
    (hstart : ∀ hash entry, (cache.contents start).get hash = some entry → below entry.parent hash)
    (n : ℕ) (seen : List B256) (hnodup : seen.Nodup)
    (hentries : ∀ above ∈ seen, ∃ entry, (cache.contents start).get above = some entry)
    (hcard : (cache.contents start).keys.card ≤ seen.length + n)
    (hsub : ∀ hash entry, (cache.contents s).get hash = some entry →
      (cache.contents start).get hash = some entry)
    (hash : B256) (hbelow : ∀ above ∈ seen, below hash above) :
    ∃ trail, cache.Trail s hash trail ∧ trail.length ≤ n + 1 := by
  induction n generalizing seen s hash with
  | zero =>
      match hfound : (cache.get s hash).1 with
      | none => exact ⟨[hash], .stop hfound, Nat.le_refl 1⟩
      | some entry =>
          have hentry := hsub _ _ (hlawful.get_sound _ _ _ hfound)
          -- all hashes with an entry have been met, so this one, too
          have hlong : (hash :: seen).length ≤ _ := FiniteMap.length_le_card_keys
            (List.nodup_cons.mpr ⟨fun hmem => hirrefl (hbelow hash hmem), hnodup⟩)
            (List.forall_mem_cons.mpr ⟨⟨entry, hentry⟩, hentries⟩)
          rw [List.length_cons] at hlong
          omega
  | succ n ih =>
      match hfound : (cache.get s hash).1 with
      | none => exact ⟨[hash], .stop hfound, by simp⟩
      | some entry =>
          have hentry := hsub _ _ (hlawful.get_sound _ _ _ hfound)
          have hdown := hstart hash entry hentry
          obtain ⟨trail, htrail, hlength⟩ := ih (hash :: seen)
            (List.nodup_cons.mpr ⟨fun hmem => hirrefl (hbelow hash hmem), hnodup⟩)
            (List.forall_mem_cons.mpr ⟨⟨entry, hentry⟩, hentries⟩)
            (by rw [List.length_cons]; omega)
            (fun hash' entry' h => hsub _ _ (hlawful.get_shrinks s hash hash' entry' h))
            entry.parent
            (List.forall_mem_cons.mpr ⟨hdown, fun above hmem => htrans hdown (hbelow above hmem)⟩)
          exact ⟨hash :: trail, .next hfound htrail, Nat.succ_le_succ hlength⟩

/-- **Every walk through the cache comes to an end** if the entries lead down, and looks up
no more hashes than there are entries, and one. -/
theorem exists_trail
    (hdown : ∀ hash entry, (cache.contents s).get hash = some entry → below entry.parent hash)
    (hash : B256) :
    ∃ trail, cache.Trail s hash trail ∧ trail.length ≤ (cache.contents s).keys.card + 1 :=
  exists_trail_below below htrans hirrefl hlawful hdown _ [] List.nodup_nil nofun (by simp)
    (fun _ _ h => h) hash nofun

end Descending

end InvalidHeaderCache

open InvalidHeaderCache (Trail)

/-- A walk in a reachable state is no longer than the cache. -/
theorem EntriesRefer.trail_length (hlawful : X.invalidHeaderCache.Lawful)
    (hacyclic : feed.Acyclic) {s : X.invalidHeaderCache.State} (h : EntriesRefer feed s)
    {hash : B256} {trail : List B256} (htrail : Trail X.invalidHeaderCache s hash trail) :
    trail.length ≤ (X.invalidHeaderCache.contents s).keys.card + 1 := by
  obtain ⟨bounded, hbounded, hlength⟩ := InvalidHeaderCache.exists_trail feed.Below
    Feed.Below.trans (Feed.Below.irrefl hacyclic) hlawful h hash
  rwa [htrail.unique hbounded]

/-- The search for a valid ancestor along a walk comes to this hash: it begins there, or
it begins at an unknown hash and ends there. -/
def Comes {P : Type} (provider : ChainState P) (trail : List B256) (hash : B256) : Prop :=
  provider.Contains hash ∧ (trail.head? = some hash ∨
    (∀ start, trail.head? = some start → ¬provider.Contains start) ∧ trail.getLast? = some hash)

namespace EngineTree

variable {tree : EngineTree X}

/-- Where the search for an answer begins: a proof-of-work block counts as the zero hash. -/
def searchStart {P : Type} (provider : ChainState P) (parentHash : B256) : B256 :=
  match provider.sealedHeader parentHash with
  | some parent => if parent.difficulty ≠ 0 then 0 else parentHash
  | none => parentHash

/-- A walk along a trail ends with a lookup that misses, and answers with the hash looked up
if that is stored. -/
def AnswersLast (provider : ChainState X.Proof) (trail : List B256)
    (answer : Option B256 × X.invalidHeaderCache.State) : Prop :=
  ∃ s last, trail.getLast? = some last ∧ (X.invalidHeaderCache.get s last).1 = none ∧
    answer = (if (provider.sealedHeader last).isSome then some last else none,
      (X.invalidHeaderCache.get s last).2)

/-- The walk of the code, with enough fuel. -/
theorem latestValidHashFrom_of_trail (provider : ChainState X.Proof)
    {s : X.invalidHeaderCache.State} {entry : BlockWithParent} {trail : List B256} (n : ℕ)
    (h : Trail X.invalidHeaderCache s entry.parent trail) (hfuel : trail.length ≤ n) :
    AnswersLast provider trail (latestValidHashFrom provider n entry s) := by
  induction n generalizing s entry trail with
  | zero => exact absurd (List.length_eq_zero_iff.mp (Nat.le_zero.mp hfuel)) h.ne_nil
  | succ n ih =>
      rw [latestValidHashFrom]
      generalize entry.parent = start at h ⊢
      cases h with
      | stop missed =>
          refine ⟨s, start, rfl, missed, ?_⟩
          generalize X.invalidHeaderCache.get s start = looked at missed
          obtain ⟨_, s'⟩ := looked
          subst missed
          dsimp only
          split <;> rfl
      | @next _ _ entry hashes found rest =>
          obtain ⟨s', last, hlast, hmissed, heq⟩ := ih rest (Nat.le_of_succ_le_succ hfuel)
          refine ⟨s', last, (List.getLast?_cons_of_ne_nil rest.ne_nil).trans hlast, hmissed, ?_⟩
          rw [show X.invalidHeaderCache.get s start
            = (some entry, (X.invalidHeaderCache.get s start).2) from Prod.ext found rfl]
          exact heq

/-- So does the search of the code, from an unknown hash on. -/
theorem latestValidHash_of_trail {start : B256} (hunknown : ¬tree.provider.Contains start)
    {trail : List B256} (h : Trail X.invalidHeaderCache tree.invalidHeaders start trail)
    (hlength : trail.length ≤ (X.invalidHeaderCache.contents tree.invalidHeaders).keys.card + 1) :
    AnswersLast tree.provider trail ((tree.latestValidHashForInvalidPayload start).1,
      (tree.latestValidHashForInvalidPayload start).2.invalidHeaders) := by
  unfold latestValidHashForInvalidPayload
  rw [if_neg (mt ChainState.contains_iff_isSome.mpr hunknown)]
  cases h with
  | stop missed =>
      refine ⟨tree.invalidHeaders, start, rfl, missed, ?_⟩
      rw [if_neg (mt ChainState.contains_iff_isSome.mpr hunknown),
        show X.invalidHeaderCache.get tree.invalidHeaders start
          = (none, (X.invalidHeaderCache.get tree.invalidHeaders start).2) from Prod.ext missed rfl]
  | @next _ _ entry hashes found rest =>
      obtain ⟨s', last, hlast, hmissed, heq⟩ :=
        latestValidHashFrom_of_trail tree.provider _ rest (Nat.le_of_succ_le hlength)
      refine ⟨s', last, (List.getLast?_cons_of_ne_nil rest.ne_nil).trans hlast, hmissed, ?_⟩
      rw [show X.invalidHeaderCache.get tree.invalidHeaders start
        = (some entry, (X.invalidHeaderCache.get tree.invalidHeaders start).2)
          from Prod.ext found rfl]
      exact heq

/-- **What the search of the code finds** is what it comes to. -/
theorem latestValidHash_iff_comes {start : B256} {trail : List B256}
    (h : Trail X.invalidHeaderCache tree.invalidHeaders start trail)
    (hlength : trail.length ≤ (X.invalidHeaderCache.contents tree.invalidHeaders).keys.card + 1)
    (hash : B256) :
    (tree.latestValidHashForInvalidPayload start).1 = some hash ↔
      Comes tree.provider trail hash := by
  by_cases hstored : tree.provider.Contains start
  · unfold latestValidHashForInvalidPayload Comes
    rw [h.head, if_pos (ChainState.contains_iff_isSome.mp hstored)]
    constructor
    · intro heq
      exact ⟨Option.some.inj heq ▸ hstored, .inl heq⟩
    · rintro ⟨-, heq | ⟨hnone, -⟩⟩
      · exact heq
      · exact absurd hstored (hnone start rfl)
  · obtain ⟨s', last, hlast, -, heq⟩ := latestValidHash_of_trail hstored h hlength
    rw [(Prod.mk.inj heq).1]
    constructor
    · intro hfound
      split at hfound
      · next hcontains =>
          cases hfound
          refine ⟨ChainState.contains_iff_isSome.mpr hcontains,
            .inr ⟨fun first hfirst => ?_, hlast⟩⟩
          rwa [← Option.some.inj (h.head.symm.trans hfirst)]
      · cases hfound
    · rintro ⟨hcontains, hhead | ⟨-, hlast'⟩⟩
      · exact absurd (Option.some.inj (h.head.symm.trans hhead) ▸ hcontains) hstored
      · obtain rfl := Option.some.inj (hlast.symm.trans hlast')
        exact if_pos (ChainState.contains_iff_isSome.mp hcontains)

end EngineTree

/-! ## The specification, and when the code meets it -/

section Specification

variable {P : Type} {provider : ChainState P} {known trail : List B256}

/-- **The specified latest valid hash**, of the ancestors in falling order: the hash of the
first one stored, or zero if that is a proof-of-work block. -/
def specifiedHash (provider : ChainState P) (ancestors : List B256) : Option B256 :=
  (ancestors.findSome? provider.sealedHeader).map fun header =>
    if header.difficulty = 0 then header.hash else 0

/-- The walk begins at a stored proof-of-work block. -/
def BeginsAtWork (provider : ChainState P) (trail : List B256) : Prop :=
  ∃ start header, trail.head? = some start ∧ provider.sealedHeader start = some header ∧
    header.difficulty ≠ 0

/-- The first stored ancestor is stored under its hash. -/
theorem nearest_stored {ancestors : List B256} {header : SealedHeader}
    (h : ancestors.findSome? provider.sealedHeader = some header) :
    header.hash ∈ ancestors ∧ provider.sealedHeader header.hash = some header := by
  obtain ⟨hash, hmem, hstored⟩ := List.exists_of_findSome?_eq_some h
  obtain rfl := ChainState.hash_of_sealedHeader hstored
  exact ⟨hmem, hstored⟩

theorem Comes.mem {hash : B256} (h : Comes provider trail hash) : hash ∈ trail := by
  rcases h.2 with hhead | ⟨-, hlast⟩
  · exact List.mem_of_head? hhead
  · exact List.mem_of_getLast? hlast

/-- What is come to is a stored ancestor. -/
theorem Comes.nearest {hash : B256} (h : Comes provider trail hash) :
    trail.findSome? provider.sealedHeader ≠ none := by
  intro hnone
  obtain ⟨header, hheader⟩ := ChainState.contains_iff_sealedHeader.mp h.1
  cases (List.findSome?_eq_none_iff.mp hnone hash h.mem).symm.trans hheader

variable (hzero : ¬provider.Contains 0)

include hzero

/-- Zero is not the hash of a stored block. -/
theorem hash_ne_zero {ancestors : List B256} {header : SealedHeader}
    (h : ancestors.findSome? provider.sealedHeader = some header) : header.hash ≠ 0 := by
  intro heq
  have hstored := (nearest_stored h).2
  rw [heq] at hstored
  exact hzero (ChainState.contains_iff_sealedHeader.mpr ⟨header, hstored⟩)

/-- An answer with what is found is right if nothing is stored, or else the nearest valid
ancestor is found and is no proof-of-work block. -/
theorem found_eq_specified_iff {found : Option B256}
    (hfound : ∀ hash, found = some hash ↔ Comes provider trail hash) :
    found = specifiedHash provider trail ↔
      ∀ header, trail.findSome? provider.sealedHeader = some header →
        header.difficulty = 0 ∧ Comes provider trail header.hash := by
  unfold specifiedHash
  match hnearest : trail.findSome? provider.sealedHeader with
  | none =>
      refine iff_of_true ?_ nofun
      match found, hfound with
      | none, _ => rfl
      | some hash, hfound => exact absurd hnearest ((hfound hash).mp rfl).nearest
  | some header =>
      have hsome : (∀ header', some header = some header' →
          header'.difficulty = 0 ∧ Comes provider trail header'.hash) ↔
          header.difficulty = 0 ∧ Comes provider trail header.hash :=
        ⟨fun h => h header rfl, fun h header' heq => Option.some.inj heq ▸ h⟩
      rw [hsome, Option.map_some, hfound]
      split
      · next hmerged => exact (and_iff_right hmerged).symm
      · next hwork =>
          exact iff_of_false (fun hcomes => hzero hcomes.1) (fun h => hwork h.1)

/-- An answer that replaces nothing found by zero, and a proof-of-work block at the
beginning, is right if there is a nearest valid ancestor and it is found, or is a
proof-of-work block and the answer is zero. -/
theorem replaced_eq_specified_iff {found : Option B256} {answer : B256}
    (hfound : ∀ hash, found = some hash ↔ Comes provider trail hash)
    (hwork : BeginsAtWork provider trail → answer = 0)
    (hother : ¬BeginsAtWork provider trail → answer = found.getD 0) :
    some answer = specifiedHash provider (known ++ trail) ↔
      ∃ header, (known ++ trail).findSome? provider.sealedHeader = some header ∧
        (header.difficulty = 0 → Comes provider trail header.hash) ∧
        (header.difficulty ≠ 0 →
          BeginsAtWork provider trail ∨ ∀ hash, ¬Comes provider trail hash) := by
  unfold specifiedHash
  match hnearest : (known ++ trail).findSome? provider.sealedHeader with
  | none => exact iff_of_false nofun nofun
  | some header =>
      have hne := hash_ne_zero hzero hnearest
      simp only [Option.map_some, Option.some.injEq, exists_eq_left']
      by_cases hbegins : BeginsAtWork provider trail
      · obtain rfl := hwork hbegins
        split
        · next hmerged =>
            refine iff_of_false (fun heq => hne heq.symm) fun h => ?_
            -- what is come to is the block at the beginning, of another difficulty
            obtain ⟨start, first, hhead, hstored, hdifficulty⟩ := hbegins
            rcases (h.1 hmerged).2 with hhead' | ⟨hunknown, -⟩
            · obtain rfl := Option.some.inj (hhead.symm.trans hhead')
              obtain rfl := Option.some.inj (hstored.symm.trans (nearest_stored hnearest).2)
              exact hdifficulty hmerged
            · exact hunknown start hhead (ChainState.contains_iff_sealedHeader.mpr ⟨first, hstored⟩)
        · next hdifficulty =>
            exact iff_of_true rfl ⟨fun hmerged => absurd hmerged hdifficulty, fun _ => .inl hbegins⟩
      · rw [hother hbegins]
        split
        · next hmerged =>
            rw [and_iff_left (fun hdifficulty => absurd hmerged hdifficulty),
              forall_prop_of_true hmerged,
              ← hfound]
            match found with
            | none => exact iff_of_false (fun heq => hne heq.symm) nofun
            | some hash => exact Option.some_inj.symm
        · next hdifficulty =>
            rw [and_iff_right (fun hmerged => absurd hmerged hdifficulty),
              forall_prop_of_true hdifficulty, or_iff_right hbegins]
            match found, hfound with
            | none, hfound =>
                exact iff_of_true rfl fun hash hcomes => nomatch (hfound hash).mpr hcomes
            | some hash, hfound =>
                have hcomes := (hfound hash).mp rfl
                refine iff_of_false (fun heq => ?_) fun hnone => hnone hash hcomes
                obtain rfl : hash = 0 := heq
                exact hzero hcomes.1

end Specification

/-! ## Searches -/

/-- **Where the latest valid ancestor of a rejected block is searched**, with the state of
the cache at that time. -/
inductive Search (cache : InvalidHeaderCache)
  /-- The block failed itself: from its parent. -/
  | fromParent (s : cache.State) (parent : B256)
  /-- The block or an ancestor has an entry: from the parent of the entry.  The ancestors
  the block is connected to it by are known. -/
  | fromEntry (s : cache.State) (known : List B256) (entry : BlockWithParent)

namespace Search

variable {cache : InvalidHeaderCache} {P : Type}

/-- The hashes the search walks through. -/
def Walks : Search cache → List B256 → Prop
  | fromParent s parent, trail => Trail cache s parent trail
  | fromEntry s _ entry, trail => Trail cache s entry.parent trail

/-- The ancestors that are known before the search. -/
def known : Search cache → List B256
  | fromParent _ _ => []
  | fromEntry _ known _ => known

/-- **The status carries the specified hash.** -/
def Specifies (provider : ChainState P) (search : Search cache) (status : PayloadStatus) : Prop :=
  ∃ trail, search.Walks trail ∧
    status.latestValidHash = specifiedHash provider (search.known ++ trail)

/-- **When the search is good enough.**  From the parent: no ancestor is stored, or the
nearest one stored is no proof-of-work block and is come to.  From an entry: some ancestor
is stored, and the nearest one is come to if it is no proof-of-work block; if it is one,
the walk begins at such a block or nothing is come to. -/
def Suffices (provider : ChainState P) : Search cache → Prop
  | fromParent s parent => ∃ trail, Trail cache s parent trail ∧
      ∀ header, trail.findSome? provider.sealedHeader = some header →
        header.difficulty = 0 ∧ Comes provider trail header.hash
  | fromEntry s known entry => ∃ trail, Trail cache s entry.parent trail ∧
      ∃ header, (known ++ trail).findSome? provider.sealedHeader = some header ∧
        (header.difficulty = 0 → Comes provider trail header.hash) ∧
        (header.difficulty ≠ 0 →
          BeginsAtWork provider trail ∨ ∀ hash, ¬Comes provider trail hash)

end Search

/-- The search for a block with this hash and these known parents.  It is checked under a
hash first, unless its payload is not well formed. -/
inductive Searches (tree : EngineTree X) (hash : B256) :
    List B256 → Option B256 → Search X.invalidHeaderCache → Prop
  | unchecked {parent} :
      Searches tree hash [parent] none (.fromParent tree.invalidHeaders parent)
  | missed {parent check} (missed : (X.invalidHeaderCache.get tree.invalidHeaders check).1 = none) :
      Searches tree hash [parent] (some check)
        (.fromParent (X.invalidHeaderCache.get tree.invalidHeaders check).2 parent)
  /-- The blocks between the rejected one and the checked one are buffered. -/
  | found {parents check entry between}
      (found : (X.invalidHeaderCache.get tree.invalidHeaders check).1 = some entry)
      (chain : tree.blockBuffer.Chain hash between (tree.lowestBufferedAncestorOr hash))
      (stops : tree.blockBuffer.blocks.get (tree.lowestBufferedAncestorOr hash) = none) :
      Searches tree hash parents (some check)
        (.fromEntry (X.invalidHeaderCache.get tree.invalidHeaders check).2
          (parents ++ between.map fun block => block.parentHash) entry)

/-- The hash of the payload, or its versioned hashes, do not match. -/
def PayloadError.Mismatch (error : PayloadError) : Prop :=
  (error.isBlockHashMismatch || error.isInvalidVersionedHashes) = true

/-- **The invalid answers of the tree**: the hash of the block that is rejected, the parent
if it is known, and the hash the block is checked under. -/
inductive AnswersInvalid (σ : SetOrder B256) (tree : EngineTree X) :
    B256 → List B256 → Option B256 → PayloadStatus → Prop
  /-- A payload that is not well formed. -/
  | malformed {payload maybeProof error outcome tree'}
      (malformed : X.ensureWellFormedPayload payload = .error error) (hashed : ¬error.Mismatch)
      (answer : tree.onNewPayload σ payload maybeProof = (.ok outcome, tree')) :
      AnswersInvalid σ tree payload.blockHash [payload.parentHash] none outcome.outcome
  | payload {payload maybeProof block outcome tree'}
      (formed : X.ensureWellFormedPayload payload = .ok block)
      (answer : tree.onNewPayload σ payload maybeProof = (.ok outcome, tree'))
      (invalid : ∃ message, outcome.outcome.status = .invalid message) :
      AnswersInvalid σ tree block.hash [block.parentHash] (some (tree.payloadCheck block))
        outcome.outcome
  | downloaded {block proof outcome tree'}
      (answer : tree.onDownloadedBlock σ block proof = (.ok outcome, tree'))
      (invalid : ∃ message, outcome.outcome.status = .invalid message) :
      AnswersInvalid σ tree block.hash [block.parentHash]
        (some (tree.lowestBufferedAncestorOr block.hash)) outcome.outcome
  | head {state payloadAttrs version outcome tree' status}
      (answer : tree.onForkchoiceUpdated σ state payloadAttrs version = (.ok outcome, tree'))
      (carries : EngineTree.payloadStatus outcome.outcome = some status)
      (invalid : ∃ message, status.status = .invalid message) :
      AnswersInvalid σ tree state.headBlockHash []
        (some (tree.lowestBufferedAncestorOr state.headBlockHash)) status

/-! ## The answers of the tree -/

namespace EngineTree

variable {tree : EngineTree X}

section

variable (hlawful : X.invalidHeaderCache.Lawful) (hacyclic : feed.Acyclic)
  (hrefer : EntriesRefer feed tree.invalidHeaders) (hstored : ¬tree.provider.Contains 0)

include hlawful hacyclic hrefer hstored

/-- An answer found from the parent. -/
theorem specifies_fromParent_iff {parent : B256} {status : PayloadStatus}
    (hanswer : status.latestValidHash = (tree.latestValidHashForInvalidPayload parent).1) :
    (Search.fromParent tree.invalidHeaders parent).Specifies tree.provider status ↔
      (Search.fromParent tree.invalidHeaders parent).Suffices tree.provider := by
  refine exists_congr fun trail => and_congr_right fun hwalks => ?_
  rw [hanswer]
  exact found_eq_specified_iff hstored
    (latestValidHash_iff_comes hwalks (hrefer.trail_length hlawful hacyclic hwalks))

variable (hzero : feed.preimage 0 = none)

include hzero

omit hacyclic in
/-- From the zero hash nothing is found. -/
theorem latestValidHash_zero : (tree.latestValidHashForInvalidPayload 0).1 = none := by
  unfold latestValidHashForInvalidPayload
  rw [if_neg (mt ChainState.contains_iff_isSome.mpr hstored)]
  match hlooked : X.invalidHeaderCache.get tree.invalidHeaders 0 with
  | (none, s) => rfl
  | (some entry, s) =>
      have hentry := hlawful.get_sound tree.invalidHeaders 0 entry (by rw [hlooked])
      exact absurd hzero (hrefer 0 entry hentry).known

/-- An answer prepared from an entry. -/
theorem specifies_fromEntry_iff {entry : BlockWithParent} {known : List B256} :
    (Search.fromEntry tree.invalidHeaders known entry).Specifies tree.provider
        (tree.prepareInvalidResponse entry.parent).1 ↔
      (Search.fromEntry tree.invalidHeaders known entry).Suffices tree.provider := by
  have hzeroFound := latestValidHash_zero hlawful hrefer hstored hzero
  have hlatest : ∀ start, (tree.prepareInvalidResponse start).1.latestValidHash
      = some ((tree.latestValidHashForInvalidPayload (searchStart tree.provider start)).1.getD 0) :=
    fun _ => rfl
  refine exists_congr fun trail => and_congr_right fun hwalks => ?_
  rw [hlatest]
  unfold searchStart
  refine replaced_eq_specified_iff hstored
    (latestValidHash_iff_comes hwalks (hrefer.trail_length hlawful hacyclic hwalks)) ?_ ?_
  · rintro ⟨start, header, hhead, hheader, hdifficulty⟩
    obtain rfl := Option.some.inj (hwalks.head.symm.trans hhead)
    rw [hheader]
    simp only [if_pos hdifficulty]
    rw [hzeroFound]
    rfl
  · intro hbegins
    cases hheader : tree.provider.sealedHeader entry.parent with
    | none => rfl
    | some header =>
        have hmerged : ¬header.difficulty ≠ 0 :=
          fun hdifficulty => hbegins ⟨entry.parent, header, hwalks.head, hheader, hdifficulty⟩
        simp only [if_neg hmerged]

end

end EngineTree

open EngineTree

/-- The search for a block whose checked hash has an entry. -/
theorem exists_search_of_entry (hlawful : X.invalidHeaderCache.Lawful) (hacyclic : feed.Acyclic)
    (hzero : feed.preimage 0 = none) {tree : EngineTree X}
    (hrefer : EntriesRefer feed tree.invalidHeaders) (hstored : ¬tree.provider.Contains 0)
    (hfed : FedBy feed tree.blockBuffer) {check : B256} {entry : BlockWithParent}
    (hfound : (X.invalidHeaderCache.get tree.invalidHeaders check).1 = some entry)
    (hash : B256) (parents : List B256) :
    ∃ search, Searches tree hash parents (some check) search ∧
      (search.Specifies tree.provider (prepareInvalidResponse { tree with
          invalidHeaders :=
            (X.invalidHeaderCache.get tree.invalidHeaders check).2 } entry.parent).1 ↔
        search.Suffices tree.provider) := by
  obtain ⟨between, hchain, hstops⟩ := lowestBufferedAncestorOr_chain (hfed.noReturn hacyclic) hash
  have hrefer' : EntriesRefer feed { tree with
      invalidHeaders := (X.invalidHeaderCache.get tree.invalidHeaders check).2 }.invalidHeaders :=
    hrefer.get hlawful check
  exact ⟨_, .found hfound hchain hstops,
    specifies_fromEntry_iff hlawful hacyclic hrefer' hstored hzero⟩

/-- The search for a condemned block. -/
theorem exists_search_of_condemns (hlawful : X.invalidHeaderCache.Lawful)
    (hacyclic : feed.Acyclic) (hzero : feed.preimage 0 = none) {tree : EngineTree X}
    (hrefer : EntriesRefer feed tree.invalidHeaders) (hstored : ¬tree.provider.Contains 0)
    (hfed : FedBy feed tree.blockBuffer) {parent check : B256} {status : PayloadStatus}
    (hcondemns : Condemns tree check parent status) (hash : B256) :
    ∃ search, Searches tree hash [parent] (some check) search ∧
      (search.Specifies tree.provider status ↔ search.Suffices tree.provider) := by
  match hcondemns with
  | .linked found =>
      exact exists_search_of_entry hlawful hacyclic hzero hrefer hstored hfed found hash _
  | .failed missed latest =>
      have hrefer' : EntriesRefer feed { tree with
          invalidHeaders :=
            (X.invalidHeaderCache.get tree.invalidHeaders check).2 }.invalidHeaders :=
        hrefer.get hlawful check
      exact ⟨_, .missed missed,
        specifies_fromParent_iff hlawful hacyclic hrefer' hstored latest⟩

/-- **Exactly the searches that suffice give the specified hash**, for every invalid answer
of the tree in every reachable state; and a mismatch of hashes gives none. -/
theorem latestValidHash_iff (hlawful : X.invalidHeaderCache.Lawful) (hacyclic : feed.Acyclic)
    (hzero : feed.preimage 0 = none) {genesis : Block}
    (hgenesis : genesis.toSealedHeader.Conforms feed.preimage)
    {trace : List (ConsensusEngine.Processed X.Proof)} {engine : ConsensusEngine X}
    (run : FedRun feed (ConsensusEngine.launch X genesis) trace engine) {tree : EngineTree X}
    (hchain : tree.provider = engine.tree.provider)
    (hcache : tree.invalidHeaders = engine.tree.invalidHeaders)
    (hfed : FedBy feed tree.blockBuffer) (σ : SetOrder B256) :
    (∀ hash parents check status, AnswersInvalid σ tree hash parents check status →
      ∃ search, Searches tree hash parents check search ∧
        (search.Specifies tree.provider status ↔ search.Suffices tree.provider)) ∧
    ∀ payload maybeProof error, X.ensureWellFormedPayload payload = .error error →
      error.Mismatch →
        ∃ outcome tree', tree.onNewPayload σ payload maybeProof = (.ok outcome, tree') ∧
        outcome.outcome.latestValidHash = none := by
  have hrefer : EntriesRefer feed tree.invalidHeaders := by
    rw [hcache]
    exact .of_run hlawful run
  have hstored : ¬tree.provider.Contains 0 := by
    obtain ⟨⟨marks, history⟩, -⟩ := ConsensusEngine.Run.history (fun _ _ met => met) run (.new feed)
    rw [hchain]
    intro hcontains
    obtain ⟨header, hheader⟩ := ChainState.contains_iff_sealedHeader.mp hcontains
    cases hzero.symm.trans ((Stocked.of_history hgenesis history).preimage_of_sealedHeader hheader)
  constructor
  · intro hash parents check status hanswers
    match hanswers with
    | .payload formed answer invalid =>
        exact exists_search_of_condemns hlawful hacyclic hzero hrefer hstored hfed
          (onNewPayload_condemns formed answer invalid) _
    | .downloaded answer invalid =>
        exact exists_search_of_condemns hlawful hacyclic hzero hrefer hstored hfed
          (onDownloadedBlock_condemns answer invalid) _
    | .head answer carries invalid =>
        obtain ⟨entry, hfound, rfl⟩ := onForkchoiceUpdated_condemns answer carries invalid
        exact exists_search_of_entry hlawful hacyclic hzero hrefer hstored hfed hfound _ []
    | .malformed malformed hashed answer =>
        refine ⟨_, .unchecked, specifies_fromParent_iff hlawful hacyclic hrefer hstored ?_⟩
        unfold PayloadError.Mismatch at hashed
        unfold onNewPayload malformedLatestValidHash at answer
        rw [malformed] at answer
        simp only [if_neg hashed] at answer
        cases answer
        rfl
  · intro payload maybeProof error hmalformed hmismatch
    refine ⟨.new ⟨.invalid error.message, none⟩, tree, ?_, rfl⟩
    unfold PayloadError.Mismatch at hmismatch
    unfold onNewPayload malformedLatestValidHash
    rw [hmalformed]
    simp only [if_pos hmismatch]

namespace SmallWorld

open ConsensusEngine

/-- The answer to a block with an incomplete proof, with this latest valid hash. -/
def rootMismatch (hash : Option B256) : PayloadStatus :=
  ⟨.invalid "mismatched block state root", hash⟩

/-- Block 2 on the genesis block, with an incomplete proof: the genesis block is named. -/
theorem latestValidHash_of_launch :
    ∃ search, Searches (launch externals (block 1 0 0)).tree 2 [1]
        (some ((launch externals (block 1 0 0)).tree.lowestBufferedAncestorOr 2)) search ∧
      search.Specifies (launch externals (block 1 0 0)).tree.provider (rootMismatch (some 1)) := by
  have hanswer :
      (launch externals (block 1 0 0)).tree.onDownloadedBlock ascending (block 2 1 1) false
      = (.ok (.new (rootMismatch (some 1))),
        ((launch externals (block 1 0 0)).tree.onDownloadedBlock
        ascending (block 2 1 1) false).2) := rfl
  obtain ⟨search, hsearches, hiff⟩ := (latestValidHash_iff cache_lawful fork_acyclic rfl
    fork_isGenesis.conforms .start rfl rfl (.new forkFeed) ascending).1 _ _ _ _
      (.downloaded hanswer ⟨_, rfl⟩)
  refine ⟨search, hsearches, hiff.mpr ?_⟩
  match hsearches with
  | .missed _ =>
      refine ⟨[1], .stop rfl, fun found hfound => ?_⟩
      obtain rfl : header 1 0 0 = found := Option.some.inj hfound
      exact ⟨rfl, ⟨_, rfl⟩, .inl rfl⟩
  | .found found _ _ => cases found

/-- A genesis block of the time before the merge. -/
def workGenesis : Block := ⟨⟨⟨0, 0, 0, 1⟩, 1⟩, []⟩

/-- The feed of this block and block 2 on it. -/
abbrev workFeed : Feed externals := feedOf [workGenesis.toSealedHeader, header 2 1 1]

/-- **A proof-of-work parent is named** when its child fails, and not zero. -/
theorem work_parent_named :
    ¬∀ trace engine, FedRun workFeed (launch externals workGenesis) trace engine →
      ∀ hash parents check status, AnswersInvalid ascending engine.tree hash parents check status →
        ∀ search, Searches engine.tree hash parents check search →
          search.Specifies engine.tree.provider status := by
  intro hall
  have hanswer : (launch externals workGenesis).tree.onDownloadedBlock ascending (block 2 1 1) false
      = (.ok (.new (rootMismatch (some 1))), ((launch externals workGenesis).tree.onDownloadedBlock
        ascending (block 2 1 1) false).2) := rfl
  obtain ⟨trail, hwalks, hspecified⟩ := hall [] _ .start _ _ _ _ (.downloaded hanswer ⟨_, rfl⟩) _
    (.missed rfl)
  obtain rfl : trail = [1] := Trail.unique hwalks (.stop rfl)
  -- the specified hash is zero
  have hzero : (some 1 : Option B256) = some 0 := hspecified
  exact absurd hzero (by decide)

end SmallWorld

end ZkRess
