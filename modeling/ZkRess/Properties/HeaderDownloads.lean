import Mathlib.Algebra.GroupWithZero.Nat
import Mathlib.Data.List.Chain
import ZkRess.Engine.SmallWorld

/-!
# Header downloads

A correct peer that is asked for headers answers with the start header and its
ancestors, falling, as many as were asked for or as there are (`honestResponse`); the
responder of the RPC adapter builds the same list
(`onHeadersRequest_eq_honestResponse`).

The client counts differently: it refuses every response that is shorter than the
limit.  So the response completes the download exactly if the chain below the start is
as long as the limit (`completes_iff`), and near genesis the download asks again
forever (`poll_honestResponses_of_short`).
-/

namespace ZkRess

variable {D : DownloadExternals} {chain : List D.WireHeader} {start : D.WireHeader} {limit : ℕ}

/-! ## Chains and correct responses -/

/-- A chain of headers from genesis, rising, that passes the checks. -/
structure ChainFromGenesis (D : DownloadExternals) (chain : List D.WireHeader) : Prop where
  genesis : ∀ header ∈ chain.head?, (D.fields header).number = 0
  passes : D.PassesChecks (chain.map D.sealSlow)

/-- The headers are numbered by their places. -/
theorem ChainFromGenesis.number (h : ChainFromGenesis D chain) (hparent : D.ChecksParent) {i : ℕ}
    (hi : i < chain.length) : (D.fields chain[i]).number = i := by
  induction i with
  | zero => exact h.genesis _ (List.head?_eq_getElem? ▸ List.getElem?_eq_getElem hi)
  | succ i ih =>
      have hpair := h.passes.pairs.getElem i (by rwa [List.length_map])
      rw [List.getElem_map, List.getElem_map] at hpair
      have hstep : (D.fields chain[i + 1]).number = (D.fields chain[i]).number + 1 :=
        (hparent _ _ hpair).2
      rw [hstep, ih (Nat.lt_of_succ_lt hi)]

/-- A header of the chain stands at its number. -/
theorem ChainFromGenesis.getElem_number (h : ChainFromGenesis D chain) (hparent : D.ChecksParent)
    (hstart : start ∈ chain) : chain[(D.fields start).number]? = some start := by
  obtain ⟨i, hi, rfl⟩ := List.mem_iff_getElem.mp hstart
  rw [h.number hparent hi]
  exact List.getElem?_eq_getElem hi

/-- What a correct peer answers: the start header and its ancestors, falling. -/
def honestResponse (chain : List D.WireHeader) (start : D.WireHeader) (limit : ℕ) :
    List D.WireHeader :=
  ((chain.take ((D.fields start).number + 1)).reverse).take limit

/-- It has as many headers as are asked for, or as there are. -/
theorem length_honestResponse (h : ChainFromGenesis D chain) (hparent : D.ChecksParent)
    (hstart : start ∈ chain) :
    (honestResponse chain start limit).length = min limit ((D.fields start).number + 1) := by
  have hlt := (List.getElem?_eq_some_iff.mp (h.getElem_number hparent hstart)).1
  unfold honestResponse
  rw [List.length_take, List.length_reverse, List.length_take,
    Nat.min_eq_left (Nat.succ_le_of_lt hlt)]

/-- First comes the start header, then the ones before it, the highest first. -/
theorem honestResponse_eq_cons (h : ChainFromGenesis D chain) (hparent : D.ChecksParent)
    (hstart : start ∈ chain) (hlimit : 1 ≤ limit) :
    honestResponse chain start limit
      = start :: (chain.take (D.fields start).number).reverse.take (limit - 1) := by
  obtain ⟨limit, rfl⟩ : ∃ n, limit = n + 1 := ⟨limit - 1, (Nat.sub_add_cancel hlimit).symm⟩
  have hlast : chain.take ((D.fields start).number + 1)
      = chain.take (D.fields start).number ++ [start] := by
    rw [List.take_add_one, h.getElem_number hparent hstart, Option.toList_some]
  unfold honestResponse
  rw [hlast, List.reverse_append, List.reverse_singleton, List.singleton_append,
    List.take_succ_cons, Nat.add_sub_cancel]

/-- Rising, it is a part of the chain. -/
theorem reverse_honestResponse_isInfix (chain : List D.WireHeader) (start : D.WireHeader)
    (limit : ℕ) : (honestResponse chain start limit).reverse <:+: chain := by
  unfold honestResponse
  rw [List.reverse_take, List.reverse_reverse]
  exact (List.drop_suffix _ _).isInfix.trans (List.take_prefix _ _).isInfix

/-! ## The responder -/

/-- `RpcNetworkAdapter`: the blocks its provider has, by hash and by number, the size
of an encoded header, and the bounds on a response. -/
structure RpcNetworkAdapter (D : DownloadExternals) where
  blockByHash : B256 → Option D.WireHeader
  blockByNumber : ℕ → Option D.WireHeader
  length : D.WireHeader → ℕ
  maxHeadersServe : ℕ
  softResponseLimit : ℕ

namespace RpcNetworkAdapter

variable (adapter : RpcNetworkAdapter D)

/-- The headers of the blocks, up to the first that is missing, or until they are
more than enough. -/
def collectHeaders : ℕ → List (Option D.WireHeader) → List D.WireHeader
  | _, [] => []
  | _, none :: _ => []
  | totalBytes, some header :: blocks =>
      let totalBytes := totalBytes + adapter.length header
      if adapter.softResponseLimit < totalBytes then [header]
      else header :: collectHeaders totalBytes blocks

def onHeadersRequest (request : GetHeaders) : List D.WireHeader :=
  match adapter.blockByHash request.startHash with
  | none => []
  | some header =>
      if request.limit ≤ 1 then [header]
      else
        let startBlockNumber := (D.fields header).number
        let endBlockNumber := startBlockNumber - min (request.limit - 1) adapter.maxHeadersServe
        -- each block is put in front of those before it
        let blocks := (List.range' endBlockNumber (startBlockNumber - endBlockNumber)).reverse.map
          adapter.blockByNumber
        header :: adapter.collectHeaders (adapter.length header) blocks

/-- The adapter's provider has the blocks of the chain. -/
structure Serves (chain : List D.WireHeader) : Prop where
  byHash : ∀ header ∈ chain, adapter.blockByHash (D.hashSlow header) = some header
  byNumber : ∀ number < chain.length, adapter.blockByNumber number = chain[number]?

variable {adapter}

/-- The blocks asked for by falling number. -/
theorem Serves.map_range' (hserves : adapter.Serves chain) {number count : ℕ}
    (hle : number ≤ chain.length) :
    (List.range' (number - count) (number - (number - count))).reverse.map adapter.blockByNumber
      = ((chain.take number).reverse.take count).map some := by
  rw [List.take_reverse, List.map_reverse, List.map_reverse, List.length_take,
    Nat.min_eq_left hle]
  congr 1
  apply List.ext_getElem?
  intro i
  rw [List.getElem?_map, List.getElem?_map, List.getElem?_drop]
  by_cases hi : i < number - (number - count)
  · have hlt : number - count + i < number := by omega
    rw [List.getElem?_range' hi, Option.map_some, List.getElem?_take_of_lt hlt, Nat.one_mul,
      hserves.byNumber _ (Nat.lt_of_lt_of_le hlt hle),
      List.getElem?_eq_getElem (Nat.lt_of_lt_of_le hlt hle), Option.map_some]
  · have hge : number ≤ number - count + i := by omega
    rw [List.getElem?_eq_none (by rw [List.length_range']; exact Nat.le_of_not_lt hi),
      Option.map_none, List.getElem?_take_eq_none hge, Option.map_none]

theorem collectHeaders_of_fits {totalBytes : ℕ} {headers : List D.WireHeader}
    (hfits : totalBytes + (headers.map adapter.length).sum ≤ adapter.softResponseLimit) :
    adapter.collectHeaders totalBytes (headers.map some) = headers := by
  induction headers generalizing totalBytes with
  | nil => rfl
  | cons header headers ih =>
      rw [List.map_cons, List.sum_cons, ← Nat.add_assoc] at hfits
      rw [List.map_cons, collectHeaders]
      simp only [if_neg (Nat.not_lt_of_le (Nat.le_of_add_right_le hfits)), ih hfits]

/-- **The responder is a correct peer**, as long as the response is within its bounds. -/
theorem onHeadersRequest_eq_honestResponse (hserves : adapter.Serves chain)
    (h : ChainFromGenesis D chain) (hparent : D.ChecksParent) (hstart : start ∈ chain)
    (hlimit : 1 ≤ limit) (hserve : limit - 1 ≤ adapter.maxHeadersServe)
    (hfits : ((honestResponse chain start limit).map adapter.length).sum
      ≤ adapter.softResponseLimit) :
    adapter.onHeadersRequest ⟨D.hashSlow start, limit⟩ = honestResponse chain start limit := by
  have hcons := honestResponse_eq_cons h hparent hstart hlimit
  have hlt := (List.getElem?_eq_some_iff.mp (h.getElem_number hparent hstart)).1
  unfold onHeadersRequest
  simp only [hserves.byHash start hstart, Nat.min_eq_left hserve]
  by_cases hone : limit ≤ 1
  · obtain rfl : limit = 1 := Nat.le_antisymm hone hlimit
    rw [if_pos hone, hcons, Nat.sub_self, List.take_zero]
  · rw [if_neg hone]
    rw [hserves.map_range' (Nat.le_of_lt hlt), hcons]
    rw [hcons, List.map_cons, List.sum_cons] at hfits
    exact congrArg _ (collectHeaders_of_fits hfits)

end RpcNetworkAdapter

/-! ## Acceptance -/

/-- The response of a correct peer completes the download. -/
structure Completes (D : DownloadExternals) (chain : List D.WireHeader) (start : D.WireHeader)
    (limit : ℕ) : Prop where
  accepted : ∀ future : FetchHeadersRangeFuture, future.request = ⟨D.hashSlow start, limit⟩ →
    future.onResponse D (.ok (honestResponse chain start limit))
      = some ((honestResponse chain start limit).map D.sealSlow)
  resolves : ∀ (future : FetchHeadersRangeFuture) (responses : List D.HeadersResponse),
    future.request = ⟨D.hashSlow start, limit⟩ →
    future.poll D (.ok (honestResponse chain start limit) :: responses)
      = .ready ((honestResponse chain start limit).map D.sealSlow)

/-- A response of a correct peer that is not shorter than the limit is accepted. -/
theorem onResponse_honestResponse (hrange : D.ChecksRange) (h : ChainFromGenesis D chain)
    (hparent : D.ChecksParent) (hstart : start ∈ chain) (hlimit : 1 ≤ limit)
    (hlong : limit ≤ (D.fields start).number + 1) {future : FetchHeadersRangeFuture}
    (hrequest : future.request = ⟨D.hashSlow start, limit⟩) :
    future.onResponse D (.ok (honestResponse chain start limit))
      = some ((honestResponse chain start limit).map D.sealSlow) := by
  rw [FetchHeadersRangeFuture.onResponse_eq_some]
  refine ⟨_, rfl, rfl, ?_, ?_, ?_⟩
  · rw [hrequest, length_honestResponse h hparent hstart]
    exact Nat.le_min.mpr ⟨Nat.le_refl _, hlong⟩
  · rw [hrequest, honestResponse_eq_cons h hparent hstart hlimit]
    rfl
  · rw [hrange, ← List.map_reverse]
    exact h.passes.part ((reverse_honestResponse_isInfix chain start limit).map _)

/-- A shorter one is refused. -/
theorem onResponse_of_short {future : FetchHeadersRangeFuture} {headers : List D.WireHeader}
    (hshort : headers.length < future.request.limit) : future.onResponse D (.ok headers) = none :=
  if_pos hshort

/-- **Near genesis the download asks again forever**, however often it is answered. -/
theorem poll_honestResponses_of_short (h : ChainFromGenesis D chain) (hparent : D.ChecksParent)
    (hstart : start ∈ chain) (hshort : (D.fields start).number + 1 < limit) (n : ℕ)
    {future : FetchHeadersRangeFuture} (hrequest : future.request = ⟨D.hashSlow start, limit⟩) :
    ∃ future', future.poll D (List.replicate n (.ok (honestResponse chain start limit)))
      = .pending future' := by
  induction n generalizing future with
  | zero => exact ⟨future, rfl⟩
  | succ n ih =>
      have hnone : future.onResponse D (.ok (honestResponse chain start limit)) = none := by
        apply onResponse_of_short
        rw [hrequest, length_honestResponse h hparent hstart]
        exact Nat.lt_of_le_of_lt (Nat.min_le_right _ _) hshort
      rw [List.replicate_succ, FetchHeadersRangeFuture.poll]
      simp only [hnone]
      exact ih hrequest

/-- **The response of a correct peer completes the download exactly if the chain is
long enough for the limit.** -/
theorem completes_iff (hrange : D.ChecksRange) (hparent : D.ChecksParent)
    (h : ChainFromGenesis D chain) (hstart : start ∈ chain) (hlimit : 1 ≤ limit) :
    Completes D chain start limit ↔ limit ≤ (D.fields start).number + 1 := by
  constructor
  · intro hcompletes
    by_contra hlong
    have hsome := hcompletes.accepted (.new 0 ⟨D.hashSlow start, limit⟩) rfl
    rw [onResponse_of_short] at hsome
    · cases hsome
    · show (honestResponse chain start limit).length < limit
      rw [length_honestResponse h hparent hstart]
      exact Nat.lt_of_le_of_lt (Nat.min_le_right _ _) (Nat.lt_of_not_le hlong)
  · intro hlong
    refine ⟨fun future hrequest =>
      onResponse_honestResponse hrange h hparent hstart hlimit hlong hrequest,
      fun future responses hrequest => ?_⟩
    rw [FetchHeadersRangeFuture.poll]
    simp only [onResponse_honestResponse hrange h hparent hstart hlimit hlong hrequest]

/-! ### Near genesis -/

namespace SmallWorld

/-- A genesis header and one on it. -/
def shortChain : List SealedHeader := [header 1 0 0, header 2 1 1]

theorem shortChain_fromGenesis : ChainFromGenesis downloads shortChain where
  genesis header hmem := by
    obtain rfl := Option.some.inj hmem
    rfl
  passes := ⟨fun _ _ => rfl, .cons_cons (by decide) (.singleton _)⟩

/-- The last header of the chain. -/
private theorem header_mem_shortChain : header 2 1 1 ∈ shortChain :=
  List.mem_cons_of_mem _ List.mem_cons_self

/-- A header and its only ancestor are enough for a limit of two. -/
theorem completes_of_shortChain : Completes downloads shortChain (header 2 1 1) 2 :=
  (completes_iff downloads_checksRange downloads_checksParent shortChain_fromGenesis
    header_mem_shortChain (by decide)).mpr (Nat.le_refl 2)

/-- **A chain shorter than the limit**: 256 headers from the last one down are asked
for, two exist, and the response with both is refused, however often it comes. -/
theorem shortChain_refused :
    ChainFromGenesis downloads shortChain ∧ downloads.ChecksRange ∧ downloads.ChecksParent ∧
      honestResponse (D := downloads) shortChain (header 2 1 1) 256 = [header 2 1 1, header 1 0 0] ∧
      (FetchHeadersRangeFuture.new 0 ⟨2, 256⟩).onResponse downloads
        (.ok [header 2 1 1, header 1 0 0]) = none ∧
      ∀ n, ∃ future, (FetchHeadersRangeFuture.new 0 ⟨2, 256⟩).poll downloads
        (List.replicate n (.ok [header 2 1 1, header 1 0 0])) = .pending future := by
  refine ⟨shortChain_fromGenesis, downloads_checksRange, downloads_checksParent, rfl, rfl, ?_⟩
  intro n
  exact poll_honestResponses_of_short shortChain_fromGenesis downloads_checksParent
    header_mem_shortChain (show 1 + 1 < 256 by decide) n rfl

end SmallWorld

end ZkRess
