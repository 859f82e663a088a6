import TrineKv.Content.Session
import TrineKv.Lib.ByteCodec
import TrineKv.Lib.Tally

/-!
# The physical quota of a storage domain

A domain has a counter of the bytes that are reserved for unfinished uploads, a counter of the
bytes of its content, and perhaps a limit on their sum. A reservation is a record of one upload, an
account is a record of one content. Every operation reads and writes these records in one
transaction.

## Main results

* `QuotaLedger.Balanced.reserve`, `QuotaLedger.Balanced.settles_finalize`.
-/

namespace TrineKv.Content

open Option

open Tally

/-- The counters and the limit of a domain. -/
structure ContentPhysicalQuota where
  uniqueContentBytes : ℕ
  uploadReservedBytes : ℕ
  limit : Option ℕ
  deriving DecidableEq, Repr

/-- The sum of both counters. -/
def ContentPhysicalQuota.accountedBytes (quota : ContentPhysicalQuota) : ℕ :=
  min (quota.uniqueContentBytes + quota.uploadReservedBytes) maxU64

structure ContentPhysicalReservationRecord where
  storageDomainId : StorageDomainId
  reservedBytes : ℕ
  deriving DecidableEq, Repr

structure QuotaLedger where
  quotas : StorageDomainId → Option ContentPhysicalQuota
  reservations : AList fun _ : UploadId => ContentPhysicalReservationRecord
  accounts : AList fun _ : StorageDomainId × ContentId => ℕ

namespace QuotaLedger

variable {reservations : AList fun _ : UploadId => ContentPhysicalReservationRecord}
  {accounts : AList fun _ : StorageDomainId × ContentId => ℕ} {left right desired : ℕ}
  {uploadId : UploadId} {reservation : ContentPhysicalReservationRecord} {contentId : ContentId}
  {state : UploadSessionState}

/-- Nothing is recorded. -/
def empty : QuotaLedger := ⟨fun _ => none, ∅, ∅⟩

/-- The quota of a domain; one that was never seen has no bytes and no limit. -/
def readContentPhysicalQuota (ledger : QuotaLedger) (storageDomainId : StorageDomainId) :
    ContentPhysicalQuota :=
  (ledger.quotas storageDomainId).getD ⟨0, 0, none⟩

def putQuota (ledger : QuotaLedger) (storageDomainId : StorageDomainId)
    (quota : ContentPhysicalQuota) : QuotaLedger :=
  { ledger with quotas := Function.update ledger.quotas storageDomainId (some quota) }

def setContentPhysicalQuota (ledger : QuotaLedger) (storageDomainId : StorageDomainId)
    (limit : Option ℕ) : Except ContentError QuotaLedger :=
  let current := ledger.readContentPhysicalQuota storageDomainId
  match limit with
  | none => .ok (ledger.putQuota storageDomainId { current with limit := none })
  | some limit =>
    if limit < current.accountedBytes then
      .error (.physicalQuotaExceeded limit current.uniqueContentBytes current.uploadReservedBytes 0)
    else .ok (ledger.putQuota storageDomainId { current with limit := some limit })

/-- The value of a checked addition. -/
def checked (left right : ℕ) (message : String) : Except ContentError ℕ :=
  match checkedAdd left right with
  | some sum => .ok sum
  | none => .error (.other (.invalidOptions message))

def exceeds (quota : ContentPhysicalQuota) (accounted : ℕ) : Bool :=
  quota.limit.any fun limit => decide (limit < accounted)

def reserveContentUploadBytes (ledger : QuotaLedger) (state : UploadSessionState)
    (desiredReservation : ℕ) : Except ContentError QuotaLedger :=
  let storageDomainId := state.options.storageDomainId
  let existing := ledger.reservations.lookup state.uploadId
  if existing.any fun reservation => reservation.storageDomainId ≠ storageDomainId then
    .error (.other
      (.invalidFormat "content upload physical reservation changed storage domain"))
  else
    let alreadyReserved := existing.elim 0 ContentPhysicalReservationRecord.reservedBytes
    if existing.isSome ∧ desiredReservation ≤ alreadyReserved then .ok ledger
    else do
      let additional := desiredReservation - alreadyReserved
      let quota := ledger.readContentPhysicalQuota storageDomainId
      let reserved ← checked quota.uploadReservedBytes additional
        "content physical reservation counter overflow"
      let accounted ← checked quota.uniqueContentBytes reserved
        "content physical accounting counter overflow"
      if exceeds quota accounted then
        .error (.physicalQuotaExceeded (quota.limit.getD 0) quota.uniqueContentBytes
          quota.uploadReservedBytes additional)
      else
        return { ledger.putQuota storageDomainId { quota with uploadReservedBytes := reserved } with
          reservations := ledger.reservations.insert state.uploadId
            ⟨storageDomainId, desiredReservation⟩ }

def releaseContentUploadReservation (ledger : QuotaLedger) (storageDomainId : StorageDomainId)
    (uploadId : UploadId) : Except ContentError QuotaLedger :=
  match ledger.reservations.lookup uploadId with
  | none => .ok ledger
  | some reservation =>
    if reservation.storageDomainId ≠ storageDomainId then
      .error (.other (.corruption "content upload physical reservation changed storage domain"))
    else
      let quota := ledger.readContentPhysicalQuota reservation.storageDomainId
      match checkedSub quota.uploadReservedBytes reservation.reservedBytes with
      | none =>
        .error (.other (.corruption "content physical reservation exceeds its domain counter"))
      | some reserved =>
        .ok { ledger.putQuota reservation.storageDomainId
            { quota with uploadReservedBytes := reserved } with
          reservations := ledger.reservations.erase uploadId }

def finalizeContentUploadQuota (ledger : QuotaLedger) (uploadId : UploadId)
    (sealed : SealedContent) : Except ContentError QuotaLedger :=
  let storageDomainId := sealed.storageDomainId
  let account := ledger.accounts.lookup (storageDomainId, sealed.contentId)
  if account.any fun originalBytes => originalBytes ≠ sealed.length then
    .error (.other (.corruption "content physical account length differs from descriptor"))
  else
    match ledger.reservations.lookup uploadId with
    | none =>
      if account.isSome then .ok ledger
      else .error (.other
        (.corruption "sealing content upload has no physical quota reservation"))
    | some reservation =>
      if reservation.storageDomainId ≠ storageDomainId ∨ reservation.reservedBytes < sealed.length
      then .error (.other
        (.corruption "content physical reservation does not cover sealed bytes"))
      else
        let quota := ledger.readContentPhysicalQuota storageDomainId
        match checkedSub quota.uploadReservedBytes reservation.reservedBytes with
        | none =>
          .error (.other (.corruption "content physical reservation exceeds its domain counter"))
        | some reserved => do
          let unique ←
            (if account.isSome then .ok quota.uniqueContentBytes
            else checked quota.uniqueContentBytes sealed.length
              "content physical unique-byte counter overflow")
          let accounted ← checked unique reserved "content physical accounting counter overflow"
          if exceeds quota accounted then
            .error (.physicalQuotaExceeded (quota.limit.getD 0) quota.uniqueContentBytes
              quota.uploadReservedBytes 0)
          else
            return { ledger.putQuota storageDomainId
                { quota with uniqueContentBytes := unique, uploadReservedBytes := reserved } with
              reservations := ledger.reservations.erase uploadId
              accounts := if account.isSome then ledger.accounts
                else ledger.accounts.insert (storageDomainId, sealed.contentId) sealed.length }

def stageReclaimedContentQuota (ledger : QuotaLedger) (storageDomainId : StorageDomainId)
    (contentId : ContentId) : Except ContentError QuotaLedger :=
  match ledger.accounts.lookup (storageDomainId, contentId) with
  | none => .error (.other (.corruption "reclaimed content has no physical-byte account"))
  | some originalBytes =>
    let quota := ledger.readContentPhysicalQuota storageDomainId
    match checkedSub quota.uniqueContentBytes originalBytes with
    | none =>
      .error (.other (.corruption "reclaimed content exceeds physical unique-byte counter"))
    | some unique =>
      .ok { ledger.putQuota storageDomainId { quota with uniqueContentBytes := unique } with
        accounts := ledger.accounts.erase (storageDomainId, contentId) }

/-! ## Balanced ledgers -/

def reservationWeight (storageDomainId : StorageDomainId) (_ : UploadId)
    (reservation : ContentPhysicalReservationRecord) : ℕ :=
  if reservation.storageDomainId = storageDomainId then reservation.reservedBytes else 0

def accountWeight (storageDomainId : StorageDomainId) (key : StorageDomainId × ContentId)
    (originalBytes : ℕ) : ℕ :=
  if key.1 = storageDomainId then originalBytes else 0

def WithinLimit (quota : ContentPhysicalQuota) : Prop :=
  (∀ limit, quota.limit = some limit →
    quota.uniqueContentBytes + quota.uploadReservedBytes ≤ limit) ∧
  quota.uniqueContentBytes + quota.uploadReservedBytes ≤ maxU64

/-- The counters of every domain are the sums of its records, and their sum keeps within the limit
and has at most 64 bits. -/
structure Balanced (ledger : QuotaLedger) : Prop where
  reserved : ∀ domain, (ledger.readContentPhysicalQuota domain).uploadReservedBytes =
    total (reservationWeight domain) ledger.reservations
  unique : ∀ domain, (ledger.readContentPhysicalQuota domain).uniqueContentBytes =
    total (accountWeight domain) ledger.accounts
  within : ∀ domain, WithinLimit (ledger.readContentPhysicalQuota domain)

variable {ledger ledger' : QuotaLedger} {domain : StorageDomainId} {quota : ContentPhysicalQuota}

lemma balanced_empty : empty.Balanced :=
  ⟨fun _ => rfl, fun _ => rfl, fun _ => ⟨fun _ h => (nomatch h), Nat.zero_le _⟩⟩

lemma readContentPhysicalQuota_putQuota (ledger : QuotaLedger) (domain other : StorageDomainId)
    (quota : ContentPhysicalQuota) :
    (ledger.putQuota domain quota).readContentPhysicalQuota other =
      if other = domain then quota else ledger.readContentPhysicalQuota other := by
  unfold putQuota readContentPhysicalQuota
  by_cases h : other = domain
  · subst h
    simp
  · simp [h]

/-- A transaction on one domain keeps the ledger balanced if its own counters fit and its records
weigh the same in the other domains. -/
lemma Balanced.update (h : ledger.Balanced)
    (hreserved : quota.uploadReservedBytes = total (reservationWeight domain) reservations)
    (hunique : quota.uniqueContentBytes = total (accountWeight domain) accounts)
    (hwithin : WithinLimit quota)
    (hreservations : ∀ other, other ≠ domain → total (reservationWeight other) reservations =
      total (reservationWeight other) ledger.reservations)
    (haccounts : ∀ other, other ≠ domain → total (accountWeight other) accounts =
      total (accountWeight other) ledger.accounts) :
    Balanced { ledger.putQuota domain quota with reservations, accounts } := by
  have hread : ∀ other, readContentPhysicalQuota
      { ledger.putQuota domain quota with reservations, accounts } other =
        if other = domain then quota else ledger.readContentPhysicalQuota other :=
    fun other => readContentPhysicalQuota_putQuota ledger domain other quota
  refine ⟨fun other => ?_, fun other => ?_, fun other => ?_⟩
  all_goals
    rw [hread]
    split
    case isTrue heq => subst heq; assumption
    case isFalse hne => ?_
  · exact (h.reserved other).trans (hreservations other hne).symm
  · exact (h.unique other).trans (haccounts other hne).symm
  · exact h.within other

lemma Balanced.setLimit (h : ledger.Balanced) {limit : Option ℕ}
    (hset : ledger.setContentPhysicalQuota domain limit = .ok ledger') : ledger'.Balanced := by
  unfold setContentPhysicalQuota at hset
  have hupdate : ∀ limit, WithinLimit
      { ledger.readContentPhysicalQuota domain with limit := limit } →
      Balanced (ledger.putQuota domain
        { ledger.readContentPhysicalQuota domain with limit := limit }) := fun limit hwithin =>
    h.update (h.reserved domain) (h.unique domain) hwithin (fun _ _ => rfl) fun _ _ => rfl
  have hbounded := (h.within domain).2
  cases limit with
  | none =>
    obtain rfl := Except.ok.inj hset
    exact hupdate none ⟨fun _ h => (nomatch h), hbounded⟩
  | some limit =>
    dsimp only at hset
    split at hset
    · cases hset
    case isFalse hle =>
      obtain rfl := Except.ok.inj hset
      refine hupdate (some limit) ⟨fun limit' heq => ?_, hbounded⟩
      obtain rfl := Option.some.inj heq
      rw [ContentPhysicalQuota.accountedBytes, Nat.min_eq_left hbounded] at hle
      exact Nat.le_of_not_lt hle

lemma checked_eq_ok {sum : ℕ} {message : String}
    (h : checked left right message = .ok sum) : sum = left + right ∧ sum ≤ maxU64 := by
  unfold checked checkedAdd at h
  split_ifs at h with hle
  · obtain rfl := Except.ok.inj h
    exact ⟨rfl, hle⟩

lemma not_exceeds_iff {accounted : ℕ} : ¬exceeds quota accounted = true ↔
    ∀ limit, quota.limit = some limit → accounted ≤ limit := by
  unfold exceeds
  cases quota.limit with
  | none => simp
  | some limit => simp

lemma checkedSub_eq_some {difference : ℕ}
    (h : checkedSub left right = some difference) : right ≤ left ∧ difference = left - right := by
  unfold checkedSub at h
  split_ifs at h with hle
  exact ⟨hle, (Option.some.inj h).symm⟩

/-! ## The transactions keep the balance -/

lemma total_insert_reservation {bytes : ℕ}
    (hsame : ∀ reservation, reservations.lookup uploadId = some reservation →
      reservation.storageDomainId = domain) (other : StorageDomainId) :
    total (reservationWeight other) (reservations.insert uploadId ⟨domain, bytes⟩) +
        (if other = domain then
          (reservations.lookup uploadId).elim 0 ContentPhysicalReservationRecord.reservedBytes
        else 0) =
      total (reservationWeight other) reservations + if other = domain then bytes else 0 := by
  rw [total_insert, total_eq_add_erase (reservationWeight other) reservations uploadId, weightAt]
  cases hlookup : reservations.lookup uploadId with
  | none =>
    simp only [reservationWeight, elim_none, eq_comm, ite_self]
    omega
  | some reservation =>
    obtain rfl := hsame reservation hlookup
    simp only [reservationWeight, elim_some, eq_comm]
    omega

lemma total_erase_reservation
    (hlookup : reservations.lookup uploadId = some reservation) (other : StorageDomainId) :
    total (reservationWeight other) reservations =
      (if other = reservation.storageDomainId then reservation.reservedBytes else 0) +
        total (reservationWeight other) (reservations.erase uploadId) := by
  rw [total_eq_add_erase (reservationWeight other) reservations uploadId,
    weightAt_of_lookup hlookup, reservationWeight]
  simp only [eq_comm]

lemma total_erase_account {originalBytes : ℕ}
    (hlookup : accounts.lookup (domain, contentId) = some originalBytes) (other : StorageDomainId) :
    total (accountWeight other) accounts =
      (if other = domain then originalBytes else 0) +
        total (accountWeight other) (accounts.erase (domain, contentId)) := by
  rw [total_eq_add_erase (accountWeight other) accounts (domain, contentId),
    weightAt_of_lookup hlookup, accountWeight]
  simp only [eq_comm]

lemma total_insert_account {originalBytes : ℕ}
    (hlookup : accounts.lookup (domain, contentId) = none) (other : StorageDomainId) :
    total (accountWeight other) (accounts.insert (domain, contentId) originalBytes) =
      (if other = domain then originalBytes else 0) + total (accountWeight other) accounts := by
  rw [total_insert, total_eq_add_erase (accountWeight other) accounts (domain, contentId),
    weightAt_of_lookup_none hlookup, accountWeight, Nat.zero_add]
  simp only [eq_comm]

/-- What reserving does: nothing when enough is reserved already; otherwise the reservation is what
was asked for, and the counter grows by the difference. -/
lemma reserve_cases
    (h : ledger.reserveContentUploadBytes state desired = .ok ledger') :
    (∀ reservation, ledger.reservations.lookup state.uploadId = some reservation →
      reservation.storageDomainId = state.options.storageDomainId) ∧
    ((ledger' = ledger ∧ ∃ reservation, ledger.reservations.lookup state.uploadId =
        some reservation ∧ desired ≤ reservation.reservedBytes) ∨
      ∃ additional, ((ledger.reservations.lookup state.uploadId).elim 0
          ContentPhysicalReservationRecord.reservedBytes) + additional = desired ∧
        WithinLimit { ledger.readContentPhysicalQuota state.options.storageDomainId with
          uploadReservedBytes := (ledger.readContentPhysicalQuota
            state.options.storageDomainId).uploadReservedBytes + additional } ∧
        ledger' = { ledger.putQuota state.options.storageDomainId
            { ledger.readContentPhysicalQuota state.options.storageDomainId with
              uploadReservedBytes := (ledger.readContentPhysicalQuota
                state.options.storageDomainId).uploadReservedBytes + additional } with
          reservations := ledger.reservations.insert state.uploadId
            ⟨state.options.storageDomainId, desired⟩ }) := by
  unfold reserveContentUploadBytes at h
  dsimp only at h
  split_ifs at h with hdomain henough
  all_goals
    have hsame : ∀ reservation, ledger.reservations.lookup state.uploadId = some reservation →
        reservation.storageDomainId = state.options.storageDomainId := by
      intro reservation hlookup
      rw [hlookup, any_some, decide_eq_true_eq, not_not] at hdomain
      exact hdomain
    refine ⟨hsame, ?_⟩
  · obtain ⟨reservation, hlookup⟩ := isSome_iff_exists.mp henough.1
    refine .inl ⟨(Except.ok.inj h).symm, reservation, hlookup, ?_⟩
    have hle := henough.2
    rwa [hlookup, elim_some] at hle
  · right
    obtain ⟨reserved, hreserved, h⟩ := ByteCodec.bind_eq_ok.mp h
    obtain ⟨accounted, haccounted, h⟩ := ByteCodec.bind_eq_ok.mp h
    split_ifs at h with hexceeds
    obtain ⟨rfl, -⟩ := checked_eq_ok hreserved
    obtain ⟨rfl, hbounded⟩ := checked_eq_ok haccounted
    refine ⟨_, ?_, ⟨not_exceeds_iff.mp hexceeds, hbounded⟩, (Except.ok.inj h).symm⟩
    cases hlookup : ledger.reservations.lookup state.uploadId with
    | none => simp
    | some reservation =>
      rw [hlookup] at henough
      simp only [isSome_some, elim_some, true_and] at henough ⊢
      omega

lemma Balanced.reserve (h : ledger.Balanced)
    (hreserve : ledger.reserveContentUploadBytes state desired = .ok ledger') :
    ledger'.Balanced := by
  obtain ⟨hsame, ⟨rfl, -⟩ | ⟨additional, hdesired, hwithin, rfl⟩⟩ := reserve_cases hreserve
  · exact h
  · have htotal := @total_insert_reservation ledger.reservations state.uploadId
      state.options.storageDomainId desired hsame
    refine h.update ?_ (h.unique _) hwithin (fun other hne => ?_) fun _ _ => rfl
    · have heq := htotal state.options.storageDomainId
      rw [if_pos rfl, if_pos rfl] at heq
      have hcounter := h.reserved state.options.storageDomainId
      dsimp only
      omega
    · have heq := htotal other
      rwa [if_neg hne, if_neg hne] at heq

lemma exists_reservation_of_reserve
    (hreserve : ledger.reserveContentUploadBytes state desired = .ok ledger') :
    ∃ reservation, ledger'.reservations.lookup state.uploadId = some reservation ∧
      desired ≤ reservation.reservedBytes := by
  obtain ⟨-, ⟨rfl, hcovers⟩ | ⟨additional, -, -, rfl⟩⟩ := reserve_cases hreserve
  · exact hcovers
  · exact ⟨_, AList.lookup_insert _, le_refl _⟩

lemma lookup_of_reserve
    (hreserve : ledger.reserveContentUploadBytes state desired = .ok ledger')
    (hlookup : ledger.reservations.lookup uploadId = some reservation) :
    ∃ reservation', ledger'.reservations.lookup uploadId = some reservation' ∧
      reservation.reservedBytes ≤ reservation'.reservedBytes := by
  obtain ⟨-, ⟨rfl, -⟩ | ⟨additional, hdesired, -, rfl⟩⟩ := reserve_cases hreserve
  · exact ⟨reservation, hlookup, le_refl _⟩
  · by_cases heq : uploadId = state.uploadId
    · subst heq
      refine ⟨_, AList.lookup_insert _, ?_⟩
      rw [hlookup, elim_some] at hdesired
      dsimp only
      omega
    · exact ⟨reservation, (AList.lookup_insert_ne heq).trans hlookup, le_refl _⟩

lemma Balanced.release (h : ledger.Balanced)
    (hrelease : ledger.releaseContentUploadReservation domain uploadId = .ok ledger') :
    ledger'.Balanced := by
  unfold releaseContentUploadReservation at hrelease
  cases hlookup : ledger.reservations.lookup uploadId with
  | none =>
    rw [hlookup] at hrelease
    obtain rfl := Except.ok.inj hrelease
    exact h
  | some reservation =>
    rw [hlookup] at hrelease
    dsimp only at hrelease
    split_ifs at hrelease
    split at hrelease
    · cases hrelease
    next reserved hreserved =>
      obtain rfl := Except.ok.inj hrelease
      obtain ⟨hle, rfl⟩ := checkedSub_eq_some hreserved
      have htotal := total_erase_reservation hlookup
      have hcounter := h.reserved reservation.storageDomainId
      have hwithin := h.within reservation.storageDomainId
      refine h.update ?_ (h.unique _) ⟨fun limit hlimit => ?_, ?_⟩ (fun other hne => ?_)
        fun _ _ => rfl
      · have heq := htotal reservation.storageDomainId
        rw [if_pos rfl] at heq
        dsimp only
        omega
      · have hle' := hwithin.1 limit hlimit
        dsimp only
        omega
      · have hle' := hwithin.2
        dsimp only
        omega
      · have heq := htotal other
        rw [if_neg hne] at heq
        omega

lemma Balanced.reclaim (h : ledger.Balanced)
    (hreclaim : ledger.stageReclaimedContentQuota domain contentId = .ok ledger') :
    ledger'.Balanced := by
  unfold stageReclaimedContentQuota at hreclaim
  split at hreclaim
  · cases hreclaim
  next originalBytes hlookup =>
    dsimp only at hreclaim
    split at hreclaim
    · cases hreclaim
    next unique hunique =>
      obtain rfl := Except.ok.inj hreclaim
      obtain ⟨hle, rfl⟩ := checkedSub_eq_some hunique
      have htotal := total_erase_account hlookup
      have hcounter := h.unique domain
      have hwithin := h.within domain
      refine h.update (h.reserved _) ?_ ⟨fun limit hlimit => ?_, ?_⟩ (fun _ _ => rfl)
        fun other hne => ?_
      · have heq := htotal domain
        rw [if_pos rfl] at heq
        dsimp only
        omega
      · have hle' := hwithin.1 limit hlimit
        dsimp only
        omega
      · have hle' := hwithin.2
        dsimp only
        omega
      · have heq := htotal other
        rw [if_neg hne] at heq
        omega

lemma WithinLimit.finalize {reservedBytes length unique : ℕ} (h : WithinLimit quota)
    (hreserved : reservedBytes ≤ quota.uploadReservedBytes) (hlength : length ≤ reservedBytes)
    (hunique : unique ≤ quota.uniqueContentBytes + length) :
    WithinLimit { quota with
      uniqueContentBytes := unique
      uploadReservedBytes := quota.uploadReservedBytes - reservedBytes } := by
  refine ⟨fun limit hlimit => ?_, ?_⟩
  · have hle := h.1 limit hlimit
    dsimp only
    omega
  · have hle := h.2
    dsimp only
    omega

lemma Balanced.charge (h : ledger.Balanced)
    (hlookup : ledger.reservations.lookup uploadId = some reservation) {unique length : ℕ}
    (hlength : length ≤ reservation.reservedBytes)
    (hle : reservation.reservedBytes ≤
      (ledger.readContentPhysicalQuota reservation.storageDomainId).uploadReservedBytes)
    (hcharged : unique ≤
      (ledger.readContentPhysicalQuota reservation.storageDomainId).uniqueContentBytes + length)
    (hunique : unique = total (accountWeight reservation.storageDomainId) accounts)
    (haccounts : ∀ other, other ≠ reservation.storageDomainId →
      total (accountWeight other) accounts = total (accountWeight other) ledger.accounts) :
    (∀ limit, (ledger.readContentPhysicalQuota reservation.storageDomainId).limit = some limit →
      unique + ((ledger.readContentPhysicalQuota reservation.storageDomainId).uploadReservedBytes -
        reservation.reservedBytes) ≤ limit) ∧
    Balanced { ledger.putQuota reservation.storageDomainId
        { ledger.readContentPhysicalQuota reservation.storageDomainId with
          uniqueContentBytes := unique
          uploadReservedBytes :=
            (ledger.readContentPhysicalQuota reservation.storageDomainId).uploadReservedBytes -
              reservation.reservedBytes } with
      reservations := ledger.reservations.erase uploadId, accounts } := by
  have hwithin := (h.within reservation.storageDomainId).finalize hle hlength hcharged
  have htotal := total_erase_reservation hlookup
  refine ⟨hwithin.1, h.update ?_ hunique hwithin (fun other hne => ?_) haccounts⟩
  · have heq := htotal reservation.storageDomainId
    have hcounter := h.reserved reservation.storageDomainId
    rw [if_pos rfl] at heq
    dsimp only
    omega
  · have heq := htotal other
    rw [if_neg hne] at heq
    omega

/-- A balanced ledger with the other reservations, or an error other than an exceeded limit. -/
def Settles (ledger : QuotaLedger) (uploadId : UploadId) : Except ContentError QuotaLedger → Prop
  | .ok ledger' => ledger'.Balanced ∧ ∀ other, other ≠ uploadId →
      ledger'.reservations.lookup other = ledger.reservations.lookup other
  | .error error => ∀ limit unique reserved requested,
      error ≠ .physicalQuotaExceeded limit unique reserved requested

lemma settles_other (ledger : QuotaLedger) (uploadId : UploadId) (error : Error) :
    Settles ledger uploadId (.error (.other error)) := by
  simp [Settles]

lemma settles_checked {message : String}
    {next : ℕ → Except ContentError QuotaLedger}
    (h : Settles ledger uploadId (next (left + right))) :
    Settles ledger uploadId (checked left right message >>= next) := by
  cases hchecked : checked left right message with
  | ok sum =>
    obtain ⟨rfl, -⟩ := checked_eq_ok hchecked
    exact h
  | error error =>
    unfold checked at hchecked
    split at hchecked
    · cases hchecked
    · obtain rfl := Except.error.inj hchecked
      exact settles_other ledger uploadId _

/-- What finalizing does to a balanced ledger: nothing, or the reservation becomes the account, and
never is the limit exceeded.

**Proof sketch.** The account weighs at most as much as the reservation that it replaces. -/
lemma Balanced.settles_finalize (h : ledger.Balanced) (uploadId : UploadId)
    (sealed : SealedContent) :
    Settles ledger uploadId (ledger.finalizeContentUploadQuota uploadId sealed) := by
  unfold finalizeContentUploadQuota
  dsimp only
  split
  · exact settles_other ledger uploadId _
  cases hlookup : ledger.reservations.lookup uploadId with
  | none =>
    dsimp only
    split
    · exact ⟨h, fun _ _ => rfl⟩
    · exact settles_other ledger uploadId _
  | some reservation =>
    dsimp only
    split
    · exact settles_other ledger uploadId _
    next hcovers =>
    rw [not_or, not_not, Nat.not_lt] at hcovers
    obtain ⟨hdomain, hlength⟩ := hcovers
    rw [← hdomain]
    split
    · exact settles_other ledger uploadId _
    next reserved hreserved =>
    obtain ⟨hle, rfl⟩ := checkedSub_eq_some hreserved
    have herase : ∀ other, other ≠ uploadId →
        (ledger.reservations.erase uploadId).lookup other = ledger.reservations.lookup other :=
      fun other hne => AList.lookup_erase_ne hne
    cases haccount : ledger.accounts.lookup (reservation.storageDomainId, sealed.contentId) with
    | some originalBytes =>
      obtain ⟨hlimit, hbalanced⟩ := h.charge hlookup hlength hle (Nat.le_add_right _ _)
        (h.unique reservation.storageDomainId) fun _ _ => rfl
      refine settles_checked ?_
      rw [if_neg (not_exceeds_iff.mpr hlimit)]
      exact ⟨hbalanced, herase⟩
    | none =>
      have htotal := @total_insert_account ledger.accounts sealed.contentId
        reservation.storageDomainId sealed.length haccount
      have hunique := h.unique reservation.storageDomainId
      obtain ⟨hlimit, hbalanced⟩ := h.charge hlookup hlength hle (le_refl _)
        (by rw [htotal, if_pos rfl, ← hunique, Nat.add_comm])
        fun other hne => by rw [htotal, if_neg hne, Nat.zero_add]
      refine settles_checked (settles_checked ?_)
      rw [if_neg (not_exceeds_iff.mpr hlimit)]
      exact ⟨hbalanced, herase⟩

end QuotaLedger

end TrineKv.Content
