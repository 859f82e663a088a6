import TrineKv.Keys.Record

/-!
# Upload sessions

Content is uploaded under an upload identity. The state of an upload is one object that is replaced
as a whole: it is open while bytes are written, then sealing and sealed, or aborting. At the end a
tombstone takes its place.
-/

namespace TrineKv.Content

/-- The greatest unsigned number of 64 bits. -/
def maxU64 : ℕ := 2 ^ 64 - 1

/-- Addition that fails when the result has more than 64 bits. -/
def checkedAdd (left right : ℕ) : Option ℕ :=
  if left + right ≤ maxU64 then some (left + right) else none

/-- Subtraction that fails when the result is negative. -/
def checkedSub (left right : ℕ) : Option ℕ :=
  if right ≤ left then some (left - right) else none

/-- The identity of an upload; a number stands for its bytes. -/
structure UploadId where
  value : ℕ
  deriving DecidableEq, Repr

/-- The identity of a storage domain; a number stands for its bytes. -/
structure StorageDomainId where
  value : ℕ
  deriving DecidableEq, Repr

/-- The identity of content, the digest of its bytes; a number stands for it. -/
structure ContentId where
  value : ℕ
  deriving DecidableEq, Repr

/-- How an identity is retired. -/
inductive UploadIdRetirement where
  | aborted
  | sealed
  deriving DecidableEq, Repr

inductive ContentError where
  | other (error : Error)
  | closed
  | lengthMismatch (expected actual : ℕ)
  | physicalQuotaExceeded (limit uniqueContentBytes uploadReservedBytes requestedBytes : ℕ)
  deriving DecidableEq, Repr

structure ContentUploadOptions where
  storageDomainId : StorageDomainId
  chunkBytes : ℕ
  expectedLength : Option ℕ
  expectedContentId : Option ContentId
  deriving DecidableEq, Repr

structure SealedContent where
  storageDomainId : StorageDomainId
  contentId : ContentId
  length : ℕ
  tokenExpiresAt : ℕ
  deriving DecidableEq, Repr

inductive UploadSessionStatus where
  | open
  | sealing (sealed : SealedContent)
  | sealed (sealed : SealedContent)
  | aborting
  deriving DecidableEq, Repr

structure UploadSessionState where
  uploadId : UploadId
  revision : ℕ
  options : ContentUploadOptions
  length : ℕ
  completeChunks : ℕ
  partialLen : ℕ
  status : UploadSessionStatus
  deriving DecidableEq, Repr

inductive UploadObject where
  | state (state : UploadSessionState)
  | tombstone (retirement : UploadIdRetirement)
  deriving DecidableEq, Repr

namespace UploadSessionState

def nextRevision (state : UploadSessionState) : Except ContentError ℕ :=
  match checkedAdd state.revision 1 with
  | some revision => .ok revision
  | none => .error (.other (.invalidOptions "content upload revision overflow"))

def initial (uploadId : UploadId) (options : ContentUploadOptions) : UploadSessionState where
  uploadId := uploadId
  revision := 0
  options := options
  length := 0
  completeChunks := 0
  partialLen := 0
  status := .open

def intoSealing (state : UploadSessionState) (contentId : ContentId) (tokenExpiresAt : ℕ) :
    Except ContentError UploadSessionState := do
  let revision ← state.nextRevision
  return { state with
    revision
    status := .sealing ⟨state.options.storageDomainId, contentId, state.length, tokenExpiresAt⟩ }

def intoSealed (state : UploadSessionState) : Except ContentError UploadSessionState :=
  match state.status with
  | .sealing sealed => do
    let revision ← state.nextRevision
    return { state with revision, status := .sealed sealed }
  | _ => .error (.other
      (.invalidFormat "content upload can become sealed only from sealing state"))

def intoAborting (state : UploadSessionState) : Except ContentError UploadSessionState :=
  match state.status with
  | .open => do
    let revision ← state.nextRevision
    return { state with revision, status := .aborting }
  | _ => .error (.other
      (.invalidFormat "only an open content upload can enter aborting state"))

/-- What is reserved for an upload before more bytes come. -/
def initialUploadReservation (state : UploadSessionState) : ℕ :=
  state.options.expectedLength.getD state.length

end UploadSessionState

end TrineKv.Content
