import VpnPi.Async.FirstWins
import VpnPi.Js.Utf8
import VpnPi.Mesh.Relay
import VpnPi.Mesh.Shipper

/-!
# `Mesh.MeshSource` — the master's half (`app/ids_crypto.py`, `app/sources/mesh.py`)

The master drains the hub from its cursor, opens each blob, and keeps what it opened under the node and the number
on the blob, the first one if there are several. `Envelope` holds what `seal_sign` and `open_verify` call, with the
keys of one node and of the master.

`_open` rejects a blob for which it gets a `VerificationError`. Any other exception leaves `ids()`: a text that is no
base64, a signature of another length than 64 bytes under a registered name, a list or an object for a name, contents
nested too deeply. What the loop has merged by then stays, and the cursor stays where it was.
-/

namespace VpnPi
namespace Mesh

open Async Js

/-! ## The envelope -/

/-- What stands at `payload["node"]`. -/
inductive NodeField where
  | text (name : String)
  /-- A number, a boolean or `None`, which is no name in the registry. -/
  | scalar
  /-- A list or a dictionary, which cannot be looked up. -/
  | container
  deriving DecidableEq

/-- What the master reads of a payload: the name, the number, if there is one, and the event, if it is valid. -/
structure Payload where
  node  : NodeField
  seq   : Option Int
  event : Option IdsEvent
  deriving DecidableEq

/-- `{"payload": payload, "sig": ..}`, the signature in bytes. -/
structure Sealed where
  payload   : Payload
  signature : Bytes
  deriving DecidableEq

inductive PyExn where
  | verificationError
  /-- Of `base64.b64decode`. -/
  | binasciiError
  /-- Of `dict.get`, for a key that cannot be hashed. -/
  | typeError
  /-- Of `VerifyKey.verify`, for a signature of a wrong length. -/
  | valueError
  /-- Of `json.loads`, for contents that are nested too deeply. -/
  | recursionError
  deriving DecidableEq

/-- Base64, libsodium, `json` and the registry, with the keys of this node and of the master. -/
structure Envelope (node : String) where
  b64encode    : Bytes → String
  /-- `none` is a `binascii.Error`. -/
  b64decode    : String → Option Bytes
  /-- `SealedBox(master_public_key).encrypt(json.dumps(..))`, which draws an ephemeral key. -/
  encrypt      : Sealed → Nat → Bytes
  /-- `SealedBox(master_private_key).decrypt`, `json.loads` and the fields. -/
  decrypt      : Bytes → Except PyExn Sealed
  sign         : Payload → Bytes
  verify       : Bytes → Payload → Bytes → Bool
  verifyKeyFor : String → Option Bytes
  key          : Bytes
  decodes    : ∀ ct, b64decode (b64encode ct) = some ct
  decrypts   : ∀ s coins, decrypt (encrypt s coins) = .ok s
  length     : ∀ payload, (sign payload).length = 64
  registered : verifyKeyFor node = some key
  verifies   : ∀ payload, verify key payload (sign payload) = true

variable {node : String} (env : Envelope node)

/-- `b64(seal_sign(payload, ..))`. -/
def sealSign (payload : Payload) (coins : Nat) : String :=
  env.b64encode (env.encrypt ⟨payload, env.sign payload⟩ coins)

def openVerify (blob : Bytes) : Except PyExn Payload :=
  match env.decrypt blob with
  | .error e => .error e
  | .ok contents =>
      match contents.payload.node with
      | .container => .error .typeError
      | .scalar => .error .verificationError
      | .text name =>
          match env.verifyKeyFor name with
          | none => .error .verificationError
          | some verifyKey =>
              if contents.signature.length ≠ 64 then .error .valueError
              else if env.verify verifyKey contents.payload contents.signature then .ok contents.payload
              else .error .verificationError

/-! ## `MeshDataSource` -/

/-- `_MESH_CAP`. -/
def meshCap : Nat := 3000

structure MeshDataSource where
  cursor   : Nat
  events   : OrdMap (String × Int) IdsEvent
  rejected : Nat

def MeshDataSource.new : MeshDataSource := ⟨0, .empty, 0⟩

/-- A naive time is taken for UTC. -/
def DateTime.normalized (t : DateTime) : DateTime := { t with offset := some (t.offset.getD 0) }

/-- The event under the verified identity. -/
def IdsEvent.shown (e : IdsEvent) (node : String) : IdsEvent :=
  { e with node := some node, at_ := e.at_.normalized }

/-- `_open`: an event, or none for a blob that is rejected. -/
def openBlob (blob : RelayDeposit) : Except PyExn (Option IdsEvent) :=
  match env.b64decode blob.ct with
  | none => .error .binasciiError
  | some ct =>
      match openVerify env ct with
      | .error .verificationError => .ok none
      | .error e => .error e
      | .ok payload =>
          if payload.node ≠ .text blob.node ∨ payload.seq ≠ some blob.seq then .ok none
          -- the name in the payload is the one on the blob by now
          else .ok (payload.event.map fun ev => ev.shown blob.node)

/-- The loop over the batch, up to its end or to an exception. -/
def mergeBlobs : List RelayDeposit → MeshDataSource → MeshDataSource × Except PyExn Unit
  | [], m => (m, .ok ())
  | blob :: blobs, m =>
      match openBlob env blob with
      | .error e => (m, .error e)
      | .ok none => mergeBlobs blobs { m with rejected := m.rejected + 1 }
      | .ok (some ev) => mergeBlobs blobs { m with events := keep meshCap m.events ((blob.node, blob.seq), ev) }

def pullAndMerge (m : MeshDataSource) (batch : RelayBatch) : MeshDataSource × Except PyExn Unit :=
  match mergeBlobs env batch.blobs m with
  | (merged, .error e) => (merged, .error e)
  | (merged, .ok ()) => ({ merged with cursor := batch.cursor }, .ok ())

/-- `limit=500`. -/
def pullLimit : Nat := 500

/-! ## What the master holds -/

/-- The master's loop gets past this blob. -/
def Harmless (blob : RelayDeposit) : Prop := ∃ opened, openBlob env blob = .ok opened

/-- A blob that opens, as an entry of the log. -/
def blobEntry (blob : RelayDeposit) : Option ((String × Int) × IdsEvent) :=
  match openBlob env blob with
  | .ok (some ev) => some ((blob.node, blob.seq), ev)
  | _ => none

variable {env}

/-- **A batch of harmless blobs** is merged to its end. -/
theorem mergeBlobs_harmless {blobs : List RelayDeposit} (h : ∀ blob ∈ blobs, Harmless env blob) (m : MeshDataSource) :
    ∃ rejected, mergeBlobs env blobs m = ({ m with
      events := (blobs.filterMap (blobEntry env)).foldl (keep meshCap) m.events, rejected := rejected }, .ok ()) := by
  induction blobs generalizing m with
  | nil => exact ⟨m.rejected, rfl⟩
  | cons blob blobs ih =>
      obtain ⟨⟨opened, hopen⟩, hrest⟩ := List.forall_mem_cons.mp h
      rw [mergeBlobs, hopen]
      cases opened with
      | none =>
          obtain ⟨rejected, hmerge⟩ := ih hrest { m with rejected := m.rejected + 1 }
          refine ⟨rejected, hmerge.trans ?_⟩
          rw [List.filterMap_cons_none (by rw [blobEntry, hopen])]
      | some ev =>
          obtain ⟨rejected, hmerge⟩ :=
            ih hrest { m with events := keep meshCap m.events ((blob.node, blob.seq), ev) }
          refine ⟨rejected, hmerge.trans ?_⟩
          rw [List.filterMap_cons_some (by rw [blobEntry, hopen]), List.foldl_cons]

theorem pullAndMerge_harmless {batch : RelayBatch} (h : ∀ blob ∈ batch.blobs, Harmless env blob) (m : MeshDataSource) :
    (pullAndMerge env m batch).1.events = (batch.blobs.filterMap (blobEntry env)).foldl (keep meshCap) m.events ∧
      (pullAndMerge env m batch).1.cursor = batch.cursor := by
  obtain ⟨rejected, hmerge⟩ := mergeBlobs_harmless h m
  rw [pullAndMerge, hmerge]
  exact ⟨rfl, rfl⟩

/-- What a pull that raised has left of the cursor. -/
theorem cursor_of_raised {m : MeshDataSource} {blobs : List RelayDeposit} {e : PyExn}
    (h : (mergeBlobs env blobs m).2 = .error e) : (mergeBlobs env blobs m).1.cursor = m.cursor := by
  induction blobs generalizing m with
  | nil => cases h
  | cons blob blobs ih =>
      rw [mergeBlobs] at h ⊢
      cases hopen : openBlob env blob with
      | error e => rfl
      | ok opened =>
          rw [hopen] at h
          cases opened with
          | none => exact ih h
          | some ev => exact ih h

/-- **A blob of a node is shown as that node's.** -/
theorem openBlob_node {blob : RelayDeposit} {ev : IdsEvent} (h : openBlob env blob = .ok (some ev)) :
    ev.node = some blob.node := by
  unfold openBlob at h
  split at h
  · cases h
  · split at h
    · cases h
    · cases h
    · split at h
      · cases h
      · obtain ⟨ev', _, rfl⟩ := Option.map_eq_some_iff.mp (Except.ok.inj h)
        rfl

theorem blobEntry_eq_some {blob : RelayDeposit} {x : (String × Int) × IdsEvent} :
    blobEntry env blob = some x ↔ x.1 = (blob.node, blob.seq) ∧ openBlob env blob = .ok (some x.2) := by
  unfold blobEntry
  constructor
  · intro h
    split at h
    · next ev hopen =>
        obtain rfl := Option.some.inj h
        exact ⟨rfl, hopen⟩
    · cases h
  · rintro ⟨hkey, hopen⟩
    rw [hopen, ← hkey]

/-- What names a node that is not in the registry is rejected. -/
theorem openBlob_unregistered {contents : Sealed} {name : String} (hnode : contents.payload.node = .text name)
    (hkey : env.verifyKeyFor name = none) (blobNode : String) (seq : Int) (coins : Nat) :
    openBlob env ⟨blobNode, seq, env.b64encode (env.encrypt contents coins)⟩ = .ok none := by
  simp only [openBlob, env.decodes, openVerify, env.decrypts, hnode, hkey]

/-- The blob of a post. -/
def posted (env : Envelope node) (seq : Int) (e : IdsEvent) (coins : Nat) : RelayDeposit :=
  ⟨node, seq, sealSign env ⟨.text node, some seq, some e⟩ coins⟩

theorem openVerify_seal {payload : Payload} (hnode : payload.node = .text node) (coins : Nat) :
    openVerify env (env.encrypt ⟨payload, env.sign payload⟩ coins) = .ok payload := by
  simp only [openVerify, env.decrypts, hnode, env.registered, env.length, env.verifies, ne_eq, not_true_eq_false,
    if_false, if_true]

theorem openBlob_posted (seq : Int) (e : IdsEvent) (coins : Nat) :
    openBlob env (posted env seq e coins) = .ok (some (e.shown node)) := by
  simp only [openBlob, posted, sealSign, env.decodes, openVerify_seal, ne_eq, not_true_eq_false, or_self, if_false,
    Option.map_some]

theorem blobEntry_posted (seq : Int) (e : IdsEvent) (coins : Nat) :
    blobEntry env (posted env seq e coins) = some ((node, seq), e.shown node) :=
  blobEntry_eq_some.mpr ⟨rfl, openBlob_posted ..⟩

end Mesh
end VpnPi
