import Mathlib.Algebra.Ring.Nat
import Mathlib.Data.List.Sort
import VpnPi.Async.Service
import VpnPi.Js.OrdMap
import VpnPi.Js.Scalar
import VpnPi.Island.Platform

/-!
# `Island.Share` — the file share (`core/share.ts`)

One interface with an in-memory implementation and a table in SQLite. The table is taken with what its schema
promises: `AUTOINCREMENT` gives each row the number after the largest ever given, a `TEXT` column is a
`TextChannel`, and a `BLOB` returns the bytes it was given. A row is found by the number it was stored under, so
`id` is any number a caller can pass.
-/

namespace VpnPi
namespace Island

open Js Async

/-! ## File names -/

/-- `[/\\]`. -/
def isSeparator (u : UInt16) : Bool := u = 0x2f || u = 0x5c

/-- `raw.split(/[/\\]/).pop()`. -/
def baseName (raw : JsString) : JsString := (raw.reverse.takeWhile fun u => !isSeparator u).reverse

/-- `[\u0000-\u001f\u007f"]`. -/
def isUnsafe (u : UInt16) : Bool := u < 0x20 || u = 0x7f || u = 0x22

def replaceUnsafe (s : JsString) : JsString := s.map fun u => if isUnsafe u then 0x5f else u

/-- The cleaned name before it is cut. -/
def cleanName (raw : JsString) : JsString := trim (replaceUnsafe (baseName raw))

/-- A name that is empty or a directory reads as `unnamed`. -/
def orUnnamed (clean : JsString) : JsString :=
  if clean ≠ [] ∧ clean ≠ js "." ∧ clean ≠ js ".." then clean else js "unnamed"

def sanitizeFileName (raw : JsString) : JsString := orUnnamed ((cleanName raw).take 160)

/-! ## Records -/

structure SharedFile where
  id       : Nat
  name     : JsString
  size     : Nat
  node     : JsString
  modified : JsString
  deriving DecidableEq

structure FilesSnapshot where
  root  : JsString
  bind  : JsString
  files : List SharedFile

structure FileContent where
  name        : JsString
  contentType : Option JsString
  content     : Bytes
  deriving DecidableEq

/-- A row: what `list` shows of a file, and what `get` returns. -/
structure StoredFile extends SharedFile where
  contentType : Option JsString
  content     : Bytes

inductive ShareError where
  | fileNotFound (message : JsString)
  | shareQuotaExceeded (message : JsString)
  deriving DecidableEq

def noFile (id : Number) : ShareError := .fileNotFound (js "no file " ++ id.text)

def shareIsFull : ShareError := .shareQuotaExceeded (js "share is full")

/-- Newest first. -/
def newestFirst (files : List SharedFile) : List SharedFile := files.insertionSort fun a b => b.id ≤ a.id

/-- The sum of the stored sizes. -/
def sizeSum (rows : List StoredFile) : Nat := (rows.map fun r => r.size).sum

/-! ## `MemoryFileShare` -/

structure MemoryFileShare where
  rows          : OrdMap Number StoredFile
  nextId        : Nat
  total         : Int
  maxTotalBytes : Nat

namespace MemoryFileShare

def new (maxTotalBytes : Nat) : MemoryFileShare := ⟨.empty, 1, 0, maxTotalBytes⟩

def list (s : MemoryFileShare) : FilesSnapshot :=
  ⟨js "memory", js "mock", newestFirst (s.rows.values.map StoredFile.toSharedFile)⟩

/-- `modified` is what the clock reads. -/
def add (s : MemoryFileShare) (name : JsString) (content : Bytes) (node : JsString)
    (contentType : Option JsString) (modified : JsString) : Except ShareError SharedFile × MemoryFileShare :=
  if (s.maxTotalBytes : Int) < s.total + content.length then (.error shareIsFull, s)
  else
    let record : StoredFile := ⟨⟨s.nextId, sanitizeFileName name, content.length, node, modified⟩, contentType, content⟩
    (.ok record.toSharedFile,
      { s with nextId := s.nextId + 1, rows := s.rows.set (.ofInt s.nextId) record, total := s.total + content.length })

def get (s : MemoryFileShare) (id : Number) : Except ShareError FileContent × MemoryFileShare :=
  match s.rows.get id with
  | none => (.error (noFile id), s)
  | some r => (.ok ⟨r.name, r.contentType, r.content⟩, s)

def remove (s : MemoryFileShare) (id : Number) : Except ShareError Unit × MemoryFileShare :=
  match s.rows.get id with
  | none => (.error (noFile id), s)
  | some r => (.ok (), { s with total := s.total - r.size, rows := s.rows.delete id })

end MemoryFileShare

/-! ## `SqliteFileShare` -/

/-- The table, its rows in the order of their ids, and the largest id it ever gave out. -/
structure SqliteFileShare where
  rows          : List StoredFile
  sequence      : Nat
  rootLabel     : JsString
  bind          : JsString
  maxTotalBytes : Nat

namespace SqliteFileShare

def new (rootLabel bind : JsString) (maxTotalBytes : Nat) : SqliteFileShare := ⟨[], 0, rootLabel, bind, maxTotalBytes⟩

/-- `ORDER BY id DESC`. -/
def list (s : SqliteFileShare) : FilesSnapshot :=
  ⟨s.rootLabel, s.bind, newestFirst (s.rows.map StoredFile.toSharedFile)⟩

/-- `WHERE id = ?`. -/
def hasId (id : Number) (r : StoredFile) : Bool := Number.ofInt r.id = id

variable (text : TextChannel)

/-- The row answers with the strings it was given; its columns hold what arrived. -/
def add (s : SqliteFileShare) (name : JsString) (content : Bytes) (node : JsString)
    (contentType : Option JsString) (modified : JsString) : Except ShareError SharedFile × SqliteFileShare :=
  let total := sizeSum s.rows
  if s.maxTotalBytes < total + content.length then (.error shareIsFull, s)
  else
    let safeName := sanitizeFileName name
    let id := s.sequence + 1
    let row : StoredFile :=
      ⟨⟨id, text.carry safeName, content.length, text.carry node, text.carry modified⟩,
        contentType.map text.carry, content⟩
    (.ok ⟨id, safeName, content.length, node, modified⟩, { s with rows := s.rows ++ [row], sequence := id })

def get (s : SqliteFileShare) (id : Number) : Except ShareError FileContent × SqliteFileShare :=
  match s.rows.find? (hasId id) with
  | none => (.error (noFile id), s)
  | some r => (.ok ⟨r.name, r.contentType, r.content⟩, s)

/-- `res.changes` is how many rows the statement deleted. -/
def remove (s : SqliteFileShare) (id : Number) : Except ShareError Unit × SqliteFileShare :=
  let changes := (s.rows.filter (hasId id)).length
  if changes = 0 then (.error (noFile id), s)
  else (.ok (), { s with rows := s.rows.filter fun r => !hasId id r })

end SqliteFileShare

/-! ## The two as services -/

inductive ShareCall where
  | list
  | add (name : JsString) (content : Bytes) (node : JsString) (contentType : Option JsString) (modified : JsString)
  | get (id : Number)
  | remove (id : Number)

inductive ShareResult where
  | files (files : List SharedFile)
  | added (file : SharedFile)
  | content (content : FileContent)
  | removed
  deriving DecidableEq

/-- What a method returned, as a result of any of them. -/
def asResult {α σ : Type} (f : α → ShareResult) (r : Except ShareError α × σ) : Except ShareError ShareResult × σ :=
  (r.1.map f, r.2)

/-- A call of the in-memory share. Of a snapshot the files count, not the labels. -/
def MemoryFileShare.call : Service MemoryFileShare ShareCall (Except ShareError ShareResult)
  | s, .list => (.ok (.files s.list.files), s)
  | s, .add name content node contentType modified =>
      asResult .added (s.add name content node contentType modified)
  | s, .get id => asResult .content (s.get id)
  | s, .remove id => asResult (fun _ => .removed) (s.remove id)

/-- A call of the share in the database. -/
def SqliteFileShare.call (text : TextChannel) : Service SqliteFileShare ShareCall (Except ShareError ShareResult)
  | s, .list => (.ok (.files s.list.files), s)
  | s, .add name content node contentType modified =>
      asResult .added (s.add text name content node contentType modified)
  | s, .get id => asResult .content (s.get id)
  | s, .remove id => asResult (fun _ => .removed) (s.remove id)

end Island
end VpnPi
