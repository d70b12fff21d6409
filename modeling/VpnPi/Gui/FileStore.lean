import VpnPi.Async.Service
import VpnPi.Js.OrdMap
import VpnPi.Js.Buffer
import VpnPi.Python.DateTime

/-!
# `Gui.FileStore` — the file share of the GUI (`app/store.py`, `app/db.py`)

One interface, a dictionary in memory on the builder and a table in SQLite on the file authority. The dictionary sorts its
files by the time they were added, the table by the text of that time and by id. The table is taken with what its schema
promises: `AUTOINCREMENT` numbers the rows consecutively. A `str` has no lone surrogates here; an id is any `int`, and one
of more than 64 bits raises before SQLite sees it.

* `stores_agree_iff` — when the two give the same replies.
* `get_iff_stored` — what is stored stays what it is, until it is deleted, and no id is given out twice.
-/

namespace VpnPi
namespace Gui

open Async Js Python

/-! ## Records -/

structure SharedFile where
  id       : Int
  name     : String
  size     : Nat
  node     : String
  modified : DateTime
  deriving DecidableEq

structure FilesSnapshot where
  root  : String
  bind  : String
  files : List SharedFile

/-- `(name, content_type, content)`. -/
structure FileContent where
  name        : String
  contentType : Option String
  content     : Bytes
  deriving DecidableEq

/-- What is stored under an id. A column holds the text of `modified`, of which the wire model reads the time. -/
structure FileRow where
  name        : String
  size        : Nat
  node        : String
  contentType : Option String
  content     : Bytes
  modified    : DateTime

def FileRow.shared (id : Int) (r : FileRow) : SharedFile := ⟨id, r.name, r.size, r.node, r.modified⟩

def FileRow.contents (r : FileRow) : FileContent := ⟨r.name, r.contentType, r.content⟩

inductive StoreError where
  | fileNotFound (id : Int)
  /-- `OverflowError`. -/
  | overflow
  deriving DecidableEq

/-- What `seed` adds. -/
def seeds : List (String × Bytes × String) :=
  [("README.island.txt", "island file share - upload via the GUI. wg0-only, never public.\n".toUTF8.toList, "10.42.0.1"),
    ("harden-base.sh.note", "placeholder - the real harden-base.sh lives in pi-deployment/.\n".toUTF8.toList, "10.42.0.2")]

/-- The rows of the seeds, each with the time at which it is added. -/
def seedRows (now now' : DateTime) : List FileRow :=
  (seeds.zip [now, now']).map fun s => ⟨s.1.1, s.1.2.1.length, s.1.2.2, some "text/plain", s.1.2.1, s.2⟩

/-! ## `PlaceholderFileStore` -/

structure PlaceholderFileStore where
  rows   : OrdMap Int FileRow
  nextId : Int
  bind   : String

namespace PlaceholderFileStore

def new (bind : String) : PlaceholderFileStore := ⟨.empty, 1, bind⟩

/-- `files.sort(key=lambda f: f.modified, reverse=True)`, which leaves files of one time in their order. -/
def newestFirst (files : List SharedFile) : List SharedFile :=
  files.insertionSort fun a b => b.modified.fields ≤ a.modified.fields

def list (s : PlaceholderFileStore) : FilesSnapshot :=
  ⟨"placeholder (in-memory — real DB on polaris)", s.bind, newestFirst (s.rows.entries.map fun e => e.2.shared e.1)⟩

/-- A row goes under the next id. -/
def store (s : PlaceholderFileStore) (r : FileRow) : PlaceholderFileStore :=
  { s with rows := s.rows.set s.nextId r, nextId := s.nextId + 1 }

def add (s : PlaceholderFileStore) (name : String) (content : Bytes) (node : String) (contentType : Option String)
    (now : DateTime) : SharedFile × PlaceholderFileStore :=
  let r : FileRow := ⟨name, content.length, node, contentType, content, now⟩
  (r.shared s.nextId, s.store r)

def get (s : PlaceholderFileStore) (id : Int) : Except StoreError FileContent :=
  match s.rows.get id with
  | none => .error (.fileNotFound id)
  | some r => .ok r.contents

def delete (s : PlaceholderFileStore) (id : Int) : Except StoreError Unit × PlaceholderFileStore :=
  if s.rows.has id then (.ok (), { s with rows := s.rows.delete id }) else (.error (.fileNotFound id), s)

def isEmpty (s : PlaceholderFileStore) : Bool := s.rows.entries.isEmpty

def seedIfEmpty (s : PlaceholderFileStore) (now now' : DateTime) : PlaceholderFileStore :=
  if s.isEmpty then (seedRows now now').foldl store s else s

end PlaceholderFileStore

/-! ## `SqliteFileStore` -/

/-- The table in the order of its ids, and the largest id it ever gave out. -/
structure SqliteFileStore where
  rows     : List (Int × FileRow)
  sequence : Int
  root     : String
  bind     : String

namespace SqliteFileStore

def new (root bind : String) : SqliteFileStore := ⟨[], 0, root, bind⟩

/-- `modified DESC, id DESC`. -/
def Precedes (a b : SharedFile) : Prop :=
  b.modified.isoformat < a.modified.isoformat ∨ b.modified.isoformat = a.modified.isoformat ∧ b.id ≤ a.id

instance : DecidableRel Precedes := fun _ _ => inferInstanceAs (Decidable (_ ∨ _))

/-- `ORDER BY`. -/
def orderBy (files : List SharedFile) : List SharedFile := files.insertionSort Precedes

def list (s : SqliteFileStore) : FilesSnapshot := ⟨s.root, s.bind, orderBy (s.rows.map fun e => e.2.shared e.1)⟩

def store (s : SqliteFileStore) (r : FileRow) : SqliteFileStore :=
  { s with rows := s.rows ++ [(s.sequence + 1, r)], sequence := s.sequence + 1 }

def add (s : SqliteFileStore) (name : String) (content : Bytes) (node : String) (contentType : Option String)
    (now : DateTime) : SharedFile × SqliteFileStore :=
  let r : FileRow := ⟨name, content.length, node, contentType, content, now⟩
  let s := s.store r
  (r.shared s.sequence, s)

/-- What an `INTEGER` can be compared with. -/
def Fits (id : Int) : Prop := -2 ^ 63 ≤ id ∧ id < 2 ^ 63

instance (id : Int) : Decidable (Fits id) := inferInstanceAs (Decidable (_ ∧ _))

def get (s : SqliteFileStore) (id : Int) : Except StoreError FileContent :=
  if ¬Fits id then .error .overflow
  else match s.rows.lookup id with
    | none => .error (.fileNotFound id)
    | some r => .ok r.contents

/-- `cur.rowcount` is how many rows the statement deleted. -/
def delete (s : SqliteFileStore) (id : Int) : Except StoreError Unit × SqliteFileStore :=
  if ¬Fits id then (.error .overflow, s)
  else
    let rowcount := (s.rows.filter fun e => e.1 = id).length
    if rowcount = 0 then (.error (.fileNotFound id), s)
    else (.ok (), { s with rows := s.rows.filter fun e => e.1 ≠ id })

def isEmpty (s : SqliteFileStore) : Bool := s.rows.length = 0

def seedIfEmpty (s : SqliteFileStore) (now now' : DateTime) : SqliteFileStore :=
  if s.isEmpty then (seedRows now now').foldl store s else s

end SqliteFileStore

/-! ## The two as services -/

inductive FileCall where
  | list
  | add (name : String) (content : Bytes) (node : String) (contentType : Option String) (now : DateTime)
  | get (id : Int)
  | delete (id : Int)
  | seedIfEmpty (now now' : DateTime)

inductive FileResult where
  | files (files : List SharedFile)
  | added (file : SharedFile)
  | content (content : FileContent)
  | done
  deriving DecidableEq

/-- A call of the store in memory. Of a snapshot the files count, not the configured labels. -/
def PlaceholderFileStore.call : Service PlaceholderFileStore FileCall (Except StoreError FileResult)
  | s, .list => (.ok (.files s.list.files), s)
  | s, .add name content node contentType now =>
      let added := s.add name content node contentType now
      (.ok (.added added.1), added.2)
  | s, .get id => ((s.get id).map .content, s)
  | s, .delete id =>
      let deleted := s.delete id
      (deleted.1.map fun _ => .done, deleted.2)
  | s, .seedIfEmpty now now' => (.ok .done, s.seedIfEmpty now now')

/-- A call of the store in the database. -/
def SqliteFileStore.call : Service SqliteFileStore FileCall (Except StoreError FileResult)
  | s, .list => (.ok (.files s.list.files), s)
  | s, .add name content node contentType now =>
      let added := s.add name content node contentType now
      (.ok (.added added.1), added.2)
  | s, .get id => ((s.get id).map .content, s)
  | s, .delete id =>
      let deleted := s.delete id
      (deleted.1.map fun _ => .done, deleted.2)
  | s, .seedIfEmpty now now' => (.ok .done, s.seedIfEmpty now now')

/-! ## What the stores hold -/

/-- The ids of the rows ascend, and are below the next one. -/
structure Numbered (rows : List (Int × FileRow)) (next : Int) : Prop where
  ascending : rows.Pairwise fun e e' => e.1 < e'.1
  below     : ∀ e ∈ rows, e.1 < next

theorem Numbered.store {rows : List (Int × FileRow)} {next : Int} (h : Numbered rows next) (r : FileRow) :
    Numbered (rows ++ [(next, r)]) (next + 1) := by
  constructor
  · rw [List.pairwise_append]
    refine ⟨h.ascending, List.pairwise_singleton _ _, ?_⟩
    intro e he e' he'
    obtain rfl := List.mem_singleton.mp he'
    exact h.below e he
  · intro e he
    rcases List.mem_append.mp he with he | he
    · exact Int.lt_add_one_of_le (Int.le_of_lt (h.below e he))
    · obtain rfl := List.mem_singleton.mp he
      exact Int.lt_succ next

theorem Numbered.filter {rows : List (Int × FileRow)} {next : Int} (h : Numbered rows next) (p : Int × FileRow → Bool) :
    Numbered (rows.filter p) next :=
  ⟨h.ascending.filter p, fun e he => h.below e (List.mem_filter.mp he).1⟩

theorem Numbered.nodup {rows : List (Int × FileRow)} {next : Int} (h : Numbered rows next) : (rows.map Prod.fst).Nodup :=
  List.pairwise_map.mpr (h.ascending.imp fun hlt => Int.ne_of_lt hlt)

/-- The table holds the rows of the dictionary. -/
structure Simulates (p : PlaceholderFileStore) (q : SqliteFileStore) : Prop where
  rows     : p.rows.entries = q.rows
  next     : p.nextId = q.sequence + 1
  numbered : Numbered q.rows (q.sequence + 1)

variable {p : PlaceholderFileStore} {q : SqliteFileStore}

theorem Simulates.new (root bind bind' : String) : Simulates (.new bind) (.new root bind') :=
  ⟨rfl, rfl, List.Pairwise.nil, fun _ h => absurd h List.not_mem_nil⟩

theorem Simulates.store (h : Simulates p q) (r : FileRow) : Simulates (p.store r) (q.store r) := by
  have hfresh : p.nextId ∉ p.rows.entries.map Prod.fst := by
    rw [h.rows, h.next]
    intro hmem
    obtain ⟨e, he, heq⟩ := List.mem_map.mp hmem
    exact absurd (h.numbered.below e he) (by omega)
  refine ⟨?_, congrArg (· + 1) h.next, h.numbered.store r⟩
  show OrdMap.setEntry p.nextId r p.rows.entries = q.rows ++ [(q.sequence + 1, r)]
  rw [OrdMap.setEntry_of_not_mem hfresh, h.rows, h.next]

theorem Simulates.stores (h : Simulates p q) (rs : List FileRow) :
    Simulates (rs.foldl PlaceholderFileStore.store p) (rs.foldl SqliteFileStore.store q) := by
  induction rs generalizing p q with
  | nil => exact h
  | cons r rs ih => exact ih (h.store r)

theorem Simulates.isEmpty (h : Simulates p q) : p.isEmpty = q.isEmpty := by
  rw [PlaceholderFileStore.isEmpty, SqliteFileStore.isEmpty, h.rows]
  cases q.rows <;> rfl

/-- A deletion finds a row exactly if there is one. -/
theorem filter_id_length {rows : List (Int × FileRow)} {id : Int} :
    (rows.filter fun e => e.1 = id).length = 0 ↔ rows.lookup id = none := by
  rw [List.length_eq_zero_iff, List.filter_eq_nil_iff, List.lookup_eq_none_iff]
  refine forall₂_congr fun e _ => ?_
  rw [decide_eq_true_eq, bne_iff_ne]
  exact not_congr eq_comm

/-- What a call asks for: a time that no two files share, or an id of at most 64 bits. -/
def Plain (s : PlaceholderFileStore) : FileCall → Prop
  | .list => (s.rows.values.map FileRow.modified).Nodup
  | .get id => SqliteFileStore.Fits id
  | .delete id => SqliteFileStore.Fits id
  | .add .. => True
  | .seedIfEmpty .. => True

/-- **Every plain call keeps the simulation.** -/
theorem Simulates.call (h : Simulates p q) {c : FileCall} (hc : Plain p c) : Simulates (p.call c).2 (q.call c).2 := by
  cases c with
  | list => exact h
  | add name content node contentType now => exact h.store _
  | get id => exact h
  | delete id =>
      show Simulates (p.delete id).2 (q.delete id).2
      unfold PlaceholderFileStore.delete SqliteFileStore.delete OrdMap.has OrdMap.get
      rw [if_neg (not_not.mpr (show SqliteFileStore.Fits id from hc)), h.rows]
      dsimp only
      cases hrow : q.rows.lookup id with
      | none =>
          rw [if_pos (filter_id_length.mpr hrow)]
          exact h
      | some r =>
          have hsome : (q.rows.filter fun e => e.1 = id).length ≠ 0 := by
            intro hzero
            rw [filter_id_length.mp hzero] at hrow
            cases hrow
          rw [if_pos (by rfl), if_neg hsome]
          exact ⟨congrArg (List.filter _) h.rows, h.next, h.numbered.filter _⟩
  | seedIfEmpty now now' =>
      show Simulates (p.seedIfEmpty now now') (q.seedIfEmpty now now')
      unfold PlaceholderFileStore.seedIfEmpty SqliteFileStore.seedIfEmpty
      rw [h.isEmpty]
      cases q.isEmpty with
      | true => exact h.stores _
      | false => exact h

/-! ## The order of a list -/

theorem precedes_total (a b : SharedFile) : SqliteFileStore.Precedes a b ∨ SqliteFileStore.Precedes b a := by
  unfold SqliteFileStore.Precedes
  rcases lt_trichotomy a.modified.isoformat b.modified.isoformat with hlt | heq | hlt
  · exact .inr (.inl hlt)
  · rcases Int.le_total a.id b.id with hle | hle
    · exact .inr (.inr ⟨heq, hle⟩)
    · exact .inl (.inr ⟨heq.symm, hle⟩)
  · exact .inl (.inl hlt)

theorem precedes_trans {a b c : SharedFile} (h : SqliteFileStore.Precedes a b) (h' : SqliteFileStore.Precedes b c) :
    SqliteFileStore.Precedes a c := by
  rcases h with hlt | ⟨heq, hle⟩
  · rcases h' with hlt' | ⟨heq', _⟩
    · exact .inl (lt_trans hlt' hlt)
    · exact .inl (heq' ▸ hlt)
  · rcases h' with hlt' | ⟨heq', hle'⟩
    · exact .inl (heq ▸ hlt')
    · exact .inr ⟨heq'.trans heq, Int.le_trans hle' hle⟩

/-- **Both sorts agree** exactly if no two files have the same time: of two such files the dictionary lists the older one
    first, the table the newer one. -/
theorem newestFirst_eq_orderBy_iff {files : List SharedFile} (h : files.Pairwise fun f f' => f.id < f'.id) :
    PlaceholderFileStore.newestFirst files = SqliteFileStore.orderBy files ↔ (files.map SharedFile.modified).Nodup := by
  constructor
  · intro heq
    rw [List.Nodup, List.pairwise_map, List.pairwise_iff_forall_sublist]
    intro f f' hsub hsame
    have hid : f.id < f'.id := List.pairwise_iff_forall_sublist.mp h hsub
    have hlisted : [f, f'].Sublist (SqliteFileStore.orderBy files) := by
      rw [← heq]
      apply List.pair_sublist_insertionSort _ hsub
      rw [hsame]
    have : Std.Total SqliteFileStore.Precedes := ⟨precedes_total⟩
    have : IsTrans SharedFile SqliteFileStore.Precedes := ⟨fun _ _ _ => precedes_trans⟩
    have hsorted := List.pairwise_insertionSort SqliteFileStore.Precedes files
    rcases List.pairwise_iff_forall_sublist.mp hsorted hlisted with hlt | ⟨-, hle⟩
    · rw [hsame] at hlt
      exact lt_irrefl _ hlt
    · omega
  · intro hnodup
    refine (List.map_id _).symm.trans ((List.map_insertionSort _ _ id files ?_).trans (congrArg _ (List.map_id files)))
    intro f hf f' hf'
    show f'.modified.fields ≤ f.modified.fields ↔ _
    rw [le_iff_lt_or_eq, ← DateTime.isoformat_lt_iff]
    refine or_congr Iff.rfl ⟨fun heq => ?_, fun heq => ?_⟩
    · obtain rfl := List.inj_on_of_nodup_map hnodup hf hf' (DateTime.fields_inj heq).symm
      exact ⟨rfl, le_refl _⟩
    · exact congrArg DateTime.fields (DateTime.isoformat_inj heq.1)

/-! ## Whole runs -/

/-- **The two replies to a call** are the same exactly if it is plain. -/
theorem Simulates.reply_eq_iff (h : Simulates p q) (c : FileCall) : (p.call c).1 = (q.call c).1 ↔ Plain p c := by
  have hoverflow {α : Type} {f : α → FileResult} {x : Except StoreError α} (hx : x ≠ .error .overflow) :
      x.map f ≠ (.error .overflow : Except StoreError α).map f := by
    intro heq
    cases x with
    | error e => exact hx (congrArg _ (Except.error.inj heq))
    | ok a => cases heq
  cases c with
  | list =>
      show Except.ok (FileResult.files _) = Except.ok (FileResult.files _) ↔ _
      have hmodified : (p.rows.entries.map fun e => e.2.shared e.1).map SharedFile.modified
          = p.rows.values.map FileRow.modified := by
        rw [OrdMap.values, List.map_map, List.map_map]
        rfl
      rw [Except.ok.injEq, FileResult.files.injEq, PlaceholderFileStore.list, SqliteFileStore.list, ← h.rows]
      dsimp only
      rw [newestFirst_eq_orderBy_iff, hmodified]
      · rfl
      · rw [List.pairwise_map, h.rows]
        exact h.numbered.ascending
  | add name content node contentType now =>
      refine iff_of_true ?_ trivial
      show Except.ok (FileResult.added (FileRow.shared p.nextId _)) = Except.ok (FileResult.added (FileRow.shared _ _))
      rw [h.next]
      rfl
  | get id =>
      show (p.get id).map _ = (q.get id).map _ ↔ SqliteFileStore.Fits id
      unfold PlaceholderFileStore.get SqliteFileStore.get OrdMap.get
      rw [h.rows]
      -- an id beyond 64 bits overflows in SQLite, whatever is stored
      by_cases hfits : SqliteFileStore.Fits id
      · rw [if_neg (not_not.mpr hfits)]
        exact iff_of_true rfl hfits
      · rw [if_pos hfits]
        refine iff_of_false (hoverflow ?_) hfits
        cases q.rows.lookup id <;> simp
  | delete id =>
      show (p.delete id).1.map _ = (q.delete id).1.map _ ↔ SqliteFileStore.Fits id
      unfold PlaceholderFileStore.delete SqliteFileStore.delete OrdMap.has OrdMap.get
      rw [h.rows]
      by_cases hfits : SqliteFileStore.Fits id
      · rw [if_neg (not_not.mpr hfits)]
        refine iff_of_true ?_ hfits
        dsimp only
        cases hrow : q.rows.lookup id with
        | none =>
            rw [if_pos (filter_id_length.mpr hrow)]
            rfl
        | some r =>
            have hsome : (q.rows.filter fun e => e.1 = id).length ≠ 0 := by
              intro hzero
              rw [filter_id_length.mp hzero] at hrow
              cases hrow
            rw [if_neg hsome]
            rfl
      · rw [if_pos hfits]
        refine iff_of_false (hoverflow ?_) hfits
        cases q.rows.lookup id <;> simp
  | seedIfEmpty now now' => exact iff_of_true rfl trivial

theorem Simulates.replies_eq_iff (h : Simulates p q) (calls : List FileCall) :
    replies PlaceholderFileStore.call p calls = replies SqliteFileStore.call q calls ↔
      ∀ pre c post, calls = pre ++ c :: post → Plain (after PlaceholderFileStore.call p pre) c := by
  induction calls generalizing p q with
  | nil => exact iff_of_true rfl fun pre c post heq => absurd heq (by simp)
  | cons c calls ih =>
      rw [forall_split_cons, replies, replies, List.cons_eq_cons, h.reply_eq_iff c]
      -- once the replies to a call differ, nothing is claimed of the stores after it
      exact and_congr_right fun hc => ih (h.call hc)

/-- **The stores are interchangeable** as long as no two files that are listed were added at the same microsecond, and no
    id is beyond 64 bits. -/
theorem stores_agree_iff (root bind bind' : String) (calls : List FileCall) :
    replies PlaceholderFileStore.call (.new bind) calls = replies SqliteFileStore.call (.new root bind') calls ↔
      ∀ pre c post, calls = pre ++ c :: post → Plain (after PlaceholderFileStore.call (.new bind) pre) c :=
  (Simulates.new root bind bind').replies_eq_iff calls

/-! ## What is stored, and for how long -/

/-- Rows under consecutive ids. -/
def numberedFrom : Int → List FileRow → List (Int × FileRow)
  | _, [] => []
  | id, r :: rs => (id, r) :: numberedFrom (id + 1) rs

namespace SqliteFileStore

/-- The rows that a call puts into the table. -/
def inserted (s : SqliteFileStore) : FileCall → List (Int × FileRow)
  | .add name content node contentType now =>
      numberedFrom (s.sequence + 1) [⟨name, content.length, node, contentType, content, now⟩]
  | .seedIfEmpty now now' => if s.isEmpty then numberedFrom (s.sequence + 1) (seedRows now now') else []
  | .list => []
  | .get _ => []
  | .delete _ => []

/-- The ids that calls put into the table, in their order. -/
def insertedIds (s : SqliteFileStore) : List FileCall → List Int
  | [] => []
  | c :: calls => (s.inserted c).map Prod.fst ++ insertedIds (s.call c).2 calls

/-- The call takes the row out. -/
def Deletes (id : Int) (c : FileCall) : Prop := c = .delete id ∧ Fits id

variable {s : SqliteFileStore}

theorem rows_stores (rs : List FileRow) : (rs.foldl store s).rows = s.rows ++ numberedFrom (s.sequence + 1) rs := by
  induction rs generalizing s with
  | nil => exact (List.append_nil _).symm
  | cons r rs ih =>
      rw [List.foldl_cons, ih, numberedFrom]
      show (s.rows ++ [_]) ++ _ = _
      rw [List.append_assoc]
      rfl

theorem numbered_stores (h : Numbered s.rows (s.sequence + 1)) (rs : List FileRow) :
    Numbered (rs.foldl store s).rows ((rs.foldl store s).sequence + 1) := by
  induction rs generalizing s with
  | nil => exact h
  | cons r rs ih => exact ih (h.store r)

theorem numbered_call (h : Numbered s.rows (s.sequence + 1)) (c : FileCall) :
    Numbered (s.call c).2.rows ((s.call c).2.sequence + 1) := by
  cases c with
  | list => exact h
  | add name content node contentType now => exact h.store _
  | get id => exact h
  | delete id =>
      show Numbered (s.delete id).2.rows ((s.delete id).2.sequence + 1)
      unfold delete
      split
      · exact h
      · dsimp only
        split
        · exact h
        · exact h.filter _
  | seedIfEmpty now now' =>
      show Numbered (s.seedIfEmpty now now').rows ((s.seedIfEmpty now now').sequence + 1)
      unfold seedIfEmpty
      split
      · exact numbered_stores h _
      · exact h

/-- **One call**: a row is in the table after it if it was before and is not taken out, or if the call puts it in. -/
theorem mem_call {e : Int × FileRow} (c : FileCall) :
    e ∈ (s.call c).2.rows ↔ e ∈ s.rows ∧ ¬Deletes e.1 c ∨ e ∈ s.inserted c := by
  have hother (h : ∀ id, c ≠ .delete id) : ¬Deletes e.1 c := fun hd => h _ hd.1
  cases c with
  | list => simp [hother, call, inserted]
  | add name content node contentType now =>
      show e ∈ s.rows ++ [_] ↔ _
      simp [hother, inserted, numberedFrom]
  | get id => simp [hother, call, inserted]
  | delete id =>
      show e ∈ (s.delete id).2.rows ↔ _
      unfold delete Deletes
      by_cases hfits : Fits id
      · rw [if_neg (not_not.mpr hfits)]
        dsimp only
        by_cases hzero : (s.rows.filter fun e => e.1 = id).length = 0
        · -- there is no row with the id
          rw [if_pos hzero]
          have hne (he : e ∈ s.rows) : e.1 ≠ id := by
            have hnil := List.filter_eq_nil_iff.mp (List.length_eq_zero_iff.mp hzero) e he
            simpa using hnil
          simp only [inserted, List.not_mem_nil, or_false, FileCall.delete.injEq]
          exact ⟨fun he => ⟨he, fun hd => hne he hd.1.symm⟩, fun he => he.1⟩
        · rw [if_neg hzero]
          simp only [inserted, List.not_mem_nil, or_false, FileCall.delete.injEq, List.mem_filter, decide_eq_true_eq]
          refine and_congr_right fun _ => ⟨fun hne hd => hne hd.1.symm, fun hd heq => hd ⟨heq.symm, heq ▸ hfits⟩⟩
      · rw [if_pos hfits]
        simp only [inserted, List.not_mem_nil, or_false, FileCall.delete.injEq]
        refine ⟨fun he => ⟨he, ?_⟩, fun he => he.1⟩
        rintro ⟨rfl, hd⟩
        exact hfits hd
  | seedIfEmpty now now' =>
      show e ∈ (s.seedIfEmpty now now').rows ↔ _
      have hkeep : ¬Deletes e.1 (.seedIfEmpty now now') := hother nofun
      unfold seedIfEmpty inserted
      split
      · rw [rows_stores, List.mem_append]
        simp [hkeep]
      · simp [hkeep]

theorem numberedFrom_bounds {id : Int} {rs : List FileRow} :
    ∀ e ∈ numberedFrom id rs, id ≤ e.1 ∧ e.1 < id + (numberedFrom id rs).length := by
  induction rs generalizing id with
  | nil =>
      intro e he
      cases he
  | cons r rs ih =>
      intro e he
      rw [numberedFrom, List.length_cons]
      rcases List.mem_cons.mp he with rfl | he
      · simp only
        omega
      · have hrest := ih e he
        omega

theorem numberedFrom_ascending {id : Int} {rs : List FileRow} :
    ((numberedFrom id rs).map Prod.fst).Pairwise fun i j => i < j := by
  induction rs generalizing id with
  | nil => exact .nil
  | cons r rs ih =>
      refine List.pairwise_cons.mpr ⟨?_, ih⟩
      intro j hj
      obtain ⟨e, he, rfl⟩ := List.mem_map.mp hj
      have hrest := (numberedFrom_bounds e he).1
      simp only
      omega

theorem sequence_stores (rs : List FileRow) :
    (rs.foldl store s).sequence = s.sequence + (numberedFrom (s.sequence + 1) rs).length := by
  induction rs generalizing s with
  | nil => exact (Int.add_zero _).symm
  | cons r rs ih =>
      rw [List.foldl_cons, ih, numberedFrom, List.length_cons]
      show s.sequence + 1 + _ = _
      simp only [store]
      omega

/-- What a call puts in is numbered from the sequence on, and the sequence follows. -/
theorem inserted_numbered (c : FileCall) :
    (∃ rs, s.inserted c = numberedFrom (s.sequence + 1) rs) ∧ (s.call c).2.sequence = s.sequence + (s.inserted c).length := by
  cases c with
  | list => exact ⟨⟨[], rfl⟩, (Int.add_zero _).symm⟩
  | add name content node contentType now => exact ⟨⟨_, rfl⟩, rfl⟩
  | get id => exact ⟨⟨[], rfl⟩, (Int.add_zero _).symm⟩
  | delete id =>
      refine ⟨⟨[], rfl⟩, ?_⟩
      show (s.delete id).2.sequence = s.sequence + 0
      rw [Int.add_zero]
      unfold delete
      split
      · rfl
      · dsimp only
        split <;> rfl
  | seedIfEmpty now now' =>
      show _ ∧ (s.seedIfEmpty now now').sequence = _
      by_cases hempty : s.isEmpty = true
      · simp only [inserted, seedIfEmpty, if_pos hempty]
        exact ⟨⟨_, rfl⟩, sequence_stores _⟩
      · simp only [inserted, seedIfEmpty, if_neg hempty]
        exact ⟨⟨[], rfl⟩, (Int.add_zero _).symm⟩

/-- **No id is given out twice**: the ids that calls put in ascend, beyond all that were there before. -/
theorem insertedIds_ascending (calls : List FileCall) :
    (∀ id ∈ s.insertedIds calls, s.sequence < id) ∧ (s.insertedIds calls).Pairwise fun i j => i < j := by
  induction calls generalizing s with
  | nil => exact ⟨fun id h => absurd h List.not_mem_nil, .nil⟩
  | cons c calls ih =>
      obtain ⟨habove, hrest⟩ := @ih (s.call c).2
      obtain ⟨⟨rs, hrs⟩, hsequence⟩ := s.inserted_numbered c
      rw [hsequence] at habove
      -- the ids of one call fill the gap between the counter before it and after it
      have hbounds : ∀ id ∈ (s.inserted c).map Prod.fst, s.sequence < id ∧ id ≤ s.sequence + (s.inserted c).length := by
        intro id hid
        obtain ⟨e, he, rfl⟩ := List.mem_map.mp hid
        rw [hrs] at he ⊢
        have hnumbered := numberedFrom_bounds e he
        omega
      constructor
      · intro id hid
        rcases List.mem_append.mp hid with hid | hid
        · exact (hbounds id hid).1
        · have hlater := habove id hid
          omega
      · refine List.pairwise_append.mpr ⟨?_, hrest, ?_⟩
        · rw [hrs]
          exact numberedFrom_ascending
        · intro i hi j hj
          have hfirst := (hbounds i hi).2
          have hlater := habove j hj
          omega

end SqliteFileStore

/-- **A row of the table** was put in by a call, and no later call has taken it out. -/
theorem mem_rows_iff (root bind : String) (calls : List FileCall) (e : Int × FileRow) :
    e ∈ (after SqliteFileStore.call (.new root bind) calls).rows ↔ ∃ pre c post, calls = pre ++ c :: post ∧
      e ∈ (after SqliteFileStore.call (.new root bind) pre).inserted c ∧ ∀ c' ∈ post, ¬SqliteFileStore.Deletes e.1 c' := by
  induction calls using List.reverseRecOn with
  | nil => exact iff_of_false List.not_mem_nil fun ⟨pre, c, post, heq, _⟩ => absurd heq (by simp)
  | append_singleton calls c ih =>
      rw [after_snoc, SqliteFileStore.mem_call, ih]
      constructor
      · rintro (⟨⟨pre, c', post, rfl, hin, hpost⟩, hc⟩ | hin)
        · refine ⟨pre, c', post ++ [c], by simp, hin, ?_⟩
          rw [List.forall_mem_append]
          exact ⟨hpost, List.forall_mem_singleton.mpr hc⟩
        · exact ⟨calls, c, [], rfl, hin, fun _ h => absurd h List.not_mem_nil⟩
      · rintro ⟨pre, c', post, heq, hin, hpost⟩
        rcases concat_split_cons heq with ⟨rfl, rfl, rfl⟩ | ⟨post', rfl, rfl⟩
        · exact .inr hin
        · obtain ⟨hpost, hc⟩ := List.forall_mem_append.mp hpost
          exact .inl ⟨⟨pre, c', post', rfl, hin, hpost⟩, hc c (List.mem_singleton_self c)⟩

/-- **What is stored stays**: an id gives the contents that were stored under it, until it is deleted; and no other id
    gives anything. No id is given out twice: those that calls put in ascend. -/
theorem get_iff_stored (root bind : String) (calls : List FileCall) (id : Int) (content : FileContent) :
    ((after SqliteFileStore.call (.new root bind) calls).get id = .ok content ↔ SqliteFileStore.Fits id ∧
      ∃ pre c post r, calls = pre ++ c :: post ∧ (id, r) ∈ (after SqliteFileStore.call (.new root bind) pre).inserted c ∧
        FileRow.contents r = content ∧ .delete id ∉ post) ∧
    ((SqliteFileStore.new root bind).insertedIds calls).Pairwise fun i j => i < j := by
  refine ⟨?_, (SqliteFileStore.insertedIds_ascending calls).2⟩
  have hnumbered := after_invariant (f := SqliteFileStore.call) (I := fun s => Numbered s.rows (s.sequence + 1))
    (fun _ c h => SqliteFileStore.numbered_call h c) (s := .new root bind)
    ⟨List.Pairwise.nil, fun _ h => absurd h List.not_mem_nil⟩ calls
  have hrow := mem_rows_iff root bind calls
  generalize after SqliteFileStore.call (.new root bind) calls = s at hnumbered hrow
  unfold SqliteFileStore.get
  by_cases hfits : SqliteFileStore.Fits id
  · rw [if_neg (not_not.mpr hfits)]
    -- a `delete` of an id that fits does delete
    have hkept (post : List FileCall) : (∀ c' ∈ post, ¬SqliteFileStore.Deletes id c') ↔ .delete id ∉ post :=
      ⟨fun h hmem => h _ hmem ⟨rfl, hfits⟩, fun h c' hc' hd => h (hd.1 ▸ hc')⟩
    constructor
    · intro h
      split at h
      · cases h
      · next r hget =>
          obtain ⟨pre, c, post, heq, hin, hpost⟩ := (hrow (id, r)).mp ((OrdMap.lookup_eq_some_iff hnumbered.nodup).mp hget)
          exact ⟨hfits, pre, c, post, r, heq, hin, Except.ok.inj h, (hkept post).mp hpost⟩
    · rintro ⟨-, pre, c, post, r, heq, hin, rfl, hpost⟩
      have hget := (OrdMap.lookup_eq_some_iff hnumbered.nodup).mpr
        ((hrow (id, r)).mpr ⟨pre, c, post, heq, hin, (hkept post).mpr hpost⟩)
      rw [hget]
  · rw [if_pos hfits]
    exact iff_of_false (fun h => by cases h) fun h => hfits h.1

end Gui
end VpnPi
